import Zsim.Lib.Hdf5
import Zsim.Lib.Loop

/-!
# Access traces

`AccessTraceReader` and `AccessTraceWriter` of access_tracing.h and access_tracing.cpp.  Both go
through their file in chunks, which HDF5 reads and writes.
-/

set_option autoImplicit false

namespace Zsim.AccessTracing

open Hdf5

structure AccessRecord where
  lineAddr : BitVec 64
  reqCycle : BitVec 64
  latency : BitVec 32
  childId : BitVec 32
  /-- the number of an `AccessType` -/
  type : BitVec 32
  deriving DecidableEq

structure PackedAccessRecord where
  lineAddr : BitVec 64
  reqCycle : BitVec 64
  latency : BitVec 32
  childId : BitVec 16
  type : BitVec 16
  deriving DecidableEq

def AccessRecord.pack (acc : AccessRecord) : PackedAccessRecord where
  lineAddr := acc.lineAddr
  reqCycle := acc.reqCycle
  latency := acc.latency
  childId := acc.childId.setWidth 16
  type := (acc.type.setWidth 8).setWidth 16

def PackedAccessRecord.unpack (pr : PackedAccessRecord) : AccessRecord where
  lineAddr := pr.lineAddr
  reqCycle := pr.reqCycle
  latency := pr.latency
  childId := pr.childId.setWidth 32
  type := pr.type.setWidth 32

def PackedAccessRecord.Valid (pr : PackedAccessRecord) : Prop := pr.type < 256#16

instance (pr : PackedAccessRecord) : Decidable pr.Valid := inferInstanceAs (Decidable (_ < _))

inductive Failure where
  /-- a call of HDF5 failed, with the text of the panic or of the assertion -/
  | hdf5 (message : String)
  | panic (message : String)
  /-- another assertion, or an access outside a buffer or a deque -/
  | assertion
  | divisionByZero
  | outOfFuel

def orFail {α : Type} (message : String) : Option α → Except Failure α
  | some a => .ok a
  | none => .error (.hdf5 message)

/-- `PT_CHUNKSIZE` -/
def chunkSize : Nat := 1024 * 256

variable {σ : Type} (h5 : Library σ PackedAccessRecord)

structure AccessTraceReader where
  buf : List PackedAccessRecord
  cur : Nat
  max : Nat
  fname : String
  curFrameRecord : Nat
  numRecords : Nat
  numChildren : BitVec 32

namespace AccessTraceReader

/-- The constructor. -/
def openFile (fname : String) (s : σ) : Except Failure (AccessTraceReader × σ) := do
  let (fid, s) ← orFail ("Could not open HDF5 file " ++ fname) (h5.fopen fname .rdonly s)
  if h5.aread fid "finished" s = 0 then
    .error (.panic ("Trace file " ++ fname ++ " unfinished (halted simulation?)"))
  else do
    let (table, s) ← orFail "Could not open HDF5 packet table" (h5.ptopen fid "accs" s)
    let numRecords := h5.ptgetNumPackets table s
    let numChildren := h5.aread fid "numChildren" s
    let max := min chunkSize numRecords
    let buf := if 0 < max then h5.ptreadPackets table 0 max s else []
    .ok (⟨buf, 0, max, fname, 0, numRecords, numChildren⟩, h5.fclose fid (h5.ptclose table s))

def empty (r : AccessTraceReader) : Bool := r.cur = r.max

def nextChunk (r : AccessTraceReader) (s : σ) : Except Failure (AccessTraceReader × σ) :=
  if r.cur = r.max then
    let r := { r with curFrameRecord := r.curFrameRecord + r.max }
    if r.curFrameRecord < r.numRecords then do
      let max := min chunkSize (r.numRecords - r.curFrameRecord)
      let (fid, s) ← orFail ("Could not open HDF5 file " ++ r.fname) (h5.fopen r.fname .rdonly s)
      let (table, s) ← orFail "Could not open HDF5 packet table" (h5.ptopen fid "accs" s)
      let buf := h5.ptreadPackets table r.curFrameRecord max s
      .ok ({ r with buf := buf, cur := 0, max := max }, h5.fclose fid (h5.ptclose table s))
    else if r.curFrameRecord = r.numRecords then .ok (r, s)
    else .error .assertion
  else .error .assertion

def read (r : AccessTraceReader) (s : σ) : Except Failure (AccessRecord × AccessTraceReader × σ) :=
  if r.cur < r.max then
    match r.buf[r.cur]? with
    | none => .error .assertion
    | some pr => do
      let r := { r with cur := r.cur + 1 }
      let (r, s) ← if r.cur = r.max then r.nextChunk h5 s else .ok (r, s)
      .ok (pr.unpack, r, s)
  else .error .assertion

/-- All that the reader still gives. -/
def readAll : Nat → AccessTraceReader → σ → Except Failure (List AccessRecord × σ)
  | 0, _, _ => .error .outOfFuel
  | fuel + 1, r, s =>
    if r.empty then .ok ([], s)
    else do
      let (acc, r, s) ← r.read h5 s
      let (rest, s) ← readAll fuel r s
      .ok (acc :: rest, s)

end AccessTraceReader

/-- `buf` holds the first `cur` records of the buffer; there is no buffer if `max` is 0. -/
structure AccessTraceWriter where
  buf : List PackedAccessRecord
  max : Nat
  fname : String

namespace AccessTraceWriter

/-- The constructor. -/
def create (fname : String) (numChildren : BitVec 32) (s : σ) : Except Failure (AccessTraceWriter × σ) := do
  let (fid, s) ← orFail ("Could not create HDF5 file " ++ fname) (h5.fcreate fname s)
  let (table, s) ← orFail "Could not create HDF5 dataset" (h5.dcreate fid "accs" s)
  let s := h5.dclose table s
  let s := h5.acreate fid "numChildren" numChildren s
  let s := h5.acreate fid "finished" 0 s
  .ok (⟨[], chunkSize, fname⟩, h5.fclose fid s)

def dump (cont : Bool) (w : AccessTraceWriter) (s : σ) : Except Failure (AccessTraceWriter × σ) := do
  let (fid, s) ← orFail ("Could not open HDF5 file " ++ w.fname) (h5.fopen w.fname .rdwr s)
  let (table, s) ← orFail "Could not open HDF5 packet table" (h5.ptopen fid "accs" s)
  let s ← orFail "err >= 0" (h5.ptappend table w.buf s)
  let s := if cont then s else h5.awrite fid "finished" 1 s
  .ok (⟨[], if cont then w.max else 0, w.fname⟩, h5.fclose fid (h5.ptclose table s))

def write (acc : AccessRecord) (w : AccessTraceWriter) (s : σ) : Except Failure (AccessTraceWriter × σ) :=
  if w.buf.length < w.max then
    let w := { w with buf := w.buf ++ [acc.pack] }
    if w.buf.length = w.max then do
      let (w, s) ← w.dump h5 true s
      if w.buf.length < w.max then .ok (w, s) else .error .assertion
    else .ok (w, s)
  else .error .assertion

end AccessTraceWriter

/-- Creates a trace, writes all records and closes it. -/
def writeTrace (fname : String) (numChildren : BitVec 32) (accs : List AccessRecord) (s : σ) :
    Except Failure σ := do
  let (w, s) ← AccessTraceWriter.create h5 fname numChildren s
  let (w, s) ← accs.foldlM (fun (w, s) acc => w.write h5 acc s) (w, s)
  let (_, s) ← w.dump h5 false s
  .ok s

/-- Opens a trace and reads until it is empty, as the program of dumptrace.cpp does; gives the numbers
of children and of records, and the records. -/
def readTrace (fuel : Nat) (fname : String) (s : σ) :
    Except Failure ((BitVec 32 × Nat × List AccessRecord) × σ) := do
  let (r, s) ← AccessTraceReader.openFile h5 fname s
  let (accs, s) ← r.readAll h5 fuel s
  .ok ((r.numChildren, r.numRecords, accs), s)

/-! ## The calls of HDF5 -/

/-- Only a call of HDF5 that fails on what is there. -/
def MayFail (h5 : Library σ PackedAccessRecord) (view : View σ PackedAccessRecord) (e : Failure) : Prop :=
  (∃ message, e = .hdf5 message) ∧ ¬ Works h5 view

structure IsTrace (c : Contents PackedAccessRecord) (accs : List PackedAccessRecord)
    (numChildren finished : BitVec 32) : Prop where
  accs : c.tables "accs" = some accs
  numChildren : c.attrs "numChildren" = some numChildren
  finished : c.attrs "finished" = some finished

theorem IsTrace.new (accs : List PackedAccessRecord) (numChildren finished : BitVec 32) :
    IsTrace (((Contents.empty.setTable "accs" accs).setAttr "numChildren" numChildren).setAttr "finished"
      finished) accs numChildren finished :=
  ⟨by simp, (Contents.setAttr_of_ne _ (by decide) _).trans (Contents.setAttr_self _ _ _),
    Contents.setAttr_self _ _ _⟩

theorem IsTrace.setTable {c : Contents PackedAccessRecord} {accs : List PackedAccessRecord}
    {numChildren finished : BitVec 32} (isTrace : IsTrace c accs numChildren finished)
    (accs' : List PackedAccessRecord) : IsTrace (c.setTable "accs" accs') accs' numChildren finished :=
  ⟨c.setTable_self _ _, isTrace.numChildren, isTrace.finished⟩

theorem IsTrace.setFinished {c : Contents PackedAccessRecord} {accs : List PackedAccessRecord}
    {numChildren finished : BitVec 32} (isTrace : IsTrace c accs numChildren finished)
    (finished' : BitVec 32) : IsTrace (c.setAttr "finished" finished') accs numChildren finished' :=
  ⟨isTrace.accs, (c.setAttr_of_ne (by decide) _).trans isTrace.numChildren, c.setAttr_self _ _⟩

/-- The file `fname` is a trace of `accs`. -/
def HasTrace (files : Files PackedAccessRecord) (fname : String) (accs : List PackedAccessRecord)
    (numChildren finished : BitVec 32) : Prop :=
  ∃ c, files fname = some c ∧ IsTrace c accs numChildren finished

/-- Only the file `fname` may have changed. -/
def SameElse (fname : String) (files files' : Files PackedAccessRecord) : Prop :=
  ∀ other, other ≠ fname → files' other = files other

theorem SameElse.refl (fname : String) (files : Files PackedAccessRecord) : SameElse fname files files :=
  fun _ _ => rfl

theorem SameElse.trans {fname : String} {files files' files'' : Files PackedAccessRecord}
    (first : SameElse fname files files') (second : SameElse fname files' files'') :
    SameElse fname files files'' :=
  fun other ne => (second other ne).trans (first other ne)

theorem SameElse.update {fname : String} {files files' : Files PackedAccessRecord}
    {c : Option (Contents PackedAccessRecord)} (isUpdate : files' = Function.update files fname c) :
    SameElse fname files files' := by
  intro other ne
  rw [isUpdate, Function.update_of_ne ne]

theorem HasTrace.of_eq {fname : String} {files files' : Files PackedAccessRecord}
    {accs : List PackedAccessRecord} {numChildren finished : BitVec 32} (same : files' fname = files fname)
    (trace : HasTrace files fname accs numChildren finished) :
    HasTrace files' fname accs numChildren finished := by
  obtain ⟨c, found, isTrace⟩ := trace
  exact ⟨c, same.trans found, isTrace⟩

section
variable {h5} {view : View σ PackedAccessRecord} {s : σ} {fname : String} {accs : List PackedAccessRecord}
  {numChildren finished : BitVec 32}

theorem orFail_ends {α : Type} {message : String} {x : Option α} {Post : α → Prop}
    (works : Works h5 view → x.isSome) (post : ∀ a, x = some a → Post a) :
    Ends (MayFail h5 view) Post (orFail message x) := by
  cases x with
  | none => exact .of_error ⟨⟨message, rfl⟩, fun all => Bool.false_ne_true (works all)⟩
  | some a => exact .of_ok (post a rfl)

theorem fopen_ends (lawful : Lawful h5 view) (trace : HasTrace (view.files s) fname accs numChildren finished)
    (mode : Mode) (message : String) :
    Ends (MayFail h5 view)
      (fun (fid, s') => view.files s' = view.files s ∧ view.object s' fid = some (.file fname mode))
      (orFail message (h5.fopen fname mode s)) := by
  obtain ⟨c, found, -⟩ := trace
  refine orFail_ends (fun works => works.fopen _ _ _ c found) ?_
  rintro ⟨fid, s'⟩ run
  obtain ⟨files, opened, -⟩ := lawful.fopen _ _ _ _ _ run
  exact ⟨files, opened⟩

theorem ptopen_ends (lawful : Lawful h5 view) (trace : HasTrace (view.files s) fname accs numChildren finished)
    {fid : Hid} {mode : Mode} (isFile : view.object s fid = some (.file fname mode)) (message : String) :
    Ends (MayFail h5 view)
      (fun (table, s') => view.files s' = view.files s ∧ view.object s' fid = some (.file fname mode) ∧
        view.object s' table = some (.table fname "accs" mode))
      (orFail message (h5.ptopen fid "accs" s)) := by
  obtain ⟨c, found, isTrace⟩ := trace
  refine orFail_ends (fun works => works.ptopen _ _ _ _ _ c accs isFile found isTrace.accs) ?_
  rintro ⟨table, s'⟩ run
  obtain ⟨files, opened, keeps⟩ := lawful.ptopen _ _ _ _ _ _ _ isFile run
  exact ⟨files, keeps fid _ isFile, opened⟩

theorem fcreate_ends (lawful : Lawful h5 view) (fname message : String) (s : σ) :
    Ends (MayFail h5 view)
      (fun (fid, s') => view.files s' = Function.update (view.files s) fname (some .empty) ∧
        view.object s' fid = some (.file fname .rdwr))
      (orFail message (h5.fcreate fname s)) := by
  refine orFail_ends (fun works => works.fcreate _ _) ?_
  rintro ⟨fid, s'⟩ run
  obtain ⟨files, opened, -⟩ := lawful.fcreate _ _ _ _ run
  exact ⟨files, opened⟩

theorem dcreate_ends (lawful : Lawful h5 view) {c : Contents PackedAccessRecord} {fid : Hid}
    (isFile : view.object s fid = some (.file fname .rdwr)) (found : view.files s fname = some c)
    (fresh : c.tables "accs" = none) (message : String) :
    Ends (MayFail h5 view)
      (fun (table, s') =>
        view.files s' = Function.update (view.files s) fname (some (c.setTable "accs" [])) ∧
          view.object s' fid = some (.file fname .rdwr) ∧
          view.object s' table = some (.table fname "accs" .rdwr))
      (orFail message (h5.dcreate fid "accs" s)) := by
  refine orFail_ends (fun works => works.dcreate _ _ _ _ _ isFile found fresh) ?_
  rintro ⟨table, s'⟩ run
  obtain ⟨files, opened, keeps⟩ := lawful.dcreate _ _ _ _ _ _ _ isFile found run
  exact ⟨files, keeps _ _ isFile, opened⟩

theorem ptappend_ends (lawful : Lawful h5 view) {c : Contents PackedAccessRecord} {fid table : Hid}
    (isFile : view.object s fid = some (.file fname .rdwr))
    (isTable : view.object s table = some (.table fname "accs" .rdwr)) (found : view.files s fname = some c)
    (isTrace : IsTrace c accs numChildren finished) (more : List PackedAccessRecord) (message : String) :
    Ends (MayFail h5 view)
      (fun s' => view.files s' = Function.update (view.files s) fname (some (c.setTable "accs" (accs ++ more))) ∧
        view.object s' fid = some (.file fname .rdwr))
      (orFail message (h5.ptappend table more s)) := by
  refine orFail_ends (fun works => works.ptappend _ _ _ _ _ _ _ isTable found isTrace.accs) ?_
  intro s' run
  obtain ⟨files, keeps⟩ := lawful.ptappend _ _ _ _ _ _ _ _ isTable found isTrace.accs run
  exact ⟨files, keeps _ _ isFile⟩

theorem files_close (lawful : Lawful h5 view) (fid table : Hid) (s : σ) :
    view.files (h5.fclose fid (h5.ptclose table s)) = view.files s :=
  (lawful.fclose _ _).1.trans (lawful.ptclose _ _).1

end

/-! ## Reading -/

namespace AccessTraceReader

variable {h5} {view : View σ PackedAccessRecord} {s : σ} {r : AccessTraceReader}
  {accs : List PackedAccessRecord} {numChildren finished : BitVec 32}

/-- The records of the file that have not been read. -/
def remaining (r : AccessTraceReader) (accs : List PackedAccessRecord) : List PackedAccessRecord :=
  r.buf.drop r.cur ++ accs.drop (r.curFrameRecord + r.max)

structure Inv (r : AccessTraceReader) (accs : List PackedAccessRecord) : Prop where
  size : r.buf.length = r.max
  cur_le : r.cur ≤ r.max
  frame : r.cur < r.max → r.curFrameRecord + r.max ≤ accs.length
  ended : r.cur = r.max → accs.length ≤ r.curFrameRecord + r.max
  count : r.numRecords = accs.length

theorem chunkSize_pos : 0 < chunkSize := by decide

theorem openFile_spec (lawful : Lawful h5 view) {fname : String}
    (trace : HasTrace (view.files s) fname accs numChildren finished) (closed : finished ≠ 0) :
    Ends (MayFail h5 view)
      (fun (r, s') => r.Inv accs ∧ r.remaining accs = accs ∧ r.fname = fname ∧
        r.numChildren = numChildren ∧ view.files s' = view.files s)
      (openFile h5 fname s) := by
  unfold openFile
  refine (fopen_ends lawful trace .rdonly _).bind ?_
  rintro ⟨fid, s₁⟩ ⟨files₁, isFile⟩
  have trace₁ := trace.of_eq (congrFun files₁ fname)
  obtain ⟨c₁, found₁, isTrace₁⟩ := trace₁
  dsimp only
  rw [lawful.aread _ _ _ _ _ _ _ isFile found₁ isTrace₁.finished, if_neg closed]
  refine (ptopen_ends lawful ⟨c₁, found₁, isTrace₁⟩ isFile _).bind ?_
  rintro ⟨table, s₂⟩ ⟨files₂, isFile₂, isTable⟩
  obtain ⟨c, found, isTrace⟩ := HasTrace.of_eq (congrFun files₂ fname) ⟨c₁, found₁, isTrace₁⟩
  dsimp only
  rw [lawful.ptgetNumPackets _ _ _ _ _ _ _ isTable found isTrace.accs,
    lawful.aread _ _ _ _ _ _ _ isFile₂ found isTrace.numChildren]
  have few : min chunkSize accs.length ≤ accs.length := Nat.min_le_right _ _
  have isBuf : (if 0 < min chunkSize accs.length then h5.ptreadPackets table 0 (min chunkSize accs.length) s₂
      else []) = accs.take (min chunkSize accs.length) := by
    split
    · rw [lawful.ptreadPackets _ _ _ _ _ _ _ _ _ isTable found isTrace.accs (by rwa [Nat.zero_add]),
        List.drop_zero]
    · next none => rw [Nat.eq_zero_of_not_pos none, List.take_zero]
  rw [isBuf]
  have size : (accs.take (min chunkSize accs.length)).length = min chunkSize accs.length := by
    rw [List.length_take, Nat.min_eq_left few]
  refine .of_ok ⟨⟨size, Nat.zero_le _, fun _ => ?_, fun ended => ?_, rfl⟩, ?_, rfl, rfl, ?_⟩
  · simp only [Nat.zero_add]
    exact few
  · have pos := chunkSize_pos
    simp only at ended ⊢
    omega
  · simp [remaining]
  · exact (files_close lawful _ _ _).trans (files₂.trans files₁)

theorem Inv.empty_iff (inv : r.Inv accs) : r.empty = true ↔ r.remaining accs = [] := by
  simp only [empty, decide_eq_true_eq]
  constructor
  · intro ended
    have all := inv.ended ended
    rw [remaining, ended, ← inv.size, List.drop_length, List.nil_append]
    exact List.drop_eq_nil_of_le (inv.size ▸ all)
  · intro none
    have few := congrArg List.length (List.append_eq_nil_iff.mp none).1
    rw [List.length_drop, inv.size] at few
    have le := inv.cur_le
    simp at few
    omega

theorem take_drop_append (items : List PackedAccessRecord) (n k : Nat) :
    (items.drop n).take k ++ items.drop (n + k) = items.drop n := by
  rw [← List.drop_drop]
  exact List.take_append_drop k _

theorem nextChunk_spec (lawful : Lawful h5 view)
    (trace : HasTrace (view.files s) r.fname accs numChildren finished) (ended : r.cur = r.max)
    (frame : r.curFrameRecord + r.max ≤ accs.length) (size : r.buf.length = r.max)
    (count : r.numRecords = accs.length) :
    Ends (MayFail h5 view)
      (fun (next, s') => next.Inv accs ∧ next.remaining accs = accs.drop (r.curFrameRecord + r.max) ∧
        next.fname = r.fname ∧ next.numChildren = r.numChildren ∧ view.files s' = view.files s)
      (r.nextChunk h5 s) := by
  unfold nextChunk
  rw [if_pos ended]
  dsimp only
  by_cases more : r.curFrameRecord + r.max < r.numRecords
  · rw [if_pos more]
    refine (fopen_ends lawful trace .rdonly _).bind ?_
    rintro ⟨fid, s₁⟩ ⟨files₁, isFile⟩
    refine (ptopen_ends lawful (trace.of_eq (congrFun files₁ _)) isFile _).bind ?_
    rintro ⟨table, s₂⟩ ⟨files₂, -, isTable⟩
    have files := files₂.trans files₁
    obtain ⟨c, found, isTrace⟩ := trace.of_eq (congrFun files _)
    have inside : r.curFrameRecord + r.max + min chunkSize (r.numRecords - (r.curFrameRecord + r.max)) ≤
        accs.length := by omega
    dsimp only
    rw [lawful.ptreadPackets _ _ _ _ _ _ _ _ _ isTable found isTrace.accs inside]
    refine .of_ok ⟨⟨?_, Nat.zero_le _, fun _ => inside, fun none => ?_, count⟩, take_drop_append _ _ _, rfl,
      rfl, ?_⟩
    · rw [List.length_take, List.length_drop]
      exact Nat.min_eq_left (by omega)
    · have pos := chunkSize_pos
      simp only at none ⊢
      omega
    · exact (files_close lawful _ _ _).trans files
  · have last : r.curFrameRecord + r.max = r.numRecords := by omega
    rw [if_neg more, if_pos last]
    refine .of_ok ⟨⟨size, Nat.le_of_eq ended, fun before => absurd ended (Nat.ne_of_lt before), fun _ => ?_,
      count⟩, ?_, rfl, rfl, rfl⟩
    · simp only
      omega
    · show r.buf.drop r.cur ++ accs.drop (r.curFrameRecord + r.max + r.max) = _
      rw [List.drop_eq_nil_of_le (by omega), List.drop_eq_nil_of_le (by omega),
        List.drop_eq_nil_of_le (by omega)]
      rfl

theorem read_spec (lawful : Lawful h5 view) (trace : HasTrace (view.files s) r.fname accs numChildren finished)
    {pr : PackedAccessRecord} {rest : List PackedAccessRecord} (inv : r.Inv accs)
    (remains : r.remaining accs = pr :: rest) :
    Ends (MayFail h5 view)
      (fun (acc, next, s') => acc = pr.unpack ∧ next.Inv accs ∧ next.remaining accs = rest ∧
        next.fname = r.fname ∧ next.numChildren = r.numChildren ∧ view.files s' = view.files s)
      (r.read h5 s) := by
  have before : r.cur < r.max := by
    refine Nat.lt_of_le_of_ne inv.cur_le fun ended => ?_
    have none := inv.empty_iff.mp (decide_eq_true ended)
    rw [none] at remains
    cases remains
  have inside : r.cur < r.buf.length := inv.size.symm ▸ before
  rw [remaining, List.drop_eq_getElem_cons inside] at remains
  obtain ⟨isHead, isRest⟩ := List.cons.inj remains
  have found : r.buf[r.cur]? = some pr := by rw [List.getElem?_eq_getElem inside, isHead]
  unfold read
  rw [if_pos before, found]
  dsimp only
  by_cases last : r.cur + 1 = r.max
  · rw [if_pos last]
    refine (nextChunk_spec (r := { r with cur := r.cur + 1 }) lawful trace last (inv.frame before) inv.size
      inv.count).bind ?_
    rintro ⟨next, s'⟩ ⟨kept, remains', same⟩
    refine .of_ok ⟨rfl, kept, ?_, same⟩
    rw [remains', ← isRest, last, ← inv.size, List.drop_length]
    rfl
  · rw [if_neg last]
    have le : r.cur + 1 ≤ r.max := before
    exact .of_ok ⟨rfl, ⟨inv.size, le, fun _ => inv.frame before, fun ended => absurd ended last, inv.count⟩,
      isRest, rfl, rfl, rfl⟩

theorem readAll_spec (lawful : Lawful h5 view)
    (trace : HasTrace (view.files s) r.fname accs numChildren finished) (inv : r.Inv accs) {fuel : Nat}
    (enough : (r.remaining accs).length < fuel) :
    Ends (MayFail h5 view) (fun (read, _) => read = (r.remaining accs).map PackedAccessRecord.unpack)
      (readAll h5 fuel r s) := by
  induction fuel generalizing r s with
  | zero => exact absurd enough (Nat.not_lt_zero _)
  | succ fuel ih =>
      rw [readAll]
      cases remains : r.remaining accs with
      | nil =>
          rw [if_pos (inv.empty_iff.mpr remains)]
          exact .of_ok rfl
      | cons pr rest =>
          have more : ¬ r.empty = true := fun none => by
            have empty := inv.empty_iff.mp none
            rw [remains] at empty
            cases empty
          rw [if_neg more]
          refine (read_spec lawful trace inv remains).bind ?_
          rintro ⟨acc, next, s₁⟩ ⟨rfl, kept, isRest, fname, -, files⟩
          have shorter : (next.remaining accs).length < fuel := by
            rw [remains, List.length_cons] at enough
            rw [isRest]
            omega
          have trace₁ : HasTrace (view.files s₁) next.fname accs numChildren finished := by
            rw [files, fname]
            exact trace
          refine (ih trace₁ kept shorter).bind ?_
          rintro ⟨read, s₂⟩ rfl
          rw [isRest]
          exact .of_ok rfl

end AccessTraceReader

/-! ## Writing -/

namespace AccessTraceWriter

variable {h5} {view : View σ PackedAccessRecord} {s : σ} {w : AccessTraceWriter}
  {written : List PackedAccessRecord} {numChildren finished : BitVec 32}

/-- A writer that has not been closed, after it has written `written`, to the file or not yet. -/
structure Inv (w : AccessTraceWriter) (files : Files PackedAccessRecord) (numChildren : BitVec 32)
    (written : List PackedAccessRecord) : Prop where
  room : w.buf.length < w.max
  stored : ∃ accs, HasTrace files w.fname accs numChildren 0 ∧ accs ++ w.buf = written

theorem create_spec (lawful : Lawful h5 view) (fname : String) (numChildren : BitVec 32) (s : σ) :
    Ends (MayFail h5 view)
      (fun (w, s') => w.Inv (view.files s') numChildren [] ∧ w.fname = fname ∧
        SameElse fname (view.files s) (view.files s'))
      (create h5 fname numChildren s) := by
  unfold create
  refine (fcreate_ends lawful fname _ s).bind ?_
  rintro ⟨fid, s₁⟩ ⟨files₁, isFile⟩
  have found₁ : view.files s₁ fname = some .empty := by rw [files₁, Function.update_self]
  refine (dcreate_ends lawful isFile found₁ rfl _).bind ?_
  rintro ⟨table, s₂⟩ ⟨files₂, isFile₂, isTable⟩
  have other : fid ≠ table := by
    rintro rfl
    rw [isTable] at isFile₂
    cases isFile₂
  dsimp only
  -- the table is closed, the two attributes are made
  have isFile₃ : view.object (h5.dclose table s₂) fid = some (.file fname .rdwr) :=
    ((lawful.dclose table s₂).2 fid other).trans isFile₂
  have found₃ : view.files (h5.dclose table s₂) fname = some (Contents.setTable .empty "accs" []) := by
    rw [(lawful.dclose table s₂).1, files₂, Function.update_self]
  obtain ⟨files₄, keeps₄⟩ := lawful.acreate fid "numChildren" numChildren _ _ _ isFile₃ found₃ rfl
  have found₄ := (congrFun files₄ fname).trans (Function.update_self _ _ _)
  obtain ⟨files₅, -⟩ := lawful.acreate fid "finished" 0 _ _ _ (keeps₄ _ _ isFile₃) found₄ rfl
  have files₆ := (lawful.fclose fid _).1.trans files₅
  refine .of_ok ⟨⟨AccessTraceReader.chunkSize_pos, [], ⟨_, ?_, .new [] numChildren 0⟩, rfl⟩, rfl, ?_⟩
  · exact (congrFun files₆ fname).trans (Function.update_self _ _ _)
  · have same₃ : SameElse fname (view.files s₂) (view.files (h5.dclose table s₂)) := by
      rw [(lawful.dclose table s₂).1]
      exact .refl _ _
    exact ((((SameElse.update files₁).trans (.update files₂)).trans same₃).trans (.update files₄)).trans
      (.update files₆)

theorem dump_spec (lawful : Lawful h5 view) {stored : List PackedAccessRecord}
    (trace : HasTrace (view.files s) w.fname stored numChildren finished) (cont : Bool) :
    Ends (MayFail h5 view)
      (fun (next, s') => next = ⟨[], if cont then w.max else 0, w.fname⟩ ∧
        HasTrace (view.files s') w.fname (stored ++ w.buf) numChildren (if cont then finished else 1) ∧
        SameElse w.fname (view.files s) (view.files s'))
      (w.dump h5 cont s) := by
  unfold dump
  refine (fopen_ends lawful trace .rdwr _).bind ?_
  rintro ⟨fid, s₁⟩ ⟨files₁, isFile₁⟩
  refine (ptopen_ends lawful (trace.of_eq (congrFun files₁ _)) isFile₁ _).bind ?_
  rintro ⟨table, s₂⟩ ⟨files₂, isFile₂, isTable⟩
  have files := files₂.trans files₁
  obtain ⟨c, found, isTrace⟩ := trace.of_eq (congrFun files _)
  refine (ptappend_ends lawful isFile₂ isTable found isTrace w.buf _).bind ?_
  rintro s₃ ⟨files₃, isFile₃⟩
  have found₃ := (congrFun files₃ w.fname).trans (Function.update_self _ _ _)
  have isTrace₃ := isTrace.setTable (stored ++ w.buf)
  have same₃ : SameElse w.fname (view.files s) (view.files s₃) := by
    rw [← files]
    exact .update files₃
  cases cont with
  | true =>
      have closed := files_close lawful fid table s₃
      refine .of_ok ⟨rfl, ⟨_, (congrFun closed _).trans found₃, isTrace₃⟩, ?_⟩
      rw [← closed] at same₃
      exact same₃
  | false =>
      obtain ⟨files₄, -⟩ := lawful.awrite fid "finished" 1 _ _ _ _ isFile₃ found₃ isTrace₃.finished
      have closed := (files_close lawful fid table _).trans files₄
      have found₄ := (congrFun closed w.fname).trans (Function.update_self _ _ _)
      exact .of_ok ⟨rfl, ⟨_, found₄, isTrace₃.setFinished 1⟩, same₃.trans (.update closed)⟩

theorem write_spec (lawful : Lawful h5 view) (inv : w.Inv (view.files s) numChildren written)
    (acc : AccessRecord) :
    Ends (MayFail h5 view)
      (fun (next, s') => next.Inv (view.files s') numChildren (written ++ [acc.pack]) ∧
        next.fname = w.fname ∧ SameElse w.fname (view.files s) (view.files s'))
      (w.write h5 acc s) := by
  have room := inv.room
  obtain ⟨stored, trace, isWritten⟩ := inv.stored
  have isWritten' : stored ++ (w.buf ++ [acc.pack]) = written ++ [acc.pack] := by
    rw [← List.append_assoc, isWritten]
  unfold write
  rw [if_pos room]
  dsimp only
  by_cases full : (w.buf ++ [acc.pack]).length = w.max
  · have emptied : 0 < w.max := by omega
    rw [if_pos full]
    refine (dump_spec (w := { w with buf := w.buf ++ [acc.pack] }) lawful trace true).bind ?_
    rintro ⟨next, s'⟩ ⟨rfl, trace', same⟩
    simp only [List.length_nil, if_true, if_pos emptied]
    exact .of_ok ⟨⟨emptied, _, trace', (List.append_nil _).trans isWritten'⟩, rfl, same⟩
  · rw [if_neg full]
    refine .of_ok ⟨⟨?_, stored, trace, isWritten'⟩, rfl, .refl _ _⟩
    rw [List.length_append, List.length_singleton] at full
    show (w.buf ++ [acc.pack]).length < w.max
    rw [List.length_append, List.length_singleton]
    omega

theorem writeAll_spec (lawful : Lawful h5 view) (inv : w.Inv (view.files s) numChildren [])
    (accs : List AccessRecord) :
    Ends (MayFail h5 view)
      (fun (next, s') => next.Inv (view.files s') numChildren (accs.map AccessRecord.pack) ∧
        next.fname = w.fname)
      (accs.foldlM (fun (w, s) acc => w.write h5 acc s) (w, s)) := by
  refine Ends.foldlM (s := (w, s)) (fun seen ((next, s') : AccessTraceWriter × σ) =>
    next.Inv (view.files s') numChildren (seen.map AccessRecord.pack) ∧ next.fname = w.fname) ⟨inv, rfl⟩ ?_
  rintro seen acc ⟨mid, s₁⟩ - ⟨kept, same⟩
  refine (write_spec lawful kept acc).mono ?_
  rintro ⟨next, s₂⟩ ⟨kept, same', -⟩
  rw [List.map_append]
  exact ⟨kept, same'.trans same⟩

theorem close_spec (lawful : Lawful h5 view) (inv : w.Inv (view.files s) numChildren written) :
    Ends (MayFail h5 view)
      (fun (_, s') => HasTrace (view.files s') w.fname written numChildren 1 ∧
        SameElse w.fname (view.files s) (view.files s'))
      (w.dump h5 false s) := by
  obtain ⟨stored, trace, isWritten⟩ := inv.stored
  refine (dump_spec lawful trace false).mono ?_
  rintro ⟨next, s'⟩ ⟨-, trace', same⟩
  rw [isWritten] at trace'
  exact ⟨trace', same⟩

end AccessTraceWriter

/-! ## Round trips -/

def AccessRecord.Fits (acc : AccessRecord) : Prop := acc.childId < 65536#32 ∧ acc.type < 256#32

instance (acc : AccessRecord) : Decidable acc.Fits := inferInstanceAs (Decidable (_ ∧ _))

theorem unpack_pack {acc : AccessRecord} (fits : acc.Fits) : acc.pack.unpack = acc := by
  obtain ⟨child, type⟩ := fits
  have child : acc.childId.toNat < 2 ^ 16 := child
  have type : acc.type.toNat < 2 ^ 8 := type
  have childId : (acc.childId.setWidth 16).setWidth 32 = acc.childId := by
    apply BitVec.eq_of_toNat_eq
    simp
    omega
  have isType : ((acc.type.setWidth 8).setWidth 16).setWidth 32 = acc.type := by
    apply BitVec.eq_of_toNat_eq
    simp
    omega
  simp only [AccessRecord.pack, PackedAccessRecord.unpack, childId, isType]

theorem pack_unpack {pr : PackedAccessRecord} (valid : pr.Valid) : pr.unpack.pack = pr := by
  have type : pr.type.toNat < 2 ^ 8 := valid
  have childId : (pr.childId.setWidth 32).setWidth 16 = pr.childId := by
    apply BitVec.eq_of_toNat_eq
    simp
  have isType : ((pr.type.setWidth 32).setWidth 8).setWidth 16 = pr.type := by
    apply BitVec.eq_of_toNat_eq
    simp
    omega
  simp only [AccessRecord.pack, PackedAccessRecord.unpack, childId, isType]

section
variable {h5} {view : View σ PackedAccessRecord} {numChildren : BitVec 32} {fname : String}

theorem writeTrace_spec (lawful : Lawful h5 view) (fname : String) (numChildren : BitVec 32)
    (accs : List AccessRecord) (s : σ) :
    Ends (MayFail h5 view)
      (fun s' => HasTrace (view.files s') fname (accs.map AccessRecord.pack) numChildren 1)
      (writeTrace h5 fname numChildren accs s) := by
  unfold writeTrace
  refine (AccessTraceWriter.create_spec lawful fname numChildren s).bind ?_
  rintro ⟨w, s₁⟩ ⟨inv, rfl, -⟩
  refine (AccessTraceWriter.writeAll_spec lawful inv accs).bind ?_
  rintro ⟨next, s₂⟩ ⟨kept, same⟩
  refine (AccessTraceWriter.close_spec lawful kept).bind ?_
  rintro ⟨_, s₃⟩ ⟨trace, -⟩
  rw [same] at trace
  exact .of_ok trace

theorem readTrace_spec (lawful : Lawful h5 view) {accs : List PackedAccessRecord} {finished : BitVec 32} {s : σ}
    (trace : HasTrace (view.files s) fname accs numChildren finished) (closed : finished ≠ 0) {fuel : Nat}
    (enough : accs.length < fuel) :
    Ends (MayFail h5 view)
      (fun (read, _) => read = (numChildren, accs.length, accs.map PackedAccessRecord.unpack))
      (readTrace h5 fuel fname s) := by
  unfold readTrace
  refine (AccessTraceReader.openFile_spec lawful trace closed).bind ?_
  rintro ⟨r, s₁⟩ ⟨inv, remains, rfl, rfl, files⟩
  have trace₁ := trace.of_eq (congrFun files _)
  refine (AccessTraceReader.readAll_spec lawful trace₁ inv (by rwa [remains])).bind ?_
  rintro ⟨read, s₂⟩ rfl
  rw [remains, inv.count]
  exact .of_ok rfl

/-- A trace that was written and closed is read as it was written, whatever chunks that takes, unless
a call of HDF5 fails. -/
theorem trace_round_trip (lawful : Lawful h5 view) (fname : String) (numChildren : BitVec 32)
    {accs : List AccessRecord} (fits : ∀ acc ∈ accs, acc.Fits) {fuel : Nat} (enough : accs.length < fuel)
    (s : σ) :
    Ends (MayFail h5 view) (fun (read, _) => read = (numChildren, accs.length, accs)) (do
      let s ← writeTrace h5 fname numChildren accs s
      readTrace h5 fuel fname s) := by
  refine (writeTrace_spec lawful fname numChildren accs s).bind fun s₁ trace => ?_
  have fuelled : (accs.map AccessRecord.pack).length < fuel := by rwa [List.length_map]
  refine (readTrace_spec lawful trace (by decide) fuelled).mono ?_
  rintro ⟨read, s₂⟩ rfl
  have same : (accs.map AccessRecord.pack).map PackedAccessRecord.unpack = accs := by
    rw [List.map_map]
    calc
      accs.map (PackedAccessRecord.unpack ∘ AccessRecord.pack) = accs.map id :=
        List.map_congr_left fun acc member => unpack_pack (fits acc member)
      _ = accs := List.map_id accs
  rw [same, List.length_map]

end

/-- A chunk that is full, and two records more. -/
def twoChunks : List AccessRecord :=
  List.replicate chunkSize ⟨0x40, 5, 100, 0, 0⟩ ++ [⟨0x80, 9, 20, 1, 1⟩, ⟨0xc0, 12, 30, 0, 3⟩]

theorem trace_round_trip_twoChunks :
    ∃ out, (do
        let s ← writeTrace inMemory "trace.h5" 2 twoChunks ⟨fun _ => none, []⟩
        readTrace inMemory (chunkSize + 3) "trace.h5" s) = .ok out ∧ out.1 = (2, chunkSize + 2, twoChunks) := by
  have length : twoChunks.length = chunkSize + 2 := by
    rw [twoChunks, List.length_append, List.length_replicate, List.length_cons, List.length_singleton]
  have fits : ∀ acc ∈ twoChunks, acc.Fits := by
    intro acc member
    have few : ∀ acc ∈ [(⟨0x80, 9, 20, 1, 1⟩ : AccessRecord), ⟨0xc0, 12, 30, 0, 3⟩], acc.Fits := by decide
    rcases List.mem_append.mp member with filled | more
    · rw [List.eq_of_mem_replicate filled]
      decide
    · exact few acc more
  have enough : twoChunks.length < chunkSize + 3 := by omega
  have ends := trace_round_trip inMemory_lawful "trace.h5" 2 fits enough ⟨fun _ => none, []⟩
  obtain ⟨out, run, isRead⟩ := Ends.exists_ok ends fun e may => may.2 inMemory_works
  rw [length] at isRead
  exact ⟨out, run, isRead⟩

end Zsim.AccessTracing
