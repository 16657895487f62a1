import Mathlib.Logic.Function.Basic
import Mathlib.Tactic.Common

/-!
# HDF5

The calls of the HDF5 library that work on packet tables and on unsigned attributes, as a parameter:
`Lawful` says what its reference manual says of those that succeed, and `Works` that none fails on
what is there.  A call whose result is no option succeeds on what is open and there.
-/

set_option autoImplicit false

namespace Zsim.Hdf5

/-- The `hid_t` of what is open. -/
abbrev Hid := Nat

/-- `H5F_ACC_RDONLY` and `H5F_ACC_RDWR` -/
inductive Mode where
  | rdonly
  | rdwr
  deriving DecidableEq

/-- What an identifier stands for. -/
inductive Object where
  | file (fname : String) (mode : Mode)
  | table (fname name : String) (mode : Mode)
  deriving DecidableEq

/-- The packets of the tables of a file, and its attributes. -/
structure Contents (ρ : Type) where
  tables : String → Option (List ρ)
  attrs : String → Option (BitVec 32)

abbrev Files (ρ : Type) := String → Option (Contents ρ)

namespace Contents

variable {ρ : Type}

def empty : Contents ρ := ⟨fun _ => none, fun _ => none⟩

def setTable (c : Contents ρ) (name : String) (packets : List ρ) : Contents ρ :=
  { c with tables := Function.update c.tables name (some packets) }

def setAttr (c : Contents ρ) (name : String) (value : BitVec 32) : Contents ρ :=
  { c with attrs := Function.update c.attrs name (some value) }

@[simp] theorem setTable_self (c : Contents ρ) (name : String) (packets : List ρ) :
    (c.setTable name packets).tables name = some packets := Function.update_self _ _ _

@[simp] theorem setTable_attrs (c : Contents ρ) (name : String) (packets : List ρ) :
    (c.setTable name packets).attrs = c.attrs := rfl

@[simp] theorem setAttr_self (c : Contents ρ) (name : String) (value : BitVec 32) :
    (c.setAttr name value).attrs name = some value := Function.update_self _ _ _

theorem setAttr_of_ne (c : Contents ρ) {name other : String} (ne : other ≠ name) (value : BitVec 32) :
    (c.setAttr name value).attrs other = c.attrs other := Function.update_of_ne ne _ _

@[simp] theorem setAttr_tables (c : Contents ρ) (name : String) (value : BitVec 32) :
    (c.setAttr name value).tables = c.tables := rfl

end Contents

/-- The calls, on the state `σ` of the library.  `none` is `H5I_INVALID_HID` or a negative `herr_t`.
A call for an attribute opens and closes it. -/
structure Library (σ ρ : Type) where
  fcreate (fname : String) : σ → Option (Hid × σ)
  fopen (fname : String) (mode : Mode) : σ → Option (Hid × σ)
  fclose (fid : Hid) : σ → σ
  acreate (fid : Hid) (name : String) (value : BitVec 32) : σ → σ
  awrite (fid : Hid) (name : String) (value : BitVec 32) : σ → σ
  aread (fid : Hid) (name : String) : σ → BitVec 32
  /-- `H5Dcreate2`, for a table without packets -/
  dcreate (fid : Hid) (name : String) : σ → Option (Hid × σ)
  dclose (table : Hid) : σ → σ
  ptopen (fid : Hid) (name : String) : σ → Option (Hid × σ)
  ptclose (table : Hid) : σ → σ
  ptgetNumPackets (table : Hid) : σ → Nat
  ptreadPackets (table : Hid) (start n : Nat) : σ → List ρ
  ptappend (table : Hid) (packets : List ρ) : σ → Option σ

/-- What a state of the library means. -/
structure View (σ ρ : Type) where
  files : σ → Files ρ
  object : σ → Hid → Option Object

namespace View

variable {σ ρ : Type} (view : View σ ρ)

/-- What was open stays open. -/
def Keeps (s s' : σ) : Prop := ∀ id o, view.object s id = some o → view.object s' id = some o

def Opens (s s' : σ) (id : Hid) (o : Object) : Prop := view.object s' id = some o ∧ view.Keeps s s'

/-- Only `id` is closed. -/
def Closes (s s' : σ) (id : Hid) : Prop :=
  view.files s' = view.files s ∧ ∀ other, other ≠ id → view.object s' other = view.object s other

end View

variable {σ ρ : Type}

structure Lawful (h5 : Library σ ρ) (view : View σ ρ) : Prop where
  fcreate : ∀ fname s fid s', h5.fcreate fname s = some (fid, s') →
    view.files s' = Function.update (view.files s) fname (some .empty) ∧
      view.Opens s s' fid (.file fname .rdwr)
  fopen : ∀ fname mode s fid s', h5.fopen fname mode s = some (fid, s') →
    view.files s' = view.files s ∧ view.Opens s s' fid (.file fname mode)
  fclose : ∀ fid s, view.Closes s (h5.fclose fid s) fid
  acreate : ∀ fid name value s fname c, view.object s fid = some (.file fname .rdwr) →
    view.files s fname = some c → c.attrs name = none →
    view.files (h5.acreate fid name value s) =
        Function.update (view.files s) fname (some (c.setAttr name value)) ∧
      view.Keeps s (h5.acreate fid name value s)
  awrite : ∀ fid name value s fname c old, view.object s fid = some (.file fname .rdwr) →
    view.files s fname = some c → c.attrs name = some old →
    view.files (h5.awrite fid name value s) =
        Function.update (view.files s) fname (some (c.setAttr name value)) ∧
      view.Keeps s (h5.awrite fid name value s)
  aread : ∀ fid name s fname mode c value, view.object s fid = some (.file fname mode) →
    view.files s fname = some c → c.attrs name = some value → h5.aread fid name s = value
  dcreate : ∀ fid name s fname c table s', view.object s fid = some (.file fname .rdwr) →
    view.files s fname = some c → h5.dcreate fid name s = some (table, s') →
    view.files s' = Function.update (view.files s) fname (some (c.setTable name [])) ∧
      view.Opens s s' table (.table fname name .rdwr)
  dclose : ∀ table s, view.Closes s (h5.dclose table s) table
  ptopen : ∀ fid name s fname mode table s', view.object s fid = some (.file fname mode) →
    h5.ptopen fid name s = some (table, s') →
    view.files s' = view.files s ∧ view.Opens s s' table (.table fname name mode)
  ptclose : ∀ table s, view.Closes s (h5.ptclose table s) table
  ptgetNumPackets : ∀ table s fname name mode c packets, view.object s table = some (.table fname name mode) →
    view.files s fname = some c → c.tables name = some packets → h5.ptgetNumPackets table s = packets.length
  ptreadPackets : ∀ table start n s fname name mode c packets,
    view.object s table = some (.table fname name mode) → view.files s fname = some c →
    c.tables name = some packets → start + n ≤ packets.length →
    h5.ptreadPackets table start n s = (packets.drop start).take n
  ptappend : ∀ table more s s' fname name c packets, view.object s table = some (.table fname name .rdwr) →
    view.files s fname = some c → c.tables name = some packets → h5.ptappend table more s = some s' →
    view.files s' = Function.update (view.files s) fname (some (c.setTable name (packets ++ more))) ∧
      view.Keeps s s'

structure Works (h5 : Library σ ρ) (view : View σ ρ) : Prop where
  fcreate : ∀ fname s, (h5.fcreate fname s).isSome
  fopen : ∀ fname mode s c, view.files s fname = some c → (h5.fopen fname mode s).isSome
  dcreate : ∀ fid name s fname c, view.object s fid = some (.file fname .rdwr) →
    view.files s fname = some c → c.tables name = none → (h5.dcreate fid name s).isSome
  ptopen : ∀ fid name s fname mode c packets, view.object s fid = some (.file fname mode) →
    view.files s fname = some c → c.tables name = some packets → (h5.ptopen fid name s).isSome
  ptappend : ∀ table more s fname name c packets, view.object s table = some (.table fname name .rdwr) →
    view.files s fname = some c → c.tables name = some packets → (h5.ptappend table more s).isSome

/-! ## A library in memory -/

/-- The files, and what the identifiers given out so far stand for. -/
structure Memory (ρ : Type) where
  files : Files ρ
  objects : List (Option Object)

namespace Memory

def object (m : Memory ρ) (id : Hid) : Option Object := m.objects[id]?.join

def put (m : Memory ρ) (o : Object) : Hid × Memory ρ :=
  (m.objects.length, { m with objects := m.objects ++ [some o] })

def close (id : Hid) (m : Memory ρ) : Memory ρ := { m with objects := m.objects.set id none }

def store (m : Memory ρ) (fname : String) (c : Contents ρ) : Memory ρ :=
  { m with files := Function.update m.files fname (some c) }

def view : View (Memory ρ) ρ := ⟨files, object⟩

def setAttr (fid : Hid) (name : String) (value : BitVec 32) (m : Memory ρ) : Memory ρ :=
  match m.object fid with
  | some (.file fname .rdwr) => ((m.files fname).map fun c => m.store fname (c.setAttr name value)).getD m
  | _ => m

/-- The packets of an open table. -/
def packets (m : Memory ρ) (table : Hid) : List ρ :=
  match m.object table with
  | some (.table fname name _) => ((m.files fname).bind fun c => c.tables name).getD []
  | _ => []

end Memory

def inMemory : Library (Memory ρ) ρ where
  fcreate fname m := some ((m.store fname .empty).put (.file fname .rdwr))
  fopen fname mode m := (m.files fname).map fun _ => m.put (.file fname mode)
  fclose := Memory.close
  acreate := Memory.setAttr
  awrite := Memory.setAttr
  aread fid name m :=
    match m.object fid with
    | some (.file fname _) => ((m.files fname).bind fun c => c.attrs name).getD 0
    | _ => 0
  dcreate fid name m :=
    match m.object fid with
    | some (.file fname .rdwr) =>
      (m.files fname).map fun c => (m.store fname (c.setTable name [])).put (.table fname name .rdwr)
    | _ => none
  dclose := Memory.close
  ptopen fid name m :=
    match m.object fid with
    | some (.file fname mode) =>
      ((m.files fname).bind fun c => c.tables name).map fun _ => m.put (.table fname name mode)
    | _ => none
  ptclose := Memory.close
  ptgetNumPackets table m := (m.packets table).length
  ptreadPackets table start n m := ((m.packets table).drop start).take n
  ptappend table more m :=
    match m.object table with
    | some (.table fname name .rdwr) =>
      (m.files fname).bind fun c => (c.tables name).map fun packets =>
        m.store fname (c.setTable name (packets ++ more))
    | _ => none

namespace Memory

theorem put_opens (m : Memory ρ) (o : Object) : view.Opens m (m.put o).2 (m.put o).1 o := by
  constructor
  · simp [view, put, object]
  · intro id other found
    have inside : id < m.objects.length := by
      by_contra outside
      simp [view, object, List.getElem?_eq_none (Nat.le_of_not_lt outside)] at found
    simpa [view, put, object, List.getElem?_append_left inside] using found

theorem close_closes (id : Hid) (m : Memory ρ) : view.Closes m (close id m) id :=
  ⟨rfl, fun other ne => by simp [view, close, object, List.getElem?_set_ne ne.symm]⟩

theorem setAttr_spec {m : Memory ρ} {fid : Hid} {fname : String} {c : Contents ρ}
    (isFile : m.object fid = some (.file fname .rdwr)) (found : m.files fname = some c) (name : String)
    (value : BitVec 32) :
    view.files (setAttr fid name value m) =
        Function.update (view.files m) fname (some (c.setAttr name value)) ∧
      view.Keeps m (setAttr fid name value m) := by
  simp only [setAttr, isFile, found, Option.map_some, Option.getD_some]
  exact ⟨rfl, fun _ _ still => still⟩

end Memory

theorem inMemory_lawful : Lawful (inMemory (ρ := ρ)) Memory.view where
  fcreate fname s fid s' run := by
    cases run
    exact ⟨rfl, Memory.put_opens _ _⟩
  fopen fname mode s fid s' run := by
    obtain ⟨c, -, run⟩ := Option.map_eq_some_iff.mp run
    cases run
    exact ⟨rfl, Memory.put_opens _ _⟩
  fclose := Memory.close_closes
  acreate fid name value s fname c isFile found _ := Memory.setAttr_spec isFile found name value
  awrite fid name value s fname c old isFile found _ := Memory.setAttr_spec isFile found name value
  aread fid name s fname mode c value isFile found isValue := by
    simp only [Memory.view] at isFile found
    simp [inMemory, isFile, found, isValue]
  dcreate fid name s fname c table s' isFile found run := by
    simp only [Memory.view] at isFile found
    simp only [inMemory, isFile, found, Option.map_some, Option.some.injEq] at run
    cases run
    exact ⟨rfl, Memory.put_opens _ _⟩
  dclose := Memory.close_closes
  ptopen fid name s fname mode table s' isFile run := by
    simp only [Memory.view] at isFile
    simp only [inMemory, isFile] at run
    obtain ⟨c, -, run⟩ := Option.map_eq_some_iff.mp run
    cases run
    exact ⟨rfl, Memory.put_opens _ _⟩
  ptclose := Memory.close_closes
  ptgetNumPackets table s fname name mode c packets isTable found isPackets := by
    simp only [Memory.view] at isTable found
    simp [inMemory, Memory.packets, isTable, found, isPackets]
  ptreadPackets table start n s fname name mode c packets isTable found isPackets _ := by
    simp only [Memory.view] at isTable found
    simp [inMemory, Memory.packets, isTable, found, isPackets]
  ptappend table more s s' fname name c packets isTable found isPackets run := by
    simp only [Memory.view] at isTable found
    simp only [inMemory, isTable, found, isPackets, Option.bind_some, Option.map_some,
      Option.some.injEq] at run
    cases run
    exact ⟨rfl, fun _ _ still => still⟩

theorem inMemory_works : Works (inMemory (ρ := ρ)) Memory.view where
  fcreate _ _ := rfl
  fopen fname mode s c found := by
    simp only [Memory.view] at found
    simp [inMemory, found]
  dcreate fid name s fname c isFile found _ := by
    simp only [Memory.view] at isFile found
    simp [inMemory, isFile, found]
  ptopen fid name s fname mode c packets isFile found isPackets := by
    simp only [Memory.view] at isFile found
    simp [inMemory, isFile, found, isPackets]
  ptappend table more s fname name c packets isTable found isPackets := by
    simp only [Memory.view] at isTable found
    simp [inMemory, isTable, found, isPackets]

end Zsim.Hdf5
