import Mathlib.Data.List.Count
import Zsim.DDR.BankQueue
import Zsim.DDR.Runs

/-!
# Fairness of the bank queues

Runs of insertions and removals on the list of one bank: requests for one row keep their order,
and only so many requests overtake another.
-/

set_option autoImplicit false

namespace Zsim.DDR

/-- The list of a bank, with the requests that were put into it and those that were taken out. -/
structure BankList where
  reqs : List Request
  arrived : List Request
  served : List Request

inductive BankOp
  /-- with the flags of the bank at that time -/
  | queue (b : Bank) (req : Request)
  | popFront

def BankOp.pops : BankOp → Bool
  | queue _ _ => false
  | popFront => true

namespace BankList

def init : BankList := ⟨[], [], []⟩

def queue (c : Config) (s : BankList) (b : Bank) (req : Request) : BankList :=
  let placed := DDRMemory.insert c b s.reqs req
  { s with reqs := placed.2, arrived := s.arrived ++ [placed.1] }

def popFront (s : BankList) : Option BankList :=
  match s.reqs with
  | [] => none
  | r :: rest => some { s with reqs := rest, served := s.served ++ [r] }

def step (c : Config) (s : BankList) : BankOp → Option BankList
  | .queue b req => some (s.queue c b req)
  | .popFront => s.popFront

def legal (s : BankList) : BankOp → Prop
  | .queue _ req => req.id ∉ ids s.arrived
  | .popFront => s.reqs ≠ []

/-- The order in which the requests are served, as it stands. -/
def order (s : BankList) : List Request := s.served ++ s.reqs

end BankList

def bankList (c : Config) : Machine BankList BankOp := ⟨BankList.legal, BankList.step c⟩

instance decidableBankOpLegal (c : Config) (s : BankList) : ∀ op, Decidable ((bankList c).legal s op)
  | .queue _ req => inferInstanceAs (Decidable (req.id ∉ ids s.arrived))
  | .popFront => inferInstanceAs (Decidable (s.reqs ≠ []))

namespace BankList

variable {c : Config}

structure Ok (c : Config) (s : BankList) : Prop where
  grouped : Grouped c.rowHitLimit s.reqs
  inRow : ∀ row, s.order.filter (fun r => r.loc.row = row) = s.arrived.filter fun r => r.loc.row = row
  perm : s.order.Perm s.arrived
  nodup : (ids s.arrived).Nodup

theorem Ok.orderNodup {s : BankList} (ok : Ok c s) : (ids s.order).Nodup :=
  (ok.perm.map Request.id).nodup_iff.mpr ok.nodup

theorem Ok.reqsNodup {s : BankList} (ok : Ok c s) : (ids s.reqs).Nodup := by
  have nodup := ok.orderNodup
  rw [order, ids, List.map_append, List.nodup_append] at nodup
  exact nodup.2.1

theorem Ok.init : Ok c init := ⟨⟨.nil, by simp [BankList.init]⟩, fun _ => rfl, .refl _, .nil⟩

theorem Ok.queue {s : BankList} (ok : Ok c s) (b : Bank) {req : Request} (fresh : req.id ∉ ids s.arrived) :
    Ok c (s.queue c b req) := by
  obtain ⟨sameId, inserted⟩ := insert_inserted c b s.reqs req
  refine ⟨ok.grouped.inserted inserted, fun row => ?_, ?_, ?_⟩
  · have before := ok.inRow row
    rw [order, List.filter_append] at before
    change (s.served ++ (DDRMemory.insert c b s.reqs req).2).filter _ = (s.arrived ++ [_]).filter _
    rw [List.filter_append, inserted.filter_row, ← List.append_assoc, before, List.filter_append]
  · change (s.served ++ (DDRMemory.insert c b s.reqs req).2).Perm (s.arrived ++ [_])
    have moved := (inserted.perm.append_left s.served).trans List.perm_middle
    exact (moved.trans (ok.perm.cons _)).trans (List.perm_append_singleton _ _).symm
  · change (ids (s.arrived ++ [_])).Nodup
    rw [ids, List.map_append, List.nodup_append]
    refine ⟨ok.nodup, List.nodup_singleton _, fun id old id' isNew same => fresh ?_⟩
    rw [List.map_singleton, List.mem_singleton, sameId] at isNew
    rw [← isNew, ← same]
    exact old

theorem popFront_eq {s s' : BankList} (pops : s.popFront = some s') :
    ∃ r, s.reqs = r :: s'.reqs ∧ s'.served = s.served ++ [r] ∧ s'.arrived = s.arrived := by
  unfold popFront at pops
  split at pops
  · cases pops
  case h_2 r rest isList =>
    cases pops
    exact ⟨r, isList, rfl, rfl⟩

theorem Ok.popFront {s s' : BankList} (ok : Ok c s) (pops : s.popFront = some s') : Ok c s' := by
  obtain ⟨r, isList, served, arrived⟩ := popFront_eq pops
  have same : s'.order = s.order := by
    rw [order, order, isList, served, List.append_assoc]
    rfl
  have grouped := ok.grouped
  rw [isList] at grouped
  refine ⟨grouped.tail, ?_, ?_, ?_⟩
  · rw [same, arrived]
    exact ok.inRow
  · rw [same, arrived]
    exact ok.perm
  · rw [arrived]
    exact ok.nodup

theorem step_preserves : (bankList c).Preserves (Ok c) := by
  intro s op ok legal
  cases op with
  | queue b req => exact ⟨_, rfl, ok.queue b legal⟩
  | popFront =>
      obtain ⟨r, rest, isList⟩ := List.exists_cons_of_ne_nil legal
      have pops : s.popFront = some { s with reqs := rest, served := s.served ++ [r] } := by
        rw [BankList.popFront]
        split
        · rename_i empty
          rw [isList] at empty
          cases empty
        · rename_i isList'
          cases isList.symm.trans isList'
          rfl
      exact ⟨_, pops, ok.popFront pops⟩

/-! ## Overtaking -/

/-- How many of them came later than what `start` knows. -/
def newcomers (start : BankList) (l : List Request) : Nat := l.countP fun r => r.id ∉ ids start.arrived

/-- What is in front of a request of that name. -/
def inFront (id : Nat) (l : List Request) : List Request := l.takeWhile fun r => r.id ≠ id

/-- A request of `start` with `places` requests in front of it, which at most `bound` overtake. -/
inductive Bounded (c : Config) (start : BankList) (r : Request) (places bound : Nat) (s : BankList) : Prop
  | waits (front behind : List Request) (isList : s.reqs = front ++ r :: behind)
      (few : start.newcomers (s.served ++ front) + room c.rowHitLimit (front ++ [r]) ≤ bound)
      (length : (s.served ++ front).length ≤ places + start.newcomers (s.served ++ front))
  | served (ahead later : List Request) (isServed : s.served = ahead ++ r :: later)
      (few : start.newcomers ahead ≤ bound)

theorem Bounded.popFront {start s s' : BankList} {r : Request} {places bound : Nat}
    (bounded : Bounded c start r places bound s) (pops : s.popFront = some s') :
    Bounded c start r places bound s' := by
  obtain ⟨first, isFirst, served, -⟩ := popFront_eq pops
  cases bounded with
  | served ahead later isServed few =>
      exact .served ahead (later ++ [first]) (by rw [served, isServed, List.append_assoc]; rfl) few
  | waits front behind isList few length =>
      rw [isList] at isFirst
      cases front with
      | nil =>
          obtain ⟨rfl, -⟩ := List.cons.inj isFirst
          refine .served s.served [] served ?_
          rw [List.append_nil] at few
          exact Nat.le_trans (Nat.le_add_right _ _) few
      | cons a front =>
          obtain ⟨rfl, rest⟩ := List.cons.inj isFirst
          have same : s'.served ++ front = s.served ++ a :: front := by
            rw [served, List.append_assoc]
            rfl
          refine .waits front behind rest.symm ?_ ?_
          · rw [same]
            exact Nat.le_trans (Nat.add_le_add_left (room_cons_le _ _ _) _) few
          · rw [same]
            exact length

theorem Bounded.queue {start s : BankList} {r : Request} {places bound : Nat} (ok : Ok c s)
    (known : ids start.arrived ⊆ ids s.arrived) (b : Bank) {req : Request}
    (fresh : req.id ∉ ids s.arrived) (bounded : Bounded c start r places bound s) :
    Bounded c start r places bound (s.queue c b req) := by
  obtain ⟨sameId, inserted⟩ := insert_inserted c b s.reqs req
  cases bounded with
  | served ahead later isServed few => exact .served ahead later isServed few
  | waits front behind isList few length =>
      rcases inserted.around ok.grouped isList with ⟨behind', isList'⟩ | ⟨first, second, rfl, isList', less⟩
      · exact .waits front behind' isList' few length
      · -- the newcomer is in front
        have isNew : start.newcomers [(DDRMemory.insert c b s.reqs req).1] = 1 := by
          have notOld : req.id ∉ ids start.arrived := fun old => fresh (known old)
          simp [newcomers, sameId, notOld]
        have count : start.newcomers (s.served ++ (first ++ (DDRMemory.insert c b s.reqs req).1 :: second)) =
            start.newcomers (s.served ++ (first ++ second)) + 1 := by
          rw [newcomers, newcomers] at *
          simp only [List.countP_append, List.countP_cons] at isNew ⊢
          simp only [List.countP_nil] at isNew
          omega
        refine .waits (first ++ (DDRMemory.insert c b s.reqs req).1 :: second) behind isList' ?_ ?_
        · change start.newcomers (s.served ++ _) + _ ≤ bound
          rw [count]
          omega
        · change (s.served ++ _).length ≤ places + start.newcomers (s.served ++ _)
          rw [count]
          simp only [List.length_append, List.length_cons] at length ⊢
          omega

theorem inFront_eq {l ahead later : List Request} {r : Request} (nodup : (ids l).Nodup)
    (isList : l = ahead ++ r :: later) : inFront r.id l = ahead := by
  subst isList
  have before : ∀ a ∈ ahead, a.id ≠ r.id := by
    intro a member same
    rw [ids, List.map_append, List.nodup_append] at nodup
    exact nodup.2.2 a.id (List.mem_map_of_mem member) r.id (by simp) same
  rw [inFront, List.takeWhile_append_of_pos fun a member => decide_eq_true (before a member),
    List.takeWhile_cons_of_neg (by simp), List.append_nil]

theorem Bounded.start {s : BankList} (ok : Ok c s) {front behind : List Request} {r : Request}
    (isList : s.reqs = front ++ r :: behind) :
    Bounded c s r (s.served ++ front).length (groupsBefore r.id s.reqs * c.rowHitLimit) s := by
  have known : s.newcomers (s.served ++ front) = 0 := by
    rw [newcomers, List.countP_eq_zero]
    intro a member
    have inOrder : a ∈ s.order := by
      rw [order, isList, ← List.append_assoc]
      exact List.mem_append_left _ member
    have old : a.id ∈ ids s.arrived := List.mem_map_of_mem (ok.perm.mem_iff.mp inOrder)
    simpa using old
  have nodup := ok.reqsNodup
  have first : r.id ∉ ids front := by
    intro member
    rw [isList, ids, List.map_append, List.nodup_append] at nodup
    exact nodup.2.2 r.id member r.id (by simp) rfl
  refine .waits front behind isList ?_ (Nat.le_add_right _ _)
  rw [known, Nat.zero_add, isList]
  exact room_le c.rowHitLimit first behind

theorem Bounded.run {start s final : BankList} {r : Request} {places bound : Nat} {ops : List BankOp}
    (ok : Ok c s) (known : ids start.arrived ⊆ ids s.arrived) (bounded : Bounded c start r places bound s)
    (legal : (bankList c).LegalRun ops s) (run : (bankList c).exec ops s = some final) :
    Bounded c start r places bound final := by
  have keeps : (bankList c).Preserves fun s =>
      Ok c s ∧ ids start.arrived ⊆ ids s.arrived ∧ Bounded c start r places bound s := by
    rintro s op ⟨ok, known, bounded⟩ legal
    obtain ⟨next, step, ok'⟩ := step_preserves s op ok legal
    refine ⟨next, step, ok', ?_⟩
    cases op with
    | queue b req =>
        cases Option.some.inj step
        refine ⟨fun id old => ?_, bounded.queue ok known b legal⟩
        rw [BankList.queue, ids, List.map_append]
        exact List.mem_append_left _ (known old)
    | popFront =>
        obtain ⟨-, -, -, arrived⟩ := popFront_eq step
        rw [arrived]
        exact ⟨known, bounded.popFront step⟩
  obtain ⟨final', run', -, -, bounded'⟩ := keeps.exec ⟨ok, known, bounded⟩ legal
  cases Option.some.inj (run.symm.trans run')
  exact bounded'

theorem served_length {s final : BankList} {ops : List BankOp}
    (run : (bankList c).exec ops s = some final) :
    final.served.length = s.served.length + ops.countP BankOp.pops := by
  induction ops generalizing s with
  | nil =>
      cases Option.some.inj run
      rfl
  | cons op ops ih =>
      obtain ⟨next, step, run⟩ := Option.bind_eq_some_iff.mp run
      rw [ih run, List.countP_cons]
      cases op with
      | queue b req =>
          cases Option.some.inj step
          rfl
      | popFront =>
          obtain ⟨r, -, served, -⟩ := popFront_eq step
          rw [served, List.length_append]
          simp only [BankOp.pops, List.length_singleton, if_true]
          omega

/-- How often a request is overtaken, and by when it is served. -/
theorem overtaken {before next final : BankList} (ok : Ok c before) {b : Bank} {req : Request}
    {rest : List BankOp} (legal : (bankList c).LegalRun (.queue b req :: rest) before)
    (step : (bankList c).step before (.queue b req) = some next)
    (run : (bankList c).exec rest next = some final) :
    next.newcomers (inFront req.id final.order) ≤ groupsBefore req.id next.reqs * c.rowHitLimit ∧
      ((inFront req.id next.reqs).length + groupsBefore req.id next.reqs * c.rowHitLimit <
          rest.countP BankOp.pops → req.id ∈ ids final.served) := by
  have ok' := step_preserves.keeps ok legal.1 step
  have rest' := legal.2 next step
  obtain ⟨final', run', okFinal⟩ := step_preserves.exec ok' rest'
  cases Option.some.inj (run.symm.trans run')
  obtain ⟨sameId, inserted⟩ := insert_inserted c b before.reqs req
  obtain ⟨front, behind, isList⟩ : ∃ front behind, next.reqs =
      front ++ (DDRMemory.insert c b before.reqs req).1 :: behind := by
    cases Option.some.inj step
    exact List.append_of_mem (inserted.perm.mem_iff.mpr List.mem_cons_self)
  have bounded := (Bounded.start ok' isList).run ok' (List.Subset.refl _) rest' run
  rw [← sameId, inFront_eq ok'.reqsNodup isList]
  have length := served_length run
  cases bounded with
  | served ahead later isServed few =>
      refine ⟨?_, fun _ => ?_⟩
      · have isOrder :
            final.order = ahead ++ (DDRMemory.insert c b before.reqs req).1 :: (later ++ final.reqs) := by
          rw [order, isServed, List.append_assoc]
          rfl
        rw [inFront_eq okFinal.orderNodup isOrder]
        exact few
      · rw [isServed, ids, List.map_append]
        exact List.mem_append_right _ List.mem_cons_self
  | waits ahead later isList' few places =>
      refine ⟨?_, fun enough => ?_⟩
      · have isOrder : final.order =
            final.served ++ ahead ++ (DDRMemory.insert c b before.reqs req).1 :: later := by
          rw [order, isList', List.append_assoc]
        rw [inFront_eq okFinal.orderNodup isOrder]
        exact Nat.le_of_add_right_le few
      · rw [List.length_append, List.length_append] at places
        omega

end BankList

/-- For every limit and every sequence of insertions and removals: no assertion fails, requests for
one row are served as they arrived, they form groups, and a request is overtaken by no more requests
than the groups in front of it have room for, so that it is served after so many removals. -/
theorem bypassing_bounded (c : Config) (ops : List BankOp) (legal : (bankList c).LegalRun ops .init) :
    ∃ final, (bankList c).exec ops .init = some final ∧
      (∀ row, final.order.filter (fun r => r.loc.row = row) =
        final.arrived.filter fun r => r.loc.row = row) ∧
      ((groups final.reqs).flatten = final.reqs ∧ ∀ g ∈ groups final.reqs, IsGroup c.rowHitLimit g) ∧
      ∀ first b req rest before next, ops = first ++ .queue b req :: rest →
        (bankList c).exec first .init = some before →
        (bankList c).step before (.queue b req) = some next →
          next.newcomers (BankList.inFront req.id final.order) ≤
              groupsBefore req.id next.reqs * c.rowHitLimit ∧
            ((BankList.inFront req.id next.reqs).length + groupsBefore req.id next.reqs * c.rowHitLimit <
              rest.countP BankOp.pops → req.id ∈ ids final.served) := by
  obtain ⟨final, run, ok⟩ := BankList.step_preserves.exec BankList.Ok.init legal
  refine ⟨final, run, ok.inRow, ⟨flatten_groups _, ok.grouped.isGroup⟩, ?_⟩
  rintro first b req rest before next rfl reached step
  have okBefore : BankList.Ok c before := by
    obtain ⟨before', reached', okBefore⟩ := BankList.step_preserves.exec BankList.Ok.init legal.of_append
    cases Option.some.inj (reached.symm.trans reached')
    exact okBefore
  rw [Machine.exec_append, reached, Option.bind_some, Machine.exec_cons, step, Option.bind_some] at run
  exact BankList.overtaken okBefore (legal.append_right reached) step run

/-- Two requests for a row, and one for another row that arrives between them. -/
def threeOps : List BankOp :=
  let req (id row : Nat) : Request := ⟨id, ⟨row, 0, 0⟩, false, 0, 0, some id⟩
  [.queue .init (req 0 7), .queue .init (req 1 8), .queue .init (req 2 7), .popFront, .popFront,
    .popFront]

theorem bypassing_bounded_three :
    ∃ final, (bankList (twoBanks 2)).exec threeOps .init = some final ∧
      (∀ row, final.order.filter (fun r => r.loc.row = row) =
        final.arrived.filter fun r => r.loc.row = row) ∧
      ((groups final.reqs).flatten = final.reqs ∧ ∀ g ∈ groups final.reqs, IsGroup 4 g) ∧
      ∀ first b req rest before next, threeOps = first ++ .queue b req :: rest →
        (bankList (twoBanks 2)).exec first .init = some before →
        (bankList (twoBanks 2)).step before (.queue b req) = some next →
          next.newcomers (BankList.inFront req.id final.order) ≤ groupsBefore req.id next.reqs * 4 ∧
            ((BankList.inFront req.id next.reqs).length + groupsBefore req.id next.reqs * 4 <
              rest.countP BankOp.pops → req.id ∈ ids final.served) :=
  bypassing_bounded (twoBanks 2) threeOps (by decide +kernel)

end Zsim.DDR
