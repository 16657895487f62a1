import Mathlib.Data.List.Chain
import Zsim.DDR.Queues

/-!
# The list of one bank

What `queue` does to the requests that wait for a bank, over any sequence of insertions and
removals.  The requests form groups: a number that is not zero continues the group of the request
in front.
-/

set_option autoImplicit false

namespace Zsim.DDR

open DDRMemory (lastOfRow)

/-! ## Groups -/

def groups : List Request → List (List Request)
  | [] => []
  | [r] => [[r]]
  | r :: next :: rest =>
    if next.rowHitSeq = 0 then [r] :: groups (next :: rest)
    else (groups (next :: rest)).modifyHead (r :: ·)

structure IsGroup (limit : Nat) (g : List Request) : Prop where
  oneRow : ∀ r ∈ g, ∀ r' ∈ g, r.loc.row = r'.loc.row
  consecutive : g.IsChain fun r next => next.rowHitSeq = r.rowHitSeq + 1
  bounded : ∀ r ∈ g, r.rowHitSeq ≤ limit

/-- What stands behind a request starts a group or continues that of the request. -/
def Follows (r next : Request) : Prop :=
  next.rowHitSeq = 0 ∨ next.loc.row = r.loc.row ∧ next.rowHitSeq = r.rowHitSeq + 1

structure Grouped (limit : Nat) (q : List Request) : Prop where
  chain : q.IsChain Follows
  bounded : ∀ r ∈ q, r.rowHitSeq ≤ limit

theorem groups_ne_nil (r : Request) (rest : List Request) : ∃ g gs, groups (r :: rest) = (r :: g) :: gs := by
  induction rest generalizing r with
  | nil => exact ⟨[], [], rfl⟩
  | cons next rest ih =>
      obtain ⟨g, gs, tail⟩ := ih next
      rw [groups]
      by_cases starts : next.rowHitSeq = 0
      · rw [if_pos starts]
        exact ⟨_, _, rfl⟩
      · rw [if_neg starts, tail]
        exact ⟨_, _, rfl⟩

theorem flatten_groups (q : List Request) : (groups q).flatten = q := by
  induction q with
  | nil => rfl
  | cons r rest ih =>
      cases rest with
      | nil => rfl
      | cons next rest =>
          obtain ⟨g, gs, tail⟩ := groups_ne_nil next rest
          rw [tail] at ih
          rw [groups]
          split
          · rw [tail, List.flatten_cons, ih]
            rfl
          · rw [tail, List.modifyHead_cons, List.flatten_cons, List.cons_append]
            exact congrArg (r :: ·) ih

theorem Grouped.tail {limit : Nat} {r : Request} {q : List Request} (grouped : Grouped limit (r :: q)) :
    Grouped limit q where
  chain := grouped.chain.tail
  bounded := fun r' member => grouped.bounded r' (List.mem_cons_of_mem _ member)

theorem Grouped.isGroup {limit : Nat} {q : List Request} (grouped : Grouped limit q) :
    ∀ g ∈ groups q, IsGroup limit g := by
  induction q with
  | nil => exact fun g member => absurd member List.not_mem_nil
  | cons r rest ih =>
      have alone : IsGroup limit [r] :=
        ⟨by simp, .singleton r, fun r' member => grouped.bounded r' (by simp at member; simp [member])⟩
      cases rest with
      | nil =>
          intro g member
          rw [List.mem_singleton.mp member]
          exact alone
      | cons next rest =>
          have later := ih grouped.tail
          obtain ⟨g, gs, tail⟩ := groups_ne_nil next rest
          rw [groups]
          split
          case isTrue =>
            intro g' member
            rcases List.mem_cons.mp member with rfl | member
            · exact alone
            · exact later g' member
          case isFalse notFirst =>
            rw [tail, List.modifyHead_cons]
            rw [tail] at later
            have first := later _ List.mem_cons_self
            obtain ⟨sameRow, isNext⟩ := (List.isChain_cons_cons.mp grouped.chain).1.resolve_left notFirst
            have rows : ∀ r' ∈ r :: next :: g, r'.loc.row = r.loc.row := by
              intro r' member
              rcases List.mem_cons.mp member with rfl | member
              · rfl
              · exact (first.oneRow r' member next List.mem_cons_self).trans sameRow
            intro g' member
            rcases List.mem_cons.mp member with rfl | member
            · refine ⟨fun a aMember b bMember => (rows a aMember).trans (rows b bMember).symm,
                List.isChain_cons_cons.mpr ⟨isNext, first.consecutive⟩, fun a aMember => ?_⟩
              rcases List.mem_cons.mp aMember with rfl | aMember
              · exact grouped.bounded a List.mem_cons_self
              · exact first.bounded a aMember
            · exact later g' (List.mem_cons_of_mem _ member)

/-! ## Room in front of a request -/

/-- How many requests can still join the groups that end before the last request of the list. -/
def room (limit : Nat) : List Request → Nat
  | [] => 0
  | [_] => 0
  | r :: next :: rest => (if next.rowHitSeq = 0 then limit - r.rowHitSeq else 0) + room limit (next :: rest)

theorem room_split (limit : Nat) (first : List Request) (r : Request) (second : List Request) :
    room limit (first ++ r :: second) = room limit (first ++ [r]) + room limit (r :: second) := by
  induction first with
  | nil => simp [room]
  | cons a first ih =>
      cases first with
      | nil =>
          change room limit (a :: r :: second) = room limit [a, r] + _
          simp only [room, Nat.add_zero]
      | cons b first =>
          change _ + room limit (b :: first ++ r :: second) = _ + room limit (b :: first ++ [r]) + _
          rw [ih, Nat.add_assoc]

theorem room_cons_le (limit : Nat) (r : Request) (q : List Request) : room limit q ≤ room limit (r :: q) := by
  cases q with
  | nil => exact Nat.zero_le _
  | cons next rest => exact Nat.le_add_left _ _

/-- How many groups are in front of that of a request. -/
def groupsBefore (id : Nat) (q : List Request) : Nat :=
  ((groups q).takeWhile fun g => id ∉ ids g).length

theorem groupsBefore_cons {id : Nat} {r : Request} (other : r.id ≠ id) (next : Request)
    (rest : List Request) :
    groupsBefore id (r :: next :: rest) =
      (if next.rowHitSeq = 0 then 1 else 0) + groupsBefore id (next :: rest) := by
  have notAlone : id ∉ ids [r] := by simpa [ids] using other.symm
  unfold groupsBefore
  rw [groups]
  by_cases starts : next.rowHitSeq = 0
  · rw [if_pos starts, if_pos starts, List.takeWhile_cons_of_pos (by simpa using notAlone),
      List.length_cons, Nat.add_comm]
  · obtain ⟨g, gs, tail⟩ := groups_ne_nil next rest
    rw [if_neg starts, if_neg starts, tail, List.modifyHead_cons, Nat.zero_add, List.takeWhile_cons,
      List.takeWhile_cons]
    have same : id ∉ ids (r :: next :: g) ↔ id ∉ ids (next :: g) := by
      simp [ids, other.symm]
    simp only [same]
    split <;> rfl

theorem room_le (limit : Nat) {front : List Request} {r : Request} (first : r.id ∉ ids front)
    (behind : List Request) :
    room limit (front ++ [r]) ≤ groupsBefore r.id (front ++ r :: behind) * limit := by
  induction front with
  | nil => exact Nat.zero_le _
  | cons a front ih =>
      have other : a.id ≠ r.id := fun same => first (by simp [ids, same])
      have later := ih fun member => first (List.mem_cons_of_mem _ member)
      obtain ⟨next, rest, isRest⟩ : ∃ next rest, front ++ r :: behind = next :: rest :=
        List.exists_cons_of_ne_nil (by simp)
      obtain ⟨next', rest', isRest'⟩ : ∃ next' rest', front ++ [r] = next' :: rest' :=
        List.exists_cons_of_ne_nil (by simp)
      have same : next' = next := by
        cases front with
        | nil => exact (List.cons.inj isRest').1.symm.trans (List.cons.inj isRest).1
        | cons b front => exact (List.cons.inj isRest').1.symm.trans (List.cons.inj isRest).1
      rw [List.cons_append, List.cons_append, isRest, isRest', same, groupsBefore_cons other, Nat.add_mul,
        room]
      rw [isRest, isRest', same] at later
      split <;> omega

/-! ## Insertion -/

/-- The places that `queue` has for a request. -/
inductive Inserted (limit : Nat) (req : Request) : List Request → List Request → Prop
  /-- behind the last request of its row -/
  | joins (front : List Request) (m : Request) (behind : List Request) (row : m.loc.row = req.loc.row)
      (last : ∀ r ∈ behind, r.loc.row ≠ req.loc.row) (seq : req.rowHitSeq = m.rowHitSeq + 1)
      (bounded : req.rowHitSeq ≤ limit) :
      Inserted limit req (front ++ m :: behind) (front ++ m :: req :: behind)
  | starts (q : List Request) (seq : req.rowHitSeq = 0) : Inserted limit req q (q ++ [req])
  /-- in front, where nobody waits -/
  | alone (bounded : req.rowHitSeq ≤ limit) : Inserted limit req [] [req]

theorem lastOfRow_last {row : Nat} {q : List Request} :
    ∀ {front m behind}, lastOfRow row q = some (front, m, behind) →
      m.loc.row = row ∧ ∀ r ∈ behind, r.loc.row ≠ row := by
  have noneLeft : ∀ {l : List Request}, lastOfRow row l = none → ∀ r ∈ l, r.loc.row ≠ row := by
    intro l
    induction l with
    | nil => exact fun _ r member => absurd member List.not_mem_nil
    | cons a rest ih =>
        intro notFound r member
        rw [lastOfRow] at notFound
        split at notFound
        · cases notFound
        · split at notFound
          · cases notFound
          · rcases List.mem_cons.mp member with rfl | member
            · assumption
            · exact ih ‹_› r member
  induction q with
  | nil =>
      intro front m behind found
      cases found
  | cons r rest ih =>
      intro front m behind found
      rw [lastOfRow] at found
      split at found
      case h_1 later =>
        cases found
        exact ih later
      case h_2 notLater =>
        split at found
        case isTrue isRow =>
          cases found
          exact ⟨isRow, noneLeft notLater⟩
        case isFalse => cases found

theorem insert_inserted (c : Config) (b : Bank) (q : List Request) (req : Request) :
    (DDRMemory.insert c b q req).1.id = req.id ∧
      Inserted c.rowHitLimit (DDRMemory.insert c b q req).1 q (DDRMemory.insert c b q req).2 := by
  unfold DDRMemory.insert
  cases found : lastOfRow req.loc.row q with
  | some x =>
      obtain ⟨front, m, behind⟩ := x
      obtain ⟨row, last⟩ := lastOfRow_last found
      dsimp only
      by_cases few : m.rowHitSeq < c.rowHitLimit
      · rw [if_pos few, DDRMemory.lastOfRow_spec found]
        exact ⟨rfl, .joins front m behind row last rfl few⟩
      · rw [if_neg few]
        exact ⟨rfl, .starts q rfl⟩
  | none =>
      dsimp only
      split
      case isTrue bypass =>
        obtain ⟨-, -, few, rfl⟩ := bypass
        exact ⟨rfl, .alone few⟩
      case isFalse => exact ⟨rfl, .starts q rfl⟩

theorem Inserted.perm {limit : Nat} {req : Request} {q q' : List Request} (inserted : Inserted limit req q q') :
    q'.Perm (req :: q) := by
  cases inserted with
  | joins front m behind =>
      have middle : (front ++ [m] ++ req :: behind).Perm (req :: (front ++ [m] ++ behind)) := List.perm_middle
      simpa using middle
  | starts => exact List.perm_append_singleton _ _
  | alone => exact .refl _

theorem Grouped.inserted {limit : Nat} {req : Request} {q q' : List Request}
    (inserted : Inserted limit req q q') (grouped : Grouped limit q) : Grouped limit q' := by
  cases inserted with
  | joins front m behind row last seq bounded =>
      obtain ⟨before, after⟩ := List.isChain_split.mp grouped.chain
      have chain : (req :: behind).IsChain Follows := by
        cases behind with
        | nil => exact .singleton req
        | cons next behind =>
            obtain ⟨follows, rest⟩ := List.isChain_cons_cons.mp after
            have starts := follows.resolve_right fun joined =>
              last next List.mem_cons_self (joined.1.trans row)
            exact List.isChain_cons_cons.mpr ⟨.inl starts, rest⟩
      refine ⟨List.isChain_split.mpr ⟨before, List.isChain_cons_cons.mpr ⟨.inr ⟨row.symm, seq⟩, chain⟩⟩,
        fun r member => ?_⟩
      by_cases isReq : r = req
      · rw [isReq]
        exact bounded
      · exact grouped.bounded r (by simpa [isReq] using member)
  | starts q seq =>
      refine ⟨List.isChain_append.mpr ⟨grouped.chain, .singleton req, fun r _ next isReq => ?_⟩,
        fun r member => ?_⟩
      · cases isReq
        exact .inl seq
      · rcases List.mem_append.mp member with old | isReq
        · exact grouped.bounded r old
        · rw [List.mem_singleton.mp isReq, seq]
          exact Nat.zero_le _
  | alone bounded =>
      refine ⟨.singleton req, fun r isReq => ?_⟩
      rw [List.mem_singleton.mp isReq]
      exact bounded

theorem Inserted.filter_row {limit : Nat} {req : Request} {q q' : List Request}
    (inserted : Inserted limit req q q') (row : Nat) :
    q'.filter (fun r => r.loc.row = row) =
      q.filter (fun r => r.loc.row = row) ++ [req].filter fun r => r.loc.row = row := by
  cases inserted with
  | joins front m behind isRow last =>
      by_cases same : req.loc.row = row
      · have none : behind.filter (fun r => r.loc.row = row) = [] := by
          rw [List.filter_eq_nil_iff]
          intro r member
          have := last r member
          simp only [decide_eq_true_eq]
          omega
        have isRow' : m.loc.row = row := isRow.trans same
        simp [none, same, isRow']
      · simp [List.filter_cons, same]
  | starts => rw [List.filter_append]
  | alone => rfl

/-- The request behind the last one of a row starts a group, so that who joins the row takes a
place of the room in front of it. -/
theorem room_join (limit : Nat) {req m next : Request} (seq : req.rowHitSeq = m.rowHitSeq + 1)
    (bounded : req.rowHitSeq ≤ limit) (starts : next.rowHitSeq = 0) (first rest : List Request) :
    room limit (first ++ m :: req :: next :: rest) < room limit (first ++ m :: next :: rest) := by
  have joins : req.rowHitSeq ≠ 0 := by omega
  rw [room_split, room_split limit first m (next :: rest), room, room, room, if_pos starts, if_neg joins,
    if_pos starts]
  omega

theorem Inserted.around {limit : Nat} {req : Request} {q q' : List Request}
    (inserted : Inserted limit req q q') (grouped : Grouped limit q) {front behind : List Request}
    {r : Request} (isList : q = front ++ r :: behind) :
    (∃ behind', q' = front ++ r :: behind') ∨
      ∃ first second, front = first ++ second ∧ q' = first ++ req :: second ++ r :: behind ∧
        room limit (first ++ req :: second ++ [r]) < room limit (front ++ [r]) := by
  cases inserted with
  | joins before m behind' row last seq bounded =>
      rcases List.append_eq_append_iff.mp isList with ⟨between, rfl, rest⟩ | ⟨between, rfl, rest⟩
      · cases between with
        | nil =>
            cases rest
            exact .inl ⟨req :: behind, by rw [List.append_nil]⟩
        | cons m' between =>
            obtain ⟨rfl, isBehind⟩ := List.cons.inj rest
            change behind' = between ++ r :: behind at isBehind
            subst isBehind
            refine .inr ⟨before ++ [m], between, by simp, by simp, ?_⟩
            have after := (List.isChain_split.mp grouped.chain).2
            have isNext : ∀ next rest, between ++ r :: behind = next :: rest → next.rowHitSeq = 0 := by
              intro next rest isRest
              rw [isRest] at after last
              exact (List.isChain_cons_cons.mp after).1.resolve_right fun joined =>
                last next List.mem_cons_self (joined.1.trans row)
            cases between with
            | nil => simpa using room_join limit seq bounded (isNext r behind rfl) before []
            | cons next between =>
                simpa using room_join limit seq bounded (isNext next _ rfl) before (between ++ [r])
      · cases between with
        | nil =>
            cases rest
            exact .inl ⟨req :: behind, by rw [List.append_nil]⟩
        | cons r' between =>
            obtain ⟨rfl, rfl⟩ := List.cons.inj rest
            exact .inl ⟨_, by rw [List.append_assoc]; rfl⟩
  | starts q seq =>
      subst isList
      exact .inl ⟨_, by rw [List.append_assoc]; rfl⟩
  | alone => simp at isList

end Zsim.DDR
