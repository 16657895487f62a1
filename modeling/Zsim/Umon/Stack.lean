import Mathlib.Algebra.BigOperators.Intervals
import Zsim.Lib.LinkedList
import Zsim.Lib.Loop
import Zsim.Lib.RecencyStack
import Zsim.Umon.Model

/-!
# One list for all associativities

The addresses along the list of a set are the recency stack of the set, cut off at
`buckets` and filled up with empty nodes.  A line hits in an LRU cache of `k` ways if and
only if its position in the list is below `k`.
-/

set_option autoImplicit false

namespace Zsim.Umon

open Finset

/-! ## The reference caches -/

/-- LRU caches of the same number of ways, one for each set, and their misses since the
interval began. -/
structure LruBank where
  cache : Nat → List Nat
  misses : Nat

namespace LruBank

def init : LruBank := ⟨fun _ => [], 0⟩

/-- What a sampled access, or the end of an interval, does to caches of `k` ways. -/
def step (c : UMonConfig) (k : Nat) (bank : LruBank) : UMon.Op → LruBank
  | .access lineAddr =>
    if c.sampleSel lineAddr ≠ 0 then bank
    else
      let set := c.set lineAddr
      { cache := Function.update bank.cache set (lruAccess k (bank.cache set) lineAddr)
        misses := if lineAddr ∈ bank.cache set then bank.misses else bank.misses + 1 }
  | .startNextInterval => { bank with misses := 0 }

def run (c : UMonConfig) (k : Nat) (ops : List UMon.Op) : LruBank := ops.foldl (step c k) init

end LruBank

/-! ## Lists filled up with zeros -/

def pad (n : Nat) (tags : List Nat) : List Nat := tags ++ List.replicate (n - tags.length) 0

theorem mem_pad_take {a n k : Nat} {tags : List Nat} (nonzero : a ≠ 0) :
    a ∈ (pad n tags).take k ↔ a ∈ tags.take k := by
  rw [pad, List.take_append, List.mem_append]
  constructor
  · rintro (here | zero)
    · exact here
    · exact absurd (List.eq_of_mem_replicate (List.mem_of_mem_take zero)) nonzero
  · exact Or.inl

theorem mem_take_of_split {a k : Nat} {before after : List Nat} (first : a ∉ before) :
    a ∈ (before ++ a :: after).take k ↔ before.length < k := by
  rw [List.take_append, List.mem_append]
  constructor
  · rintro (early | late)
    · exact absurd (List.mem_of_mem_take early) first
    · by_contra notLt
      rw [Nat.sub_eq_zero_of_le (Nat.le_of_not_lt notLt)] at late
      simp at late
  · intro lt
    obtain ⟨m, more⟩ := Nat.exists_eq_succ_of_ne_zero (Nat.sub_ne_zero_of_lt lt)
    rw [more]
    exact Or.inr List.mem_cons_self

theorem pad_hit {a n : Nat} {stack before after : List Nat} (nonzero : a ≠ 0)
    (split : pad n (stack.take n) = before ++ a :: after) (first : a ∉ before) :
    a :: (before ++ after) = pad n ((touch a stack).take n) ∧
      ∀ k ≤ n, a ∈ stack.take k ↔ before.length < k := by
  have member : a ∈ stack.take n := by
    have all : a ∈ (pad n (stack.take n)).take (before.length + 1) := by
      rw [split, mem_take_of_split first]
      exact Nat.lt_succ_self _
    exact List.mem_of_mem_take ((mem_pad_take nonzero).mp all)
  constructor
  · have erased := congrArg (List.erase · a) split
    simp only [pad] at erased
    rw [List.erase_append_left _ member, List.erase_append_right _ first, List.erase_cons_head]
      at erased
    rw [← lruAccess_take, lruAccess, if_pos member, touch, pad, ← erased, List.length_cons,
      List.length_erase_of_mem member, List.cons_append]
    have pos := List.length_pos_of_mem member
    rw [Nat.sub_add_cancel pos]
  · intro k le
    have same : stack.take k = (stack.take n).take k := by
      rw [List.take_take, Nat.min_eq_left le]
    rw [same, ← mem_pad_take (n := n) nonzero, split, mem_take_of_split first]

theorem pad_miss {a x n : Nat} {stack before : List Nat}
    (split : pad n (stack.take n) = before ++ [x]) (absent : a ∉ pad n (stack.take n)) :
    a :: before = pad n ((touch a stack).take n) ∧ ∀ k ≤ n, a ∉ stack.take k := by
  have miss : a ∉ stack.take n := fun member => absent (List.mem_append_left _ member)
  constructor
  · rw [← lruAccess_take, lruAccess, if_neg miss]
    have cut := congrArg List.dropLast split
    rw [List.dropLast_concat] at cut
    rw [← cut, pad]
    have short := List.length_take_le n stack
    rcases Nat.lt_or_eq_of_le short with room | full
    · obtain ⟨m, more⟩ := Nat.exists_eq_succ_of_ne_zero (Nat.sub_ne_zero_of_lt room)
      have whole : (a :: stack.take n).take n = a :: stack.take n :=
        List.take_of_length_le (by rw [List.length_cons]; omega)
      rw [whole, pad, List.length_cons, more, List.replicate_succ', ← List.append_assoc,
        List.dropLast_concat, List.cons_append]
      congr 3
      omega
    · have pos : n ≠ 0 := by
        rintro rfl
        simp [pad] at split
      obtain ⟨m, rfl⟩ := Nat.exists_eq_succ_of_ne_zero pos
      have kept : (stack.take (m + 1)).dropLast = (stack.take (m + 1)).take m := by
        rw [List.dropLast_eq_take, full]
        rfl
      have filled : m + 1 - (a :: (stack.take (m + 1)).take m).length = 0 := by
        rw [List.length_cons, List.length_take, full]
        omega
      rw [full, Nat.sub_self, List.replicate_zero, List.append_nil, List.take_succ_cons, pad, filled,
        List.replicate_zero, List.append_nil, kept]
  · intro k le member
    exact miss (List.take_subset_take_left stack le member)

/-! ## One access -/

namespace UMon

/-- The list of a set holds its nodes, and the addresses along it are those of the stack. -/
structure SetInv (c : UMonConfig) (u : UMon) (set : Nat) (stack : List Nat) : Prop where
  list : ∃ nodes, Linked (u.next set) (some (u.heads set)) nodes ∧
    nodes.Perm (List.range c.buckets) ∧
    nodes.map (u.addr set) = pad c.buckets (stack.take c.buckets)

variable {c : UMonConfig} {u : UMon}

theorem find_spec {set lineAddr : Nat} (rest : List Nat) (left b cur : Nat) (prev : Option Nat)
    (linked : Linked (u.next set) (some cur) (cur :: rest)) (count : left = rest.length + 1)
    (total : b + left = c.buckets) :
    ∃ before node after hit, cur :: rest = before ++ node :: after ∧
      (∀ n ∈ before, u.addr set n ≠ lineAddr) ∧
      u.find c set lineAddr left b prev cur = some ⟨before.getLast?.or prev, node, hit⟩ ∧
      (hit = some (b + before.length) ∧ u.addr set node = lineAddr ∨
        hit = none ∧ u.addr set node ≠ lineAddr ∧ after = []) := by
  induction rest generalizing left b cur prev with
  | nil =>
      subst count
      by_cases here : u.addr set cur = lineAddr
      · refine ⟨[], cur, [], some b, rfl, by simp, ?_, Or.inl ⟨rfl, here⟩⟩
        simp [find, here]
      · refine ⟨[], cur, [], none, rfl, by simp, ?_, Or.inr ⟨rfl, here, rfl⟩⟩
        have last : ¬ b < c.buckets - 1 := by
          rw [List.length_nil] at total
          omega
        simp [find, here, last]
  | cons r rest ih =>
      subst count
      by_cases here : u.addr set cur = lineAddr
      · refine ⟨[], cur, r :: rest, some b, rfl, by simp, ?_, Or.inl ⟨rfl, here⟩⟩
        simp [find, here]
      · rw [List.length_cons] at total
        have more : b < c.buckets - 1 := by omega
        obtain ⟨-, next, linked⟩ := linked
        obtain ⟨before, node, after, hit, split, apart, run, outcome⟩ :=
          ih (rest.length + 1) (b + 1) r (some cur) ⟨rfl, linked⟩ rfl (by omega)
        refine ⟨cur :: before, node, after, hit, by rw [split]; rfl, ?_, ?_, ?_⟩
        · intro n member
          rcases List.mem_cons.mp member with rfl | later
          · exact here
          · exact apart n later
        · rw [find, if_neg here, if_pos more, next]
          simp only [Option.bind_eq_bind, Option.bind_some, List.length_cons, run]
          cases before with
          | nil => rfl
          | cons first before => simp [List.getLast?_cons]
        · rw [List.length_cons]
          rcases outcome with ⟨at_, same⟩ | miss
          · refine Or.inl ⟨?_, same⟩
            rw [at_]
            congr 1
            omega
          · exact Or.inr miss

/-- What an access leaves alone. -/
structure OtherSets (set : Nat) (u v : UMon) : Prop where
  addr : ∀ other, other ≠ set → v.addr other = u.addr other
  next : ∀ other, other ≠ set → v.next other = u.next other
  heads : ∀ other, other ≠ set → v.heads other = u.heads other

theorem moveToMRU_spec (u : UMon) {set node : Nat} {before after : List Nat} (hit : Option Nat)
    (linked : Linked (u.next set) (some (u.heads set)) (before ++ node :: after))
    (nodup : (before ++ node :: after).Nodup) :
    ∃ v, u.moveToMRU set ⟨before.getLast?, node, hit⟩ = v ∧
      Linked (v.next set) (some (v.heads set)) (node :: (before ++ after)) ∧
      v.addr = u.addr ∧ v.curWayHits = u.curWayHits ∧ v.curMisses = u.curMisses ∧
      OtherSets set u v := by
  refine ⟨_, rfl, ?_⟩
  rcases List.eq_nil_or_concat before with rfl | ⟨before, p, rfl⟩
  · exact ⟨linked, rfl, rfl, rfl, fun _ _ => rfl, fun _ _ => rfl, fun _ _ => rfl⟩
  · rw [List.concat_eq_append] at linked nodup ⊢
    rw [List.append_assoc] at linked nodup
    rw [List.getLast?_concat, List.append_assoc]
    have moved := linked.moveToFront nodup
    refine ⟨?_, rfl, rfl, rfl, fun _ _ => rfl, ?_, ?_⟩
    · simpa only [moveToMRU, Function.update_self, List.singleton_append] using moved
    · exact fun other apart => Function.update_of_ne apart _ _
    · exact fun other apart => Function.update_of_ne apart _ _

/-- What a sampled access does to the nodes of its set: the one of the line, or the last one if there
is none, goes to the head, and the counter of its position, or that of the misses, is incremented. -/
theorem access_nodes {lineAddr : Nat} {nodes : List Nat} (sampled : c.sampleSel lineAddr = 0)
    (linked : Linked (u.next (c.set lineAddr)) (some (u.heads (c.set lineAddr))) nodes)
    (perm : nodes.Perm (List.range c.buckets)) :
    ∃ before node after v, nodes = before ++ node :: after ∧
      (∀ n ∈ before, u.addr (c.set lineAddr) n ≠ lineAddr) ∧ u.access c lineAddr = some v ∧
      Linked (v.next (c.set lineAddr)) (some (v.heads (c.set lineAddr))) (node :: (before ++ after)) ∧
      OtherSets (c.set lineAddr) u v ∧
      (u.addr (c.set lineAddr) node = lineAddr ∧ v.addr = u.addr ∧
          v.curWayHits = Function.update u.curWayHits before.length (u.curWayHits before.length + 1) ∧
          v.curMisses = u.curMisses ∨
        u.addr (c.set lineAddr) node ≠ lineAddr ∧ after = [] ∧
          v.addr = Function.update u.addr (c.set lineAddr)
            (Function.update (u.addr (c.set lineAddr)) node lineAddr) ∧
          v.curWayHits = u.curWayHits ∧ v.curMisses = u.curMisses + 1) := by
  have length : nodes.length = c.buckets := by rw [perm.length_eq, List.length_range]
  have nodup : nodes.Nodup := perm.symm.nodup List.nodup_range
  cases nodes with
  | nil =>
      have pos := c.buckets_pos
      rw [List.length_nil] at length
      omega
  | cons cur rest =>
      have head : u.heads (c.set lineAddr) = cur := Option.some.inj linked.1
      rw [List.length_cons] at length
      obtain ⟨before, node, after, hit, split, apart, run, outcome⟩ :=
        find_spec rest c.buckets 0 cur none (head ▸ linked) length.symm (Nat.zero_add _)
      rw [Option.or_none] at run
      rw [split] at linked nodup
      rcases outcome with ⟨rfl, same⟩ | ⟨rfl, other, rfl⟩
      · -- a hit at the position of the node
        rw [Nat.zero_add] at run
        obtain ⟨v, moved, list, addr, ways, misses, others⟩ := moveToMRU_spec
          { u with
            curWayHits := Function.update u.curWayHits before.length
              (u.curWayHits before.length + 1) }
          (some before.length) linked nodup
        refine ⟨before, node, after, v, split, apart, ?_, list, ⟨others.addr, others.next, others.heads⟩,
          .inl ⟨same, addr, ways, misses⟩⟩
        simp [access, sampled, head, run, profile, moved]
      · -- a miss, whose node is the last one
        have last : u.next (c.set lineAddr) node = none := linked.last_next
        obtain ⟨v, moved, list, addr, ways, missed, others⟩ := moveToMRU_spec
          { u with
            curMisses := u.curMisses + 1
            addr := Function.update u.addr (c.set lineAddr)
              (Function.update (u.addr (c.set lineAddr)) node lineAddr) }
          none linked nodup
        refine ⟨before, node, [], v, split, apart, ?_, list, ⟨?_, others.next, others.heads⟩,
          .inr ⟨other, rfl, addr, ways, missed⟩⟩
        · simp [access, sampled, head, run, profile, last, moved]
        · intro set apart
          rw [addr]
          exact Function.update_of_ne apart _ _

/-- Every list holds all nodes of its set. -/
def Lists (c : UMonConfig) (u : UMon) : Prop :=
  ∀ set, ∃ nodes, Linked (u.next set) (some (u.heads set)) nodes ∧ nodes.Perm (List.range c.buckets)

theorem Lists.step (lists : Lists c u) (op : Op) : ∃ v, u.step c op = some v ∧ Lists c v := by
  cases op with
  | startNextInterval => exact ⟨_, rfl, lists⟩
  | access lineAddr =>
      by_cases sampled : c.sampleSel lineAddr = 0
      · obtain ⟨nodes, linked, perm⟩ := lists (c.set lineAddr)
        obtain ⟨before, node, after, v, rfl, -, run, list, others, -⟩ := access_nodes sampled linked perm
        refine ⟨v, run, fun set => ?_⟩
        by_cases same : set = c.set lineAddr
        · rw [same]
          exact ⟨_, list, List.perm_middle.symm.trans perm⟩
        · rw [others.next set same, others.heads set same]
          exact lists set
      · exact ⟨u, by simp [UMon.step, access, sampled], lists⟩

/-- A sampled access makes the line the most recently used one of its set, and the counter that is
incremented tells which caches it hits in. -/
theorem access_sampled {lineAddr : Nat} {stack : List Nat} (nonzero : lineAddr ≠ 0)
    (sampled : c.sampleSel lineAddr = 0) (inv : SetInv c u (c.set lineAddr) stack) :
    ∃ v, u.access c lineAddr = some v ∧ SetInv c v (c.set lineAddr) (touch lineAddr stack) ∧
      OtherSets (c.set lineAddr) u v ∧
      ((∃ b < c.buckets, v.curWayHits = Function.update u.curWayHits b (u.curWayHits b + 1) ∧
          v.curMisses = u.curMisses ∧ ∀ k ≤ c.buckets, lineAddr ∈ stack.take k ↔ b < k) ∨
        (v.curWayHits = u.curWayHits ∧ v.curMisses = u.curMisses + 1 ∧
          ∀ k ≤ c.buckets, lineAddr ∉ stack.take k)) := by
  obtain ⟨nodes, linked, perm, addrs⟩ := inv.list
  obtain ⟨before, node, after, v, rfl, apart, run, list, others, outcome⟩ := access_nodes sampled linked perm
  have inside : before.length < c.buckets := by
    have same := perm.length_eq
    rw [List.length_append, List.length_cons, List.length_range] at same
    omega
  have shifted : (node :: (before ++ after)).Perm (List.range c.buckets) :=
    List.perm_middle.symm.trans perm
  have first : lineAddr ∉ before.map (u.addr (c.set lineAddr)) := by
    rw [List.mem_map]
    rintro ⟨n, member, same⟩
    exact apart n member same
  rw [List.map_append, List.map_cons] at addrs
  rcases outcome with ⟨same, addr, ways, misses⟩ | ⟨other, rfl, addr, ways, missed⟩
  · rw [same] at addrs
    obtain ⟨front, hits⟩ := pad_hit nonzero addrs.symm first
    rw [List.length_map] at hits
    refine ⟨v, run, ⟨_, list, shifted, ?_⟩, others, Or.inl ⟨before.length, inside, ways, misses, hits⟩⟩
    rw [addr, List.map_cons, List.map_append, same]
    exact front
  · have absent : lineAddr ∉ pad c.buckets (stack.take c.buckets) := by
      rw [← addrs, List.mem_append, List.map_nil, List.mem_singleton]
      rintro (early | last)
      · exact first early
      · exact other last.symm
    obtain ⟨front, misses⟩ := pad_miss addrs.symm absent
    have once : node ∉ before := fun member =>
      (List.nodup_cons.mp ((shifted.symm.nodup List.nodup_range))).1
        (List.mem_append_left _ member)
    have kept : before.map (Function.update (u.addr (c.set lineAddr)) node lineAddr) =
        before.map (u.addr (c.set lineAddr)) := by
      apply List.map_congr_left
      intro n member
      apply Function.update_of_ne
      rintro rfl
      exact once member
    refine ⟨v, run, ⟨_, list, shifted, ?_⟩, others, Or.inr ⟨ways, missed, misses⟩⟩
    rw [addr, List.append_nil, List.map_cons]
    simp only [Function.update_self, kept]
    exact front

/-! ## The miss curve -/

/-- The accesses of the interval that hit at position `k` or later, or nowhere. -/
def missesFrom (c : UMonConfig) (u : UMon) (k : Nat) : Nat :=
  u.curMisses + ∑ b ∈ Ico k c.buckets, u.curWayHits b

theorem missesFrom_succ {k : Nat} (lt : k < c.buckets) :
    u.missesFrom c k = u.missesFrom c (k + 1) + u.curWayHits k := by
  rw [missesFrom, missesFrom, sum_eq_sum_Ico_succ_bot lt]
  omega

theorem getMisses_eq (misses : Nat → Nat) {k : Nat} (le : k ≤ c.buckets) :
    u.getMisses c misses k = u.missesFrom c k := by
  have loop : (fun i s => s.2 = u.missesFrom c (c.buckets - i) ∧
      ∀ j, c.buckets - i < j → j ≤ c.buckets → s.1 j = u.missesFrom c j) c.buckets
      ((List.range c.buckets).foldl (accumulate c u) (misses, u.curMisses)) := by
    apply foldl_range fun i (s : (Nat → Nat) × Nat) =>
      s.2 = u.missesFrom c (c.buckets - i) ∧
        ∀ j, c.buckets - i < j → j ≤ c.buckets → s.1 j = u.missesFrom c j
    · refine ⟨by simp [missesFrom], fun j lt le => ?_⟩
      omega
    · rintro i ⟨entries, total⟩ lt ⟨sum, written⟩
      dsimp only at sum written
      constructor
      · have here := missesFrom_succ (c := c) (u := u) (k := c.buckets - (i + 1)) (by omega)
        rw [show c.buckets - (i + 1) + 1 = c.buckets - i by omega] at here
        rw [accumulate, here, sum, Nat.sub_sub]
      · intro j after le
        simp only [accumulate]
        by_cases same : j = c.buckets - i
        · rw [same, Function.update_self, sum]
        · rw [Function.update_of_ne same]
          exact written j (by omega) le
  obtain ⟨sum, written⟩ := loop
  rw [Nat.sub_self] at sum written
  simp only [getMisses]
  by_cases zero : k = 0
  · rw [zero, Function.update_self, sum]
  · rw [Function.update_of_ne zero]
    exact written k (Nat.pos_of_ne_zero zero) le

theorem getNumAccesses_eq : u.getNumAccesses c = u.missesFrom c 0 := by
  have loop : u.getNumAccesses c = u.missesFrom c (c.buckets - c.buckets) := by
    apply foldl_range fun i total => total = u.missesFrom c (c.buckets - i)
    · simp [missesFrom]
    · rintro i total lt rfl
      have here := missesFrom_succ (c := c) (u := u) (k := c.buckets - (i + 1)) (by omega)
      rw [here, Nat.sub_sub]
      congr 2
      omega
  rwa [Nat.sub_self] at loop

theorem missesFrom_anti {j k : Nat} (le : j ≤ k) (inside : k ≤ c.buckets) :
    u.missesFrom c k ≤ u.missesFrom c j := by
  induction k, le using Nat.le_induction with
  | base => exact Nat.le_refl _
  | succ k le ih =>
      have here := missesFrom_succ (c := c) (u := u) (k := k) (by omega)
      have before := ih (by omega)
      omega

/-! ## Runs -/

/-- Every set has a recency stack, of which its list and the caches of all numbers of ways
show prefixes. -/
structure Follows (c : UMonConfig) (u : UMon) (bank : Nat → LruBank) (stack : Nat → List Nat) :
    Prop where
  sets : ∀ set, SetInv c u set (stack set)
  cache : ∀ k set, (bank k).cache set = (stack set).take k
  misses : ∀ k ≤ c.buckets, u.missesFrom c k = (bank k).misses

theorem linked_range' (c : UMonConfig) (set n : Nat) {j : Nat} (total : j + n + 1 = c.buckets) :
    Linked ((init c).next set) (some j) (List.range' j (n + 1)) := by
  induction n generalizing j with
  | zero =>
      refine ⟨rfl, ?_⟩
      have last : ¬ j < c.buckets - 1 := by omega
      simp [init, Linked, last]
  | succ n ih =>
      refine ⟨rfl, ?_⟩
      have more : j < c.buckets - 1 := by omega
      simp only [init, if_pos more]
      exact ih (by omega)

theorem Follows.start (c : UMonConfig) :
    Follows c (init c) (fun _ => LruBank.init) fun _ => [] where
  sets set := by
    obtain ⟨n, count⟩ := Nat.exists_eq_succ_of_ne_zero c.buckets_pos.ne'
    refine ⟨List.range' 0 (n + 1), linked_range' c set n (j := 0) (by omega), ?_, ?_⟩
    · rw [List.range_eq_range', count]
    · have zeros : (init c).addr set = fun _ => 0 := rfl
      rw [zeros, List.map_const', List.length_range', List.take_nil, pad, List.length_nil,
        Nat.sub_zero, List.nil_append, count]
  cache k set := by simp [LruBank.init]
  misses k _ := by simp [missesFrom, init, LruBank.init]

theorem Follows.lists {bank : Nat → LruBank} {stack : Nat → List Nat} (follows : Follows c u bank stack) :
    Lists c u := by
  intro set
  obtain ⟨nodes, linked, perm, -⟩ := (follows.sets set).list
  exact ⟨nodes, linked, perm⟩

/-- The counters after a hit at position `b`. -/
theorem missesFrom_hit {v : UMon} {b : Nat} (inside : b < c.buckets)
    (ways : v.curWayHits = Function.update u.curWayHits b (u.curWayHits b + 1))
    (misses : v.curMisses = u.curMisses) (k : Nat) :
    v.missesFrom c k = u.missesFrom c k + if b < k then 0 else 1 := by
  rw [missesFrom, missesFrom, ways, misses]
  by_cases before : b < k
  · have same : ∑ j ∈ Ico k c.buckets, Function.update u.curWayHits b (u.curWayHits b + 1) j =
        ∑ j ∈ Ico k c.buckets, u.curWayHits j := by
      apply sum_congr rfl
      intro j member
      have := (mem_Ico.mp member).1
      exact Function.update_of_ne (by omega) _ _
    rw [same, if_pos before]
    rfl
  · have member : b ∈ Ico k c.buckets := mem_Ico.mpr ⟨by omega, inside⟩
    rw [if_neg before, sum_update_of_mem member, ← add_sum_erase _ _ member,
      sdiff_singleton_eq_erase]
    omega

theorem Follows.step {op : Op} {bank : Nat → LruBank} {stack : Nat → List Nat}
    (follows : Follows c u bank stack) (legal : Legal op) :
    ∃ v stack', u.step c op = some v ∧
      Follows c v (fun k => (bank k).step c k op) stack' := by
  cases op with
  | startNextInterval =>
      refine ⟨_, stack, rfl, ⟨?_, follows.cache, ?_⟩⟩
      · exact fun set => ⟨(follows.sets set).list⟩
      · intro k le
        simp only [missesFrom, startNextInterval, LruBank.step, Nat.zero_add]
        apply sum_eq_zero
        intro b member
        exact if_pos (mem_Ico.mp member).2
  | access lineAddr =>
      by_cases sampled : c.sampleSel lineAddr = 0
      · obtain ⟨v, run, here, others, outcome⟩ :=
          access_sampled legal sampled (follows.sets (c.set lineAddr))
        refine ⟨v, Function.update stack (c.set lineAddr)
          (touch lineAddr (stack (c.set lineAddr))), run, ⟨?_, ?_, ?_⟩⟩
        · intro set
          by_cases same : set = c.set lineAddr
          · rw [same, Function.update_self]
            exact here
          · rw [Function.update_of_ne same]
            constructor
            rw [others.next set same, others.heads set same, others.addr set same]
            exact (follows.sets set).list
        · intro k set
          simp only [LruBank.step, sampled, ne_eq, not_true_eq_false, if_false]
          by_cases same : set = c.set lineAddr
          · rw [same, Function.update_self, Function.update_self, follows.cache, lruAccess_take]
          · rw [Function.update_of_ne same, Function.update_of_ne same]
            exact follows.cache k set
        · intro k le
          have before := follows.misses k le
          simp only [LruBank.step, sampled, ne_eq, not_true_eq_false, if_false, follows.cache]
          rcases outcome with ⟨b, inside, ways, misses, hits⟩ | ⟨ways, misses, absent⟩
          · rw [missesFrom_hit inside ways misses, before]
            by_cases hit : b < k
            · rw [if_pos hit, if_pos ((hits k le).mpr hit), Nat.add_zero]
            · rw [if_neg hit, if_neg fun member => hit ((hits k le).mp member)]
          · rw [if_neg (absent k le), ← before, missesFrom, missesFrom, ways, misses]
            omega
      · refine ⟨u, stack, ?_, ?_⟩
        · simp [UMon.step, access, sampled]
        · simp only [LruBank.step, ne_eq, sampled, not_false_eq_true, if_true]
          exact follows

/-- After any accesses and intervals the miss curve gives the misses of LRU caches of
every number of ways, and every list still holds all nodes of its set. -/
theorem stack_property (c : UMonConfig) (ops : List Op)
    (nonzero : ∀ lineAddr, .access lineAddr ∈ ops → lineAddr ≠ 0) :
    ∃ final, (machine c).exec ops (init c) = some final ∧
      (∀ misses, ∀ k ≤ c.buckets,
        final.getMisses c misses k = (LruBank.run c k ops).misses) ∧
      ∀ set, ∃ nodes, Linked (final.next set) (some (final.heads set)) nodes ∧
        nodes.Perm (List.range c.buckets) := by
  have run : ∀ (ops : List Op) (u : UMon) (bank : Nat → LruBank) (stack : Nat → List Nat),
      (∀ lineAddr, .access lineAddr ∈ ops → lineAddr ≠ 0) → Follows c u bank stack →
      ∃ final stack', (machine c).exec ops u = some final ∧
        Follows c final (fun k => ops.foldl (LruBank.step c k) (bank k)) stack' := by
    intro ops
    induction ops with
    | nil => exact fun u bank stack _ follows => ⟨u, stack, rfl, follows⟩
    | cons op rest ih =>
        intro u bank stack nonzero follows
        have legal : Legal op := by
          cases op with
          | access lineAddr => exact nonzero lineAddr List.mem_cons_self
          | startNextInterval => trivial
        obtain ⟨v, stack', step, after⟩ := follows.step legal
        obtain ⟨final, last, run, done⟩ := ih v _ stack'
          (fun lineAddr member => nonzero lineAddr (List.mem_cons_of_mem op member)) after
        exact ⟨final, last, by rw [Machine.exec_cons]; simp [machine, step]; exact run, done⟩
  obtain ⟨final, stack, done, follows⟩ := run ops (init c) _ _ nonzero (Follows.start c)
  refine ⟨final, done, fun misses k le => ?_, follows.lists⟩
  rw [getMisses_eq misses le]
  exact follows.misses k le

/-- Two sets of two ways that sample every access. -/
def twoWays : UMonConfig where
  bankLines := 4
  umonLines := 4
  buckets := 2
  hash _ lineAddr := lineAddr
  buckets_pos := Nat.two_pos
  sets_pos := Nat.two_pos

theorem stack_property_twoWays :
    ∃ final, (machine twoWays).exec
        [.access 2, .access 4, .access 6, .access 4, .startNextInterval, .access 6] (init twoWays) =
        some final ∧
      (∀ misses, ∀ k ≤ 2, final.getMisses twoWays misses k = (LruBank.run twoWays k
        [.access 2, .access 4, .access 6, .access 4, .startNextInterval, .access 6]).misses) ∧
      ∀ set, ∃ nodes, Linked (final.next set) (some (final.heads set)) nodes ∧
        nodes.Perm (List.range 2) :=
  stack_property twoWays _ (by simp)

end UMon

end Zsim.Umon
