import Zsim.Prefetcher.Streams

/-!
# Runs of the prefetcher

Every prefetch is for a line of its page that is ahead and that is not already on its way.  Two things
are left out: entries that are found before they were ever allocated, and streams that have overtaken
their prefetches.  A page that loses its entry loses the record of its prefetches.
-/

set_option autoImplicit false

namespace Zsim.Prefetcher

/-! ## Prefetches on their way -/

/-- The line has been prefetched after the last event that ends this. -/
def pending (ends : Event → Bool) (l : BitVec 64) : List Event → Bool
  | [] => false
  | ev :: older => ev = .prefetch l || (!ends ev && pending ends l older)

def consumes (l : BitVec 64) : Event → Bool
  | .demand l' _ => l' = l
  | .prefetch _ => false

/-- A read of the line, or one that does not find its page. -/
def forgets (l : BitVec 64) : Event → Bool
  | .demand l' found => l' = l || (!found && pageAddr l' = pageAddr l)
  | .prefetch _ => false

theorem pending_demand {l l' : BitVec 64} {found : Bool} {events : List Event}
    (isPending : pending (forgets l) l (.demand l' found :: events) = true) :
    l' ≠ l ∧ (found = true ∨ pageAddr l' ≠ pageAddr l) ∧ pending (forgets l) l events = true := by
  cases found <;> simp_all [pending, forgets]

theorem pending_prefetches {l : BitVec 64} (lines : List (BitVec 64)) {events : List Event}
    (isPending : pending (forgets l) l (lines.map Event.prefetch ++ events) = true) :
    l ∈ lines ∨ pending (forgets l) l events = true := by
  induction lines with
  | nil => exact .inr isPending
  | cons l' lines ih =>
      by_cases same : l' = l
      · exact .inl (same ▸ List.mem_cons_self)
      · have later : pending (forgets l) l (lines.map Event.prefetch ++ events) = true := by
          simpa [pending, forgets, same] using isPending
        exact (ih later).imp_left (List.mem_cons_of_mem _)

namespace StreamPrefetcher

theorem find_foldl {s : StreamPrefetcher} {page : BitVec 64} (l : List (Fin 16)) (start : Option (Fin 16)) :
    (∀ i, l.foldl (fun idx i => if page = s.tag i then some i else idx) start = some i →
      page = s.tag i ∨ start = some i) ∧
    (l.foldl (fun idx i => if page = s.tag i then some i else idx) start = none →
      start = none ∧ ∀ i ∈ l, page ≠ s.tag i) := by
  induction l generalizing start with
  | nil => exact ⟨fun i isStart => .inr isStart, fun isNone => ⟨isNone, by simp⟩⟩
  | cons a l ih =>
      obtain ⟨found, notFound⟩ := ih (if page = s.tag a then some a else start)
      rw [List.foldl_cons]
      refine ⟨fun i isSome => ?_, fun isNone => ?_⟩
      · rcases found i isSome with isTag | isStart
        · exact .inl isTag
        · by_cases isTag : page = s.tag a
          · rw [if_pos isTag] at isStart
            cases isStart
            exact .inl isTag
          · rw [if_neg isTag] at isStart
            exact .inr isStart
      · obtain ⟨isStart, others⟩ := notFound isNone
        by_cases isTag : page = s.tag a
        · rw [if_pos isTag] at isStart
          cases isStart
        · rw [if_neg isTag] at isStart
          refine ⟨isStart, fun i member => ?_⟩
          rcases List.mem_cons.mp member with rfl | member
          · exact isTag
          · exact others i member

theorem tag_of_find {s : StreamPrefetcher} {page : BitVec 64} {idx : Fin 16} (found : s.find page = some idx) :
    s.tag idx = page :=
  (((find_foldl (List.finRange 16) none).1 idx found).resolve_right (by simp)).symm

theorem ne_of_not_find {s : StreamPrefetcher} {page : BitVec 64} (notFound : s.find page = none)
    (i : Fin 16) : s.tag i ≠ page :=
  ((find_foldl (List.finRange 16) none).2 notFound).2 i (List.mem_finRange i) ∘ Eq.symm

end StreamPrefetcher

namespace History

/-- If the page is found, then in an entry that has been allocated: the constructor leaves the tags
as they are in memory. -/
def Found (h : History) (a : Access) : Prop :=
  ∀ idx, h.prefetcher.find (pageAddr a.lineAddr) = some idx → (h.prefetcher.array idx).allocated = true

instance decidableFound (h : History) (a : Access) : Decidable (h.Found a) :=
  inferInstanceAs (Decidable (∀ idx, _ = some idx → _ = true))

structure Inv (h : History) : Prop where
  ok : ∀ i, (h.prefetcher.array i).allocated = true → (h.prefetcher.array i).Ok
  unique : ∀ i j, (h.prefetcher.array i).allocated = true →
    h.prefetcher.tag j = h.prefetcher.tag i → j = i
  held : ∀ i l, (h.prefetcher.array i).allocated = true → pageAddr l = h.prefetcher.tag i →
    pending (forgets l) l h.events = true → (h.prefetcher.array i).valid (posOf l) = true

theorem Inv.init (tag : Fin 16 → BitVec 64) (memory : Fin 16 → Entry) : Inv (init tag memory) :=
  ⟨nofun, nofun, nofun⟩

/-- What an access does. -/
structure Proper (h : History) (a : Access) : Prop where
  samePage : ∀ l ∈ h.prefetches a, pageAddr l = pageAddr a.lineAddr
  ahead : ∀ l ∈ h.prefetches a, ∃ idx, h.prefetcher.find (pageAddr a.lineAddr) = some idx ∧
    (¬ (h.prefetcher.array idx).Stale → ∃ j : Int, 1 ≤ j ∧
      ((posOf l).toNat : Int) = (posOf a.lineAddr).toNat + j * (h.prefetcher.array idx).stride.toInt)
  nodup : (h.prefetches a).Nodup
  fresh : ∀ l ∈ h.prefetches a, pending (forgets l) l (h.demanded a) = false

theorem alloc_ok (e : Entry) (a : Access) (ts : Nat) :
    ({ e.alloc a.cycle with lastPos := posOf a.lineAddr, ts := ts } : Entry).Ok := by
  refine ⟨by simp [Entry.alloc], posOf_lt a.lineAddr, by simp [Entry.alloc],
    -((posOf a.lineAddr).toNat : Int), ?_⟩
  have one : (1 : BitVec 32).toInt = 1 := rfl
  have zero : (0 : BitVec 32).toNat = 0 := rfl
  simp only [Entry.alloc, one, zero]
  omega

theorem miss_spec {h : History} (inv : Inv h) {a : Access}
    (notFound : h.prefetcher.find (pageAddr a.lineAddr) = none) :
    ∃ next, h.step a = some next ∧ Inv next ∧ h.prefetches a = [] := by
  have others := StreamPrefetcher.ne_of_not_find notFound
  have events : ∀ l, pending (forgets l) l (h.demanded a) = true →
      pageAddr l ≠ pageAddr a.lineAddr ∧ pending (forgets l) l h.events = true := by
    intro l isPending
    rw [demanded, notFound] at isPending
    obtain ⟨-, otherPage, isPending⟩ := pending_demand isPending
    exact ⟨fun same => otherPage.elim nofun fun ne => ne same.symm, isPending⟩
  unfold step prefetches StreamPrefetcher.access
  rw [notFound]
  dsimp only
  cases (h.prefetcher.candidate a.cycle).1 with
  | none =>
      refine ⟨_, rfl, ⟨inv.ok, inv.unique, fun i l allocated isPage isPending => ?_⟩, rfl⟩
      exact inv.held i l allocated isPage (events l isPending).2
  | some idx =>
      have array : ∀ i, i ≠ idx → (h.prefetcher.allocate idx a).array i = h.prefetcher.array i :=
        fun i ne => Function.update_of_ne ne ..
      have tag : ∀ i, i ≠ idx → (h.prefetcher.allocate idx a).tag i = h.prefetcher.tag i :=
        fun i ne => Function.update_of_ne ne ..
      have new : (h.prefetcher.allocate idx a).tag idx = pageAddr a.lineAddr := Function.update_self ..
      have newEntry : (h.prefetcher.allocate idx a).array idx =
          { (h.prefetcher.array idx).alloc a.cycle with
            lastPos := posOf a.lineAddr
            ts := h.prefetcher.timestamp } := Function.update_self ..
      refine ⟨_, rfl, ⟨fun i allocated => ?_, fun i j allocated same => ?_,
        fun i l allocated isPage isPending => ?_⟩, rfl⟩
      · change ((h.prefetcher.allocate idx a).array i).allocated = true at allocated
        change ((h.prefetcher.allocate idx a).array i).Ok
        by_cases isNew : i = idx
        · rw [isNew, newEntry]
          exact alloc_ok ..
        · rw [array i isNew] at allocated ⊢
          exact inv.ok i allocated
      · change ((h.prefetcher.allocate idx a).array i).allocated = true at allocated
        change (h.prefetcher.allocate idx a).tag j = (h.prefetcher.allocate idx a).tag i at same
        by_cases isNew : i = idx
        · by_contra ne
          rw [isNew] at same ne
          rw [new, tag j ne] at same
          exact others j same
        · rw [array i isNew] at allocated
          rw [tag i isNew] at same
          by_cases isNew' : j = idx
          · rw [isNew', new] at same
            exact absurd same.symm (others i)
          · rw [tag j isNew'] at same
            exact inv.unique i j allocated same
      · change ((h.prefetcher.allocate idx a).array i).allocated = true at allocated
        change pageAddr l = (h.prefetcher.allocate idx a).tag i at isPage
        change ((h.prefetcher.allocate idx a).array i).valid (posOf l) = true
        obtain ⟨otherPage, isPending⟩ := events l isPending
        by_cases isNew : i = idx
        · rw [isNew, new] at isPage
          exact absurd isPage otherPage
        · rw [array i isNew] at allocated ⊢
          rw [tag i isNew] at isPage
          exact inv.held i l allocated isPage isPending

theorem hit_spec {h : History} (inv : Inv h) {a : Access} (isFound : h.Found a) {idx : Fin 16}
    (found : h.prefetcher.find (pageAddr a.lineAddr) = some idx) :
    ∃ next, h.step a = some next ∧ Inv next ∧ Proper h a := by
  have allocated := isFound idx found
  have isTag := StreamPrefetcher.tag_of_find found
  let e : Entry := { h.prefetcher.array idx with ts := h.prefetcher.timestamp }
  have ok := inv.ok idx allocated
  obtain ⟨respCycle, lines, e', hits, hit⟩ := Entry.hit_spec (e := e)
    ⟨ok.stride, ok.lastPos, ok.lastPrefetchPos, ok.aligned⟩ a
  have isAccess : h.prefetcher.access a = some (respCycle, lines,
      { h.prefetcher with
        timestamp := u64 (h.prefetcher.timestamp + 1)
        array := Function.update h.prefetcher.array idx e' }) := by
    unfold StreamPrefetcher.access
    rw [found]
    exact congrArg (Option.map _) hits
  have isLines : h.prefetches a = lines := by
    rw [prefetches, isAccess]
    rfl
  have demanded : h.demanded a = .demand a.lineAddr true :: h.events := by
    rw [History.demanded, found]
    rfl
  have fresh : ∀ l ∈ lines, pending (forgets l) l (h.demanded a) = false := by
    intro l member
    by_contra isPending
    rw [Bool.not_eq_false, demanded] at isPending
    obtain ⟨notSame, -, isPending⟩ := pending_demand isPending
    obtain ⟨page, free, -⟩ := hit.ahead l member
    have isHeld := inv.held idx l allocated (page.trans isTag.symm) isPending
    rcases free with free | same
    · exact absurd (isHeld.symm.trans free) (by simp)
    · exact notSame (eq_of_page_pos page.symm same.symm)
  have array : ∀ i, i ≠ idx → Function.update h.prefetcher.array idx e' i = h.prefetcher.array i :=
    fun i ne => Function.update_of_ne ne ..
  refine ⟨_, congrArg (Option.map _) isAccess, ⟨fun i isAllocated => ?_, fun i j isAllocated same => ?_,
    fun i l isAllocated isPage isPending => ?_⟩, ?_, ?_, ?_, ?_⟩
  · change (Function.update h.prefetcher.array idx e' i).allocated = true at isAllocated
    change (Function.update h.prefetcher.array idx e' i).Ok
    by_cases isOwn : i = idx
    · rw [isOwn, Function.update_self]
      exact hit.ok
    · rw [array i isOwn] at isAllocated ⊢
      exact inv.ok i isAllocated
  · change (Function.update h.prefetcher.array idx e' i).allocated = true at isAllocated
    by_cases isOwn : i = idx
    · rw [isOwn] at same ⊢
      exact inv.unique idx j allocated same
    · rw [array i isOwn] at isAllocated
      exact inv.unique i j isAllocated same
  · change (Function.update h.prefetcher.array idx e' i).allocated = true at isAllocated
    change pageAddr l = h.prefetcher.tag i at isPage
    change (Function.update h.prefetcher.array idx e' i).valid (posOf l) = true
    change pending (forgets l) l ((lines.map Event.prefetch).reverse ++ h.demanded a) = true at isPending
    rw [← List.map_reverse] at isPending
    have past := pending_prefetches lines.reverse isPending
    rw [List.mem_reverse, demanded] at past
    by_cases isOwn : i = idx
    · rw [isOwn, Function.update_self]
      rcases past with member | isPending
      · exact hit.filled l member
      · obtain ⟨notSame, -, isPending⟩ := pending_demand isPending
        rw [isOwn] at isPage
        refine hit.kept (posOf l) (fun same => notSame ?_) (inv.held idx l allocated isPage isPending)
        exact eq_of_page_pos (isTag.symm.trans isPage.symm) same.symm
    · rw [array i isOwn] at isAllocated ⊢
      rcases past with member | isPending
      · have page := (hit.ahead l member).1
        exact absurd (inv.unique idx i allocated (isPage.symm.trans (page.trans isTag.symm))) isOwn
      · exact inv.held i l isAllocated isPage (pending_demand isPending).2.2
  · rw [isLines]
    exact fun l member => (hit.ahead l member).1
  · rw [isLines]
    intro l member
    obtain ⟨-, -, j, isPos, ahead⟩ := hit.ahead l member
    exact ⟨idx, found, fun notStale => ⟨j, ahead notStale, isPos⟩⟩
  · rw [isLines]
    exact hit.nodup
  · rw [isLines]
    exact fresh

theorem access_spec {h : History} (inv : Inv h) {a : Access} (isFound : h.Found a) :
    ∃ next, h.step a = some next ∧ Inv next ∧ Proper h a := by
  cases found : h.prefetcher.find (pageAddr a.lineAddr) with
  | none =>
      obtain ⟨next, step, inv', none⟩ := miss_spec inv found
      refine ⟨next, step, inv', ?_, ?_, ?_, ?_⟩ <;> simp [none]
  | some idx => exact hit_spec inv isFound found

/-- For any accesses and any contents of memory, as long as no page is found in an entry that was
never allocated: there is no division by zero, no stored stride is zero, and each prefetch is for a
line of the page that is not on its way, ahead by a multiple of the stride unless the stream is
stale. -/
theorem prefetches_ahead (tag : Fin 16 → BitVec 64) (memory : Fin 16 → Entry) (accesses : List Access)
    (found : machine.Along Found accesses (init tag memory)) :
    (machine.exec accesses (init tag memory)).isSome = true ∧
      machine.Throughout (fun h => ∀ i, (h.prefetcher.array i).allocated = true →
        (h.prefetcher.array i).stride ≠ 0) accesses (init tag memory) ∧
      machine.Along Proper accesses (init tag memory) := by
  have legal : (machine.restrict Found).LegalRun accesses (init tag memory) :=
    Machine.LegalRun.restrict (Machine.along_of_forall (fun _ _ _ => trivial) _) found
  have keeps : (machine.restrict Found).Preserves Inv := by
    intro h a inv isLegal
    obtain ⟨next, step, inv', -⟩ := access_spec inv isLegal.2
    exact ⟨next, step, inv'⟩
  refine ⟨?_, ?_, ?_⟩
  · obtain ⟨final, run, -⟩ := keeps.exec_restrict (Inv.init tag memory) legal
    rw [run]
    rfl
  · rintro first rest mid rfl run
    obtain ⟨mid', run', inv⟩ := keeps.exec_restrict (Inv.init tag memory) legal.of_append
    cases Option.some.inj (run.symm.trans run')
    exact fun i allocated => (inv.ok i allocated).stride
  · refine Machine.LegalRun.along (m := machine) (fun h a next inv isFound _ step => ?_)
      (fun h a inv isFound _ => ?_) (Inv.init tag memory)
      (Machine.along_of_forall (fun _ _ _ => trivial) _) found
    · obtain ⟨next', step', inv', -⟩ := access_spec inv isFound
      cases Option.some.inj (step.symm.trans step')
      exact inv'
    · obtain ⟨-, -, -, proper⟩ := access_spec inv isFound
      exact proper

/-- Memory that has not been used. -/
def zeroMemory : Fin 16 → Entry := fun _ => ⟨0, 0, fun _ => 0, fun _ => false, 0, 0, 0, 0, 0, false⟩

def read (page pos : Nat) : Access := ⟨BitVec.ofNat 64 (64 * page + pos), 100, 200, 300, 300⟩

/-- A stream of two up, and one that goes down. -/
def upAndDown : List Access :=
  [read 5 10, read 5 12, read 5 14, read 5 16, read 6 40, read 5 18, read 6 39, read 6 38, read 6 37,
    read 6 36, read 5 20]

theorem prefetches_ahead_up_down :
    (machine.exec upAndDown (init (fun _ => 0) zeroMemory)).isSome = true ∧
      machine.Throughout (fun h => ∀ i, (h.prefetcher.array i).allocated = true →
        (h.prefetcher.array i).stride ≠ 0) upAndDown (init (fun _ => 0) zeroMemory) ∧
      machine.Along Proper upAndDown (init (fun _ => 0) zeroMemory) :=
  prefetches_ahead (fun _ => 0) zeroMemory upAndDown (by decide +kernel)

/-- A stream of two that is interrupted until its confidence is lost, and resumed. -/
def resumed : List Access := [read 5 10, read 5 12, read 5 14, read 5 16, read 5 17, read 5 20, read 5 22]

/-- A page with a prefetch, sixteen others, and the page again. -/
def evicted : List Access :=
  [read 100 0, read 100 1] ++ (List.range 16).map (fun i => read (200 + i) 0) ++ [read 100 0]

/-- A page that loses its entry to others prefetches a line again, and a stream that has overtaken its
prefetches prefetches what is behind it. -/
theorem prefetched_again_or_behind :
    (¬ ∀ accesses, machine.Along (fun h a => ∀ l ∈ h.prefetches a,
        pending (consumes l) l (h.demanded a) = false) accesses (init (fun _ => 0) zeroMemory)) ∧
      ¬ ∀ accesses, machine.Along (fun h a => ∀ l ∈ h.prefetches a, ∃ idx,
        h.prefetcher.find (pageAddr a.lineAddr) = some idx ∧ ∃ j : Int, 1 ≤ j ∧
          ((posOf l).toNat : Int) = (posOf a.lineAddr).toNat + j * (h.prefetcher.array idx).stride.toInt)
        accesses (init (fun _ => 0) zeroMemory) := by
  constructor
  · intro claim
    have last : ((machine.exec evicted (init (fun _ => 0) zeroMemory)).map fun h =>
        (h.prefetches (read 100 1), pending (consumes (read 100 2).lineAddr) (read 100 2).lineAddr
          (h.demanded (read 100 1)))) = some ([(read 100 2).lineAddr], true) := by
      decide +kernel
    obtain ⟨h, run, state⟩ := Option.map_eq_some_iff.mp last
    have again : (read 100 2).lineAddr ∈ h.prefetches (read 100 1) := by
      rw [(Prod.mk.inj state).1]
      exact List.mem_singleton_self _
    have fresh := ((claim (evicted ++ [read 100 1])).append_right run).1 _ again
    exact Bool.noConfusion (fresh.symm.trans (Prod.mk.inj state).2)
  · intro claim
    have last : ((machine.exec resumed (init (fun _ => 0) zeroMemory)).map fun h =>
        (h.prefetches (read 5 24), (h.prefetcher.find (pageAddr (read 5 24).lineAddr)).map fun idx =>
          (h.prefetcher.array idx).stride)) = some ([(read 5 22).lineAddr], some 2) := by
      decide +kernel
    obtain ⟨h, run, state⟩ := Option.map_eq_some_iff.mp last
    have behind : (read 5 22).lineAddr ∈ h.prefetches (read 5 24) := by
      rw [(Prod.mk.inj state).1]
      exact List.mem_singleton_self _
    obtain ⟨idx, found, j, pos, ahead⟩ :=
      ((claim (resumed ++ [read 5 24])).append_right run).1 _ behind
    have stride := (Prod.mk.inj state).2
    rw [found, Option.map_some, Option.some.injEq] at stride
    have left : (posOf (read 5 22).lineAddr).toNat = 22 := by decide +kernel
    have right : (posOf (read 5 24).lineAddr).toNat = 24 := by decide +kernel
    have two : (2 : BitVec 32).toInt = 2 := rfl
    rw [stride, left, right, two] at ahead
    omega

end History

end Zsim.Prefetcher
