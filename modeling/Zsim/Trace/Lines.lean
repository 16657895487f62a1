import Zsim.Trace.Model

/-!
# The lines of the replaying hierarchy

The directory stands for the stores of the children, line by line.  An operation on one line leaves
the others alone; what comes from above leaves the line of the pending request alone.
-/

set_option autoImplicit false

namespace Zsim.Trace

open Coherence

/-! ## Invalidations of the children -/

namespace Stores

variable {stores : Stores} {a b : Address} {c k : Nat}

@[simp] theorem write_self (stores : Stores) (c : Nat) (a : Address) (value : Option MESIState) :
    stores.write c a value c a = value := by
  unfold write
  rw [Function.update_self, Function.update_self]

theorem write_apart (stores : Stores) (value : Option MESIState) (apart : ¬ (b = a ∧ c = k)) :
    stores.write k a value c b = stores c b := by
  unfold write
  by_cases here : c = k
  · rw [here, Function.update_self, Function.update_of_ne fun same => apart ⟨same, here⟩]
  · rw [Function.update_of_ne here]

theorem write_of_ne (stores : Stores) (k : Nat) (value : Option MESIState) (other : b ≠ a) (c : Nat) :
    stores.write k a value c b = stores c b :=
  stores.write_apart value fun here => other here.1

theorem held_write (stores : Stores) (a : Address) (k : Nat) (value : Option MESIState) :
    (stores.write k a value).held a = Function.update (stores.held a) k (value.getD .I) := by
  funext c
  unfold held write
  by_cases here : c = k
  · rw [here, Function.update_self, Function.update_self, Function.update_self]
  · rw [Function.update_of_ne here, Function.update_of_ne here]

/-- A child without an entry does not hold the line. -/
theorem some_of_held (valid : stores.held a c ≠ .I) : stores c a = some (stores.held a c) := by
  unfold held at valid ⊢
  cases entry : stores c a with
  | none =>
    rw [entry] at valid
    exact absurd rfl valid
  | some state => rfl

end Stores

/-- No entry of another line changes, and none is written I. -/
structure Elsewhere (a : Address) (stores next : Stores) : Prop where
  others : ∀ b c, b ≠ a → next c b = stores c b
  noI : ∀ b c, next c b = some .I → stores c b = some .I

theorem Elsewhere.refl (a : Address) (stores : Stores) : Elsewhere a stores stores :=
  ⟨fun _ _ _ => rfl, fun _ _ => id⟩

theorem Elsewhere.trans {a : Address} {stores mid next : Stores} (first : Elsewhere a stores mid)
    (second : Elsewhere a mid next) : Elsewhere a stores next :=
  ⟨fun b c other => (second.others b c other).trans (first.others b c other),
    fun b c isI => first.noI b c (second.noI b c isI)⟩

/-- The children before `k` that share the line have been told. -/
structure Told (a : Address) (type : InvType) (e : Entry) (stores : Stores) (k : Nat)
    (next : Stores × Bool) : Prop where
  elsewhere : Elsewhere a stores next.1
  held : ∀ c, next.1.held a c =
    if c < k ∧ e.sharers c = true then (stores.held a c).demote type else stores.held a c
  dirty : next.2 = true → ∃ c, e.sharers c = true ∧ stores.held a c = .M

section
variable {n : Nat} {a : Address} {type : InvType} {e : Entry} {stores : Stores} {k : Nat}
  {mid : Stores × Bool}

theorem Told.start (a : Address) (type : InvType) (e : Entry) (stores : Stores) :
    Told a type e stores 0 (stores, false) where
  elsewhere := .refl a stores
  held c := by simp
  dirty raised := by cases raised

theorem Told.visit (bound : k < n) (sharer : e.sharers k = true)
    (suits : Suits type (stores.held a k)) (told : Told a type e stores k mid) :
    ∃ next, invalidate n a type k mid = some next ∧ Told a type e stores (k + 1) next := by
  have same : mid.1.held a k = stores.held a k := by
    rw [told.held, if_neg fun h => Nat.lt_irrefl k h.1]
  have here : mid.1 k a = some (stores.held a k) := by
    rw [← same]
    exact Stores.some_of_held (same ▸ suits.valid)
  have demoted : ((if type = .INVX then some MESIState.S else none).getD .I) =
      (stores.held a k).demote type := by
    rcases suits with ⟨rfl, -⟩ | ⟨rfl, excl⟩
    · rfl
    · simp [MESIState.demote, excl]
  refine ⟨_, by unfold invalidate; rw [if_pos bound, here], ⟨?_, ?_⟩, ?_, ?_⟩
  · intro b c other
    exact (Stores.write_of_ne _ _ _ other c).trans (told.elsewhere.others b c other)
  · intro b c isI
    apply told.elsewhere.noI
    dsimp only at isI
    by_cases here : b = a ∧ c = k
    · obtain ⟨rfl, rfl⟩ := here
      rw [Stores.write_self] at isI
      split at isI <;> cases isI
    · rwa [Stores.write_apart _ _ here] at isI
  · intro c
    dsimp only
    rw [Stores.held_write, demoted]
    by_cases isK : c = k
    · rw [isK, Function.update_self, if_pos ⟨Nat.lt_succ_self k, sharer⟩]
    · rw [Function.update_of_ne isK, told.held]
      have before : c < k ↔ c < k + 1 := by omega
      exact if_congr (and_congr_left fun _ => before) rfl rfl
  · intro raised
    exact ⟨k, sharer, of_decide_eq_true raised⟩

theorem Told.skip (absent : e.sharers k = false) (told : Told a type e stores k mid) :
    Told a type e stores (k + 1) mid where
  elsewhere := told.elsewhere
  held c := by
    rw [told.held]
    have same : (c < k ∧ e.sharers c = true) ↔ (c < k + 1 ∧ e.sharers c = true) := by
      refine and_congr_left fun sharer => ?_
      have other : c ≠ k := by
        rintro rfl
        rw [absent] at sharer
        cases sharer
      omega
    exact if_congr same rfl rfl
  dirty := told.dirty

/-- The children of a line that an invalidation reaches; the flag tells of a dirty one. -/
structure Invalidated (a : Address) (type : InvType) (e : Entry) (stores : Stores)
    (next : Stores × Bool) : Prop where
  elsewhere : Elsewhere a stores next.1
  held : ∀ c, next.1.held a c =
    if e.sharers c = true then (stores.held a c).demote type else stores.held a c
  dirty : next.2 = true → ∃ c, e.sharers c = true ∧ stores.held a c = .M

theorem sendInvalidates_run (bounded : ∀ c, e.sharers c = true → c < n)
    (count : e.numSharers = countIn (Finset.range n) e.sharers (· = true))
    (known : type = .INV ∧ (∀ c, e.sharers c = true → stores.held a c ≠ .I) ∨
      type = .INVX ∧ ∀ c, e.sharers c = true →
        stores.held a c ≠ .I ∧ (stores.held a c).isExclusive = e.isExclusive) :
    ∃ next, MESITopCC.sendInvalidates n (invalidate n a) type e (stores, false) =
        some (e.demote type, next) ∧ Invalidated a type e stores next := by
  by_cases spared : type = .INVX ∧ e.isExclusive = false
  · obtain ⟨rfl, shared⟩ := spared
    refine ⟨(stores, false), ?_, .refl a stores, fun c => ?_, fun raised => by cases raised⟩
    · rw [MESITopCC.sendInvalidates_of_shared _ shared, Entry.demote_INVX_of_shared shared]
    · split
      next sharer =>
        have noExcl : (stores.held a c).isExclusive = false := by
          rcases known with ⟨wrong, -⟩ | ⟨-, same⟩
          · cases wrong
          · exact (same c sharer).2.trans shared
        exact (MESIState.demote_INVX_of_shared noExcl).symm
      · rfl
  · have exclusive : type = .INVX → e.isExclusive = true := by
      intro isInvx
      by_contra shared
      exact spared ⟨isInvx, by simpa using shared⟩
    have suits (c : Nat) (sharer : e.sharers c = true) : Suits type (stores.held a c) := by
      rcases known with ⟨isInv, valid⟩ | ⟨isInvx, same⟩
      · exact .inl ⟨isInv, valid c sharer⟩
      · exact .inr ⟨isInvx, (same c sharer).2.trans (exclusive isInvx)⟩
    have notForward : type ≠ .FWD := by
      rcases known with ⟨rfl, -⟩ | ⟨rfl, -⟩ <;> decide
    obtain ⟨next, run, told⟩ := MESITopCC.sendInvalidates_spec notForward bounded count exclusive
      (Told.start a type e stores)
      (fun c mid bound sharer told => told.visit bound sharer (suits c sharer))
      (fun c mid _ absent told => told.skip absent)
    refine ⟨next, run, told.elsewhere, fun c => ?_, told.dirty⟩
    rw [told.held]
    exact if_congr (and_iff_right_of_imp (bounded c)) rfl rfl

end

namespace Replay

variable {d : Config} {s mid next : Replay d} {a b : Address} {id : Nat}

/-! ## The line of an address -/

theorem find_eq_some : s.find a = some id ↔ d.array.lookup s.array a = some (some id) :=
  Option.join_eq_some_iff

theorem own_of_find (found : s.find a = some id) : s.own a = s.mesi id := by
  unfold own
  rw [found]
  rfl

theorem entry_of_find (found : s.find a = some id) : s.entry a = s.dir id := by
  unfold entry
  rw [found]
  rfl

theorem find_of_valid (valid : s.own a ≠ .I) : ∃ id, s.find a = some id := by
  cases found : s.find a with
  | some id => exact ⟨id, rfl⟩
  | none =>
    unfold own at valid
    rw [found] at valid
    exact absurd rfl valid

def Live (s : Replay d) (id : Nat) : Prop :=
  s.mesi id ≠ .I ∨ (s.dir id).numSharers ≠ 0 ∨ ∃ c, (s.dir id).sharers c = true

structure Inv (s : Replay d) : Prop where
  arrays : d.array.Inv s.array
  live : ∀ id, s.Live id → s.find (d.array.tag s.array id) = some id
  coherent : ∀ a, EntryInv d.numChildren (s.own a) (s.entry a) (s.stores.held a)

theorem inv_init (d : Config) : (init d).Inv where
  arrays := d.array.inv_init
  live id live := by
    rcases live with valid | counted | ⟨c, sharer⟩
    · exact absurd rfl valid
    · exact absurd rfl counted
    · cases sharer
  coherent a := by
    have ent : (init d).entry a = .clear := by
      unfold entry
      cases (init d).find a <;> rfl
    rw [ent]
    exact EntryInv.clear _ _

/-- Only the line of `a` changes. -/
structure Only (a : Address) (s next : Replay d) : Prop where
  array : next.array = s.array
  mesi : ∀ id, s.find a ≠ some id → next.mesi id = s.mesi id
  dir : ∀ id, s.find a ≠ some id → next.dir id = s.dir id
  stores : ∀ b c, b ≠ a → next.stores c b = s.stores c b

theorem Only.refl (a : Address) (s : Replay d) : Only a s s :=
  ⟨rfl, fun _ _ => rfl, fun _ _ => rfl, fun _ _ _ => rfl⟩

theorem Only.find (only : Only a s next) (b : Address) : next.find b = s.find b := by
  unfold Replay.find
  rw [only.array]

theorem Only.trans (first : Only a s mid) (second : Only a mid next) : Only a s next where
  array := second.array.trans first.array
  mesi id apart := (second.mesi id (first.find a ▸ apart)).trans (first.mesi id apart)
  dir id apart := (second.dir id (first.find a ▸ apart)).trans (first.dir id apart)
  stores b c other := (second.stores b c other).trans (first.stores b c other)

theorem Only.setMesi (found : s.find a = some id) (state : MESIState) :
    Only a s (s.setMesi id state) where
  array := rfl
  mesi other apart := Function.update_of_ne (fun same : other = id => apart (same ▸ found)) ..
  dir _ _ := rfl
  stores _ _ _ := rfl

theorem Only.setDir (found : s.find a = some id) (e : Entry) {stores : Stores}
    (elsewhere : ∀ b c, b ≠ a → stores c b = s.stores c b) : Only a s ((s.setStores stores).setDir id e) where
  array := rfl
  mesi _ _ := rfl
  dir other apart := Function.update_of_ne (fun same : other = id => apart (same ▸ found)) ..
  stores := elsewhere

theorem Inv.find_ne (inv : s.Inv) (other : b ≠ a) (found : s.find b = some id) : s.find a ≠ some id :=
  fun isA => other <| by
    rw [← d.array.lookup_sound inv.arrays (find_eq_some.mp found),
      ← d.array.lookup_sound inv.arrays (find_eq_some.mp isA)]

/-- What is known of the line of `b` stays as it is. -/
structure Beside (b : Address) (s next : Replay d) : Prop where
  array : next.array = s.array
  own : next.own b = s.own b
  entry : next.entry b = s.entry b
  held : next.stores.held b = s.stores.held b
  noI : ∀ a c, next.stores c a = some .I → s.stores c a = some .I
  sent : next.sent = s.sent

theorem Beside.refl (b : Address) (s : Replay d) : Beside b s s :=
  ⟨rfl, rfl, rfl, rfl, fun _ _ => id, rfl⟩

theorem Beside.trans (first : Beside b s mid) (second : Beside b mid next) : Beside b s next :=
  ⟨second.array.trans first.array, second.own.trans first.own, second.entry.trans first.entry,
    second.held.trans first.held, fun a c isI => first.noI a c (second.noI a c isI),
    second.sent.trans first.sent⟩

theorem Beside.find (beside : Beside b s next) (a : Address) : next.find a = s.find a := by
  unfold Replay.find
  rw [beside.array]

theorem Only.line_of_ne (only : Only a s next) (inv : s.Inv) (other : b ≠ a) :
    next.own b = s.own b ∧ next.entry b = s.entry b ∧ next.stores.held b = s.stores.held b := by
  refine ⟨?_, ?_, ?_⟩
  · unfold own
    rw [only.find b]
    cases found : s.find b with
    | none => rfl
    | some id => exact only.mesi id (inv.find_ne other found)
  · unfold entry
    rw [only.find b]
    cases found : s.find b with
    | none => rfl
    | some id => exact only.dir id (inv.find_ne other found)
  · funext c
    unfold Stores.held
    rw [only.stores b c other]

theorem Only.beside (only : Only a s next) (inv : s.Inv) (other : b ≠ a)
    (noI : ∀ a c, next.stores c a = some .I → s.stores c a = some .I) (sent : next.sent = s.sent) :
    Beside b s next where
  array := only.array
  own := (only.line_of_ne inv other).1
  entry := (only.line_of_ne inv other).2.1
  held := (only.line_of_ne inv other).2.2
  noI := noI
  sent := sent

theorem Inv.of_only (inv : s.Inv) (only : Only a s next)
    (coherent : EntryInv d.numChildren (next.own a) (next.entry a) (next.stores.held a)) :
    next.Inv where
  arrays := only.array ▸ inv.arrays
  live id live := by
    rw [only.find, only.array]
    by_cases found : s.find a = some id
    · rw [d.array.lookup_sound inv.arrays (find_eq_some.mp found)]
      exact found
    · unfold Live at live
      rw [only.mesi id found, only.dir id found] at live
      exact inv.live id live
  coherent b := by
    by_cases here : b = a
    · exact here ▸ coherent
    · have same := only.line_of_ne inv here
      rw [same.1, same.2.1, same.2.2]
      exact inv.coherent b

/-! ## From above -/

theorem fromAbove_spec (inv : s.Inv) (type : InvType) (a : Address) :
    ∃ next, s.fromAbove type a = some next ∧ next.Inv ∧ Only a s next ∧
      (∀ b c, next.stores c b = some .I → s.stores c b = some .I) ∧ next.sent = s.sent := by
  unfold fromAbove
  split
  next suits =>
    obtain ⟨id, found⟩ := find_of_valid suits.valid
    have entry := inv.coherent a
    have known : type = .INV ∧ (∀ c, (s.entry a).sharers c = true → s.stores.held a c ≠ .I) ∨
        type = .INVX ∧ ∀ c, (s.entry a).sharers c = true → s.stores.held a c ≠ .I ∧
          (s.stores.held a c).isExclusive = (s.entry a).isExclusive := by
      rcases suits with ⟨isInv, -⟩ | ⟨isInvx, -⟩
      · exact .inl ⟨isInv, fun c sharer => (entry.exact c).mp sharer⟩
      · exact .inr ⟨isInvx, fun c sharer => ⟨(entry.exact c).mp sharer, entry.isExclusive_eq sharer⟩⟩
    obtain ⟨⟨stores, wb⟩, run, told⟩ := sendInvalidates_run entry.bounded entry.count known
    have only : Only a s (((s.setStores stores).setDir id ((s.entry a).demote type)).setMesi id
        ((s.own a).demote type)) :=
      (Only.setDir found _ told.elsewhere.others).trans (Only.setMesi (by exact found) _)
    refine ⟨_, ?_, inv.of_only only ?_, only, told.elsewhere.noI, rfl⟩
    · unfold invalidateLine
      rw [find_eq_some.mp found]
      have sent : MESITopCC.processInval d.numChildren (Trace.invalidate d.numChildren a) type
          (s.dir id) (s.stores, false) = some ((s.entry a).demote type, stores, wb) := by
        rw [← entry_of_find found, ← run]
        rcases suits with ⟨rfl, -⟩ | ⟨rfl, -⟩ <;> rfl
      dsimp only
      rw [sent]
      dsimp only [Option.bind_eq_bind, Option.bind_some]
      rw [← own_of_find found, suits.processInval]
      rfl
    · have foundNext := (only.find a).trans found
      have children : stores.held a = fun c => (s.stores.held a c).demote type := by
        funext c
        rw [told.held]
        split
        · rfl
        next noSharer =>
          have invalid : s.stores.held a c = .I := by
            by_contra valid
            exact noSharer ((entry.exact c).mpr valid)
          rw [invalid, MESIState.demote_I]
      rw [own_of_find foundNext, entry_of_find foundNext]
      have demoted := entry.demote type
      rw [← children] at demoted
      simpa [setMesi, setDir, setStores] using demoted
  · exact ⟨s, rfl, inv, .refl a s, fun _ _ isI => isI, rfl⟩

/-- Whatever else the caches above take, the line of the request stays. -/
theorem invals_spec (a : Address) (invals : List (InvType × Address)) (inv : s.Inv) :
    ∃ next, invals.foldlM (fun s (type, b) => if b = a then some s else s.fromAbove type b) s =
        some next ∧ next.Inv ∧ Beside a s next := by
  induction invals generalizing s with
  | nil => exact ⟨s, rfl, inv, .refl a s⟩
  | cons inval rest induction =>
    obtain ⟨type, b⟩ := inval
    by_cases here : b = a
    · obtain ⟨next, run, invNext, beside⟩ := induction inv
      exact ⟨next, by simpa [here] using run, invNext, beside⟩
    · obtain ⟨mid, first, invMid, only, noI, sent⟩ := fromAbove_spec inv type b
      obtain ⟨next, run, invNext, beside⟩ := induction invMid
      refine ⟨next, ?_, invNext, (only.beside inv (Ne.symm here) noI sent).trans beside⟩
      simpa [here, first] using run

/-- A request of the bottom controller is granted. -/
theorem request_spec {type : AccessType} (above : Above) (inv : s.Inv) (found : s.find a = some id)
    (asks : Asks type (s.own a)) (alone : IsPut type → ∀ c, s.stores.held a c = .I) :
    ∃ mid, s.request a id above (some type) = some (mid.setMesi id (grant above.excl type)) ∧
      Beside a s mid ∧ (mid.setMesi id (grant above.excl type)).Inv := by
  obtain ⟨mid, run, invMid, beside⟩ := invals_spec a above.invals inv
  have foundMid := (beside.find a).trans found
  refine ⟨mid, ?_, beside, invMid.of_only (Only.setMesi foundMid _) ?_⟩
  · unfold request
    dsimp only [Option.bind_eq_bind]
    rw [run]
    rfl
  · have foundNext : (mid.setMesi id (grant above.excl type)).find a = some id := foundMid
    rw [own_of_find foundNext, entry_of_find foundNext]
    have granted : (mid.setMesi id (grant above.excl type)).mesi id = grant above.excl type :=
      Function.update_self ..
    rw [granted]
    have entry := inv.coherent a
    rw [← beside.entry, ← beside.held, entry_of_find foundMid] at entry
    apply entryInv_granted entry asks
    · cases type with
      | GETS => cases excl : above.excl <;> simp [Grants, grant]
      | GETX => rfl
      | PUTS => rfl
      | PUTX => rfl
    · rw [beside.held]
      exact alone

/-! ## Evictions -/

structure Vacant (s : Replay d) (id : Nat) : Prop where
  mesi : s.mesi id = .I
  empty : (s.dir id).Empty

theorem vacant_of_not_live (dead : ¬ s.Live id) : s.Vacant id := by
  unfold Live at dead
  rw [not_or, not_or, not_exists] at dead
  obtain ⟨mesi, numSharers, absent⟩ := dead
  exact ⟨not_not.mp mesi, not_not.mp numSharers, fun c => by simpa using absent c⟩

theorem Vacant.not_live (vacant : s.Vacant id) : ¬ s.Live id := by
  rintro (valid | counted | ⟨c, sharer⟩)
  · exact valid vacant.mesi
  · exact counted vacant.empty.numSharers
  · rw [vacant.empty.sharers c] at sharer
    cases sharer

theorem vacant_of_invalid (inv : s.Inv) (found : s.find a = some id) (invalid : s.own a = .I) :
    s.Vacant id where
  mesi := (own_of_find found).symm.trans invalid
  empty := by
    have entry := inv.coherent a
    rw [← entry_of_find found]
    refine entry.empty_of_invalid fun c => ?_
    by_contra valid
    exact entry.inclusive c valid invalid

theorem setMesi_self (s : Replay d) (id : Nat) : s.setMesi id (s.mesi id) = s := by
  unfold setMesi
  rw [Function.update_eq_self]

/-- What the eviction of line `id` leaves. -/
structure Evicted (id : Nat) (s next : Replay d) : Prop where
  inv : next.Inv
  array : next.array = s.array
  vacant : next.Vacant id
  noI : ∀ b c, next.stores c b = some .I → s.stores c b = some .I
  sent : next.sent = s.sent

theorem bottomEviction_spec (above : Above) (inv : s.Inv) (found : s.find a = some id)
    (alone : ∀ c, s.stores.held a c = .I) :
    ∃ next, s.bottomEviction a id false above = some next ∧ Evicted id s next := by
  by_cases invalid : s.mesi id = .I
  · refine ⟨s, ?_, inv, rfl, vacant_of_invalid inv found ((own_of_find found).trans invalid),
      fun _ _ isI => isI, rfl⟩
    have same := setMesi_self s id
    rw [invalid] at same
    simp [bottomEviction, MESIBottomCC.evict, invalid, same, request]
  · obtain ⟨type, isPut, asks, evict⟩ : ∃ type, IsPut type ∧ Asks type (s.mesi id) ∧
        MESIBottomCC.evict (s.mesi id) false = some (s.mesi id, some type) := by
      cases state : s.mesi id with
      | I => exact absurd state invalid
      | S => exact ⟨.PUTS, .inl rfl, .inl rfl, rfl⟩
      | E => exact ⟨.PUTS, .inl rfl, .inr rfl, rfl⟩
      | M => exact ⟨.PUTX, .inr rfl, rfl, rfl⟩
    obtain ⟨mid, run, beside, invNext⟩ :=
      request_spec above inv found ((own_of_find found).symm ▸ asks) fun _ => alone
    have gone : grant above.excl type = .I := by
      rcases isPut with rfl | rfl <;> rfl
    rw [gone] at run invNext
    have foundNext : (mid.setMesi id .I).find a = some id := (beside.find a).trans found
    have vacant := vacant_of_invalid invNext foundNext
      ((own_of_find foundNext).trans (Function.update_self ..))
    refine ⟨_, ?_, invNext, beside.array, vacant, beside.noI, beside.sent⟩
    unfold bottomEviction
    rw [evict]
    dsimp only [Option.bind_eq_bind, Option.bind_some]
    rw [setMesi_self, run]
    exact if_pos vacant.mesi

theorem bottomEviction_writeback {above : Above} (excl : (s.mesi id).isExclusive = true) :
    s.bottomEviction a id true above = (s.setMesi id .M).bottomEviction a id false above := by
  have isM : (s.setMesi id .M).mesi id = .M := Function.update_self ..
  have twice := setMesi_self (s.setMesi id .M) id
  rw [isM] at twice
  have evict : MESIBottomCC.evict (s.mesi id) true = some (.M, some .PUTX) := by
    unfold MESIBottomCC.evict
    rw [excl]
    rfl
  unfold bottomEviction
  rw [evict, isM]
  dsimp only [MESIBottomCC.evict, Option.bind_eq_bind, Option.bind_some]
  rw [if_neg (by decide)]
  dsimp only [Option.bind_some]
  rw [twice]

theorem Inv.setMesi_M (inv : s.Inv) (found : s.find a = some id) : (s.setMesi id .M).Inv := by
  apply inv.of_only (Only.setMesi found .M)
  have foundNext : (s.setMesi id .M).find a = some id := found
  have entry := inv.coherent a
  rw [own_of_find found, entry_of_find found] at entry
  rw [own_of_find foundNext, entry_of_find foundNext]
  have isM : (s.setMesi id .M).mesi id = .M := Function.update_self ..
  rw [isM]
  exact entry.mono_own (fun _ => by decide) fun _ => rfl

theorem processEviction_spec {above : Above} (inv : s.Inv) (found : s.find a = some id) :
    ∃ next, s.processEviction a id above = some next ∧ Evicted id s next := by
  have entry := inv.coherent a
  rw [own_of_find found, entry_of_find found] at entry
  obtain ⟨⟨stores, wb⟩, run, told⟩ := sendInvalidates_run entry.bounded entry.count
    (.inl ⟨rfl, fun c sharer => (entry.exact c).mp sharer⟩)
  obtain ⟨mid, isMid⟩ : ∃ mid, mid = (s.setStores stores).setDir id ((s.dir id).demote .INV) := ⟨_, rfl⟩
  have only : Only a s mid := isMid ▸ Only.setDir found _ told.elsewhere.others
  have foundMid : mid.find a = some id := (only.find a).trans found
  have mesi : mid.mesi id = s.mesi id := by rw [isMid]; rfl
  have alone (c : Nat) : mid.stores.held a c = .I := by
    rw [isMid]
    refine (told.held c).trans ?_
    split
    · rfl
    next noSharer =>
      by_contra valid
      exact noSharer ((entry.exact c).mpr valid)
  have invMid : mid.Inv := by
    apply inv.of_only only
    rw [entry_of_find foundMid, isMid]
    apply EntryInv.of_empty
    · simpa [setDir] using ⟨rfl, fun _ => rfl⟩
    · exact isMid ▸ alone
  have unfolded : s.processEviction a id above = mid.bottomEviction a id wb above := by
    unfold processEviction MESITopCC.processEviction
    rw [run, isMid]
    rfl
  obtain ⟨next, evicted, done⟩ : ∃ next, mid.bottomEviction a id wb above = some next ∧
      Evicted id mid next := by
    cases writeback : wb with
    | false => exact bottomEviction_spec above invMid foundMid alone
    | true =>
      obtain ⟨c, -, dirty⟩ := told.dirty writeback
      have excl : (mid.mesi id).isExclusive = true := by
        rw [mesi]
        exact entry.ownExclusive c (by rw [dirty]; rfl)
      obtain ⟨next, evicted, done⟩ := bottomEviction_spec above
        (invMid.setMesi_M foundMid) foundMid alone
      rw [bottomEviction_writeback excl]
      exact ⟨next, evicted, done.inv, done.array, done.vacant, done.noI, done.sent⟩
  refine ⟨next, unfolded.trans evicted, done.inv, done.array.trans only.array, done.vacant, ?_, ?_⟩
  · intro b c isI
    have before := done.noI b c isI
    rw [isMid] at before
    exact told.elsewhere.noI b c before
  · rw [done.sent, isMid]
    rfl

theorem processEviction_of_vacant {above : Above} (vacant : s.Vacant id) (b : Address) :
    s.processEviction b id above = some s := by
  have sameDir : s.setDir id (s.dir id) = s := by
    unfold setDir
    rw [Function.update_eq_self]
  have sameMesi := setMesi_self s id
  rw [vacant.mesi] at sameMesi
  have told : MESITopCC.processEviction d.numChildren (Trace.invalidate d.numChildren b) (s.dir id)
      (s.stores, false) = some (s.dir id, s.stores, false) :=
    MESITopCC.sendInvalidates_of_empty _ vacant.empty
  unfold processEviction
  rw [told]
  dsimp only [Option.bind_eq_bind, Option.bind_some]
  have sameStores : s.setStores s.stores = s := rfl
  rw [sameStores, sameDir]
  simp [bottomEviction, MESIBottomCC.evict, vacant.mesi, sameMesi, request]

/-! ## Insertions -/

theorem find_setArray (z : d.array.State) (b : Address) :
    (s.setArray z).find b = (d.array.lookup z b).join := rfl

theorem Inv.setArray_same {z : d.array.State} (inv : s.Inv) (invZ : d.array.Inv z)
    (lookup : d.array.lookup z = d.array.lookup s.array) (tag : d.array.tag z = d.array.tag s.array) :
    (s.setArray z).Inv := by
  have find (b : Address) : (s.setArray z).find b = s.find b := by
    rw [find_setArray, lookup]
    rfl
  refine ⟨invZ, fun id live => ?_, fun b => ?_⟩
  · rw [find]
    have found := inv.live id live
    rw [← tag] at found
    exact found
  · have own : (s.setArray z).own b = s.own b := by
      unfold own
      rw [find]
      rfl
    have entry : (s.setArray z).entry b = s.entry b := by
      unfold entry
      rw [find]
      rfl
    rw [own, entry]
    exact inv.coherent b

theorem Inv.setArray_inserted {z : d.array.State} (inv : s.Inv) (invZ : d.array.Inv z)
    (vacant : s.Vacant id) (missing : s.find a = none) (found : d.array.lookup z a = some (some id))
    (others : ∀ b, b ≠ a → d.array.lookup s.array b ≠ some (some id) →
      d.array.lookup z b = d.array.lookup s.array b)
    (tags : ∀ other, other ≠ id → d.array.tag z other = d.array.tag s.array other) :
    (s.setArray z).Inv := by
  refine ⟨invZ, fun j live => ?_, fun b => ?_⟩
  · have liveS : s.Live j := live
    have other : j ≠ id := fun same => vacant.not_live (same ▸ liveS)
    have foundJ := inv.live j liveS
    have tag : d.array.tag (s.setArray z).array j = d.array.tag s.array j := tags j other
    rw [tag, find_setArray, others]
    · exact foundJ
    · intro isA
      rw [isA, missing] at foundJ
      cases foundJ
    · rw [find_eq_some.mp foundJ]
      exact fun same => other (Option.some.inj (Option.some.inj same))
  · -- the line of an address is what it was, or there is nothing in it
    by_cases same : (s.setArray z).find b = s.find b
    · have own : (s.setArray z).own b = s.own b := by
        unfold own
        rw [same]
        rfl
      have entry : (s.setArray z).entry b = s.entry b := by
        unfold entry
        rw [same]
        rfl
      rw [own, entry]
      exact inv.coherent b
    · have moved : s.own b = .I ∧ ((s.setArray z).entry b).Empty := by
        by_cases isA : b = a
        · subst isA
          have foundNext : (s.setArray z).find b = some id := find_eq_some.mpr found
          rw [entry_of_find foundNext, own, missing]
          exact ⟨rfl, vacant.empty⟩
        · have victim : s.find b = some id := by
            by_contra notVictim
            apply same
            rw [find_setArray, others b isA fun h => notVictim (find_eq_some.mpr h)]
            rfl
          rw [own_of_find victim]
          refine ⟨vacant.mesi, ?_⟩
          cases after : (s.setArray z).find b with
          | none =>
            rw [entry, after]
            exact ⟨rfl, fun _ => rfl⟩
          | some j =>
            have tag : d.array.tag z j = b := d.array.lookup_sound invZ (find_eq_some.mp after)
            have other : j ≠ id := fun same => isA <| by
              rw [← tag, same, d.array.lookup_sound invZ found]
            have dead : ¬ s.Live j := fun live => other <| by
              have foundJ := inv.live j live
              rw [← tags j other, tag, victim] at foundJ
              exact (Option.some.inj foundJ).symm
            rw [entry_of_find after]
            exact (vacant_of_not_live dead).empty
      obtain ⟨invalid, empty⟩ := moved
      refine EntryInv.of_empty _ _ empty fun c => ?_
      by_contra valid
      exact (inv.coherent b).inclusive c valid invalid

/-- A new line, which nobody holds. -/
structure Inserted (a : Address) (id : Nat) (s next : Replay d) : Prop where
  inv : next.Inv
  found : next.find a = some id
  own : next.own a = .I
  noI : ∀ b c, next.stores c b = some .I → s.stores c b = some .I
  sent : next.sent = s.sent

theorem insert_spec (inv : s.Inv) (missed : d.array.lookup s.array a = some none) (env : Env) :
    ∃ id next, s.insert env a = some (id, next) ∧ Inserted a id s next := by
  obtain ⟨z, id, run, invZ, picked, lookup, tag⟩ := d.array.preinsert_spec env.rp inv.arrays missed
  have invPicked := inv.setArray_same invZ lookup tag
  obtain ⟨mid, evicted, done⟩ : ∃ mid, (s.setArray z).processEviction (d.array.tag s.array id) id
      env.evict = some mid ∧ Evicted id (s.setArray z) mid := by
    by_cases live : (s.setArray z).Live id
    · have found := invPicked.live id live
      have atZ : d.array.tag (s.setArray z).array id = d.array.tag s.array id := congrFun tag id
      rw [atZ] at found
      exact processEviction_spec invPicked found
    · have vacant := vacant_of_not_live live
      exact ⟨s.setArray z, processEviction_of_vacant vacant _, invPicked, rfl, vacant,
        fun _ _ isI => isI, rfl⟩
  have missing : mid.find a = none := by
    unfold find
    rw [done.array]
    change (d.array.lookup z a).join = none
    rw [lookup, missed]
    rfl
  obtain ⟨z', run', invZ', found, others, tags⟩ := d.array.postinsert_spec invZ (lookup ▸ missed) picked
  have arrayMid : mid.array = z := done.array
  have invNext := done.inv.setArray_inserted invZ' done.vacant missing found
    (by rw [arrayMid]; exact others) (by rw [arrayMid]; exact tags)
  have foundNext : (mid.setArray z').find a = some id := find_eq_some.mpr found
  refine ⟨id, mid.setArray z', ?_, invNext, foundNext, ?_, done.noI, done.sent⟩
  · unfold insert
    rw [run]
    dsimp only [Option.bind_eq_bind, Option.bind_some]
    rw [evicted]
    dsimp only [Option.bind_some]
    rw [arrayMid, run']
    rfl
  · rw [own_of_find foundNext]
    exact done.vacant.mesi

end Replay

end Zsim.Trace
