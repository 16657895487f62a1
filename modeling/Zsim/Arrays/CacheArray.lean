import Zsim.Arrays.SetAssocArray
import Zsim.Arrays.ZRuns

/-!
# The interface of the cache arrays

`CacheArray` of cache_arrays.h, as an object that carries the facts its users rely on,
and the two implementations.
-/

set_option autoImplicit false

namespace Zsim

structure CacheArray where
  State : Type
  init : State
  /-- the address of a line id -/
  tag : State → Nat → Nat
  /-- the addresses that `lookup` accepts -/
  Addressable : Nat → Prop
  /-- `some none` is -1 -/
  lookup : State → Nat → Option (Option Nat)
  /-- the line id and the address to write back -/
  preinsert : State → Nat → RankCands → Option (State × Nat × Nat)
  postinsert : State → Nat → Nat → Option State
  Inv : State → Prop
  /-- `preinsert` of the address has picked the line id -/
  Picked : State → Nat → Nat → Prop
  inv_init : Inv init
  lookup_addressable : ∀ {z a}, Inv z → Addressable a → ∃ found, lookup z a = some found
  lookup_sound : ∀ {z a id}, Inv z → lookup z a = some (some id) → tag z id = a
  preinsert_spec : ∀ {z a} rp, Inv z → lookup z a = some none → ∃ z' id,
    preinsert z a rp = some (z', id, tag z id) ∧ Inv z' ∧ Picked z' a id ∧ lookup z' = lookup z ∧
      tag z' = tag z
  postinsert_spec : ∀ {z a id}, Inv z → lookup z a = some none → Picked z a id → ∃ z',
    postinsert z a id = some z' ∧ Inv z' ∧ lookup z' a = some (some id) ∧
      (∀ b, b ≠ a → lookup z b ≠ some (some id) → lookup z' b = lookup z b) ∧
      ∀ other, other ≠ id → tag z' other = tag z other

namespace CacheArray

/-- Every array state satisfies the invariant of a set-associative array. -/
def setAssoc (c : SetAssocConfig) : CacheArray where
  State := SetAssocArray
  init _ := 0
  tag array id := array id
  Addressable _ := True
  lookup array lineAddr := some (c.lookup array lineAddr)
  preinsert array lineAddr rp := some (array, c.preinsert array lineAddr rp)
  postinsert array lineAddr candidate := some (SetAssocConfig.postinsert array lineAddr candidate)
  Inv _ := True
  Picked _ lineAddr candidate := candidate ∈ c.set lineAddr
  inv_init := trivial
  lookup_addressable _ _ := ⟨_, rfl⟩
  lookup_sound _ found := (SetAssocConfig.lookup_sound (Option.some.inj found)).2
  preinsert_spec rp _ _ :=
    ⟨_, _, rfl, trivial, rp.presented _ (SetAssocConfig.set_ne_nil _), rfl, rfl⟩
  postinsert_spec := by
    intro array a candidate _ missed picked
    refine ⟨_, rfl, trivial, ?_, fun b apart notVictim => ?_, fun id other => ?_⟩
    · exact congrArg some (SetAssocConfig.lookup_postinsert (Option.some.inj missed) picked)
    · exact congrArg some
        (SetAssocConfig.lookup_postinsert_of_ne apart fun h => notVictim (congrArg some h))
    · exact Function.update_of_ne other ..

open ZConfig in
/-- The zcache panics on address 0. -/
def zcache (c : ZConfig) : CacheArray where
  State := ZArray
  init := ZConfig.init
  tag z id := z.array id
  Addressable a := a ≠ 0
  lookup := c.lookup
  preinsert := c.preinsert
  postinsert := ZConfig.postinsert
  Inv := RepInv c
  Picked z lineAddr candidate := SwapInv c z lineAddr candidate
  inv_init := RepInv.init c
  lookup_addressable _ nonzero := ⟨_, if_neg nonzero⟩
  lookup_sound := by
    intro z a id inv found
    unfold ZConfig.lookup at found
    split at found
    · cases found
    · exact (lookupWays_sound inv (Option.some.inj found)).2
  preinsert_spec := by
    intro z a rp inv missed
    obtain ⟨swaps, candidate, run, -, picked⟩ := inv.preinsert a rp
    exact ⟨_, candidate, run, ⟨inv.perm, inv.own, inv.unique⟩, picked, rfl, rfl⟩
  postinsert_spec := by
    intro z a id inv missed picked
    obtain ⟨nonzero, missing⟩ := missing_of_lookup inv missed
    obtain ⟨next, run, invNext, bound, array⟩ := inv.postinsert picked missing
    refine ⟨next, run, invNext, ?_, fun b apart notVictim => ?_, fun other apart => ?_⟩
    · have here : next.array id = a := by rw [array, Function.update_self]
      have found := lookupWays_complete invNext bound (here ▸ nonzero)
      rw [here] at found
      rw [ZConfig.lookup, if_neg nonzero, found]
    · by_cases zero : b = 0
      · rw [ZConfig.lookup, ZConfig.lookup, if_pos zero, if_pos zero]
      · rw [ZConfig.lookup, if_neg zero] at notVictim ⊢
        rw [ZConfig.lookup, if_neg zero]
        congr 1
        cases before : c.lookupWays z b with
        | some j =>
            obtain ⟨boundJ, here⟩ := lookupWays_sound inv before
            have other : j ≠ id := fun h => notVictim (by rw [before, h])
            have still : next.array j = b := by rw [array, Function.update_of_ne other, here]
            have found := lookupWays_complete invNext boundJ (still ▸ zero)
            rwa [still] at found
        | none =>
            cases after : c.lookupWays next b with
            | none => rfl
            | some j =>
                obtain ⟨boundJ, here⟩ := lookupWays_sound invNext after
                rw [array] at here
                by_cases isId : j = id
                · rw [isId, Function.update_self] at here
                  exact absurd here.symm apart
                · rw [Function.update_of_ne isId] at here
                  have found := lookupWays_complete inv boundJ (here ▸ zero)
                  rw [here, before] at found
                  cases found
    · rw [array, Function.update_of_ne apart]

end CacheArray

end Zsim
