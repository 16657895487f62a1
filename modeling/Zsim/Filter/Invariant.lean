import Zsim.Filter.Model

/-!
# What the filter knows

Line addresses of different sets and processes are kept apart, and `FilterInv` says that
an entry of the filter stands for the most recent line of its set, unless a miss to the
set is open.
-/

set_option autoImplicit false

namespace Zsim.Filter

open Coherence

/-! ## Line addresses -/

namespace L1Config

variable {c : L1Config}

/-- A line address as a core uses it: not 0, and without the bits of a `procMask`. -/
structure Line (c : L1Config) (vLineAddr : Nat) : Prop where
  nonzero : vLineAddr ≠ 0
  low : vLineAddr < 2 ^ (64 - c.lineBits)

theorem Line.of_vAddr {vAddr : Nat} (word : vAddr < 2 ^ 64) (nonzero : vAddr >>> c.lineBits ≠ 0) :
    c.Line (vAddr >>> c.lineBits) where
  nonzero := nonzero
  low := by
    have split : 2 ^ 64 = 2 ^ (64 - c.lineBits) * 2 ^ c.lineBits := by
      rw [← Nat.pow_add]
      congr 1
      have := c.lineBitsWord
      omega
    rw [Nat.shiftRight_eq_div_pow]
    exact Nat.div_lt_of_lt_mul (by rw [Nat.mul_comm, ← split]; exact word)

theorem procMask_high (procIdx : Nat) : ∃ q, c.procMask procIdx = 2 ^ (64 - c.lineBits) * q := by
  refine ⟨procIdx % 2 ^ c.lineBits, ?_⟩
  have split : 2 ^ 64 = 2 ^ (64 - c.lineBits) * 2 ^ c.lineBits := by
    rw [← Nat.pow_add]
    congr 1
    have := c.lineBitsWord
    omega
  rw [procMask, u64, Nat.shiftLeft_eq, Nat.mul_comm, split, Nat.mul_mod_mul_left]

theorem or_eq_add {q vLineAddr : Nat} (line : c.Line vLineAddr) :
    2 ^ (64 - c.lineBits) * q ||| vLineAddr = 2 ^ (64 - c.lineBits) * q + vLineAddr :=
  (Nat.two_pow_add_eq_or_of_lt line.low q).symm

theorem pLineAddr_set {vLineAddr : Nat} (procIdx : Nat) (line : c.Line vLineAddr) :
    (c.procMask procIdx ||| vLineAddr) &&& c.setMask = vLineAddr &&& c.setMask := by
  obtain ⟨q, high⟩ := procMask_high (c := c) procIdx
  have le : c.setBits ≤ 64 - c.lineBits := by
    have := c.setBitsWord
    have := c.lineBitsWord
    omega
  rw [high, or_eq_add line, setMask, Nat.and_two_pow_sub_one_eq_mod,
    Nat.and_two_pow_sub_one_eq_mod, Nat.add_mod,
    Nat.mod_eq_zero_of_dvd (Nat.dvd_trans (Nat.pow_dvd_pow 2 le) (Nat.dvd_mul_right _ q)), Nat.zero_add,
    Nat.mod_mod]

theorem Line.ne_invalid {v : Nat} (line : c.Line v) : v ≠ FilterEntry.invalid := by
  have le : 2 ^ (64 - c.lineBits) ≤ 2 ^ 63 := by
    apply Nat.pow_le_pow_right (by decide)
    have := c.lineBitsPos
    omega
  have low := lt_of_lt_of_le line.low le
  intro same
  rw [same] at low
  exact absurd low (by decide)

theorem mem_set_iff {lineAddr id : Nat} :
    id ∈ c.array.set lineAddr ↔ id / c.assoc = lineAddr &&& c.setMask := by
  have pos := c.assocPos
  have eq : c.array.set lineAddr =
      (List.range c.assoc).map ((lineAddr &&& c.setMask) * c.assoc + ·) := rfl
  rw [eq, List.mem_map]
  constructor
  · rintro ⟨i, bound, rfl⟩
    rw [Nat.add_comm, Nat.add_mul_div_right _ _ pos, Nat.div_eq_of_lt (List.mem_range.mp bound),
      Nat.zero_add]
  · intro div
    refine ⟨id % c.assoc, List.mem_range.mpr (Nat.mod_lt id pos), ?_⟩
    rw [← div, Nat.mul_comm]
    exact Nat.div_add_mod id c.assoc

theorem set_congr {a b : Nat} (same : a &&& c.setMask = b &&& c.setMask) :
    c.array.set a = c.array.set b := by
  have eq : ∀ lineAddr, c.array.set lineAddr =
      (List.range c.assoc).map ((lineAddr &&& c.setMask) * c.assoc + ·) := fun _ => rfl
  rw [eq, eq, same]

end L1Config

/-! ## Lines of the cache -/

namespace L1

variable {c : L1Config}

@[simp] theorem setState_tags (s : L1) (id : Nat) (state : MESIState) :
    (s.setState id state).tags = s.tags := rfl

@[simp] theorem setState_rp (s : L1) (id : Nat) (state : MESIState) :
    (s.setState id state).rp = s.rp := rfl

@[simp] theorem setState_states (s : L1) (id : Nat) (state : MESIState) :
    (s.setState id state).states = Function.update s.states id state := rfl

/-- The line is in the cache at `id`, and was accessed after the other lines of its set. -/
structure Present (c : L1Config) (s : L1) (lineAddr id : Nat) : Prop where
  found : c.array.lookup s.tags lineAddr = some id
  recent : s.rp.MostRecent (c.array.set lineAddr) id
  used : s.rp.array id ≠ 0

/-- A present line with a state that allows a load, and a store if `writable`. -/
def Held (c : L1Config) (s : L1) (lineAddr : Nat) (writable : Prop) : Prop :=
  ∃ id, s.Present c lineAddr id ∧ s.states id ≠ .I ∧ (writable → s.states id = .M)

/-- Nothing outside the set of `lineAddr` changes. -/
structure Within (c : L1Config) (lineAddr : Nat) (s s' : L1) : Prop where
  tags : ∀ id ∉ c.array.set lineAddr, s'.tags id = s.tags id
  array : ∀ id ∉ c.array.set lineAddr, s'.rp.array id = s.rp.array id
  states : ∀ id ∉ c.array.set lineAddr, s'.states id = s.states id

theorem Within.trans {lineAddr : Nat} {s s' s'' : L1} (first : Within c lineAddr s s')
    (second : Within c lineAddr s' s'') : Within c lineAddr s s'' where
  tags id out := (second.tags id out).trans (first.tags id out)
  array id out := (second.array id out).trans (first.array id out)
  states id out := (second.states id out).trans (first.states id out)

theorem Within.setState {lineAddr id : Nat} (member : id ∈ c.array.set lineAddr) (s : L1)
    (state : MESIState) : Within c lineAddr s (s.setState id state) where
  tags _ _ := rfl
  array _ _ := rfl
  states other out := by
    rw [setState_states, Function.update_of_ne]
    rintro rfl
    exact out member

theorem lookup_congr {tags tags' : SetAssocArray} {lineAddr : Nat}
    (same : ∀ id ∈ c.array.set lineAddr, tags' id = tags id) :
    c.array.lookup tags' lineAddr = c.array.lookup tags lineAddr := by
  unfold SetAssocConfig.lookup
  generalize c.array.set lineAddr = ids at same ⊢
  induction ids with
  | nil => rfl
  | cons id rest ih =>
      have here := same id List.mem_cons_self
      have tail := ih fun other member => same other (List.mem_cons_of_mem id member)
      simp only [List.find?_cons, here, tail]

theorem Within.held {lineAddr other : Nat} {s s' : L1} {writable : Prop}
    (within : Within c lineAddr s s') (apart : other &&& c.setMask ≠ lineAddr &&& c.setMask)
    (held : s.Held c other writable) : s'.Held c other writable := by
  have out : ∀ id ∈ c.array.set other, id ∉ c.array.set lineAddr := fun id member here =>
    apart ((L1Config.mem_set_iff.mp member).symm.trans (L1Config.mem_set_iff.mp here))
  obtain ⟨id, present, valid, exclusive⟩ := held
  have member := (SetAssocConfig.lookup_sound present.found).1
  have state := within.states id (out id member)
  refine ⟨id, ⟨?_, ?_, ?_⟩, ?_, ?_⟩
  · rw [lookup_congr fun id member => within.tags id (out id member)]
    exact present.found
  · exact present.recent.congr member fun id member => within.array id (out id member)
  · rw [within.array id (out id member)]
    exact present.used
  · rwa [state]
  · rwa [state]

theorem Present.setState {s : L1} {lineAddr id : Nat} (present : s.Present c lineAddr id)
    (other : Nat) (state : MESIState) : (s.setState other state).Present c lineAddr id :=
  ⟨present.found, present.recent, present.used⟩

end L1

/-! ## The invariant -/

/-- What the stage of a miss says about its line. -/
def Miss.StageInv (c : L1Config) (m : Miss) (s : L1) : Prop :=
  match m.stage with
  | .evicting => c.array.lookup s.tags m.lineAddr = none ∧ m.id ∈ c.array.set m.lineAddr
  | .fetching => s.Present c m.lineAddr m.id

structure MissInv (c : L1Config) (s : Filtered) (m : Miss) : Prop where
  line : c.Line s.vLineAddr
  lineAddr : m.lineAddr = s.procMask ||| s.vLineAddr
  type : m.type = if s.isLoad then .GETS else .GETX
  stage : m.StageInv c s.cache

/-- A miss to the set is open, and its end will overwrite the entry. -/
def Filtered.Replacing (c : L1Config) (s : Filtered) (idx : Nat) : Prop :=
  s.miss.isSome = true ∧ s.vLineAddr &&& c.setMask = idx

theorem Filtered.not_replacing {c : L1Config} {s : Filtered} (idle : s.miss.isNone = true)
    (idx : Nat) : ¬s.Replacing c idx := by
  rintro ⟨busy, -⟩
  rw [Option.isNone_iff_eq_none.mp idle] at busy
  cases busy

structure FilterInv (c : L1Config) (s : Filtered) : Prop where
  procMask : ∃ procIdx, s.procMask = c.procMask procIdx
  wrAddr : ∀ idx, (s.filterArray idx).wrAddr = FilterEntry.invalid ∨
    (s.filterArray idx).wrAddr = (s.filterArray idx).rdAddr
  held : ∀ v, c.Line v → s.loadHits c v → ¬s.Replacing c (v &&& c.setMask) →
    s.cache.Held c (s.procMask ||| v) (s.storeHits c v)
  miss : ∀ m, s.miss = some m → MissInv c s m

theorem FilterInv.init (c : L1Config) : FilterInv c Filtered.init where
  procMask := by
    refine ⟨0, ?_⟩
    rw [L1Config.procMask, Nat.zero_shiftLeft]
    rfl
  wrAddr _ := Or.inr rfl
  held _ line hits _ := absurd hits line.nonzero
  miss _ none := nomatch none

theorem FilterInv.loadHits {c : L1Config} {s : Filtered} (inv : FilterInv c s) {v : Nat}
    (line : c.Line v) (hits : s.storeHits c v) : s.loadHits c v := by
  rcases inv.wrAddr (v &&& c.setMask) with cleared | same
  · exact absurd (hits.trans cleared) line.ne_invalid
  · exact hits.trans same

end Zsim.Filter
