import Zsim.Mockingjay.Sampled

/-!
# Signatures of several cores

The core is or-ed into two bits below those of the prefetch bit and of the program counter, so the
number that is hashed tells four cores apart and no more.
-/

set_option autoImplicit false

namespace Zsim.Mockingjay

variable {c : Config}

/-- What `get_pc_signature` passes to `CRC_HASH` with several cores. -/
def MemReq.preHash (req : MemReq) : Nat :=
  u64 (u64 (req.pc * 2 ||| req.prefetch.toNat) * 4) ||| req.srcId

theorem getPcSignature_several (several : 1 < c.numCores) (req : MemReq) (hit : Bool) :
    c.getPcSignature req.pc hit req.prefetch req.srcId =
      c.lowBits (Config.crcHash req.preHash) c.pcSignatureBits := by
  rw [Config.getPcSignature, if_neg (by omega)]
  rfl

/-- The requests of a run. -/
def requests (ops : List Op) : List MemReq :=
  ops.filterMap fun
    | .update _ req => some req
    | _ => none

def SignedBy (c : Config) (reqs : List MemReq) (signature : Nat) : Prop :=
  ∃ req ∈ reqs, c.signature req = signature

structure CoresApart (c : Config) : Prop where
  determines : ∀ a b : MemReq, a.srcId < c.numCores → b.srcId < c.numCores →
    a.preHash = b.preHash →
      a.prefetch = b.prefetch ∧ a.srcId = b.srcId ∧ a.pc % 2 ^ 61 = b.pc % 2 ^ 61
  shares : ∀ a b : MemReq, a.srcId < c.numCores → b.srcId < c.numCores → a.pc = b.pc →
    a.preHash = b.preHash → a.srcId = b.srcId ∧ a.prefetch = b.prefetch
  /-- An entry that an update changes is that of an earlier request, and one of another core with
  this signature is hashed from another number. -/
  trains : ∀ ops p, (machine c).exec ops (.init c) = some p →
    (∀ req ∈ requests ops, req.srcId < c.numCores) →
    ∀ id req next signature, p.update c id req = some next →
      next.rdp signature ≠ p.rdp signature →
      ∃ trainer ∈ requests ops, c.signature trainer = signature ∧
        ∀ reader : MemReq, reader.srcId < c.numCores → reader.srcId ≠ trainer.srcId →
          c.signature reader = signature → reader.preHash ≠ trainer.preHash

/-! ## The number that is hashed -/

theorem or_toNat (n : Nat) (b : Bool) : n * 2 ||| b.toNat = 2 * n + b.toNat := by
  have small : b.toNat < 2 ^ 1 := Bool.toNat_lt b
  rw [Nat.mul_comm, ← Nat.two_pow_add_eq_or_of_lt small n]

theorem preHash_eq (req : MemReq) (narrow : req.srcId < 4) :
    req.preHash = 4 * ((2 * req.pc + req.prefetch.toNat) % 2 ^ 62) + req.srcId := by
  have small : req.srcId < 2 ^ 2 := narrow
  have shifted : u64 (u64 (req.pc * 2 ||| req.prefetch.toNat) * 4) =
      2 ^ 2 * ((2 * req.pc + req.prefetch.toNat) % 2 ^ 62) := by
    rw [or_toNat]
    unfold u64
    omega
  rw [MemReq.preHash, shifted, ← Nat.two_pow_add_eq_or_of_lt small]

theorem preHash_determines {a b : MemReq} (aNarrow : a.srcId < 4) (bNarrow : b.srcId < 4)
    (same : a.preHash = b.preHash) :
    a.prefetch = b.prefetch ∧ a.srcId = b.srcId ∧ a.pc % 2 ^ 61 = b.pc % 2 ^ 61 := by
  rw [preHash_eq a aNarrow, preHash_eq b bNarrow] at same
  have aBit := Bool.toNat_lt a.prefetch
  have bBit := Bool.toNat_lt b.prefetch
  have bits : a.prefetch.toNat = b.prefetch.toNat := by omega
  refine ⟨?_, by omega, by omega⟩
  rw [← Bool.ofNat_toNat a.prefetch, bits, Bool.ofNat_toNat]

theorem fifth_core (pc lineAddr : Nat) :
    MemReq.preHash ⟨lineAddr, .GETS, false, 4, pc⟩ = MemReq.preHash ⟨lineAddr, .GETS, true, 0, pc⟩ := by
  have demand : MemReq.preHash ⟨lineAddr, .GETS, false, 4, pc⟩ = 2 ^ 3 * (pc % 2 ^ 61) ||| 4 := by
    unfold MemReq.preHash u64
    congr 1
    simp
    omega
  have prefetch : MemReq.preHash ⟨lineAddr, .GETS, true, 0, pc⟩ = 2 ^ 3 * (pc % 2 ^ 61) + 4 := by
    rw [preHash_eq ⟨lineAddr, .GETS, true, 0, pc⟩ (Nat.succ_pos 3)]
    simp
    omega
  rw [demand, prefetch, Nat.two_pow_add_eq_or_of_lt (by decide)]

/-! ## The entries that an update changes -/

/-- The predictor has changed only at signatures of valid lines of the row. -/
def ChangedWithin (row : SampledRow) (rdp rdp' : Rdp) : Prop :=
  ∀ signature, rdp' signature ≠ rdp signature →
    ∃ w, (row w).valid = true ∧ (row w).lastPcSignature = signature

theorem ChangedWithin.trans {row row' : SampledRow} {rdp mid rdp' : Rdp}
    (first : ChangedWithin row rdp mid) (purged : Purged row row')
    (second : ChangedWithin row' mid rdp') : ChangedWithin row rdp rdp' := by
  intro signature changed
  by_cases same : mid signature = rdp signature
  · obtain ⟨w, valid, signed⟩ := second signature fun eq => changed (eq.trans same)
    have untouched := purged.eq_of_valid valid
    rw [untouched] at valid signed
    exact ⟨w, valid, signed⟩
  · exact first signature same

theorem ChangedWithin.refl (row : SampledRow) (rdp : Rdp) : ChangedWithin row rdp rdp :=
  fun _ changed => absurd rfl changed

theorem changedWithin_update {row : SampledRow} {way : Fin 5} (valid : (row way).valid = true)
    (rdp : Rdp) (rd : Option Int) :
    ChangedWithin row rdp (Function.update rdp (row way).lastPcSignature rd) := by
  intro signature changed
  refine ⟨way, valid, ?_⟩
  by_contra other
  exact changed (Function.update_of_ne (Ne.symm other) ..)

theorem detrain_changes (row : SampledRow) (rdp : Rdp) (way : Fin 5) :
    ChangedWithin row rdp (detrain row rdp way).2 := by
  unfold detrain
  split
  case isTrue valid => exact changedWithin_update valid rdp _
  case isFalse => exact .refl row rdp

theorem evict_changes (row : SampledRow) (rdp : Rdp) (current : Nat) :
    ChangedWithin row rdp (MockingjayReplPolicy.evict row rdp current).2 := by
  have step (row' : SampledRow) (rdp' : Rdp) (way : Fin 5)
      (holds : Purged row row' ∧ ChangedWithin row rdp rdp') :
      Purged row (detrain row' rdp' way).1 ∧ ChangedWithin row rdp (detrain row' rdp' way).2 := by
    obtain ⟨purged, changes⟩ := holds
    exact ⟨purged.trans (detrain_spec row' rdp' way).1,
      changes.trans purged (detrain_changes row' rdp' way)⟩
  have start : Purged row row ∧ ChangedWithin row rdp rdp := ⟨.refl row, .refl row rdp⟩
  exact (evict_induction (P := fun row' rdp' => Purged row row' ∧ ChangedWithin row rdp rdp')
    start step current).2

theorem train_changes (req : MemReq) (row : SampledRow) (rdp : Rdp) (current : Nat) :
    ChangedWithin row rdp (MockingjayReplPolicy.train c req row rdp current).2 := by
  unfold MockingjayReplPolicy.train
  split
  case h_1 way sample trains => exact changedWithin_update (training_spec trains).1 rdp _
  case h_2 => exact .refl row rdp

theorem accessRow_changes (req : MemReq) (pc current : Nat) (row : SampledRow) (rdp : Rdp) :
    ChangedWithin row rdp (MockingjayReplPolicy.accessRow c req pc current row rdp).2 :=
  (train_changes req row rdp current).trans (train_spec req row rdp current).1
    (evict_changes _ _ current)

theorem accessRow_line {req : MemReq} {pc current : Nat} {row : SampledRow} {rdp : Rdp} {w : Fin 5}
    (valid : ((MockingjayReplPolicy.accessRow c req pc current row rdp).1 w).valid = true) :
    (MockingjayReplPolicy.accessRow c req pc current row rdp).1 w = row w ∨
      ((MockingjayReplPolicy.accessRow c req pc current row rdp).1 w).lastPcSignature = pc := by
  have purged := (train_spec (c := c) req row rdp current).1.trans (evict_spec _
    (MockingjayReplPolicy.train c req row rdp current).2 current).1
  have free := (evict_spec (MockingjayReplPolicy.train c req row rdp current).1
    (MockingjayReplPolicy.train c req row rdp current).2 current).2.1
  obtain ⟨way, -, filled⟩ := record_spec ⟨true, c.getSampledCacheTag req.lineAddr, pc, current⟩ free
  unfold MockingjayReplPolicy.accessRow at valid ⊢
  dsimp only at valid ⊢
  rw [filled] at valid ⊢
  by_cases same : w = way
  · right
    rw [same, Function.update_self]
  · left
    rw [Function.update_of_ne same] at valid ⊢
    exact purged.eq_of_valid valid

/-! ## Runs -/

/-- The valid lines of the sampled cache are signed by the requests. -/
def RowsSigned (c : Config) (reqs : List MemReq) (p : MockingjayReplPolicy) : Prop :=
  ∀ index row w, p.sampledCacheEntries index = some row → (row w).valid = true →
    SignedBy c reqs (row w).lastPcSignature

theorem SignedBy.later {reqs later : List MemReq} {signature : Nat}
    (signed : SignedBy c reqs signature) : SignedBy c (reqs ++ later) signature := by
  obtain ⟨req, member, isSignature⟩ := signed
  exact ⟨req, List.mem_append_left later member, isSignature⟩

theorem RowsSigned.update {reqs : List MemReq} {p next : MockingjayReplPolicy} {id : Nat}
    {req : MemReq} (signed : RowsSigned c reqs p) (run : p.update c id req = some next) :
    RowsSigned c (reqs ++ [req]) next := by
  intro index row' w isRow' valid
  by_cases sampled : c.isSampledSet (id / c.llcWays) = true
  · obtain ⟨row, isRow, entries, -⟩ := MockingjayReplPolicy.update_sampled run sampled
    rw [entries] at isRow'
    by_cases same : index = c.getSampledCacheIndex req.lineAddr
    · subst same
      rw [Function.update_self] at isRow'
      cases Option.some.inj isRow'
      rcases accessRow_line valid with old | new
      · rw [old] at valid ⊢
        exact (signed _ row w isRow valid).later
      · exact ⟨req, List.mem_append_right reqs List.mem_cons_self, new.symm⟩
    · rw [Function.update_of_ne same] at isRow'
      exact (signed index row' w isRow' valid).later
  · rw [(MockingjayReplPolicy.update_unsampled run sampled).1] at isRow'
    exact (signed index row' w isRow' valid).later

theorem RowsSigned.exec {ops : List Op} {reqs : List MemReq} {p final : MockingjayReplPolicy}
    (signed : RowsSigned c reqs p) (run : (machine c).exec ops p = some final) :
    RowsSigned c (reqs ++ requests ops) final := by
  induction ops generalizing p reqs with
  | nil =>
      cases Option.some.inj run
      rw [requests, List.filterMap_nil, List.append_nil]
      exact signed
  | cons op rest ih =>
      obtain ⟨next, step, runRest⟩ := Option.bind_eq_some_iff.mp run
      cases op with
      | rank _ _ =>
          cases Option.some.inj step
          exact ih signed runRest
      | replaced _ =>
          cases Option.some.inj step
          exact ih (p := p.replaced _) signed runRest
      | update id req =>
          have later := ih (RowsSigned.update signed step) runRest
          rw [List.append_assoc] at later
          exact later

theorem RowsSigned.init : RowsSigned c [] (.init c) := by
  intro index row w isRow valid
  have isRow : (if _ then some _ else none) = some row := isRow
  split at isRow
  · cases isRow
    cases valid
  · cases isRow

/-- An update changes the predictor only at the signature of an earlier request. -/
theorem update_changes_signed {ops : List Op} {p next : MockingjayReplPolicy} {id : Nat}
    {req : MemReq} (run : (machine c).exec ops (.init c) = some p)
    (update : p.update c id req = some next) {signature : Nat}
    (changed : next.rdp signature ≠ p.rdp signature) : SignedBy c (requests ops) signature := by
  have signed := RowsSigned.init.exec run
  by_cases sampled : c.isSampledSet (id / c.llcWays) = true
  · obtain ⟨row, isRow, -, rdp⟩ := MockingjayReplPolicy.update_sampled update sampled
    rw [rdp] at changed
    obtain ⟨w, valid, isSignature⟩ := accessRow_changes _ _ _ _ _ signature changed
    rw [← isSignature]
    exact signed _ row w isRow valid
  · rw [(MockingjayReplPolicy.update_unsampled update sampled).2] at changed
    exact absurd rfl changed

/-- The number that is hashed tells the cores of a system with several cores apart exactly if there
are no more than four. -/
theorem cores_apart_iff (c : Config) (several : 1 < c.numCores) :
    (∀ (req : MemReq) (hit : Bool), c.getPcSignature req.pc hit req.prefetch req.srcId =
      c.lowBits (Config.crcHash req.preHash) c.pcSignatureBits) ∧
    (CoresApart c ↔ c.numCores ≤ 4) := by
  refine ⟨getPcSignature_several several, ?_⟩
  constructor
  · intro apart
    by_contra many
    have same := apart.determines ⟨0, .GETS, false, 4, 0⟩ ⟨0, .GETS, true, 0, 0⟩ (by dsimp only; omega)
      (by dsimp only; omega) (fifth_core 0 0)
    exact absurd same.1 Bool.false_ne_true
  · intro few
    have determines : ∀ a b : MemReq, a.srcId < c.numCores → b.srcId < c.numCores →
        a.preHash = b.preHash →
          a.prefetch = b.prefetch ∧ a.srcId = b.srcId ∧ a.pc % 2 ^ 61 = b.pc % 2 ^ 61 :=
      fun a b aCore bCore => preHash_determines (by omega) (by omega)
    refine ⟨determines, fun a b aCore bCore _ same => ?_, ?_⟩
    · obtain ⟨prefetch, core, -⟩ := determines a b aCore bCore same
      exact ⟨core, prefetch⟩
    · intro ops p run cores id req next signature update changed
      obtain ⟨trainer, member, signed⟩ := update_changes_signed run update changed
      refine ⟨trainer, member, signed, fun reader core other _ same => other ?_⟩
      exact (determines reader trainer core (cores trainer member) same).2.1

theorem cores_apart_iff_fourKB : CoresApart fourKB :=
  (cores_apart_iff fourKB (by decide)).2.mpr (by decide)

/-- Eight cores are not kept apart. -/
theorem fifth_core_prefetches :
    ¬ ∀ c : Config, 1 < c.numCores → c.numCores ≤ 2048 → CoresApart c := by
  intro claim
  have apart := claim { fourKB with numCores := 8 } (by decide) (by decide)
  have same := apart.determines ⟨0, .GETS, false, 4, 100⟩ ⟨0, .GETS, true, 0, 100⟩ (by decide)
    (by decide) (by decide)
  exact absurd same.1 (by decide)

end Zsim.Mockingjay
