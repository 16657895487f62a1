import Zsim.DDR.Model
import Zsim.DDR.Window

/-!
# Runs of an activation window

As long as no activation is earlier than all but one of the largest ones, the window holds the
largest ones in order, and they keep any `size + 1` activations from being close together.
-/

set_option autoImplicit false

namespace Zsim.DDR.Sized

/-- A window with all activations, the latest call first. -/
structure ActRun where
  window : ActWindow
  added : List Nat

namespace ActRun

variable (size tFAW : Nat)

def start : ActRun := ⟨.init, []⟩

/-- `trySchedule` adds tFAW to what the window says; the first activations need not. -/
def legal (s : ActRun) (actCycle : Nat) : Prop :=
  size ≤ s.added.length → s.window.minActCycle + tFAW ≤ actCycle

instance (s : ActRun) (actCycle : Nat) : Decidable (s.legal size tFAW actCycle) :=
  inferInstanceAs (Decidable (_ → _))

def step (s : ActRun) (actCycle : Nat) : Option ActRun :=
  (s.window.addActivation size actCycle).map fun window => ⟨window, actCycle :: s.added⟩

def machine : Machine ActRun Nat := ⟨legal size tFAW, step size⟩

instance (s : ActRun) (actCycle : Nat) : Decidable ((machine size tFAW).legal s actCycle) :=
  inferInstanceAs (Decidable (s.legal size tFAW actCycle))

/-- Of any `size + 1` activations two are at least tFAW apart. -/
def Spaced (added : List Nat) : Prop :=
  ∀ acts : List Nat, acts.Sublist added → acts.length = size + 1 → ∃ a ∈ acts, ∃ b ∈ acts, a + tFAW ≤ b

/-- The window holds the largest activations in order, and all of them are spaced. -/
structure Right (s : ActRun) : Prop where
  window : s.window.contents size = largest size s.added
  spaced : Spaced size tFAW s.added

/-- Fewer than `size - 1` of the activations so far are later. -/
def NearlyInOrder (s : ActRun) (actCycle : Nat) : Prop :=
  size = 1 ∨ (s.added.filter fun earlier => actCycle < earlier).length + 1 < size

instance (s : ActRun) (actCycle : Nat) : Decidable (s.NearlyInOrder size actCycle) :=
  inferInstanceAs (Decidable (_ ∨ _))

variable {size tFAW} {s next : ActRun} {actCycle : Nat}

/-! ## What the window tells -/

theorem minActCycle_le_iff (here : s.window.idx < size)
    (window : s.window.contents size = largest size s.added) (c : Nat) :
    s.window.minActCycle ≤ c ↔ (s.added.filter fun earlier => c < earlier).length < size := by
  have bound : 0 < (largest size s.added).length := by
    rw [largest_length]
    omega
  have first : (largest size s.added)[0] = s.window.minActCycle := by
    have cons := ActWindow.contents_eq_cons here
    rw [window] at cons
    have head : (largest size s.added)[0]? = some s.window.minActCycle := by
      rw [cons]
      rfl
    rw [List.getElem?_eq_getElem bound] at head
    exact Option.some.inj head
  rw [← first, largest_getElem_le_iff s.added bound c, Nat.add_zero]

theorem orderly_iff (pos : 0 < size) (window : s.window.contents size = largest size s.added) (c : Nat) :
    s.window.Orderly size c ↔ s.NearlyInOrder size c := by
  unfold ActWindow.Orderly NearlyInOrder
  rw [window]
  by_cases more : 1 < size
  · have bound : 1 < (largest size s.added).length := by
      rw [largest_length]
      exact more
    rw [List.getElem?_eq_getElem bound, ← largest_getElem_le_iff s.added bound c]
    constructor
    · intro orderly
      exact .inr (orderly _ rfl)
    · rintro (one | le) second isSecond
      · omega
      · rw [← Option.some.inj isSecond]
        exact le
  · have none : (largest size s.added)[1]? = none := by
      rw [List.getElem?_eq_none_iff, largest_length]
      omega
    rw [none]
    constructor
    · intro _
      exact .inl (by omega)
    · intro _ second isSecond
      cases isSecond

/-- The invariant of every run; the first activations come before the window can be out of order. -/
structure Ok (size : Nat) (s : ActRun) : Prop where
  idx : s.window.idx < size
  few : s.added.length < size → s.window.contents size = largest size s.added

theorem Ok.start (pos : 0 < size) : Ok size start where
  idx := pos
  few _ := by
    have all : (List.range size).map (fun _ => 0) = List.replicate size 0 := by simp
    exact all.trans (largest_nil size).symm

theorem Ok.fits (ok : Ok size s) (legal : s.legal size tFAW actCycle) :
    s.window.minActCycle ≤ actCycle := by
  by_cases few : s.added.length < size
  · rw [minActCycle_le_iff ok.idx (ok.few few)]
    have := List.length_filter_le (fun earlier => decide (actCycle < earlier)) s.added
    omega
  · have := legal (by omega)
    omega

/-! ## A step -/

theorem step_orderly (ok : Ok size s) (window : s.window.contents size = largest size s.added)
    (legal : s.legal size tFAW actCycle) (nearly : s.NearlyInOrder size actCycle)
    (step : s.step size actCycle = some next) : next.window.contents size = largest size next.added := by
  have pos : 0 < size := by
    have := ok.idx
    omega
  obtain ⟨window', run, isNext⟩ := Option.map_eq_some_iff.mp step
  have sorted : (s.window.contents size).Pairwise (· ≤ ·) := by
    rw [window]
    exact largest_sorted size s.added
  obtain ⟨other, run', -, contents⟩ := ActWindow.addActivation_orderly ok.idx sorted (ok.fits legal)
    ((orderly_iff pos window actCycle).mpr nearly)
  cases Option.some.inj (run.symm.trans run')
  rw [← isNext]
  dsimp only
  rw [contents, window, largest_cons]

theorem step_disorderly (ok : Ok size s) (window : s.window.contents size = largest size s.added)
    (legal : s.legal size tFAW actCycle) (disorder : ¬ s.NearlyInOrder size actCycle)
    (step : s.step size actCycle = some next) : next.window.contents size ≠ largest size next.added := by
  have pos : 0 < size := by
    have := ok.idx
    omega
  obtain ⟨window', run, isNext⟩ := Option.map_eq_some_iff.mp step
  have sorted : (s.window.contents size).Pairwise (· ≤ ·) := by
    rw [window]
    exact largest_sorted size s.added
  obtain ⟨other, run', unsorted⟩ := ActWindow.addActivation_disorderly ok.idx sorted (ok.fits legal)
    fun orderly => disorder ((orderly_iff pos window actCycle).mp orderly)
  cases Option.some.inj (run.symm.trans run')
  rw [← isNext]
  dsimp only
  intro same
  rw [same] at unsorted
  exact unsorted (largest_sorted size _)

theorem Ok.step (ok : Ok size s) (legal : s.legal size tFAW actCycle) :
    ∃ next, s.step size actCycle = some next ∧ Ok size next := by
  obtain ⟨window, run, idx⟩ := ActWindow.addActivation_passes ok.idx (ok.fits legal)
  have step : s.step size actCycle = some ⟨window, actCycle :: s.added⟩ := by
    rw [ActRun.step, run]
    rfl
  refine ⟨_, step, idx, fun few => ?_⟩
  rw [List.length_cons] at few
  have count := List.length_filter_le (fun earlier => decide (actCycle < earlier)) s.added
  exact step_orderly ok (ok.few (by omega)) legal (.inr (by omega)) step

/-- Of `size` activations before the new one, one is not later than the first of the window. -/
theorem Right.spaced_cons (right : Right size tFAW s) (ok : Ok size s) (legal : s.legal size tFAW actCycle) :
    Spaced size tFAW (actCycle :: s.added) := by
  intro acts sublist length
  rcases List.sublist_cons_iff.mp sublist with old | ⟨rest, rfl, old⟩
  · exact right.spaced acts old length
  · rw [List.length_cons] at length
    have enough := old.length_le
    have fits := legal (by omega)
    have few := (minActCycle_le_iff ok.idx right.window s.window.minActCycle).mp (Nat.le_refl _)
    have early : ∃ a ∈ rest, a ≤ s.window.minActCycle := by
      by_contra none
      push Not at none
      have all : rest.filter (fun earlier => decide (s.window.minActCycle < earlier)) = rest :=
        List.filter_eq_self.mpr fun a member => decide_eq_true (none a member)
      have count := (old.filter fun earlier => decide (s.window.minActCycle < earlier)).length_le
      rw [all] at count
      omega
    obtain ⟨a, member, le⟩ := early
    exact ⟨a, List.mem_cons_of_mem _ member, actCycle, List.mem_cons_self, by omega⟩

theorem Right.start (pos : 0 < size) : Right size tFAW start where
  window := (Ok.start pos).few pos
  spaced acts sublist length := by
    rw [List.sublist_nil.mp sublist] at length
    cases length

/-- The assertion never fails, and the window is right in every state of a run exactly if every
activation comes nearly in order. -/
theorem window_right_iff {size : Nat} (pos : 0 < size) (tFAW : Nat) {calls : List Nat}
    (legal : (machine size tFAW).LegalRun calls start) :
    (∃ final, (machine size tFAW).exec calls start = some final) ∧
      ((machine size tFAW).Throughout (Right size tFAW) calls start ↔
        (machine size tFAW).Along (NearlyInOrder size) calls start) := by
  have preserves : (machine size tFAW).Preserves (Ok size) := fun s c ok legal => ok.step legal
  obtain ⟨final, run, -⟩ := preserves.exec (Ok.start pos) legal
  refine ⟨⟨final, run⟩, legal.throughout_iff ?_ ?_ (Ok.start pos) (Right.start pos) run⟩
  · exact fun s c next ok isLegal step => preserves.keeps ok isLegal step
  · intro s c next ok right isLegal step
    have added : next.added = c :: s.added := by
      obtain ⟨window, -, isNext⟩ := Option.map_eq_some_iff.mp
        (show (s.window.addActivation size c).map _ = some next from step)
      rw [← isNext]
    constructor
    · intro rightNext
      by_contra disorder
      exact step_disorderly ok right.window isLegal disorder step rightNext.window
    · intro nearly
      refine ⟨step_orderly ok right.window isLegal nearly step, ?_⟩
      rw [added]
      exact right.spaced_cons ok isLegal

theorem window_right_iff_four : (∃ final, (machine 4 20).exec [10, 30, 20, 40, 30, 50] start = some final) ∧
    ((machine 4 20).Throughout (Right 4 20) [10, 30, 20, 40, 30, 50] start ↔
      (machine 4 20).Along (NearlyInOrder 4) [10, 30, 20, 40, 30, 50] start) :=
  window_right_iff (by decide) 20 (by decide)

/-- The fourth activation is earlier than the other three: the latest one comes first. -/
theorem window_out_of_order : (machine 4 20).LegalRun [40, 30, 20, 10] start ∧
    ((machine 4 20).exec [40, 30, 20, 10] start).map (fun s => s.window.contents 4) =
      some [40, 20, 30, 10] ∧
    largest 4 [10, 20, 30, 40] = [10, 20, 30, 40] :=
  ⟨by decide, by decide, by decide⟩

end ActRun

/-! ## The windows of the controller -/

structure Same (w : DDR.ActWindow) (w' : ActWindow) : Prop where
  idx : w'.idx = w.idx.val
  buf : ∀ i : Fin 4, w'.buf i.val = w.buf i

theorem dec_four : ∀ i : Fin 4, ActWindow.dec 4 i.val = (i - 1).val := by decide

theorem inc_four : ∀ i : Fin 4, ActWindow.inc 4 i.val = (i + 1).val := by decide

theorem update_four {buf : Fin 4 → Nat} {buf' : Nat → Nat} (same : ∀ i : Fin 4, buf' i.val = buf i)
    (at' : Fin 4) (value : Nat) :
    ∀ i : Fin 4, Function.update buf' at'.val value i.val = Function.update buf at' value i := by
  intro i
  rw [Function.update_apply, Function.update_apply, same i]
  simp only [Fin.ext_iff]

theorem reorder_four {actCycle : Nat} {idx : Fin 4} {steps : Nat} {buf : Fin 4 → Nat} {buf' : Nat → Nat}
    {cur : Fin 4} {result : (Nat → Nat) × Nat} (same : ∀ i : Fin 4, buf' i.val = buf i)
    (run : ActWindow.reorder 4 actCycle idx.val steps buf' cur.val = some result) :
    result.2 = (DDR.ActWindow.reorder actCycle idx steps buf cur).2.val ∧
      ∀ i : Fin 4, result.1 i.val = (DDR.ActWindow.reorder actCycle idx steps buf cur).1 i := by
  induction steps generalizing buf buf' cur with
  | zero => cases run
  | succ steps ih =>
      unfold ActWindow.reorder at run
      unfold DDR.ActWindow.reorder
      rw [dec_four, same] at run
      split at run
      case isTrue later =>
        rw [if_pos later]
        have moved := update_four same cur (buf (cur - 1))
        dsimp only at run ⊢
        by_cases back : cur - 1 = idx
        · rw [if_pos (congrArg Fin.val back)] at run
          rw [if_pos back]
          cases run
          exact ⟨rfl, moved⟩
        · rw [if_neg fun h => back (Fin.ext h)] at run
          rw [if_neg back]
          exact ih moved run
      case isFalse earlier =>
        rw [if_neg earlier]
        cases run
        exact ⟨rfl, same⟩

theorem Same.addActivation {w : DDR.ActWindow} {w' : ActWindow} (same : Same w w') (actCycle : Nat) :
    Option.Rel Same (w.addActivation actCycle) (w'.addActivation 4 actCycle) := by
  have oldest : w'.minActCycle = w.buf w.idx := by
    rw [ActWindow.minActCycle, same.idx, same.buf]
  by_cases fits : w.buf w.idx ≤ actCycle
  · have idx : w'.idx < 4 := same.idx ▸ w.idx.isLt
    obtain ⟨result, ends⟩ : ∃ result, ActWindow.reorder 4 actCycle w'.idx 4 w'.buf w'.idx = some result := by
      rw [ActWindow.reorder_start idx]
      exact ActWindow.reorder_ends idx (by decide) (by decide)
    have run := ActWindow.addActivation_eq (oldest ▸ fits) ends
    rw [same.idx] at ends
    obtain ⟨cur, buf⟩ := reorder_four same.buf ends
    rw [run, DDR.ActWindow.addActivation, if_pos fits]
    refine .some ⟨?_, ?_⟩
    · rw [same.idx]
      exact inc_four w.idx
    · dsimp only
      rw [cur]
      exact update_four buf _ actCycle
  · rw [DDR.ActWindow.addActivation, if_neg fits]
    have fits' : ¬ w'.buf w'.idx ≤ actCycle := fun le => fits (oldest ▸ le)
    rw [ActWindow.addActivation, if_neg fits']
    exact .none

end Zsim.DDR.Sized
