import Zsim.Coherence.Hierarchy
import Zsim.System.Tree

/-!
# What the tree is good for

No failure of `InitSystem` is that of its check for loops: a loop is beside the tree and has not been
built when it is connected.  The cores use every terminal cache once.
-/

set_option autoImplicit false

namespace Zsim.System

open Relation

/-- If `InitSystem` returns, the banks of the configuration are a tree below the memory. -/
theorem initSystem_isTree {cfg : SystemConfig} {sys : BuiltSystem} (run : initSystem cfg = .ok sys) :
    sys.IsTree ∧ sys.mems ≠ [] ∧ sys.maps.names = cfg.caches.map CacheGroupConfig.name ∧
      ∀ group ∈ sys.maps.names,
        buildCacheGroup cfg.traceDriven (sys.maps.isTerminal group) (cfg.group group) =
          .ok (builtGroup sys.cMap group) := by
  obtain ⟨read, -, ⟨all, -, built, perm⟩, memory, tree, -⟩ := initSystem_ok run
  refine ⟨tree, (buildMemory_ok memory).1, (readGroups_ok read).2, fun group member => ?_⟩
  have isBuilt := (built.iff group).mpr (perm.mem_iff.mpr member)
  obtain ⟨cg, found⟩ := Option.ne_none_iff_exists'.mp isBuilt
  rw [builtGroup, found]
  exact built.build group cg found

/-- Two cores with private caches below an LLC of four banks. -/
def twoCores : SystemConfig where
  caches := [
    { name := ['i'], caches := 2 },
    { name := ['d'], caches := 2 },
    { name := ['l', '2'], caches := 2, children := ['i', '|', 'd'] },
    { name := ['l', '3'], banks := 4, children := ['l', '2'] }]
  cores := [{ name := ['c'], cores := 2, icache := some ['i'], dcache := some ['d'] }]

theorem ok_of_isSome {α β : Type} {x : Except Failure α} {f : α → β} {b : β}
    (returns : x.toOption.map f = some b) : ∃ a, x = .ok a ∧ f a = b := by
  cases x with
  | error failure => cases returns
  | ok a => exact ⟨a, rfl, Option.some.inj returns⟩

theorem initSystem_isTree_twoCores :
    ∃ sys, initSystem twoCores = .ok sys ∧ sys.IsTree ∧ sys.banks.length = 10 := by
  have returns : (initSystem twoCores).toOption.map (fun sys => sys.banks.length) = some 10 := by decide +kernel
  obtain ⟨sys, run, count⟩ := ok_of_isSome returns
  exact ⟨sys, run, (initSystem_isTree run).1, count⟩

/-! ## Loops -/

/-- The failures of the loop over the groups. -/
def Failure.ofLoop : Failure → Bool
  | .loop _ => true
  | .outOfFuel => true
  | _ => false

def LoopFree {α : Type} (x : Except Failure α) : Prop := ∀ failure, x = .error failure → failure.ofLoop = false

section
variable {α β σ ι : Type} {x : Except Failure α}

theorem LoopFree.bind {f : α → Except Failure β} (first : LoopFree x) (rest : ∀ a, x = .ok a → LoopFree (f a)) :
    LoopFree (x >>= f) := by
  intro failure failed
  cases run : x with
  | error e =>
      rw [run] at failed
      cases failed
      exact first failure run
  | ok a =>
      rw [run] at failed
      exact rest a run failure failed

theorem loopFree_pure (a : α) : LoopFree (pure a) := nofun

theorem loopFree_require {p : Prop} [Decidable p] {failure : Failure} (other : failure.ofLoop = false) :
    LoopFree (require p failure) := by
  intro e failed
  unfold require at failed
  split at failed
  · cases failed
  · cases failed
    exact other

theorem loopFree_ofOption {failure : Failure} (other : failure.ofLoop = false) (o : Option α) :
    LoopFree (ofOption failure o) := by
  cases o with
  | none =>
      intro e failed
      cases failed
      exact other
  | some a => exact nofun

theorem LoopFree.foldlM {body : σ → ι → Except Failure σ} (each : ∀ s i, LoopFree (body s i))
    (items : List ι) (s : σ) :
    LoopFree (items.foldlM body s) := by
  induction items generalizing s with
  | nil => exact loopFree_pure s
  | cons i rest ih =>
      rw [List.foldlM_cons]
      exact (each s i).bind fun next _ => ih next

theorem LoopFree.mapM {f : ι → Except Failure α} (each : ∀ i, LoopFree (f i)) (items : List ι) :
    LoopFree (items.mapM f) := by
  induction items with
  | nil => exact loopFree_pure []
  | cons i rest ih =>
      rw [List.mapM_cons]
      exact (each i).bind fun _ _ => ih.bind fun _ _ => loopFree_pure _

theorem LoopFree.forM {f : ι → Except Failure PUnit} (each : ∀ i, LoopFree (f i)) (items : List ι) :
    LoopFree (items.forM f) := by
  induction items with
  | nil => exact loopFree_pure _
  | cons i rest ih =>
      show LoopFree (f i >>= fun _ => rest.forM f)
      exact (each i).bind fun _ _ => ih

end

theorem parseList_loopFree (listStr delimiters : List Char) : LoopFree (parseList listStr delimiters) :=
  .mapM (fun _ => (loopFree_require rfl).bind fun _ _ => loopFree_pure _) _

theorem parseChildren_loopFree (children : List Char) : LoopFree (parseChildren children) :=
  (parseList_loopFree _ _).bind fun _ _ => .mapM (fun _ => parseList_loopFree _ _) _

theorem readGroups_loopFree (cfg : SystemConfig) : LoopFree (readGroups cfg) := by
  refine .foldlM (fun maps g => ?_) _ _
  refine (loopFree_require rfl).bind fun _ _ => (loopFree_require rfl).bind fun _ _ => ?_
  refine (parseChildren_loopFree _).bind fun _ _ => LoopFree.bind ?_ fun _ _ => loopFree_pure _
  exact .foldlM (fun _ _ => (loopFree_require rfl).bind fun _ _ => loopFree_pure _) _ _

theorem checkChildren_loopFree (maps : Maps) : LoopFree (checkChildren maps) := by
  intro failure failed
  unfold checkChildren at failed
  split at failed
  · cases failed
    rfl
  · cases failed

theorem lastLevel_loopFree (maps : Maps) : LoopFree (lastLevel maps) := by
  intro failure failed
  unfold lastLevel at failed
  split at failed
  · cases failed
  · cases failed
    rfl

theorem buildCacheGroup_loopFree (traceDriven isTerminal : Bool) (g : CacheGroupConfig) :
    LoopFree (buildCacheGroup traceDriven isTerminal g) := by
  unfold buildCacheGroup
  split
  · exact loopFree_pure _
  · exact (loopFree_require rfl).bind fun _ _ => (loopFree_require rfl).bind fun _ _ =>
      (loopFree_require rfl).bind fun _ _ => loopFree_pure _

theorem getGroup_loopFree (cMap : GroupMap) (group : Name) : LoopFree (getGroup cMap group) :=
  loopFree_ofOption rfl _

theorem interleave_loopFree (cMap : GroupMap) (children : List Name) : LoopFree (interleave cMap children) := by
  cases children with
  | nil => exact nofun
  | cons first rest =>
      refine (getGroup_loopFree _ _).bind fun _ _ => LoopFree.bind ?_ fun _ _ => loopFree_pure _
      exact .mapM (fun _ => (getGroup_loopFree _ _).bind fun _ _ =>
        (loopFree_require rfl).bind fun _ _ => loopFree_pure _) _

theorem setAllParents_loopFree (w : Wiring) (banks : List BaseCache) (parents : List MemObject) :
    LoopFree (w.setAllParents banks parents) :=
  .foldlM (fun _ _ => (loopFree_require rfl).bind fun _ _ => loopFree_pure _) _ _

theorem setAllChildren_loopFree (w : Wiring) (banks children : List BaseCache) :
    LoopFree (w.setAllChildren banks children) :=
  .foldlM (fun _ _ => (loopFree_require rfl).bind fun _ _ => (loopFree_require rfl).bind fun _ _ =>
    (loopFree_require rfl).bind fun _ _ => loopFree_pure _) _ _

theorem connectParents_loopFree (childrenPerParent : Nat) (parentCaches childCaches : CacheGroup) (w : Wiring) :
    LoopFree (connectParents childrenPerParent parentCaches childCaches w) := by
  induction parentCaches generalizing childCaches w with
  | nil => exact loopFree_pure _
  | cons banks rest ih =>
      exact (setAllParents_loopFree _ _ _).bind fun _ _ => (setAllChildren_loopFree _ _ _).bind fun _ _ => ih _ _

theorem connect_loopFree (maps : Maps) (cMap : GroupMap) (mems : List MemObject) (llc : Name) :
    LoopFree (connect maps cMap mems llc) := by
  refine (getGroup_loopFree _ _).bind fun _ _ => (loopFree_require rfl).bind fun _ _ => ?_
  refine (setAllParents_loopFree _ _ _).bind fun _ _ => .foldlM (fun w group => ?_) _ _
  unfold connectGroup
  split
  · exact loopFree_pure _
  · refine (getGroup_loopFree _ _).bind fun _ _ => (loopFree_require rfl).bind fun _ _ => ?_
    refine (LoopFree.mapM (interleave_loopFree cMap) _).bind fun _ _ => ?_
    exact (loopFree_require rfl).bind fun _ _ => (loopFree_require rfl).bind fun _ _ =>
      connectParents_loopFree _ _ _ _

theorem takeCache_loopFree (cMap : GroupMap) {failure : Failure} (other : failure.ofLoop = false)
    (s : Assigned × List BaseCache) (group : Name) : LoopFree (takeCache cMap failure s group) :=
  (loopFree_ofOption other _).bind fun _ _ => (getGroup_loopFree _ _).bind fun _ _ =>
    (loopFree_ofOption rfl _).bind fun _ _ => (loopFree_ofOption rfl _).bind fun _ _ =>
      (loopFree_require rfl).bind fun _ _ => loopFree_pure _

theorem buildCores_loopFree (cfg : SystemConfig) (maps : Maps) (cMap : GroupMap) :
    LoopFree (buildCores cfg maps cMap) := by
  refine LoopFree.bind (.foldlM (fun c g => ?_) _ _) fun c _ => ?_
  · refine (loopFree_require rfl).bind fun _ _ => (loopFree_require rfl).bind fun _ _ => ?_
    split
    · exact loopFree_pure _
    · refine (loopFree_ofOption rfl _).bind fun _ _ => (loopFree_ofOption rfl _).bind fun _ _ => ?_
      refine (loopFree_require rfl).bind fun _ _ => (loopFree_require rfl).bind fun _ _ => ?_
      exact .foldlM (fun _ _ => (takeCache_loopFree cMap rfl _ _).bind fun _ _ =>
        (takeCache_loopFree cMap rfl _ _).bind fun _ _ => loopFree_pure _) _ _
  · refine LoopFree.bind (.forM (fun group => ?_) _) fun _ _ => ?_
    · unfold checkAssigned
      split
      · exact (getGroup_loopFree _ _).bind fun _ _ => loopFree_require rfl
      · exact loopFree_pure _
    · exact (loopFree_require rfl).bind fun _ _ => loopFree_pure _

theorem proxies_loopFree (maps : Maps) (cMap : GroupMap) (group : Name) :
    LoopFree (proxies maps cMap group) := by
  unfold proxies
  split
  · refine (getGroup_loopFree _ _).bind fun _ _ => .mapM (fun _ => ?_) _
    exact (loopFree_require rfl).bind fun _ _ => (loopFree_ofOption rfl _).bind fun _ _ =>
      (loopFree_require rfl).bind fun _ _ => loopFree_pure _
  · exact loopFree_pure _

theorem initSystem_loopFree (cfg : SystemConfig) : LoopFree (initSystem cfg) := by
  refine (readGroups_loopFree cfg).bind fun maps read => (checkChildren_loopFree maps).bind fun _ check => ?_
  refine (lastLevel_loopFree maps).bind fun llc last => LoopFree.bind ?_ fun cMap _ => ?_
  · have none : Built cfg maps (fun _ => none) [] := ⟨by simp, nofun⟩
    obtain ⟨final, _, build, -⟩ | ⟨group, failure, failed, build⟩ :=
      buildGroups_spec (checked read check last) .start List.nodup_nil (List.nil_subset _) none
        (Nat.lt_succ_self _)
    · intro failure failed
      cases build.symm.trans failed
    · intro other failed'
      cases failed.symm.trans failed'
      exact buildCacheGroup_loopFree _ _ _ failure build
  · refine LoopFree.bind ?_ fun mems _ => (connect_loopFree maps cMap mems llc).bind fun _ _ => ?_
    · exact (loopFree_require rfl).bind fun _ _ => loopFree_pure _
    · refine LoopFree.bind (.forM (fun group => ?_) _) fun _ _ => ?_
      · unfold checkTerminal
        split
        · exact (getGroup_loopFree _ _).bind fun _ _ => (loopFree_ofOption rfl _).bind fun _ _ =>
          loopFree_require rfl
        · exact loopFree_pure _
      · split
        · exact (LoopFree.mapM (proxies_loopFree maps cMap) _).bind fun _ _ => loopFree_pure _
        · exact (buildCores_loopFree _ _ _).bind fun _ _ => loopFree_pure _

def Maps.IsKid (maps : Maps) (parent child : Name) : Prop := child ∈ maps.kids parent

theorem acyclic_of_searched {maps : Maps} {llc : Name} {all : List Name}
    (searched : Searched maps.kids llc all [])
    (perm : all.Perm maps.names) : Acyclic maps.IsKid := by
  obtain ⟨depth, -, deeper⟩ := searched.depth
  refine .of_rank depth fun parent child isKid => ?_
  have member : parent ∈ maps.names := by
    by_contra other
    rw [Maps.IsKid, Maps.kids_of_not_mem other] at isKid
    cases isKid
  rw [deeper parent (perm.mem_iff.mpr member) child isKid]
  exact Nat.lt_succ_self _

/-- The check for loops finds none, in any configuration; one that has a loop fails otherwise. -/
theorem loop_check_dead (cfg : SystemConfig) : (∀ group, initSystem cfg ≠ .error (.loop group)) ∧
    ∀ maps, readGroups cfg = .ok maps → ∀ group, TransGen maps.IsKid group group →
      ∃ failure, initSystem cfg = .error failure ∧ failure.ofLoop = false := by
  constructor
  · intro group failed
    cases initSystem_loopFree cfg _ failed
  · intro maps read group loop
    cases run : initSystem cfg with
    | error failure => exact ⟨failure, rfl, initSystem_loopFree cfg failure run⟩
    | ok sys =>
        obtain ⟨read', -, ⟨all, searched, -, perm⟩, -⟩ := initSystem_ok run
        cases read.symm.trans read'
        exact absurd loop (acyclic_of_searched searched perm group)

/-- Two groups that are each other's children, beside the LLC. -/
def loopBeside : SystemConfig where
  caches := [{ name := ['l'] }, { name := ['a'], children := ['b'] }, { name := ['b'], children := ['a'] }]

theorem loop_check_dead_loopBeside :
    (∀ group, initSystem loopBeside ≠ .error (.loop group)) ∧
      ∃ failure, initSystem loopBeside = .error failure ∧ failure.ofLoop = false := by
  have dead := loop_check_dead loopBeside
  have reads : (readGroups loopBeside).toOption.map (fun maps => (maps.kids ['a'], maps.kids ['b'])) =
      some ([['b']], [['a']]) := by decide +kernel
  obtain ⟨maps, read, kids⟩ := ok_of_isSome reads
  obtain ⟨ofA, ofB⟩ := Prod.mk.inj kids
  have first : maps.IsKid ['a'] ['b'] := by rw [Maps.IsKid, ofA]; exact List.mem_cons_self
  have second : maps.IsKid ['b'] ['a'] := by rw [Maps.IsKid, ofB]; exact List.mem_cons_self
  exact ⟨dead.1, dead.2 maps read ['a'] (.tail (.single first) second)⟩

/-! ## Cores -/

theorem flatMap_perm_append {κ β : Type} {keys : List κ} (nodup : keys.Nodup) {k : κ} (member : k ∈ keys)
    {f f' : κ → List β} {items : List β} (same : ∀ other, other ≠ k → f' other = f other)
    (more : f' k = f k ++ items) : (keys.flatMap f').Perm (keys.flatMap f ++ items) := by
  obtain ⟨before, after, rfl⟩ := List.append_of_mem member
  rw [List.nodup_append, List.nodup_cons] at nodup
  have isBefore : before.flatMap f' = before.flatMap f :=
    List.flatMap_congr fun other isOther => same other (nodup.2.2 other isOther k List.mem_cons_self)
  have isAfter : after.flatMap f' = after.flatMap f :=
    List.flatMap_congr fun other isOther => same other fun isKey => nodup.2.1.1 (isKey ▸ isOther)
  rw [List.flatMap_append, List.flatMap_append, List.flatMap_cons, List.flatMap_cons, isBefore, isAfter, more]
  simp only [List.append_assoc]
  exact (List.perm_append_comm.append_left _).append_left _

/-- The terminal caches that have been assigned are those that are used. -/
structure Used (maps : Maps) (cMap : GroupMap) (assigned : Assigned) (used : List BaseCache) : Prop where
  terminal : ∀ group, assigned group ≠ none → group ∈ maps.names ∧ maps.isTerminal group = true
  perm : used.Perm ((maps.names.filter maps.isTerminal).flatMap fun group =>
    ((builtGroup cMap group).take ((assigned group).getD 0)).flatten)

section
variable {maps : Maps} {cMap : GroupMap}

def Single (maps : Maps) (cMap : GroupMap) : Prop :=
  ∀ group ∈ maps.names, maps.isTerminal group = true → ∀ banks ∈ builtGroup cMap group, banks.length = 1

theorem Used.start (maps : Maps) (cMap : GroupMap) :
    Used maps cMap (fun group => if group ∈ maps.names ∧ maps.isTerminal group then some 0 else none) [] where
  terminal group isAssigned := by
    by_contra other
    exact isAssigned (if_neg other)
  perm := by
    have none : ((maps.names.filter maps.isTerminal).flatMap fun group => ((builtGroup cMap group).take
        ((if group ∈ maps.names ∧ maps.isTerminal group then some 0 else none : Option Nat).getD
          0)).flatten) = [] := by
      refine List.flatMap_eq_nil_iff.mpr fun group _ => ?_
      split <;> rfl
    rw [none]

theorem takeCache_ok (nodup : maps.names.Nodup) (single : Single maps cMap) {failure : Failure}
    {s next : Assigned × List BaseCache} {group : Name} {used : List BaseCache}
    (inv : Used maps cMap s.1 (used ++ s.2)) (run : takeCache cMap failure s group = .ok next) :
    Used maps cMap next.1 (used ++ next.2) := by
  obtain ⟨n, isNext, run⟩ := bind_eq_ok.mp run
  obtain ⟨cg, found, run⟩ := bind_eq_ok.mp run
  obtain ⟨-, rfl⟩ := getGroup_ok found
  obtain ⟨banks, isCache, run⟩ := bind_eq_ok.mp run
  obtain ⟨bank, isBank, run⟩ := bind_eq_ok.mp run
  obtain ⟨_, -, done⟩ := bind_eq_ok.mp run
  rw [ofOption_eq_ok] at isNext isCache isBank
  cases done
  obtain ⟨member, terminal⟩ := inv.terminal group (by rw [isNext]; exact Option.some_ne_none n)
  have one : banks = [bank] := by
    have length := single group member terminal banks (List.mem_of_getElem? isCache)
    obtain ⟨only, rfl⟩ := List.length_eq_one_iff.mp length
    cases isBank
    rfl
  constructor
  · intro other isAssigned
    by_cases here : other = group
    · exact here ▸ ⟨member, terminal⟩
    · dsimp only at isAssigned
      rw [Function.update_of_ne here] at isAssigned
      exact inv.terminal other isAssigned
  · rw [← List.append_assoc]
    refine (inv.perm.append_right [bank]).trans (flatMap_perm_append (nodup.filter _)
      (List.mem_filter.mpr ⟨member, terminal⟩) (fun other differ => ?_) ?_).symm
    · dsimp only
      rw [Function.update_of_ne differ]
    · dsimp only
      rw [Function.update_self, isNext, Option.getD_some, Option.getD_some, List.take_add_one, isCache,
        List.flatten_append, one]
      rfl

theorem buildCores_ok {cfg : SystemConfig} (nodup : maps.names.Nodup) (single : Single maps cMap)
    {cores : List (List BaseCache)} (run : buildCores cfg maps cMap = .ok cores) :
    cores.flatten.Perm ((maps.names.filter maps.isTerminal).flatMap (banksOf cMap)) ∧
    cores.length = cfg.numCores := by
  obtain ⟨c, built, run⟩ := bind_eq_ok.mp run
  obtain ⟨_, connected, run⟩ := bind_eq_ok.mp run
  obtain ⟨_, count, done⟩ := bind_eq_ok.mp run
  rw [require_eq_ok] at count
  cases done
  have inv : Used maps cMap c.assigned c.cores.flatten := by
    refine foldlM_ok_prefix (fun _ (c : Cores) => Used maps cMap c.assigned c.cores.flatten) ?_
      (Used.start maps cMap) built
    intro _ g c next _ inv step
    obtain ⟨_, -, step⟩ := bind_eq_ok.mp step
    obtain ⟨_, -, step⟩ := bind_eq_ok.mp step
    split at step
    · cases step
      have noCaches : (List.replicate g.cores ([] : List BaseCache)).flatten = [] := by simp
      rw [List.flatten_append, noCaches, List.append_nil]
      exact inv
    · obtain ⟨icache, -, step⟩ := bind_eq_ok.mp step
      obtain ⟨dcache, -, step⟩ := bind_eq_ok.mp step
      obtain ⟨_, -, step⟩ := bind_eq_ok.mp step
      obtain ⟨_, -, step⟩ := bind_eq_ok.mp step
      refine foldlM_ok_prefix (fun _ (c : Cores) => Used maps cMap c.assigned c.cores.flatten) ?_ inv step
      intro _ _ c next _ inv step
      obtain ⟨s, first, step⟩ := bind_eq_ok.mp step
      obtain ⟨s', second, done⟩ := bind_eq_ok.mp step
      cases done
      have start : Used maps cMap c.assigned (c.cores.flatten ++ []) := by
        rw [List.append_nil]
        exact inv
      have both := takeCache_ok nodup single (takeCache_ok nodup single (s := (c.assigned, [])) start first)
        second
      rw [List.flatten_append, List.flatten_singleton]
      exact both
  refine ⟨inv.perm.trans (.of_eq (List.flatMap_congr fun group member => ?_)), count.symm⟩
  obtain ⟨isGroup, terminal⟩ := List.mem_filter.mp member
  have assigned := forM_ok connected group isGroup
  rw [checkAssigned, if_pos terminal] at assigned
  obtain ⟨cg, found, assigned⟩ := bind_eq_ok.mp assigned
  obtain ⟨-, rfl⟩ := getGroup_ok found
  rw [require_eq_ok] at assigned
  rw [assigned, Option.getD_some, List.take_length]
  rfl

theorem flatten_single {cg : CacheGroup} {list : List BaseCache}
    (each : List.Forall₂ (fun banks bank => banks = [bank]) cg list) : cg.flatten = list := by
  induction each with
  | nil => rfl
  | cons isBank _ ih =>
      rw [List.flatten_cons, isBank, ih]
      rfl

theorem proxies_ok {group : Name} {list : List BaseCache} (run : proxies maps cMap group = .ok list) :
    list = if maps.isTerminal group then banksOf cMap group else [] := by
  unfold proxies at run
  split at run
  case isFalse inner =>
    cases run
    rw [if_neg inner]
  case isTrue terminal =>
    obtain ⟨cg, found, run⟩ := bind_eq_ok.mp run
    obtain ⟨-, rfl⟩ := getGroup_ok found
    have each : List.Forall₂ (fun banks bank => banks = [bank]) (builtGroup cMap group) list := by
      refine (mapM_ok run).imp fun banks bank step => ?_
      obtain ⟨_, one, step⟩ := bind_eq_ok.mp step
      obtain ⟨first, isFirst, step⟩ := bind_eq_ok.mp step
      obtain ⟨_, -, done⟩ := bind_eq_ok.mp step
      rw [require_eq_ok] at one
      rw [ofOption_eq_ok] at isFirst
      cases done
      obtain ⟨only, rfl⟩ := List.length_eq_one_iff.mp one
      cases isFirst
      rfl
    rw [if_pos terminal]
    exact (flatten_single each).symm

theorem allProxies_ok {names : List Name} {lists : List (List BaseCache)}
    (run : names.mapM (proxies maps cMap) = .ok lists) :
    lists.flatten = (names.filter maps.isTerminal).flatMap (banksOf cMap) := by
  have each := (mapM_ok run).imp fun _ _ step => proxies_ok step
  clear run
  induction each with
  | nil => rfl
  | @cons group list rest lists first _ ih =>
      rw [List.flatten_cons, ih, first, List.filter_cons]
      cases terminal : maps.isTerminal group with
      | true => rfl
      | false => rfl

end

/-- Every terminal cache serves one core, once, or the driver of a trace. -/
theorem cores_use_all {cfg : SystemConfig} {sys : BuiltSystem} (run : initSystem cfg = .ok sys) :
    sys.cores.flatten.Perm (sys.banks.filter fun bank => sys.maps.isTerminal bank.group) ∧
      (cfg.traceDriven = false → sys.cores.length = cfg.numCores) := by
  obtain ⟨-, checked, ⟨all, -, built, perm⟩, -, -, -, terminals, cores⟩ := initSystem_ok run
  have isTerminal := built.filter sys.maps.isTerminal sys.maps.names
  rw [BuiltSystem.banks, ← isTerminal]
  have single : Single sys.maps sys.cMap := by
    intro group member terminal banks isCache
    have one := forM_ok terminals group member
    rw [checkTerminal, if_pos terminal] at one
    obtain ⟨cg, found, one⟩ := bind_eq_ok.mp one
    have isSome : sys.cMap group = some cg := ofOption_eq_ok.mp found
    obtain ⟨-, isGroup⟩ := getGroup_ok found
    obtain ⟨first, isFirst, one⟩ := bind_eq_ok.mp one
    rw [ofOption_eq_ok] at isFirst
    rw [require_eq_ok] at one
    rw [isGroup] at isCache
    rw [(built.ok isSome).even banks isCache first (List.mem_of_head? isFirst), one]
  split at cores
  case isTrue traceDriven =>
    obtain ⟨lists, proxied, isCores⟩ := cores
    rw [isCores, List.flatten_singleton, allProxies_ok proxied]
    exact ⟨.refl _, fun other => by rw [traceDriven] at other; cases other⟩
  case isFalse =>
    obtain ⟨perm, count⟩ := buildCores_ok checked.nodup single cores
    exact ⟨perm, fun _ => count⟩

theorem cores_use_all_twoCores : ∃ sys, initSystem twoCores = .ok sys ∧
    sys.cores.flatten.Perm (sys.banks.filter fun bank => sys.maps.isTerminal bank.group) ∧
    sys.cores.length = 2 := by
  have returns : (initSystem twoCores).toOption.map (fun sys => sys.cores.length) = some 2 := by decide +kernel
  obtain ⟨sys, run, -⟩ := ok_of_isSome returns
  have used := cores_use_all run
  exact ⟨sys, run, used.1, used.2 rfl⟩

/-! ## The tree of nodes -/

namespace BuiltSystem

def childrenOf (sys : BuiltSystem) (bank : BaseCache) : List BaseCache :=
  (sys.wiring.children.lookup bank).getD []

/-- The bank at a node: the LLC is the root, child `c` of `n` is `c :: n`. -/
def bankAt (sys : BuiltSystem) : Coherence.Node → Option BaseCache
  | [] => (banksOf sys.cMap sys.llc).head?
  | c :: n => (bankAt sys n).bind fun parent => (sys.childrenOf parent)[c]?

def kids (sys : BuiltSystem) (n : Coherence.Node) : Nat :=
  (sys.bankAt n).elim 0 fun bank => (sys.childrenOf bank).length

variable {sys : BuiltSystem}

theorem mem_children {parent : BaseCache} (some : sys.childrenOf parent ≠ []) :
    (parent, sys.childrenOf parent) ∈ sys.wiring.children := by
  unfold childrenOf at some ⊢
  cases found : sys.wiring.children.lookup parent with
  | none =>
      rw [found] at some
      exact absurd rfl some
  | some children =>
      obtain ⟨before, after, isSplit, -⟩ := List.lookup_eq_some_iff.mp found
      rw [isSplit]
      exact List.mem_append_right _ List.mem_cons_self

theorem IsTree.childrenOf_eq (tree : sys.IsTree) {parent : BaseCache} {children : List BaseCache}
    (call : (parent, children) ∈ sys.wiring.children) : sys.childrenOf parent = children := by
  have keys : (sys.wiring.children.map Prod.fst).Nodup :=
    tree.tells.nodup_iff.mpr (tree.distinct.filter _)
  have found : sys.wiring.children.lookup parent = some children := by
    obtain ⟨before, after, isSplit⟩ := List.append_of_mem call
    rw [isSplit, List.map_append, List.map_cons] at keys
    refine List.lookup_eq_some_iff.mpr ⟨before, after, isSplit, fun other isBefore => ?_⟩
    have differ := (List.nodup_append.mp keys).2.2 other.1 (List.mem_map_of_mem isBefore) parent
      List.mem_cons_self
    simpa using Ne.symm differ
  rw [childrenOf, found]
  rfl

theorem IsTree.told_at (tree : sys.IsTree) {n : Coherence.Node} {c : Nat} {bank : BaseCache}
    (isAt : sys.bankAt (c :: n) = some bank) : ∃ parent parents, sys.bankAt n = some parent ∧
      (bank, c, parents) ∈ sys.wiring.parents ∧ .cache parent ∈ parents := by
  obtain ⟨parent, isParent, isChild⟩ := Option.bind_eq_some_iff.mp isAt
  have some : sys.childrenOf parent ≠ [] := List.ne_nil_of_mem (List.mem_of_getElem? isChild)
  obtain ⟨parents, call, member⟩ := tree.below parent _ (mem_children some) c bank isChild
  exact ⟨parent, parents, isParent, call, member⟩

theorem IsTree.mem_banks (tree : sys.IsTree) {bank : BaseCache} {childId : Nat} {parents : List MemObject}
    (call : (bank, childId, parents) ∈ sys.wiring.parents) : bank ∈ sys.banks :=
  tree.told.mem_iff.mp (List.mem_map_of_mem call)

end BuiltSystem

section
variable {cfg : SystemConfig} {sys : BuiltSystem}

theorem path_groups (run : initSystem cfg = .ok sys) {depth : Name → Nat} (atTop : depth sys.llc = 0)
    (deeper : ∀ bank childId parents parent, (bank, childId, parents) ∈ sys.wiring.parents →
      .cache parent ∈ parents → depth bank.group = depth parent.group + 1)
    {n : Coherence.Node} {bank : BaseCache} (isAt : sys.bankAt n = some bank) :
    bank ∈ sys.banks ∧ depth bank.group = n.length ∧ ∃ groups : List Name, groups.Nodup ∧
      groups ⊆ sys.maps.names ∧ groups.length = n.length + 1 ∧ ∀ group ∈ groups, depth group ≤ n.length := by
  obtain ⟨-, checked, ⟨all, -, built, -⟩, -, tree, -⟩ := initSystem_ok run
  have isGroup {bank : BaseCache} (member : bank ∈ sys.banks) : bank.group ∈ sys.maps.names := by
    obtain ⟨group, isName, isBank⟩ := List.mem_flatMap.mp member
    exact built.own isBank ▸ isName
  induction n generalizing bank with
  | nil =>
      have member := List.mem_of_head? isAt
      have own := built.own member
      refine ⟨List.mem_flatMap.mpr ⟨sys.llc, checked.member, member⟩, own ▸ atTop, [sys.llc],
        List.nodup_singleton _,
        by simpa using checked.member, rfl, fun group isLast => ?_⟩
      rw [List.mem_singleton.mp isLast, atTop]
      exact Nat.zero_le _
  | cons c n ih =>
      obtain ⟨parent, parents, isParent, call, member⟩ := tree.told_at isAt
      obtain ⟨-, depthParent, groups, nodup, inside, length, above⟩ := ih isParent
      have isDeeper := deeper bank c parents parent call member
      have isBank := tree.mem_banks call
      have fresh : bank.group ∉ groups := fun old => by
        have le := above _ old
        omega
      refine ⟨isBank, by rw [isDeeper, depthParent]; rfl, bank.group :: groups,
        List.nodup_cons.mpr ⟨fresh, nodup⟩,
        List.cons_subset.mpr ⟨isGroup isBank, inside⟩, by rw [List.length_cons, length]; rfl,
        fun group isOne => ?_⟩
      rcases List.mem_cons.mp isOne with rfl | isOld
      · exact Nat.le_of_eq (by rw [isDeeper, depthParent]; rfl)
      · exact Nat.le_succ_of_le (above group isOld)

/-- The tree of caches that is built, as the coherence protocol sees it. -/
def hierarchy (run : initSystem cfg = .ok sys) (array : Coherence.Node → CacheArray) (noExclShared : Bool) :
    Coherence.Hierarchy where
  kids := sys.kids
  height := sys.maps.names.length
  bounded n deep := by
    obtain ⟨depth, atTop, deeper⟩ := (BuiltSystem.isTree run).depth
    unfold BuiltSystem.kids
    cases isAt : sys.bankAt n with
    | none => rfl
    | some bank =>
        obtain ⟨-, -, groups, nodup, inside, length, -⟩ := path_groups run atTop deeper isAt
        have few := (List.subperm_of_subset nodup inside).length_le
        omega
  array := array
  noExclShared := noExclShared

def BuiltSystem.OneBank (sys : BuiltSystem) : Prop :=
  ∀ group ∈ sys.maps.names, ∀ banks ∈ builtGroup sys.cMap group, banks.length = 1

instance (sys : BuiltSystem) : Decidable sys.OneBank :=
  inferInstanceAs (Decidable (∀ group ∈ sys.maps.names, ∀ banks ∈ builtGroup sys.cMap group, banks.length = 1))

theorem own_group (run : initSystem cfg = .ok sys) {bank : BaseCache} (member : bank ∈ sys.banks) :
    bank ∈ banksOf sys.cMap bank.group := by
  obtain ⟨-, -, ⟨all, -, built, -⟩, -⟩ := initSystem_ok run
  obtain ⟨group, -, isBank⟩ := List.mem_flatMap.mp member
  rwa [built.own isBank]

theorem kids_eq_zero_iff (run : initSystem cfg = .ok sys) {n : Coherence.Node} {bank : BaseCache}
    (isAt : sys.bankAt n = some bank)
    (member : bank ∈ sys.banks) : sys.kids n = 0 ↔ sys.maps.isTerminal bank.group = true := by
  have tree := BuiltSystem.isTree run
  rw [BuiltSystem.kids, isAt, Option.elim_some, List.length_eq_zero_iff]
  constructor
  · intro none
    by_contra inner
    have isKey : bank ∈ sys.wiring.children.map Prod.fst :=
      tree.tells.mem_iff.mpr (List.mem_filter.mpr ⟨member, by simpa using inner⟩)
    obtain ⟨⟨_, children⟩, call, rfl⟩ := List.mem_map.mp isKey
    rw [tree.childrenOf_eq call] at none
    exact tree.nonempty _ children call none
  · intro terminal
    by_contra some
    have isKey := tree.tells.mem_iff.mp (List.mem_map_of_mem (BuiltSystem.mem_children some))
    have inner := (List.mem_filter.mp isKey).2
    rw [terminal] at inner
    cases inner

section OneBank
variable (run : initSystem cfg = .ok sys) (oneBank : sys.OneBank)
include run oneBank

theorem llc_singleton : ∃ bank, banksOf sys.cMap sys.llc = [bank] := by
  obtain ⟨-, checked, -, -, -, one, -⟩ := initSystem_ok run
  obtain ⟨banks, isOne⟩ := List.length_eq_one_iff.mp one
  have single := oneBank sys.llc checked.member banks (by rw [isOne]; exact List.mem_cons_self)
  obtain ⟨bank, rfl⟩ := List.length_eq_one_iff.mp single
  exact ⟨bank, by rw [banksOf, isOne]; rfl⟩

theorem one_parent {bank : BaseCache} {childId : Nat} {parents : List MemObject}
    (call : (bank, childId, parents) ∈ sys.wiring.parents) (inner : bank.group ≠ sys.llc) :
    ∃ parent, parents = [.cache parent] ∧ parent ∈ sys.banks ∧
      (sys.childrenOf parent)[childId]? = some bank := by
  obtain ⟨-, checked, -, -, tree, -⟩ := initSystem_ok run
  obtain ⟨group, isKid, banks, isCache, -, isParents, children, isChild, both⟩ :=
    tree.above bank childId parents call inner
  have member : group ∈ sys.maps.names := by
    by_contra other
    rw [Maps.kids_of_not_mem other] at isKid
    cases isKid
  obtain ⟨parent, rfl⟩ := List.length_eq_one_iff.mp (oneBank group member banks isCache)
  refine ⟨parent, isParents, ?_, ?_⟩
  · exact List.mem_flatMap.mpr ⟨group, member, List.mem_flatten.mpr ⟨_, isCache, List.mem_cons_self⟩⟩
  · rw [tree.childrenOf_eq (both parent List.mem_cons_self)]
    exact isChild

theorem exists_node {bank : BaseCache} (member : bank ∈ sys.banks) : ∃ n, sys.bankAt n = some bank := by
  have tree := BuiltSystem.isTree run
  obtain ⟨depth, -, deeper⟩ := tree.depth
  generalize isDepth : depth bank.group = d
  induction d using Nat.strong_induction_on generalizing bank with
  | h d ih =>
      by_cases isTop : bank.group = sys.llc
      · obtain ⟨only, isOnly⟩ := llc_singleton run oneBank
        have own := own_group run member
        rw [isTop, isOnly, List.mem_singleton] at own
        exact ⟨[], by rw [BuiltSystem.bankAt, isOnly, own]; rfl⟩
      · obtain ⟨⟨own, childId, parents⟩, call, same⟩ := List.mem_map.mp (tree.told.mem_iff.mpr member)
        have same : own = bank := same
        subst same
        obtain ⟨parent, rfl, isBank, isChild⟩ := one_parent run oneBank call isTop
        have isDeeper := deeper _ childId _ parent call List.mem_cons_self
        obtain ⟨n, isAt⟩ := ih (depth parent.group) (by omega) isBank rfl
        exact ⟨childId :: n, by rw [BuiltSystem.bankAt, isAt]; exact isChild⟩

theorem node_unique {n m : Coherence.Node} {bank : BaseCache} (first : sys.bankAt n = some bank)
    (second : sys.bankAt m = some bank) : n = m := by
  have tree := BuiltSystem.isTree run
  obtain ⟨depth, atTop, deeper⟩ := tree.depth
  have keys : (sys.wiring.parents.map Prod.fst).Nodup := tree.told.nodup_iff.mpr tree.distinct
  induction n generalizing m bank with
  | nil =>
      have isDepth := (path_groups run atTop deeper first).2.1
      rw [(path_groups run atTop deeper second).2.1] at isDepth
      exact (List.length_eq_zero_iff.mp isDepth).symm
  | cons c n ih =>
      cases m with
      | nil =>
          have isDepth := (path_groups run atTop deeper first).2.1
          rw [(path_groups run atTop deeper second).2.1] at isDepth
          cases isDepth
      | cons d m =>
          obtain ⟨parent, parents, isParent, call, isMember⟩ := tree.told_at first
          obtain ⟨parent', parents', isParent', call', isMember'⟩ := tree.told_at second
          have same := List.inj_on_of_nodup_map keys call call' rfl
          injection same with _ same
          injection same with isId isParents
          subst isId isParents
          have inner : bank.group ≠ sys.llc := fun top => by
            have isDepth := (path_groups run atTop deeper first).2.1
            rw [top, atTop] at isDepth
            cases isDepth
          obtain ⟨only, rfl, -⟩ := one_parent run oneBank call inner
          cases List.mem_singleton.mp isMember
          cases List.mem_singleton.mp isMember'
          rw [ih isParent isParent']

end OneBank

/-- Without banks, the nodes of the tree are the caches: each cache is at one node, below the cache that
is its parent, which knows it by the same id; and the nodes without children are the terminal caches. -/
theorem hierarchy_exact (run : initSystem cfg = .ok sys) (oneBank : sys.OneBank)
    (array : Coherence.Node → CacheArray) (noExclShared : Bool) :
    (∀ bank ∈ sys.banks, ∃! n, sys.bankAt n = some bank) ∧
      (∀ n bank, sys.bankAt n = some bank → bank ∈ sys.banks ∧
        ((hierarchy run array noExclShared).kids n = 0 ↔ sys.maps.isTerminal bank.group = true) ∧
        match n with
        | [] => bank.group = sys.llc
        | c :: p => ∃ parent, sys.bankAt p = some parent ∧ (bank, c, [.cache parent]) ∈ sys.wiring.parents) := by
  have tree := BuiltSystem.isTree run
  obtain ⟨depth, atTop, deeper⟩ := tree.depth
  constructor
  · intro bank member
    obtain ⟨n, isAt⟩ := exists_node run oneBank member
    exact ⟨n, isAt, fun other isOther => node_unique run oneBank isOther isAt⟩
  · intro n bank isAt
    obtain ⟨member, isDepth, -⟩ := path_groups run atTop deeper isAt
    refine ⟨member, kids_eq_zero_iff run isAt member, ?_⟩
    cases n with
    | nil =>
        obtain ⟨-, -, ⟨all, -, built, -⟩, -⟩ := initSystem_ok run
        exact built.own (List.mem_of_head? isAt)
    | cons c p =>
        obtain ⟨parent, parents, isParent, call, isMember⟩ := tree.told_at isAt
        have inner : bank.group ≠ sys.llc := fun top => by
          rw [top, atTop] at isDepth
          cases isDepth
        obtain ⟨only, rfl, -⟩ := one_parent run oneBank call inner
        cases List.mem_singleton.mp isMember
        exact ⟨_, isParent, call⟩

/-- The same cores below an LLC of one bank. -/
def oneBankCores : SystemConfig where
  caches := [
    { name := ['i'], caches := 2 },
    { name := ['d'], caches := 2 },
    { name := ['l', '2'], caches := 2, children := ['i', '|', 'd'] },
    { name := ['l', '3'], children := ['l', '2'] }]
  cores := [{ name := ['c'], cores := 2, icache := some ['i'], dcache := some ['d'] }]

theorem hierarchy_exact_oneBankCores : ∃ sys, initSystem oneBankCores = .ok sys ∧ sys.banks.length = 7 ∧
    ∀ bank ∈ sys.banks, ∃! n, sys.bankAt n = some bank := by
  have returns : (initSystem oneBankCores).toOption.map (fun sys => (sys.banks.length, decide sys.OneBank)) =
      some (7, true) := by decide +kernel
  obtain ⟨sys, run, same⟩ := ok_of_isSome returns
  obtain ⟨count, oneBank⟩ := Prod.mk.inj same
  have array : Coherence.Node → CacheArray := fun _ => .setAssoc ⟨1, 2, id, by decide, by decide⟩
  exact ⟨sys, run, count, (hierarchy_exact run (of_decide_eq_true oneBank) array true).1⟩

end

end Zsim.System
