import Zsim.Lib.Acyclic
import Zsim.Lib.Loop
import Zsim.System.Model

/-!
# The hierarchy is a tree

If `InitSystem` returns, every bank was told its parents and its children once, and both agree.  The
groups form a tree below the LLC; a group outside of it is found by a null pointer only, never by the
check for loops.
-/

set_option autoImplicit false

namespace Zsim.System

@[simp] theorem require_eq_ok {p : Prop} [Decidable p] {failure : Failure} {u : Unit} :
    require p failure = .ok u ↔ p := by
  unfold require
  split <;> simp_all

@[simp] theorem ofOption_eq_ok {α : Type} {failure : Failure} {o : Option α} {a : α} :
    ofOption failure o = .ok a ↔ o = some a := by
  cases o <;> simp [ofOption]

/-! ## Reading -/

structure Maps.Ok (maps : Maps) : Prop where
  names : maps.names.Nodup
  kids : maps.parentMap.map Prod.fst = maps.childMap.flatMap fun entry => entry.2.flatten
  unique : (maps.parentMap.map Prod.fst).Nodup

theorem addChildren_ok {group : Name} {children : List Name} {parentMap final : List (Name × Name)}
    (run : children.foldlM (addChild group) parentMap = .ok final) :
    final.map Prod.fst = parentMap.map Prod.fst ++ children ∧
      ((parentMap.map Prod.fst).Nodup → (final.map Prod.fst).Nodup) := by
  refine foldlM_ok_prefix (fun seen m => m.map Prod.fst = parentMap.map Prod.fst ++ seen ∧
    ((parentMap.map Prod.fst).Nodup → (m.map Prod.fst).Nodup)) ?_ ?_ run
  · intro seen child m next _ holds step
    obtain ⟨_, fresh, done⟩ := bind_eq_ok.mp step
    rw [require_eq_ok] at fresh
    cases done
    rw [List.map_append, holds.1, List.append_assoc]
    refine ⟨rfl, fun nodup => ?_⟩
    rw [← List.append_assoc, ← holds.1]
    have more := (holds.2 nodup).concat fresh
    rwa [List.concat_eq_append] at more
  · exact ⟨(List.append_nil _).symm, id⟩

theorem addGroup_ok {maps next : Maps} {g : CacheGroupConfig} (ok : maps.Ok) (run : addGroup maps g = .ok next) :
    next.Ok ∧ next.names = maps.names ++ [g.name] := by
  obtain ⟨_, -, run⟩ := bind_eq_ok.mp run
  obtain ⟨_, fresh, run⟩ := bind_eq_ok.mp run
  obtain ⟨children, -, run⟩ := bind_eq_ok.mp run
  obtain ⟨parentMap, added, done⟩ := bind_eq_ok.mp run
  rw [require_eq_ok] at fresh
  cases done
  obtain ⟨keys, nodup⟩ := addChildren_ok added
  have names : Maps.names ⟨maps.childMap ++ [(g.name, children)], parentMap⟩ = maps.names ++ [g.name] :=
    List.map_append
  refine ⟨⟨?_, ?_, nodup ok.unique⟩, names⟩
  · rw [names]
    have more := ok.names.concat fresh
    rwa [List.concat_eq_append] at more
  · rw [keys, ok.kids, List.flatMap_append, List.flatMap_singleton]

theorem readGroups_ok {cfg : SystemConfig} {maps : Maps} (run : readGroups cfg = .ok maps) :
    maps.Ok ∧ maps.names = cfg.caches.map CacheGroupConfig.name := by
  refine foldlM_ok_prefix (fun seen m => m.Ok ∧ m.names = seen.map CacheGroupConfig.name) ?_ ?_ run
  · intro seen g m next _ holds step
    obtain ⟨ok, names⟩ := addGroup_ok holds.1 step
    refine ⟨ok, ?_⟩
    rw [names, holds.2, List.map_append]
    rfl
  · exact ⟨⟨List.nodup_nil, rfl, List.nodup_nil⟩, rfl⟩

theorem flatMap_lookup {κ β : Type} [BEq κ] [LawfulBEq κ] {entries : List (κ × List (List β))}
    (nodup : (entries.map Prod.fst).Nodup) :
    (entries.map Prod.fst).flatMap (fun k => ((entries.lookup k).getD []).flatten) =
      entries.flatMap fun entry => entry.2.flatten := by
  rw [List.flatMap_map]
  refine List.flatMap_congr fun entry member => ?_
  obtain ⟨before, after, rfl⟩ := List.append_of_mem member
  rw [List.map_append, List.map_cons] at nodup
  have found : (before ++ entry :: after).lookup entry.1 = some entry.2 := by
    refine List.lookup_eq_some_iff.mpr ⟨before, after, rfl, fun other isBefore => ?_⟩
    have differ := (List.nodup_append.mp nodup).2.2 other.1 (List.mem_map_of_mem isBefore) entry.1
      List.mem_cons_self
    simpa using Ne.symm differ
  rw [found]
  rfl

theorem Maps.Ok.flatMap_kids {maps : Maps} (ok : maps.Ok) :
    maps.names.flatMap maps.kids = maps.parentMap.map Prod.fst :=
  (flatMap_lookup ok.names).trans ok.kids.symm

theorem checkChildren_ok {maps : Maps} (run : checkChildren maps = .ok ()) :
    ∀ child ∈ maps.parentMap.map Prod.fst, child ∈ maps.names := by
  intro child member
  unfold checkChildren at run
  split at run
  case h_1 => cases run
  case h_2 none =>
    have valid := List.find?_eq_none.mp none child member
    simpa using valid

theorem lastLevel_ok {maps : Maps} {llc : Name} (run : lastLevel maps = .ok llc) :
    llc ∈ maps.names ∧ llc ∉ maps.parentMap.map Prod.fst ∧
      ∀ group ∈ maps.names, group ∉ maps.parentMap.map Prod.fst → group = llc := by
  unfold lastLevel at run
  split at run
  case h_1 top tops =>
    cases run
    have iff (group : Name) : group ∈ [llc] ↔ group ∈ maps.names ∧ group ∉ maps.parentMap.map Prod.fst := by
      rw [← tops, List.mem_filter, decide_eq_true_eq]
    have isTop := (iff llc).mp List.mem_cons_self
    exact ⟨isTop.1, isTop.2,
      fun group member parentless => List.mem_singleton.mp ((iff group).mpr ⟨member, parentless⟩)⟩
  case h_2 => cases run

structure Checked (maps : Maps) (llc : Name) : Prop where
  nodup : maps.names.Nodup
  forest : Forest maps.kids llc maps.names
  member : llc ∈ maps.names
  kids : ∀ group ∈ maps.names, ∀ child ∈ maps.kids group, child ∈ maps.names
  top : ∀ group ∈ maps.names, group ∉ maps.names.flatMap maps.kids → group = llc

theorem checked {cfg : SystemConfig} {maps : Maps} {llc : Name} (read : readGroups cfg = .ok maps)
    (check : checkChildren maps = .ok ()) (last : lastLevel maps = .ok llc) : Checked maps llc := by
  obtain ⟨ok, -⟩ := readGroups_ok read
  obtain ⟨member, parentless, only⟩ := lastLevel_ok last
  have all := ok.flatMap_kids
  refine ⟨ok.names, ⟨all ▸ ok.unique, all ▸ parentless⟩, member, fun group isGroup child isKid => ?_, ?_⟩
  · refine checkChildren_ok check child ?_
    rw [← all]
    exact List.mem_flatMap.mpr ⟨group, isGroup, isKid⟩
  · rw [all]
    exact only

/-! ## Building -/

/-- The banks of a group are its own, and every cache has as many. -/
structure GroupOk (group : Name) (cg : CacheGroup) : Prop where
  own : ∀ bank ∈ cg.flatten, bank.group = group
  nodup : cg.flatten.Nodup
  filled : ∀ banks ∈ cg, banks ≠ []
  even : ∀ first ∈ cg, ∀ second ∈ cg, first.length = second.length

theorem grid_ok {g : CacheGroupConfig} {caches banks : Nat} (pos : 0 < banks) (kind : Kind) :
    GroupOk g.name (grid g caches banks kind) where
  own bank member := by
    simp only [grid, List.mem_flatten, List.mem_map] at member
    obtain ⟨_, ⟨i, -, rfl⟩, member⟩ := member
    obtain ⟨j, -, rfl⟩ := List.mem_map.mp member
    rfl
  nodup := by
    refine List.nodup_flatten.mpr ⟨fun row member => ?_, ?_⟩
    · obtain ⟨i, -, rfl⟩ := List.mem_map.mp member
      refine List.nodup_range.map fun j k same => ?_
      injection same
    · rw [grid, List.pairwise_map]
      refine List.nodup_range.imp fun {i k} differ bank first second => ?_
      obtain ⟨_, -, rfl⟩ := List.mem_map.mp first
      obtain ⟨_, -, same⟩ := List.mem_map.mp second
      injection same with _ same
      exact differ same.symm
  filled row member := by
    obtain ⟨i, -, rfl⟩ := List.mem_map.mp member
    intro empty
    have none := congrArg List.length empty
    rw [List.length_map, List.length_range] at none
    exact absurd none (Nat.ne_of_gt pos)
  even first member second member' := by
    obtain ⟨i, -, rfl⟩ := List.mem_map.mp member
    obtain ⟨k, -, rfl⟩ := List.mem_map.mp member'
    rw [List.length_map, List.length_map]

theorem buildCacheGroup_ok {traceDriven isTerminal : Bool} {g : CacheGroupConfig} {cg : CacheGroup}
    (run : buildCacheGroup traceDriven isTerminal g = .ok cg) : GroupOk g.name cg := by
  unfold buildCacheGroup at run
  split at run
  · cases run
    exact grid_ok Nat.one_pos _
  · obtain ⟨_, banks, run⟩ := bind_eq_ok.mp run
    obtain ⟨_, -, run⟩ := bind_eq_ok.mp run
    obtain ⟨_, -, done⟩ := bind_eq_ok.mp run
    rw [require_eq_ok] at banks
    cases done
    exact grid_ok (Nat.pos_of_ne_zero banks) _

theorem group_name (cfg : SystemConfig) (name : Name) : (cfg.group name).name = name := by
  unfold SystemConfig.group
  cases found : cfg.caches.find? fun g => g.name = name with
  | none => rfl
  | some g => simpa using List.find?_some found

structure Built (cfg : SystemConfig) (maps : Maps) (cMap : GroupMap) (visited : List Name) : Prop where
  iff : ∀ group, cMap group ≠ none ↔ group ∈ visited
  build : ∀ group cg, cMap group = some cg →
    buildCacheGroup cfg.traceDriven (maps.isTerminal group) (cfg.group group) = .ok cg

theorem Built.ok {cfg : SystemConfig} {maps : Maps} {cMap : GroupMap} {visited : List Name}
    (built : Built cfg maps cMap visited) {group : Name} {cg : CacheGroup} (found : cMap group = some cg) :
    GroupOk group cg :=
  group_name cfg group ▸ buildCacheGroup_ok (built.build group cg found)

/-- The loop over the groups ends, unless a group cannot be built; it never meets a group twice. -/
theorem buildGroups_spec {cfg : SystemConfig} {maps : Maps} {llc : Name} (checked : Checked maps llc)
    {fuel : Nat} {visited fringe : List Name} {cMap : GroupMap}
    (searched : Searched maps.kids llc visited fringe) (nodup : visited.Nodup) (inside : visited ⊆ maps.names)
    (built : Built cfg maps cMap visited) (enough : maps.names.length < fuel + visited.length) :
    (∃ final all, buildGroups cfg maps fuel fringe cMap = .ok final ∧ Searched maps.kids llc all [] ∧
      all.Nodup ∧ all ⊆ maps.names ∧ Built cfg maps final all) ∨
    ∃ group failure, buildGroups cfg maps fuel fringe cMap = .error failure ∧
      buildCacheGroup cfg.traceDriven (maps.isTerminal group) (cfg.group group) = .error failure := by
  induction fuel generalizing visited fringe cMap with
  | zero =>
      have few := (List.subperm_of_subset nodup inside).length_le
      omega
  | succ fuel ih =>
      cases fringe with
      | nil => exact .inl ⟨cMap, visited, rfl, searched, nodup, inside, built⟩
      | cons group fringe =>
          have distinct := searched.nodup checked.forest nodup inside
          rw [List.append_cons] at distinct
          have nodup' : (visited ++ [group]).Nodup := distinct.of_append_left
          have member : group ∈ maps.names := by
            have met : group ∈ llc :: visited.flatMap maps.kids :=
              searched.met.mem_iff.mp (List.mem_append_right _ List.mem_cons_self)
            rcases List.mem_cons.mp met with rfl | isKid
            · exact checked.member
            · obtain ⟨p, isVisited, isKid⟩ := List.mem_flatMap.mp isKid
              exact checked.kids p (inside isVisited) group isKid
          have fresh : cMap group = none := by
            by_contra isBuilt
            have twice := List.nodup_append.mp nodup'
            exact twice.2.2 group ((built.iff group).mp isBuilt) group List.mem_cons_self rfl
          have inside' : visited ++ [group] ⊆ maps.names :=
            List.append_subset.mpr ⟨inside, by simpa using member⟩
          rw [buildGroups, require, if_pos fresh]
          cases build : buildCacheGroup cfg.traceDriven (maps.isTerminal group) (cfg.group group) with
          | error failure => exact .inr ⟨group, failure, rfl, build⟩
          | ok cg =>
              refine ih (searched.pop checked.forest nodup inside member) nodup' inside' ⟨fun other => ?_, ?_⟩ ?_
              · by_cases here : other = group
                · subst here
                  simp
                · rw [Function.update_of_ne here, built.iff]
                  simp [here]
              · intro other cg' found
                by_cases here : other = group
                · subst here
                  rw [Function.update_self] at found
                  cases found
                  exact build
                · rw [Function.update_of_ne here] at found
                  exact built.build other cg' found
              · rw [List.length_append, List.length_singleton]
                omega

/-! ## Connecting -/

namespace Wiring

theorem setAllParents_ok {w next : Wiring} {banks : List BaseCache} {parents : List MemObject}
    (run : w.setAllParents banks parents = .ok next) :
    next =
      { w with parents := w.parents ++ banks.zipIdx.map fun (bank, childId) => (bank, childId, parents) } := by
  refine foldlM_ok_prefix (fun seen mid => mid =
    { w with parents := w.parents ++ seen.map fun (bank, childId) => (bank, childId, parents) }) ?_ ?_ run
  · rintro seen ⟨bank, childId⟩ s next - holds step
    obtain ⟨_, -, done⟩ := bind_eq_ok.mp step
    cases done
    subst holds
    simp
  · simp

theorem setAllChildren_ok {w next : Wiring} {banks children : List BaseCache}
    (run : w.setAllChildren banks children = .ok next) :
    next = { w with children := w.children ++ banks.map fun bank => (bank, children) } ∧
      ∀ bank ∈ banks, bank.kind = .cache → children.length ≤ 256 := by
  refine foldlM_ok_prefix (fun seen mid => mid =
    { w with children := w.children ++ seen.map fun bank => (bank, children) } ∧
      ∀ bank ∈ seen, bank.kind = .cache → children.length ≤ 256) ?_ ?_ run
  · rintro seen bank s next - ⟨holds, few⟩ step
    obtain ⟨_, -, step⟩ := bind_eq_ok.mp step
    obtain ⟨_, small, step⟩ := bind_eq_ok.mp step
    obtain ⟨_, -, done⟩ := bind_eq_ok.mp step
    rw [require_eq_ok] at small
    cases done
    subst holds
    refine ⟨by simp, fun other member => ?_⟩
    rcases List.mem_append.mp member with member | member
    · exact few other member
    · rw [List.mem_singleton.mp member]
      exact small
  · simp

end Wiring

/-- A group that was built, or nothing. -/
def builtGroup (cMap : GroupMap) (group : Name) : CacheGroup := (cMap group).getD []

def banksOf (cMap : GroupMap) (group : Name) : List BaseCache := (builtGroup cMap group).flatten

theorem getGroup_ok {cMap : GroupMap} {group : Name} {cg : CacheGroup} (run : getGroup cMap group = .ok cg) :
    cMap group ≠ none ∧ builtGroup cMap group = cg := by
  have found : cMap group = some cg := ofOption_eq_ok.mp run
  rw [builtGroup, found]
  exact ⟨Option.some_ne_none _, rfl⟩

theorem interleave_perm {groups : List CacheGroup} {n : Nat} (same : ∀ cg ∈ groups, cg.length = n) :
    ((List.range n).flatMap fun i => groups.map fun cg => cg.getD i []).Perm groups.flatten := by
  induction groups with
  | nil => simp
  | cons cg rest ih =>
      have isGroup : (List.range n).map (fun i => cg.getD i []) = cg := by
        apply List.ext_getElem
        · simp [same cg List.mem_cons_self]
        · intro i _ inside
          simp [inside]
      have later := ih fun other member => same other (List.mem_cons_of_mem _ member)
      refine (List.map_append_flatMap_perm _ _ _).symm.trans ?_
      rw [isGroup, List.flatten_cons]
      exact later.append_left cg

theorem interleave_ok {cMap : GroupMap} {children : List Name} {cg : CacheGroup}
    (run : interleave cMap children = .ok cg) : cg.Perm (children.flatMap (builtGroup cMap)) := by
  cases children with
  | nil =>
      cases run
      exact .nil
  | cons first rest =>
      obtain ⟨vec, -, run⟩ := bind_eq_ok.mp run
      obtain ⟨groups, mapped, done⟩ := bind_eq_ok.mp run
      cases done
      have each : List.Forall₂ (fun child cg => builtGroup cMap child = cg ∧ cg.length = vec.length)
          (first :: rest) groups := by
        refine (mapM_ok mapped).imp fun child cg step => ?_
        obtain ⟨_, found, step⟩ := bind_eq_ok.mp step
        obtain ⟨_, same, done⟩ := bind_eq_ok.mp step
        rw [require_eq_ok] at same
        cases done
        exact ⟨(getGroup_ok found).2, same⟩
      have isGroups : groups = (first :: rest).map (builtGroup cMap) := by
        have equal := each.imp fun _ _ both => both.1
        rw [← List.forall₂_map_left_iff, List.forall₂_eq_eq_eq] at equal
        exact equal.symm
      rw [isGroups, List.forall₂_map_right_iff, List.forall₂_same] at each
      rw [isGroups, List.flatMap_def]
      refine interleave_perm fun cg member => ?_
      obtain ⟨child, isChild, rfl⟩ := List.mem_map.mp member
      exact (each child isChild).2

theorem interleaveAll_ok {cMap : GroupMap} {vecs : List (List Name)} {groups : List CacheGroup}
    (run : vecs.mapM (interleave cMap) = .ok groups) :
    groups.flatten.Perm (vecs.flatten.flatMap (builtGroup cMap)) := by
  have each := (mapM_ok run).imp fun _ _ step => interleave_ok step
  clear run
  induction each with
  | nil => exact .nil
  | cons first _ ih =>
      rw [List.flatten_cons, List.flatten_cons, List.flatMap_append]
      exact first.append ih

/-- The calls that join parent caches to child caches: both sides are told the same. -/
structure Joined (parentCaches childCaches : CacheGroup) (up : List (BaseCache × Nat × List MemObject))
    (down : List (BaseCache × List BaseCache)) : Prop where
  told : up.map Prod.fst = childCaches.flatten
  tells : down.map Prod.fst = parentCaches.flatten
  above : ∀ bank childId parents, (bank, childId, parents) ∈ up → ∃ banks ∈ parentCaches, ∃ children,
    parents = banks.map .cache ∧ children[childId]? = some bank ∧ ∀ parent ∈ banks, (parent, children) ∈ down
  below : ∀ parent children, (parent, children) ∈ down → ∃ banks ∈ parentCaches, parent ∈ banks ∧
    ∀ childId bank, children[childId]? = some bank → (bank, childId, banks.map .cache) ∈ up
  some : ∀ parent children, (parent, children) ∈ down → children ≠ []
  few : ∀ parent children, (parent, children) ∈ down → parent.kind = .cache → children.length ≤ 256

theorem connectParents_ok {childrenPerParent : Nat} (pos : 0 < childrenPerParent)
    {parentCaches childCaches : CacheGroup}
    (filled : ∀ banks ∈ childCaches, banks ≠ []) {w next : Wiring}
    (all : childCaches.length = childrenPerParent * parentCaches.length)
    (run : connectParents childrenPerParent parentCaches childCaches w = .ok next) :
    ∃ up down, next = ⟨w.parents ++ up, w.children ++ down⟩ ∧ Joined parentCaches childCaches up down := by
  induction parentCaches generalizing childCaches w with
  | nil =>
      cases run
      have none : childCaches = [] := List.length_eq_zero_iff.mp all
      subst none
      exact ⟨[], [], by simp, rfl, rfl, nofun, nofun, nofun, nofun⟩
  | cons banks rest ih =>
      obtain ⟨first, told, run⟩ := bind_eq_ok.mp run
      obtain ⟨second, tells, run⟩ := bind_eq_ok.mp run
      have told := Wiring.setAllParents_ok told
      obtain ⟨tells, few⟩ := Wiring.setAllChildren_ok tells
      have some : (childCaches.take childrenPerParent).flatten ≠ [] := by
        rw [List.length_cons, Nat.mul_succ] at all
        obtain ⟨cache, more, isCons⟩ := List.exists_cons_of_length_pos (l := childCaches) (by omega)
        have filled := filled cache (by rw [isCons]; exact List.mem_cons_self)
        rw [isCons, List.take_cons pos, List.flatten_cons]
        exact List.append_ne_nil_of_left_ne_nil filled _
      have all' : (childCaches.drop childrenPerParent).length = childrenPerParent * rest.length := by
        rw [List.length_drop, all, List.length_cons, Nat.mul_succ, Nat.add_sub_cancel]
      obtain ⟨up, down, isNext, joined⟩ :=
        ih (fun banks member => filled banks (List.mem_of_mem_drop member)) all' run
      generalize isChildren : (childCaches.take childrenPerParent).flatten = children at *
      refine ⟨(children.zipIdx.map fun (bank, childId) => (bank, childId, banks.map .cache)) ++ up,
        (banks.map fun bank => (bank, children)) ++ down, ?_, ?_, ?_, ?_, ?_, ?_, ?_⟩
      · rw [isNext, tells, told]
        simp only [List.append_assoc]
      · rw [List.map_append, joined.told, List.map_map]
        have isFirst :
            children.zipIdx.map (Prod.fst ∘ fun (bank, childId) => (bank, childId, banks.map MemObject.cache)) =
            children := List.zipIdx_map_fst 0 children
        rw [isFirst, ← isChildren, ← List.flatten_append, List.take_append_drop]
      · rw [List.map_append, joined.tells, List.map_map, List.flatten_cons]
        congr 1
        exact List.map_id banks
      · intro bank childId parents call
        rcases List.mem_append.mp call with call | call
        · obtain ⟨⟨_, _⟩, isChild, same⟩ := List.mem_map.mp call
          cases same
          refine ⟨banks, List.mem_cons_self, children, rfl, List.mem_zipIdx_iff_getElem?.mp isChild,
            fun parent member => ?_⟩
          exact List.mem_append_left _ (List.mem_map_of_mem member)
        · obtain ⟨others, member, children', isParents, isChild, both⟩ := joined.above bank childId parents call
          exact ⟨others, List.mem_cons_of_mem _ member, children', isParents, isChild,
            fun parent isBank => List.mem_append_right _ (both parent isBank)⟩
      · intro parent children' call
        rcases List.mem_append.mp call with call | call
        · obtain ⟨_, isBank, same⟩ := List.mem_map.mp call
          cases same
          refine ⟨banks, List.mem_cons_self, isBank, fun childId bank isChild => List.mem_append_left _ ?_⟩
          exact List.mem_map.mpr ⟨(bank, childId), List.mem_zipIdx_iff_getElem?.mpr isChild, rfl⟩
        · obtain ⟨others, member, isBank, both⟩ := joined.below parent children' call
          exact ⟨others, List.mem_cons_of_mem _ member, isBank,
            fun childId bank isChild => List.mem_append_right _ (both childId bank isChild)⟩
      · intro parent children' call
        rcases List.mem_append.mp call with call | call
        · obtain ⟨_, -, same⟩ := List.mem_map.mp call
          cases same
          exact some
        · exact joined.some parent children' call
      · intro parent children' call
        rcases List.mem_append.mp call with call | call
        · obtain ⟨_, isBank, same⟩ := List.mem_map.mp call
          cases same
          exact few parent isBank
        · exact joined.few parent children' call

theorem connectGroup_ok {maps : Maps} {cMap : GroupMap} {group : Name} {w next : Wiring}
    (filled : ∀ child, ∀ banks ∈ builtGroup cMap child, banks ≠ []) (inner : maps.isTerminal group = false)
    (run : connectGroup maps cMap w group = .ok next) :
    cMap group ≠ none ∧ ∃ childCaches up down, childCaches.Perm ((maps.kids group).flatMap (builtGroup cMap)) ∧
      next = ⟨w.parents ++ up, w.children ++ down⟩ ∧ Joined (builtGroup cMap group) childCaches up down := by
  unfold connectGroup at run
  rw [if_neg (by simp [inner])] at run
  obtain ⟨parentCaches, found, run⟩ := bind_eq_ok.mp run
  obtain ⟨_, parents, run⟩ := bind_eq_ok.mp run
  obtain ⟨lists, mapped, run⟩ := bind_eq_ok.mp run
  obtain ⟨_, children, run⟩ := bind_eq_ok.mp run
  obtain ⟨_, divides, run⟩ := bind_eq_ok.mp run
  obtain ⟨isBuilt, isGroup⟩ := getGroup_ok found
  rw [require_eq_ok] at parents children divides
  have perm : lists.flatten.Perm ((maps.kids group).flatMap (builtGroup cMap)) := interleaveAll_ok mapped
  have filled' : ∀ banks ∈ lists.flatten, banks ≠ [] := by
    intro banks member
    obtain ⟨child, -, isBanks⟩ := List.mem_flatMap.mp (perm.mem_iff.mp member)
    exact filled child banks isBanks
  have divided := Nat.div_mul_cancel (Nat.dvd_of_mod_eq_zero divides)
  have pos : 0 < lists.flatten.length / parentCaches.length :=
    Nat.div_pos (Nat.le_of_dvd (Nat.pos_of_ne_zero children) (Nat.dvd_of_mod_eq_zero divides))
      (Nat.pos_of_ne_zero parents)
  obtain ⟨up, down, isNext, joined⟩ := connectParents_ok pos filled' divided.symm run
  rw [isGroup]
  exact ⟨isBuilt, lists.flatten, up, down, perm, isNext, joined⟩

/-- What has been connected when the groups in `seen` have been. -/
structure Wired (maps : Maps) (cMap : GroupMap) (llc : Name) (mems : List MemObject) (seen : List Name)
    (w : Wiring) : Prop where
  told : (w.parents.map Prod.fst).Perm
    (banksOf cMap llc ++ seen.flatMap fun group => (maps.kids group).flatMap (banksOf cMap))
  tells :
    (w.children.map Prod.fst).Perm ((seen.filter fun group => !maps.isTerminal group).flatMap (banksOf cMap))
  above : ∀ bank childId parents, (bank, childId, parents) ∈ w.parents →
    parents = mems ∧ (banksOf cMap llc)[childId]? = some bank ∨
    ∃ group ∈ seen, bank ∈ (maps.kids group).flatMap (banksOf cMap) ∧ ∃ banks ∈ builtGroup cMap group,
      ∃ children, parents = banks.map .cache ∧ children[childId]? = some bank ∧
        ∀ parent ∈ banks, (parent, children) ∈ w.children
  below : ∀ parent children, (parent, children) ∈ w.children → ∃ group, ∃ banks ∈ builtGroup cMap group,
    parent ∈ banks ∧ ∀ childId bank, children[childId]? = some bank →
      (bank, childId, banks.map .cache) ∈ w.parents
  some : ∀ parent children, (parent, children) ∈ w.children → children ≠ []
  few : ∀ parent children, (parent, children) ∈ w.children → parent.kind = .cache → children.length ≤ 256
  built : ∀ group ∈ seen, maps.isTerminal group = false → cMap group ≠ none

theorem Maps.kids_of_not_mem {maps : Maps} {group : Name} (other : group ∉ maps.names) :
    maps.kids group = [] := by
  have none : maps.childMap.lookup group = none := by
    refine List.lookup_eq_none_iff.mpr fun entry member => ?_
    have differ : group ≠ entry.1 := fun same => other (same ▸ List.mem_map_of_mem member)
    simpa using differ
  rw [kids, children, none]
  rfl

theorem Maps.kids_of_terminal {maps : Maps} {group : Name} (terminal : maps.isTerminal group = true) :
    maps.kids group = [] := by
  unfold isTerminal at terminal
  rw [kids, List.length_eq_zero_iff.mp (of_decide_eq_true terminal)]
  rfl

section
variable {maps : Maps} {cMap : GroupMap} {llc group : Name} {mems : List MemObject} {seen : List Name}
    {w next : Wiring}

theorem Wired.terminal (wired : Wired maps cMap llc mems seen w) (terminal : maps.isTerminal group = true) :
    Wired maps cMap llc mems (seen ++ [group]) w where
  told := by
    simpa [Maps.kids_of_terminal terminal] using wired.told
  tells := by
    simpa [List.filter_append, terminal] using wired.tells
  above bank childId parents call := by
    refine (wired.above bank childId parents call).imp_right ?_
    rintro ⟨other, isSeen, rest⟩
    exact ⟨other, List.mem_append_left _ isSeen, rest⟩
  below := wired.below
  some := wired.some
  few := wired.few
  built other member inner := by
    rcases List.mem_append.mp member with member | member
    · exact wired.built other member inner
    · rw [List.mem_singleton.mp member, terminal] at inner
      cases inner

theorem Wired.inner (wired : Wired maps cMap llc mems seen w) {childCaches : CacheGroup}
    {up : List (BaseCache × Nat × List MemObject)} {down : List (BaseCache × List BaseCache)}
    (inner : maps.isTerminal group = false) (isBuilt : cMap group ≠ none)
    (perm : childCaches.Perm ((maps.kids group).flatMap (builtGroup cMap)))
    (joined : Joined (builtGroup cMap group) childCaches up down) :
    Wired maps cMap llc mems (seen ++ [group]) ⟨w.parents ++ up, w.children ++ down⟩ := by
  have banks : childCaches.flatten.Perm ((maps.kids group).flatMap (banksOf cMap)) := by
    have flat := perm.flatten
    rwa [List.flatMap_def, List.flatten_flatten, List.map_map, ← List.flatMap_def] at flat
  refine ⟨?_, ?_, ?_, ?_, ?_, ?_, ?_⟩
  · rw [List.map_append, joined.told, List.flatMap_append, List.flatMap_singleton, ← List.append_assoc]
    exact wired.told.append banks
  · have isFiltered : (seen ++ [group]).filter (fun g => !maps.isTerminal g) =
        seen.filter (fun g => !maps.isTerminal g) ++ [group] := by
      simp [List.filter_append, inner]
    rw [isFiltered, List.map_append, joined.tells, List.flatMap_append, List.flatMap_singleton]
    exact wired.tells.append_right _
  · intro bank childId parents call
    rcases List.mem_append.mp call with call | call
    · refine (wired.above bank childId parents call).imp_right ?_
      rintro ⟨other, isSeen, isKid, banks, isCache, children, isParents, isChild, both⟩
      exact ⟨other, List.mem_append_left _ isSeen, isKid, banks, isCache, children, isParents, isChild,
        fun parent isBank => List.mem_append_left _ (both parent isBank)⟩
    · obtain ⟨parentBanks, isCache, children, isParents, isChild, both⟩ := joined.above bank childId parents call
      have isKid : bank ∈ childCaches.flatten := joined.told ▸ List.mem_map_of_mem call
      exact .inr ⟨group, List.mem_append_right _ List.mem_cons_self, banks.mem_iff.mp isKid,
        parentBanks, isCache,
        children, isParents, isChild, fun parent isBank => List.mem_append_right _ (both parent isBank)⟩
  · intro parent children call
    rcases List.mem_append.mp call with call | call
    · obtain ⟨other, banks, isCache, isBank, both⟩ := wired.below parent children call
      exact ⟨other, banks, isCache, isBank,
        fun childId bank isChild => List.mem_append_left _ (both childId bank isChild)⟩
    · obtain ⟨banks, isCache, isBank, both⟩ := joined.below parent children call
      exact ⟨group, banks, isCache, isBank,
        fun childId bank isChild => List.mem_append_right _ (both childId bank isChild)⟩
  · intro parent children call
    exact (List.mem_append.mp call).elim (wired.some parent children) (joined.some parent children)
  · intro parent children call
    exact (List.mem_append.mp call).elim (wired.few parent children) (joined.few parent children)
  · intro other member isInner
    rcases List.mem_append.mp member with member | member
    · exact wired.built other member isInner
    · rw [List.mem_singleton.mp member]
      exact isBuilt

theorem connect_ok (filled : ∀ group, ∀ banks ∈ builtGroup cMap group, banks ≠ [])
    (run : connect maps cMap mems llc = .ok w) :
    Wired maps cMap llc mems maps.names w ∧ (builtGroup cMap llc).length = 1 := by
  obtain ⟨cg, found, run⟩ := bind_eq_ok.mp run
  obtain ⟨-, rfl⟩ := getGroup_ok found
  obtain ⟨_, one, run⟩ := bind_eq_ok.mp run
  obtain ⟨first, told, run⟩ := bind_eq_ok.mp run
  rw [require_eq_ok] at one
  have told := Wiring.setAllParents_ok told
  refine ⟨?_, one⟩
  refine foldlM_ok_prefix (Wired maps cMap llc mems) ?_ ?_ run
  · intro seen group w next _ wired step
    cases terminal : maps.isTerminal group with
    | true =>
        rw [connectGroup, if_pos terminal] at step
        cases step
        exact wired.terminal terminal
    | false =>
        obtain ⟨isBuilt, childCaches, up, down, perm, rfl, joined⟩ := connectGroup_ok filled terminal step
        exact wired.inner terminal isBuilt perm joined
  · rw [told]
    refine ⟨?_, .nil, fun bank childId parents call => .inl ?_, nofun, nofun, nofun, nofun⟩
    · rw [List.nil_append, List.map_map]
      have isFirst : (builtGroup cMap llc).flatten.zipIdx.map
          (Prod.fst ∘ fun (bank, childId) => (bank, childId, mems)) = banksOf cMap llc :=
        List.zipIdx_map_fst 0 _
      rw [isFirst]
      simp
    · obtain ⟨⟨_, _⟩, isChild, same⟩ :=
        List.mem_map.mp (List.mem_append.mp call |>.resolve_left List.not_mem_nil)
      cases same
      exact ⟨rfl, List.mem_zipIdx_iff_getElem?.mp isChild⟩

end

/-! ## The tree -/

namespace BuiltSystem

def banks (sys : BuiltSystem) : List BaseCache := sys.maps.names.flatMap (banksOf sys.cMap)

structure IsTree (sys : BuiltSystem) : Prop where
  distinct : sys.banks.Nodup
  /-- `setParents` is called once for every bank, `setChildren` once for every bank that is not terminal -/
  told : (sys.wiring.parents.map Prod.fst).Perm sys.banks
  tells : (sys.wiring.children.map Prod.fst).Perm (sys.banks.filter fun bank => !sys.maps.isTerminal bank.group)
  top : ∀ bank childId parents, (bank, childId, parents) ∈ sys.wiring.parents → bank.group = sys.llc →
    parents = sys.mems
  /-- the parents are the banks of one cache, and to each of them the child has the id that it was told -/
  above : ∀ bank childId parents, (bank, childId, parents) ∈ sys.wiring.parents → bank.group ≠ sys.llc →
    ∃ group, bank.group ∈ sys.maps.kids group ∧ ∃ banks ∈ builtGroup sys.cMap group, banks ≠ [] ∧
      parents = banks.map .cache ∧ ∃ children, children[childId]? = some bank ∧
        ∀ parent ∈ banks, (parent, children) ∈ sys.wiring.children
  below : ∀ parent children, (parent, children) ∈ sys.wiring.children → ∀ childId bank,
    children[childId]? = some bank →
      ∃ parents, (bank, childId, parents) ∈ sys.wiring.parents ∧ .cache parent ∈ parents
  nonempty : ∀ parent children, (parent, children) ∈ sys.wiring.children → children ≠ []
  few : ∀ parent children, (parent, children) ∈ sys.wiring.children → parent.kind = .cache →
    children.length ≤ 256
  /-- no way up runs in a circle -/
  depth : ∃ depth : Name → Nat, depth sys.llc = 0 ∧ ∀ bank childId parents parent,
    (bank, childId, parents) ∈ sys.wiring.parents → .cache parent ∈ parents →
      depth bank.group = depth parent.group + 1

end BuiltSystem

section
variable {cfg : SystemConfig} {maps : Maps} {cMap : GroupMap} {llc : Name} {mems : List MemObject}
  {all : List Name} {w : Wiring}

theorem perm_names (checked : Checked maps llc) (searched : Searched maps.kids llc all []) (nodup : all.Nodup)
    (inside : all ⊆ maps.names) (built : Built cfg maps cMap all)
    (wired : Wired maps cMap llc mems maps.names w) :
    all.Perm maps.names := by
  refine (List.perm_ext_iff_of_nodup nodup checked.nodup).mpr fun group =>
    ⟨fun member => inside member, fun member => ?_⟩
  have inner {group : Name} (member : group ∈ maps.names) (inner : maps.isTerminal group = false) :
    group ∈ all :=
    (built.iff group).mp (wired.built group member inner)
  by_cases isKid : group ∈ maps.names.flatMap maps.kids
  · obtain ⟨parent, isGroup, isKid⟩ := List.mem_flatMap.mp isKid
    refine searched.closed (inner isGroup ?_) isKid
    cases terminal : maps.isTerminal parent with
    | false => rfl
    | true =>
        rw [Maps.kids_of_terminal terminal] at isKid
        cases isKid
  · rw [checked.top group member isKid]
    exact searched.root_mem

theorem perm_kids (searched : Searched maps.kids llc all []) (perm : all.Perm maps.names) :
    maps.names.Perm (llc :: maps.names.flatMap maps.kids) := by
  have met := searched.met
  rw [List.append_nil] at met
  exact perm.symm.trans (met.trans ((perm.flatMap_right _).cons llc))

theorem Built.own (built : Built cfg maps cMap all) {group : Name} {bank : BaseCache}
    (member : bank ∈ banksOf cMap group) :
    bank.group = group := by
  unfold banksOf builtGroup at member
  cases found : cMap group with
  | none =>
      rw [found] at member
      cases member
  | some cg =>
      rw [found] at member
      exact (built.ok found).own bank member

theorem Built.nodup (built : Built cfg maps cMap all) (group : Name) : (banksOf cMap group).Nodup := by
  unfold banksOf builtGroup
  cases found : cMap group with
  | none => exact List.nodup_nil
  | some cg => exact (built.ok found).nodup

theorem Built.filled (built : Built cfg maps cMap all) (group : Name) :
    ∀ banks ∈ builtGroup cMap group, banks ≠ [] := by
  unfold builtGroup
  cases found : cMap group with
  | none => nofun
  | some cg => exact (built.ok found).filled

theorem Built.filter (built : Built cfg maps cMap all) (p : Name → Bool) (names : List Name) :
    (names.filter p).flatMap (banksOf cMap) =
      (names.flatMap (banksOf cMap)).filter fun bank => p bank.group := by
  induction names with
  | nil => rfl
  | cons group rest ih =>
      have own :
          (banksOf cMap group).filter (fun bank => p bank.group) =
            (banksOf cMap group).filter fun _ => p group :=
        List.filter_congr fun bank member => congrArg p (built.own member)
      rw [List.flatMap_cons, List.filter_append, ← ih, own]
      cases keep : p group <;> simp [keep]

theorem isTree (checked : Checked maps llc) (searched : Searched maps.kids llc all []) (nodup : all.Nodup)
    (inside : all ⊆ maps.names) (built : Built cfg maps cMap all) (wired : Wired maps cMap llc mems maps.names w)
    (memory : ∀ bank, .cache bank ∉ mems) (cores : List (List BaseCache)) :
    BuiltSystem.IsTree ⟨maps, llc, cMap, mems, w, cores⟩ := by
  have perm := perm_names checked searched nodup inside built wired
  have kids := perm_kids searched perm
  have notTop {group : Name} {bank : BaseCache} (isGroup : group ∈ maps.names)
      (isKid : bank ∈ (maps.kids group).flatMap (banksOf cMap)) :
      bank.group ∈ maps.kids group ∧ bank.group ≠ llc := by
    obtain ⟨child, isKid, isBank⟩ := List.mem_flatMap.mp isKid
    rw [built.own isBank]
    refine ⟨isKid, fun top => checked.forest.top ?_⟩
    exact List.mem_flatMap.mpr ⟨group, isGroup, top ▸ isKid⟩
  refine ⟨?_, ?_, ?_, fun bank childId parents call isTop => ?_, fun bank childId parents call inner => ?_,
    fun parent children call childId bank isChild => ?_, wired.some, wired.few, ?_⟩
  · refine List.nodup_flatMap.mpr ⟨fun group _ => built.nodup group, ?_⟩
    refine checked.nodup.imp fun {first second} differ bank isFirst isSecond => differ ?_
    exact (built.own isFirst).symm.trans (built.own isSecond)
  · have all := (kids.flatMap_right (banksOf cMap)).symm
    rw [List.flatMap_cons, List.flatMap_assoc] at all
    exact wired.told.trans all
  · have isBanks := built.filter (fun group => !maps.isTerminal group) maps.names
    exact isBanks ▸ wired.tells
  · rcases wired.above bank childId parents call with ⟨isMems, -⟩ | ⟨group, isGroup, isKid, -⟩
    · exact isMems
    · exact absurd isTop (notTop isGroup isKid).2
  · rcases wired.above bank childId parents call with ⟨-, isLast⟩ | ⟨group, isGroup, isKid, banks, isCache, rest⟩
    · exact absurd (built.own (List.mem_of_getElem? isLast)) inner
    · obtain ⟨children, isParents, isChild, both⟩ := rest
      exact ⟨group, (notTop isGroup isKid).1, banks, isCache, built.filled group banks isCache, isParents,
        children, isChild, both⟩
  · obtain ⟨group, banks, -, isBank, both⟩ := wired.below parent children call
    exact ⟨_, both childId bank isChild, List.mem_map_of_mem isBank⟩
  · obtain ⟨depth, atTop, deeper⟩ := searched.depth
    refine ⟨depth, atTop, fun bank childId parents parent call isParent => ?_⟩
    rcases wired.above bank childId parents call with ⟨rfl, -⟩ | ⟨group, isGroup, isKid, banks, isCache, rest⟩
    · exact absurd isParent (memory parent)
    · obtain ⟨children, rfl, -, -⟩ := rest
      obtain ⟨_, isBank, same⟩ := List.mem_map.mp isParent
      cases same
      have isOwn : parent ∈ banksOf cMap group := List.mem_flatten.mpr ⟨banks, isCache, isBank⟩
      rw [built.own isOwn]
      exact deeper group (perm.mem_iff.mpr isGroup) _ (notTop isGroup isKid).1

end

theorem buildMemory_ok {cfg : SystemConfig} {mems : List MemObject} (run : buildMemory cfg = .ok mems) :
    mems ≠ [] ∧ ∀ bank, .cache bank ∉ mems := by
  obtain ⟨_, pos, done⟩ := bind_eq_ok.mp run
  rw [require_eq_ok] at pos
  cases done
  split
  · simp
  · refine ⟨?_, by simp⟩
    simpa using Nat.ne_of_gt pos

/-- What `InitSystem` has done when it returns. -/
theorem initSystem_ok {cfg : SystemConfig} {sys : BuiltSystem} (run : initSystem cfg = .ok sys) :
    readGroups cfg = .ok sys.maps ∧ Checked sys.maps sys.llc ∧ (∃ all, Searched sys.maps.kids sys.llc all [] ∧
      Built cfg sys.maps sys.cMap all ∧ all.Perm sys.maps.names) ∧ buildMemory cfg = .ok sys.mems ∧ sys.IsTree ∧
      (builtGroup sys.cMap sys.llc).length = 1 ∧ sys.maps.names.forM (checkTerminal sys.maps sys.cMap) = .ok () ∧
      (if cfg.traceDriven then ∃ lists, sys.maps.names.mapM (proxies sys.maps sys.cMap) = .ok lists ∧
          sys.cores = [lists.flatten]
        else buildCores cfg sys.maps sys.cMap = .ok sys.cores) := by
  obtain ⟨maps, read, run⟩ := bind_eq_ok.mp run
  obtain ⟨_, check, run⟩ := bind_eq_ok.mp run
  obtain ⟨llc, last, run⟩ := bind_eq_ok.mp run
  obtain ⟨cMap, build, run⟩ := bind_eq_ok.mp run
  obtain ⟨mems, memory, run⟩ := bind_eq_ok.mp run
  obtain ⟨w, connected, run⟩ := bind_eq_ok.mp run
  obtain ⟨_, terminals, run⟩ := bind_eq_ok.mp run
  have checked := checked read check last
  have none : Built cfg maps (fun _ => none) [] := ⟨by simp, nofun⟩
  have fuelled : maps.names.length < maps.names.length + 1 + ([] : List Name).length := Nat.lt_succ_self _
  obtain ⟨final, all, build', searched, nodup, inside, built⟩ | ⟨_, _, failed, -⟩ :=
    buildGroups_spec checked .start List.nodup_nil (List.nil_subset _) none fuelled
  · cases build.symm.trans build'
    obtain ⟨wired, one⟩ := connect_ok built.filled connected
    have tree := isTree checked searched nodup inside built wired (buildMemory_ok memory).2
    have perm := perm_names checked searched nodup inside built wired
    split at run
    · obtain ⟨lists, proxied, done⟩ := bind_eq_ok.mp run
      cases done
      exact ⟨read, checked, ⟨all, searched, built, perm⟩, memory, tree _, one, terminals, by simp [*]⟩
    · obtain ⟨cores, assigned, done⟩ := bind_eq_ok.mp run
      cases done
      exact ⟨read, checked, ⟨all, searched, built, perm⟩, memory, tree _, one, terminals, by simp [*]⟩
  · cases build.symm.trans failed

/-- The banks of a system that is built are a tree. -/
theorem BuiltSystem.isTree {cfg : SystemConfig} {sys : BuiltSystem} (run : initSystem cfg = .ok sys) :
    sys.IsTree := by
  obtain ⟨-, -, -, -, tree, -⟩ := initSystem_ok run
  exact tree

end Zsim.System
