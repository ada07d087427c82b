/-
# The unified radix tree: eviction and transfers as edits

Every operation of device eviction, of host eviction and of a backup is a sequence of
`Shed` edits, and a load-back a sequence of `Load` edits. The hypotheses of these lemmas are
what the operation relies on and does not check: that a leaf to be deleted has no children,
that a load-back chain hangs below a node on the device.
-/

import Sglang.Tree.Steps

namespace Sglang.Tree

open Sglang.Lib List Option Node Links

variable {π α : Type}

/-- A sequence of edits of eviction and of backups. -/
abbrev Sheds (c : Config) : Core π α → Core π α → Prop := Relation.ReflTransGen (Shed c)

/-- A sequence of edits of load-backs. -/
abbrev Loads (c : Config) : Core π α → Core π α → Prop := Relation.ReflTransGen (Load c)

/-- The node without the device values of some components. -/
def Node.clear (d : Node π α) (cts : List Component) : Node π α :=
  cts.foldl (fun d ct => Core.dropValue ct d) d

namespace Core

variable {c : Config} {core core' : Core π α} {d e : Node π α} {i : Nat} {ct : Component}

lemma Shape.sheds (shape : core.Shape c) (edits : Sheds c core core') : core'.Shape c := by
  induction edits with
  | refl => exact shape
  | tail _ edit ih => exact ih.shed edit

lemma Shape.loads (shape : core.Shape c) (edits : Loads c core core') : core'.Shape c := by
  induction edits with
  | refl => exact shape
  | tail _ edit ih => exact ih.load edit

lemma shed_update : Shed c core (core.updateEvictableLeafSets i) := .leaves

lemma shed_discardDeviceLeaf : Shed c core (core.discardDeviceLeaf i) := .leaves

lemma shed_discardHostLeaf : Shed c core (core.discardHostLeaf i) := .leaves

/-! ### Dropping values -/

lemma dropValue_data (ct ct' : Component) (d : Node π α) : (dropValue ct d).data ct' =
      if ct' = ct then { d.data ct with value := none } else d.data ct' := by
  rw [dropValue, put_data]

lemma Shape.mem_evictValues (shape : core.Shape c) (mem : d ∈ core.nodes) :
    e ∈ (core.evictValues ct [d]).nodes ↔
      (e ∈ core.nodes ∧ e.id ≠ d.id) ∨ e = Core.dropValue ct d :=
  shape.mem_modify mem

/-- Only the name and the component's own data of the record matter. -/
lemma evictValues_congr (id : e.id = d.id) (data : e.data ct = d.data ct) :
    core.evictValues ct [d] = core.evictValues ct [e] := by
  simp [evictValues, tags, links, id, data]

end Core

namespace Node

variable {d : Node π α} {cts : List Component}

@[simp] lemma clear_id : (d.clear cts).id = d.id := by
  induction cts generalizing d with
  | nil => rfl
  | cons ct cts ih => exact ih

@[simp] lemma clear_parent : (d.clear cts).parent = d.parent := by
  induction cts generalizing d with
  | nil => rfl
  | cons ct cts ih => exact ih

lemma clear_data (ct : Component) : (d.clear cts).data ct =
    if ct ∈ cts then { d.data ct with value := none } else d.data ct := by
  induction cts generalizing d with
  | nil => rfl
  | cons ct' cts ih =>
    change ((Core.dropValue ct' d).clear cts).data ct = _
    rw [ih, Core.dropValue_data]
    by_cases here : ct = ct'
    · subst here
      simp
    · simp [here]

end Node

namespace Core

variable {c : Config} {core core' mid : Core π α} {d e : Node π α} {i : Nat} {ct : Component}

/-- The values of some auxiliary components are gone from one node, and nothing else
happened. -/
structure Cleared (c : Config) (e : Node π α) (cts : List Component) (core core' : Core π α) :
    Prop where
  sheds : Sheds c core core'
  node : e.clear cts ∈ core'.nodes
  others : ∀ x, x.id ≠ e.id → (x ∈ core'.nodes ↔ x ∈ core.nodes)

lemma cleared_foldl (cts : List Component) (shape : core.Shape c) (mem : e ∈ core.nodes)
    (same : e.id = d.id) (nodup : cts.Nodup)
    (free : ∀ ct ∈ cts, ct ≠ .full ∧ (e.data ct).lockRef = 0 ∧ e.data ct = d.data ct) :
    Cleared c e cts core (cts.foldl (fun core ct => core.evictValues ct [d]) core) := by
  induction cts generalizing core e with
  | nil => exact ⟨.refl, mem, fun _ _ => .rfl⟩
  | cons ct cts ih =>
    obtain ⟨aux, unlocked, data⟩ := free ct mem_cons_self
    have edit : Shed c core (core.evictValues ct [d]) := by
      rw [evictValues_congr same data]
      exact .aux mem aux unlocked
    have inside : ∀ x, x ∈ (core.evictValues ct [d]).nodes ↔
        (x ∈ core.nodes ∧ x.id ≠ e.id) ∨ x = dropValue ct e := by
      rw [evictValues_congr same data]
      exact fun x => shape.mem_evictValues mem
    have rest := ih (shape.shed edit) ((inside (dropValue ct e)).mpr (.inr rfl)) same
      (nodup_cons.mp nodup).2 (by
        intro ct' later
        have other : ct' ≠ ct := fun clash => (nodup_cons.mp nodup).1 (clash ▸ later)
        rw [dropValue_data, if_neg other]
        exact free ct' (mem_cons_of_mem _ later))
    refine ⟨.head edit rest.sheds, rest.node, fun x away => (rest.others x away).trans ?_⟩
    rw [inside]
    constructor
    · rintro (⟨old, _⟩ | rfl)
      · exact old
      · exact absurd rfl away
    · exact fun old => .inl ⟨old, away⟩

lemma Cleared.mem_children {cts : List Component} (cleared : Cleared c d cts core core')
    (shape : core.Shape c) (child : e ∈ core'.children d.id) : e ∈ core.children d.id := by
  obtain ⟨inside, parent⟩ := Core.mem_children.mp child
  have away : e.id ≠ d.id := fun same =>
    (shape.sheds cleared.sheds).rooted.up_ne_tag inside (parent.trans same.symm)
  exact Core.mem_children.mpr ⟨(cleared.others e away).mp inside, parent⟩

/-! ### Cascades -/

variable {isLeaf : Bool} {trigger : Component} {lru : List Nat} {cts : List Component} {v : List α}
  {above j tail anchor fuel excess : Nat} {full : List (Nat × List α)} {action : Option (Action α)}
  {victims cts' : List Component} {load : LoadBack α} {backup : Backup α} {isWriteBack : Bool}
  {dropped satisfied : Bool}

section

variable (chosen : cascadeVictims d trigger isLeaf = some victims)
include chosen

/-- A cascade takes only unlocked values of other components along. -/
lemma mem_cascadeVictims : ct ∈ victims ↔ shouldCascade d trigger isLeaf ct = some true := by
  unfold cascadeVictims at chosen
  split at chosen
  · cases chosen
    have all : ct ∈ Component.all := by cases ct <;> decide
    simp [all]
  · cases chosen

lemma nodup_cascadeVictims : victims.Nodup := by
  unfold cascadeVictims at chosen
  split at chosen
  · cases chosen
    exact .filter _ (by decide)
  · cases chosen

end

lemma shouldCascade_spec (taken : shouldCascade d trigger isLeaf ct = some true) :
    ct ≠ trigger ∧ (d.data ct).lockRef = 0 := by
  unfold shouldCascade at taken
  split at taken
  · simp at taken
  split at taken
  · simp at taken
  rename_i other
  split at taken
  · simp at taken
  split at taken
  · rename_i free
    exact ⟨fun same => other (.inl same), free⟩
  · simp at taken

/-- Full outranks the other components away from leaves, so they do not take it along. -/
lemma shouldCascade_full (aux : trigger ≠ .full) :
    shouldCascade d trigger false .full = some false := by
  unfold shouldCascade
  rw [if_pos]
  cases trigger <;> first | exact absurd rfl aux | decide

/-- A Full eviction takes every other value along, or fails on a lock. -/
lemma shouldCascade_of_full (aux : ct ≠ .full) (held : (d.data ct).value ≠ none)
    (decided : (shouldCascade d .full isLeaf ct).isSome) :
    shouldCascade d .full isLeaf ct = some true := by
  have outranked : ¬ Component.evictionPriority isLeaf .full < ct.evictionPriority isLeaf := by
    cases isLeaf <;> cases ct <;> decide
  have below : ¬ Component.evictionPriority false .full ≤ ct.evictionPriority false := by
    cases ct <;> first | exact absurd rfl aux | decide
  unfold shouldCascade at decided ⊢
  rw [if_neg outranked, if_neg (by simp [aux, held]), if_neg (fun both => below both.1)] at decided ⊢
  split at decided
  · rename_i free
    rw [if_pos free]
  · simp at decided

section

variable (shape : core.Shape c) (mem : d ∈ core.nodes) (aux : trigger ≠ .full)
  (unlocked : (d.data trigger).lockRef = 0)
  (inner : d.id ∉ core.evictableDeviceLeaves)
  (ran : core.evictAndCascade d trigger = some core')
include shape mem aux unlocked inner ran

/-- Away from a leaf, evicting an auxiliary value only drops auxiliary values. -/
lemma evictAndCascade_aux : ∃ cts mid, core' = mid.updateEvictableLeafSets d.id ∧ .full ∉ cts ∧
      mid = cts.foldl (fun core ct => core.evictValues ct [d]) core ∧
      Cleared c d cts core mid := by
  unfold evictAndCascade at ran
  simp only [inner, decide_false] at ran
  obtain ⟨victims, chosen, rfl⟩ := map_eq_some_iff.mp ran
  have spared : .full ∉ victims := by
    rw [mem_cascadeVictims chosen, shouldCascade_full aux]
    simp
  have apart : trigger ∉ victims := fun clash =>
    (shouldCascade_spec ((mem_cascadeVictims chosen).mp clash)).1 rfl
  refine ⟨victims.reverse ++ [trigger], _, rfl, by simp [spared, Ne.symm aux], rfl, ?_⟩
  apply cleared_foldl _ shape mem rfl
  · rw [nodup_append_comm]
    simpa [apart] using nodup_cascadeVictims chosen
  · intro ct taken
    rcases mem_append.mp taken with victim | last
    · have victim := mem_reverse.mp victim
      have spec := shouldCascade_spec ((mem_cascadeVictims chosen).mp victim)
      exact ⟨fun full => spared (full ▸ victim), spec.2, rfl⟩
    · rw [mem_singleton.mp last]
      exact ⟨aux, unlocked, rfl⟩

lemma evictAndCascade_sheds : Sheds c core core' := by
  obtain ⟨cts, mid, rfl, -, -, cleared⟩ := evictAndCascade_aux shape mem aux unlocked inner ran
  exact cleared.sheds.tail shed_update

end

/-- An auxiliary value is evicted from a node that is no evictable leaf. -/
def Tombstone (core core' : Core π α) : Prop :=
  ∃ d ∈ core.nodes, ∃ ct, ct ≠ .full ∧ (d.data ct).lockRef = 0 ∧
    d.id ∉ core.evictableDeviceLeaves ∧ core.evictAndCascade d ct = some core'

/-- A sequence of such evictions. -/
abbrev Tombstones : Core π α → Core π α → Prop := Relation.ReflTransGen Tombstone

lemma Tombstones.sheds (shape : core.Shape c) (gone : Tombstones core core') :
    Sheds c core core' := by
  induction gone with
  | refl => exact .refl
  | tail before last ih =>
    obtain ⟨d, mem, ct, aux, unlocked, inner, ran⟩ := last
    exact ih.trans (evictAndCascade_sheds (shape.sheds ih) mem aux unlocked inner ran)

lemma isDeviceLeaf_iff : core.isDeviceLeaf d = true ↔
    d.evicted = false ∧ d.locked = false ∧ ∀ e ∈ core.children d.id, e.evicted = true := by
  simp [isDeviceLeaf, and_assoc]

lemma isHostLeaf_iff : core.isHostLeaf d = true ↔ d.evicted = true ∧ d.backuped = true ∧
    d.hostLocked = false ∧ d.locked = false ∧ core.children d.id = [] := by
  simp [isHostLeaf, and_assoc]

/-- A demotion drops every device value of a backed-up leaf. -/
lemma evictAndCascade_full (shape : core.Shape c) (mem : d ∈ core.nodes)
    (leaf : core.isDeviceLeaf d = true) (backuped : d.backuped = true)
    (ran : core.evictAndCascade d .full = some core') :
    ∃ cts mid, core' = (mid.evictValues .full [d]).updateEvictableLeafSets d.id ∧ .full ∉ cts ∧
      mid = cts.foldl (fun core ct => core.evictValues ct [d]) core ∧
      Cleared c d cts core mid ∧ Shed c mid (mid.evictValues .full [d]) := by
  obtain ⟨-, free, childless⟩ := isDeviceLeaf_iff.mp leaf
  obtain ⟨victims, chosen, rfl⟩ := map_eq_some_iff.mp ran
  have aux : ∀ ct ∈ victims, ct ≠ .full ∧ (d.data ct).lockRef = 0 := fun ct victim =>
    shouldCascade_spec ((mem_cascadeVictims chosen).mp victim)
  have spared : .full ∉ victims := fun clash => (aux .full clash).1 rfl
  have cleared := cleared_foldl victims.reverse shape mem rfl
    (nodup_reverse.mpr (nodup_cascadeVictims chosen)) fun ct victim =>
      ⟨(aux ct (mem_reverse.mp victim)).1, (aux ct (mem_reverse.mp victim)).2, rfl⟩
  refine ⟨victims.reverse, _, by rw [foldl_append]; rfl, by simpa using spared, rfl,
    cleared, ?_⟩
  have full : (d.clear victims.reverse).data .full = d.data .full := by
    rw [Node.clear_data, if_neg (by simpa using spared)]
  rw [evictValues_congr Node.clear_id full]
  refine .full cleared.node ?_ ?_ ?_ ?_
  · rw [Node.locked_eq_false_iff] at free ⊢
    intro ct
    rw [Node.clear_data]
    split <;> exact free ct
  · rw [Node.backuped, full]
    exact backuped
  · intro ct other
    rw [Node.clear_data]
    split
    · rfl
    · rename_i kept
      by_contra held
      refine kept (mem_reverse.mpr ((mem_cascadeVictims chosen).mpr
        (shouldCascade_of_full other held ?_)))
      have all : Component.all.all fun ct => (shouldCascade d .full
          (decide (d.id ∈ core.evictableDeviceLeaves)) ct).isSome := by
        unfold cascadeVictims at chosen
        split at chosen
        · assumption
        · cases chosen
      exact all_eq_true.mp all ct (by cases ct <;> decide)
  · intro e child
    rw [Node.clear_id] at child
    exact childless e (cleared.mem_children shape child)

/-! ### Deleting nodes -/

lemma forgetNode_sheds (mem : d ∈ core.nodes) (unlocked : d.locked = false)
    (childless : core.children d.id = []) : Sheds c core (core.forgetNode d) :=
  ((Relation.ReflTransGen.single shed_discardDeviceLeaf).tail shed_discardHostLeaf).tail
    (.remove mem unlocked childless)

lemma dropValue_comm (ct ct' : Component) (d : Node π α) (apart : ct ≠ ct') :
    dropValue ct (dropValue ct' d) = dropValue ct' (dropValue ct d) := by
  unfold dropValue put
  simp only [Function.update_of_ne apart, Function.update_of_ne (.symm apart)]
  rw [Function.update_comm apart]

section

variable (shape : core.Shape c)
include shape

/-- The auxiliary values of an unlocked tombstone go before the node does. -/
lemma cleanTombstone_sheds (mem : d ∈ core.nodes) (free : d.locked = false) :
    Cleared c d [.swa, .mamba] core ((core.evictValues .swa [d]).evictValues .mamba [d]) := by
  apply cleared_foldl [.swa, .mamba] shape mem rfl (by decide)
  intro ct taken
  refine ⟨?_, locked_eq_false_iff.mp free ct, rfl⟩
  rintro rfl
  simp at taken

/-- A childless tombstone without a host copy goes. -/
lemma removeTombstone_sheds (mem : d ∈ core.nodes)
    (free : d.locked = false) (childless : core.children d.id = []) :
    Sheds c core ((((core.evictValues .swa [d]).evictValues .mamba [d]).discardHostLeaf
      d.id).removeNode (dropValue .swa (dropValue .mamba d))) := by
  have cleared := cleanTombstone_sheds shape mem free
  have clean : d.clear [.swa, .mamba] = dropValue .swa (dropValue .mamba d) :=
    dropValue_comm .mamba .swa d (by decide)
  refine (cleared.sheds.tail shed_discardHostLeaf).tail (.remove (clean ▸ cleared.node) ?_ ?_)
  · exact free
  · apply eq_nil_iff_forall_not_mem.mpr
    intro e child
    have old := cleared.mem_children shape child
    rw [childless] at old
    exact not_mem_nil old

end

/-- What evicting a leaf comes to: a demotion, a request for a backup, or a deletion. -/
lemma evictDeviceLeaf_cases (ran : core.evictDeviceLeaf i isWriteBack = some (core', action)) :
    ∃ d ∈ core.nodes, d.id = i ∧ core.isDeviceLeaf d = true ∧ core.find? i = some d ∧
      (core.demote i = some core' ∧ action = none ∨ core' = core ∨
        d.backuped = false ∧ isWriteBack = false ∧ core' = core.deleteUnbackedDeviceLeaf d ∧
          action = none) := by
  obtain ⟨d, found, mem, named, leaf, evicted⟩ := find?_guarded ran
  refine ⟨d, mem, named, leaf, found, ?_⟩
  split at evicted
  · obtain ⟨mid, demoted, out⟩ := map_eq_some_iff.mp evicted
    cases out
    exact .inl ⟨demoted, rfl⟩
  rename_i unbacked
  split at evicted
  · cases evicted
    exact .inr (.inl rfl)
  · rename_i through
    cases evicted
    exact .inr (.inr ⟨by simpa using unbacked, by simpa using through, rfl, rfl⟩)

section

variable (shape : core.Shape c)
include shape

/-- Forgetting whole subtrees, children first. -/
lemma forgetNodes_sheds {xs : List (Node π α)} (sub : ∀ x ∈ xs, x ∈ core.nodes)
    (order : xs.Pairwise fun x y => y.parent ≠ x.id ∧ y.id ≠ x.id)
    (closed : ∀ x ∈ xs, ∀ y ∈ core.nodes, y.parent = x.id → y ∈ xs)
    (free : ∀ x ∈ xs, x.locked = false) :
    Sheds c core (xs.foldl forgetNode core) ∧
      ∀ y, y ∈ (xs.foldl forgetNode core).nodes ↔ y ∈ core.nodes ∧ ∀ x ∈ xs, y.id ≠ x.id := by
  induction xs generalizing core with
  | nil => exact ⟨.refl, by simp⟩
  | cons x xs ih =>
    obtain ⟨later, order⟩ := pairwise_cons.mp order
    have mem := sub x mem_cons_self
    have childless : core.children x.id = [] := by
      refine children_eq_nil.mpr fun y inside parent => ?_
      rcases mem_cons.mp (closed x mem_cons_self y inside parent) with rfl | after
      · exact shape.rooted.up_ne_tag inside parent
      · exact (later y after).1 parent
    have edits := forgetNode_sheds (c := c) mem (free x mem_cons_self) childless
    have kept : ∀ y, y ∈ (core.forgetNode x).nodes ↔ y ∈ core.nodes ∧ y.id ≠ x.id := fun y => by
      simp [forgetNode, removeNode, discardDeviceLeaf, discardHostLeaf]
    obtain ⟨rest, left⟩ := ih (shape.sheds edits)
      (fun y after => (kept y).mpr ⟨sub y (mem_cons_of_mem _ after), (later y after).2⟩)
      order
      (by
        intro y after z inside parent
        obtain ⟨old, away⟩ := (kept z).mp inside
        rcases mem_cons.mp (closed y (mem_cons_of_mem _ after) z old parent) with
          rfl | found
        · exact absurd rfl away
        · exact found)
      fun y after => free y (mem_cons_of_mem _ after)
    refine ⟨edits.trans rest, fun y => ?_⟩
    rw [foldl_cons, left, kept, forall_mem_cons]
    exact and_assoc

/-- The nodes below `i`, in an order in which they can be forgotten. -/
lemma Shape.descendants :
    (core.descendants i).Pairwise fun x y => y.parent ≠ x.id ∧ y.id ≠ x.id := by
  refine .filter _ (.and shape.rooted.pairwise ?_)
  exact (pairwise_map.mp shape.rooted.nodup).imp .symm

lemma Shape.spine_id (mem : d ∈ core.nodes) : core.spine d.id = d :: core.spine d.parent :=
  shape.rooted.spine_tag mem

lemma Shape.mem_descendants (mem : d ∈ core.nodes)
    (child : e ∈ core.nodes) (under : e.parent = d.id)
    (below : d.id = i ∨ d ∈ core.descendants i) : e ∈ core.descendants i := by
  refine mem_filter.mpr ⟨child, decide_eq_true ?_⟩
  rw [under, shape.spine_id mem]
  rcases below with rfl | inside
  · exact mem_cons_self
  · exact mem_cons_of_mem _ (of_decide_eq_true (mem_filter.mp inside).2)

lemma Shape.not_mem_descendants (mem : d ∈ core.nodes) : d ∉ core.descendants d.id := by
  intro inside
  have above := of_decide_eq_true (mem_filter.mp inside).2
  have nodup := shape.rooted.nodup_spine d.id
  rw [show links.spine core.nodes d.id = d :: core.spine d.parent from shape.spine_id mem] at nodup
  exact (nodup_cons.mp nodup).1 above

end

/-- What dropping a subtree comes to: nothing, or a deletion of it, children first. -/
lemma dropSubtreeNoHost_cases (ran : core.dropSubtreeNoHost i = some (core', dropped)) :
    core' = core ∨ ∃ d ∈ core.nodes, d.id = i ∧ d.locked = false ∧
      (∀ x ∈ core.descendants d.id, x.locked = false) ∧
      core' = ((core.descendants d.id).foldl forgetNode core).deleteUnbackedDeviceLeaf d := by
  obtain ⟨d, -, mem, rfl, leaf, ran⟩ := find?_guarded ran
  simp only [Bool.and_eq_true] at leaf
  obtain ⟨-, free, -⟩ := isDeviceLeaf_iff.mp leaf.1.1
  dsimp only at ran
  split at ran
  · cases ran
    exact .inl rfl
  rename_i idle
  split at ran
  swap
  · cases ran
  cases ran
  refine .inr ⟨d, mem, rfl, free, fun x inside => ?_, rfl⟩
  simp only [Bool.or_eq_true, List.any_eq_true, not_or, not_exists, not_and] at idle
  exact Bool.eq_false_iff.mpr (idle.2 x inside).1.2

/-- The nodes below an unlocked subtree's top go; the top is left without children. -/
lemma forgetDescendants_sheds (shape : core.Shape c) (mem : d ∈ core.nodes)
    (unlocked : ∀ x ∈ core.descendants d.id, x.locked = false) :
    Sheds c core ((core.descendants d.id).foldl forgetNode core) ∧
      d ∈ ((core.descendants d.id).foldl forgetNode core).nodes ∧
      ((core.descendants d.id).foldl forgetNode core).children d.id = [] := by
  obtain ⟨edits, left⟩ := forgetNodes_sheds shape
    (fun x inside => (mem_filter.mp inside).1) shape.descendants
    (fun x inside y child parent =>
      shape.mem_descendants (mem_filter.mp inside).1 child parent (.inr inside)) unlocked
  refine ⟨edits, (left d).mpr ⟨mem, fun x inside same => ?_⟩, ?_⟩
  · obtain rfl := shape.eq_of_id mem (mem_filter.mp inside).1 same
    exact shape.not_mem_descendants mem inside
  · apply children_eq_nil.mpr
    intro y inside parent
    obtain ⟨old, away⟩ := (left y).mp inside
    exact away y (shape.mem_descendants mem old parent (.inl rfl)) rfl

/-! ### Walks along a component's LRU list -/

lemma firstUnlocked_spec (chosen : core.firstUnlocked ct lru = some j) :
    ∃ d ∈ core.nodes, d.id = j ∧ (d.data ct).lockRef = 0 := by
  have named := find?_some chosen
  obtain ⟨d, found, free⟩ := (any_eq_true _ _).mp named
  obtain ⟨mem, id⟩ := mem_of_find? found
  exact ⟨d, mem, id, of_decide_eq_true free⟩

/-- The node a walk stands on is unlocked for its component. -/
def Unlocked (core : Core π α) (ct : Component) (i : Nat) : Prop :=
  ∀ d ∈ core.nodes, d.id = i → (d.data ct).lockRef = 0

section

variable (shape : core.Shape c)
include shape

lemma Shape.unlocked_firstUnlocked
    (chosen : core.firstUnlocked ct lru = some j) : core.Unlocked ct j := by
  obtain ⟨d, mem, named, free⟩ := firstUnlocked_spec chosen
  intro e mem' same
  obtain rfl := shape.eq_of_id mem' mem (same.trans named.symm)
  exact free

/-- What a step of the walk does: it moves the cursor to an unlocked node, and the tree only
loses values of unlocked components. -/
lemma evictDeviceNextNode_tombstones (aux : ct ≠ .full)
    {cursor cursor' : Option Nat} {report : WalkStep} (free : ∀ i ∈ cursor, core.Unlocked ct i)
    (ran : core.evictDeviceNextNode c ct lru satisfied cursor = some (core', cursor', report)) :
    Tombstones core core' ∧ (∀ i ∈ cursor', core.Unlocked ct i) := by
  have free' : ∀ i ∈ (cursor.bind fun i => if i ∈ lru then some i else core.firstUnlocked ct lru),
      core.Unlocked ct i := by
    intro j chosen
    obtain ⟨i, old, chosen⟩ := bind_eq_some_iff.mp chosen
    split at chosen
    · cases chosen
      exact free j old
    · exact shape.unlocked_firstUnlocked chosen
  unfold evictDeviceNextNode at ran
  revert ran free'
  generalize (cursor.bind fun i => if i ∈ lru then some i else core.firstUnlocked ct lru) = cur
  intro ran free'
  split at ran
  · cases ran
    exact ⟨.refl, free'⟩
  cases cur with
  | none =>
    cases ran
    exact ⟨.refl, by simp⟩
  | some i =>
    dsimp only at ran
    split at ran
    swap
    · cases ran
      exact ⟨.refl, free'⟩
    obtain ⟨d, -, mem, named, -, ran⟩ := find?_guarded ran
    have next : ∀ j ∈ core.nextUnlocked ct lru i, core.Unlocked ct j :=
      fun j => shape.unlocked_firstUnlocked
    split at ran
    · cases ran
      exact ⟨.refl, next⟩
    rename_i inner
    split at ran
    · cases ran
      exact ⟨.refl, next⟩
    obtain ⟨mid, cascaded, out⟩ := map_eq_some_iff.mp ran
    cases out
    exact ⟨.single ⟨d, mem, ct, aux, free' i rfl d mem named, named ▸ inner, cascaded⟩, next⟩

lemma finishInternalComponentEviction_tombstones (aux : ct ≠ .full)
    {cursor cursor' : Option Nat} (free : ∀ j ∈ cursor, core.Unlocked ct j)
    (ran : core.finishInternalComponentEviction ct lru i cursor = some (core', cursor')) :
    Tombstones core core' ∧ (∀ j ∈ cursor', core.Unlocked ct j) := by
  unfold finishInternalComponentEviction at ran
  cases found : core.find? i with
  | none =>
    rw [found] at ran
    cases ran
    exact ⟨.refl, free⟩
  | some d =>
    obtain ⟨mem, rfl⟩ := mem_of_find? found
    rw [found] at ran
    dsimp only [Option.elim] at ran
    split at ran
    · cases ran
      exact ⟨.refl, free⟩
    have unlocked : (d.data ct).lockRef = 0 := by omega
    split at ran
    · cases ran
      refine ⟨.refl, ?_⟩
      rintro j ⟨⟩ e mem' same
      obtain rfl := shape.eq_of_id mem' mem same
      exact unlocked
    rename_i inner
    simp only [not_or] at inner
    obtain ⟨mid, cascaded, out⟩ := map_eq_some_iff.mp ran
    cases out
    exact ⟨.single ⟨d, mem, ct, aux, unlocked, inner.1, cascaded⟩, free⟩

lemma evictExcessPathStates_drop {holders : List (Node π α)}
    (mem : ∀ d ∈ holders, d ∈ core.nodes) (nodup : (links.tags holders).Nodup)
    (ran : evictExcessPathStates.drop tail excess holders core = some core') :
    Tombstones core core' := by
  induction holders generalizing core excess with
  | nil =>
    cases excess <;> cases ran <;> exact .refl
  | cons d deeper ih =>
    obtain ⟨fresh, nodup⟩ := nodup_cons.mp nodup
    cases excess with
    | zero =>
      cases ran
      exact .refl
    | succ excess =>
      unfold evictExcessPathStates.drop at ran
      split at ran
      · cases ran
        exact .refl
      split at ran
      · exact ih shape (fun e later => mem e (mem_cons_of_mem _ later)) nodup ran
      rename_i open_
      simp only [not_or] at open_
      obtain ⟨mid, cascaded, rest⟩ := bind_eq_some_iff.mp ran
      have here := mem d mem_cons_self
      have step : Tombstone core mid :=
        ⟨d, here, .mamba, by decide, by omega, open_.2.2, cascaded⟩
      obtain ⟨cts, mid', rfl, -, -, cleared⟩ := evictAndCascade_aux shape here (by decide)
        (by omega) open_.2.2 cascaded
      refine .head step (ih (shape.sheds (cleared.sheds.tail shed_update)) (fun e later => ?_)
        nodup rest)
      -- the deeper states are on other nodes
      refine (cleared.others e fun same => fresh ?_).mpr (mem e (mem_cons_of_mem _ later))
      exact (show links.tag e = links.tag d from same) ▸ mem_tags later

lemma evictExcessPathStates_tombstones
    (ran : core.evictExcessPathStates c tail = some core') : Tombstones core core' := by
  unfold evictExcessPathStates at ran
  cases capped : c.mambaMaxStatesPerPath with
  | none =>
    rw [capped] at ran
    cases ran
    exact .refl
  | some cap =>
    rw [capped] at ran
    refine evictExcessPathStates_drop shape (fun d holds => ?_) ?_ ran
    · exact mem_of_mem_spine (mem_filter.mp (mem_reverse.mp holds)).1
    · have path := shape.rooted.nodup_spine tail
      rw [tags, map_reverse, nodup_reverse]
      exact path.sublist (.map _ filter_sublist)

end

/-! ### The host tier -/

/-- Two rewrites of one node are one. -/
lemma modify_modify (ids : List Nat) (f g : Node π α → Node π α) (id : ∀ d, (f d).id = d.id) :
    (core.modify ids f).modify ids g = core.modify ids fun d => g (f d) := by
  unfold modify
  simp only [List.map_map]
  congr 2
  funext d
  by_cases here : d.id ∈ ids
  · simp [here, id]
  · simp [here]

/-! ### Backups -/

/-- What the cache promises of a backup: as many slots as tokens, and, outside write-back,
ancestors first. -/
structure Backup.Fits (c : Config) (core : Core π α) (i : Nat) (backup : Backup α) : Prop where
  full : ∀ v ∈ backup.full, ∀ d ∈ core.nodes, d.id = i → v.length = d.len c ∧
    (c.isWriteBack = false → d.parent = 0 ∨ ∃ p ∈ core.nodes, p.id = d.parent ∧ p.backuped = true)
  swa : ∀ w ∈ backup.swa, ∀ d ∈ core.nodes, d.id = w.1 → w.2.length = d.len c

/-- A backup is a row of host copies, so it keeps what each of them keeps. -/
lemma commitBackup_induct {P : Core π α → Prop}
    (ran : core.commitBackup i backup = some core') (start : P core)
    (full : ∀ d ∈ core.nodes, d.id = i → ∀ v ∈ backup.full, P (core.modify [i] (putHost .full v)))
    (swa : ∀ d ∈ core.nodes, ∀ w ∈ backup.swa, d.id = w.1 → ∀ now, P now →
      P (now.modify [w.1] (putHost .swa w.2)))
    (mamba : ∀ d ∈ core.nodes, d.id = i → ∀ v now, P now → P (now.modify [i] (putHost .mamba v))) :
    P core' := by
  obtain ⟨d, found, mem, named, live, ran⟩ := find?_guarded ran
  have stored : P (backup.full.elim core fun v => core.modify [i] (putHost .full v)) := by
    cases given : backup.full with
    | none => exact start
    | some v => exact full d mem named v given
  have windows := foldlRecOn backup.swa
    (fun core w => core.modify [w.1] (putHost .swa w.2)) stored fun now kept w inside => by
      obtain ⟨e, found', -⟩ := (any_eq_true _ _).mp (all_eq_true.mp live w inside)
      obtain ⟨old, named'⟩ := mem_of_find? found'
      exact swa e old w inside named' now kept
  cases ran
  cases backup.mamba with
  | none => exact windows
  | some v =>
    split
    · exact windows
    · exact mamba d mem named v _ windows

lemma commitBackup_sheds (fits : backup.Fits c core i)
    (ran : core.commitBackup i backup = some core') : Sheds c core core' := by
  -- names and lengths stay, so every copy goes to a node of the tree
  have carried : ∀ (now : Core π α) j ct v,
      (∀ x ∈ core.nodes, ∃ y ∈ now.nodes, y.id = x.id ∧ y.len c = x.len c) → ∀ x ∈ core.nodes,
        ∃ y ∈ (now.modify [j] (putHost ct v)).nodes, y.id = x.id ∧ y.len c = x.len c := by
    intro now j ct v kept x old
    obtain ⟨y, new, facts⟩ := kept x old
    refine ⟨_, mem_map_of_mem new, ?_⟩
    split <;> exact facts
  refine (commitBackup_induct (P := fun now => Sheds c core now ∧ ∀ x ∈ core.nodes,
    ∃ y ∈ now.nodes, y.id = x.id ∧ y.len c = x.len c) ran
    ⟨.refl, fun x old => ⟨x, old, rfl, rfl⟩⟩ ?_ ?_ ?_).1
  · rintro d mem rfl v given
    obtain ⟨sized, above⟩ := fits.full v given d mem rfl
    exact ⟨.single (.putHost mem (fun _ => sized) fun _ => above),
      carried _ _ _ _ fun x old => ⟨x, old, rfl, rfl⟩⟩
  · rintro d mem w inside named now ⟨edits, kept⟩
    obtain ⟨y, new, same, len⟩ := kept d mem
    refine ⟨edits.tail ?_, carried _ _ _ _ kept⟩
    rw [← named, ← same]
    exact .putHost new (fun _ => (fits.swa w inside d mem named).trans len.symm) (by simp)
  · rintro d mem rfl v now ⟨edits, kept⟩
    obtain ⟨y, new, same, -⟩ := kept d mem
    refine ⟨edits.tail ?_, carried _ _ _ _ kept⟩
    rw [← same]
    exact .putHost new (by simp) (by simp)

/-! ### Load-backs -/

/-- The nodes of a load-back: each one evicted, and hanging below the one before it. -/
def Chained (c : Config) (core : Core π α) : Nat → List (Nat × List α) → Prop
  | _, [] => True
  | above, (i, v) :: rest =>
    (∃ d ∈ core.nodes, d.id = i ∧ d.parent = above ∧ d.evicted = true ∧ v.length = d.len c) ∧
      Chained c core i rest

/-- What the cache promises of a load-back: an evicted chain below a node on the device,
windows and states that are not on the device yet. -/
structure LoadBack.Fits (c : Config) (core : Core π α) (anchor : Nat) (load : LoadBack α) :
    Prop where
  chain : ∃ above, core.Resident above ∧ Chained c core above load.full
  distinct : (load.full.map Prod.fst).Nodup
  windows : ∀ w ∈ load.swa, ∀ d ∈ core.nodes, d.id = w.1 → (d.data .swa).value = none
  windows_distinct : (load.swa.map Prod.fst).Nodup
  state : load.mamba.isSome → ∀ d ∈ core.nodes, d.id = anchor →
    (d.data .mamba).value = none ∧ (d.evicted = false ∨ anchor ∈ load.full.map Prod.fst)

/-- The nodes are rewritten in place, in some components' data only; none is evicted. -/
def Carries (cts : List Component) (core core' : Core π α) : Prop :=
  ∃ f : Node π α → Node π α, core'.nodes = core.nodes.map f ∧ ∀ x, (f x).id = x.id ∧
    (f x).parent = x.parent ∧ (f x).key = x.key ∧ (x.evicted = false → (f x).evicted = false) ∧
    ∀ ct ∉ cts, (f x).data ct = x.data ct

lemma Carries.refl : Carries cts core core :=
  ⟨id, by simp, fun _ => ⟨rfl, rfl, rfl, id, fun _ _ => rfl⟩⟩

lemma Carries.trans (first : Carries cts core mid)
    (second : Carries cts' mid core') (cts'' : List Component) (left : cts ⊆ cts'')
    (right : cts' ⊆ cts'') : Carries cts'' core core' := by
  obtain ⟨f, nodes, facts⟩ := first
  obtain ⟨g, nodes', facts'⟩ := second
  refine ⟨g ∘ f, by rw [nodes', nodes, List.map_map], fun x => ?_⟩
  obtain ⟨named, parent, key, resident, data⟩ := facts x
  obtain ⟨named', parent', key', resident', data'⟩ := facts' (f x)
  exact ⟨named'.trans named, parent'.trans parent, key'.trans key, resident' ∘ resident,
    fun ct other => (data' ct fun inside => other (right inside)).trans
      (data ct fun inside => other (left inside))⟩

lemma Carries.resident (carries : Carries cts core core') (resident : core.Resident i) :
    core'.Resident i := by
  obtain ⟨f, nodes, facts⟩ := carries
  rcases resident with zero | ⟨x, old, named, device⟩
  · exact .inl zero
  · exact .inr ⟨f x, nodes ▸ mem_map_of_mem old, (facts x).1.trans named,
      (facts x).2.2.2.1 device⟩

/-- Storing a device value of one component. -/
lemma carries_store (nodes : core'.nodes =
    (core.modify [i] fun d => d.put ct { d.data ct with value := some v }).nodes) :
    Carries [ct] core core' := by
  refine ⟨_, nodes.trans (nodes_modify ..), fun x => ⟨?_, ?_, ?_, ?_, ?_⟩⟩
  · split <;> rfl
  · split <;> rfl
  · split <;> rfl
  · intro resident
    split
    · rw [evicted, put_data]
      split
      · rfl
      · exact resident
    · exact resident
  · intro ct' other
    split
    · exact put_data_of_ne x _ (by simpa using other)
    · rfl

section

variable (shape : core.Shape c)
include shape

lemma Shape.loadFull_of_ne (mem : d ∈ core.nodes) (old : e ∈ core.nodes)
    (away : e.id ≠ d.id) : e ∈ (core.loadFull d.id v).nodes := by
  rw [nodes_loadFull, nodes_setComponentDeviceValue]
  exact (shape.mem_modify mem).mpr (.inl ⟨old, away⟩)

lemma Shape.loadFull_self (mem : d ∈ core.nodes) :
    d.put .full { d.data .full with value := some v } ∈ (core.loadFull d.id v).nodes := by
  rw [nodes_loadFull, nodes_setComponentDeviceValue]
  exact (shape.mem_modify mem).mpr (.inr rfl)

lemma Chained.loadFull (mem : d ∈ core.nodes) {rest : List (Nat × List α)}
    (fresh : d.id ∉ rest.map Prod.fst) (chain : Chained c core above rest) :
    Chained c (core.loadFull d.id v) above rest := by
  induction rest generalizing above with
  | nil => trivial
  | cons w rest ih =>
    simp only [map_cons, mem_cons, not_or] at fresh
    obtain ⟨⟨x, old, named, facts⟩, chain⟩ := chain
    refine ⟨⟨x, shape.loadFull_of_ne mem old ?_, named, facts⟩, ih fresh.2 chain⟩
    exact fun same => fresh.1 (same.symm.trans named)

end

lemma foldl_storeSwa (windows : List (Nat × List α)) (shape : core.Shape c)
    (distinct : (windows.map Prod.fst).Nodup)
    (known : ∀ w ∈ windows, ∃ d ∈ core.nodes, d.id = w.1 ∧ d.evicted = false ∧
      (d.data .swa).value = none ∧ w.2.length = d.len c) :
    Loads c core (windows.foldl (fun core w => core.setComponentDeviceValue w.1 .swa w.2) core) ∧
      Carries [.swa] core
        (windows.foldl (fun core w => core.setComponentDeviceValue w.1 .swa w.2) core) := by
  induction windows generalizing core with
  | nil => exact ⟨.refl, .refl⟩
  | cons w windows ih =>
    obtain ⟨d, mem, named, resident, empty, sized⟩ := known w mem_cons_self
    obtain ⟨fresh, distinct⟩ := nodup_cons.mp distinct
    have edit : Load c core (core.setComponentDeviceValue w.1 .swa w.2) :=
      .grow (named ▸ .store mem (by decide) resident empty fun _ => sized)
    have stored : Carries [.swa] core (core.setComponentDeviceValue w.1 .swa w.2) :=
      carries_store (nodes_setComponentDeviceValue ..)
    obtain ⟨rest, kept⟩ := ih (shape.load edit) distinct fun w' later => by
      obtain ⟨x, old, named', facts⟩ := known w' (mem_cons_of_mem _ later)
      refine ⟨x, ?_, named', facts⟩
      rw [nodes_setComponentDeviceValue, ← named]
      refine (shape.mem_modify mem).mpr (.inl ⟨old, fun same => fresh ?_⟩)
      rw [← named, ← same, named']
      exact mem_map_of_mem later
    exact ⟨.head edit rest, stored.trans kept _ (by simp) (by simp)⟩

lemma Node.valueLen_full (shape : core.Shape c) (mem : d ∈ core.nodes)
    (resident : d.evicted = false) : (d.data .full).valueLen = d.len c := by
  obtain ⟨v, held⟩ := exists_value resident
  rw [ComponentData.valueLen, held]
  exact shape.sized d mem .full (by decide) v (.inl held)

/-- A chain is read off names, links and values alone. -/
lemma Chained.note {f : Node π α → Node π α}
    (chain : Chained c core above full) (nodes : core'.nodes = core.nodes.map f)
    (bare : ∀ d, (f d).id = d.id ∧ (f d).parent = d.parent ∧ (f d).key = d.key ∧
      (f d).data = d.data) : Chained c core' above full := by
  induction full generalizing above with
  | nil => trivial
  | cons w full ih =>
    obtain ⟨⟨x, old, named, parent, evicted, sized⟩, chain⟩ := chain
    obtain ⟨named', parent', key, data⟩ := bare x
    refine ⟨⟨f x, nodes ▸ mem_map_of_mem old, named'.trans named, parent'.trans parent,
      ?_, ?_⟩, ih chain⟩
    · rw [Node.evicted, data]
      exact evicted
    · rw [sized, Node.len, Node.len, key]

lemma pinLoads_loads (anchor : Nat) (ids : List Nat) (chain : Chained c core above full) :
    Loads c core (pinLoads c core anchor ids) ∧ Carries [] core (pinLoads c core anchor ids) ∧
      Chained c (pinLoads c core anchor ids) above full := by
  unfold pinLoads
  split
  · have bare := bare_ite ids (f := fun d : Node π α => { d with loadBackPendingId := some anchor })
      fun _ => ⟨rfl, rfl, rfl, rfl⟩
    refine ⟨.single (.grow (.note fun _ => ⟨rfl, rfl, rfl, rfl⟩)), ⟨_, nodes_modify .., fun x => ?_⟩,
      chain.note (nodes_modify ..) bare⟩
    obtain ⟨named, parent, key, data⟩ := bare x
    refine ⟨named, parent, key, fun resident => ?_, fun ct _ => by rw [data]⟩
    rw [evicted, data]
    exact resident
  · exact ⟨.refl, .refl, chain⟩

lemma Carries.data_eq (carries : Carries cts core core') (ct : Component) (mem : d ∈ core'.nodes)
    (kept : ct ∉ cts) : ∃ x ∈ core.nodes, x.id = d.id ∧ x.data ct = d.data ct := by
  obtain ⟨f, nodes, facts⟩ := carries
  obtain ⟨x, old, rfl⟩ := mem_map.mp (nodes ▸ mem)
  exact ⟨x, old, (facts x).1.symm, ((facts x).2.2.2.2 ct kept).symm⟩

/-- The stages of a load-back that went through. -/
lemma commitLoadBack_stages (ran : core.commitLoadBack c anchor load = some core') :
    ∃ loaded windowed, loaded = load.full.foldl (fun core w => core.loadFull w.1 w.2)
        (pinLoads c core anchor (load.full.map Prod.fst)) ∧
      windowed = load.swa.foldl (fun core w => core.setComponentDeviceValue w.1 .swa w.2)
        (loaded.updateEvictableLeafSets anchor) ∧
      (∀ w ∈ load.swa, ∃ d ∈ loaded.nodes, d.id = w.1 ∧ d.evicted = false ∧
        (d.data .full).valueLen = w.2.length) ∧
      core' = (load.mamba.elim windowed fun v =>
        windowed.setComponentDeviceValue anchor .mamba v).updateEvictableLeafSets anchor := by
  unfold commitLoadBack at ran
  dsimp only at ran
  split at ran
  swap
  · cases ran
  split at ran
  swap
  · cases ran
  rename_i ready
  cases ran
  refine ⟨_, _, rfl, rfl, fun w inside => ?_, rfl⟩
  obtain ⟨d, found, live⟩ := (any_eq_true _ _).mp (all_eq_true.mp ready w inside)
  obtain ⟨mem, named⟩ := mem_of_find? found
  simp only [Bool.and_eq_true, Bool.not_eq_true', decide_eq_true_eq] at live
  exact ⟨d, mem, named, live.1, live.2⟩

/-! ### Values of several nodes -/

lemma evictValues_cons (d : Node π α) (ds : List (Node π α)) :
    core.evictValues ct (d :: ds) = (core.evictValues ct [d]).evictValues ct ds := by
  have again : ∀ e : Node π α, dropValue ct (dropValue ct e) = dropValue ct e := by
    simp [dropValue, put]
  have nodes : (core.evictValues ct (d :: ds)).nodes =
      ((core.evictValues ct [d]).evictValues ct ds).nodes := by
    simp only [evictValues, modify, addEvictable, List.map_map]
    apply map_congr_left
    intro e _
    by_cases here : e.id = d.id
    · simp [tags, links, here, again]
    · simp [tags, links, here]
  have size : (core.evictValues ct (d :: ds)).componentEvictableSize =
      ((core.evictValues ct [d]).evictValues ct ds).componentEvictableSize := by
    simp only [evictValues, modify, addEvictable, Function.update_self, Function.update_idem,
      map_cons, sum_cons, map_nil, sum_nil]
    congr 1
    omega
  unfold evictValues modify addEvictable at nodes size ⊢
  simp only at nodes size ⊢
  rw [nodes, size]

/-- Dropping unlocked auxiliary values from several nodes. -/
lemma evictValues_sheds {ds : List (Node π α)} (shape : core.Shape c) (ct : Component)
    (aux : ct ≠ .full) (free : ∀ d ∈ ds, d ∈ core.nodes ∧ (d.data ct).lockRef = 0)
    (nodup : (links.tags ds).Nodup) : Sheds c core (core.evictValues ct ds) := by
  induction ds generalizing core with
  | nil =>
    have same : core.evictValues ct [] = core := by
      simp [evictValues, modify, addEvictable, tags]
    rw [same]
  | cons d ds ih =>
    obtain ⟨fresh, nodup⟩ := nodup_cons.mp nodup
    obtain ⟨mem, unlocked⟩ := free d mem_cons_self
    have edit : Shed c core (core.evictValues ct [d]) := .aux mem aux unlocked
    rw [evictValues_cons]
    refine .head edit (ih (shape.shed edit) (fun e later => ?_) nodup)
    obtain ⟨old, unlocked'⟩ := free e (mem_cons_of_mem _ later)
    refine ⟨(shape.mem_evictValues mem).mpr (.inl ⟨old, fun same => fresh ?_⟩), unlocked'⟩
    exact (show links.tag e = links.tag d from same) ▸ mem_tags later

end Core

end Sglang.Tree
