/-
# The unified radix tree: the evictable leaves

The core keeps the leaves it may evict in two sets and refreshes single nodes of them at
chosen places. `Core.Exact core dirty` says that both sets are right about every node outside
`dirty`: a write dirties the nodes whose status reads what it changed, a refresh cleans one
node, and each operation is shown to clean up after itself.

* `Exact.grows` — matching and inserting.
* `demote_cleans`, `evictDeviceLeaf_cleans`, `dropSubtreeNoHost_cleans`, … — evictions.
* `commitLoadBack_loads` — load-backs, as far as the parents of the loaded nodes need no
  refresh.
-/

import Sglang.Tree.Ledger

namespace Sglang.Tree

open Sglang.Lib List Option Node

open Tree.Core (dropHost lower putHost raise spine)

open Set (empty_subset mem_insert_iff notMem_empty)

variable {π α : Type}

namespace Core

/-- A node that `_is_device_leaf` accepts. -/
def DeviceLeaf (core : Core π α) (i : Nat) : Prop :=
  ∃ d ∈ core.nodes, d.id = i ∧ core.isDeviceLeaf d = true

/-- A node that `_is_host_leaf` accepts. -/
def HostLeaf (core : Core π α) (i : Nat) : Prop :=
  ∃ d ∈ core.nodes, d.id = i ∧ core.isHostLeaf d = true

/-- Both sets are right outside `dirty`. -/
structure Exact (core : Core π α) (dirty : Set Nat) : Prop where
  device : ∀ i ∉ dirty, i ∈ core.evictableDeviceLeaves ↔ core.DeviceLeaf i
  host : ∀ i ∉ dirty, i ∈ core.evictableHostLeaves ↔ core.HostLeaf i

/-- The two sets. -/
def leafSets (core : Core π α) : Finset Nat × Finset Nat :=
  (core.evictableDeviceLeaves, core.evictableHostLeaves)

lemma exact_reset : Exact (reset : Core π α) ∅ :=
  ⟨by simp [reset, DeviceLeaf], by simp [reset, HostLeaf]⟩

variable {c : Config} {core core' : Core π α} {d e child : Node π α} {i j n : Nat} {ct : Component}
  {dirty : Set Nat} {held : List Held}

variable {dirty' : Set Nat} {f : Node π α → Node π α} {seg xs : List (Node π α)} {ids : List Nat}
  {full : List (Nat × List α)} {log : List (Nat × Nat)}

lemma Exact.mono (sets : core.Exact dirty) (sub : dirty ⊆ dirty') : core.Exact dirty' :=
  ⟨fun i clean => sets.device i fun old => clean (sub old),
    fun i clean => sets.host i fun old => clean (sub old)⟩

/-! ### Refreshing -/

lemma Shape.any_find? (shape : core.Shape c) (p : Node π α → Bool) :
    (core.find? i).any p = true ↔ ∃ d ∈ core.nodes, d.id = i ∧ p d = true := by
  rw [Option.any_eq_true]
  constructor
  · rintro ⟨d, found, holds⟩
    obtain ⟨mem, named⟩ := mem_of_find? found
    exact ⟨d, mem, named, holds⟩
  · rintro ⟨d, mem, rfl, holds⟩
    exact ⟨d, shape.find? mem, holds⟩

lemma mem_refresh (leaf : Bool) (s : Finset Nat) :
    j ∈ (if leaf then Insert.insert i s else s.erase i) ↔ if j = i then leaf = true else j ∈ s := by
  cases leaf <;> by_cases here : j = i <;> simp [here]

lemma mem_update_of_ne (core : Core π α) (away : j ≠ i) :
    (j ∈ (core.updateEvictableLeafSets i).evictableDeviceLeaves ↔ j ∈ core.evictableDeviceLeaves) ∧
      (j ∈ (core.updateEvictableLeafSets i).evictableHostLeaves ↔
        j ∈ core.evictableHostLeaves) := by
  simp [updateEvictableLeafSets, mem_refresh, if_neg away]

/-- A refresh cleans its node. -/
lemma Exact.update (sets : core.Exact dirty) (shape : core.Shape c) (i : Nat) :
    (core.updateEvictableLeafSets i).Exact (dirty \ {i}) where
  device := by
    intro j clean
    apply (mem_refresh _ _).trans
    split
    · exact ‹j = i› ▸ shape.any_find? core.isDeviceLeaf
    · exact sets.device j fun old => clean ⟨old, ‹_›⟩
  host := by
    intro j clean
    apply (mem_refresh _ _).trans
    split
    · exact ‹j = i› ▸ shape.any_find? core.isHostLeaf
    · exact sets.host j fun old => clean ⟨old, ‹_›⟩

lemma Exact.clean (sets : core.Exact {i}) (shape : core.Shape c) :
    (core.updateEvictableLeafSets i).Exact ∅ := by
  simpa using sets.update shape i

lemma Exact.refresh (sets : core.Exact ∅) (shape : core.Shape c) (i : Nat) :
    (core.updateEvictableLeafSets i).Exact ∅ := by
  simpa using sets.update shape i

/-- Refreshing all that is dirty. -/
lemma Exact.updateAll (sets : core.Exact dirty) (shape : core.Shape c)
    (all : ∀ i ∈ dirty, i ∈ ids) : (core.updateAll ids).Exact ∅ := by
  induction ids generalizing core dirty with
  | nil => exact sets.mono fun i old => absurd (all i old) not_mem_nil
  | cons i ids ih =>
    exact ih (sets.update shape i) (shape.congr rfl rfl) fun j old =>
      (mem_cons.mp (all j old.1)).resolve_left old.2

/-- Nodes of a segment that a release does not open are counted more than once. -/
lemma Shape.one_lt_of_clean (shape : core.Shape c) (inside : seg ⊆ core.nodes)
    {count : Node π α → Nat} (counted : (seg.all fun d => decide (0 < count d)) = true)
    (mem : d ∈ core.nodes) (covered : d.id ∈ links.tags seg)
    (clean : d.id ∉ links.tags (seg.filter fun d => decide (count d = 1))) : 1 < count d := by
  obtain ⟨e, on, named⟩ := mem_map.mp covered
  obtain rfl := shape.eq_of_id (inside on) mem named
  have pos := of_decide_eq_true (all_eq_true.mp counted e on)
  have more : count e ≠ 1 := fun one =>
    clean (mem_map.mpr ⟨e, mem_filter.mpr ⟨on, decide_eq_true one⟩, rfl⟩)
  omega

/-! ### Rewriting nodes in place -/

/-- What a node itself adds to its status as a device leaf. -/
def deviceReady (d : Node π α) : Bool := !d.evicted && !d.locked

/-- What a node itself adds to its status as a host leaf. -/
def hostReady (d : Node π α) : Bool := d.evicted && d.backuped && !d.hostLocked && !d.locked

lemma deviceLeaf_iff : core.DeviceLeaf i ↔ (∃ d ∈ core.nodes, d.id = i ∧ deviceReady d = true) ∧
      ∀ e ∈ core.nodes, e.parent = i → e.evicted = true := by
  simp only [DeviceLeaf, isDeviceLeaf_iff, deviceReady, Bool.and_eq_true, Bool.not_eq_true',
    mem_children]
  constructor
  · rintro ⟨d, mem, rfl, device, free, childless⟩
    exact ⟨⟨d, mem, rfl, device, free⟩, fun e old under => childless e ⟨old, under⟩⟩
  · rintro ⟨⟨d, mem, rfl, device, free⟩, childless⟩
    exact ⟨d, mem, rfl, device, free, fun e child => childless e child.1 child.2⟩

lemma hostLeaf_iff : core.HostLeaf i ↔
    (∃ d ∈ core.nodes, d.id = i ∧ hostReady d = true) ∧ ∀ e ∈ core.nodes, e.parent ≠ i := by
  simp only [HostLeaf, isHostLeaf_iff, hostReady, Bool.and_eq_true, Bool.not_eq_true',
    children_eq_nil]
  constructor
  · rintro ⟨d, mem, rfl, device, host, open_, free, childless⟩
    exact ⟨⟨d, mem, rfl, ⟨⟨device, host⟩, open_⟩, free⟩, childless⟩
  · rintro ⟨⟨d, mem, rfl, ⟨⟨device, host⟩, open_⟩, free⟩, childless⟩
    exact ⟨d, mem, rfl, device, host, open_, free, childless⟩

/-- A rewriting that keeps names and links, with the two sets as they were: it dirties the
nodes whose own status changes and the parents of those that come to or leave the device. -/
lemma Exact.rewrite (sets : core.Exact dirty) (nodes : core'.nodes = core.nodes.map f)
    (leaves : core'.leafSets = core.leafSets) (id : ∀ d, (f d).id = d.id)
    (parent : ∀ d, (f d).parent = d.parent) (sub : dirty ⊆ dirty')
    (own : ∀ d ∈ core.nodes, d.id ∉ dirty' → deviceReady (f d) = deviceReady d ∧
      (core.children d.id = [] → hostReady (f d) = hostReady d))
    (up : ∀ d ∈ core.nodes, d.parent ∉ dirty' → (f d).evicted = d.evicted) :
    core'.Exact dirty' := by
  obtain ⟨device, host⟩ := Prod.mk.inj leaves
  constructor
  · intro i clean
    rw [device, sets.device i fun old => clean (sub old), deviceLeaf_iff, deviceLeaf_iff, nodes]
    simp only [List.mem_map, exists_exists_and_eq_and, forall_exists_index, and_imp,
      forall_apply_eq_imp_iff₂, id, parent]
    refine and_congr (exists_congr fun d => and_congr_right fun mem => and_congr_right fun named => ?_)
      (forall_congr' fun e => imp_congr_right fun mem => imp_congr_right fun under => ?_)
    · rw [(own d mem (named ▸ clean)).1]
    · rw [up e mem (under ▸ clean)]
  · intro i clean
    rw [host, sets.host i fun old => clean (sub old), hostLeaf_iff, hostLeaf_iff, nodes]
    simp only [List.mem_map, exists_exists_and_eq_and, forall_exists_index, and_imp,
      forall_apply_eq_imp_iff₂, id, parent]
    refine and_congr_left fun childless => exists_congr fun d => and_congr_right fun mem =>
      and_congr_right fun named => ?_
    have bare : core.children d.id = [] :=
      children_eq_nil.mpr fun e old under => childless e old (under.trans named)
    rw [(own d mem (named ▸ clean)).2 bare]

lemma Exact.congr (sets : core.Exact dirty) (nodes : core'.nodes = core.nodes)
    (leaves : core'.leafSets = core.leafSets) : core'.Exact dirty :=
  sets.rewrite (by simp [nodes]) leaves (fun _ => rfl) (fun _ => rfl) subset_rfl
    (fun _ _ _ => ⟨rfl, fun _ => rfl⟩) fun _ _ _ => rfl

/-- What a leaf's status reads of a node. -/
lemma ready_congr (evicted : e.evicted = d.evicted)
    (backuped : d.evicted = true → e.backuped = d.backuped) (locked : e.locked = d.locked)
    (hostLocked : e.hostLocked = d.hostLocked) :
    deviceReady e = deviceReady d ∧ hostReady e = hostReady d ∧ e.evicted = d.evicted := by
  refine ⟨by rw [deviceReady, deviceReady, evicted, locked], ?_, evicted⟩
  rw [hostReady, hostReady, evicted, locked, hostLocked]
  cases gone : d.evicted with
  | false => rfl
  | true => rw [backuped gone]

/-- A rewriting of some nodes that no status reads. -/
lemma Exact.quiet (sets : core.Exact dirty)
    (nodes : core'.nodes = (core.modify ids f).nodes) (leaves : core'.leafSets = core.leafSets)
    (same : ∀ d ∈ core.nodes, d.id ∈ ids → deviceReady (f d) = deviceReady d ∧
      hostReady (f d) = hostReady d ∧ (f d).evicted = d.evicted)
    (id : ∀ d, (f d).id = d.id := by intro; rfl)
    (parent : ∀ d, (f d).parent = d.parent := by intro; rfl) : core'.Exact dirty := by
  refine sets.rewrite (nodes.trans (nodes_modify ..)) leaves (fun d => ?_) (fun d => ?_)
    subset_rfl (fun d mem _ => ?_) fun d mem _ => ?_
  · split <;> simp [id]
  · split <;> simp [parent]
  · split
    · exact ⟨(same d mem ‹_›).1, fun _ => (same d mem ‹_›).2.1⟩
    · exact ⟨rfl, fun _ => rfl⟩
  · split
    · exact (same d mem ‹_›).2.2
    · rfl

/-- Replacing an auxiliary component's values. -/
lemma Exact.putAux (sets : core.Exact dirty) (aux : ct ≠ .full)
    (cd : Node π α → ComponentData α)
    (nodes : core'.nodes = (core.modify ids fun d => d.put ct (cd d)).nodes := by rfl)
    (leaves : core'.leafSets = core.leafSets := by rfl)
    (locks : ∀ d, (cd d).lockRef = (d.data ct).lockRef := by intro; rfl)
    (hostLocks : ∀ d, (cd d).hostLockRef = (d.data ct).hostLockRef := by intro; rfl) :
    core'.Exact dirty := by
  apply sets.quiet nodes leaves
  intro d _ _
  have full : (d.put ct (cd d)).data .full = d.data .full :=
    put_data_of_ne d _ (.symm aux)
  refine ready_congr ?_ (fun _ => ?_) (locked_congr (d.put_keeps (·.lockRef) (locks d)))
    (hostLocked_congr (d.put_keeps (·.hostLockRef) (hostLocks d)))
  · rw [evicted, full]
    rfl
  · rw [backuped, full]
    rfl

/-! ### Nodes that come and go -/

/-- Another list of nodes, the same around every clean node. -/
lemma Exact.transfer (sets : core.Exact dirty) (leaves : core'.leafSets = core.leafSets)
    (sub : dirty ⊆ dirty') (own : ∀ d, d.id ∉ dirty' → (d ∈ core'.nodes ↔ d ∈ core.nodes))
    (below : ∀ i ∉ dirty', ∀ p : Bool → Prop, (∀ e ∈ core'.nodes, e.parent = i → p e.evicted) ↔
      ∀ e ∈ core.nodes, e.parent = i → p e.evicted) : core'.Exact dirty' := by
  obtain ⟨device, host⟩ := Prod.mk.inj leaves
  have here : ∀ i ∉ dirty', ∀ p : Node π α → Prop,
      (∃ d ∈ core'.nodes, d.id = i ∧ p d) ↔ ∃ d ∈ core.nodes, d.id = i ∧ p d := fun i clean p =>
    exists_congr fun d => and_congr_left fun named => own d (named.1 ▸ clean)
  constructor
  · intro i clean
    rw [device, sets.device i fun old => clean (sub old), deviceLeaf_iff, deviceLeaf_iff,
      here i clean]
    exact and_congr_right fun _ => (below i clean (· = true)).symm
  · intro i clean
    rw [host, sets.host i fun old => clean (sub old), hostLeaf_iff, hostLeaf_iff, here i clean]
    exact and_congr_right fun _ => (below i clean fun _ => False).symm

/-- Two refreshes clean two nodes. -/
lemma Exact.clean₂ (sets : core.Exact {i, j}) (shape : core.Shape c) :
    ((core.updateEvictableLeafSets i).updateEvictableLeafSets j).Exact ∅ := by
  apply ((sets.update shape i).update (shape.congr rfl rfl) j).mono
  rintro k ⟨⟨rfl | rfl, away⟩, away'⟩
  · exact away rfl
  · exact away' rfl

section

variable (sets : core.Exact ∅)
include sets

lemma Exact.splitNode (shape : core.Shape c) (mem : child ∈ core.nodes)
    (pos : 0 < n) (inside : n < child.key.length) : (core.splitNode c child n).1.Exact ∅ := by
  have shape' := shape.splitNode mem pos inside
  have split : ∀ {e : Node π α}, e ∈ (core.splitNode c child n).1.nodes ↔ _ :=
    shape.mem_splitNode mem
  refine .clean₂ ?_ (shape'.congr rfl rfl)
  refine sets.transfer rfl (empty_subset _) ?_ ?_
  · intro e clean
    simp only [mem_insert_iff, not_or] at clean
    refine split.trans ⟨?_, fun old => .inl ⟨old, clean.2⟩⟩
    rintro (⟨old, -⟩ | rfl | rfl)
    · exact old
    · exact absurd rfl clean.2
    · exact absurd rfl clean.1
  -- the upper half stands for the child below its parent
  · intro i clean p
    simp only [mem_insert_iff, not_or] at clean
    constructor
    · intro all e old under
      by_cases here : e.id = child.id
      · obtain rfl := shape.eq_of_id old mem here
        rw [← evicted_upper c n core.nextId]
        exact all _ (split.mpr (.inr (.inr rfl))) under
      · exact all e (split.mpr (.inl ⟨old, here⟩)) under
    · intro all e new under
      rcases split.mp new with ⟨old, -⟩ | rfl | rfl
      · exact all e old under
      · exact absurd under.symm clean.1
      · rw [evicted_upper]
        exact all child mem under

/-- A new leaf dirties itself and its parent. -/
lemma Exact.cons (nodes : core'.nodes = d :: core.nodes) (leaves : core'.leafSets = core.leafSets) :
    core'.Exact {d.id, d.parent} := by
  refine sets.transfer leaves (empty_subset _) ?_ ?_
  · intro e clean
    simp only [mem_insert_iff, not_or] at clean
    rw [nodes]
    refine mem_cons.trans (or_iff_right ?_)
    rintro rfl
    exact clean.1 rfl
  · intro i clean p
    simp only [mem_insert_iff, not_or] at clean
    rw [nodes]
    exact forall_mem_cons.trans (and_iff_right fun under => absurd under.symm clean.2)

/-! ### Matching and inserting -/

omit sets in
/-- A device value of Full stored on a node dirties it and its parent. -/
lemma Exact.storeFull (sets : core.Exact dirty) (shape : core.Shape c) (mem : d ∈ core.nodes)
    {v : Option (List α)} (nodes : core'.nodes =
      (core.modify [d.id] fun d => d.put .full { d.data .full with value := v }).nodes)
    (leaves : core'.leafSets = core.leafSets) : core'.Exact (dirty ∪ {d.id, d.parent}) := by
  refine sets.rewrite (nodes.trans (nodes_modify ..)) leaves ?_ ?_ Set.subset_union_left ?_ ?_
  · intro e; split <;> rfl
  · intro e; split <;> rfl
  · intro e _ clean
    have away : e.id ≠ d.id := fun same => clean (.inr (.inl same))
    simp [away]
  · intro e old clean
    have away : e.id ≠ d.id := fun same =>
      clean (.inr (.inr (shape.eq_of_id old mem same ▸ rfl)))
    simp [away]

omit sets in
lemma leaves_setComponentDeviceValue (core : Core π α) (i : Nat) (ct : Component) (v : List α) :
    (core.setComponentDeviceValue i ct v).leafSets = core.leafSets := by
  unfold setComponentDeviceValue
  cases core.find? i with
  | none => rfl
  | some d =>
    dsimp only [Option.elim]
    split <;> rfl

lemma Exact.grow (shape : core.Shape c) (edit : Grow c core log core') : core'.Exact ∅ := by
  have shape' := shape.grow edit
  cases edit with
  | split mem pos inside => exact sets.splitNode shape mem pos inside
  | leaf => exact .clean₂ (sets.cons rfl rfl) (shape'.congr rfl rfl)
  | @unevict d v mem =>
    have stored : (if 0 < (d.data .full).lockRef then
        (core.modify [d.id] fun d => d.put .full { d.data .full with value := some v }).addProtected
          .full v.length
        else (core.modify [d.id] fun d =>
          d.put .full { d.data .full with value := some v }).addEvictable .full v.length
        ).Exact {d.id, d.parent} := by
      refine (sets.storeFull shape mem (v := some v) ?_ ?_).mono (Set.empty_union _).subset
      all_goals split <;> rfl
    exact stored.clean₂ (shape'.congr rfl rfl)
  | store mem aux =>
    exact sets.putAux aux _ (nodes_setComponentDeviceValue ..)
      (leaves_setComponentDeviceValue ..)
  | @adopt d v mem resident =>
    apply sets.quiet rfl rfl
    intro e old here
    obtain rfl := shape.eq_of_id old mem (mem_singleton.mp here)
    refine ready_congr ?_ (fun _ => rfl) (locked_congr (e.put_keeps (·.lockRef) (by rfl)))
      (hostLocked_congr (e.put_keeps (·.hostLockRef) (by rfl)))
    rw [resident]
    rfl
  | @note ids f bare =>
    refine sets.quiet rfl rfl (fun d _ _ => ?_) (fun d => (bare d).1) fun d => (bare d).2.1
    simp only [deviceReady, hostReady, evicted, backuped, locked,
      hostLocked, bare, and_self]

theorem Exact.grows (shape : core.Shape c) (edits : Grows c core log core') : core'.Exact ∅ := by
  induction edits with
  | refl => exact sets
  | tail before edit ih => exact ih.grow (shape.grows before) edit

/-! ### Evictions -/

omit sets in
lemma Exact.evictAux (sets : core.Exact dirty) (ct : Component) (aux : ct ≠ .full)
    (ds : List (Node π α)) : (core.evictValues ct ds).Exact dirty :=
  sets.putAux aux fun d => { d.data ct with value := none }

omit sets in
lemma Exact.evictAuxs (sets : core.Exact dirty) (d : Node π α) (cts : List Component)
    (spared : .full ∉ cts) :
    (cts.foldl (fun core ct => core.evictValues ct [d]) core).Exact dirty :=
  foldlRecOn (motive := fun core => Exact core dirty) cts _ sets fun _ sets ct inside =>
    sets.evictAux ct (fun same => spared (same ▸ inside)) [d]

end

/-- Evicting edits that leave the sets right where they were right. -/
structure Cleans (c : Config) (core core' : Core π α) : Prop where
  sheds : Sheds c core core'
  leaves : core.Exact ∅ → core'.Exact ∅

lemma Cleans.refl : Cleans c core core := ⟨.refl, id⟩

lemma Tombstones.cleans (shape : core.Shape c) (gone : Tombstones core core') :
    Cleans c core core' := by
  refine ⟨gone.sheds shape, fun sets => ?_⟩
  induction gone with
  | refl => exact sets
  | tail before last ih =>
    have shape' := shape.sheds (Tombstones.sheds shape before)
    obtain ⟨d, mem, ct, aux, unlocked, inner, ran⟩ := last
    obtain ⟨cts, mid, rfl, spared, rfl, cleared⟩ :=
      evictAndCascade_aux shape' mem aux unlocked inner ran
    exact (ih.evictAuxs d cts spared).refresh (shape'.sheds cleared.sheds) d.id

theorem demote_cleans (shape : core.Shape c) (leaf : (core.find? i).all core.isDeviceLeaf = true)
    (ran : core.demote i = some core') : Cleans c core core' := by
  obtain ⟨d, found, mem, -, both, demoted⟩ := find?_guarded ran
  simp only [Bool.and_eq_true] at both
  obtain ⟨mid', cascaded, rfl⟩ := map_eq_some_iff.mp demoted
  rw [found] at leaf
  obtain ⟨cts, mid, rfl, spared, rfl, cleared, edit⟩ :=
    evictAndCascade_full shape mem leaf both.2 cascaded
  refine ⟨((cleared.sheds.tail edit).tail shed_update).tail shed_update, fun sets => ?_⟩
  have shape' := shape.sheds cleared.sheds
  have dropped : ((cts.foldl (fun core ct => core.evictValues ct [d]) core).evictValues .full
      [d]).Exact (∅ ∪ {(d.clear cts).id, (d.clear cts).parent}) :=
    (sets.evictAuxs d cts spared).storeFull shape' cleared.node
      (by rw [clear_id]; rfl) rfl
  rw [clear_id, clear_parent, Set.empty_union] at dropped
  exact dropped.clean₂ (shape'.shed edit)

/-! ### Deleting nodes -/

/-- Nodes whose status was looked at are clean. -/
lemma Exact.settle (sets : core.Exact dirty)
    (looked : ∀ i ∈ dirty, i ∉ dirty' → (i ∈ core.evictableDeviceLeaves ↔ core.DeviceLeaf i) ∧
      (i ∈ core.evictableHostLeaves ↔ core.HostLeaf i)) : core.Exact dirty' where
  device i clean := by
    by_cases old : i ∈ dirty
    · exact (looked i old clean).1
    · exact sets.device i old
  host i clean := by
    by_cases old : i ∈ dirty
    · exact (looked i old clean).2
    · exact sets.host i old

section

variable (sets : core.Exact dirty)
include sets

/-- A node that is in neither set goes: only its parent's status can change. -/
lemma Exact.removeNode (lone : ∀ e ∈ core.nodes, e.id = d.id → e.parent = d.parent)
    (device : d.id ∉ core.evictableDeviceLeaves) (host : d.id ∉ core.evictableHostLeaves) :
    (core.removeNode d).Exact ((dirty ∪ {d.parent}) \ {d.id}) := by
  have left : ∀ {e}, e ∈ (core.removeNode d).nodes ↔ e ∈ core.nodes ∧ e.id ≠ d.id := by
    simp [Core.removeNode]
  have absent : ∀ e ∈ (core.removeNode d).nodes, e.id ≠ d.id := fun e new => (left.mp new).2
  have moved : (core.removeNode d).Exact (dirty ∪ {d.parent, d.id}) := by
    refine sets.transfer rfl Set.subset_union_left ?_ ?_
    · intro e clean
      exact left.trans (and_iff_left fun same => clean (.inr (.inr same)))
    · intro i clean p
      refine ⟨fun all e old under => all e (left.mpr ⟨old, fun same => ?_⟩) under,
        fun all e new => all e (left.mp new).1⟩
      exact clean (.inr (.inl (under.symm.trans (lone e old same))))
  apply moved.settle
  rintro i inside clean
  obtain rfl : i = d.id := by
    by_contra away
    rcases inside with old | rfl | rfl
    · exact clean ⟨.inl old, away⟩
    · exact clean ⟨.inr rfl, away⟩
    · exact away rfl
  constructor
  · apply iff_of_false device
    rintro ⟨x, mem, named, -⟩
    exact absent x mem named
  · apply iff_of_false host
    rintro ⟨x, mem, named, -⟩
    exact absent x mem named

lemma Exact.discardDeviceLeaf (i : Nat) : (core.discardDeviceLeaf i).Exact (dirty ∪ {i}) where
  device j clean := (Finset.mem_erase.trans (and_iff_right fun same => clean (.inr same))).trans
    (sets.device j fun old => clean (.inl old))
  host j clean := sets.host j fun old => clean (.inl old)

lemma Exact.discardHostLeaf (i : Nat) : (core.discardHostLeaf i).Exact (dirty ∪ {i}) where
  device j clean := sets.device j fun old => clean (.inl old)
  host j clean := (Finset.mem_erase.trans (and_iff_right fun same => clean (.inr same))).trans
    (sets.host j fun old => clean (.inl old))

lemma Exact.forgetNode (lone : ∀ e ∈ core.nodes, e.id = d.id → e.parent = d.parent) :
    (core.forgetNode d).Exact ((dirty ∪ {d.parent}) \ {d.id}) := by
  apply (((sets.discardDeviceLeaf d.id).discardHostLeaf d.id).removeNode lone
    (Finset.notMem_erase d.id _) (Finset.notMem_erase d.id _)).mono
  rintro i ⟨((old | rfl) | rfl) | rfl, away⟩
  · exact ⟨.inl old, away⟩
  · exact absurd rfl away
  · exact absurd rfl away
  · exact ⟨.inr rfl, away⟩

end

/-- Walking up over dead ancestors. The walk starts at a node that may have become a host
leaf; where it does nothing, the sets must be right already. -/
lemma deleteTombstoneAncestors_cleans {fuel : Nat} (shape : core.Shape c) :
    Sheds c core (core.deleteTombstoneAncestors fuel i) ∧
      (core.Exact {i} → core.nodes.length ≤ fuel →
        (i ∈ core.evictableDeviceLeaves → core.DeviceLeaf i) →
        ((∀ d ∈ core.nodes, d.id = i → core.children i = [] → d.locked = false →
          d.hostLocked = false → False) → core.Exact ∅) →
        (core.deleteTombstoneAncestors fuel i).Exact ∅) := by
  induction fuel generalizing core i with
  | zero =>
    refine ⟨.refl, fun _ enough _ settled => settled fun d mem => ?_⟩
    rw [length_eq_zero_iff.mp (Nat.le_zero.mp enough)] at mem
    exact absurd mem not_mem_nil
  | succ fuel ih =>
    unfold Core.deleteTombstoneAncestors
    cases found : core.find? i with
    | none =>
      refine ⟨.refl, fun _ _ _ settled => settled fun d mem named => ?_⟩
      rw [← named, shape.find? mem] at found
      cases found
    | some d =>
      obtain ⟨mem, rfl⟩ := mem_of_find? found
      dsimp only [Option.elim]
      split
      · rename_i blocked
        refine ⟨.refl, fun _ _ _ settled => settled fun e mem' same childless free open_ => ?_⟩
        obtain rfl := shape.eq_of_id mem' mem same
        simp [childless, free, open_] at blocked
      rename_i unblocked
      simp only [Bool.or_eq_true, not_or, Bool.not_eq_true, Bool.not_eq_false',
        List.isEmpty_iff] at unblocked
      obtain ⟨⟨childless, free⟩, -⟩ := unblocked
      split
      · exact ⟨.single shed_update, fun sets _ _ _ => sets.clean shape⟩
      rename_i gone
      have cleared := cleanTombstone_sheds shape mem free
      have shape' := shape.sheds cleared.sheds
      have cleaned : core.Exact {d.id} → _ := fun sets =>
        (sets.evictAux .swa (by decide) [d]).evictAux .mamba (by decide) [d]
      split
      · exact ⟨cleared.sheds.tail shed_update, fun sets _ _ _ => (cleaned sets).clean shape'⟩
      have edits := removeTombstone_sheds shape mem free childless
      have more := edits.tail (shed_update (i := d.parent))
      obtain ⟨above, settles⟩ := ih (i := d.parent) (shape.sheds more)
      refine ⟨more.trans above, fun sets enough device _ => ?_⟩
      have out : d.id ∉ core.evictableDeviceLeaves := by
        intro inside
        obtain ⟨⟨e, mem', same, ready⟩, -⟩ := deviceLeaf_iff.mp (device inside)
        obtain rfl := shape.eq_of_id mem' mem same
        simp only [deviceReady, Bool.and_eq_true] at ready
        exact gone ready.1
      have removed := ((cleaned sets).discardHostLeaf d.id).removeNode
        (d := dropValue .swa (dropValue .mamba d))
        (fun e inside same => ?_) out (Finset.notMem_erase d.id _)
      swap
      · rw [shape'.eq_of_id inside cleared.node same]
        rfl
      have once := Exact.clean (i := d.parent) (removed.mono ?_) (shape.sheds edits)
      · refine settles (once.mono (empty_subset _)) ?_ (once.device _ (by simp)).mp fun _ => once
        have fewer := (length_filter_lt_length_iff_exists
          (p := fun e => decide (e.id ≠ d.id))).mpr ⟨_, cleared.node, by simp⟩
        have same : ((core.evictValues .swa [d]).evictValues .mamba [d]).nodes.length =
            core.nodes.length := (length_map _).trans (length_map _)
        exact Nat.le_of_lt_succ (fewer.trans_le (same.trans_le enough))
      · rintro j ⟨(rfl | rfl) | rfl, away⟩
        · exact absurd rfl away
        · exact absurd rfl away
        · exact rfl

/-- A node is forgotten, its parent refreshed, and the dead ancestors go. -/
lemma deleteUnbackedDeviceLeaf_cleans (shape : core.Shape c) (mem : d ∈ core.nodes)
    (unlocked : d.locked = false) (childless : core.children d.id = []) :
    Sheds c core (core.deleteUnbackedDeviceLeaf d) ∧
      (core.Exact {d.id} → (core.deleteUnbackedDeviceLeaf d).Exact ∅) := by
  have edits := forgetNode_sheds (c := c) mem unlocked childless
  have more := edits.tail (shed_update (i := d.parent))
  obtain ⟨above, settles⟩ := deleteTombstoneAncestors_cleans (i := d.parent) (shape.sheds more)
  refine ⟨more.trans above, fun sets => ?_⟩
  have forgotten := sets.forgetNode fun e old same => by
    rw [shape.eq_of_id old mem same]
  have parent : (core.forgetNode d).Exact {d.parent} := forgotten.mono ?_
  · have once := parent.clean (shape.sheds edits)
    exact settles (once.mono (empty_subset _)) le_rfl (once.device _ (by simp)).mp fun _ => once
  · rintro j ⟨rfl | rfl, away⟩
    · exact absurd rfl away
    · rfl

/-- A device leaf without a host copy must have no children when it is deleted. -/
theorem evictDeviceLeaf_cleans (shape : core.Shape c) {isWriteBack : Bool}
    {action : Option (Action α)}
    (childless : ∀ d ∈ core.nodes, d.backuped = false → isWriteBack = false →
      core.isDeviceLeaf d = true → core.children d.id = [])
    (ran : core.evictDeviceLeaf i isWriteBack = some (core', action)) : Cleans c core core' := by
  obtain ⟨d, mem, -, leaf, found, ⟨demoted, -⟩ | rfl | ⟨unbacked, through, rfl, -⟩⟩ :=
    evictDeviceLeaf_cases ran
  · exact demote_cleans shape (by rw [found]; exact leaf) demoted
  · exact .refl
  · obtain ⟨-, free, -⟩ := isDeviceLeaf_iff.mp leaf
    obtain ⟨edits, settles⟩ := deleteUnbackedDeviceLeaf_cleans shape mem free
      (childless d mem unbacked through leaf)
    exact ⟨edits, fun sets => settles (sets.mono (empty_subset _))⟩

/-- Forgetting nodes, children first, leaves the parents outside the list to refresh. -/
lemma Exact.forgetNodes (sets : core.Exact dirty)
    (lone : ∀ x ∈ xs, ∀ e ∈ core.nodes, e.id = x.id → e.parent = x.parent)
    (order : xs.Pairwise fun x y => y.parent ≠ x.id ∧ y.id ≠ x.id) :
    (xs.foldl Core.forgetNode core).Exact
      {i | (i ∈ dirty ∨ ∃ x ∈ xs, x.parent = i) ∧ ∀ x ∈ xs, i ≠ x.id} := by
  induction xs generalizing core dirty with
  | nil => exact sets.mono fun i old => ⟨.inl old, by simp⟩
  | cons x xs ih =>
    obtain ⟨later, order⟩ := pairwise_cons.mp order
    have kept : ∀ e ∈ (core.forgetNode x).nodes, e ∈ core.nodes := fun e new =>
      (mem_filter.mp new).1
    apply (ih (sets.forgetNode (lone x mem_cons_self)) (fun y after e new =>
      lone y (mem_cons_of_mem _ after) e (kept e new)) order).mono
    rintro i ⟨⟨old | rfl, away⟩ | ⟨y, after, rfl⟩, others⟩
    · exact ⟨.inl old, forall_mem_cons.mpr ⟨away, others⟩⟩
    · exact ⟨.inr ⟨x, mem_cons_self, rfl⟩, forall_mem_cons.mpr ⟨away, others⟩⟩
    · exact ⟨.inr ⟨y, mem_cons_of_mem _ after, rfl⟩,
        forall_mem_cons.mpr ⟨(later y after).1, others⟩⟩

/-- The parent of a node below `i` is `i` or below it. -/
lemma Shape.parent_descendants (shape : core.Shape c) (below : e ∈ core.descendants i) :
    e.parent = i ∨ ∃ x ∈ core.descendants i, x.id = e.parent := by
  obtain ⟨mem, above⟩ := mem_filter.mp below
  have above : i ∈ links.tags (core.spine e.parent) := of_decide_eq_true above
  rcases shape.rooted.up_mem mem with top | inside
  · have top : e.parent = 0 := top
    rw [spine, top, show 0 = links.root (δ := Node π α) from rfl,
      shape.rooted.spine_root] at above
    exact absurd above not_mem_nil
  · obtain ⟨p, mem', named⟩ := mem_map.mp inside
    have named : p.id = e.parent := named
    rw [← named, shape.spine_id mem'] at above
    rcases mem_cons.mp above with here | further
    · exact .inl (named.symm.trans here.symm)
    · exact .inr ⟨p, mem_filter.mpr ⟨mem', decide_eq_true further⟩, named⟩

section

variable (shape : core.Shape c)
include shape

theorem dropSubtreeNoHost_cleans {dropped : Bool}
    (ran : core.dropSubtreeNoHost i = some (core', dropped)) : Cleans c core core' := by
  obtain rfl | ⟨d, mem, rfl, free, unlocked, rfl⟩ := dropSubtreeNoHost_cases ran
  · exact .refl
  obtain ⟨edits, survives, childless⟩ := forgetDescendants_sheds shape mem unlocked
  obtain ⟨more, settles⟩ :=
    deleteUnbackedDeviceLeaf_cleans (shape.sheds edits) survives free childless
  refine ⟨edits.trans more, fun sets => settles ?_⟩
  have part : ∀ x ∈ core.descendants d.id, x ∈ core.nodes := fun x inside =>
    (mem_filter.mp inside).1
  apply (sets.forgetNodes
    (fun x inside e old same => by rw [shape.eq_of_id old (part x inside) same])
    shape.descendants).mono
  rintro j ⟨old | ⟨x, inside, rfl⟩, others⟩
  · exact absurd old (notMem_empty j)
  · rcases shape.parent_descendants inside with here | ⟨y, above, named⟩
    · exact here
    · exact absurd named.symm (others y above)

/-! ### The host tier -/

lemma evictHostLeaf_cleans (ran : core.evictHostLeaf i = some core') : Cleans c core core' := by
  obtain ⟨d, -, mem, rfl, leaf, ran⟩ := find?_guarded ran
  cases ran
  obtain ⟨evicted, -, -, free, childless⟩ := isHostLeaf_iff.mp leaf
  have edits : Sheds c core ((core.discardHostLeaf d.id).removeNode d) :=
    (Relation.ReflTransGen.single shed_discardHostLeaf).tail (.remove mem free childless)
  obtain ⟨above, settles⟩ := deleteTombstoneAncestors_cleans (i := d.parent) (shape.sheds edits)
  refine ⟨edits.trans above, fun sets => ?_⟩
  have up := shape.rooted.up_ne_tag mem
  have out : d.id ∉ core.evictableDeviceLeaves := by
    rw [sets.device _ (notMem_empty _), deviceLeaf_iff]
    rintro ⟨⟨e, mem', same, ready⟩, -⟩
    obtain rfl := shape.eq_of_id mem' mem same
    simp [deviceReady, evicted] at ready
  have removed : ((core.discardHostLeaf d.id).removeNode d).Exact {d.parent} := by
    refine ((sets.discardHostLeaf d.id).removeNode (fun e old same => ?_) out
      (Finset.notMem_erase d.id _)).mono ?_
    · rw [shape.eq_of_id old mem same]
    · rintro j ⟨(old | rfl) | rfl, away⟩
      · exact absurd old (notMem_empty j)
      · exact absurd rfl away
      · rfl
  have left : ∀ {e}, e ∈ ((core.discardHostLeaf d.id).removeNode d).nodes ↔
      e ∈ core.nodes ∧ e.id ≠ d.id := by
    simp [Core.removeNode, Core.discardHostLeaf]
  -- the parent loses no child on the device, so it stays the device leaf it was
  have device : d.parent ∈ core.evictableDeviceLeaves ↔
      ((core.discardHostLeaf d.id).removeNode d).DeviceLeaf d.parent := by
    rw [sets.device _ (notMem_empty _), deviceLeaf_iff, deviceLeaf_iff]
    refine and_congr (exists_congr fun e => ?_) ⟨fun all e new => all e (left.mp new).1, ?_⟩
    · rw [left]
      constructor
      · rintro ⟨old, named, ready⟩
        exact ⟨⟨old, fun same => up (named.symm.trans same)⟩, named, ready⟩
      · rintro ⟨new, named, ready⟩
        exact ⟨new.1, named, ready⟩
    · intro all e old under
      by_cases same : e.id = d.id
      · exact shape.eq_of_id old mem same ▸ evicted
      · exact all e (left.mpr ⟨old, same⟩) under
  apply settles removed le_rfl device.mp
  intro stuck
  apply removed.settle
  intro j here _
  obtain rfl : j = d.parent := here
  refine ⟨device, iff_of_false ?_ ?_⟩
  · intro inside
    have was := (sets.host _ (notMem_empty _)).mp (Finset.mem_of_mem_erase inside)
    exact (hostLeaf_iff.mp was).2 d mem rfl
  · rintro ⟨p, mem', named, leaf'⟩
    obtain ⟨-, -, open_, free', childless'⟩ := isHostLeaf_iff.mp leaf'
    exact stuck p mem' named (named ▸ childless') free' open_

lemma tombstoneHost_cleans (ran : core.tombstoneHost ct i = some core') : Cleans c core core' := by
  obtain ⟨d, -, mem, rfl, spare, ran⟩ := find?_guarded ran
  cases ran
  have first : Shed c core (core.modify [d.id] (dropHost ct)) :=
    .dropHost mem fun full => absurd full spare.1
  have second : Shed c (core.modify [d.id] (dropHost ct))
      ((core.modify [d.id] (dropHost ct)).modify [d.id] (dropHost .mamba)) :=
    .dropHost (d := dropHost ct d) ((shape.mem_modify mem).mpr (.inr rfl)) (by simp)
  have edits := (Relation.ReflTransGen.single first).tail second
  have dropped : core.Exact ∅ →
      ((core.modify [d.id] (dropHost ct)).modify [d.id] (dropHost .mamba)).Exact ∅ := fun sets =>
    (sets.putAux spare.1 fun d => { d.data ct with hostValue := none }).putAux
      (show Component.mamba ≠ .full by decide) fun d => { d.data .mamba with hostValue := none }
  rw [modify_modify [d.id] (dropHost ct) (dropHost .mamba) fun _ => rfl] at edits dropped
  exact ⟨edits.tail shed_update, fun sets => (dropped sets).refresh (shape.sheds edits) d.id⟩

omit shape in
/-- The Full host copy of a node on the device: no status reads it. -/
lemma Exact.putFullHost (sets : core.Exact dirty) (shape : core.Shape c) (mem : d ∈ core.nodes)
    (v : Option (List α)) (same : d.evicted = true → v.isSome = d.backuped) :
    (core.modify [d.id] fun d => d.put .full { d.data .full with hostValue := v }).Exact dirty := by
  apply sets.quiet rfl rfl
  intro e old here
  obtain rfl := shape.eq_of_id old mem (mem_singleton.mp here)
  exact ready_congr rfl same (locked_congr (e.put_keeps (·.lockRef) (by rfl)))
    (hostLocked_congr (e.put_keeps (·.hostLockRef) (by rfl)))

lemma releaseFullHostDuplicate_cleans (writeBack : c.isWriteBack = true)
    (ran : core.releaseFullHostDuplicate i = some core') : Cleans c core core' := by
  obtain ⟨d, -, mem, rfl, spare, ran⟩ := find?_guarded ran
  simp only [Bool.and_eq_true] at spare
  cases ran
  have device : d.evicted = false := by simpa using spare.1.1.1
  exact ⟨.single (.dropHost mem fun _ => ⟨writeBack, device⟩), fun sets =>
    sets.putFullHost shape mem none fun gone => absurd gone (by simp [device])⟩

lemma commitBackup_cleans (live : ∀ d ∈ core.nodes, d.evicted = false ∨ d.backuped = true)
    {backup : Backup α} (fits : backup.Fits c core i)
    (ran : core.commitBackup i backup = some core') : Cleans c core core' := by
  refine ⟨commitBackup_sheds fits ran, fun sets => ?_⟩
  have put : ∀ {ct : Component}, ct ≠ .full → ∀ i v (now : Core π α),
      now.Exact ∅ → (now.modify [i] (putHost ct v)).Exact ∅ := fun aux i v now sets =>
    sets.putAux aux fun d => { d.data _ with hostValue := some v }
  refine commitBackup_induct ran sets ?_ (fun _ _ w _ _ => put (by decide) w.1 w.2)
    fun _ _ _ => put (by decide) i
  rintro d mem rfl v -
  exact sets.putFullHost shape mem (some v) fun gone =>
    ((live d mem).resolve_left (by simp [gone])).symm

end

/-! ### Locks -/

lemma locked_lower (held_ : d.id ∈ ids → 1 < (d.data ct).lockRef) :
    (lower ct ids d).locked = d.locked := by
  unfold lower
  split
  · rename_i inside
    have more := held_ inside
    rw [locked_of_lockRef (Nat.zero_lt_of_lt more)]
    have pos : 0 < ((unlockNode ct d).data ct).lockRef := by
      rw [unlockNode, put_data_self]
      exact Nat.sub_pos_of_lt more
    exact locked_of_lockRef pos
  · rfl

/-- What the lock counters do not touch. -/
lemma hostLocked_lower (ids : List Nat) : (lower ct ids d).hostLocked = d.hostLocked :=
  hostLocked_congr fun ct' => d.putIf_keeps (·.hostLockRef) (by rfl) ct' _

lemma hostLocked_raise (ids : List Nat) : (raise ct ids d).hostLocked = d.hostLocked :=
  hostLocked_congr fun ct' => d.putIf_keeps (·.hostLockRef) (by rfl) ct' _

lemma locked_raise (on : d.id ∈ ids) : (raise ct ids d).locked = true := by
  have pos : 0 < ((raise ct ids d).data ct).lockRef := by
    rw [raise_lockRef, if_pos ⟨rfl, on⟩]
    exact Nat.succ_pos _
  exact locked_of_lockRef pos

/-- Each last release refreshes its node. -/
lemma Exact.releaseOn (sets : core.Exact ∅) (shape : core.Shape c)
    (inside : seg ⊆ core.nodes) (ran : core.releaseOn ct seg = some core') : core'.Exact ∅ := by
  unfold Core.releaseOn at ran
  split at ran
  swap
  · cases ran
  rename_i counted
  cases ran
  have touched := touches_lower (π := π) (α := α) ct (links.tags seg)
  have lowered : (((core.modify (links.tags seg) (unlockNode ct)).addEvictable ct
      (tokensAt ct 1 seg)).addProtected ct (-tokensAt ct 1 seg)).Exact
      {i | i ∈ links.tags (seg.filter fun d => decide ((d.data ct).lockRef = 1))} := by
    refine sets.rewrite rfl rfl touched.id touched.parent
      (empty_subset _) (fun d mem clean => ?_) fun d _ _ => touched.evicted d
    have locked : (lower ct (links.tags seg) d).locked = d.locked :=
      locked_lower fun covered => shape.one_lt_of_clean inside counted mem covered clean
    obtain ⟨device, host, -⟩ := ready_congr (touched.evicted d) (fun _ => touched.backuped d)
      locked (hostLocked_lower _)
    exact ⟨device, fun _ => host⟩
  exact lowered.updateAll (shape.touch touched rfl rfl) fun _ opened => opened

lemma Exact.releases (sets : core.Exact ∅) (shape : core.Shape c)
    (edits : Releases c core core') : core'.Exact ∅ := by
  induction edits with
  | refl => exact sets
  | tail before edit ih =>
    have shape' := shape.relocks (Releases.relocks shape before)
    cases edit with
    | release inside _ ran => exact ih.releaseOn shape' inside ran
    | update => exact ih.refresh shape' _
    | drop => exact ih.evictAux .swa (by decide) _

/-- A further lock on locked nodes. -/
lemma Exact.acquireLocked (sets : core.Exact dirty) (ct : Component)
    (held_ : ∀ d ∈ core.nodes, d.id ∈ links.tags seg → d.locked = true) :
    (core.acquireOn ct seg).Exact dirty := by
  have touched := touches_raise (π := π) (α := α) ct (links.tags seg)
  refine sets.rewrite (nodes_acquireOn ..) rfl touched.id touched.parent subset_rfl
    (fun d mem _ => ?_) fun d _ _ => touched.evicted d
  have locked : (raise ct (links.tags seg) d).locked = d.locked := by
    by_cases on : d.id ∈ links.tags seg
    · rw [held_ d mem on]
      exact locked_raise on
    · rw [raise, if_neg on]
  obtain ⟨device, host, -⟩ := ready_congr (touched.evicted d) (fun _ => touched.backuped d)
    locked (hostLocked_raise _)
  exact ⟨device, fun _ => host⟩

/-- A node above the bottom of a path has a child. -/
lemma Shape.exists_child (shape : core.Shape c) (on : d ∈ core.spine i) (above : d.id ≠ i) :
    ∃ e ∈ core.nodes, e.parent = d.id := by
  have here : i ∈ links.tags core.nodes := by
    by_contra absent
    rw [spine, Links.spine_of_not_mem absent] at on
    exact not_mem_nil on
  obtain ⟨e, path, under⟩ :=
    shape.rooted.child_on_spine (.inr here) (.inr (Links.mem_tags on)) above
  exact ⟨e, Links.mem_of_mem_spine path, under⟩

/-- Locking a path: the nodes on the device leave the device leaves, and of the others only
the bottom can have been a host leaf. -/
lemma Exact.acquireFull (sets : core.Exact ∅) (shape : core.Shape c)
    (ran : core.acquireFull i = some core') : core'.Exact {i} := by
  unfold Core.acquireFull at ran
  dsimp only at ran
  split at ran
  swap
  · cases ran
  cases ran
  have touched := touches_raise (π := π) (α := α) .full (links.tags (core.spine i))
  have raised : (core.acquireOn .full (core.spine i)).Exact {j | j ∈ links.tags (core.spine i)} := by
    refine sets.rewrite (nodes_acquireOn ..) rfl touched.id touched.parent
      (empty_subset _) (fun d _ clean => ?_) fun d _ _ => touched.evicted d
    rw [raise, if_neg (show d.id ∉ links.tags (core.spine i) from clean)]
    exact ⟨rfl, fun _ => rfl⟩
  have away : ∀ j ∉ links.tags (core.spine i),
      j ∉ (links.tags ((core.spine i).dropWhile evicted)).toFinset := by
    intro j clean inside
    obtain ⟨d, on, named⟩ := mem_map.mp (mem_toFinset.mp inside)
    exact clean (mem_map.mpr ⟨d, (dropWhile_sublist _).subset on, named⟩)
  have cleared : ({ core.acquireOn .full (core.spine i) with evictableDeviceLeaves :=
      (core.acquireOn .full (core.spine i)).evictableDeviceLeaves \
        (links.tags ((core.spine i).dropWhile evicted)).toFinset } : Core π α).Exact
      {j | j ∈ links.tags (core.spine i)} :=
    ⟨fun j clean => (Finset.mem_sdiff.trans (and_iff_left (away j clean))).trans
      (raised.device j clean), raised.host⟩
  apply cleared.settle
  intro j on above
  obtain ⟨e, path, rfl⟩ := mem_map.mp on
  have mem := Links.mem_of_mem_spine path
  -- every node of the path is locked now
  have locked : ∀ x ∈ (core.acquireOn .full (core.spine i)).nodes, x.id = e.id →
      x.locked = true := by
    intro x new same
    rw [nodes_acquireOn] at new
    obtain ⟨y, old, rfl⟩ := mem_map.mp new
    rw [touched.id] at same
    obtain rfl := shape.eq_of_id old mem same
    exact locked_raise on
  refine ⟨iff_of_false ?_ ?_, iff_of_false ?_ ?_⟩
  · intro inside
    obtain ⟨old, kept⟩ := Finset.mem_sdiff.mp inside
    obtain ⟨⟨x, mem', same, ready⟩, -⟩ :=
      deviceLeaf_iff.mp ((sets.device _ (notMem_empty _)).mp old)
    obtain rfl := shape.eq_of_id mem' mem same
    simp only [deviceReady, Bool.and_eq_true, Bool.not_eq_true'] at ready
    refine kept (mem_toFinset.mpr (mem_map.mpr ⟨x, ?_, rfl⟩))
    have parts := takeWhile_append_dropWhile (p := evicted) (l := core.spine i)
    rcases mem_append.mp (parts ▸ path) with low | high
    · exact absurd (all_eq_true.mp all_takeWhile x low) (by simp [ready.1])
    · exact high
  · rintro ⟨x, new, same, leaf⟩
    have free := (isDeviceLeaf_iff.mp leaf).2.1
    rw [locked x new same] at free
    cases free
  · intro inside
    have was := (hostLeaf_iff.mp ((sets.host _ (notMem_empty _)).mp inside)).2
    obtain ⟨x, mem', under⟩ := shape.exists_child path above
    exact was x mem' under
  · rintro ⟨x, new, same, leaf⟩
    have free := (isHostLeaf_iff.mp leaf).2.2.2.1
    rw [locked x new same] at free
    cases free

/-- Every node of a path is locked. -/
def PathHeld (core : Core π α) (i : Nat) : Prop := ∀ d ∈ core.spine i, d.locked = true

lemma PathHeld.map (path : core.PathHeld i) (touches : Touches f)
    (nodes : core'.nodes = core.nodes.map f)
    (more : ∀ d ct, (d.data ct).lockRef ≤ ((f d).data ct).lockRef) : core'.PathHeld i := by
  intro e on
  rw [spine_map nodes touches.id touches.parent] at on
  obtain ⟨d, old, rfl⟩ := mem_map.mp on
  obtain ⟨ct, -, locked⟩ := any_eq_true.mp (path d old)
  exact locked_of_lockRef ((of_decide_eq_true locked).trans_le (more d ct))

section

variable (sets : core.Exact dirty)
include sets

/-- A lock of another component on part of a held path. -/
lemma Exact.acquirePart (shape : core.Shape c) (path : core.PathHeld i)
    (part : seg.Sublist (core.spine i)) (ct : Component) :
    (core.acquireOn ct seg).Exact dirty ∧ (core.acquireOn ct seg).PathHeld i := by
  refine ⟨sets.acquireLocked ct fun d mem covered => ?_,
    path.map (touches_raise ..) (nodes_acquireOn ..) fun d ct' => ?_⟩
  · obtain ⟨e, on, named⟩ := mem_map.mp covered
    obtain rfl := shape.eq_of_id (Links.mem_of_mem_spine (part.subset on)) mem named
    exact path e (part.subset on)
  · rw [raise_lockRef]
    exact Nat.le_add_right _ _

lemma Exact.stamp (i u : Nat) :
    ({ core.modify [i] (stampNode u) with nextUuid := u } : Core π α).Exact dirty :=
  sets.putAux (show Component.swa ≠ .full by decide) fun d => { d.data .swa with uuid := some u }

lemma Exact.lockSwa (shape : core.Shape c) (path : core.PathHeld i) (skip : List Component) :
    (core.lockSwa c i skip).1.Exact dirty ∧ (core.lockSwa c i skip).1.PathHeld i := by
  unfold Core.lockSwa
  split
  swap
  · exact ⟨sets, path⟩
  obtain ⟨window, path'⟩ :=
    sets.acquirePart shape path (windowSegment_isPrefix 0 (core.spine i)).sublist .swa
  unfold acquireSwa
  dsimp only
  cases windowBoundary c 0 (core.spine i) with
  | none => exact ⟨window, path'⟩
  | some boundary =>
    dsimp only
    cases (boundary.data .swa).uuid with
    | some u => exact ⟨window, path'⟩
    | none =>
      exact ⟨window.stamp boundary.id _, path'.map (touches_stamp boundary.id _) rfl fun d ct =>
        (stamp_lockRef ..).ge⟩

end

lemma Exact.incLockRef (sets : core.Exact ∅) (shape : core.Shape c) {skip : List Component}
    {receipt : Receipt} (whole : .full ∉ skip)
    (ran : core.incLockRef c i skip = some (core', receipt)) : core'.Exact ∅ := by
  have shape' := shape.relocks (incLockRef_relocks shape ran)
  unfold Core.incLockRef at ran
  split at ran
  swap
  · cases ran
  obtain ⟨core₁, locked, out⟩ := map_eq_some_iff.mp ran
  cases out
  have raises := lockFull_raises locked
  have path : core₁.PathHeld i := by
    obtain ⟨f, nodes, touches, count, -⟩ := raises.nodes
    intro e on
    rw [spine_map nodes touches.id touches.parent] at on
    obtain ⟨d, old, rfl⟩ := mem_map.mp on
    have counted : d.id ∈ if Component.full = .full ∧ .full ∉ skip then links.tags (core.spine i)
        else [] := by
      rw [if_pos ⟨rfl, whole⟩]
      exact Links.mem_tags old
    have pos : 0 < ((f d).data .full).lockRef := by
      rw [count, if_pos counted]
      exact Nat.succ_pos _
    exact locked_of_lockRef pos
  rw [lockFull, if_neg whole] at locked
  have shape₁ := raises.shape shape
  obtain ⟨window, path'⟩ := (sets.acquireFull shape locked).lockSwa shape₁ path skip
  refine .clean ?_ (shape'.congr rfl rfl)
  unfold lockMamba
  split
  · exact (window.acquirePart (shape₁.relocks (lockSwa_relocks shape₁ i skip)) path'
      (take_sublist 1 _) .mamba).1
  · exact window

/-! ### Load-backs -/

/-- What loading a node comes to: the value is stored and the node refreshed. -/
lemma Shape.loadFull_stored (shape : core.Shape c) (mem : d ∈ core.nodes) (v : List α) :
    ∃ stored : Core π α, core.loadFull d.id v = stored.updateEvictableLeafSets d.id ∧ stored.nodes =
        (core.modify [d.id] fun d => d.put .full { d.data .full with value := some v }).nodes ∧
      stored.leafSets = core.leafSets := by
  refine ⟨if 0 < (d.data .full).lockRef then
      (core.modify [d.id] fun d => d.put .full { d.data .full with value := some v }).addProtected
        .full v.length
    else (core.modify [d.id] fun d =>
      d.put .full { d.data .full with value := some v }).addEvictable .full v.length, ?_, ?_, ?_⟩
  · rw [loadFull, shape.find? mem]
    rfl
  all_goals split <;> rfl

/-- A loaded node is refreshed and its parent is not: the parent must not be among the
device leaves. -/
lemma Exact.loadFull (sets : core.Exact ∅) (shape : core.Shape c) (mem : d ∈ core.nodes)
    {v : List α} (shape' : (core.loadFull d.id v).Shape c)
    (out : d.parent ∉ core.evictableDeviceLeaves) : (core.loadFull d.id v).Exact ∅ := by
  have loaded : ∃ e ∈ (core.loadFull d.id v).nodes, e.parent = d.parent ∧ e.evicted = false :=
    ⟨_, shape.loadFull_self mem, rfl, by simp [evicted]⟩
  obtain ⟨stored, same, nodes, leaves⟩ := shape.loadFull_stored mem v
  have away : d.parent ≠ d.id := shape.rooted.up_ne_tag mem
  rw [same] at shape' loaded ⊢
  have dirtied := sets.storeFull shape mem nodes leaves
  obtain ⟨device, host⟩ := Prod.mk.inj leaves
  apply (dirtied.update (shape'.congr rfl rfl) d.id).settle
  intro j dirty _
  obtain rfl : j = d.parent := by
    obtain ⟨old | rfl | rfl, other⟩ := dirty
    · exact absurd old (notMem_empty j)
    · exact absurd rfl other
    · rfl
  obtain ⟨e, child, under, resident⟩ := loaded
  obtain ⟨inDevice, inHost⟩ := mem_update_of_ne stored away
  refine ⟨iff_of_false ?_ ?_, iff_of_false ?_ ?_⟩
  · rw [inDevice, device]
    exact out
  · intro leaf
    have gone := (deviceLeaf_iff.mp leaf).2 e child under
    rw [resident] at gone
    cases gone
  · rw [inHost, host, sets.host _ (notMem_empty _)]
    exact fun leaf => (hostLeaf_iff.mp leaf).2 d mem rfl
  · exact fun leaf => (hostLeaf_iff.mp leaf).2 e child under

/-- What a load-back needs of the device leaves: the parent of each loaded node is locked, or
it is neither a device leaf nor loaded itself. -/
def LoadBack.Covered (core : Core π α) (full : List (Nat × List α)) : Prop :=
  ∀ w ∈ full, ∀ d ∈ core.nodes, d.id = w.1 → (∃ p ∈ core.nodes, p.id = d.parent ∧ p.locked = true) ∨
      d.parent ∉ core.evictableDeviceLeaves ∧ d.parent ∉ full.map Prod.fst

/-- The chain of a load-back is loaded from the root side on. -/
lemma foldl_loadFull {above : Nat} (shape : core.Shape c) (under : core.Resident above)
    (chain : Chained c core above full) (distinct : (full.map Prod.fst).Nodup) :
    Loads c core (full.foldl (fun core w => core.loadFull w.1 w.2) core) ∧
      Carries [.full] core (full.foldl (fun core w => core.loadFull w.1 w.2) core) ∧
      (∀ w ∈ full, (full.foldl (fun core w => core.loadFull w.1 w.2) core).Resident w.1) ∧
      (core.Exact ∅ → LoadBack.Covered core full →
        (full.foldl (fun core w => core.loadFull w.1 w.2) core).Exact ∅) := by
  induction full generalizing core above with
  | nil => exact ⟨.refl, .refl, by simp, fun sets _ => sets⟩
  | cons w full ih =>
    obtain ⟨⟨d, mem, named, parent, evicted, sized⟩, chain⟩ := chain
    obtain ⟨fresh, distinct⟩ := nodup_cons.mp distinct
    rw [← named] at fresh
    have edit : Load c core (core.loadFull d.id w.2) := .full mem evicted (parent ▸ under) sized
    have loaded : (core.loadFull d.id w.2).Resident d.id :=
      .inr ⟨_, shape.loadFull_self mem, rfl, by simp [Node.evicted]⟩
    obtain ⟨rest, kept, residents, settled⟩ :=
      ih (shape.load edit) loaded (named ▸ chain |>.loadFull shape mem fresh) distinct
    have stored : Carries [.full] core (core.loadFull d.id w.2) :=
      carries_store ((nodes_loadFull ..).trans (nodes_setComponentDeviceValue ..))
    rw [foldl_cons, ← named]
    refine ⟨.head edit rest, stored.trans kept _ (by simp) (by simp),
      forall_mem_cons.mpr ⟨named ▸ kept.resident loaded, residents⟩, fun sets covered => ?_⟩
    have out : d.parent ∉ core.evictableDeviceLeaves := by
      rcases covered w mem_cons_self d mem named with ⟨p, mem', above_, locked⟩ | ⟨out, -⟩
      · rw [sets.device _ (notMem_empty _)]
        rintro ⟨q, inside, same, leaf⟩
        obtain rfl := shape.eq_of_id inside mem' (same.trans above_.symm)
        rw [(isDeviceLeaf_iff.mp leaf).2.1] at locked
        cases locked
      · exact out
    apply settled (sets.loadFull shape mem (shape.load edit) out)
    intro w' later e new here
    have away : e.id ≠ d.id := fun same =>
      fresh (same ▸ here ▸ mem_map_of_mem later)
    have old : e ∈ core.nodes := by
      rw [nodes_loadFull, nodes_setComponentDeviceValue] at new
      rcases (shape.mem_modify mem).mp new with ⟨old, -⟩ | rfl
      · exact old
      · exact absurd rfl away
    rcases covered w' (mem_cons_of_mem _ later) e old here with
      ⟨p, mem', above_, locked⟩ | ⟨out, unloaded⟩
    · left
      by_cases same : p.id = d.id
      · obtain rfl := shape.eq_of_id mem' mem same
        refine ⟨_, shape.loadFull_self mem', above_, ?_⟩
        exact locked
      · exact ⟨p, shape.loadFull_of_ne mem mem' same, above_, locked⟩
    · right
      simp only [map_cons, mem_cons, not_or] at unloaded
      obtain ⟨stored, same, -, leaves⟩ := shape.loadFull_stored mem w.2
      refine ⟨?_, unloaded.2⟩
      rw [same, (mem_update_of_ne stored (named ▸ unloaded.1)).1, (Prod.mk.inj leaves).1]
      exact out

lemma Exact.storeAll (sets : core.Exact dirty) (ct : Component) (aux : ct ≠ .full)
    (ws : List (Nat × List α)) :
    (ws.foldl (fun core w => core.setComponentDeviceValue w.1 ct w.2) core).Exact dirty :=
  foldlRecOn (motive := fun core => Exact core dirty) ws _ sets fun _ sets _ _ =>
    sets.putAux aux _ (nodes_setComponentDeviceValue ..) (leaves_setComponentDeviceValue ..)

/-- The pins of a load-back are read by no status. -/
lemma Exact.pinLoads (sets : core.Exact ∅) (shape : core.Shape c) (anchor : Nat)
    (covered : LoadBack.Covered core full) (ids : List Nat) :
    (Core.pinLoads c core anchor ids).Exact ∅ ∧
      LoadBack.Covered (Core.pinLoads c core anchor ids) full := by
  unfold Core.pinLoads
  split
  swap
  · exact ⟨sets, covered⟩
  refine ⟨sets.grow shape (.note fun _ => ⟨rfl, rfl, rfl, rfl⟩), ?_⟩
  have same := bare_ite ids (f := fun d : Node π α => { d with loadBackPendingId := some anchor })
    fun _ => ⟨rfl, rfl, rfl, rfl⟩
  intro w inside e new here
  obtain ⟨d, old, rfl⟩ := mem_map.mp new
  rw [(same d).1] at here
  rw [(same d).2.1]
  apply (covered w inside d old here).imp_left
  rintro ⟨p, mem, above, locked⟩
  refine ⟨_, mem_map_of_mem mem, (same p).1.trans above, ?_⟩
  rw [Node.locked, (same p).2.2.2]
  exact locked

/-- A load-back is a sequence of such edits, and it keeps the sets right as far as the parents
of what it loads need no refresh. -/
theorem commitLoadBack_loads {anchor : Nat} {load : LoadBack α} (shape : core.Shape c)
    (fits : load.Fits c core anchor) (ran : core.commitLoadBack c anchor load = some core') :
    Loads c core core' ∧
      (core.Exact ∅ → LoadBack.Covered core load.full → core'.Exact ∅) := by
  obtain ⟨loaded, windowed, chainEq, windowsEq, ready, rfl⟩ := commitLoadBack_stages ran
  obtain ⟨above, under, chain⟩ := fits.chain
  obtain ⟨pins, pinned, chain⟩ := pinLoads_loads anchor (load.full.map Prod.fst) chain
  obtain ⟨loads, kept, residents, settled⟩ := foldl_loadFull (shape.loads pins)
    (pinned.resident under) chain fits.distinct
  rw [← chainEq] at loads kept residents settled
  have carried := pinned.trans kept [.full] (by simp) (by simp)
  have edits := pins.trans loads
  have shape' := shape.loads edits
  have refresh : Load c loaded (loaded.updateEvictableLeafSets anchor) := .leaves
  obtain ⟨windows, kept'⟩ := foldl_storeSwa load.swa (shape'.load refresh) fits.windows_distinct fun w inside => by
      obtain ⟨d, mem, named, device, sized⟩ := ready w inside
      obtain ⟨x, old, same, data⟩ := carried.data_eq .swa mem (by decide)
      refine ⟨d, mem, named, device, ?_, ?_⟩
      · rw [← data]
        exact fits.windows w inside x old (same.trans named)
      · rw [← sized]
        exact Node.valueLen_full shape' mem device
  rw [← windowsEq] at windows kept'
  have edits := (edits.tail refresh).trans windows
  have carried := carried.trans kept'
    [.full, .swa] (by simp) (by simp)
  have states : Loads c windowed (load.mamba.elim windowed fun v =>
      windowed.setComponentDeviceValue anchor .mamba v) := ?_
  · refine ⟨(edits.trans states).tail .leaves, fun sets covered => ?_⟩
    obtain ⟨pinnedSets, covered⟩ := sets.pinLoads shape anchor covered (load.full.map Prod.fst)
    have windowedSets : windowed.Exact ∅ :=
      windowsEq ▸ ((settled pinnedSets covered).refresh shape' anchor).storeAll .swa (by decide)
        load.swa
    refine .refresh ?_ (shape.loads (edits.trans states)) anchor
    cases load.mamba with
    | none => exact windowedSets
    | some v => exact windowedSets.storeAll .mamba (by decide) [(anchor, v)]
  cases state : load.mamba with
  | none => exact .refl
  | some v =>
    dsimp only [Option.elim]
    cases found : windowed.find? anchor with
    | none =>
      have same : windowed.setComponentDeviceValue anchor .mamba v = windowed := by
        simp [setComponentDeviceValue, found]
      rw [same]
    | some d =>
      obtain ⟨mem, rfl⟩ := mem_of_find? found
      obtain ⟨x, old, same, data⟩ := carried.data_eq .mamba mem (by decide)
      obtain ⟨empty, live⟩ := fits.state (by simp [state]) x old same
      have resident : windowed.Resident d.id := by
        rcases live with device | inChain
        · exact carried.resident (.inr ⟨x, old, same, device⟩)
        · obtain ⟨w, inside, named⟩ := mem_map.mp inChain
          exact named ▸ kept'.resident (residents w inside)
      have shape'' := shape.loads edits
      refine .single (.grow (.store mem (by decide) ?_ (data ▸ empty) (by simp)))
      rcases resident with zero | ⟨y, mem', named, device⟩
      · exact absurd zero (shape''.ne_zero mem)
      · exact shape''.eq_of_id mem' mem named ▸ device

end Core

end Sglang.Tree
