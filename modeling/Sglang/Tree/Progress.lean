/-
# The unified radix tree: a device eviction of Full gets what it asks for

Without a host tier a device leaf that is evicted leaves the tree, and its parent becomes a
leaf once its last child is gone. Full locks cover whole paths to the root, so below an
unlocked node everything is unlocked, and Full's walk finds every evictable token.

* `FullWalk`, `Core.fullWalkNext` — Full's walk: a priority queue of leaves that takes in the
  parent of the leaf it returned last.
* `Core.evictFull` — the cache's loop over that walk.
* `reachable_evictFull_frees` — it ends, and frees what was asked for or all there is.
-/

import Mathlib.Data.List.Sort
import Sglang.Tree.Runs

namespace Sglang.Tree

open Sglang.Lib List Option Tree.Core

variable {π α κ : Type}

/-! ### Full's walk and the loop over it -/

/-- Full's walk between two of its steps. -/
structure FullWalk (π α : Type) where
  requestCnt : Nat
  /-- The leaf returned last; it keeps its link when it is deleted. -/
  lastNode : Option (Node π α)
  /-- The candidates, in the order the heap pops them. -/
  heap : List Nat

namespace Core

section

variable [LinearOrder κ] (priority : Nat → κ)

/-- Full's `_evict_device_start`: the nodes in the leaf set, by priority. -/
def fullWalkStart (core : Core π α) (requestCnt : Nat) : FullWalk π α where
  requestCnt := requestCnt
  lastNode := none
  heap :=
    ((links.tags core.nodes).filter fun i => decide (i ∈ core.evictableDeviceLeaves)).insertionSort
      fun i j => priority i ≤ priority j

/-- The heap with the parent of the last leaf, if that has become a leaf itself. -/
def refill (core : Core π α) (w : FullWalk π α) : List Nat :=
  w.lastNode.elim w.heap fun last =>
    if last.parent ∈ core.evictableDeviceLeaves then
      w.heap.orderedInsert (fun i j => priority i ≤ priority j) last.parent
    else w.heap

/-- Pop until an evictable leaf comes up; entries that are none any more are dropped. -/
def popLeaf (core : Core π α) : List Nat → Option (Nat × List Nat)
  | [] => none
  | i :: heap => if i ∈ core.evictableDeviceLeaves then some (i, heap) else core.popLeaf heap

/-- Full's `_evict_device_next_node`; `freed` is the tracker's count for Full. -/
def fullWalkNext (core : Core π α) (w : FullWalk π α) (freed : Nat) : FullWalk π α × Option Nat :=
  let heap := core.refill priority w
  if freed < w.requestCnt then
    match core.popLeaf heap with
    | none => ({ w with lastNode := none, heap := [] }, none)
    | some (i, rest) => ({ w with lastNode := core.find? i, heap := rest }, some i)
  else ({ w with lastNode := none, heap := heap }, none)

/-- What evicting a leaf adds to the tracker: its Full tokens. The ancestors that go with it
hold none. -/
def leafTokens (core : Core π α) (i : Nat) : Nat :=
  (core.find? i).elim 0 fun d => (d.data .full).valueLen

/-- The loop of `_evict_components` over Full's walk, with no pool size to reach. A step that
returns no leaf has freed nothing, so it ends the loop. `afterBackup` is what the cache does
with a leaf that has to be written back first. -/
def evictFullLoop (c : Config) (afterBackup : Core π α → Nat → Option (Core π α × Nat)) :
    Nat → Core π α → FullWalk π α → Nat → Option (Core π α × Nat)
  | 0, _, _, _ => none
  | fuel + 1, core, w, freed =>
    match core.fullWalkNext priority w freed with
    | (_, none) => some (core, freed)
    | (w, some i) =>
      (core.evictDeviceLeaf i c.isWriteBack).bind fun (evicted, backup) =>
        match backup with
        | none => evictFullLoop c afterBackup fuel evicted w (freed + core.leafTokens i)
        | some _ => (afterBackup evicted i).bind fun (core, tokens) =>
          evictFullLoop c afterBackup fuel core w (freed + tokens)

/-- `_evict_components` for `n` Full tokens and nothing else: the tree afterwards and what the
tracker counted. -/
def evictFull (c : Config) (afterBackup : Core π α → Nat → Option (Core π α × Nat)) (fuel : Nat)
    (core : Core π α) (n : Nat) : Option (Core π α × Nat) :=
  if n ≤ 0 then some (core, 0)
  else evictFullLoop priority c afterBackup fuel core (core.fullWalkStart priority n) 0

end

variable {c : Config} {core core' : Core π α} {d e : Node π α} {i : Nat} {ct : Component}
  {held : List Held}

/-! ### What the heap holds -/

lemma popLeaf_eq_none {heap : List Nat} (empty : core.popLeaf heap = none) :
    ∀ i ∈ heap, i ∉ core.evictableDeviceLeaves := by
  induction heap with
  | nil => simp
  | cons j heap ih =>
    unfold popLeaf at empty
    split at empty
    · cases empty
    · rename_i stale
      exact forall_mem_cons.mpr ⟨stale, ih empty⟩

/-- The popped leaf is evictable, and no evictable leaf is thrown away before it. -/
lemma popLeaf_eq_some {heap rest : List Nat} (popped : core.popLeaf heap = some (i, rest)) :
    i ∈ core.evictableDeviceLeaves ∧
      ∀ j ∈ core.evictableDeviceLeaves, j ∈ heap → j = i ∨ j ∈ rest := by
  induction heap with
  | nil => cases popped
  | cons k heap ih =>
    unfold popLeaf at popped
    split at popped
    · rename_i leaf
      cases popped
      exact ⟨leaf, fun j _ => mem_cons.mp⟩
    · rename_i stale
      obtain ⟨leaf, kept⟩ := ih popped
      refine ⟨leaf, fun j among inside => kept j among ?_⟩
      exact (mem_cons.mp inside).resolve_left fun same => stale (same ▸ among)

/-- The walk of the runs returns the same leaf. -/
lemma evictFullNextNode_eq (core : Core π α) (heap : List Nat) :
    core.evictFullNextNode heap false = (core.popLeaf heap).map Prod.fst := by
  simp only [evictFullNextNode, Bool.false_eq_true, if_false]
  induction heap with
  | nil => rfl
  | cons i heap ih =>
    unfold popLeaf
    by_cases leaf : i ∈ core.evictableDeviceLeaves <;> simp [leaf, ih]

/-- Every evictable leaf is in the heap or comes into it at the next step. -/
def Queued (core : Core π α) (w : FullWalk π α) : Prop :=
  ∀ i ∈ core.evictableDeviceLeaves, i ∈ w.heap ∨ ∃ last ∈ w.lastNode, last.parent = i

lemma Exact.queued_start [LinearOrder κ] (sets : core.Exact ∅) (priority : Nat → κ) (n : Nat) :
    core.Queued (core.fullWalkStart priority n) := by
  intro i leaf
  obtain ⟨d, mem, rfl, -⟩ := (sets.device i (Set.notMem_empty i)).mp leaf
  exact .inl ((mem_insertionSort _).mpr (mem_filter.mpr ⟨Links.mem_tags mem, decide_eq_true leaf⟩))

lemma Queued.mem_refill [LinearOrder κ] {w : FullWalk π α} (queued : core.Queued w)
    (priority : Nat → κ) (leaf : i ∈ core.evictableDeviceLeaves) : i ∈ core.refill priority w := by
  unfold refill
  rcases queued i leaf with inside | ⟨last, is, rfl⟩
  · cases w.lastNode with
    | none => exact inside
    | some last =>
      dsimp only [Option.elim]
      split
      · exact (mem_orderedInsert _).mpr (.inr inside)
      · exact inside
  · rw [is]
    dsimp only [Option.elim]
    rw [if_pos leaf]
    exact (mem_orderedInsert _).mpr (.inl rfl)

/-! ### Locks and leaves -/

/-- A Full lock on a node is on its parent as well. -/
lemma Locks.full_child (locks : core.Locks c held) (shape : core.Shape c)
    (mem : d ∈ core.nodes) (child : e ∈ core.nodes) (under : e.parent = d.id)
    (free : (d.data .full).lockRef = 0) : (e.data .full).lockRef = 0 := by
  rw [locks.counts d mem .full, countP_eq_zero] at free
  rw [locks.counts e child .full, countP_eq_zero]
  intro h inside covered
  refine free h inside (decide_eq_true ?_)
  have on := of_decide_eq_true covered
  rw [(locks.covers h inside).segment .full, List.mem_toFinset] at on ⊢
  obtain ⟨x, within, named⟩ := mem_map.mp on
  obtain rfl := shape.eq_of_id (mem_of_mem_segmentOf within) child named
  unfold segmentOf at within ⊢
  split at within
  swap
  · cases within
  rename_i taken
  rw [if_pos taken]
  have above : core.spine x.id = x :: core.spine x.parent := shape.rooted.spine_tag child
  have parent : core.spine d.id = d :: core.spine d.parent := shape.rooted.spine_tag mem
  refine Links.mem_tags ((shape.rooted.spine_suffix within).subset ?_)
  change d ∈ core.spine x.id
  rw [above, under, parent]
  exact mem_cons_of_mem _ mem_cons_self

/-- No node has a Full host copy. -/
def HostFree (core : Core π α) : Prop := ∀ d ∈ core.nodes, d.backuped = false

/-- Without host copies everything is on the device. -/
lemma Residency.resident (residency : core.Residency c) (bare : core.HostFree)
    (mem : d ∈ core.nodes) : d.evicted = false :=
  (residency.live d mem).resolve_right (by simp [bare d mem])

/-- Where some node is not locked by Full, there is a device leaf. -/
lemma exists_deviceLeaf (shape : core.Shape c) (residency : core.Residency c)
    (locks : core.Locks c held) (whole : ∀ h ∈ held, .full ∉ h.receipt.skippedLockComponents)
    (bare : core.HostFree) (mem : d ∈ core.nodes) (free : (d.data .full).lockRef = 0) :
    ∃ i, core.DeviceLeaf i := by
  obtain ⟨b, inside, open_, childless⟩ := shape.rooted.exists_bottom
    (fun d mem e child free under => locks.full_child shape mem child under free) mem free
  refine ⟨b.id, b, inside, rfl, isDeviceLeaf_iff.mpr ⟨residency.resident bare inside, ?_, ?_⟩⟩
  · -- what else is locked on a node is locked there under a Full lock
    refine Node.locked_eq_false_iff.mpr fun ct => Nat.le_zero.mp ?_
    exact (locks.le_full whole inside ct).trans_eq open_
  · intro e child
    obtain ⟨old, under⟩ := mem_children.mp child
    exact absurd under (childless e old)

lemma Ledger.evictable_eq_zero (ledger : core.Ledger)
    (locked : ∀ d ∈ core.nodes, (d.data ct).lockRef ≠ 0) : core.componentEvictableSize ct = 0 := by
  rw [ledger.evictable ct]
  exact weigh_zero fun d mem => if_neg (locked d mem)

lemma Ledger.valueLen_eq_zero (ledger : core.Ledger) (spent : core.componentEvictableSize ct ≤ 0)
    (mem : d ∈ core.nodes) (free : (d.data ct).lockRef = 0) : (d.data ct).valueLen = 0 := by
  have share : d.evictableTokens ct ≤ Links.weigh (Node.evictableTokens ct) core.nodes := by
    refine Links.le_weigh (fun e _ => ?_) mem
    unfold Node.evictableTokens
    split <;> omega
  rw [← ledger.evictable ct, Node.evictableTokens] at share
  omega

/-! ### Deleting a leaf -/

lemma deleteTombstoneAncestors_resident (fuel : Nat)
    (resident : ∀ d ∈ core.nodes, d.evicted = false) :
    (core.deleteTombstoneAncestors fuel i).nodes = core.nodes ∧
      (core.deleteTombstoneAncestors fuel i).componentEvictableSize =
        core.componentEvictableSize := by
  cases fuel with
  | zero => exact ⟨rfl, rfl⟩
  | succ fuel =>
    unfold deleteTombstoneAncestors
    cases found : core.find? i with
    | none => exact ⟨rfl, rfl⟩
    | some d =>
      dsimp only [Option.elim]
      rw [resident d (mem_of_find? found).1]
      split <;> exact ⟨rfl, rfl⟩

/-- Without host copies, evicting a leaf takes it out of the tree and does nothing else. -/
lemma evictDeviceLeaf_hostFree (shape : core.Shape c) (residency : core.Residency c)
    (bare : core.HostFree) (leaf : core.DeviceLeaf i) :
    ∃ d ∈ core.nodes, core.find? i = some d ∧
      core.evictDeviceLeaf i false = some (core.deleteUnbackedDeviceLeaf d, none) ∧
      (core.deleteUnbackedDeviceLeaf d).nodes = core.nodes.filter (fun e => decide (e.id ≠ i)) ∧
      (core.deleteUnbackedDeviceLeaf d).componentEvictableSize .full =
        core.componentEvictableSize .full - core.leafTokens i := by
  obtain ⟨d, mem, rfl, isLeaf⟩ := leaf
  have found := shape.find? mem
  have resident : ∀ e ∈ ((core.forgetNode d).updateEvictableLeafSets d.parent).nodes,
      e.evicted = false := fun e old => residency.resident bare (mem_of_mem_filter old)
  obtain ⟨nodes, sizes⟩ := deleteTombstoneAncestors_resident _ resident
  refine ⟨d, mem, found, ?_, nodes, ?_⟩
  · simp [evictDeviceLeaf, found, isLeaf, bare d mem]
  · have freed : core.leafTokens d.id = (d.data .full).valueLen := by
      rw [leafTokens, found]
      rfl
    exact (congrFun sizes .full).trans (by rw [freed]; rfl)

/-- After a leaf is gone, the only new leaf there can be is its parent. -/
lemma deviceLeaf_of_removed (shape : core.Shape c) (mem : d ∈ core.nodes)
    (nodes : core'.nodes = core.nodes.filter fun e => decide (e.id ≠ d.id))
    (leaf : core'.DeviceLeaf i) : i ≠ d.id ∧ (core.DeviceLeaf i ∨ d.parent = i) := by
  obtain ⟨e, inside, rfl, isLeaf⟩ := leaf
  obtain ⟨old, other⟩ := mem_filter.mp (nodes ▸ inside)
  obtain ⟨resident, free, childless⟩ := isDeviceLeaf_iff.mp isLeaf
  refine ⟨of_decide_eq_true other, ?_⟩
  by_cases under : d.parent = e.id
  · exact .inr under
  refine .inl ⟨e, old, rfl, isDeviceLeaf_iff.mpr ⟨resident, free, fun x child => ?_⟩⟩
  obtain ⟨among, parent⟩ := mem_children.mp child
  refine childless x (mem_children.mpr ⟨?_, parent⟩)
  rw [nodes]
  refine mem_filter.mpr ⟨among, decide_eq_true fun same => under ?_⟩
  obtain rfl := shape.eq_of_id among mem same
  exact parent

/-! ### Runs without a host tier -/

variable (bare : core.HostFree) {f : Node π α → Node π α} {log : List (Nat × Nat)}
include bare

lemma HostFree.map (host : ∀ d, (f d).backuped = d.backuped)
    (nodes : core'.nodes = core.nodes.map f) : core'.HostFree := by
  intro e new
  obtain ⟨d, old, rfl⟩ := mem_map.mp (nodes ▸ new)
  rw [host]
  exact bare d old

lemma HostFree.touch (touches : Touches f)
    (nodes : core'.nodes = core.nodes.map f) : core'.HostFree :=
  bare.map touches.backuped nodes

/-- Rewriting one component with its host copy left alone. -/
lemma HostFree.put {ids : List Nat} (ct : Component) (cd : Node π α → ComponentData α)
    (host : ∀ d, (cd d).hostValue = (d.data ct).hostValue)
    (nodes : core'.nodes = (core.modify ids fun d => d.put ct (cd d)).nodes) : core'.HostFree := by
  refine bare.map (fun d => ?_) (nodes.trans (nodes_modify ..))
  rw [Node.backuped, d.putIf_keeps (·.hostValue) (host d) .full]
  rfl

lemma HostFree.evictValues (ct : Component) (ds : List (Node π α)) :
    (core.evictValues ct ds).HostFree :=
  bare.put ct (fun d => { d.data ct with value := none }) (fun _ => rfl) rfl

lemma HostFree.grow (shape : core.Shape c) (edit : Grow c core log core') : core'.HostFree := by
  cases edit with
  | @split child n mem =>
    apply shape.rooted.forall_mem_expand mem bare
    all_goals simpa using bare child mem
  | leaf => exact forall_mem_cons.mpr ⟨rfl, bare⟩
  | @unevict d v =>
    exact bare.put .full (fun d => { d.data .full with value := some v }) (fun _ => rfl)
      (nodes_unevictNodeOnInsert ..)
  | @store d ct v =>
    exact bare.put ct (fun d => { d.data ct with value := some v }) (fun _ => rfl)
      (nodes_setComponentDeviceValue ..)
  | @adopt d v =>
    exact bare.put .full (fun d => { d.data .full with value := some v }) (fun _ => rfl) rfl
  | note notes => exact bare.touch (touches_note notes) (nodes_modify ..)

lemma HostFree.grows (shape : core.Shape c) (edits : Grows c core log core') : core'.HostFree := by
  induction edits with
  | refl => exact bare
  | tail before edit ih => exact ih.grow (shape.grows before) edit

lemma HostFree.releases (edits : Releases c core core') : core'.HostFree := by
  induction edits with
  | refl => exact bare
  | tail _ edit ih =>
    cases edit with
    | release _ _ ran => exact ih.touch (touches_lower ..) (releaseOn_nodes ran).1
    | update => exact ih
    | drop => exact ih.evictValues _ _

lemma HostFree.tombstones (gone : Tombstones core core') : core'.HostFree := by
  induction gone with
  | refl => exact bare
  | tail _ last ih =>
    obtain ⟨d, -, ct, -, -, -, ran⟩ := last
    obtain ⟨victims, -, rfl⟩ := map_eq_some_iff.mp ran
    exact foldlRecOn _ _ ih
      fun core bare ct _ => bare.evictValues ct [d]

end Core

/-- The operations that only a cache with a host tier issues. -/
def Op.hostTier : Op π α → Bool
  | .incHostLockRef .. | .decHostLockRef .. | .demote | .dropSubtreeNoHost | .commitBackup ..
  | .evictHostLeaf .. | .tombstoneHost .. | .releaseFullHostDuplicate ..
  | .commitLoadBack .. | .insertHost .. => true
  | _ => false

section

variable [DecidableEq π] {c : Config} {r r' : Run π α} {op : Op π α}

/-- The runs of a cache without a host tier: nothing is written back or through, and nothing
loaded. -/
def deviceMachine (c : Config) : Machine (Run π α) (Op π α) :=
  { treeMachine c with allowed := fun r op => r.Allowed c op ∧ op.hostTier = false }

lemma Run.Kept.hostFree (kept : r.Kept c) (bare : r.core.HostFree)
    (through : c.isWriteBack = false) (ok : r.Allowed c op) (device : op.hostTier = false)
    (ran : r.step c op = some r') : r'.core.HostFree := by
  have shape := kept.shape
  cases op with
  | matchPrefix key full =>
    cases ran
    exact bare.grows shape (matchWalk_grows full shape key)
  | insert p =>
    obtain ⟨⟨w, result⟩, inserted, rfl⟩ := map_eq_some_iff.mp ran
    exact bare.grows shape (insert_grows shape ok.2 inserted)
  | incLockRef i skip =>
    obtain ⟨⟨core, receipt⟩, taken, rfl⟩ := map_eq_some_iff.mp ran
    obtain ⟨f, nodes, touches, -⟩ := (incLockRef_raises shape kept.locks.marks taken).1.nodes
    exact bare.touch touches nodes
  | decLockRef k =>
    obtain ⟨h, -, ran⟩ := bind_eq_some_iff.mp ran
    obtain ⟨core, released, rfl⟩ := map_eq_some_iff.mp ran
    exact bare.releases (decLockRef_releases shape released)
  | decSwaLockOnly k =>
    obtain ⟨h, -, ran⟩ := bind_eq_some_iff.mp ran
    obtain ⟨core, released, rfl⟩ := map_eq_some_iff.mp ran
    exact bare.releases (decSwaLockOnly_releases shape released)
  | evictDeviceStart ct lru =>
    cases ran
    exact bare
  | evictDeviceNextNode lru satisfied =>
    obtain ⟨w, on, ran⟩ := bind_eq_some_iff.mp ran
    exact bare.tombstones (kept.evictNext on (ok w on).2 ran).2
  | finishInternalEviction lru =>
    obtain ⟨w, on, ran⟩ := bind_eq_some_iff.mp ran
    obtain ⟨i, -, ran⟩ := bind_eq_some_iff.mp ran
    split at ran
    · cases ran
    rename_i aux
    obtain ⟨⟨core, cursor⟩, finished, rfl⟩ := map_eq_some_iff.mp ran
    exact bare.tombstones (finishInternalComponentEviction_tombstones shape aux
      ((kept.walk w on).cursor aux) finished).1
  | evictDeviceLeaf =>
    obtain ⟨w, -, ran⟩ := bind_eq_some_iff.mp ran
    obtain ⟨i, -, ran⟩ := bind_eq_some_iff.mp ran
    obtain ⟨⟨core, action⟩, evicted, rfl⟩ := map_eq_some_iff.mp ran
    rw [through] at evicted
    obtain ⟨d, mem, named, leaf, -⟩ := evictDeviceLeaf_cases evicted
    obtain ⟨d, -, -, deleted, nodes, -⟩ :=
      evictDeviceLeaf_hostFree shape kept.residency bare ⟨d, mem, named, leaf⟩
    cases evicted.symm.trans deleted
    intro e new
    exact bare e (mem_of_mem_filter (nodes ▸ new))
  | evictDeviceEnd =>
    cases ran
    exact bare
  | evictExcessPathStates tail =>
    obtain ⟨core, ran', rfl⟩ := map_eq_some_iff.mp ran
    exact bare.tombstones (evictExcessPathStates_tombstones shape ran')
  | incHostLockRef | decHostLockRef | demote | dropSubtreeNoHost | commitBackup | evictHostLeaf
  | tombstoneHost | releaseFullHostDuplicate | commitLoadBack | insertHost => cases device

/-- What holds between the operations of such a run. -/
structure Run.Device (c : Config) (r : Run π α) : Prop where
  kept : r.Kept c
  leaves : r.core.Exact ∅
  bare : r.core.HostFree

omit [DecidableEq π] in
lemma Op.refreshes_of_device (device : op.hostTier = false) : op.Refreshes r := by
  cases op with
  | commitLoadBack => cases device
  | _ => trivial

lemma deviceMachine_kept (through : c.isWriteBack = false) :
    (deviceMachine (π := π) (α := α) c).Inductive (Run.Device c) where
  start := by
    rintro r rfl
    exact ⟨treeMachine_kept.start _ rfl, exact_reset, by simp [Core.HostFree, reset]⟩
  step _ _ _ device ok ran :=
    ⟨(device.kept.step ok.1 ran).1,
      (device.kept.step ok.1 ran).2 device.leaves (Op.refreshes_of_device ok.2),
      device.kept.hostFree device.bare through ok.1 ok.2 ran⟩

/-! ### The loop as a run -/

/-- An eviction of `n` Full tokens is under way since `r₀`, with `freed` tokens freed. -/
structure Run.Evicting (c : Config) (r₀ r : Run π α) (n : Nat) (w : FullWalk π α) (freed : Nat) :
    Prop where
  path : (deviceMachine c).Path (fun op => op.evicts = true) r₀ r
  on : ∃ cursor, r = ⟨r.core, r₀.held, r₀.hostHeld, some { component := .full, cursor := cursor }⟩
  quota : w.requestCnt = n
  queued : r.core.Queued w
  counted : r.core.componentEvictableSize .full = r₀.core.componentEvictableSize .full - freed

variable {r₀ : Run π α} {n freed i fuel : Nat} {w : FullWalk π α}

lemma Run.Device.evicting [LinearOrder κ] (device : r.Device c) (priority : Nat → κ)
    (idle : r.walk = none) (n : Nat) :
    Run.Evicting c r
      { r with walk := some { component := .full, cursor := r.core.firstUnlocked .full [] } }
      n (r.core.fullWalkStart priority n) 0 where
  path := .tail .refl rfl ⟨idle, rfl⟩ (a := .evictDeviceStart .full []) rfl
  on := ⟨_, rfl⟩
  quota := rfl
  queued := device.leaves.queued_start priority n
  counted := (sub_zero _).symm

section

variable (evicting : Run.Evicting c r₀ r n w freed) (device₀ : r₀.Device c)
include evicting device₀

/-- One round of the loop: the popped leaf is deleted. -/
lemma Run.Evicting.round [LinearOrder κ] (through : c.isWriteBack = false) (priority : Nat → κ)
    {rest : List Nat}
    (popped : r.core.popLeaf (r.core.refill priority w) = some (i, rest)) :
    ∃ r' : Run π α, r.core.evictDeviceLeaf i c.isWriteBack = some (r'.core, none) ∧
      Run.Evicting c r₀ r' n { w with lastNode := r.core.find? i, heap := rest }
        (freed + r.core.leafTokens i) ∧ r'.core.nodes.length < r.core.nodes.length := by
  have device := evicting.path.keeps (deviceMachine_kept through) device₀
  obtain ⟨leaf, kept⟩ := popLeaf_eq_some popped
  obtain ⟨d, mem, found, deleted, nodes, sizes⟩ := evictDeviceLeaf_hostFree device.kept.shape
    device.kept.residency device.bare ((device.leaves.device i (Set.notMem_empty i)).mp leaf)
  obtain ⟨cursor, on⟩ := evicting.on
  have named := (mem_of_find? found).2
  rw [through]
  -- the step that returns the leaf, and the one that evicts it
  have chosen : (deviceMachine c).Path (fun op => op.evicts = true) r₀
      ⟨r.core, r₀.held, r₀.hostHeld,
        some { component := .full, cursor := cursor, leaf := some i }⟩ := by
    apply evicting.path.tail (a := .evictDeviceNextNode (r.core.refill priority w) false) rfl
    · rw [on]
      refine ⟨?_, rfl⟩
      rintro _ ⟨⟩
      exact ⟨rfl, rfl⟩
    · rw [on]
      simp [deviceMachine, treeMachine, step, evictNext, evictFullNextNode_eq, popped]
  have evicted : (deviceMachine c).Path (fun op => op.evicts = true) r₀
      ⟨r.core.deleteUnbackedDeviceLeaf d, r₀.held, r₀.hostHeld,
        some { component := .full, cursor := cursor }⟩ := by
    refine chosen.tail (a := .evictDeviceLeaf) rfl ⟨trivial, rfl⟩ ?_
    simp [deviceMachine, treeMachine, step, through, deleted]
  have device' := evicted.keeps (deviceMachine_kept through) device₀
  subst named
  refine ⟨_, deleted, ⟨evicted, ⟨cursor, rfl⟩, evicting.quota, ?_, ?_⟩, ?_⟩
  · intro j among
    obtain ⟨other, was | parent⟩ := deviceLeaf_of_removed device.kept.shape mem nodes
      ((device'.leaves.device j (Set.notMem_empty j)).mp among)
    · have old := (device.leaves.device j (Set.notMem_empty j)).mpr was
      exact .inl ((kept j old (evicting.queued.mem_refill priority old)).resolve_left other)
    · exact .inr ⟨d, found, parent⟩
  · rw [sizes, evicting.counted]
    omega
  · rw [nodes]
    exact length_filter_lt_length_iff_exists.mpr ⟨d, mem, by simp⟩

/-- The loop ends once every node is gone, at the latest; it has then freed what was asked for
or everything that Full locks do not protect. -/
lemma Run.Evicting.loop [LinearOrder κ] (idle : r₀.walk = none) (through : c.isWriteBack = false)
    (priority : Nat → κ) (afterBackup : Core π α → Nat → Option (Core π α × Nat))
    (enough : r.core.nodes.length < fuel) : ∃ core' freed',
      r.core.evictFullLoop priority c afterBackup fuel w freed = some (core', freed') ∧
      (deviceMachine c).Path (fun op => op.evicts = true) r₀ { r₀ with core := core' } ∧
      core'.componentEvictableSize .full = r₀.core.componentEvictableSize .full - freed' ∧
      (n ≤ freed' ∨ core'.componentEvictableSize .full = 0) := by
  induction fuel generalizing r w freed with
  | zero => omega
  | succ fuel ih =>
    have ended : (deviceMachine c).Path (fun op => op.evicts = true) r₀
        { r₀ with core := r.core } := by
      obtain ⟨cursor, on⟩ := evicting.on
      refine evicting.path.tail (a := .evictDeviceEnd) rfl ⟨trivial, rfl⟩ ?_
      rw [on]
      simp [deviceMachine, treeMachine, step, ← idle]
    unfold evictFullLoop fullWalkNext
    rw [evicting.quota]
    by_cases met : n ≤ freed
    · rw [if_neg (by omega)]
      exact ⟨r.core, freed, rfl, ended, evicting.counted, .inl met⟩
    rw [if_pos (by omega)]
    cases popped : r.core.popLeaf (r.core.refill priority w) with
    | none =>
      -- an unlocked node would leave a leaf in the heap
      have device := evicting.path.keeps (deviceMachine_kept through) device₀
      refine ⟨r.core, freed, rfl, ended, evicting.counted, .inr ?_⟩
      refine device.kept.ledger.evictable_eq_zero fun d mem free => ?_
      obtain ⟨i, leaf⟩ := exists_deviceLeaf device.kept.shape device.kept.residency
        device.kept.locks device.kept.whole device.bare mem free
      have among := (device.leaves.device i (Set.notMem_empty i)).mpr leaf
      exact popLeaf_eq_none popped i (evicting.queued.mem_refill priority among) among
    | some pop =>
      obtain ⟨r', evicted, evicting', fewer⟩ := evicting.round device₀ through priority popped
      obtain ⟨core', freed', ran, facts⟩ := ih evicting' (by omega)
      refine ⟨core', freed', ?_, facts⟩
      rw [evicting.quota] at ran
      dsimp only
      rw [evicted]
      exact ran

end

/-- Without a host tier, evicting `n` Full tokens ends within one round per node and one more,
whatever the eviction order, and frees `n` tokens or as many as the counter of evictable ones
says. When the request covers them all, no token is left that Full does not lock. -/
theorem reachable_evictFull_frees [LinearOrder κ] (through : c.isWriteBack = false)
    (reached : (deviceMachine c).Reachable r) (idle : r.walk = none) (priority : Nat → κ)
    (afterBackup : Core π α → Nat → Option (Core π α × Nat)) (n : Nat) {fuel : Nat}
    (enough : r.core.nodes.length < fuel) :
    ∃ core' freed, Core.evictFull priority c afterBackup fuel r.core n = some (core', freed) ∧
      min (n : Int) (r.core.componentEvictableSize .full) ≤ freed ∧
      core'.componentEvictableSize .full = r.core.componentEvictableSize .full - freed ∧
      (r.core.componentEvictableSize .full ≤ n → ∀ d ∈ core'.nodes,
        (d.data .full).lockRef = 0 → (d.data .full).valueLen = 0) ∧
      (deviceMachine c).Path (fun op => op.evicts = true) r { r with core := core' } := by
  have device := (deviceMachine_kept through).reachable reached
  obtain ⟨core', freed, ran, path, counted, delivered⟩ : ∃ core' freed,
      evictFull priority c afterBackup fuel r.core n = some (core', freed) ∧
      (deviceMachine c).Path (fun op => op.evicts = true) r { r with core := core' } ∧
      core'.componentEvictableSize .full = r.core.componentEvictableSize .full - freed ∧
      (n ≤ freed ∨ core'.componentEvictableSize .full = 0) := by
    unfold evictFull
    split
    · rename_i nothing
      exact ⟨r.core, 0, rfl, .refl, (sub_zero _).symm, .inl nothing⟩
    · exact (device.evicting priority idle n).loop device idle through priority afterBackup enough
  have frees : min (n : Int) (r.core.componentEvictableSize .full) ≤ freed := by omega
  have ledger := (path.keeps (deviceMachine_kept through) device).kept.ledger
  refine ⟨core', freed, ran, frees, counted, fun all d mem free => ?_, path⟩
  exact ledger.valueLen_eq_zero (by dsimp only; omega) mem free

end

/-- Full attention alone without a host tier. -/
def deviceConfig : Config :=
  { tieredConfig with enableHicache := false, isWriteBack := false }

/-- Two branches of different lengths under one node. -/
def branchOps : List (Op Nat Nat) :=
  [.insert (plainInsert [1, 2] [10, 11] 0), .insert (plainInsert [1, 3, 4] [12, 13, 14] 0)]

/-- The tree those inserts make. -/
def branchRun : Run Nat Nat :=
  (branchOps.foldlM (Run.step deviceConfig) ⟨.reset, [], [], none⟩).getD ⟨.reset, [], [], none⟩

lemma branch_reached : (deviceMachine deviceConfig).Reachable branchRun := by
  have first : (deviceMachine deviceConfig).Reachable _ :=
    .step (.start rfl) ⟨⟨rfl, by decide⟩, rfl⟩ (a := .insert (plainInsert [1, 2] [10, 11] 0)) rfl
  exact .step first ⟨⟨rfl, by decide⟩, rfl⟩
    (a := .insert (plainInsert [1, 3, 4] [12, 13, 14] 0)) rfl

theorem reachable_evictFull_frees_branch : branchRun.core.componentEvictableSize .full = 4 ∧
    ((Core.evictFull (fun i => i) deviceConfig (fun _ _ => none) 4 branchRun.core 4).map
      fun out => (out.1.nodes.length, out.2)) = some (0, 4) ∧
    ∃ core' freed, Core.evictFull (fun i => i) deviceConfig (fun _ _ => none) 4 branchRun.core 4 =
      some (core', freed) ∧
        min ((4 : Nat) : Int) (branchRun.core.componentEvictableSize .full) ≤ freed := by
  refine ⟨by decide +kernel, by decide +kernel, ?_⟩
  obtain ⟨core', freed, ran, frees, -⟩ := reachable_evictFull_frees rfl
    branch_reached rfl (fun i => i) (fun _ _ => none) 4 (by decide +kernel : _ < 4)
  exact ⟨core', freed, ran, frees⟩

end Sglang.Tree
