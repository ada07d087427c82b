/-
# The unified radix tree: host locks

`inc_host_lock_ref` protects host copies: Full's on the anchor, SWA's over a window, Mamba's
on the anchor, each marked so that the release finds the same nodes after splits. Nothing but
host counters, host marks and the leaf sets changes (`HostOnly`), and the leaf sets stay
exact (`incHostLockRef_cleans`, `decHostLockRef_cleans`).
-/

import Sglang.Tree.Leaves

namespace Sglang.Tree

open Sglang.Lib List Option

variable {π α : Type}

namespace Core

/-! ### The operations -/

variable (core : Core π α)

/-- The root, or a stored node. -/
def node? (i : Nat) : Option (Node π α) :=
  if i = 0 then some core.root else core.find? i

/-- Rewrite the root, or a stored node. -/
def rewriteNode (i : Nat) (f : Node π α → Node π α) : Core π α :=
  if i = 0 then { core with root := f core.root } else core.modify [i] f

variable (ct : Component)

def lockHostNode (d : Node π α) : Node π α :=
  d.put ct { d.data ct with hostLockRef := (d.data ct).hostLockRef + 1 }

def unlockHostNode (d : Node π α) : Node π α :=
  d.put ct { d.data ct with hostLockRef := (d.data ct).hostLockRef - 1 }

def stampHostNode (uuid : Nat) (d : Node π α) : Node π α :=
  d.put ct { d.data ct with hostUuid := some uuid }

/-- A node's host mark, fresh if it has none. Marks of different components are never
compared, so one counter serves them all. -/
def markHost (d : Node π α) : Core π α × Nat :=
  match (d.data ct).hostUuid with
  | some uuid => (core, uuid)
  | none =>
    let uuid := core.nextUuid + 1
    ({ core.rewriteNode d.id (stampHostNode ct uuid) with nextUuid := uuid }, uuid)

/-- What a host lock leaves for its release: Full's mark where Full was taken, and SWA's where
the window ended below the root. -/
structure HostReceipt where
  nodeId : Nat
  fullUuid : Option Nat
  swaUuid : Option Nat
deriving DecidableEq, Repr

/-- Full's host lock: the anchor, if it has a host copy (write-back pins it anyway). -/
def lockHostFull (c : Config) (core : Core π α) (i : Nat) : Core π α × Option Nat :=
  (core.node? i).elim (core, none) fun d =>
    if d.backuped || c.isWriteBack then
      let marked := core.markHost .full d
      ((marked.1.rewriteNode i (lockHostNode .full)).updateEvictableLeafSets i, some marked.2)
    else (core, none)

/-- SWA's host lock: the trailing window. -/
def lockHostSwa (c : Config) (core : Core π α) (i : Nat) : Core π α × Option Nat :=
  if c.hasSwa then
    let path := core.spine i
    let locked := core.modify (links.tags (windowSegment c 0 path)) (lockHostNode .swa)
    (windowBoundary c 0 path).elim (locked, none) fun boundary =>
      let marked := locked.markHost .swa boundary
      (marked.1, some marked.2)
  else (core, none)

/-- Mamba's host lock: the anchor. -/
def lockHostMamba (c : Config) (core : Core π α) (i : Nat) : Core π α :=
  if c.hasMamba then core.modify (links.tags (core.anchorSegment i)) (lockHostNode .mamba)
  else core

/-- `inc_host_lock_ref`. -/
def incHostLockRef (c : Config) (core : Core π α) (i : Nat) : Option (Core π α × HostReceipt) :=
  if core.known i then
    let full := core.lockHostFull c i
    let swa := full.1.lockHostSwa c i
    some ((swa.1.lockHostMamba c i).updateEvictableLeafSets i, ⟨i, full.2, swa.2⟩)
  else none

/-- The nodes a host release of SWA walks over. -/
def markedHostSegment (uuid : Option Nat) : List (Node π α) → List (Node π α)
  | [] => []
  | d :: up =>
    d :: if uuid.isSome ∧ (d.data .swa).hostUuid = uuid then [] else markedHostSegment uuid up

/-- Unlock the host side of a segment; last releases recompute leaf membership. -/
def releaseHostOn (seg : List (Node π α)) : Option (Core π α) :=
  if seg.all fun d => decide (0 < (d.data ct).hostLockRef) then
    let opened := seg.filter fun d => decide ((d.data ct).hostLockRef = 1)
    some ((core.modify (links.tags seg) (unlockHostNode ct)).updateAll (links.tags opened))
  else none

/-- Full's host release: up from the anchor to the mark, over the fragments a split left; a
node without a host copy ends it outside write-back. -/
def releaseHostFull (c : Config) (uuid : Nat) : List (Node π α) → Core π α → Option (Core π α)
  | [], core =>
    if !core.root.backuped && !c.isWriteBack then some core
    else if 0 < (core.root.data .full).hostLockRef ∧
        (core.root.data .full).hostUuid = some uuid then
      some (core.rewriteNode 0 (unlockHostNode .full))
    else none
  | d :: up, core =>
    if !d.backuped && !c.isWriteBack then some core
    else if 0 < (d.data .full).hostLockRef then
      let core := (core.modify [d.id] (unlockHostNode .full)).updateEvictableLeafSets d.id
      if (d.data .full).hostUuid = some uuid then some core else releaseHostFull c uuid up core
    else none

/-- `dec_host_lock_ref`. -/
def decHostLockRef (c : Config) (core : Core π α) (receipt : HostReceipt) : Option (Core π α) :=
  if core.known receipt.nodeId then
    (if c.hasMamba then core.releaseHostOn .mamba (core.anchorSegment receipt.nodeId)
      else some core).bind fun core =>
    (if c.hasSwa then
      core.releaseHostOn .swa (markedHostSegment receipt.swaUuid (core.spine receipt.nodeId))
      else some core).bind fun core =>
    (receipt.fullUuid.elim (some core) fun uuid =>
      releaseHostFull c uuid (core.spine receipt.nodeId) core).map fun core =>
    core.updateEvictableLeafSets receipt.nodeId
  else none

variable {c : Config} {core core' mid : Core π α} {d e : Node π α} {i uuid : Nat} {ct : Component}
  {dirty dirty' : Set Nat} {held : List Held} {f : Node π α → Node π α} {ids : List Nat}

/-! ### What they leave alone -/

/-- Only host counters and host marks change. -/
structure HostOnly (f : Node π α → Node π α) : Prop where
  touches : Touches f
  lockRef : ∀ d ct, ((f d).data ct).lockRef = (d.data ct).lockRef
  uuid : ∀ d, ((f d).data .swa).uuid = (d.data .swa).uuid

/-- One core is the other one up to host counters, host marks and leaf sets. -/
structure HostTouch (core core' : Core π α) : Prop where
  nodes : ∃ f, HostOnly f ∧ core'.nodes = core.nodes.map f
  nextId : core'.nextId = core.nextId
  nextUuid : core.nextUuid ≤ core'.nextUuid
  evictable : core'.componentEvictableSize = core.componentEvictableSize
  protected_ : core'.componentProtectedSize = core.componentProtectedSize

lemma hostOnly_id : HostOnly (id : Node π α → Node π α) :=
  ⟨⟨fun _ => rfl, fun _ => rfl, fun _ => rfl, fun _ _ => rfl, fun _ _ => rfl⟩, fun _ _ => rfl,
    fun _ => rfl⟩

/-- Rewriting host counters and marks of one component on some nodes. -/
lemma hostOnly_put (ids : List Nat) (ct : Component) (cd : Node π α → ComponentData α)
    (value : ∀ d, (cd d).value = (d.data ct).value := by intro; rfl)
    (hostValue : ∀ d, (cd d).hostValue = (d.data ct).hostValue := by intro; rfl)
    (lockRef : ∀ d, (cd d).lockRef = (d.data ct).lockRef := by intro; rfl)
    (uuid : ∀ d, (cd d).uuid = (d.data ct).uuid := by intro; rfl) :
    HostOnly fun d => if d.id ∈ ids then d.put ct (cd d) else d :=
  ⟨.put ids ct cd value hostValue, fun d ct' => d.putIf_keeps (·.lockRef) (lockRef d) ct' _,
    fun d => d.putIf_keeps (·.uuid) (uuid d) .swa _⟩

lemma hostOnly_lock (ids : List Nat) (ct : Component) :
    HostOnly fun d : Node π α => if d.id ∈ ids then lockHostNode ct d else d :=
  hostOnly_put ids ct _

lemma hostOnly_unlock (ids : List Nat) (ct : Component) :
    HostOnly fun d : Node π α => if d.id ∈ ids then unlockHostNode ct d else d :=
  hostOnly_put ids ct _

lemma hostOnly_stamp (ids : List Nat) (ct : Component) (uuid : Nat) :
    HostOnly fun d : Node π α => if d.id ∈ ids then stampHostNode ct uuid d else d :=
  hostOnly_put ids ct _

lemma HostTouch.refl : HostTouch core core :=
  ⟨⟨id, hostOnly_id, by simp⟩, rfl, le_rfl, rfl, rfl⟩

lemma HostTouch.trans (first : HostTouch core mid) (second : HostTouch mid core') :
    HostTouch core core' := by
  obtain ⟨f, only, nodes⟩ := first.nodes
  obtain ⟨g, only', nodes'⟩ := second.nodes
  refine ⟨⟨g ∘ f, ⟨only'.touches.comp only.touches, fun d ct => ?_, fun d => ?_⟩, ?_⟩,
    second.nextId.trans first.nextId, first.nextUuid.trans second.nextUuid,
    second.evictable.trans first.evictable, second.protected_.trans first.protected_⟩
  · exact (only'.lockRef _ ct).trans (only.lockRef d ct)
  · exact (only'.uuid _).trans (only.uuid d)
  · rw [nodes', nodes, List.map_map]

lemma hostTouch_update : HostTouch core (core.updateEvictableLeafSets i) :=
  ⟨HostTouch.refl.nodes, rfl, le_rfl, rfl, rfl⟩

lemma hostTouch_updateAll (ids : List Nat) : HostTouch core (core.updateAll ids) := by
  induction ids generalizing core with
  | nil => exact .refl
  | cons i ids ih => exact hostTouch_update.trans ih

lemma hostTouch_modify
    (only : HostOnly fun d => if d.id ∈ ids then f d else d) : HostTouch core (core.modify ids f) :=
  ⟨⟨_, only, nodes_modify ..⟩, rfl, le_rfl, rfl, rfl⟩

lemma hostTouch_lock (ids : List Nat) : HostTouch core (core.modify ids (lockHostNode ct)) :=
  hostTouch_modify (hostOnly_lock ids ct)

lemma hostTouch_unlock (ids : List Nat) : HostTouch core (core.modify ids (unlockHostNode ct)) :=
  hostTouch_modify (hostOnly_unlock ids ct)

lemma hostTouch_rewriteNode (only : HostTouch core (core.modify [i] f)) :
    HostTouch core (core.rewriteNode i f) := by
  unfold rewriteNode
  split
  · exact ⟨HostTouch.refl.nodes, rfl, le_rfl, rfl, rfl⟩
  · exact only

lemma hostTouch_markHost (core : Core π α) (ct : Component) (d : Node π α) :
    HostTouch core (core.markHost ct d).1 := by
  unfold markHost
  cases (d.data ct).hostUuid with
  | some uuid => exact .refl
  | none =>
    have stamped : HostTouch core (core.rewriteNode d.id (stampHostNode ct (core.nextUuid + 1))) :=
      hostTouch_rewriteNode (hostTouch_modify (hostOnly_stamp ..))
    exact { stamped with nextUuid := Nat.le_succ _ }

lemma Shape.host (shape : core.Shape c) (touch : HostTouch core core') : core'.Shape c := by
  obtain ⟨f, only, nodes⟩ := touch.nodes
  exact shape.touch only.touches nodes touch.nextId

lemma Residency.host (residency : core.Residency c) (touch : HostTouch core core') :
    core'.Residency c := by
  obtain ⟨f, only, nodes⟩ := touch.nodes
  exact residency.map only.touches nodes

lemma Ledger.host (ledger : core.Ledger) (touch : HostTouch core core') : core'.Ledger := by
  obtain ⟨f, only, nodes⟩ := touch.nodes
  refine ledger.map nodes (fun d _ ct => ⟨?_, only.lockRef d ct⟩) touch.evictable touch.protected_
  rw [ComponentData.valueLen, only.touches.value]
  rfl

lemma Locks.host (locks : core.Locks c held) (touch : HostTouch core core') :
    core'.Locks c held := by
  obtain ⟨f, only, nodes⟩ := touch.nodes
  refine ⟨locks.counts.map nodes only.touches.id only.lockRef, fun h inside =>
    (locks.covers h inside).map nodes touch.nextUuid only.touches.id only.touches.parent
      fun d _ u _ => by rw [only.uuid], ?_, ?_⟩
  · intro x mem y mem' u marked marked'
    obtain ⟨x, old, rfl⟩ := mem_map.mp (nodes ▸ mem)
    obtain ⟨y, old', rfl⟩ := mem_map.mp (nodes ▸ mem')
    rw [only.uuid] at marked marked'
    rw [locks.marks.distinct x old y old' u marked marked']
  · intro x mem u marked
    obtain ⟨x, old, rfl⟩ := mem_map.mp (nodes ▸ mem)
    rw [only.uuid] at marked
    exact (locks.marks.bound x old u marked).trans touch.nextUuid

section

variable (core) (i)

lemma lockHostFull_touch : HostTouch core (core.lockHostFull c i).1 := by
  unfold lockHostFull
  cases core.node? i with
  | none => exact .refl
  | some d =>
    dsimp only [Option.elim]
    split
    · exact ((hostTouch_markHost core .full d).trans
        (hostTouch_rewriteNode (hostTouch_lock _))).trans hostTouch_update
    · exact .refl

lemma lockHostSwa_touch : HostTouch core (core.lockHostSwa c i).1 := by
  unfold lockHostSwa
  split
  swap
  · exact .refl
  have locked : HostTouch core
      (core.modify (links.tags (windowSegment c 0 (core.spine i))) (lockHostNode .swa)) :=
    hostTouch_lock _
  dsimp only
  cases windowBoundary c 0 (core.spine i) with
  | none => exact locked
  | some boundary => exact locked.trans (hostTouch_markHost _ .swa boundary)

lemma lockHostMamba_touch : HostTouch core (core.lockHostMamba c i) := by
  unfold lockHostMamba
  split
  · exact hostTouch_lock _
  · exact .refl

end

variable {receipt : HostReceipt} {seg : List (Node π α)} {path : List (Node π α)}

/-! ### The leaf sets -/

lemma hostLocked_of_hostLockRef (pos : 0 < (d.data ct).hostLockRef) : d.hostLocked = true :=
  any_eq_true.mpr ⟨ct, by cases ct <;> decide, decide_eq_true pos⟩

section

variable (sets : core.Exact dirty)
include sets

/-- Host counters change: only host leaves can tell, and only childless nodes are host
leaves. -/
lemma Exact.hostRewrite (only : HostOnly f)
    (nodes : core'.nodes = core.nodes.map f) (leaves : core'.leafSets = core.leafSets)
    (sub : dirty ⊆ dirty') (own : ∀ d ∈ core.nodes, d.id ∉ dirty' → core.children d.id = [] →
      (f d).hostLocked = d.hostLocked) : core'.Exact dirty' := by
  have locked : ∀ d, (f d).locked = d.locked := fun d => by simp only [Node.locked, only.lockRef]
  refine sets.rewrite nodes leaves only.touches.id only.touches.parent sub
    (fun d mem clean => ⟨?_, fun childless => ?_⟩) fun d _ _ => only.touches.evicted d
  · rw [deviceReady, deviceReady, only.touches.evicted, locked]
  · rw [hostReady, hostReady, only.touches.evicted, only.touches.backuped, locked,
      own d mem clean childless]

lemma Exact.markHost (ct : Component) (d : Node π α) : (core.markHost ct d).1.Exact dirty := by
  unfold Core.markHost
  cases (d.data ct).hostUuid with
  | some uuid => exact sets
  | none =>
    dsimp only
    unfold rewriteNode
    split
    · exact sets.congr rfl rfl
    · refine sets.hostRewrite (hostOnly_stamp ..) rfl rfl subset_rfl fun e _ _ _ => ?_
      exact Node.hostLocked_congr fun ct' => e.putIf_keeps (·.hostLockRef) (by rfl) ct' _

/-- Host locks on nodes that will be refreshed and on nodes with children. -/
lemma Exact.lockHost (ct : Component)
    (inner : ∀ d ∈ core.nodes, d.id ∈ ids → d.id ∈ dirty ∨ core.children d.id ≠ []) :
    (core.modify ids (lockHostNode ct)).Exact dirty := by
  refine sets.hostRewrite (hostOnly_lock ids ct) rfl rfl subset_rfl
    fun d mem clean childless => ?_
  rw [if_neg fun inside => (inner d mem inside).elim clean fun more => more childless]

end

/-- A part of a path: all but its bottom have children. -/
lemma Shape.inner_spine (shape : core.Shape c)
    (part : seg.Sublist (core.spine i)) (mem : d ∈ core.nodes) (on : d.id ∈ links.tags seg) :
    d.id ∈ ({i} : Set Nat) ∨ core.children d.id ≠ [] := by
  obtain ⟨e, inside, named⟩ := mem_map.mp on
  obtain rfl := shape.eq_of_id (Links.mem_of_mem_spine (part.subset inside)) mem named
  by_cases bottom : e.id = i
  · exact .inl bottom
  · obtain ⟨x, child, under⟩ := shape.exists_child (part.subset inside) bottom
    exact .inr (ne_nil_of_mem (mem_children.mpr ⟨child, under⟩))

lemma Exact.lockHostFull (sets : core.Exact ∅) (shape : core.Shape c) (i : Nat) :
    (core.lockHostFull c i).1.Exact ∅ := by
  unfold Core.lockHostFull
  cases core.node? i with
  | none => exact sets
  | some d =>
    dsimp only [Option.elim]
    split
    swap
    · exact sets
    have marked := (sets.markHost .full d).mono (Set.empty_subset {i})
    have touched : HostTouch core
        ((core.markHost .full d).1.rewriteNode i (lockHostNode .full)) :=
      (hostTouch_markHost core .full d).trans (hostTouch_rewriteNode (hostTouch_lock _))
    refine .clean ?_ (shape.host touched)
    unfold rewriteNode
    split
    · exact marked.congr rfl rfl
    · exact marked.lockHost .full fun e _ here => .inl (mem_singleton.mp here)

lemma Exact.lockHostSwa (sets : core.Exact {i}) (shape : core.Shape c) :
    (core.lockHostSwa c i).1.Exact {i} := by
  have part := (windowSegment_isPrefix (c := c) 0 (core.spine i)).sublist
  have window := sets.lockHost .swa fun d => shape.inner_spine part
  unfold Core.lockHostSwa
  split
  swap
  · exact sets
  dsimp only
  cases windowBoundary c 0 (core.spine i) with
  | none => exact window
  | some boundary => exact window.markHost .swa boundary

lemma Exact.lockHostMamba (sets : core.Exact {i}) (shape : core.Shape c) :
    (core.lockHostMamba c i).Exact {i} := by
  unfold Core.lockHostMamba
  split
  · exact sets.lockHost .mamba fun d => shape.inner_spine (take_sublist 1 _)
  · exact sets

/-- Host counters and marks change, and the sets stay right. -/
structure HostCleans (core core' : Core π α) : Prop where
  touch : HostTouch core core'
  leaves : core.Exact ∅ → core'.Exact ∅

lemma HostCleans.refl : HostCleans core core := ⟨.refl, id⟩

lemma HostCleans.trans {mid : Core π α} (first : HostCleans core mid) (second : HostCleans mid core') :
    HostCleans core core' :=
  ⟨first.touch.trans second.touch, second.leaves ∘ first.leaves⟩

section

variable (shape : core.Shape c)
include shape

theorem incHostLockRef_cleans (ran : core.incHostLockRef c i = some (core', receipt)) :
    HostCleans core core' := by
  unfold incHostLockRef at ran
  split at ran
  swap
  · cases ran
  cases ran
  have full := lockHostFull_touch core i (c := c)
  have window := full.trans (lockHostSwa_touch _ i (c := c))
  have state := window.trans (lockHostMamba_touch _ i (c := c))
  refine ⟨state.trans hostTouch_update, fun sets => ?_⟩
  have marked := (sets.lockHostFull shape i).mono (Set.empty_subset {i})
  exact ((marked.lockHostSwa (shape.host full)).lockHostMamba (shape.host window)).clean
    (shape.host state)

lemma releaseHostOn_cleans (inside : seg ⊆ core.nodes)
    (ran : core.releaseHostOn ct seg = some core') : HostCleans core core' := by
  unfold releaseHostOn at ran
  split at ran
  swap
  · cases ran
  rename_i counted
  cases ran
  refine ⟨(hostTouch_unlock _).trans (hostTouch_updateAll _), fun sets => ?_⟩
  have lowered : (core.modify (links.tags seg) (unlockHostNode ct)).Exact
      {i | i ∈ links.tags (seg.filter fun d => decide ((d.data ct).hostLockRef = 1))} := by
    refine sets.hostRewrite (hostOnly_unlock ..) rfl rfl (Set.empty_subset _)
      fun d mem clean _ => ?_
    split
    swap
    · rfl
    have more := shape.one_lt_of_clean inside counted mem ‹_› clean
    have still : 0 < ((unlockHostNode ct d).data ct).hostLockRef := by
      rw [unlockHostNode, Node.put_data_self]
      exact Nat.sub_pos_of_lt more
    rw [hostLocked_of_hostLockRef (Nat.zero_lt_of_lt more), hostLocked_of_hostLockRef still]
  exact lowered.updateAll (shape.host (hostTouch_unlock _)) fun _ opened => opened

lemma releaseHostFull_cleans (ran : releaseHostFull c uuid path core = some core') :
    HostCleans core core' := by
  induction path generalizing core with
  | nil =>
    unfold releaseHostFull at ran
    split at ran
    · cases ran
      exact .refl
    split at ran
    · cases ran
      exact ⟨hostTouch_rewriteNode (hostTouch_unlock _), fun sets => sets.congr rfl rfl⟩
    · cases ran
  | cons d up ih =>
    unfold releaseHostFull at ran
    split at ran
    · cases ran
      exact .refl
    split at ran
    swap
    · cases ran
    have shape' : (core.modify [d.id] (unlockHostNode .full)).Shape c :=
      shape.host (hostTouch_unlock _)
    have lowered : HostCleans core
        ((core.modify [d.id] (unlockHostNode .full)).updateEvictableLeafSets d.id) := by
      refine ⟨(hostTouch_unlock _).trans hostTouch_update, fun sets => .clean ?_ shape'⟩
      refine sets.hostRewrite (hostOnly_unlock ..) rfl rfl (Set.empty_subset _)
        fun e _ clean _ => ?_
      rw [if_neg fun here => clean (mem_singleton.mp here)]
    split at ran
    · cases ran
      exact lowered
    · exact lowered.trans (ih (shape'.congr rfl rfl) ran)

end

lemma markedHostSegment_sublist (uuid : Option Nat) (path : List (Node π α)) :
    (markedHostSegment uuid path).Sublist path := by
  induction path with
  | nil => exact .refl _
  | cons d up ih =>
    unfold markedHostSegment
    split
    · exact (nil_sublist up).cons_cons d
    · exact ih.cons_cons d

/-- The stages of a host release. -/
lemma decHostLockRef_stages (ran : core.decHostLockRef c receipt = some core') :
    ∃ core₁ core₂ core₃, core' = core₃.updateEvictableLeafSets receipt.nodeId ∧
      (core.releaseHostOn .mamba (core.anchorSegment receipt.nodeId) = some core₁ ∨ core₁ = core) ∧
      (core₁.releaseHostOn .swa (markedHostSegment receipt.swaUuid (core₁.spine receipt.nodeId)) =
        some core₂ ∨ core₂ = core₁) ∧
      ((∃ uuid, Core.releaseHostFull c uuid (core₂.spine receipt.nodeId) core₂ = some core₃) ∨
        core₃ = core₂) := by
  unfold decHostLockRef at ran
  split at ran
  swap
  · cases ran
  obtain ⟨core₁, state, ran⟩ := bind_eq_some_iff.mp ran
  obtain ⟨core₂, window, ran⟩ := bind_eq_some_iff.mp ran
  obtain ⟨core₃, full, rfl⟩ := map_eq_some_iff.mp ran
  refine ⟨core₁, core₂, core₃, rfl, ?_, ?_, ?_⟩
  · split at state
    · exact .inl state
    · exact .inr (some.inj state).symm
  · split at window
    · exact .inl window
    · exact .inr (some.inj window).symm
  · cases marked : receipt.fullUuid with
    | none =>
      rw [marked] at full
      exact .inr (some.inj full).symm
    | some uuid =>
      rw [marked] at full
      exact .inl ⟨uuid, full⟩

theorem decHostLockRef_cleans (shape : core.Shape c)
    (ran : core.decHostLockRef c receipt = some core') : HostCleans core core' := by
  obtain ⟨core₁, core₂, core₃, rfl, state, window, full⟩ := decHostLockRef_stages ran
  have first : HostCleans core core₁ := by
    rcases state with ran | rfl
    · exact releaseHostOn_cleans shape (shape.segment (take_sublist 1 _)).1 ran
    · exact .refl
  have shape₁ := shape.host first.touch
  have second : HostCleans core₁ core₂ := by
    rcases window with ran | rfl
    · exact releaseHostOn_cleans shape₁ (shape₁.segment (markedHostSegment_sublist _ _)).1 ran
    · exact .refl
  have third : HostCleans core₂ core₃ := by
    rcases full with ⟨uuid, ran⟩ | rfl
    · exact releaseHostFull_cleans (shape₁.host second.touch) ran
    · exact .refl
  have all := (first.trans second).trans third
  exact ⟨all.touch.trans hostTouch_update, fun sets =>
    (all.leaves sets).refresh (shape.host all.touch) _⟩

end Core

end Sglang.Tree
