/-
# The unified radix tree: nodes, bookkeeping and locks

`UnifiedTreeCore` keeps one radix tree for every attention component of a model. A node
holds a run of pages and, per component, the device and host slots cached for them, lock
counters and window marks; the core keeps the two sets of evictable leaves and, per
component, how many device tokens are evictable and how many are protected.

* `Node`, `Core` — the data, with the nodes in an arena of parent links.
* `Core.updateEvictableLeafSets`, `Core.splitNode` — the primitives the walks are made of.
* `Core.incLockRef`, `Core.decLockRef`, `Core.decSwaLockOnly` — segment locks: Full up to
  the root, a sliding window marked by a uuid for SWA, the anchor alone for Mamba.

A key is a list of pages, a page standing for its tokens together with the namespace of
the key. The list order of the arena, and nothing else, is an artefact of the model.
-/

import Mathlib.Algebra.Ring.Int.Defs
import Mathlib.Algebra.Ring.Nat
import Mathlib.Data.Finset.Basic
import Sglang.Lib.Arena

namespace Sglang.Tree

open Sglang.Lib

/-- The attention components that can share a tree, in the order they are visited. -/
inductive Component
  | full
  | swa
  | mamba
deriving DecidableEq, Repr

def Component.all : List Component := [.full, .swa, .mamba]

/-- The deployment a tree is built for. -/
structure Config where
  pageSize : Nat
  pageSize_pos : 0 < pageSize
  /-- Which auxiliary components the model has; Full is always there. -/
  hasSwa : Bool
  hasMamba : Bool
  /-- `swa_retain_window`, in tokens. -/
  slidingWindowSize : Nat
  window_pos : 0 < slidingWindowSize
  gatesPrefixMatch : Bool
  enableHicache : Bool
  isWriteBack : Bool
  hasSwaHostPool : Bool
  writeThroughThreshold : Nat
  mambaCheckpointGrid : Nat
  /-- `mamba_max_states_per_path`; `none` for the negative "no cap". -/
  mambaMaxStatesPerPath : Option Nat

/-- What one component keeps on one node. -/
structure ComponentData (α : Type) where
  value : Option (List α) := none
  hostValue : Option (List α) := none
  lockRef : Nat := 0
  hostLockRef : Nat := 0
  uuid : Option Nat := none
  hostUuid : Option Nat := none

/-- The number of device slots held. -/
def ComponentData.valueLen {α : Type} (cd : ComponentData α) : Nat :=
  (cd.value.map List.length).getD 0

structure Node (π α : Type) where
  id : Nat
  parent : Nat
  key : List π
  data : Component → ComponentData α := fun _ => {}
  hitCount : Nat := 0
  rotationBase : Option Nat := none
  loadBackPendingId : Option Nat := none
  writeThroughPendingId : Option Nat := none

namespace Node

variable {π α : Type}

variable (d : Node π α)

/-- Replace one component's data. -/
def put (ct : Component) (cd : ComponentData α) : Node π α :=
  { d with data := Function.update d.data ct cd }

@[simp] lemma put_data_self (ct : Component) (cd : ComponentData α) :
    (d.put ct cd).data ct = cd := Function.update_self ..

lemma put_data_of_ne {ct ct' : Component} (cd : ComponentData α)
    (other : ct' ≠ ct) : (d.put ct cd).data ct' = d.data ct' := Function.update_of_ne other ..

lemma put_data (ct ct' : Component) (cd : ComponentData α) :
    (d.put ct cd).data ct' = if ct' = ct then cd else d.data ct' := by
  by_cases same : ct' = ct
  · subst same
    simp
  · rw [put_data_of_ne d cd same, if_neg same]

section

variable {β : Type} {ct : Component} {cd : ComponentData α} (read : ComponentData α → β)
  (same : read cd = read (d.data ct)) (ct' : Component)
include same

/-- What the new data of a component has in common with the old, the node keeps. -/
lemma put_keeps : read ((d.put ct cd).data ct') = read (d.data ct') := by
  rw [put_data]
  split
  · rename_i here
    rw [here, same]
  · rfl

lemma putIf_keeps (p : Prop) [Decidable p] :
    read ((if p then d.put ct cd else d).data ct') = read (d.data ct') := by
  split
  · exact d.put_keeps read same ct'
  · rfl

end

/-- The node has no Full device value. -/
def evicted : Bool := (d.data .full).value.isNone

/-- The node has a Full host copy. -/
def backuped : Bool := (d.data .full).hostValue.isSome

/-- The tokens the node covers. -/
def len (c : Config) (d : Node π α) : Nat := d.key.length * c.pageSize

/-- Some component holds a device lock. -/
def locked : Bool := Component.all.any fun ct => decide (0 < (d.data ct).lockRef)

/-- Some component holds a host lock. -/
def hostLocked : Bool :=
  Component.all.any fun ct => decide (0 < (d.data ct).hostLockRef)

lemma locked_congr {d e : Node π α} (same : ∀ ct, (e.data ct).lockRef = (d.data ct).lockRef) :
    e.locked = d.locked := by
  simp only [locked, same]

lemma hostLocked_congr {d e : Node π α}
    (same : ∀ ct, (e.data ct).hostLockRef = (d.data ct).hostLockRef) :
    e.hostLocked = d.hostLocked := by
  simp only [hostLocked, same]

lemma locked_eq_false_iff {d : Node π α} : d.locked = false ↔ ∀ ct, (d.data ct).lockRef = 0 := by
  constructor
  · intro free ct
    have all := List.any_eq_false.mp free ct (by cases ct <;> decide)
    simpa using all
  · intro zero
    exact List.any_eq_false.mpr fun ct _ => by simp [zero ct]

lemma locked_of_lockRef {d : Node π α} {ct : Component} (held : 0 < (d.data ct).lockRef) :
    d.locked = true := by
  cases free : d.locked with
  | true => rfl
  | false => exact absurd (locked_eq_false_iff.mp free ct) held.ne'

end Node

/-- How nodes name themselves and their parents; the root is node `0`. -/
def links {π α : Type} : Links (Node π α) Nat := ⟨Node.id, Node.parent, 0⟩

structure Core (π α : Type) where
  root : Node π α
  nodes : List (Node π α)
  nextId : Nat
  nextUuid : Nat
  evictableDeviceLeaves : Finset Nat
  evictableHostLeaves : Finset Nat
  componentEvictableSize : Component → Int
  componentProtectedSize : Component → Int

namespace Core

variable {π α : Type}

/-- The tree after `reset`: the root alone, with an empty Full value and one permanent lock
per component. -/
def reset : Core π α where
  root := { id := 0, parent := 0, key := [],
            data := fun ct => { value := if ct = .full then some [] else none, lockRef := 1 } }
  nodes := []
  nextId := 1
  nextUuid := 0
  evictableDeviceLeaves := ∅
  evictableHostLeaves := ∅
  componentEvictableSize := fun _ => 0
  componentProtectedSize := fun _ => 0

variable (core : Core π α)

/-- The stored node named `i`; the root is not stored. -/
def find? (i : Nat) : Option (Node π α) :=
  core.nodes.find? fun d => decide (d.id = i)

/-- `node_by_id` finds the node. -/
def known (i : Nat) : Bool := decide (i = 0) || (core.find? i).isSome

/-- The nodes from `i` up to the root, the root left out. -/
def spine (i : Nat) : List (Node π α) := links.spine core.nodes i

def children (i : Nat) : List (Node π α) :=
  core.nodes.filter fun d => decide (d.parent = i)

/-- Rewrite the nodes named in `ids`. -/
def modify (ids : List Nat) (f : Node π α → Node π α) : Core π α :=
  { core with nodes := core.nodes.map fun d => if d.id ∈ ids then f d else d }

def addEvictable (ct : Component) (n : Int) : Core π α :=
  { core with componentEvictableSize :=
      Function.update core.componentEvictableSize ct (core.componentEvictableSize ct + n) }

def addProtected (ct : Component) (n : Int) : Core π α :=
  { core with componentProtectedSize :=
      Function.update core.componentProtectedSize ct (core.componentProtectedSize ct + n) }

/-! ### Evictable leaves -/

/-- Full on the device, no child with Full on the device, and unlocked. -/
def isDeviceLeaf (d : Node π α) : Bool :=
  !d.evicted && !d.locked && !(core.children d.id).any fun child => !child.evicted

/-- Full on the host only, no children, and unlocked on both tiers. -/
def isHostLeaf (d : Node π α) : Bool :=
  d.evicted && d.backuped && !d.hostLocked && !d.locked && (core.children d.id).isEmpty

/-- Recompute a node's membership in both leaf sets; the root is in neither. -/
def updateEvictableLeafSets (i : Nat) : Core π α :=
  let device := (core.find? i).any core.isDeviceLeaf
  let host := (core.find? i).any core.isHostLeaf
  { core with
    evictableDeviceLeaves :=
      if device then insert i core.evictableDeviceLeaves else core.evictableDeviceLeaves.erase i
    evictableHostLeaves :=
      if host then insert i core.evictableHostLeaves else core.evictableHostLeaves.erase i }

/-! ### Actions handed to the cache -/

end Core

/-- What a tree operation asks the cache to do. -/
inductive Action (α : Type)
  | freeDeviceKV (slots : List α)
  | freeDeviceKVFullOnly (slots : List α)
  | swaRebuild (node : Nat) (full : List α)
  | recoverSwaWithLockedFull (node : Nat) (oldFull incoming : List α)
  | replaceWriteThroughOnNodeSplit (ackId oldNode newNode newChild : Nat)
  | backupKV (nodes : List Nat)
  | mambaEvictExcessPathStates (node : Nat)
deriving DecidableEq, Repr

/-! ### Splitting -/

namespace ComponentData

variable {α : Type}

/-- The first `n` tokens' share of a split: the window marks go to the older half. -/
def upper (n : Nat) (cd : ComponentData α) : ComponentData α :=
  { cd with value := cd.value.map (List.take n), hostValue := cd.hostValue.map (List.take n) }

/-- The rest: locks are on both halves, marks on the older one only. -/
def lower (n : Nat) (cd : ComponentData α) : ComponentData α :=
  { cd with value := cd.value.map (List.drop n), hostValue := cd.hostValue.map (List.drop n),
            uuid := none, hostUuid := none }

end ComponentData

namespace Node

variable {π α : Type}

/-- The new parent of a split after `n` pages; Mamba state stays with the child. -/
def upper (c : Config) (n new : Nat) (d : Node π α) : Node π α :=
  { d with
    id := new
    key := d.key.take n
    data := fun ct => if ct = .mamba then {} else (d.data ct).upper (n * c.pageSize) }

/-- The child of a split after `n` pages. -/
def lower (c : Config) (n new : Nat) (d : Node π α) : Node π α :=
  { d with
    parent := new
    key := d.key.drop n
    data := fun ct => if ct = .mamba then d.data ct else (d.data ct).lower (n * c.pageSize) }

end Node

namespace Core

variable {π α : Type}

/-- `_split_node`: the tree afterwards, the new parent, and the action for a node whose
write-through is pending. -/
def splitNode (c : Config) (core : Core π α) (child : Node π α) (n : Nat) :
    Core π α × Node π α × Option (Action α) :=
  let new := core.nextId
  let grown := { core with
    nodes := links.expand child.id (Node.lower c n new) (Node.upper c n new) core.nodes
    nextId := new + 1 }
  let action := child.writeThroughPendingId.map fun ackId =>
    .replaceWriteThroughOnNodeSplit ackId child.id new child.id
  ((grown.updateEvictableLeafSets new).updateEvictableLeafSets child.id,
    child.upper c n new, action)

/-! ### Segment locks -/

/-- What a lock operation leaves for its release: the anchor, the components it skipped,
and the uuid of the window boundary where SWA was taken (`none` inside: up to the root). -/
structure Receipt where
  nodeId : Nat
  skippedLockComponents : List Component
  swaUuid : Option (Option Nat)
deriving DecidableEq, Repr

/-- Count one more lock of `ct` on a node. -/
def lockNode (ct : Component) (d : Node π α) : Node π α :=
  d.put ct { d.data ct with lockRef := (d.data ct).lockRef + 1 }

/-- Count one lock of `ct` less on a node. -/
def unlockNode (ct : Component) (d : Node π α) : Node π α :=
  d.put ct { d.data ct with lockRef := (d.data ct).lockRef - 1 }

/-- The tokens of `ct` on the nodes of a segment whose lock count is `n`. -/
def tokensAt (ct : Component) (n : Nat) (seg : List (Node π α)) : Int :=
  (seg.map fun d => if (d.data ct).lockRef = n then ((d.data ct).valueLen : Int) else 0).sum

/-- Lock `ct` on every node of a segment; first locks move tokens to the protected side. -/
def acquireOn (core : Core π α) (ct : Component) (seg : List (Node π α)) : Core π α :=
  let moved := tokensAt ct 0 seg
  ((core.modify (links.tags seg) (lockNode ct)).addEvictable ct (-moved)).addProtected ct moved

/-- Recompute leaf membership of several nodes, in order. -/
def updateAll (core : Core π α) (ids : List Nat) : Core π α :=
  ids.foldl updateEvictableLeafSets core

/-- Unlock `ct` on every node of a segment; last releases move tokens back and recompute
leaf membership. `none` is the assertion that every lock is held. -/
def releaseOn (core : Core π α) (ct : Component) (seg : List (Node π α)) : Option (Core π α) :=
  if seg.all fun d => decide (0 < (d.data ct).lockRef) then
    let moved := tokensAt ct 1 seg
    let opened := seg.filter fun d => decide ((d.data ct).lockRef = 1)
    some ((((core.modify (links.tags seg) (unlockNode ct)).addEvictable ct moved).addProtected ct
      (-moved)).updateAll (links.tags opened))
  else
    none

/-- Full locks the whole way up. The nodes without a device value must be at the bottom;
the others leave the evictable set. -/
def acquireFull (core : Core π α) (i : Nat) : Option (Core π α) :=
  let seg := core.spine i
  let deviceOn := seg.dropWhile Node.evicted
  if deviceOn.all fun d => !d.evicted then
    let locked := core.acquireOn .full seg
    some { locked with
      evictableDeviceLeaves := locked.evictableDeviceLeaves \ (links.tags deviceOn).toFinset }
  else
    none

/-- The nodes the SWA lock walks over: up until a window of tokens is covered. -/
def windowSegment (c : Config) : Nat → List (Node π α) → List (Node π α)
  | _, [] => []
  | covered, d :: up =>
    if covered < c.slidingWindowSize then d :: windowSegment c (covered + d.len c) up else []

/-- The node at which that walk has covered the window, if it gets that far. -/
def windowBoundary (c : Config) : Nat → List (Node π α) → Option (Node π α)
  | _, [] => none
  | covered, d :: up =>
    if covered < c.slidingWindowSize then
      if c.slidingWindowSize ≤ covered + d.len c then some d
      else windowBoundary c (covered + d.len c) up
    else
      none

/-- Give a boundary node a fresh uuid. -/
def stampNode (uuid : Nat) (d : Node π α) : Node π α :=
  d.put .swa { d.data .swa with uuid := some uuid }

/-- SWA locks the trailing window and marks its boundary; the uuid is `none` when the walk
reached the root first. -/
def acquireSwa (c : Config) (core : Core π α) (i : Nat) : Core π α × Option Nat :=
  let path := core.spine i
  let locked := core.acquireOn .swa (windowSegment c 0 path)
  match windowBoundary c 0 path with
  | none => (locked, none)
  | some boundary =>
    match (boundary.data .swa).uuid with
    | some uuid => (locked, some uuid)
    | none =>
      let uuid := core.nextUuid + 1
      ({ locked.modify [boundary.id] (stampNode uuid) with nextUuid := uuid }, some uuid)

/-- The nodes an SWA release walks over: up to and including the one that carries the
receipt's uuid. -/
def markedSegment (uuid : Option Nat) : List (Node π α) → List (Node π α)
  | [] => []
  | d :: up =>
    d :: if uuid.isSome ∧ (d.data .swa).uuid = uuid then [] else markedSegment uuid up

/-- Mamba locks the anchor alone. -/
def anchorSegment (core : Core π α) (i : Nat) : List (Node π α) := (core.spine i).take 1

/-- Full's part of `inc_lock_ref`. -/
def lockFull (core : Core π α) (i : Nat) (skip : List Component) : Option (Core π α) :=
  if .full ∈ skip then some core else core.acquireFull i

/-- SWA's part of `inc_lock_ref`, with the entry it leaves in the receipt. -/
def lockSwa (c : Config) (core : Core π α) (i : Nat) (skip : List Component) :
    Core π α × Option (Option Nat) :=
  if c.hasSwa ∧ .swa ∉ skip then
    let (locked, uuid) := core.acquireSwa c i
    (locked, some uuid)
  else
    (core, none)

/-- Mamba's part of `inc_lock_ref`. -/
def lockMamba (c : Config) (core : Core π α) (i : Nat) (skip : List Component) : Core π α :=
  if c.hasMamba ∧ .mamba ∉ skip then core.acquireOn .mamba (core.anchorSegment i) else core

/-- `inc_lock_ref`. -/
def incLockRef (c : Config) (core : Core π α) (i : Nat) (skip : List Component) :
    Option (Core π α × Receipt) :=
  if core.known i then
    (core.lockFull i skip).map fun core =>
      let (core, swaUuid) := core.lockSwa c i skip
      ((core.lockMamba c i skip).updateEvictableLeafSets i, ⟨i, skip, swaUuid⟩)
  else
    none

/-- SWA's part of a release; the receipt of another component has no entry to look up. -/
def releaseSwa (core : Core π α) (receipt : Receipt) : Option (Core π α) :=
  if receipt.nodeId = 0 then some core
  else receipt.swaUuid.bind fun uuid =>
    core.releaseOn .swa (markedSegment uuid (core.spine receipt.nodeId))

/-- `dec_lock_ref`: auxiliaries first. After an early SWA release, SWA and the lower
Mamba are skipped. -/
def decLockRef (c : Config) (core : Core π α) (receipt : Receipt) (skipSwa : Bool) :
    Option (Core π α) :=
  if core.known receipt.nodeId then do
    let skip := receipt.skippedLockComponents
    let lower := !(skipSwa && c.hasSwa)
    let core ← if c.hasMamba ∧ .mamba ∉ skip ∧ lower then
        core.releaseOn .mamba (core.anchorSegment receipt.nodeId) else some core
    let core ← if c.hasSwa ∧ .swa ∉ skip ∧ lower then core.releaseSwa receipt else some core
    let core ← if .full ∉ skip then core.releaseOn .full (core.spine receipt.nodeId)
      else some core
    some (core.updateEvictableLeafSets receipt.nodeId)
  else
    none

/-- Drop `ct`'s device value from a node. -/
def dropValue (ct : Component) (d : Node π α) : Node π α :=
  d.put ct { d.data ct with value := none }

/-- Evict `ct`'s device value from the nodes of a list: the tokens leave the evictable
side. -/
def evictValues (core : Core π α) (ct : Component) (seg : List (Node π α)) : Core π α :=
  (core.modify (links.tags seg) (dropValue ct)).addEvictable ct
    (-(seg.map fun d => ((d.data ct).valueLen : Int)).sum)

/-- `release_window_lock`: release a window early and drop the SWA values of nodes that
are evictable leaves from then on. -/
def releaseWindow (core : Core π α) (i : Nat) (uuid : Option Nat) : Option (Core π α) :=
  let seg := markedSegment uuid (core.spine i)
  (core.releaseOn .swa seg).map fun opened =>
    let leaves := (opened.nodes.filter fun d =>
      decide (d.id ∈ links.tags seg) && decide ((d.data .swa).lockRef = 0)
        && (d.data .swa).value.isSome && opened.isDeviceLeaf d)
    opened.evictValues .swa leaves

/-- `dec_swa_lock_only`: SWA's window, and the Mamba lock below it. -/
def decSwaLockOnly (c : Config) (core : Core π α) (receipt : Receipt) : Option (Core π α) :=
  if core.known receipt.nodeId then
    if receipt.nodeId = 0 ∨ c.hasSwa = false then some core
    else do
      let uuid ← receipt.swaUuid
      let core ← core.releaseWindow receipt.nodeId uuid
      if c.hasMamba ∧ .mamba ∉ receipt.skippedLockComponents then
        core.releaseOn .mamba (core.anchorSegment receipt.nodeId)
      else some core
  else
    none

end Core

end Sglang.Tree
