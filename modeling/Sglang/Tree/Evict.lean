/-
# The unified radix tree: eviction and the host tier

* `Core.evictDeviceNextNode` — one step of an auxiliary component's walk along its LRU
  list; `Core.evictDeviceLeaf`, `Core.demote`, `Core.dropSubtreeNoHost` — what the cache
  does with a leaf a walk returns; `Core.finishInternalComponentEviction`.
* `Core.evictHostLeaf`, `Core.tombstoneHost`, `Core.releaseFullHostDuplicate` — the steps
  of a host eviction.
* `Core.commitBackup`, `Core.commitLoadBack` — the commits of transfers between the tiers.
* `Core.insertHost` — a path fetched from storage, inserted on the host tier.

The order of a component's LRU list is an argument of each step, so the results hold for
every recency order. Session references, which no operation here creates, are left out.
-/

import Sglang.Tree.Walks

namespace Sglang.Tree

open Sglang.Lib

/-- `eviction_priority`: all alike on a leaf. -/
def Component.evictionPriority (isLeaf : Bool) : Component → Nat
  | .full => if isLeaf then 0 else 2
  | .swa => if isLeaf then 0 else 1
  | .mamba => 0

namespace Core

variable {π α : Type}

/-! ### Cascades -/

variable (core : Core π α) (ct : Component) (d : Node π α) (i : Nat)

/-- `_should_cascade_evict_component` on the device tier; `none` is its assertion. -/
def shouldCascade (trigger : Component) (isLeaf : Bool) (ct : Component) : Option Bool :=
  if trigger.evictionPriority isLeaf < ct.evictionPriority isLeaf then some false
  else if ct = trigger ∨ (d.data ct).value.isNone then some false
  else if trigger.evictionPriority false ≤ ct.evictionPriority false ∧ (d.data ct).lockRef ≠ 0 then
    some false
  else if (d.data ct).lockRef = 0 then some true
  else none

/-- The components a cascade takes along. -/
def cascadeVictims (trigger : Component) (isLeaf : Bool) : Option (List Component) :=
  if Component.all.all fun ct => (shouldCascade d trigger isLeaf ct).isSome then
    some (Component.all.filter fun ct => shouldCascade d trigger isLeaf ct == some true)
  else none

/-- Evict the device value of `trigger` from a node and cascade to lower components. A
Full value is cleared last, as freeing SWA slots still reads it. -/
def evictAndCascade (trigger : Component) : Option (Core π α) :=
  let isLeaf := decide (d.id ∈ core.evictableDeviceLeaves)
  (cascadeVictims d trigger isLeaf).map fun victims =>
    (((victims.reverse ++ [trigger]).foldl (fun core ct => core.evictValues ct [d]) core)
      ).updateEvictableLeafSets d.id

/-! ### Deleting nodes -/

/-- Free every layer of a node and take it out of the tree. -/
def removeNode : Core π α :=
  { core with
    nodes := core.nodes.filter fun e => decide (e.id ≠ d.id)
    componentEvictableSize := fun ct =>
      core.componentEvictableSize ct - ((d.data ct).valueLen : Int) }

def discardDeviceLeaf : Core π α :=
  { core with evictableDeviceLeaves := core.evictableDeviceLeaves.erase i }

def discardHostLeaf : Core π α :=
  { core with evictableHostLeaves := core.evictableHostLeaves.erase i }

/-- `_release_all_component_layers` and the removal from the parent. -/
def forgetNode : Core π α :=
  ((core.discardDeviceLeaf d.id).discardHostLeaf d.id).removeNode d

/-- `_iteratively_delete_tombstone_ancestors`: childless ancestors without Full data go,
up to the first live or locked one. -/
def deleteTombstoneAncestors : Nat → Core π α → Nat → Core π α
  | 0, core, _ => core
  | fuel + 1, core, i =>
    (core.find? i).elim core fun d =>
      if !(core.children i).isEmpty || d.locked || d.hostLocked then core
      else if !d.evicted then core.updateEvictableLeafSets i
      else
        let cleaned := (core.evictValues .swa [d]).evictValues .mamba [d]
        if d.backuped then cleaned.updateEvictableLeafSets i
        else
          let removed := ((cleaned.discardHostLeaf i).removeNode
            (dropValue .swa (dropValue .mamba d))).updateEvictableLeafSets d.parent
          deleteTombstoneAncestors fuel removed d.parent

/-- `_delete_unbacked_device_leaf`. -/
def deleteUnbackedDeviceLeaf : Core π α :=
  let removed := (core.forgetNode d).updateEvictableLeafSets d.parent
  removed.deleteTombstoneAncestors removed.nodes.length d.parent

/-! ### Device eviction -/

/-- `demote`: drop a backed-up node's device values. -/
def demote : Option (Core π α) :=
  (core.find? i).bind fun d =>
    if !d.evicted && d.backuped then
      (core.evictAndCascade d .full).map fun core => core.updateEvictableLeafSets d.parent
    else none

/-- `evict_device_leaf`: demote a backed-up leaf, delete another one, or (write-back) ask
for a backup first. -/
def evictDeviceLeaf (isWriteBack : Bool) : Option (Core π α × Option (Action α)) :=
  (core.find? i).bind fun d =>
    if core.isDeviceLeaf d then
      if d.backuped then (core.demote i).map fun core => (core, none)
      else if isWriteBack then some (core, some (.backupKV [i]))
      else some (core.deleteUnbackedDeviceLeaf d, none)
    else none

/-- The nodes strictly below `i`. -/
def descendants : List (Node π α) :=
  core.nodes.filter fun d => decide (i ∈ links.tags (core.spine d.parent))

/-- Some transfer is under way on the node. -/
def pendingIo : Bool :=
  d.writeThroughPendingId.isSome || d.loadBackPendingId.isSome

/-- `drop_subtree_no_host`: the fallback for a leaf whose backup failed; declined while
anything below it is locked or in transfer. -/
def dropSubtreeNoHost : Option (Core π α × Bool) :=
  (core.find? i).bind fun d =>
    if core.isDeviceLeaf d && !d.backuped && d.writeThroughPendingId.isNone then
      let below := core.descendants i
      if d.loadBackPendingId.isSome || d.hostLocked ||
          below.any fun e => pendingIo e || e.locked || e.hostLocked then some (core, false)
      else if below.all fun e => e.evicted && e.backuped then
        some ((below.foldl forgetNode core).deleteUnbackedDeviceLeaf d, true)
      else none
    else none

/-! ### Walks along a component's LRU list -/

/-- The first node of an LRU list whose component is unlocked. -/
def firstUnlocked (lru : List Nat) : Option Nat :=
  lru.find? fun i => (core.find? i).any fun d => decide ((d.data ct).lockRef = 0)

/-- `get_prev_no_lock`: the next unlocked node after `i`, least recently used first. -/
def nextUnlocked (lru : List Nat) (i : Nat) : Option Nat :=
  core.firstUnlocked ct ((lru.dropWhile fun j => decide (j ≠ i)).drop 1)

/-- What one step of a walk reports. -/
inductive WalkStep
  | stop
  | leaf (node : Nat)
  | internalStateBackup (node : Nat)
  | tombstoned
deriving DecidableEq, Repr

/-- A tombstone that the host tier should get a copy of first. -/
def wantsBackup (c : Config) (core : Core π α) (ct : Component) (d : Node π α) : Bool :=
  c.enableHicache && c.isWriteBack && (d.data ct).hostValue.isNone && !d.backuped && !d.evicted &&
    (decide (ct = .mamba) || (c.hasSwaHostPool &&
      !(InsertWalk.unbackedSwa c 0 (core.spine d.id)).isEmpty))

/-- `_evict_device_next_node` of SWA and Mamba: the tree, the cursor and the report.
`satisfied` is the test of the walk's quota. -/
def evictDeviceNextNode (c : Config) (core : Core π α) (ct : Component) (lru : List Nat)
    (satisfied : Bool) (cursor : Option Nat) : Option (Core π α × Option Nat × WalkStep) :=
  let cursor := cursor.bind fun i => if i ∈ lru then some i else core.firstUnlocked ct lru
  if satisfied then some (core, cursor, .stop)
  else
    match cursor with
    | none => some (core, none, .stop)
    | some i =>
      if i ∈ lru then
        (core.find? i).bind fun d =>
          if (d.data ct).value.isSome then
            let next := core.nextUnlocked ct lru i
            if i ∈ core.evictableDeviceLeaves then some (core, next, .leaf i)
            else if wantsBackup c core ct d then some (core, next, .internalStateBackup i)
            else (core.evictAndCascade d ct).map fun core => (core, next, .tombstoned)
          else none
      else some (core, some i, .stop)

/-- `_finish_internal_component_eviction` after the backup attempt: the victim is looked at
again, and a node that has become a leaf is left to the walk. -/
def finishInternalComponentEviction (lru : List Nat)
    (i : Nat) (cursor : Option Nat) : Option (Core π α × Option Nat) :=
  (core.find? i).elim (some (core, cursor)) fun d =>
    if (d.data ct).value.isNone ∨ 0 < (d.data ct).lockRef ∨
        (ct = .mamba ∧ d.loadBackPendingId.isSome) ∨ i ∉ lru then some (core, cursor)
    else if i ∈ core.evictableDeviceLeaves ∨ (ct = .mamba ∧ d.evicted) then some (core, some i)
    else (core.evictAndCascade d ct).map fun core => (core, cursor)

/-- `_evict_excess_path_states`: drop shallow Mamba states beyond the path cap. -/
def evictExcessPathStates (c : Config) (core : Core π α) (tail : Nat) : Option (Core π α) :=
  c.mambaMaxStatesPerPath.elim (some core) fun cap =>
    let holders := (core.spine tail).filter fun d => (d.data .mamba).value.isSome
    let rec drop : Nat → List (Node π α) → Core π α → Option (Core π α)
      | 0, _, core => some core
      | _, [], core => some core
      | excess + 1, d :: deeper, core =>
        if d.id = tail then some core
        else if 0 < (d.data .mamba).lockRef ∨ (core.children d.id).length ≠ 1 ∨
            d.id ∈ core.evictableDeviceLeaves then drop (excess + 1) deeper core
        else (core.evictAndCascade d .mamba).bind (drop excess deeper)
    drop (holders.length - cap) holders.reverse core

/-! ### The host tier -/

/-- Drop `ct`'s host copy from a node. -/
def dropHost : Node π α :=
  d.put ct { d.data ct with hostValue := none }

/-- `_evict_host_leaf`. -/
def evictHostLeaf : Option (Core π α) :=
  (core.find? i).bind fun d =>
    if core.isHostLeaf d then
      let removed := (core.discardHostLeaf i).removeNode d
      some (removed.deleteTombstoneAncestors removed.nodes.length d.parent)
    else none

/-- The private tombstone of a host eviction: `ct`'s host copy goes, and Mamba's with
SWA's. -/
def tombstoneHost : Option (Core π α) :=
  (core.find? i).bind fun d =>
    if ct ≠ .full ∧ (d.data ct).hostValue.isSome ∧ (d.data ct).hostLockRef = 0 ∧
        i ∉ core.evictableHostLeaves ∧
        (ct = .swa → (d.data .mamba).hostValue.isSome → (d.data .mamba).hostLockRef = 0) then
      some ((core.modify [i] fun d => dropHost .mamba (dropHost ct d)).updateEvictableLeafSets i)
    else none

/-- `_release_full_host_duplicate`: write-back reclaims the host copy of Full KV that is on
the device as well. -/
def releaseFullHostDuplicate : Option (Core π α) :=
  (core.find? i).bind fun d =>
    if !d.evicted && d.backuped && !pendingIo d && decide ((d.data .full).hostLockRef = 0) then
      some (core.modify [i] (dropHost .full))
    else none

/-- Store a host copy of `ct` on a node. -/
def putHost (v : List α) (d : Node π α) : Node π α :=
  d.put ct { d.data ct with hostValue := some v }

/-- What a backup brings to the host tier: Full slots for the node, SWA slots for nodes of
its window, a Mamba state for the node. -/
structure Backup (α : Type) where
  full : Option (List α)
  swa : List (Nat × List α)
  mamba : Option (List α)

/-- `commit_backup`. -/
def commitBackup (backup : Backup α) : Option (Core π α) :=
  (core.find? i).bind fun d =>
    let stored := backup.full.elim core fun v => core.modify [i] (putHost .full v)
    if backup.swa.all fun (j, _) => (core.find? j).any fun e =>
        (e.data .swa).value.isSome && (e.data .swa).hostValue.isNone then
      let windows := backup.swa.foldl (fun core (j, v) => core.modify [j] (putHost .swa v)) stored
      some (backup.mamba.elim windows fun v =>
        if (d.data .mamba).hostValue.isSome then windows
        else windows.modify [i] (putHost .mamba v))
    else none

/-- What a load-back brings to the device: Full slots for an evicted chain, root side first,
SWA slots for nodes of the window, a Mamba state for the anchor. -/
structure LoadBack (α : Type) where
  full : List (Nat × List α)
  swa : List (Nat × List α)
  mamba : Option (List α)

/-- Load one node's Full value: its leaf membership is recomputed, its parent's is not. -/
def loadFull (v : List α) : Core π α :=
  (core.find? i).elim core fun d =>
    let stored := core.modify [i] fun d => d.put .full { d.data .full with value := some v }
    (if 0 < (d.data .full).lockRef then stored.addProtected .full v.length
      else stored.addEvictable .full v.length).updateEvictableLeafSets i

/-- Write-back pins the nodes it loads until the acknowledgment. -/
def pinLoads (c : Config) (core : Core π α) (anchor : Nat) (ids : List Nat) : Core π α :=
  if c.isWriteBack then core.modify ids fun d => { d with loadBackPendingId := some anchor }
  else core

/-- `commit_load_back`; a node pinned by another load-back is refused. -/
def commitLoadBack (c : Config) (core : Core π α) (anchor : Nat)
    (load : LoadBack α) : Option (Core π α) :=
  let ids := load.full.map Prod.fst
  if core.known anchor ∧ ids.all (fun i => (core.find? i).isSome) ∧
      (c.isWriteBack → ids.all fun i => (core.find? i).all fun d =>
        d.loadBackPendingId.all fun pin => decide (pin = anchor)) then
    let loaded := load.full.foldl (fun core (i, v) => core.loadFull i v)
      (pinLoads c core anchor ids)
    if load.swa.all fun (i, v) => (loaded.find? i).any fun d =>
        !d.evicted && decide ((d.data .full).valueLen = v.length) then
      let windows := load.swa.foldl (fun core (i, v) => core.setComponentDeviceValue i .swa v)
        (loaded.updateEvictableLeafSets anchor)
      let states := load.mamba.elim windows fun v =>
        windows.setComponentDeviceValue anchor .mamba v
      some (states.updateEvictableLeafSets anchor)
    else none
  else none

end Core

/-! ### Host inserts -/

variable {π α : Type}

/-- The walk of `insert_host`: an insert's, with `host_prefix_len` and the last node that took
its part of the fetched host slots. -/
structure HostWalk (π α : Type) extends InsertWalk π α where
  hostPrefixLen : Nat := 0
  refilled : Option Nat := none

structure HostInsertResult where
  prefixLen : Nat
  totalLen : Nat := 0
  mambaExist : Bool := false
  insertedHostNode : Option Nat := none
  hostInsertDropped : Bool := false
deriving DecidableEq, Repr

namespace HostWalk

variable (c : Config) (w : HostWalk π α)

/-- Outside write-back a matched node without a Full host copy takes the fetched one. `none` is
the assertion that no backed node follows a refilled one. -/
def refill (d : Node π α) (prefixLen : Nat) : Option (HostWalk π α) :=
  if c.isWriteBack then some w
  else if d.backuped then
    if w.refilled.isSome then none
    else some { w with hostPrefixLen := w.hostPrefixLen + prefixLen }
  else
    let stored := w.core.modify [d.id] (Core.putHost .full (w.value.take prefixLen))
    some { w with
      core := (stored.updateEvictableLeafSets d.id).updateEvictableLeafSets d.parent
      refilled := some d.id }

/-- A step onto a child, or onto the matched half of it. -/
def step [DecidableEq π] (child : Node π α) : Option (HostWalk π α) :=
  let n := matchLen child.key w.key
  let (entered, d) := w.enter c child n
  (refill c { w with toInsertWalk := entered } d (n * c.pageSize)).map fun w =>
    { w with
      node := d.id
      total := w.total + n * c.pageSize
      key := w.key.drop n
      value := w.value.drop (n * c.pageSize) }

/-- The walk down; a step consumes a page at least. -/
def walk [DecidableEq π] (c : Config) : Nat → HostWalk π α → Option (HostWalk π α)
  | 0, w => some w
  | fuel + 1, w =>
    match w.core.child? w.node w.key with
    | none => some w
    | some child => (w.step c child).bind (walk c fuel)

/-- Is the walk below the root, on a node with a Full host copy? -/
def onBacked : Bool := (w.core.find? w.node).any Node.backuped

/-- What the host tier had already. -/
def prefixLen : Nat := if c.isWriteBack then w.total else w.hostPrefixLen

end HostWalk

namespace Core

/-- The new leaf of `insert_host`: Full, and on the host alone. -/
def addHostNode (core : Core π α) (parent : Nat) (key : List π) (v : List α) : Core π α :=
  let new : Node π α :=
    { id := core.nextId, parent := parent, key := key,
      data := fun ct => { hostValue := if ct = .full then some v else none } }
  let grown := { core with nodes := new :: core.nodes, nextId := core.nextId + 1 }
  (grown.updateEvictableLeafSets new.id).updateEvictableLeafSets parent

/-- `insert_host`: a fetched path below node `i`. Outside write-back the part that would hang
below a node without a host copy is dropped. -/
def insertHost [DecidableEq π] (c : Config) (core : Core π α) (i : Nat) (key : List π)
    (hostValue : List α) : Option (HostWalk π α × HostInsertResult) :=
  let w : HostWalk π α :=
    { core, node := i, total := 0, key, value := hostValue, actions := [], splits := [] }
  if core.known i then
    if key = [] then some (w, { prefixLen := 0, mambaExist := true })
    else
      (w.walk c key.length).map fun w =>
        let result : HostInsertResult :=
          { prefixLen := w.prefixLen c, totalLen := key.length * c.pageSize }
        if w.key = [] then
          (w, { result with insertedHostNode :=
            if w.node ≠ 0 ∧ (w.refilled.isSome ∨ w.onBacked) then some w.node else none })
        else if w.node ≠ 0 ∧ w.onBacked = false ∧ c.isWriteBack = false then
          (w, { result with hostInsertDropped := true })
        else
          ({ w with core := w.core.addHostNode w.node w.key w.value },
            { result with insertedHostNode := some w.core.nextId })
  else none

end Core

end Sglang.Tree
