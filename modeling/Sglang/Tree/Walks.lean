/-
# The unified radix tree: matching and inserting

`Core.matchPrefix` walks down from the root while the next page of the key names a child,
splits at the point of divergence and reports the deepest node every component accepts.
`Core.insert` walks the same way with the slots of a request: duplicates are freed, nodes
without a device value take the request's slots, windows that lost their SWA value are
recovered from them, and what is left of the key becomes a new leaf.

The cache runs the actions of an insert at barriers between its steps. The ones that write
to the tree (`swaRebuild`, `recoverSwaWithLockedFull`) are applied where they are emitted.
-/

import Sglang.Tree.Core

namespace Sglang.Tree

variable {π α : Type}

/-- The number of pages two keys share from the start. -/
def matchLen [DecidableEq π] : List π → List π → Nat
  | a :: as, b :: bs => if a = b then matchLen as bs + 1 else 0
  | _, _ => 0

namespace Core

/-- The child of node `i` that the next page of `key` names. -/
def child? [DecidableEq π] (core : Core π α) (i : Nat) (key : List π) : Option (Node π α) :=
  key.head?.bind fun page =>
    core.nodes.find? fun d => decide (d.parent = i) && decide (d.key.head? = some page)

end Core

/-! ### Matching -/

/-- Does the node hold data a match may end on: on the device, or on the host unless only
the device counts. -/
def ComponentData.present (deviceOnly : Bool) (cd : ComponentData α) : Bool :=
  cd.value.isSome || (!deviceOnly && cd.hostValue.isSome)

variable (c : Config)

/-- SWA's validator and its running length since the last gap, `none` while there was
none. -/
def swaValid (deviceOnly : Bool) (run : Option Nat) (d : Node π α) : Bool × Option Nat :=
  if (d.data .swa).present deviceOnly then
    let run := run.map (· + d.len c)
    (run.all fun n => decide (c.slidingWindowSize ≤ n), run)
  else
    (!c.gatesPrefixMatch && (d.backuped || !d.evicted), some 0)

/-- All validators of one match, and SWA's state afterwards. With `fullOnly` the auxiliary
components are not asked. -/
def allValid (fullOnly deviceOnly : Bool) (run : Option Nat) (d : Node π α) : Bool × Option Nat :=
  let full := (d.data .full).present deviceOnly
  if fullOnly then (full, run)
  else
    let swa := if c.hasSwa then swaValid c deviceOnly run d else (true, run)
    let mamba := !c.hasMamba || (d.data .mamba).present deviceOnly
    (full && swa.1 && mamba, swa.2)

/-- The state of one `match_prefix` walk. -/
structure MatchWalk (π α : Type) where
  core : Core π α
  node : Nat
  key : List π
  value : List (List α) := []
  bestMatchNode : Nat := 0
  bestMatchDeviceNode : Nat := 0
  bestMatchDeviceValueLen : Nat := 0
  fullKvHitLength : Nat := 0
  /-- SWA's running lengths, of the validators and of the device-only ones. -/
  run : Option Nat := none
  deviceRun : Option Nat := none
  action : Option (Action α) := none
  /-- The split the walk ended in: the child and its new parent. -/
  splits : List (Nat × Nat) := []

namespace MatchWalk

/-- Step onto a matched node: collect its slots and update the best matches. -/
def visit (fullOnly : Bool) (w : MatchWalk π α) (d : Node π α) (n : Nat) : MatchWalk π α :=
  let value := if d.evicted then w.value else w.value ++ [(d.data .full).value.getD []]
  let valid := allValid c fullOnly (!c.enableHicache) w.run d
  -- without a host tier the device-only validators decide both matches
  let device := if c.enableHicache then allValid c fullOnly true w.deviceRun d
    else (valid.1, w.deviceRun)
  { w with
    node := d.id
    key := w.key.drop n
    value := value
    bestMatchNode := if valid.1 then d.id else w.bestMatchNode
    bestMatchDeviceNode := if device.1 then d.id else w.bestMatchDeviceNode
    bestMatchDeviceValueLen := if device.1 then value.length else w.bestMatchDeviceValueLen
    fullKvHitLength := w.fullKvHitLength + n * c.pageSize
    run := valid.2
    deviceRun := device.2 }

/-- The walk, one node of the path a step; a step consumes a page at least. -/
def walk [DecidableEq π] (c : Config) (fullOnly : Bool) : Nat → MatchWalk π α → MatchWalk π α
  | 0, w => w
  | fuel + 1, w =>
    match w.core.child? w.node w.key with
    | none => w
    | some child =>
      -- a node without Full on either tier ends the walk
      if child.evicted && !child.backuped then w
      else
        let n := matchLen child.key w.key
        if n < child.key.length then
          let (core, new, action) := w.core.splitNode c child n
          visit c fullOnly { w with core := core, action := action,
                                    splits := [(child.id, new.id)] } new n
        else walk c fullOnly fuel (visit c fullOnly w child n)

end MatchWalk

structure MatchResult where
  devicePrefixLen : Nat
  lastDeviceNode : Nat
  lastHostNode : Nat
  bestMatchNode : Nat
  hostHitLength : Nat
  fullKvHitLength : Nat
  swaHostHitLength : Nat
  swaBranchingSeqlen : Option Nat
  mambaHostHitLength : Nat
  mambaBranchingSeqlen : Option Nat
deriving DecidableEq, Repr

/-- The Full host slots between the best match and the device match. -/
def fullHostHit (core : Core π α) (best device : Nat) : Nat :=
  (((core.spine best).takeWhile fun d => decide (d.id ≠ device)).map fun d =>
    ((d.data .full).hostValue.map List.length).getD 0).sum

/-- The SWA host slots within one window above the best match. -/
def swaHostHit (c : Config) : Nat → List (Node π α) → Nat
  | _, [] => 0
  | covered, d :: up =>
    if covered < c.slidingWindowSize then
      match (d.data .swa).value, (d.data .swa).hostValue with
      | some device, _ => swaHostHit c (covered + device.length) up
      | none, some host => host.length + swaHostHit c (covered + host.length) up
      | none, none => 0
    else 0

/-- The largest multiple of `grid` inside the Full hit, if it lies beyond `boundary`. -/
def branchingSeqlen (grid hit boundary : Nat) : Option Nat :=
  let aligned := hit / grid * grid
  if boundary < aligned then some aligned else none

/-- `_match_post_processor` without its recency updates. -/
def MatchWalk.result (w : MatchWalk π α) : MatchResult :=
  let devicePrefixLen := ((w.value.take w.bestMatchDeviceValueLen).map List.length).sum
  let hostHitLength := fullHostHit w.core w.bestMatchNode w.bestMatchDeviceNode
  let boundary := devicePrefixLen + hostHitLength
  { devicePrefixLen := devicePrefixLen
    lastDeviceNode := w.bestMatchDeviceNode
    lastHostNode := if c.enableHicache then w.bestMatchNode else w.bestMatchDeviceNode
    bestMatchNode := w.bestMatchNode
    hostHitLength := hostHitLength
    fullKvHitLength := w.fullKvHitLength
    swaHostHitLength := if c.hasSwa then swaHostHit c 0 (w.core.spine w.bestMatchNode) else 0
    swaBranchingSeqlen :=
      if c.hasSwa then branchingSeqlen c.pageSize w.fullKvHitLength boundary else none
    mambaHostHitLength :=
      if c.hasMamba ∧ ((w.core.find? w.bestMatchNode).any fun d =>
        (d.data .mamba).value.isNone && (d.data .mamba).hostValue.isSome) then 1 else 0
    mambaBranchingSeqlen :=
      if c.hasMamba then branchingSeqlen c.mambaCheckpointGrid w.fullKvHitLength boundary
      else none }

namespace Core

def matchWalk [DecidableEq π] (c : Config) (core : Core π α) (key : List π) (returnFullMatch : Bool) :
    MatchWalk π α :=
  MatchWalk.walk c returnFullMatch key.length { core := core, node := 0, key := key }

/-- `match_prefix` of a page-aligned key. -/
def matchPrefix [DecidableEq π] (c : Config) (core : Core π α) (key : List π) (returnFullMatch : Bool) :
    Core π α × MatchResult × Option (Action α) :=
  let w := core.matchWalk c key returnFullMatch
  (w.core, w.result c, w.action)

/-! ### The writes of an insert -/

/-- `set_component_device_value`: a value stored under a lock is protected. -/
def setComponentDeviceValue (core : Core π α) (i : Nat) (ct : Component) (v : List α) : Core π α :=
  (core.find? i).elim core fun d =>
    let stored := core.modify [i] fun d => d.put ct { d.data ct with value := some v }
    if 0 < (d.data ct).lockRef then stored.addProtected ct v.length
    else stored.addEvictable ct v.length

/-- `_unevict_node_on_insert`. -/
def unevictNodeOnInsert (core : Core π α) (d : Node π α) (fresh : List α) : Core π α :=
  let stored := core.modify [d.id] fun d =>
    d.put .full { d.data .full with value := some fresh }
  let counted := if 0 < (d.data .full).lockRef then stored.addProtected .full fresh.length
    else stored.addEvictable .full fresh.length
  (counted.updateEvictableLeafSets d.id).updateEvictableLeafSets d.parent

/-- `_add_new_node`, and the new node. -/
def addNewNode (core : Core π α) (parent : Nat) (key : List π) (value : List α)
    (rotationBase : Option Nat) : Core π α × Node π α :=
  let new : Node π α :=
    { id := core.nextId, parent := parent, key := key, rotationBase := rotationBase,
      data := fun ct => { value := if ct = .full then some value else none } }
  let grown := { core with nodes := new :: core.nodes, nextId := core.nextId + 1 }
  (((grown.addEvictable .full value.length).updateEvictableLeafSets new.id).updateEvictableLeafSets
    parent, new)

/-- `_build_backup_kv_action` outside write-back: the node after its unbacked ancestors. -/
def backupChain (core : Core π α) (d : Node π α) : List Nat :=
  (d.id :: links.tags ((core.spine d.parent).takeWhile fun e => !e.backuped)).reverse

/-- `_inc_hit_count_and_check` of a node. -/
def incHitCountAndCheck (core : Core π α) (d : Node π α) : Core π α × Bool :=
  if d.evicted || c.isWriteBack then (core, false)
  else
    (core.modify [d.id] fun d => { d with hitCount := d.hitCount + 1 },
      c.enableHicache && !d.backuped && decide (c.writeThroughThreshold ≤ d.hitCount + 1))

end Core

/-! ### Inserting -/

structure InsertParams (π α : Type) where
  /-- The page-aligned key and as many slots. -/
  key : List π
  value : List α
  prevPrefixLen : Nat
  /-- The request's own SWA eviction floor. -/
  swaEvictedSeqlen : Nat
  mambaValue : Option (List α)
  rotationBase : Option Nat
  insertedLen : Nat
  /-- The allocator's mapping from Full to SWA slots when a window is published. -/
  fullToSwa : α → α

/-- `_InsertWalkState`. -/
structure InsertWalk (π α : Type) where
  core : Core π α
  node : Nat
  /-- `total_prefix_length`, in tokens. -/
  total : Nat
  key : List π
  value : List α
  actions : List (Action α)
  /-- Every split of the walk: the child and its new parent. -/
  splits : List (Nat × Nat)

namespace InsertWalk

variable (w : InsertWalk π α)

def emit (actions : List (Action α)) : InsertWalk π α :=
  { w with actions := w.actions ++ actions }

/-- Split a node after `n` pages: the walk, the new parent and the child. -/
def split (d : Node π α) (n : Nat) : InsertWalk π α × Node π α × Node π α :=
  let (core, new, action) := w.core.splitNode c d n
  ({ w with
      core := core
      actions := w.actions ++ action.toList
      splits := w.splits ++ [(d.id, new.id)] }, new, d.lower c n new.id)

variable (p : InsertParams π α)

/-- `_publish_window`, with the rebuild it asks for. -/
def publishWindow (w : InsertWalk π α) (d : Node π α) : InsertWalk π α :=
  let full := (d.data .full).value.getD []
  { w with core := w.core.setComponentDeviceValue d.id .swa (full.map p.fullToSwa) }.emit
    [.swaRebuild d.id full]

/-- `_recover_from_incoming`: a locked Full value stays and only the window changes hands. -/
def recoverFromIncoming (w : InsertWalk π α) (d : Node π α) (incoming : List α) : InsertWalk π α :=
  let oldFull := (d.data .full).value.getD []
  if 0 < (d.data .full).lockRef then
    { w with core := w.core.setComponentDeviceValue d.id .swa (incoming.map p.fullToSwa) }.emit
      [.recoverSwaWithLockedFull d.id oldFull incoming]
  else
    let adopt := fun d : Node π α => d.put .full { d.data .full with value := some incoming }
    publishWindow p
      ({ w with core := w.core.modify [d.id] adopt }.emit [.freeDeviceKVFullOnly oldFull])
      (adopt d)

/-- `_clip_to_window` of a node that starts at `start`: the part of it inside the request's
window, and where that part starts. The floor must be page-aligned. -/
def clipToWindow (c : Config) (p : InsertParams π α) (w : InsertWalk π α) (d : Node π α)
    (start : Nat) : Option (InsertWalk π α × Option (Node π α × Nat)) :=
  if (d.data .swa).value.isSome then some (w, none)
  else if p.swaEvictedSeqlen % c.pageSize = 0 then
    let live := max start p.swaEvictedSeqlen
    if start + d.len c ≤ live then some (w, none)
    else if start < live then
      let (w, _, child) := w.split c d ((live - start) / c.pageSize)
      some (w, some (child, live))
    else some (w, some (d, live))
  else none

/-- `update_component_on_insert_overlap` of SWA, and where it starts to own the slots. -/
def updateOnOverlap (c : Config) (p : InsertParams π α) (w : InsertWalk π α) (d : Node π α)
    (prefixLen : Nat) (slice : List α) : Option (InsertWalk π α × Nat) :=
  if c.hasSwa ∧ p.prevPrefixLen < w.total + prefixLen then
    (w.clipToWindow c p d w.total).map fun (clipped, window) =>
      match window with
      | none => (clipped, prefixLen)
      | some (d, live) =>
        (clipped.recoverFromIncoming p d (slice.drop (live - w.total)), live - w.total)
  else
    some (w, prefixLen)

/-- Free the request's duplicates of a matched node. Below the request's floor only the Full
side is still its own. -/
def freeDuplicates (w : InsertWalk π α) (slice : List α) (consumedFrom : Nat) : InsertWalk π α :=
  let dupStart := p.prevPrefixLen - w.total
  let dup := (slice.take consumedFrom).drop dupStart
  let swaAlreadyFreed := min (p.swaEvictedSeqlen - (w.total + dupStart)) dup.length
  if dupStart < consumedFrom then
    w.emit ((if 0 < swaAlreadyFreed then [.freeDeviceKVFullOnly (dup.take swaAlreadyFreed)] else [])
      ++ (if swaAlreadyFreed < dup.length then [.freeDeviceKV (dup.drop swaAlreadyFreed)] else []))
  else w

/-- `recover_after_unevict` of SWA. -/
def recoverAfterUnevict (w : InsertWalk π α) (d : Node π α) : Option (InsertWalk π α) :=
  if c.hasSwa then
    (w.clipToWindow c p d w.total).map fun (clipped, window) =>
      window.elim clipped fun (d, _) => clipped.publishWindow p d
  else some w

/-- The node a walk step works on: the child, or the matched half of it. -/
def enter (child : Node π α) (n : Nat) : InsertWalk π α × Node π α :=
  if n < child.key.length then
    let (w, new, _) := w.split c child n
    (w, new)
  else (w, child)

/-- What a walk step does with the slots that overlap a node. -/
def adopt (w : InsertWalk π α) (d : Node π α) (prefixLen : Nat) : Option (InsertWalk π α) :=
  let slice := w.value.take prefixLen
  if d.evicted then
    { w with core := w.core.unevictNodeOnInsert d slice }.recoverAfterUnevict c p
      (d.put .full { d.data .full with value := some slice })
  else
    (w.updateOnOverlap c p d prefixLen slice).map fun (w, consumedFrom) =>
      w.freeDuplicates p slice consumedFrom

/-- Count the hit of a visited node, and move on below it. -/
def advance (w : InsertWalk π α) (i n : Nat) : InsertWalk π α :=
  let stop := w.total + n * c.pageSize
  let hit := (w.core.find? i).elim (w.core, none) fun d =>
    if p.insertedLen < stop then
      let (core, fire) := w.core.incHitCountAndCheck c d
      (core, if fire then some (core.backupChain d) else none)
    else (w.core, none)
  { w with
    core := hit.1
    actions := w.actions ++ (hit.2.map Action.backupKV).toList
    node := i
    total := stop
    key := w.key.drop n
    value := w.value.drop (n * c.pageSize) }

/-- `_insert_walk_step` onto a child. -/
def step [DecidableEq π] (c : Config) (p : InsertParams π α) (w : InsertWalk π α) (child : Node π α) :
    Option (InsertWalk π α) :=
  let n := matchLen child.key w.key
  let (w, d) := w.enter c child n
  (w.adopt c p d (n * c.pageSize)).map fun w => w.advance c p d.id n

/-- The walk down; a step consumes a page at least. -/
def walk [DecidableEq π] (c : Config) (p : InsertParams π α) : Nat → InsertWalk π α → Option (InsertWalk π α)
  | 0, w => some w
  | fuel + 1, w =>
    match w.core.child? w.node w.key with
    | none => some w
    | some child => (w.step c p child).bind (walk c p fuel)

/-- `_maybe_split_leaf_for_swa_lock` of a fresh leaf: the walk, the older window if one was
split off, and the leaf. -/
def maybeSplitLeaf (leaf : Node π α) : InsertWalk π α × Option (Node π α) × Node π α :=
  let tail := (c.slidingWindowSize + c.pageSize - 1) / c.pageSize
  if (leaf.data .swa).lockRef = 0 ∧ tail < leaf.key.length then
    let (w, new, child) := w.split c leaf (leaf.key.length - tail)
    (w, some new, child)
  else (w, none, leaf)

/-- `commit_insert_component_data` of SWA for a new leaf. -/
def commitSwa (w : InsertWalk π α) (leaf : Node π α) : Option (InsertWalk π α) :=
  if c.hasSwa then
    (w.clipToWindow c p leaf w.total).map fun (clipped, window) =>
      window.elim clipped fun (d, _) =>
        let (w, older, d) := clipped.maybeSplitLeaf c d
        let w := older.elim w fun older => w.publishWindow p older
        w.publishWindow p d
  else some w

/-- `commit_insert_component_data` of Mamba, and whether a state was there already. -/
def commitMamba (w : InsertWalk π α) (i : Nat) : Option (InsertWalk π α × Bool) :=
  if c.hasMamba then
    p.mambaValue.map fun state =>
      if (w.core.find? i).any fun d => (d.data .mamba).value.isSome then (w, true)
      else
        ({ w with core := w.core.setComponentDeviceValue i .mamba state }.emit
          (if c.mambaMaxStatesPerPath.isSome then [.mambaEvictExcessPathStates i] else []), false)
  else some (w, false)

/-- The SWA values within one window of a node that have no host copy yet. -/
def unbackedSwa (c : Config) : Nat → List (Node π α) → List Nat
  | _, [] => []
  | covered, d :: up =>
    if covered < c.slidingWindowSize ∧ d.writeThroughPendingId = none then
      match (d.data .swa).value, (d.data .swa).hostValue with
      | some device, none => d.id :: unbackedSwa c (covered + device.length) up
      | some device, some _ => unbackedSwa c (covered + device.length) up
      | none, some host => unbackedSwa c (covered + host.length) up
      | none, none => []
    else []

/-- `_insert_tail_step`: a backup of the new leaf, or of what an existing backed-up target
has gained. -/
def backupTarget (w : InsertWalk π α) (target : Nat) (isNewLeaf : Bool) : InsertWalk π α :=
  (w.core.find? target).elim w fun d =>
    if c.isWriteBack then w
    else if isNewLeaf then
      if p.insertedLen < w.total + d.len c then
        let (core, fire) := w.core.incHitCountAndCheck c d
        { w with core := core }.emit (if fire then [.backupKV (core.backupChain d)] else [])
      else w
    else if c.enableHicache ∧ d.backuped ∧ d.writeThroughPendingId = none ∧
        ((c.hasSwa ∧ c.hasSwaHostPool ∧ unbackedSwa c 0 (w.core.spine target) ≠ []) ∨
          (c.hasMamba ∧ (d.data .mamba).value.isSome ∧ (d.data .mamba).hostValue.isNone)) then
      w.emit [.backupKV (w.core.backupChain d)]
    else w

end InsertWalk

structure InsertResult where
  prefixLen : Nat
  lastDeviceNode : Nat
  mambaExist : Bool
  rotationTailDeclined : Bool
deriving DecidableEq, Repr

namespace Core

/-- `_rotation_conflict`: the matched length and the deepest matched node, read only. -/
def rotationWalk [DecidableEq π] (c : Config) (core : Core π α) : Nat → Nat → Nat → List π → Nat × Nat
  | 0, i, total, _ => (total, i)
  | fuel + 1, i, total, key =>
    match core.child? i key with
    | none => (total, i)
    | some child =>
      let n := matchLen child.key key
      if n < child.key.length then (total + n * c.pageSize, child.id)
      else rotationWalk c core fuel child.id (total + n * c.pageSize) (key.drop n)

def rotationConflict [DecidableEq π] (c : Config) (core : Core π α) (p : InsertParams π α) :
    Option (Nat × Nat) :=
  p.rotationBase.bind fun base =>
    let found := core.rotationWalk c p.key.length 0 0 p.key
    if found.2 = 0 ∨ (core.find? found.2).any fun d => d.rotationBase == some base then none
    else some found

/-- The commit and tail phases of an insert whose walk is over. -/
def commitInsert (p : InsertParams π α) (w : InsertWalk π α) :
    Option (InsertWalk π α × InsertResult) :=
  if w.key = [] then
    (w.commitMamba c p w.node).map fun (w', mambaExist) =>
      (w'.backupTarget c p w.node false, ⟨w.total, w.node, mambaExist, false⟩)
  else
    let (core, leaf) := w.core.addNewNode w.node w.key w.value p.rotationBase
    (InsertWalk.commitSwa c p { w with core := core } leaf).bind fun w' =>
      (w'.commitMamba c p leaf.id).map fun (w'', mambaExist) =>
        (w''.backupTarget c p leaf.id true, ⟨w.total, leaf.id, mambaExist, false⟩)

/-- `insert` run to completion. -/
def insert [DecidableEq π] (c : Config) (core : Core π α) (p : InsertParams π α) :
    Option (InsertWalk π α × InsertResult) :=
  let w : InsertWalk π α :=
    ⟨core, 0, 0, p.key, p.value.take (p.key.length * c.pageSize), [], []⟩
  if p.key = [] then some (w, ⟨0, 0, true, false⟩)
  else
    match core.rotationConflict c p with
    | some (matched, node) => some (w, ⟨matched, node, false, true⟩)
    | none => (w.walk c p p.key.length).bind (commitInsert c p)

end Core

end Sglang.Tree
