/-
# The radix cache

`RadixCache` keeps the device slots of page-aligned token prefixes in a radix tree, one tree
for every namespace. A node holds a run of a key and its slots; its parent's dictionary holds
it under the child key of that run. Matching and inserting walk down from the root and split
the node they end in; eviction deletes unlocked leaves.

* `Cache.matchPrefix`, `Cache.insert` — the two walks.
* `Cache.evict` — pops leaves off a heap, and parents that become leaves.
* `Cache.incLockRef`, `Cache.decLockRef` — locks along the path to the root.

Every function that can raise returns an `Option`. The order in which the heap is popped is
an argument: access times, priorities and hit counts only decide that order.
-/

import Mathlib.Algebra.Ring.Int.Defs
import Mathlib.Algebra.Ring.Nat
import Mathlib.Data.Finset.Basic
import Sglang.Lib.Trie
import Sglang.Radix.Key

namespace Sglang.Radix

open Sglang.Lib

structure Config where
  pageSize : Nat
  pageSize_pos : 0 < pageSize
  isEagle : Bool
  disable : Bool

structure TreeNode where
  id : Nat
  parent : Nat
  /-- The key of the parent's dictionary under which the node is found. -/
  edge : ChildKey
  key : RadixKey
  value : List Int
  lockRef : Int := 0

/-- How nodes name themselves and their parents; the root is node `0`. -/
def links : Links TreeNode Nat := ⟨TreeNode.id, TreeNode.parent, 0⟩

structure Cache where
  nodes : List TreeNode
  nextId : Nat
  evictableSize : Int
  protectedSize : Int
  evictableLeaves : Finset Nat

structure MatchResult where
  devicePrefixLen : Nat
  lastDeviceNode : Nat
deriving DecidableEq, Repr

structure InsertResult where
  prefixLen : Nat
  lastDeviceNode : Nat
deriving DecidableEq, Repr

namespace Cache

/-- The root alone; it is not stored, and its one lock is never released. -/
def reset : Cache := ⟨[], 1, 0, 0, ∅⟩

variable (c : Config) (cache : Cache) (key : RadixKey)

def find? (i : Nat) : Option TreeNode :=
  cache.nodes.find? fun d => decide (d.id = i)

/-- `node.children[child_key]`. -/
def child? (i : Nat) (childKey : ChildKey) : Option TreeNode :=
  cache.nodes.find? fun d => decide (d.parent = i) && decide (d.edge = childKey)

/-- `len(node.children) > 0`. -/
def hasChildren (i : Nat) : Bool := cache.nodes.any fun d => decide (d.parent = i)

/-- The nodes from `i` up to the root, the root left out. -/
def spine (i : Nat) : List TreeNode := links.spine cache.nodes i

def pathDeviceIndices (i : Nat) : List Int :=
  (cache.spine i).reverse.flatMap TreeNode.value

/-- `_update_leaf_status`. The root is locked. -/
def updateLeafStatus (i : Nat) : Cache :=
  { cache with
    evictableLeaves :=
      if (cache.find? i).any fun d => decide (d.lockRef ≤ 0) && !cache.hasChildren i then
        insert i cache.evictableLeaves
      else cache.evictableLeaves.erase i }

/-! ### Matching -/

/-- The first part of a split node, its new parent. -/
def upper (edge : ChildKey) (splitLen new : Nat) (d : TreeNode) : TreeNode :=
  { d with id := new, edge := edge, key := d.key.slice 0 splitLen, value := d.value.take splitLen }

/-- The rest of a split node. -/
def lower (edge : ChildKey) (splitLen new : Nat) (d : TreeNode) : TreeNode :=
  { d with parent := new, edge := edge, key := d.key.slice splitLen d.key.len,
           value := d.value.drop splitLen }

/-- `_split_node`: the cache and the new node. -/
def splitNode (child : TreeNode) (splitLen : Nat) : Option (Cache × TreeNode) := do
  let below ← (child.key.slice splitLen child.key.len).childKey c.pageSize
  let above ← child.key.childKey c.pageSize
  let new := cache.nextId
  some ({ cache with
      nodes := links.expand child.id (lower below splitLen new) (upper above splitLen new) cache.nodes
      nextId := new + 1 }, upper above splitLen new child)

/-- The loop of `_match_prefix_helper`; a step consumes a page at least. -/
def matchPrefixHelper (c : Config) :
    Nat → Cache → Nat → RadixKey → List (List Int) → Option (Cache × List (List Int) × Nat)
  | 0, cache, node, _, value => some (cache, value, node)
  | fuel + 1, cache, node, key, value =>
    if key.len = 0 then some (cache, value, node)
    else do
      let childKey ← key.childKey c.pageSize
      match cache.child? node childKey with
      | none => some (cache, value, node)
      | some child =>
        let prefixLen ← child.key.match_ key c.pageSize
        if prefixLen < child.key.len then
          let (cache, new) ← cache.splitNode c child prefixLen
          some (cache, value ++ [new.value], new.id)
        else
          matchPrefixHelper c fuel cache child.id (key.slice prefixLen key.len)
            (value ++ [child.value])

def matchPrefix : Option (Cache × MatchResult) :=
  let key := key.maybeToBigramView c.isEagle
  if c.disable || key.len = 0 then some (cache, ⟨0, 0⟩)
  else
    let key := key.pageAligned c.pageSize
    if key.len = 0 then some (cache, ⟨0, 0⟩)
    else
      (cache.matchPrefixHelper c key.len 0 key []).map fun (cache, value, node) =>
        (cache, ⟨(value.map List.length).sum, node⟩)

/-! ### Inserting -/

/-- The loop of `_insert_helper`: the cache, the node it ends in, what is left of key and
value, and the matched length. -/
def insertWalk (c : Config) :
    Nat → Cache → Nat → RadixKey → List Int → Nat → Option (Cache × Nat × RadixKey × List Int × Nat)
  | 0, cache, node, key, value, total => some (cache, node, key, value, total)
  | fuel + 1, cache, node, key, value, total =>
    if key.len = 0 then some (cache, node, key, value, total)
    else do
      let childKey ← key.childKey c.pageSize
      match cache.child? node childKey with
      | none => some (cache, node, key, value, total)
      | some child =>
        let prefixLen ← child.key.match_ key c.pageSize
        let rest := key.slice prefixLen key.len
        if prefixLen < child.key.len then
          let (cache, new) ← cache.splitNode c child prefixLen
          insertWalk c fuel cache new.id rest (value.drop prefixLen) (total + prefixLen)
        else
          insertWalk c fuel cache child.id rest (value.drop prefixLen) (total + prefixLen)

/-- A new leaf for what is left of the key. -/
def addLeaf (node : Nat) (key : RadixKey) (value : List Int) : Option (Cache × Nat) := do
  let childKey ← key.childKey c.pageSize
  let new := cache.nextId
  let grown := { cache with
    nodes := ⟨new, node, childKey, key, value, 0⟩ :: cache.nodes
    nextId := new + 1
    evictableSize := cache.evictableSize + key.len }
  some ((grown.updateLeafStatus node).updateLeafStatus new, new)

/-- `_insert_helper`. -/
def insertHelper (value : List Int) : Option (Cache × InsertResult) := do
  let (cache, node, rest, value, total) ← cache.insertWalk c key.len 0 key value 0
  if rest.len = 0 then some (cache, ⟨total, node⟩)
  else
    let (cache, new) ← cache.addLeaf c node rest value
    some (cache, ⟨total, new⟩)

/-- The key an operation works with. -/
def viewOf : RadixKey :=
  (key.maybeToBigramView c.isEagle).pageAligned c.pageSize

/-- The slots an insert works with; without any, the tokens stand for them. -/
def slotsOf (value : Option (List Int)) : List Int :=
  (value.getD (viewOf c key).tokenIds).take (viewOf c key).len

def insert (value : Option (List Int)) : Option (Cache × InsertResult) :=
  if c.disable then some (cache, ⟨0, 0⟩)
  else cache.insertHelper c (viewOf c key) (slotsOf c key value)

/-! ### Locks -/

/-- Add to the locks of a node; the first lock and the last release move its tokens. -/
def addLock (delta : Int) (cache : Cache) (d : TreeNode) : Cache :=
  let moved : Int :=
    if delta = 1 ∧ d.lockRef = 0 then d.key.len else if delta = -1 ∧ d.lockRef = 1 then -d.key.len
    else 0
  let nodes := cache.nodes.map fun e =>
    if e.id = d.id then { e with lockRef := e.lockRef + delta } else e
  { cache with
    nodes := nodes
    evictableSize := cache.evictableSize - moved
    protectedSize := cache.protectedSize + moved }.updateLeafStatus d.id

/-- `inc_lock_ref`. -/
def incLockRef (i : Nat) : Cache :=
  if c.disable then cache else (cache.spine i).foldl (addLock 1) cache

/-- `dec_lock_ref`. -/
def decLockRef (i : Nat) : Cache :=
  if c.disable then cache else (cache.spine i).foldl (addLock (-1)) cache

/-! ### Eviction -/

/-- `_delete_leaf`, with its assertion that the parent holds the node. -/
def deleteLeaf (d : TreeNode) : Option Cache := do
  let childKey ← d.key.childKey c.pageSize
  let v ← cache.child? d.parent childKey
  if v.id = d.id then
    some ({ cache with
      nodes := cache.nodes.filter fun e => decide (e.id ≠ d.id)
      evictableSize := cache.evictableSize - d.key.len
      evictableLeaves := cache.evictableLeaves.erase d.id }.updateLeafStatus d.parent)
  else none

/-- The words whose slots a node holds, as the removal events report them. -/
def words (d : TreeNode) : List (List Page) :=
  let above := (cache.spine d.parent).reverse.flatMap fun e => e.key.pages c.pageSize
  (List.range (d.key.pages c.pageSize).length).map fun j =>
    above ++ (d.key.pages c.pageSize).take (j + 1)

/-- What an eviction leaves: the cache, the freed slots and the words it no longer has. -/
structure Evicted where
  cache : Cache
  freed : List Int
  gone : List (List Page)

/-- The loop of `evict`: pop a leaf, delete it, and push its parent if that is a leaf now. -/
def evictLoop (c : Config) (pop : Finset Nat → Nat) (numTokens : Nat) :
    Nat → Finset Nat → Evicted → Option Evicted
  | 0, _, e => some e
  | fuel + 1, heap, e =>
    if e.freed.length < numTokens ∧ heap.Nonempty then do
      let x ← e.cache.find? (pop heap)
      let cache ← e.cache.deleteLeaf c x
      let pushed := !cache.hasChildren x.parent &&
        (cache.find? x.parent).any fun p => decide (p.lockRef = 0)
      let heap := heap.erase x.id
      evictLoop c pop numTokens fuel (if pushed then Insert.insert x.parent heap else heap)
        ⟨cache, e.freed ++ x.value, e.gone ++ e.cache.words c x⟩
    else some e

def evict (numTokens : Nat) (pop : Finset Nat → Nat) : Option Evicted :=
  if c.disable then some ⟨cache, [], []⟩
  else evictLoop c pop numTokens cache.nodes.length cache.evictableLeaves ⟨cache, [], []⟩

end Cache

end Sglang.Radix
