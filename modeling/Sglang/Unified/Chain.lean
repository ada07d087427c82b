/-
# The chain of sub-pools over one buffer

Two end pools grow towards each other, optionally with a float between them. This module
is the model of their allocation surface: the frontiers each pool sees of its neighbours,
the shortfall ladder `_relieve_for_alloc`, and `alloc`, `alloc_extend`, `alloc_decode`,
`alloc_with_virtual` and `alloc_physical` on top of it.
-/

import Sglang.Unified.SubPool

namespace Sglang.Unified

open Sglang.Alloc (pagesFor expandPages ExtendRow DecodeRow getNumNewPages getNumNewPagesDecode
  extendRows)

/-- The members of a chain, from byte 0 upwards. -/
inductive Member where
  | low
  | mid
  | high
  deriving DecidableEq

/-- A chain of sub-pools over one buffer. -/
structure Layout where
  low : SubPool
  mid : Option SubPool
  high : SubPool
  low_up : low.growDirection = .up
  mid_float : ∀ c ∈ mid, c.growDirection = .float
  high_down : high.growDirection = .down
  same_buffer : high.totalBytes = low.totalBytes ∧ high.reservedFloor = low.reservedFloor
  mid_buffer : ∀ c ∈ mid, c.totalBytes = low.totalBytes ∧ c.reservedFloor = low.reservedFloor

namespace Layout

variable (l : Layout)

def pool : Member → Option SubPool
  | .low => some l.low
  | .mid => l.mid
  | .high => some l.high

end Layout

/-- The state of every member; a member the layout lacks has no say in anything. -/
abbrev Chain (γ : Type) := Member → Pool γ

namespace Chain

variable {γ : Type} [Zero γ] (l : Layout)

variable (c : SubPool) (s : Chain γ) (m : Member)

/-- The float, unless its neighbours see through it. -/
def opaqueMid : Option SubPool := l.mid.filter fun c => !(s .mid).isFrontierTransparent c

/-- `_chain_low_frontier_above_bytes`. -/
def lowFrontierAbove : Member → Nat
  | .low =>
    match opaqueMid l s with
    | some c => (s .mid).byteLowFrontier c
    | none => (s .high).byteLowFrontier l.high
  | .mid => (s .high).byteLowFrontier l.high
  | .high => l.low.totalBytes

/-- `_chain_high_frontier_below_bytes`. -/
def highFrontierBelow : Member → Nat
  | .low => 0
  | .mid => (s .low).byteHighFrontier l.low
  | .high =>
    match opaqueMid l s with
    | some c => (s .mid).byteHighFrontier c
    | none => (s .low).byteHighFrontier l.low

def bounds : Bounds := ⟨highFrontierBelow l s m, lowFrontierAbove l s m⟩

def availableSize : Nat :=
  (s m).availableSize c (bounds l s m)

/-- Replace the state of one member. -/
def set (pool : Pool γ) : Chain γ := Function.update s m pool

/-- `_flush` of one member. -/
def flush (fired : Nat → Bool) (urgent : Bool) (s : Chain γ) (m : Member) : Option (Chain γ × Nat) :=
  (l.pool m).bind fun c => ((s m).flush c fired urgent).map fun (pool, moved) => (set s m pool, moved)

/-- `make_room` of the float. -/
def makeRoom (side : Pool.Side) (minBytes : Nat) (s : Chain γ) : Option (Chain γ × Nat) :=
  l.mid.bind fun c =>
    ((s .mid).makeRoom c (bounds l s .mid) side minBytes).map fun (pool, bytes) =>
      (set s .mid pool, bytes)

/-- `compact_holes` of the float. -/
def compactHoles (side : Pool.Side) (s : Chain γ) : Option (Chain γ × Nat) :=
  l.mid.bind fun c =>
    ((s .mid).compactHoles c side).map fun (pool, moved) => (set s .mid pool, moved)

/-- `_growth_side_neighbor`. A float answers as a pool that grows down. -/
def growthSideNeighbor : Member → Option Member
  | .low => if (opaqueMid l s).isSome then some .mid else some .high
  | .mid => some .low
  | .high => if (opaqueMid l s).isSome then some .mid else some .low

/-- Pages asked of each member; zero for the members an operation does not touch. -/
structure Demand where
  low : Nat
  mid : Nat
  high : Nat

/-- The index space of a member can hold `pages` more. -/
def indexRoom (pages : Nat) : Bool :=
  match l.pool m with
  | none => true
  | some c => decide (pages ≤ c.numPages - c.minPageIndex - (s m).allocatedPages c)

/-- The bytes by which an end pool has to grow for `pages` more. -/
def growthBytes (pages : Nat) : Nat :=
  (pages - if c.lazyCompaction then (s m).freePhysPages.length else 0) * c.entryBytesPerPage

/-- The largest page among the members something is asked of. -/
def slack (demand : Demand) : Nat :=
  max (max (if 0 < demand.low then l.low.entryBytesPerPage else 0)
    (if 0 < demand.mid then c.entryBytesPerPage else 0))
    (if 0 < demand.high then l.high.entryBytesPerPage else 0)

/-- `_float_open_short_side`: which side of the float to open, and how far. -/
def roomToOpen (demand : Demand) : Option (Pool.Side × Nat) :=
  (opaqueMid l s).bind fun c =>
    if demand.low = 0 ∧ demand.mid = 0 ∧ demand.high = 0 then none
    else if !(indexRoom l s .low demand.low && indexRoom l s .mid demand.mid
        && indexRoom l s .high demand.high) then none
    else
      let needLow := growthBytes l.low s .low demand.low
      let needHigh := growthBytes l.high s .high demand.high
      let bandLow := (s .mid).byteLowFrontier c - highFrontierBelow l s .mid
      let bandHigh := lowFrontierAbove l s .mid - (s .mid).byteHighFrontier c
      let floatBytes := (demand.mid - (s .mid).holePages) * c.entryBytesPerPage
      let slack := slack l c demand
      -- a side is short when its band is smaller than what is asked of it
      if bandLow < needLow ∧ bandHigh < needHigh then none
      else if bandLow < needLow then
        let target := needLow + (floatBytes - (bandHigh - needHigh)) + slack
        if bandLow < target then some (.low, target) else none
      else if bandHigh < needHigh then
        let target := needHigh + (floatBytes - (bandLow - needLow)) + slack
        if bandHigh < target then some (.high, target) else none
      else if max (bandLow - needLow) (bandHigh - needHigh) < floatBytes then
        if bandHigh - needHigh ≤ bandLow - needLow then some (.low, needLow + floatBytes + slack)
        else some (.high, needHigh + floatBytes + slack)
      else none

/-- `_float_open_short_side`. -/
def floatOpenShortSide (demand : Demand) : Option (Chain γ) :=
  match roomToOpen l s demand with
  | none => some s
  | some (side, bytes) => (makeRoom l side bytes s).map Prod.fst

/-- A demand on one member only. -/
def Demand.only (pages : Nat) : Demand :=
  match m with
  | .low => ⟨pages, 0, 0⟩
  | .mid => ⟨0, pages, 0⟩
  | .high => ⟨0, 0, pages⟩

/-- `_ask_float_for_room`. -/
def askFloatForRoom (needTokens : Nat) : Option (Chain γ) :=
  if growthSideNeighbor l s m = some .mid then
    floatOpenShortSide l s (.only m (pagesFor c.pageSize needTokens))
  else some s

/-- `_relieve_for_alloc`: the chain after the ladder, and whether the tokens fit now. -/
def relieveForAlloc (fired : Nat → Bool) (c : SubPool) (s : Chain γ) (m : Member)
    (needTokens : Nat) : Option (Chain γ × Bool) :=
  (match growthSideNeighbor l s m with
    | none => some s
    | some neighbor => (flush l fired true s neighbor).map Prod.fst).bind fun s =>
  if needTokens ≤ availableSize l c s m then some (s, true)
  else (askFloatForRoom l c s m needTokens).map fun s =>
    (s, decide (needTokens ≤ availableSize l c s m))

/-- The gate in front of every allocation. -/
def ensureAvailable (fired : Nat → Bool) (c : SubPool) (s : Chain γ) (m : Member)
    (needTokens : Nat) : Option (Chain γ × Bool) :=
  if needTokens ≤ availableSize l c s m then some (s, true)
  else relieveForAlloc l fired c s m needTokens

/-- Take the first `n` free virtual ids and bind them; the chain is unchanged on
shortfall. -/
def bindFreeIds (n : Nat) : Option (Chain γ × List Nat) :=
  let vPages := (s m).freeVirtualIds.take n
  ((s m).allocBindFastOrSlow c (bounds l s m) vPages).map fun (pool, _) =>
    (set s m { pool with freeVirtualIds := pool.freeVirtualIds.drop n }, vPages)

/-- `alloc`: `none` where an assertion fails. -/
def alloc (fired : Nat → Bool) (s : Chain γ) (m : Member) (needSize : Nat) :
    Option (Chain γ × Option (List Nat)) :=
  (l.pool m).bind fun c =>
  if !c.isIdOwner then none
  else if needSize = 0 then some (s, some [])
  else if needSize % c.pageSize = 0 then
    (ensureAvailable l fired c s m needSize).map fun (s, fits) =>
      let numPages := needSize / c.pageSize
      if !fits then (s, none)
      else if (s m).freeVirtualIds.length < numPages then (s, none)
      else match bindFreeIds l c s m numPages with
        | none => (s, none)
        | some (s, vPages) => (s, some (expandPages c.pageSize vPages))
  else none

/-- `alloc_with_virtual`: `none` when the pages do not fit. -/
def allocWithVirtual (virtualPages : List Nat) : Option (Chain γ) :=
  (l.pool m).bind fun c =>
    ((s m).allocBindFastOrSlow c (bounds l s m) virtualPages).map fun (pool, _) => set s m pool

/-- What `alloc_extend` and `alloc_decode` share: gate `numNewPages`, bind them, and hand
out the slots `out` computes from the free virtual ids. -/
def allocRows (fired : Nat → Bool) (s : Chain γ) (m : Member) (numNewPages : SubPool → Nat)
    (out : SubPool → List Nat → List Nat) : Option (Chain γ × Option (List Nat)) :=
  (l.pool m).bind fun c =>
  if !c.isIdOwner then none
  else if (s m).freeVirtualIds.length < numNewPages c then some (s, none)
  else (ensureAvailable l fired c s m (numNewPages c * c.pageSize)).map fun (s, fits) =>
    if !fits then (s, none)
    else match bindFreeIds l c s m (numNewPages c) with
      | none => (s, none)
      | some (s', _) => (s', some (out c (s m).freeVirtualIds))

/-- `alloc_extend`. -/
def allocExtend (fired : Nat → Bool) (s : Chain γ) (m : Member) (rows : List ExtendRow)
    (numNewPages : Option Nat) : Option (Chain γ × Option (List Nat)) :=
  allocRows l fired s m (fun c => numNewPages.getD (getNumNewPages c.pageSize rows))
    fun c ids => extendRows c.pageSize rows ids

/-- `alloc_decode`. -/
def allocDecode (fired : Nat → Bool) (s : Chain γ) (m : Member) (rows : List DecodeRow) :
    Option (Chain γ × Option (List Nat)) :=
  allocRows l fired s m (fun c => getNumNewPagesDecode c.pageSize rows)
    fun c ids => extendRows c.pageSize (rows.map DecodeRow.toExtendRow) ids

/-- `alloc_physical`: pages reserved without virtual ids block moves. -/
def allocPhysical (fired : Nat → Bool) (s : Chain γ) (m : Member) (needSize : Nat) :
    Option (Chain γ × Option (List Nat)) :=
  (l.pool m).bind fun c =>
  if needSize = 0 then some (s, some [])
  else if needSize % c.pageSize = 0 then
    (ensureAvailable l fired c s m needSize).map fun (s, fits) =>
      if !fits then (s, none)
      else match (s m).takePhysicalPages c (bounds l s m) (needSize / c.pageSize) with
        | none => (s, none)
        | some (pool, physPages) =>
          (set s m { pool with
            pendingHicacheLoadPages := pool.pendingHicacheLoadPages + physPages.length },
            some (expandPages c.pageSize physPages))
  else none

end Chain

end Sglang.Unified
