/-
# `MultiEndedAllocator` and `FloatMultiEndedAllocator`

The sub-pool allocators of `allocator/unified_sub_pool.py`. Every sub-pool hands out
virtual pages and keeps the tables to the physical pages behind them, on a page grid of
its own over one byte buffer. An end pool grows from one end of the buffer up to a
watermark; a float pool keeps a span with holes somewhere between two end pools.

This module is the model of one sub-pool. What it sees of its neighbours are the two
frontiers around it, in bytes; the chain of sub-pools is in `Sglang.Unified.Chain`.
Device events and the page contents are part of the model: a `fired` oracle answers
`event.query()`, and `mem` holds the contents of each physical page.
-/

import Sglang.Alloc.Paged
import Sglang.Lib.Tables

namespace Sglang.Unified

open List

open Sglang.Alloc (pagesFor pagesOf expandPages unique Paged.representatives)
open Sglang.Lib (scatter unpair bindings copyAll)

/-- `grow_direction`. -/
inductive Grow where
  | up
  | down
  | float
  deriving DecidableEq

/-- What a sub-pool is built with: its `SubPoolSpec` and the `UnifiedKVPool` it is a view
of. `reservedFloor` covers at least one page of every sub-pool. The constructor checks that a slot
is left past the reserved ones (`max_slots <= min_slot_index` is refused); `room` asks for a whole
page past them, as `_max_slots_for_total_bytes` does for the final size. -/
structure SubPool where
  totalBytes : Nat
  reservedFloor : Nat
  entryBytes : Nat
  poolPageSize : Nat
  dcpSize : Nat
  growDirection : Grow
  isIdOwner : Bool
  lazyCompaction : Bool
  zeroPagesOnAlloc : Bool
  lazyMaxMovesPerCall : Nat
  entryBytes_pos : 0 < entryBytes
  poolPageSize_pos : 0 < poolPageSize
  dcpSize_pos : 0 < dcpSize
  page_le_floor : entryBytes * poolPageSize ≤ reservedFloor
  room : pagesFor poolPageSize (pagesFor entryBytes reservedFloor)
    < totalBytes / entryBytes / poolPageSize
  float_eager : growDirection = .float → lazyCompaction = false

namespace SubPool

variable (c : SubPool)

def maxSlots : Nat := c.totalBytes / c.entryBytes

def minSlotIndex : Nat := pagesFor c.entryBytes c.reservedFloor

/-- The virtual page size, in tokens. -/
def pageSize : Nat := c.poolPageSize * c.dcpSize

def numPages : Nat := c.maxSlots / c.poolPageSize

def minPageIndex : Nat := pagesFor c.poolPageSize c.minSlotIndex

def entryBytesPerPage : Nat := c.entryBytes * c.poolPageSize

/-- The `d`-th page of an end pool, counted from its fixed end. -/
def page (d : Nat) : Nat :=
  match c.growDirection with
  | .down => c.numPages - 1 - d
  | _ => c.minPageIndex + d

/-- `q` is farther from the fixed end than `p`. -/
def beyond (p q : Nat) : Bool :=
  match c.growDirection with
  | .down => decide (q < p)
  | _ => decide (p < q)

end SubPool

/-- The frontiers of the nearest opaque neighbours, in bytes:
`_chain_high_frontier_below_bytes` and `_chain_low_frontier_above_bytes`. -/
structure Bounds where
  below : Nat
  above : Nat

/-- The state of a sub-pool. An end pool uses the watermark, the pending pages and the
live count; a float pool uses the two ends of its span and the dirty flag. The two move
gates are one flag, and `_pending_reuse_pages_cpu` is the pages of `pendingReuse`. -/
structure Pool (γ : Type) where
  v2p : Nat → Option Nat
  p2v : Nat → Option Nat
  freeVirtualIds : List Nat
  watermarkPhysical : Nat
  lowWmPage : Nat
  highWmPage : Nat
  freePhysPages : List Nat
  holesDirty : Bool
  pendingReuse : List (Nat × List Nat)
  livePageCount : Nat
  freeGroup : Option (List (List Nat))
  freePageRepsGroup : Option (List (List Nat))
  pendingHicacheLoadPages : Nat
  gateClosed : Bool
  latestForwardDoneEvent : Option Nat
  inflightForward : Option (Nat × List Nat)
  mem : Nat → γ

namespace Pool

variable {γ : Type} [Zero γ] (c : SubPool)

/-! ### Frontiers and sizes -/

variable (b : Bounds) (s : Pool γ) (vPages : List Nat)

/-- `_reset_watermarks`. -/
def resetWatermarks : Pool γ :=
  match c.growDirection with
  | .up => { s with watermarkPhysical := c.minPageIndex }
  | .down => { s with watermarkPhysical := c.numPages - 1 }
  | .float => { s with lowWmPage := c.numPages, highWmPage := c.numPages }

/-- The state after `clear`; page 0 is the padding sink. -/
def clear (mem : Nat → γ) : Pool γ :=
  resetWatermarks c {
    v2p := fun v => if v = 0 then some 0 else none
    p2v := fun p => if p = 0 then some 0 else none
    freeVirtualIds :=
      if c.isIdOwner then range' c.minPageIndex (c.numPages - c.minPageIndex) else []
    watermarkPhysical := 0
    lowWmPage := 0
    highWmPage := 0
    freePhysPages := []
    holesDirty := false
    pendingReuse := []
    livePageCount := 0
    freeGroup := none
    freePageRepsGroup := none
    pendingHicacheLoadPages := 0
    gateClosed := false
    latestForwardDoneEvent := none
    inflightForward := none
    mem := mem }

def spanPages : Nat := s.highWmPage - s.lowWmPage

def holePages : Nat := s.freePhysPages.length

/-- `_live_pages` of a float. -/
def livePages : Nat := s.spanPages - s.holePages

def allocatedPages : Nat :=
  match c.growDirection with
  | .up => s.watermarkPhysical - c.minPageIndex
  | .down => c.numPages - 1 - s.watermarkPhysical
  | .float => s.livePages

/-- An empty float does not wall off its neighbours. -/
def isFrontierTransparent : Bool :=
  match c.growDirection with
  | .float => s.livePages == 0
  | _ => false

def byteHighFrontier : Nat :=
  match c.growDirection with
  | .up => s.watermarkPhysical * c.entryBytesPerPage
  | .down => c.numPages * c.entryBytesPerPage
  | .float => s.highWmPage * c.entryBytesPerPage

def byteLowFrontier : Nat :=
  match c.growDirection with
  | .up => c.minPageIndex * c.entryBytesPerPage
  | .down => (s.watermarkPhysical + 1) * c.entryBytesPerPage
  | .float => s.lowWmPage * c.entryBytesPerPage

/-- `_current_gap_bytes` of an end pool. -/
def currentGapBytes : Nat :=
  match c.growDirection with
  | .up => b.above - s.byteHighFrontier c
  | _ => s.byteLowFrontier c - b.below

/-- `_region_bounds_pages` of a float. -/
def regionBoundsPages : Nat × Nat :=
  (max (pagesFor c.entryBytesPerPage b.below) c.minPageIndex,
    min (b.above / c.entryBytesPerPage) c.numPages)

/-- `_gap_pages` of a float: below and above its span. -/
def gapPages : Nat × Nat :=
  let (lo, hi) := regionBoundsPages c b
  if s.isFrontierTransparent c then (hi - lo, hi - lo)
  else (s.lowWmPage - lo, hi - s.highWmPage)

/-- The pages of `_available_tokens()`, without extra gap room. -/
def availablePages : Nat :=
  match c.growDirection with
  | .float =>
    let (gapLow, gapHigh) := s.gapPages c b
    min (max gapLow gapHigh) (c.numPages - c.minPageIndex - s.livePages) + s.holePages
  | _ =>
    min (s.currentGapBytes c b / c.entryBytesPerPage)
        (c.numPages - c.minPageIndex - s.allocatedPages c)
      + (if c.lazyCompaction then s.freePhysPages.length else 0)

def availableSize : Nat := s.availablePages c b * c.pageSize

def movesBlocked : Bool := decide (0 < s.pendingHicacheLoadPages) || s.gateClosed

/-! ### Taking physical pages -/

/-- `_extend_watermark` of an end pool; `none` where it returns `False`. The comparisons
of the grow-down branch are those of the source with the subtraction moved over. -/
def extendWatermark (b : Bounds) (s : Pool γ) (n : Nat) : Option (Pool γ) :=
  match c.growDirection with
  | .up =>
    if c.numPages < s.watermarkPhysical + n then none
    else if b.above / c.entryBytesPerPage < s.watermarkPhysical + n then none
    else some { s with watermarkPhysical := s.watermarkPhysical + n }
  | _ =>
    if s.watermarkPhysical + 1 < c.minPageIndex + n then none
    else if s.watermarkPhysical + 1 < b.below / c.entryBytesPerPage + n then none
    else some { s with watermarkPhysical := s.watermarkPhysical - n }

/-- The index-only check of the eager paths. -/
def advanceWatermark (n : Nat) : Option (Pool γ) :=
  match c.growDirection with
  | .up =>
    if c.numPages < s.watermarkPhysical + n then none
    else some { s with watermarkPhysical := s.watermarkPhysical + n }
  | _ =>
    if s.watermarkPhysical + 1 < c.minPageIndex + n then none
    else some { s with watermarkPhysical := s.watermarkPhysical - n }

/-- `_take_physical_arange`: the `n` pages next to an advanced watermark, ascending. -/
def takePhysicalArange (n : Nat) : List Nat :=
  match c.growDirection with
  | .up => range' (s.watermarkPhysical - n) n
  | _ => range' (s.watermarkPhysical + 1) n

/-- The extension behind drained holes, away from the fixed end. -/
def takeExtension (n : Nat) : List Nat :=
  match c.growDirection with
  | .up => s.takePhysicalArange c n
  | _ => (s.takePhysicalArange c n).reverse

/-- `take_physical` of an end pool, in pages. -/
def takePhysicalEnd (n : Nat) : Option (Pool γ × List Nat) :=
  if n = 0 then some (s, [])
  else if c.lazyCompaction then
    let nDrain := min n s.freePhysPages.length
    let needMore := n - nDrain
    (if 0 < needMore then s.extendWatermark c b needMore else some s).map fun s =>
      ({ s with
          freePhysPages := s.freePhysPages.drop nDrain
          livePageCount := s.livePageCount + n },
        if nDrain = 0 then s.takePhysicalArange c n
        else s.freePhysPages.take nDrain ++ s.takeExtension c needMore)
  else (s.advanceWatermark c n).map fun s => (s, s.takePhysicalArange c n)

/-- The span of a float after taking `needMore` fresh pages, and their start. -/
def extendSpan (needMore : Nat) : Option (Pool γ × Nat) :=
  let (lo, hi) := regionBoundsPages c b
  if s.isFrontierTransparent c then
    -- from empty: the middle of the region, so that both sides keep room
    if hi - lo < needMore then none
    else
      let start := lo + (hi - lo - needMore) / 2
      some ({ s with lowWmPage := start, highWmPage := start + needMore }, start)
  else
    let gapLow := s.lowWmPage - lo
    let gapHigh := hi - s.highWmPage
    let high : Option (Pool γ × Nat) :=
      if needMore ≤ gapHigh then
        some ({ s with highWmPage := s.highWmPage + needMore }, s.highWmPage)
      else none
    let low : Option (Pool γ × Nat) :=
      if needMore ≤ gapLow then
        some ({ s with lowWmPage := s.lowWmPage - needMore }, s.lowWmPage - needMore)
      else none
    if gapLow ≤ gapHigh then high.orElse fun _ => low else low.orElse fun _ => high

/-- `take_physical_pages` of a float: holes first. -/
def takePhysicalFloat (n : Nat) : Option (Pool γ × List Nat) :=
  if n = 0 then some (s, [])
  else
    let nDrain := min n s.holePages
    let needMore := n - nDrain
    (if 0 < needMore then
        (s.extendSpan c b needMore).map fun (s, start) => (s, range' start needMore)
      else some (s, [])).map fun (s, fresh) =>
      ({ s with freePhysPages := s.freePhysPages.drop nDrain },
        s.freePhysPages.take nDrain ++ fresh)

/-- `take_physical_pages`. -/
def takePhysicalPages (n : Nat) : Option (Pool γ × List Nat) :=
  match c.growDirection with
  | .float => s.takePhysicalFloat c b n
  | _ => s.takePhysicalEnd c b n

/-- `bind`. -/
def bind (virtualIds physicalIds : List Nat) : Pool γ :=
  { s with
    v2p := scatter s.v2p (bindings virtualIds physicalIds)
    p2v := scatter s.p2v (bindings physicalIds virtualIds) }

/-- `_maybe_zero_pages`. -/
def maybeZeroPages (physPages : List Nat) : Pool γ :=
  if c.zeroPagesOnAlloc then { s with mem := scatter s.mem (physPages.map fun p => (p, 0)) } else s

/-- `_alloc_bind_fast_or_slow`. The fast path of an end pool without holes binds one
ascending range; `none` on shortfall. -/
def allocBindFastOrSlow : Option (Pool γ × List Nat) :=
  let n := vPages.length
  if n = 0 then some (s, [])
  else
    let slow := (s.takePhysicalPages c b n).map fun (s, physPages) =>
      ((s.bind vPages physPages).maybeZeroPages c physPages, physPages)
    match c.growDirection with
    | .float => slow
    | _ =>
      if c.lazyCompaction && !s.freePhysPages.isEmpty then slow
      else
        (if c.lazyCompaction then s.extendWatermark c b n else s.advanceWatermark c n).map
          fun s =>
            let physPages := s.takePhysicalArange c n
            let s := s.bind vPages physPages
            let s := if c.lazyCompaction then { s with livePageCount := s.livePageCount + n } else s
            (s.maybeZeroPages c physPages, physPages)

/-! ### Moving pages -/

/-- `_move_pages_and_rebind`: copy the pages in order and rebind both tables. `none` when
a move gate is closed, or for a source without a virtual page. -/
def movePagesAndRebind (srcPages dstPages : List Nat) : Option (Pool γ) :=
  if s.movesBlocked then none
  else (srcPages.mapM s.p2v).map fun vMoved =>
    { s with
      mem := copyAll s.mem (srcPages.zip dstPages)
      v2p := scatter s.v2p (bindings vMoved dstPages)
      p2v := scatter s.p2v (bindings dstPages vMoved) }

/-- Clear `p2v` at the given pages. -/
def clearP2v (pages : List Nat) : Pool γ := { s with p2v := unpair s.p2v pages }

/-- `_compact_pending_impl`: survivors of the vacated band move into the holes of the kept
one. `none` where an assertion fails. -/
def compactPending (s : Pool γ) (freedPhysicalPages : List Nat) : Option (Pool γ) :=
  let freedSet := freedPhysicalPages.toFinset
  let k := freedSet.card
  if s.gateClosed then none
  else if k = 0 then some s
  else
    let oldWm := s.watermarkPhysical
    -- the new watermark, the vacated band and the destinations, per direction
    let (fits, inside, newWm, vacatedLo, dstList) := match c.growDirection with
      | .up =>
        (decide (c.minPageIndex + k ≤ oldWm),
          decide (∀ h ∈ freedSet, c.minPageIndex ≤ h ∧ h < oldWm), oldWm - k, oldWm - k,
          unique (freedPhysicalPages.filter (· < oldWm - k)))
      | _ =>
        (decide (oldWm + k ≤ c.numPages - 1),
          decide (∀ h ∈ freedSet, oldWm < h ∧ h < c.numPages), oldWm + k, oldWm + 1,
          unique (freedPhysicalPages.filter (oldWm + k < ·)))
    let vacated := range' vacatedLo k
    let srcList := vacated.filter (· ∉ freedSet)
    if fits && inside && srcList.length == dstList.length then
      let s := { s with watermarkPhysical := newWm }
      if srcList.isEmpty then some (s.clearP2v vacated)
      else (s.movePagesAndRebind srcList dstList).map (·.clearP2v vacated)
    else none

/-! ### Freeing -/

/-- `if self.is_id_owner: free_virtual_ids = cat([free_virtual_ids, pages])`. -/
def recycleIds : Pool γ :=
  if c.isIdOwner then { s with freeVirtualIds := s.freeVirtualIds ++ vPages } else s

/-- `free_unbind_inplace`: both tombstones, and the physical pages freed. A page without
an entry is outside the callers' contract. -/
def unbindPages : Option (Pool γ × List Nat) :=
  (vPages.mapM s.v2p).map fun physPages =>
    ({ s with v2p := unpair s.v2p vPages, p2v := unpair s.p2v physPages }, physPages)

/-- `_free_lazy`, from the virtual pages on. -/
def freeLazy : Option (Pool γ) :=
  (s.unbindPages vPages).map fun (s, physPages) =>
    let s := s.recycleIds c vPages
    { s with
      freePhysPages := s.freePhysPages ++ physPages
      livePageCount := s.livePageCount - physPages.length }

/-- The eager path of `free`, from the virtual pages on. -/
def freeEager : Option (Pool γ) :=
  (vPages.mapM s.v2p).bind fun physPages =>
    (({ s with v2p := unpair s.v2p vPages }).recycleIds c vPages).compactPending c physPages

/-- `_park_if_empty`. -/
def parkIfEmpty : Pool γ :=
  if s.livePages = 0 then { s.resetWatermarks c with freePhysPages := [], holesDirty := false }
  else s

/-- `free` of a float, from the virtual pages on. -/
def freeFloat : Option (Pool γ) :=
  (s.unbindPages vPages).map fun (s, physPages) =>
    let s := s.recycleIds c vPages
    { s with freePhysPages := s.freePhysPages ++ physPages, holesDirty := true }.parkIfEmpty c

/-- The pages of a freed token range: as given by the caller, or derived here. The eager
path deduplicates always, the others trust single-token pages. -/
def freedPages (freeIndex : List Nat) (pages : Option (List Nat)) : List Nat :=
  pages.getD (
    if c.pageSize = 1 && (c.lazyCompaction || c.growDirection == .float) then freeIndex
    else unique (pagesOf c.pageSize freeIndex))

/-- Free virtual pages, now. -/
def freePages : Option (Pool γ) :=
  match c.growDirection with
  | .float => s.freeFloat c vPages
  | _ => if c.lazyCompaction then s.freeLazy c vPages else s.freeEager c vPages

/-- `free`. -/
def free (freeIndex : List Nat) (pages : Option (List Nat)) : Option (Pool γ) :=
  if freeIndex.isEmpty then some s
  else match s.freeGroup with
    | some group => some { s with freeGroup := some (group ++ [freeIndex]) }
    | none => s.freePages c (freedPages c freeIndex pages)

/-- `free_segment`; `none` when the start is not page-aligned. -/
def freeSegment (freeIndex : List Nat) (startPos : Nat) : Option (Pool γ) :=
  if freeIndex.isEmpty then some s
  else if c.pageSize = 1 then s.free c freeIndex none
  else if startPos % c.pageSize = 0 then
    let reps := Paged.representatives c.pageSize freeIndex
    match s.freePageRepsGroup with
    | none => s.free c reps (some (pagesOf c.pageSize reps))
    | some group => some { s with freePageRepsGroup := some (group ++ [reps]) }
  else none

/-- `free_group_begin`; `none` when a group is open. -/
def freeGroupBegin : Option (Pool γ) :=
  match s.freeGroup with
  | some _ => none
  | none => some { s with freeGroup := some [], freePageRepsGroup := some [] }

/-- `free_group_end`: the queued tokens first, then the queued representatives. -/
def freeGroupEnd : Option (Pool γ) :=
  let pendingReps := s.freePageRepsGroup.getD []
  let pending := s.freeGroup.getD []
  let s := { s with freePageRepsGroup := none, freeGroup := none }
  (if pending.isEmpty then some s else s.free c pending.flatten none).bind fun s =>
    if pendingReps.isEmpty then some s
    else s.free c pendingReps.flatten (some (pagesOf c.pageSize pendingReps.flatten))

/-! ### Lazy compaction of an end pool -/

def pendingReusePages : List Nat := s.pendingReuse.flatMap Prod.snd

/-- `_drain_pending_reuse`. -/
def drainPendingReuse (fired : Nat → Bool) (urgent : Bool) (s : Pool γ) : Pool γ :=
  let ready := s.pendingReuse.filter fun entry => fired entry.1 || urgent
  { s with
    freePhysPages := s.freePhysPages ++ ready.flatMap Prod.snd
    pendingReuse := s.pendingReuse.filter fun entry => !(fired entry.1 || urgent) }

/-- The loop of `_absorb_boundary_holes` over the holes listed from the frontier inwards:
the watermark and the holes that stay. -/
def retreat (wm : Nat) : List Nat → Nat × List Nat
  | [] => (wm, [])
  | hole :: holes =>
    match c.growDirection with
    | .up => if hole + 1 = wm then retreat (wm - 1) holes else (wm, hole :: holes)
    | _ => if hole = wm + 1 then retreat (wm + 1) holes else (wm, hole :: holes)

/-- A sorted list of holes, listed from the frontier inwards; and back again. -/
def fromFrontier (holes : List Nat) : List Nat :=
  match c.growDirection with
  | .up => holes.reverse
  | _ => holes

/-- `_absorb_boundary_holes`, on the sorted holes. -/
def absorbBoundaryHoles (sorted : List Nat) : Pool γ :=
  let (newWm, rest) := retreat c s.watermarkPhysical (fromFrontier c sorted)
  { s with watermarkPhysical := newWm, freePhysPages := fromFrontier c rest }

/-- `_topmost_survivor`: the outermost page below position `d` that is neither a hole nor
pending. `rest` is the part of the holes the cursor `j` has not passed, from the frontier
inwards. -/
def topmostSurvivor (pending : List Nat) : Nat → List Nat → Option (Nat × List Nat)
  | 0, _ => none
  | d + 1, rest =>
    let p := c.page d
    let rest := rest.dropWhile (c.beyond p)
    if rest.head? = some p then topmostSurvivor pending d rest.tail
    else if p ∈ pending then topmostSurvivor pending d rest
    else some (d, rest)

/-- The walk of `_flush`: pair the outermost survivors with the innermost holes `dsts`,
until a source is about to be written, the two cursors cross, or the cap is reached. An
urgent walk runs with an empty write set, so its branch for a write race is never taken. -/
def walk (pending writeSet : List Nat) : List Nat → Nat → List Nat → Option Nat → List (Nat × Nat)
  | [], _, _, _ => []
  | dst :: dsts, d, rest, cap =>
    match topmostSurvivor c pending d rest with
    | none => []
    | some (d', rest') =>
      let src := c.page d'
      if src ∈ writeSet then []
      else if c.beyond src dst then []
      else (src, dst) :: (match cap with
        | none => walk pending writeSet dsts d' rest' none
        | some k => if k ≤ 1 then [] else walk pending writeSet dsts d' rest' (some (k - 1)))

/-- `_materialize_inflight_write_set`: the physical pages the forward is about to write;
an unmapped id resolves to the sink. -/
def inflightWriteSet (fired : Nat → Bool) (s : Pool γ) : List Nat :=
  match s.inflightForward with
  | none => []
  | some (event, vPages) => if fired event then [] else vPages.map fun v => (s.v2p v).getD 0

/-- A fired event clears the slot of the forward in flight. -/
def forgetFired (fired : Nat → Bool) (s : Pool γ) : Pool γ :=
  match s.inflightForward with
  | some (event, _) => if fired event then { s with inflightForward := none } else s
  | none => s

/-- `_settle_inflight_forward`. -/
def settleInflightForward : Pool γ :=
  if s.latestForwardDoneEvent.isSome then { s with inflightForward := none } else s

/-- `_pending_reuse.setdefault(event, [])` extended by `pages`. -/
def addPending (event : Nat) (pages : List Nat) : List (Nat × List Nat) → List (Nat × List Nat)
  | [] => [(event, pages)]
  | (other, waiting) :: entries =>
    if other = event then (event, waiting ++ pages) :: entries
    else (other, waiting) :: addPending event pages entries

/-- `_commit_move_batch`: the moved pool and the sources that may be reused at once. -/
def commitMoveBatch (fired : Nat → Bool) (latestEvent : Option Nat) (s : Pool γ)
    (moves : List (Nat × Nat)) : Option (Pool γ × List Nat) :=
  let srcs := moves.map Prod.fst
  if moves.isEmpty then some (s, [])
  else (s.movePagesAndRebind srcs (moves.map Prod.snd)).map fun moved =>
    let moved := moved.clearP2v srcs
    if latestEvent.all fired then (moved, srcs)
    else ({ moved with
      pendingReuse := addPending (latestEvent.getD 0) srcs moved.pendingReuse }, [])

/-- The start of `_flush`: drain what may be reused and absorb the holes at the frontier. -/
def readied (fired : Nat → Bool) (urgent : Bool) (s : Pool γ) : Pool γ :=
  let s := s.drainPendingReuse fired urgent
  s.absorbBoundaryHoles c (s.freePhysPages.insertionSort (· ≤ ·))

/-- The rest of `_flush`: find the moves and commit them. -/
def flushReadied (fired : Nat → Bool) (urgent : Bool) (s : Pool γ) : Option (Pool γ × Nat) :=
  let holes := s.freePhysPages
  let used := s.allocatedPages c
  let inwards := fromFrontier c holes
  if urgent && !holes.isEmpty then
    -- the forward is settled up front, so every source is fired and none races
    let s := s.settleInflightForward
    let moves := walk c s.pendingReusePages [] inwards.reverse used inwards none
    (s.commitMoveBatch fired none moves).map fun (s, _) =>
      ({ s with
          watermarkPhysical := match c.growDirection with
            | .up => s.watermarkPhysical - holes.length
            | _ => s.watermarkPhysical + holes.length
          freePhysPages := [] }, moves.length)
  else
    let survivor := topmostSurvivor c s.pendingReusePages used inwards
    let writeSet := s.inflightWriteSet fired
    -- the write set is only looked at for a survivor that has a hole to go to
    let s := if holes.isEmpty || survivor.isNone then s else s.forgetFired fired
    let cap := if urgent then none else some c.lazyMaxMovesPerCall
    let moves := walk c s.pendingReusePages writeSet inwards.reverse used inwards cap
    (s.commitMoveBatch fired s.latestForwardDoneEvent moves).map fun (s, released) =>
      ({ s with freePhysPages :=
          fromFrontier c (inwards.take (inwards.length - moves.length)) ++ released },
        moves.length)

/-- `_flush` of an end pool: the pool after one pass and the number of moves. -/
def flushEnd (fired : Nat → Bool) (urgent : Bool) (s : Pool γ) : Option (Pool γ × Nat) :=
  if !c.lazyCompaction then some (s, 0)
  else if s.movesBlocked then some (s.drainPendingReuse fired false, 0)
  else (s.readied c fired urgent).flushReadied c fired urgent

/-! ### Moving a float -/

/-- The two sides of a float. -/
inductive Side where
  | low
  | high
  deriving DecidableEq

/-- Drop the holes the span starts with; the loop runs once per hole at most. -/
def absorbLow : Nat → Nat → List Nat → Nat × List Nat
  | 0, low, holes => (low, holes)
  | fuel + 1, low, holes =>
    if low ∈ holes then absorbLow fuel (low + 1) (holes.erase low) else (low, holes)

/-- Drop the holes the span ends with. -/
def absorbHigh : Nat → Nat → List Nat → Nat × List Nat
  | 0, high, holes => (high, holes)
  | fuel + 1, high, holes =>
    if high - 1 ∈ holes then absorbHigh fuel (high - 1) (holes.erase (high - 1))
    else (high, holes)

/-- `_absorb_span_boundary_holes`: the pool and the pages handed back. -/
def absorbSpanBoundaryHoles : Pool γ × Nat :=
  if s.livePages = 0 then (s.parkIfEmpty c, 0)
  else if !s.holesDirty || s.freePhysPages.isEmpty then ({ s with holesDirty := false }, 0)
  else
    let (low, holes) := absorbLow s.freePhysPages.length s.lowWmPage s.freePhysPages
    let (high, holes) := absorbHigh holes.length s.highWmPage holes
    let changed := low ≠ s.lowWmPage || high ≠ s.highWmPage
    ({ s with
        holesDirty := false
        lowWmPage := low
        highWmPage := high
        freePhysPages := if changed then holes.insertionSort (· ≤ ·) else s.freePhysPages },
      s.spanPages - (high - low))

/-- One page after the other: `_move_pages_and_rebind` of single pages. -/
def moveOneByOne : Pool γ → List (Nat × Nat) → Option (Pool γ)
  | s, [] => some s
  | s, (src, dst) :: pairs =>
    (s.movePagesAndRebind [src] [dst]).bind fun s => moveOneByOne (s.clearP2v [src]) pairs

/-- The moves of `_relocate_to_positions`: one batch if no destination is a source, else
one page after the other. -/
def movePairs (pairs : List (Nat × Nat)) (forwards : Bool) : Option (Pool γ) :=
  let srcs := pairs.map Prod.fst
  let dsts := pairs.map Prod.snd
  if pairs.isEmpty then some s
  else if srcs.all (· ∉ dsts) then (s.movePagesAndRebind srcs dsts).map (·.clearP2v srcs)
  else s.moveOneByOne (if forwards then pairs else pairs.reverse)

/-- `_relocate_to_positions`: the pool and the number of pages moved. -/
def relocateToPositions (liveSorted final : List Nat) : Option (Pool γ × Nat) :=
  if liveSorted.length = final.length then
    let pairs := (liveSorted.zip final).filter fun pair => pair.1 ≠ pair.2
    (s.movePairs pairs (final.headD 0 ≤ liveSorted.headD 0)).map fun s =>
      let s := if final.isEmpty then s.resetWatermarks c
        else { s with lowWmPage := final.headD 0, highWmPage := final.getLastD 0 + 1 }
      ({ s with freePhysPages := [] }, pairs.length)
  else none

/-- The live pages of a float, ascending. -/
def livePagesSorted : List Nat :=
  (range' s.lowWmPage s.spanPages).filter (· ∉ s.freePhysPages)

/-- The gap on one side, in bytes. -/
def gapSideBytes (side : Side) (s : Pool γ) : Nat :=
  let (gapLow, gapHigh) := s.gapPages c b
  (match side with | .low => gapLow | .high => gapHigh) * c.entryBytesPerPage

/-- The boundary relocation of `make_room`: the sources nearest the demanded side and
their destinations, far-side holes first and then the far gap; `none` when they do not
fit. -/
def boundaryMoves (side : Side) (s : Pool γ) (needPages : Nat) : Option (List Nat × List Nat) :=
  let live := s.livePagesSorted
  let (gapLow, gapHigh) := s.gapPages c b
  match side with
  | .high =>
    let srcs := live.reverse.take (min needPages live.length)
    let usable := unique (s.freePhysPages.filter fun hole => srcs.all (hole < ·))
    let dsts := usable.take srcs.length
    let nFresh := srcs.length - dsts.length
    if gapLow < nFresh then none
    else some (srcs, dsts ++ (range' (s.lowWmPage - nFresh) nFresh).reverse)
  | .low =>
    let srcs := live.take (min needPages live.length)
    let usable := (unique (s.freePhysPages.filter fun hole => srcs.all (· < hole))).reverse
    let dsts := usable.take srcs.length
    let nFresh := srcs.length - dsts.length
    if gapHigh < nFresh then none
    else some (srcs, dsts ++ range' s.highWmPage nFresh)

/-- The span and the holes around the given live pages. -/
def spanAround (finalLive : List Nat) : Pool γ :=
  let low := finalLive.headD 0
  let high := finalLive.getLastD 0 + 1
  { s with
    lowWmPage := low
    highWmPage := high
    freePhysPages := (range' low (high - low)).filter (· ∉ finalLive)
    holesDirty := true }

/-- `make_room` behind its gate: the pool and the bytes open on `side` afterwards. -/
def openSide (side : Side) (minBytes : Nat) (s : Pool γ) : Option (Pool γ × Nat) :=
  let epp := c.entryBytesPerPage
  let open_ := s.gapSideBytes c b side
  let (lo, hi) := regionBoundsPages c b
  if minBytes ≤ open_ || s.isFrontierTransparent c then some (s, open_)
  else
    let live := s.livePages
    if (hi - lo - live) * epp < minBytes then some (s, open_)
    else
      let needPages := pagesFor epp (minBytes - open_)
      let liveSorted := s.livePagesSorted
      if live ≤ needPages then
        -- every live page packs against the far edge of the region
        let final := match side with
          | .high => range' lo live
          | .low => range' (hi - live) live
        (s.relocateToPositions c liveSorted final).map fun (s, _) => (s, s.gapSideBytes c b side)
      else match s.boundaryMoves c b side needPages with
        | none => some (s, open_)
        | some (srcs, dsts) =>
          (s.movePagesAndRebind srcs dsts).map fun s =>
            let finalLive := unique (liveSorted.filter (· ∉ srcs) ++ dsts)
            let s := (((s.clearP2v srcs).spanAround finalLive).absorbSpanBoundaryHoles c).1
            (s, s.gapSideBytes c b side)

/-- `make_room`. -/
def makeRoom (side : Side) (minBytes : Nat) (s : Pool γ) : Option (Pool γ × Nat) :=
  if s.movesBlocked then some (s, s.gapSideBytes c b side)
  else s.settleInflightForward.openSide c b side minBytes

/-- `compact_holes`: the pool and the number of pages moved. -/
def compactHoles (retreatSide : Side) (s : Pool γ) : Option (Pool γ × Nat) :=
  if s.movesBlocked || s.holePages == 0 then some (s, 0)
  else
    let s := s.settleInflightForward
    let liveSorted := s.livePagesSorted
    let final := match retreatSide with
      | .high => range' s.lowWmPage liveSorted.length
      | .low => range' (s.highWmPage - liveSorted.length) liveSorted.length
    s.relocateToPositions c liveSorted final

/-! ### Host loads -/

/-- `free_physical`, from the physical pages on: the virtual pages behind them, if any, are
unbound. -/
def freePhysical (physicalPages : List Nat) : Option (Pool γ) :=
  let s := { s with
    v2p := unpair s.v2p (physicalPages.filterMap s.p2v)
    p2v := unpair s.p2v physicalPages }
  match c.growDirection with
  | .float => some <|
      { s with freePhysPages := s.freePhysPages ++ physicalPages, holesDirty := true }.parkIfEmpty c
  | _ =>
    if c.lazyCompaction then
      some { s with
        freePhysPages := s.freePhysPages ++ physicalPages
        livePageCount := s.livePageCount - physicalPages.length }
    else s.compactPending c physicalPages

/-- `cancel_physical_reservation`; `none` where an assertion fails. -/
def cancelPhysicalReservation (s : Pool γ) (freeIndex : List Nat) : Option (Pool γ) :=
  if freeIndex.isEmpty then some s
  else
    let numPages := freeIndex.length / c.pageSize
    if s.pendingHicacheLoadPages < numPages then none
    else if freeIndex.length % c.pageSize = 0 then
      { s with pendingHicacheLoadPages := s.pendingHicacheLoadPages - numPages }.freePhysical c
        (pagesOf c.pageSize (Paged.representatives c.pageSize freeIndex))
    else none

/-- `set_hicache_transfer_done_event` of a load: the copies are ordered behind the event. -/
def setLoadDone : Pool γ := { s with pendingHicacheLoadPages := 0 }

/-! ### Flushing -/

/-- `_flush`. -/
def flush (fired : Nat → Bool) (urgent : Bool) (s : Pool γ) : Option (Pool γ × Nat) :=
  match c.growDirection with
  | .float => some (s.absorbSpanBoundaryHoles c)
  | _ => s.flushEnd c fired urgent

end Pool

end Sglang.Unified
