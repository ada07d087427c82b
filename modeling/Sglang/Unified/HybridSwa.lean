/-
# The composite allocators over a full and a sliding-window pool

`UnifiedSWATokenToKVPoolAllocator` has two sub-pools, the window pool at the low end and
the full pool at the high end. `UnifiedMambaSWATokenToKVPoolAllocator` has three: per-request
state at the low end, the window pool floating, the full pool at the high end. The two share
their allocation and their free surface and differ in the capacity check `ensure_capacity`,
which every allocation runs first.
-/

import Sglang.Lib.Search
import Sglang.Unified.Chain

namespace Sglang.Unified

open Sglang.Alloc (pagesFor pagesOf unique ExtendRow DecodeRow getNumNewPages getNumNewPagesDecode)

/-- The member that holds the window pool. -/
def Layout.swaMember (l : Layout) : Member := if l.mid.isSome then .mid else .low

/-- A composite allocator. The full pool mints the virtual ids, the window pool binds them;
the float never compacts lazily, an end does as the composite says. -/
structure Hybrid where
  layout : Layout
  swa : SubPool
  swa_here : layout.pool layout.swaMember = some swa
  full_owner : layout.high.isIdOwner = true
  swa_foreign : swa.isIdOwner = false
  same_page : swa.pageSize = layout.high.pageSize
  lazy_agrees : layout.mid = none → swa.lazyCompaction = layout.high.lazyCompaction

namespace Hybrid

variable {γ : Type} [Zero γ] (h : Hybrid)

def full : SubPool := h.layout.high

def pageSize : Nat := h.full.pageSize

variable (s : Chain γ) (numTokens : Nat)

/-- The state of the full pool. -/
def fa : Pool γ := s .high

/-- The state of the window pool. -/
def sa : Pool γ := s h.layout.swaMember

/-- The pages of `allocated_count()` of a pool. -/
def livePagesOf (c : SubPool) (s : Pool γ) : Nat :=
  if c.lazyCompaction then s.livePageCount else s.allocatedPages c

/-- The pages that the index space of a pool has beyond its watermark. -/
def indexRoomOf (c : SubPool) (s : Pool γ) : Nat := c.numPages - c.minPageIndex - s.allocatedPages c

/-- `flush_for_allocation` of each pool in turn. -/
def flushAll (fired : Nat → Bool) : List Member → Chain γ → Option (Chain γ)
  | [], s => some s
  | m :: ms, s => (Chain.flush h.layout fired true s m).bind fun (s, _) => flushAll fired ms s

/-! ### Two ends -/

/-- `_empty_shared_gap_bytes`. -/
def emptySharedGapBytes : Nat :=
  h.full.numPages * h.full.entryBytesPerPage - h.swa.minPageIndex * h.swa.entryBytesPerPage

/-- `_compaction_allowed`. -/
def compactionAllowed : Bool := !(fa s).movesBlocked && !(h.sa s).movesBlocked

/-- `_compute_available_size` of the two-ended composite, in tokens. -/
def computeAvailableSize : Nat :=
  let eF := h.full.entryBytesPerPage
  let eS := h.swa.entryBytesPerPage
  let gapBytes := (fa s).byteLowFrontier h.full - (h.sa s).byteHighFrontier h.swa
  let rF := indexRoomOf h.full (fa s)
  let rS := indexRoomOf h.swa (h.sa s)
  if !h.full.lazyCompaction then min (min (gapBytes / (eF + eS)) rF) rS * h.pageSize
  else
    let hF := (fa s).freePhysPages.length
    let hS := (h.sa s).freePhysPages.length
    -- both drain, then the side with fewer holes extends, then both extend
    let k1 := min hF hS
    let (ePhase2, kPhase2Max) := if hF ≤ hS then (eF, hS) else (eS, hF)
    let k2Room := kPhase2Max - k1
    let k2 := if 0 < ePhase2 then min k2Room (gapBytes / ePhase2) else k2Room
    let k3 := (gapBytes - k2 * ePhase2) / (eF + eS)
    min (min (k1 + k2 + k3) (hF + rF)) (hS + rS) * h.pageSize

/-- What `_fits_page_demand` looks at: the rooms, holes and bytes of one snapshot. -/
structure Snapshot where
  fullVirtualRoom : Nat
  fullHoles : Nat
  swaHoles : Nat
  fullIndexRoom : Nat
  swaIndexRoom : Nat
  gapBytes : Nat

/-- Whether a demand fits a snapshot. -/
def Snapshot.fits (v : Snapshot) (numFullPages numSwaPages : Nat) : Bool :=
  decide (numFullPages ≤ v.fullVirtualRoom) &&
  decide (numFullPages ≤ v.fullHoles + v.fullIndexRoom) &&
  decide (numSwaPages ≤ v.swaHoles + v.swaIndexRoom) &&
  decide ((numFullPages - v.fullHoles) * h.full.entryBytesPerPage
    + (numSwaPages - v.swaHoles) * h.swa.entryBytesPerPage ≤ v.gapBytes)

/-- `_fits_page_demand` of the two-ended composite. -/
def fitsPageDemand (numFullPages numSwaPages fullReclaimPages swaReclaimPages : Nat)
    (compacted emptyPool : Bool) : Bool :=
  let fullLive := if emptyPool then 0 else livePagesOf h.full (fa s)
  let swaLive := if emptyPool then 0 else livePagesOf h.swa (h.sa s)
  let fullReclaim := if emptyPool then 0 else min fullLive fullReclaimPages
  let swaReclaim := if emptyPool then 0 else min swaLive swaReclaimPages
  let fullLive := fullLive - fullReclaim
  let swaLive := swaLive - swaReclaim
  let virtualPageCapacity := h.full.numPages - h.full.minPageIndex
  let fullPageCapacity := min virtualPageCapacity (h.full.numPages - h.full.minPageIndex)
  let swaPageCapacity := min virtualPageCapacity (h.swa.numPages - h.swa.minPageIndex)
  if fullPageCapacity < fullLive + numFullPages ∨ swaPageCapacity < swaLive + numSwaPages then false
  else
    let snapshot : Snapshot :=
      if compacted then
        { fullVirtualRoom := virtualPageCapacity - fullLive
          fullHoles := 0
          swaHoles := 0
          fullIndexRoom := fullPageCapacity - fullLive
          swaIndexRoom := swaPageCapacity - swaLive
          gapBytes := h.emptySharedGapBytes - fullLive * h.full.entryBytesPerPage
            - swaLive * h.swa.entryBytesPerPage }
      else
        { fullVirtualRoom := (fa s).freeVirtualIds.length + fullReclaim
          fullHoles := (fa s).freePhysPages.length + fullReclaim
          swaHoles := (h.sa s).freePhysPages.length + swaReclaim
          fullIndexRoom := indexRoomOf h.full (fa s)
          swaIndexRoom := indexRoomOf h.swa (h.sa s)
          gapBytes := (fa s).currentGapBytes h.full (Chain.bounds h.layout s .high) }
    snapshot.fits h numFullPages numSwaPages

/-- The check of `reclaim_plan` in pages to reclaim, for a demand in tokens. -/
def reclaimFits (fullTokens swaTokens : Rat) (emptyPool : Bool)
    (fullReclaimPages swaReclaimPages : Nat) : Bool :=
  h.fitsPageDemand s (pagesFor h.pageSize fullTokens.ceil.toNat)
    (pagesFor h.pageSize swaTokens.ceil.toNat) fullReclaimPages swaReclaimPages
    (emptyPool || !h.full.lazyCompaction || h.compactionAllowed s) emptyPool

/-- `max(0, int(evictable_tokens)) // page_size`. -/
def evictablePages (evictableTokens : Int) : Nat := (max 0 evictableTokens).toNat / h.pageSize

/-- `reclaim_plan`: the full and the window tokens to evict. -/
def reclaimPlan (fullTokens swaTokens : Rat) (fullEvictableTokens swaEvictableTokens : Int)
    (emptyPool preferSwa : Bool) : Option (Nat × Nat) :=
  if fullTokens < 0 ∨ swaTokens < 0 then none
  else
    let fits := h.reclaimFits s fullTokens swaTokens emptyPool
    if emptyPool then if fits 0 0 then some (0, 0) else none
    else if fits 0 0 then some (0, 0)
    else
      let maxFullPages := min (livePagesOf h.full (fa s)) (h.evictablePages fullEvictableTokens)
      let maxSwaPages := min (livePagesOf h.swa (h.sa s)) (h.evictablePages swaEvictableTokens)
      if !fits maxFullPages maxSwaPages then none
      else if preferSwa then
        let fullReclaimPages := Lib.firstFit (fits · maxSwaPages) 0 maxFullPages
        let swaReclaimPages := Lib.firstFit (fits fullReclaimPages ·) 0 maxSwaPages
        some (fullReclaimPages * h.pageSize, swaReclaimPages * h.pageSize)
      else
        let swaReclaimPages := Lib.firstFit (fits maxFullPages ·) 0 maxSwaPages
        let fullReclaimPages := Lib.firstFit (fits · swaReclaimPages) 0 maxFullPages
        some (fullReclaimPages * h.pageSize, swaReclaimPages * h.pageSize)

/-- `can_reserve` of the two-ended composite, whose sizes in tokens are `sizeFull` and
`sizeSwa`. -/
def canReserveEnds (sizeFull sizeSwa : Nat) (s : Chain γ) (fullTokens swaTokens : Rat)
    (fullEvictableTokens swaEvictableTokens : Int) (emptyPool requireTokenSlack : Bool) : Bool :=
  if fullTokens < 0 ∨ swaTokens < 0 then false
  else if requireTokenSlack && (decide ((sizeFull : Rat) ≤ fullTokens) || decide ((sizeSwa : Rat) ≤ swaTokens))
    then false
  else (h.reclaimPlan s fullTokens swaTokens fullEvictableTokens swaEvictableTokens emptyPool false).isSome

/-- `ensure_capacity` of the two-ended composite. -/
def ensureCapacityEnds (fired : Nat → Bool) (s : Chain γ) (fullTokens swaTokens : Nat) :
    Option (Chain γ × Bool) :=
  if fullTokens = 0 ∧ swaTokens = 0 then some (s, true)
  else
    let numFullPages := pagesFor h.pageSize fullTokens
    let numSwaPages := pagesFor h.pageSize swaTokens
    if h.fitsPageDemand s numFullPages numSwaPages 0 0 false false then some (s, true)
    else if !h.full.lazyCompaction || !h.compactionAllowed s then some (s, false)
    else if !h.fitsPageDemand s numFullPages numSwaPages 0 0 true false then some (s, false)
    else (h.flushAll fired [.high, h.layout.swaMember] s).map fun s =>
      (s, h.fitsPageDemand s numFullPages numSwaPages 0 0 false false)

/-! ### Two ends and a float -/

/-- `pages_in_band`. -/
def pagesInBand (c : SubPool) (lowByte highByte : Nat) : Nat :=
  min (highByte / c.entryBytesPerPage) c.numPages
    - max (pagesFor c.entryBytesPerPage lowByte) c.minPageIndex

/-- The holes of an end pool that an allocation reuses. -/
def reusableHoles (c : SubPool) (s : Pool γ) : Nat := if c.lazyCompaction then s.freePhysPages.length else 0

/-- The pages that the window pool can extend by when the full pool reaches down to
`fullLowAfter`: in one piece, below or above its span. -/
def swaRoom (fullLowAfter : Nat) : Nat :=
  let below := Chain.highFrontierBelow h.layout s .mid
  if (h.sa s).isFrontierTransparent h.swa then pagesInBand h.swa below fullLowAfter
  else max (pagesInBand h.swa below ((h.sa s).byteLowFrontier h.swa))
    (pagesInBand h.swa ((h.sa s).byteHighFrontier h.swa) fullLowAfter)

/-- `_fits_page_demand` of the tri-pool composite. -/
def fitsChainDemand (fullPages swaPages : Nat) : Bool :=
  let hF := reusableHoles h.full (fa s)
  let hS := (h.sa s).holePages
  if hF + indexRoomOf h.full (fa s) < fullPages ∨ hS + indexRoomOf h.swa (h.sa s) < swaPages then false
  else
    let fullBytes := (fullPages - hF) * h.full.entryBytesPerPage
    if (fa s).currentGapBytes h.full (Chain.bounds h.layout s .high) < fullBytes then false
    else decide (swaPages - hS ≤ h.swaRoom s ((fa s).byteLowFrontier h.full - fullBytes))

/-- The condition of the binary search in `_compute_available_size`. -/
def midFits (mid : Nat) : Bool :=
  let hF := reusableHoles h.full (fa s)
  let hS := (h.sa s).holePages
  let fullBytes := (mid - hF) * h.full.entryBytesPerPage
  let swaChainLow := Chain.highFrontierBelow h.layout s .mid
  let transparent := (h.sa s).isFrontierTransparent h.swa
  let swaHighBandLow := if transparent then swaChainLow else (h.sa s).byteHighFrontier h.swa
  let swaLowRoom :=
    if transparent then 0 else pagesInBand h.swa swaChainLow ((h.sa s).byteLowFrontier h.swa)
  -- a negative high byte leaves no page, as byte 0 does
  let swaRoom := max swaLowRoom
    (pagesInBand h.swa swaHighBandLow ((fa s).byteLowFrontier h.full - fullBytes))
  decide (fullBytes ≤ (fa s).currentGapBytes h.full (Chain.bounds h.layout s .high)) &&
    decide (mid - hS ≤ swaRoom)

/-- The binary search for the largest `n` between `lo` and `hi` with `p`. -/
def searchLast (p : Nat → Bool) (lo hi : Nat) : Nat :=
  if lo < hi then
    if p ((lo + hi + 1) / 2) then searchLast p ((lo + hi + 1) / 2) hi
    else searchLast p lo ((lo + hi + 1) / 2 - 1)
  else lo
  termination_by hi - lo

/-- `available_size` of the tri-pool composite, in tokens. -/
def availableSize : Nat :=
  searchLast (h.midFits s) 0
    (min (reusableHoles h.full (fa s) + indexRoomOf h.full (fa s))
      ((h.sa s).holePages + indexRoomOf h.swa (h.sa s))) * h.pageSize

/-- `can_reserve` without evictable tokens. -/
def canReserve (fullTokens swaTokens : Nat) : Bool :=
  h.fitsChainDemand s (pagesFor h.pageSize fullTokens) (pagesFor h.pageSize swaTokens)

/-- `_token_id_capacity`. -/
def tokenIdCapacity : Bool :=
  decide (numTokens / h.pageSize ≤ (fa s).freeVirtualIds.length) &&
    decide (numTokens / h.pageSize ≤ h.swa.numPages - h.swa.minPageIndex - (h.sa s).livePages)

/-- The holes of an end that a permitted flush gives back. -/
def endCredit (flushEnds : Bool) (c : SubPool) (s : Pool γ) : Nat :=
  if !flushEnds || !c.lazyCompaction || s.movesBlocked then 0 else s.freePhysPages.length

/-- `_token_end_frontiers`: the full pool before and after an allocation, and the state
pool after its flush. -/
def tokenEndFrontiers (flushEnds : Bool) : Int × Int × Int :=
  let ma := s .low
  let fullCredit := endCredit flushEnds h.full (fa s)
  let stateCredit := endCredit flushEnds h.layout.low ma
  let fullHoles := reusableHoles h.full (fa s)
  let fullExtension := numTokens / h.pageSize - (fullHoles - fullCredit)
  let fullBefore : Int := (fa s).byteLowFrontier h.full + fullCredit * h.full.entryBytesPerPage
  (fullBefore, fullBefore - fullExtension * h.full.entryBytesPerPage,
    ma.byteHighFrontier h.layout.low - stateCredit * h.layout.low.entryBytesPerPage)

/-- `_token_end_reclaim_satisfied`. -/
def tokenEndReclaimSatisfied : Bool :=
  if !h.tokenIdCapacity s numTokens then false
  else if numTokens ≤ h.availableSize s then true
  else
    let (_, fullAfter, stateAfter) := h.tokenEndFrontiers s numTokens true
    let pages := numTokens / h.pageSize
    if fullAfter < h.full.minPageIndex * h.full.entryBytesPerPage then false
    else if (h.sa s).isFrontierTransparent h.swa then
      decide (pages ≤ pagesInBand h.swa stateAfter.toNat fullAfter.toNat)
    else if fullAfter < (h.sa s).byteHighFrontier h.swa then false
    else decide (pages - (h.sa s).holePages ≤
      max (pagesInBand h.swa stateAfter.toNat ((h.sa s).byteLowFrontier h.swa))
        (pagesInBand h.swa ((h.sa s).byteHighFrontier h.swa) fullAfter.toNat))

/-- `_token_float_high_target`. -/
def tokenFloatHighTarget (flushEnds : Bool) : Option Nat :=
  if !h.tokenIdCapacity s numTokens then none
  else if (h.sa s).isFrontierTransparent h.swa then none
  else if (h.sa s).movesBlocked then none
  else
    let (fullBefore, fullAfter, stateAfter) := h.tokenEndFrontiers s numTokens flushEnds
    if fullAfter < h.full.minPageIndex * h.full.entryBytesPerPage then none
    else
      let eS := h.swa.entryBytesPerPage
      let low := max (pagesFor eS stateAfter.toNat) h.swa.minPageIndex
      let high := min (fullBefore.toNat / eS) h.swa.numPages
      let highAfter := min (fullAfter.toNat / eS) h.swa.numPages
      let limit : Int := highAfter - (numTokens / h.pageSize : Nat)
      let retreat : Int := (h.sa s).highWmPage - limit
      if retreat ≤ 0 ∨ ((h.sa s).lowWmPage : Int) - low < retreat then none
      else some (((high - limit) * eS).toNat)

/-- `_token_reclaim_satisfied`. -/
def tokenReclaimSatisfied : Bool :=
  h.tokenEndReclaimSatisfied s numTokens || (h.tokenFloatHighTarget s numTokens true).isSome

/-- `_token_allocation_byte_shortfall` without reclaim: an optimistic byte count. -/
def tokenAllocationByteShortfall : Nat :=
  let live (c : SubPool) (p : Pool γ) := livePagesOf c p * c.pageSize * c.entryBytes
  let sink (c : SubPool) := c.minPageIndex * c.entryBytesPerPage
  numTokens / h.pageSize * (h.full.entryBytesPerPage + h.swa.entryBytesPerPage)
    + (live h.full (fa s) + live h.swa (h.sa s) + live h.layout.low (s .low))
    + min (sink h.full) (min (sink h.swa) (sink h.layout.low)) - h.layout.low.totalBytes

/-- `_relieve_for_alloc` of the composite. -/
def relieveForAlloc (fired : Nat → Bool) (s : Chain γ) (needTokens : Nat) : Option (Chain γ × Bool) :=
  (h.flushAll fired [.mid, .high, .low] s).bind fun s =>
    if needTokens ≤ h.availableSize s then some (s, true)
    else
      let needN := pagesFor h.pageSize needTokens
      (Chain.floatOpenShortSide h.layout s ⟨0, needN, needN⟩).map fun s =>
        (s, decide (needTokens ≤ h.availableSize s))

/-- The unequal branch of `ensure_capacity`: flush everything, then open the float. -/
def ensureUnequal (fired : Nat → Bool) (s : Chain γ) (fullTokens swaTokens : Nat) :
    Option (Chain γ × Bool) :=
  (h.flushAll fired [.mid, .high, .low] s).bind fun s =>
    if h.canReserve s fullTokens swaTokens then some (s, true)
    else
      (Chain.floatOpenShortSide h.layout s
        ⟨0, pagesFor h.pageSize swaTokens, pagesFor h.pageSize fullTokens⟩).map fun s =>
        (s, h.canReserve s fullTokens swaTokens)

/-- The branch of `ensure_capacity` that retreats the high end of the float. -/
def ensureHighTarget (fired : Nat → Bool) (s : Chain γ) (needTokens : Nat) : Option (Chain γ × Bool) :=
  (h.flushAll fired [.high, .low] s).bind fun s =>
    if !h.tokenIdCapacity s needTokens then some (s, false)
    else if needTokens ≤ h.availableSize s then some (s, true)
    else match h.tokenFloatHighTarget s needTokens false with
      | none => some (s, false)
      | some target => (Chain.makeRoom h.layout .high target s).map fun (s, _) =>
        (s, h.tokenIdCapacity s needTokens && decide (needTokens ≤ h.availableSize s))

/-- `ensure_capacity` of the tri-pool composite. -/
def ensureCapacityChain (fired : Nat → Bool) (s : Chain γ) (fullTokens swaTokens : Nat) :
    Option (Chain γ × Bool) :=
  if h.canReserve s fullTokens swaTokens then some (s, true)
  else if fullTokens ≠ swaTokens then h.ensureUnequal fired s fullTokens swaTokens
  else
    let needTokens := pagesFor h.pageSize fullTokens * h.pageSize
    if !h.tokenIdCapacity s needTokens then some (s, false)
    else if needTokens ≤ h.availableSize s then some (s, true)
    else if h.tokenEndReclaimSatisfied s needTokens then
      (h.flushAll fired [.high, .low] s).map fun s => (s, decide (needTokens ≤ h.availableSize s))
    else if (h.tokenFloatHighTarget s needTokens true).isSome then h.ensureHighTarget fired s needTokens
    else if 0 < h.tokenAllocationByteShortfall s needTokens then some (s, false)
    else h.relieveForAlloc fired s needTokens

/-! ### The allocation surface -/

/-- `ensure_capacity`. -/
def ensureCapacity (fired : Nat → Bool) (s : Chain γ) (fullTokens swaTokens : Nat) :
    Option (Chain γ × Bool) :=
  match h.layout.mid with
  | none => h.ensureCapacityEnds fired s fullTokens swaTokens
  | some _ => h.ensureCapacityChain fired s fullTokens swaTokens

/-- `swa_attn_allocator.alloc_with_virtual`. -/
def bindWindow (virtualPages : List Nat) : Option (Chain γ) :=
  Chain.allocWithVirtual h.layout s h.layout.swaMember virtualPages

/-- `alloc`: the outer `none` is a failed assertion, the inner one a shortfall. -/
def alloc (fired : Nat → Bool) (s : Chain γ) (needSize : Nat) : Option (Chain γ × Option (List Nat)) :=
  (h.ensureCapacity fired s needSize needSize).bind fun (s, fits) =>
    if !fits then some (s, none)
    else
      let newVirtualPages := (fa s).freeVirtualIds.take (needSize / h.pageSize)
      (Chain.alloc h.layout fired s .high needSize).bind fun (s, vTokens) =>
        vTokens.bind fun vTokens => (h.bindWindow s newVirtualPages).map (·, some vTokens)

/-- `_extend_in_virtual_space`. -/
def extendInVirtualSpace (fired : Nat → Bool) (s : Chain γ) (rows : List ExtendRow)
    (numSwaPages : Option Nat) : Option (Chain γ × Option (List Nat × List Nat)) :=
  let numNewPages := getNumNewPages h.pageSize rows
  (h.ensureCapacity fired s (numNewPages * h.pageSize) (numSwaPages.getD numNewPages * h.pageSize)).bind
    fun (s, fits) =>
      if !fits then some (s, none)
      else
        let newVirtualPages := (fa s).freeVirtualIds.take numNewPages
        (Chain.allocExtend h.layout fired s .high rows (some numNewPages)).bind fun (s, outIndices) =>
          outIndices.map fun outIndices => (s, some (outIndices, newVirtualPages))

/-- `alloc_extend`. -/
def allocExtend (fired : Nat → Bool) (s : Chain γ) (rows : List ExtendRow) :
    Option (Chain γ × Option (List Nat)) :=
  (h.extendInVirtualSpace fired s rows none).bind fun
    | (s, none) => some (s, none)
    | (s, some (outIndices, newVirtualPages)) =>
      (h.bindWindow s newVirtualPages).map (·, some outIndices)

/-- The window pages that `alloc_extend_swa_tail` prices. -/
def numSwaPages (row : ExtendRow) (swaTailLen : Nat) : Nat :=
  if swaTailLen = 0 then 0
  else pagesFor h.pageSize row.seqLen
    - max (pagesFor h.pageSize row.prefixLen) ((row.seqLen - swaTailLen) / h.pageSize)

/-- The new pages that the last `swaTailLen` slots are in. -/
def tailPagesToBind (outIndices newVirtualPages : List Nat) (swaTailLen : Nat) : List Nat :=
  let tailPages := unique (pagesOf h.pageSize (outIndices.drop (outIndices.length - swaTailLen)))
  newVirtualPages.filter (· ∈ tailPages)

/-- `alloc_extend_swa_tail`, for one request. -/
def allocExtendSwaTail (fired : Nat → Bool) (s : Chain γ) (row : ExtendRow) (swaTailLen : Nat) :
    Option (Chain γ × Option (List Nat)) :=
  if row.extendLen < swaTailLen then none
  else (h.extendInVirtualSpace fired s [row] (some (h.numSwaPages row swaTailLen))).bind fun
    | (s, none) => some (s, none)
    | (s, some (outIndices, newVirtualPages)) =>
      if 0 < swaTailLen ∧ newVirtualPages ≠ [] then
        (h.bindWindow s (h.tailPagesToBind outIndices newVirtualPages swaTailLen)).map
          (·, some outIndices)
      else some (s, some outIndices)

/-- `alloc_decode`. -/
def allocDecode (fired : Nat → Bool) (s : Chain γ) (rows : List DecodeRow) :
    Option (Chain γ × Option (List Nat)) :=
  let numNewPages := getNumNewPagesDecode h.pageSize rows
  (h.ensureCapacity fired s (numNewPages * h.pageSize) (numNewPages * h.pageSize)).bind
    fun (s, fits) =>
      if !fits then some (s, none)
      else
        let newVirtualPages := (fa s).freeVirtualIds.take numNewPages
        (Chain.allocDecode h.layout fired s .high rows).bind fun (s, outIndices) =>
          outIndices.bind fun outIndices =>
            (h.bindWindow s newVirtualPages).map (·, some outIndices)

/-- `set_full_to_swa_mapping`; `none` when the lengths differ. -/
def setFullToSwaMapping (fullIndices swaIndices : List Nat) : Option (Chain γ) :=
  if fullIndices.isEmpty then some s
  else if fullIndices.length = swaIndices.length then
    some (Chain.set s h.layout.swaMember
      ((h.sa s).bind (pagesOf h.pageSize fullIndices) (pagesOf h.pageSize swaIndices)))
  else none

/-! ### The free surface, outside a free group -/

/-- `swa_attn_allocator.free`. -/
def releaseWindow (freeIndex : List Nat) (pages : Option (List Nat)) : Option (Chain γ) :=
  ((h.sa s).free h.swa freeIndex pages).map (Chain.set s h.layout.swaMember)

/-- `full_attn_allocator.free`. -/
def releaseFull (freeIndex : List Nat) (pages : Option (List Nat)) : Option (Chain γ) :=
  ((fa s).free h.full freeIndex pages).map (Chain.set s .high)

/-- The tokens on pages that the window pool binds; page 0 is the padding sink. -/
def liveTokens (freeIndex : List Nat) : List Nat :=
  freeIndex.filter fun v => ((h.sa s).v2p (v / h.pageSize)).any (0 < ·)

/-- `free`. -/
def free (freeIndex : List Nat) : Option (Chain γ) :=
  (h.releaseWindow s (h.liveTokens s freeIndex) none).bind fun s => h.releaseFull s freeIndex none

/-- `free_swa`. -/
def freeSwa (freeIndex : List Nat) : Option (Chain γ) :=
  let live := h.liveTokens s freeIndex
  h.releaseWindow s live (if h.pageSize = 1 then some live else none)

/-- `free_full`. -/
def freeFull (freeIndex : List Nat) : Option (Chain γ) := h.releaseFull s freeIndex none

/-- `_page_reps`; `none` when the start is not page-aligned. -/
def pageReps (freeIndex : List Nat) (startPos : Nat) : Option (List Nat) :=
  if startPos % h.pageSize = 0 then some (Alloc.Paged.representatives h.pageSize freeIndex) else none

/-- `_free_swa_page_reps`. -/
def freeSwaPageReps (reps : List Nat) : Option (Chain γ) :=
  h.releaseWindow s reps (some (pagesOf h.pageSize reps))

/-- `free_swa_segment`. -/
def freeSwaSegment (freeIndex : List Nat) (startPos : Nat) : Option (Chain γ) :=
  if freeIndex.isEmpty then some s else (h.pageReps freeIndex startPos).bind (h.freeSwaPageReps s)

/-- `_release_page_reps`. -/
def releasePageReps (both fullOnly : List (List Nat)) : Option (Chain γ) :=
  (h.freeSwaPageReps s both.flatten).bind fun s =>
    let reps := (both ++ fullOnly).flatten
    h.releaseFull s reps (some (pagesOf h.pageSize reps))

/-- `free_segment`. -/
def freeSegment (freeIndex : List Nat) (startPos : Nat) : Option (Chain γ) :=
  if freeIndex.isEmpty then some s
  else (h.pageReps freeIndex startPos).bind fun reps => h.releasePageReps s [reps] []

/-- `free_full_segment`. -/
def freeFullSegment (freeIndex : List Nat) (startPos : Nat) : Option (Chain γ) :=
  if freeIndex.isEmpty then some s
  else (h.pageReps freeIndex startPos).bind fun reps => h.releasePageReps s [] [reps]

end Hybrid

end Sglang.Unified
