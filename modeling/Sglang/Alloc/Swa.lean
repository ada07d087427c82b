/-
# `SWATokenToKVPoolAllocator`

The hybrid allocator of `allocator/swa.py`: a full-attention pool, a sliding-window pool
and `full_to_swa_index_mapping` between their slots. The operations drive two `Attn`
sub-allocators; what holds of them over whole runs is in `Sglang.Alloc.SwaInStep`.
-/

import Sglang.Alloc.Attn
import Sglang.Lib.Tables

namespace Sglang.Alloc

/-- What `SWATokenToKVPoolAllocator` is built with. A pool with a per-request window ring
is a paged one. -/
structure SwaConfig where
  sizeFull : Nat
  sizeSwa : Nat
  pageSize : Nat
  needSort : Bool
  swaReqRing : Bool
  pageSize_pos : 0 < pageSize
  ring_paged : swaReqRing = true → 1 < pageSize

def SwaConfig.full (c : SwaConfig) : PagedConfig := ⟨c.sizeFull, c.pageSize, c.needSort, c.pageSize_pos⟩

def SwaConfig.swa (c : SwaConfig) : PagedConfig := ⟨c.sizeSwa, c.pageSize, c.needSort, c.pageSize_pos⟩

/-- The allocator's fields. Its own `free_group` list stays empty, so only whether it is
open matters; the deferred frees are in the other two lists and in the full pool. -/
structure Swa where
  full : Attn
  swa : Attn
  mapping : Nat → Nat
  freeGroup : Bool
  swaFreeGroup : List (List Nat)
  swaPageIdsGroup : List (List Nat)

/-- `mapping[indices] = values`. -/
def writeMapping (mapping : Nat → Nat) (writes : List (Nat × Nat)) : Nat → Nat :=
  Lib.scatter mapping writes

/-- `set_full_to_swa_mapping`; `none` when the lengths differ. -/
def setFullToSwaMapping (mapping : Nat → Nat) (full swa : List Nat) : Option (Nat → Nat) :=
  if full.isEmpty then some mapping
  else if full.length = swa.length then some (writeMapping mapping (full.zip swa))
  else none

def clearFullToSwaMapping (mapping : Nat → Nat) (full : List Nat) : Nat → Nat :=
  fun slot => if slot ∈ full then 0 else mapping slot

/-- `translate_loc_from_full_to_swa`: the entry behind the last slot is `-1`, so a row
without a prefix keeps `-1`. -/
def translateLoc (mapping : Nat → Nat) (loc : Int) : Int :=
  if loc < 0 then -1 else mapping loc.toNat

/-- `_swa_tail_len` of the decode side: from the page-aligned start of the window on. -/
def swaTailLen (ps : Nat) (usesTail radixCache : Bool) (windowSize : Option Nat)
    (seqLen : Nat) : Nat :=
  if !usesTail || seqLen == 0 then seqLen
  else match windowSize with
    | none => seqLen
    | some 0 => seqLen
    | some window =>
      let windowStart := if radixCache then seqLen - 1 - max window ps else seqLen - window
      seqLen - windowStart / ps * ps

namespace Swa

variable (c : SwaConfig)

def clear : Swa where
  full := Attn.clear c.full
  swa := Attn.clear c.swa
  mapping := fun _ => 0
  freeGroup := false
  swaFreeGroup := []
  swaPageIdsGroup := []

variable (s : Swa) (freeIndex : List Nat)

/-- `alloc`, for single-slot pages; the outer `none` is a failed assertion. -/
def alloc (needSize : Nat) : Option (Swa × Option (List Nat)) :=
  if c.pageSize = 1 then
    if needSize > s.full.availableSize c.full then some (s, none)
    else if needSize > s.swa.availableSize c.swa then some (s, none)
    else
      match s.full.alloc c.full needSize, s.swa.alloc c.swa needSize with
      | (full, some fullOut), (swa, some swaOut) =>
        (setFullToSwaMapping s.mapping fullOut swaOut).map fun mapping =>
          ({ s with full := full, swa := swa, mapping := mapping }, some fullOut)
      | _, _ => none
  else none

def newPagesAvailable (numFullPages numSwaPages : Nat) : Bool :=
  decide (numFullPages ≤ s.full.availableSize c.full / c.pageSize) &&
    (c.swaReqRing || decide (numSwaPages ≤ s.swa.availableSize c.swa / c.pageSize))

/-- The window side of a row: it continues the peer of `last_loc`. -/
def swaRow (r : ExtendRow) : ExtendRow := r.relocate (translateLoc s.mapping r.lastLoc)

/-- `alloc_extend`. -/
def allocExtend (rows : List ExtendRow) (extendNumTokens : Nat) :
    Option (Swa × Option (List Nat)) :=
  if 1 < c.pageSize then
    let numNewPages := getNumNewPages c.pageSize rows
    if !s.newPagesAvailable c numNewPages numNewPages then some (s, none)
    else if c.swaReqRing then
      (s.full.allocExtend c.full rows extendNumTokens (some numNewPages)).map fun r =>
        ({ s with full := r.1 }, r.2)
    else
      match s.full.allocExtend c.full rows extendNumTokens (some numNewPages),
        s.swa.allocExtend c.swa (rows.map s.swaRow) extendNumTokens (some numNewPages) with
      | some (full, some fullOut), some (swa, some swaOut) =>
        (setFullToSwaMapping s.mapping fullOut swaOut).map fun mapping =>
          ({ s with full := full, swa := swa, mapping := mapping }, some fullOut)
      | _, _ => none
  else none

/-- The row of the window tail: a request of its own, without a prefix. -/
def tailRow (swaTailLen : Nat) : ExtendRow := ⟨0, swaTailLen, -1, Nat.zero_le _⟩

/-- `alloc_extend_swa_tail`, for one row. -/
def allocExtendSwaTail (row : ExtendRow) (extendNumTokens swaTailLen : Nat) :
    Option (Swa × Option (List Nat)) :=
  if 1 < c.pageSize ∧ swaTailLen ≤ extendNumTokens then
    let numFullPages := getNumNewPages c.pageSize [row]
    let numSwaPages := pagesFor c.pageSize swaTailLen
    if !s.newPagesAvailable c numFullPages numSwaPages then some (s, none)
    else
      match s.full.allocExtend c.full [row] extendNumTokens (some numFullPages) with
      | none => none
      | some (full, fullOut) =>
        if c.swaReqRing then some ({ s with full := full }, fullOut)
        else match fullOut with
          | none => none
          | some fullOut =>
            if swaTailLen = 0 then some ({ s with full := full }, some fullOut)
            else
              match s.swa.allocExtend c.swa [tailRow swaTailLen] swaTailLen
                (some numSwaPages) with
              | some (swa, some swaOut) =>
                let head := fullOut.take (fullOut.length - swaTailLen)
                let tail := fullOut.drop (fullOut.length - swaTailLen)
                (setFullToSwaMapping s.mapping tail swaOut).map fun mapping =>
                  ({ s with
                    full := full
                    swa := swa
                    mapping := if swaTailLen < extendNumTokens then
                      clearFullToSwaMapping mapping head else mapping }, some fullOut)
              | _ => none
  else none

/-- The window side of a decode row. -/
def swaDecodeRow (r : DecodeRow) : DecodeRow :=
  { r with lastLoc := translateLoc s.mapping r.lastLoc }

/-- `alloc_decode`. Unlike its siblings it asks both pools before it looks at either
answer. -/
def allocDecode (rows : List DecodeRow) : Option (Swa × Option (List Nat)) :=
  if 1 < c.pageSize then
    if c.swaReqRing then
      (s.full.allocDecode c.full rows).map fun r => ({ s with full := r.1 }, r.2)
    else
      match s.full.allocDecode c.full rows, s.swa.allocDecode c.swa (rows.map s.swaDecodeRow) with
      | some (full, some fullOut), some (swa, some swaOut) =>
        (setFullToSwaMapping s.mapping fullOut swaOut).map fun mapping =>
          ({ s with full := full, swa := swa, mapping := mapping }, some fullOut)
      | some (full, _), some (swa, _) => some ({ s with full := full, swa := swa }, none)
      | _, _ => none
  else none

/-- `_release_swa`. -/
def releaseSwa (swaIndices : List Nat) : Option Swa :=
  let swaIndices := if 1 < c.pageSize then swaIndices.filter (0 < ·) else swaIndices
  let swa := s.swa.free c.swa swaIndices
  if swa.availableSize c.swa ≤ c.sizeSwa then some { s with swa := swa } else none

/-- The window pages one representative slot per full page resolves to. -/
def swaPagesOf : List Nat :=
  (Paged.representatives c.pageSize freeIndex).map fun rep => s.mapping rep / c.pageSize

/-- `_free_swa_pages`: resolve one representative per page and clear the whole pages. -/
def freeSwaPages (startPos : Nat) : Option Swa :=
  if startPos % c.pageSize = 0 then
    let reps := Paged.representatives c.pageSize freeIndex
    let swaPages := s.swaPagesOf c freeIndex
    let cleared := clearFullToSwaMapping s.mapping (expandPages c.pageSize (pagesOf c.pageSize reps))
    let s := { s with mapping := cleared }
    if s.freeGroup then some { s with swaPageIdsGroup := s.swaPageIdsGroup ++ [swaPages] }
    else
      let swa := s.swa.freePageIds c.swa swaPages
      if swa.availableSize c.swa ≤ c.sizeSwa then some { s with swa := swa } else none
  else none

/-- `free_swa`. -/
def freeSwa : Option Swa :=
  if c.swaReqRing || freeIndex.isEmpty then some s
  else if c.pageSize = 1 then s.freeSwaPages c freeIndex 0
  else
    let mappingIndices := expandPages c.pageSize (pagesOf c.pageSize freeIndex)
    let swaIndices := mappingIndices.map s.mapping
    let s := { s with mapping := clearFullToSwaMapping s.mapping mappingIndices }
    -- ownership is resolved now: a later action of the group may map the slot again
    if s.freeGroup then some { s with swaFreeGroup := s.swaFreeGroup ++ [swaIndices] }
    else s.releaseSwa c swaIndices

def freeSwaSegment (startPos : Nat) : Option Swa :=
  if c.swaReqRing || freeIndex.isEmpty then some s else s.freeSwaPages c freeIndex startPos

def freeFull : Option Swa :=
  if freeIndex.isEmpty then some s
  else
    let full := s.full.free c.full freeIndex
    if full.availableSize c.full ≤ c.sizeFull then some { s with full := full } else none

def free : Option Swa :=
  if freeIndex.isEmpty then some s else (s.freeSwa c freeIndex).bind (·.freeFull c freeIndex)

def freeFullSegment (startPos : Nat) : Option Swa :=
  if freeIndex.isEmpty then some s
  else (s.full.freeSegment c.full freeIndex startPos).map fun full => { s with full := full }

def freeSegment (startPos : Nat) : Option Swa :=
  if freeIndex.isEmpty then some s
  else (s.freeSwaSegment c freeIndex startPos).bind (·.freeFullSegment c freeIndex startPos)

/-- `free_group_begin`; `none` when a group is already open. -/
def freeGroupBegin : Option Swa :=
  if s.freeGroup then none
  else s.full.freeGroupBegin.map fun full =>
    { s with full := full, freeGroup := true, swaFreeGroup := [], swaPageIdsGroup := [] }

/-- The window pages queued by representatives, released at the end of a group. -/
def releasePageIdsGroup : Swa :=
  if s.swaPageIdsGroup.isEmpty then s
  else { s with
    swaPageIdsGroup := []
    swa := if c.swaReqRing then s.swa else s.swa.freePageIds c.swa s.swaPageIdsGroup.flatten }

/-- The window slots queued by `free_swa`, released at the end of a group. -/
def releaseFreeGroup : Option Swa :=
  if s.swaFreeGroup.isEmpty then some s
  else { s with swaFreeGroup := [] }.releaseSwa c s.swaFreeGroup.flatten

def freeGroupEnd : Option Swa :=
  let s := { s with freeGroup := false }.releasePageIdsGroup c
  (s.releaseFreeGroup c).bind fun s =>
    let full := s.full.freeGroupEnd c.full
    if full.availableSize c.full ≤ c.sizeFull ∧ s.swa.availableSize c.swa ≤ c.sizeSwa then
      some { s with full := full }
    else none

end Swa

end Sglang.Alloc
