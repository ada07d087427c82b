/-
# What `ensure_capacity` promises

* `Hybrid.Fits` — a demand in pages that the full pool and, after it, the window pool can
  serve; both capacity checks imply it in a good chain.
* `Hybrid.ensureCapacity_spec` — after `ensure_capacity` said yes, the demand it was asked
  about is covered, and so is every smaller one.
* `Hybrid.reachable_allocates` — every composite allocation within that demand succeeds.
-/

import Sglang.Unified.HybridSwa
import Sglang.Unified.FullPack

namespace Sglang.Unified

open Alloc (extendRows pagesFor_mul)

open List Chain Pool
open Nat (add_mul_div_right card_Ico dvd_of_mod_eq_zero le_add_right le_div_iff_mul_le
  mul_le_mul_right zero_le)
open Option (bind_eq_some_iff bind_some filter_none isSome_iff_exists isSome_map map_eq_some_iff
  some_injective)
open Finset (card_le_card card_le_card_of_injOn card_union_le mem_Ico mem_filter
  mem_of_mem_insert_of_ne mem_union subset_union_left)
open Sglang.Alloc (pagesFor pagesOf unique ExtendRow DecodeRow getNumNewPages getNumNewPagesDecode)

namespace Pool

variable {γ : Type} {c : SubPool} {s s' : Pool γ} {H B R : Finset Nat} {b : Bounds} {n : Nat}
  {written : Nat → Option γ}

/-! ### Enough room is enough -/

section

variable (placed : Placed c s H) (ends : c.growDirection ≠ .float)
include placed ends

lemma advanceWatermark_isSome (room : n ≤ c.numPages - c.minPageIndex - s.allocatedPages c) :
    (s.advanceWatermark c n).isSome = true := by
  have low := placed.low_ge
  have high := placed.high_le
  have ordered := placed.ordered
  unfold lowPage at low ordered
  unfold highPage at high ordered
  unfold allocatedPages at room
  unfold advanceWatermark
  cases grow : c.growDirection with
  | float => exact absurd grow ends
  | up | down =>
    simp only [grow] at low high ordered room ⊢
    rw [if_neg (by omega)]
    rfl

/-- The byte check of `_extend_watermark` asks for no more than the gap. -/
lemma extendWatermark_isSome (asked : 0 < n) (gap : n ≤ s.currentGapBytes c b / c.entryBytesPerPage)
    (room : n ≤ c.numPages - c.minPageIndex - s.allocatedPages c) :
    (s.extendWatermark c b n).isSome = true := by
  have index := advanceWatermark_isSome placed ends room
  have bytes := (le_div_iff_mul_le c.entryBytesPerPage_pos).mp gap
  have pos : 0 < n * c.entryBytesPerPage := mul_pos asked c.entryBytesPerPage_pos
  unfold advanceWatermark at index
  unfold currentGapBytes byteHighFrontier byteLowFrontier at bytes
  unfold extendWatermark
  cases grow : c.growDirection with
  | float => exact absurd grow ends
  | up =>
    simp only [grow] at index bytes ⊢
    split at index
    · cases index
    · rename_i inRange
      rw [if_neg inRange, if_neg]
      · rfl
      · rw [not_lt, le_div_iff_mul_le c.entryBytesPerPage_pos, add_mul]
        omega
  | down =>
    simp only [grow] at index bytes ⊢
    split at index
    · cases index
    · rename_i inRange
      rw [if_neg inRange, if_neg]
      · rfl
      · have below : b.below / c.entryBytesPerPage ≤ s.watermarkPhysical + 1 - n := by
          apply Nat.div_le_of_le_mul
          rw [mul_comm, Nat.sub_mul]
          omega
        omega

lemma takePhysicalEnd_isSome (fits : n ≤ s.availablePages c b) :
    (s.takePhysicalEnd c b n).isSome = true := by
  rw [availablePages_end ends] at fits
  unfold takePhysicalEnd
  split
  · rfl
  · cases lazy : c.lazyCompaction with
    | false =>
      simp only [lazy, Bool.false_eq_true, if_false] at fits ⊢
      rw [isSome_map]
      exact advanceWatermark_isSome placed ends (fits.trans (min_le_right _ _))
    | true =>
      simp only [lazy, if_true] at fits ⊢
      rw [isSome_map]
      split
      · rename_i more
        refine extendWatermark_isSome placed ends more ?_ ?_ <;> omega
      · rfl

end

lemma extendSpan_isSome (fits : n ≤ max (s.gapPages c b).1 (s.gapPages c b).2) :
    (s.extendSpan c b n).isSome = true := by
  unfold gapPages at fits
  unfold extendSpan
  simp only at fits ⊢
  split
  · rename_i transparent
    rw [if_pos transparent, max_self] at fits
    rw [if_neg (not_lt.mpr fits)]
    rfl
  · rename_i isOpaque
    rw [if_neg isOpaque] at fits
    rcases le_max_iff.mp fits with low | high
    · split
      · rename_i larger
        rw [if_pos (low.trans larger)]
        rfl
      · rfl
    · split
      · rfl
      · rename_i smaller
        rw [if_pos (high.trans (Nat.le_of_not_le smaller))]
        rfl

section

variable (placed : Placed c s H)
include placed

lemma takePhysicalPages_isSome (fits : n ≤ s.availablePages c b) :
    (s.takePhysicalPages c b n).isSome = true := by
  unfold takePhysicalPages
  cases grow : c.growDirection with
  | up | down => exact takePhysicalEnd_isSome placed (by simp [grow]) fits
  | float =>
    simp only [availablePages, grow] at fits
    simp only [takePhysicalFloat]
    split
    · rfl
    · rw [isSome_map]
      split
      · rw [isSome_map]
        exact extendSpan_isSome (by omega)
      · rfl

lemma allocBind_isSome [Zero γ] {vPages : List Nat}
    (fits : vPages.length ≤ s.availablePages c b) : (s.allocBindFastOrSlow c b vPages).isSome = true := by
  rw [allocBindFastOrSlow_eq, isSome_map]
  exact takePhysicalPages_isSome placed fits

end

/-- Where a pool that grows down ends up. -/
lemma lowPage_advance (down : c.growDirection = .down)
    (ran : s.advanceWatermark c n = some s') : s'.lowPage c = s.lowPage c - n := by
  have pos := c.minPageIndex_pos
  simp only [advanceWatermark, lowPage, down] at ran ⊢
  split at ran
  · cases ran
  · cases ran
    dsimp only
    omega

lemma lowPage_takePhysicalEnd {pages : List Nat} (down : c.growDirection = .down)
    (ran : s.takePhysicalEnd c b n = some (s', pages)) :
    s'.lowPage c = s.lowPage c - (n - if c.lazyCompaction then s.freePhysPages.length else 0) := by
  unfold takePhysicalEnd at ran
  split at ran
  · rename_i nothing
    cases ran
    rw [nothing, Nat.zero_sub, Nat.sub_zero]
  · cases lazy : c.lazyCompaction with
    | false =>
      simp only [lazy] at ran ⊢
      obtain ⟨t, advanced, result⟩ := map_eq_some_iff.mp ran
      cases result
      exact lowPage_advance down advanced
    | true =>
      simp only [lazy, if_true] at ran ⊢
      obtain ⟨t, extended, result⟩ := map_eq_some_iff.mp ran
      cases result
      have drained : n - min n s.freePhysPages.length = n - s.freePhysPages.length := by omega
      rw [drained] at extended
      split at extended
      · have grown := lowPage_advance down (advance_of_extend extended)
        exact grown
      · rename_i enough
        cases extended
        rw [Nat.eq_zero_of_not_pos enough]
        rfl

/-- An id owner has a free id for every id that is not bound. -/
lemma Inv.free_ids_ge (inv : Inv c s written B R) (owner : c.isIdOwner = true) :
    c.numPages - c.minPageIndex - B.card ≤ s.freeVirtualIds.length := by
  have mapped := inv.mapped
  let bound := (Finset.Ico c.minPageIndex c.numPages).filter fun v => (s.v2p v).isSome
  have cover : Finset.Ico c.minPageIndex c.numPages ⊆ s.freeVirtualIds.toFinset ∪ bound := by
    intro v mem
    rw [mem_union, List.mem_toFinset, mapped.ids_free owner, Finset.mem_filter]
    cases found : s.v2p v with
    | none => exact .inl ⟨mem_Ico.mp mem, rfl⟩
    | some p => exact .inr ⟨mem, rfl⟩
  have pages : bound.card ≤ B.card := by
    refine card_le_card_of_injOn (fun v => (s.v2p v).getD 0) (fun v mem => ?_) ?_
    · obtain ⟨range, found⟩ := Finset.mem_filter.mp mem
      obtain ⟨p, read⟩ := isSome_iff_exists.mp found
      simp only [read]
      apply mem_of_mem_insert_of_ne (mapped.linked.mem_bound read)
      rintro rfl
      have sink := mapped.linked.injective read mapped.sink
      exact absurd (mem_Ico.mp range).1 (by have := c.minPageIndex_pos; omega)
    · intro v memV w memW same
      obtain ⟨p, readV⟩ := isSome_iff_exists.mp (Finset.mem_filter.mp memV).2
      obtain ⟨q, readW⟩ := isSome_iff_exists.mp (Finset.mem_filter.mp memW).2
      simp only [readV, readW] at same
      subst same
      exact mapped.linked.injective readV readW
  have total := (card_le_card cover).trans (card_union_le _ _)
  have ids := toFinset_card_le s.freeVirtualIds
  rw [card_Ico] at total
  omega

/-- Pages of room always come with ids of room. -/
lemma Inv.room_le_ids (inv : Inv c s written B R)
    (owner : c.isIdOwner = true) (ends : c.growDirection ≠ .float) :
    s.freePhysPages.length + (c.numPages - c.minPageIndex - s.allocatedPages c)
      ≤ s.freeVirtualIds.length := by
  have ids := inv.free_ids_ge owner
  have card := inv.placed.card
  have bound : B.card ≤ (B ∪ R).card := card_le_card subset_union_left
  have low := inv.placed.low_ge
  have high := inv.placed.high_le
  rw [allocatedPages_end ends]
  omega

variable [Zero γ]

lemma freeVirtualIds_allocBind {vPages pages : List Nat} (placed : Placed c s H)
    (within : s.isFrontierTransparent c = false → Within c b s)
    (fits : vPages.length ≤ s.availablePages c b)
    (ran : s.allocBindFastOrSlow c b vPages = some (s', pages)) :
    s'.freeVirtualIds = s.freeVirtualIds := by
  rw [allocBindFastOrSlow_eq] at ran
  obtain ⟨⟨t, taken⟩, took, result⟩ := map_eq_some_iff.mp ran
  obtain ⟨mem, -, zeroed⟩ := maybeZeroPages_eq (c := c) (s := t.bind vPages taken) taken
  cases result
  rw [zeroed]
  exact (placed.takePhysicalPages within fits took).1.same.freeVirtualIds

/-- The frontier of a pool that grows down after an allocation. -/
lemma byteLowFrontier_allocBind {vPages pages : List Nat}
    (down : c.growDirection = .down) (ran : s.allocBindFastOrSlow c b vPages = some (s', pages)) :
    s'.byteLowFrontier c = s.byteLowFrontier c
      - (vPages.length - if c.lazyCompaction then s.freePhysPages.length else 0) * c.entryBytesPerPage := by
  rw [allocBindFastOrSlow_eq] at ran
  obtain ⟨⟨t, taken⟩, took, result⟩ := map_eq_some_iff.mp ran
  obtain ⟨rfl, rfl⟩ := Prod.mk.inj result
  simp only [takePhysicalPages, down] at took
  have low := lowPage_takePhysicalEnd down took
  obtain ⟨mem, -, zeroed⟩ := maybeZeroPages_eq (s := t.bind vPages taken) taken
  rw [byteLowFrontier_eq, byteLowFrontier_eq, ← Nat.sub_mul, ← low, zeroed]
  rfl

end Pool

namespace Hybrid

variable {γ : Type} (h : Hybrid) {s s' : Chain γ} {written : Member → Nat → Option γ}

/-! ### A demand that fits -/

/-- The low frontier of the full pool after it took `n` pages. -/
def lowAfter (s : Chain γ) (n : Nat) : Nat :=
  (fa s).byteLowFrontier h.full - (n - reusableHoles h.full (fa s)) * h.full.entryBytesPerPage

/-- The full pool can take `numFull` pages, and after that the window pool `numSwa`. -/
structure Fits (s : Chain γ) (numFull numSwa : Nat) : Prop where
  ids : numFull ≤ (fa s).freeVirtualIds.length
  full : numFull ≤ (fa s).availablePages h.full (Chain.bounds h.layout s .high)
  window : numSwa ≤ (h.sa s).availablePages h.swa
    ⟨Chain.highFrontierBelow h.layout s h.layout.swaMember, h.lowAfter s numFull⟩

/-- The chain after the full pool took `n` pages. -/
structure TookFull (s s' : Chain γ) (n : Nat) : Prop where
  others : ∀ m, m ≠ .high → s' m = s m
  ids : (fa s').freeVirtualIds = (fa s).freeVirtualIds.drop n
  low : (fa s').byteLowFrontier h.full = h.lowAfter s n

variable {h}

lemma full_here : h.layout.pool .high = some h.full := rfl

lemma full_ends : h.full.growDirection ≠ .float := by
  rw [full, h.layout.high_down]
  decide

lemma low_ends : h.layout.low.growDirection ≠ .float := by
  rw [h.layout.low_up]
  decide

lemma swaMember_ne_high : h.layout.swaMember ≠ .high := by
  unfold Layout.swaMember
  split <;> decide

/-- Without a float the window pool is the low end. -/
lemma swa_eq_low (noMid : h.layout.mid = none) : h.layout.swaMember = .low ∧ h.swa = h.layout.low := by
  have member : h.layout.swaMember = .low := by simp [Layout.swaMember, noMid]
  have here := h.swa_here
  rw [member] at here
  exact ⟨member, (some_injective _ here).symm⟩

lemma swa_ends (noMid : h.layout.mid = none) : h.swa.growDirection ≠ .float :=
  (swa_eq_low noMid).2 ▸ low_ends

/-- The gap of the full pool, over what lies below it. -/
lemma gap_full (s : Chain γ) : (fa s).currentGapBytes h.full (Chain.bounds h.layout s .high)
    = (fa s).byteLowFrontier h.full - (Chain.bounds h.layout s .high).below := by
  simp only [currentGapBytes, full, h.layout.high_down]

/-- Without a float it is what lies between the two frontiers. -/
lemma gap_eq (noMid : h.layout.mid = none) (s : Chain γ) :
    (fa s).currentGapBytes h.full (Chain.bounds h.layout s .high)
      = (fa s).byteLowFrontier h.full - (h.sa s).byteHighFrontier h.swa := by
  obtain ⟨member, isLow⟩ := swa_eq_low noMid
  rw [gap_full]
  simp only [bounds, highFrontierBelow, opaqueMid, noMid, filter_none, sa, member,
    isLow]

/-- With a float the window pool is the float. -/
lemma swa_eq_mid {c : SubPool} (mid : h.layout.mid = some c) :
    h.layout.swaMember = .mid ∧ h.swa = c := by
  have member : h.layout.swaMember = .mid := by simp [Layout.swaMember, mid]
  have here := h.swa_here
  rw [member] at here
  exact ⟨member, (some_injective _ (mid.symm.trans here)).symm⟩

/-- The window pool sees the full pool above it. -/
lemma bounds_swa (s : Chain γ) : Chain.bounds h.layout s h.layout.swaMember =
    ⟨Chain.highFrontierBelow h.layout s h.layout.swaMember, (fa s).byteLowFrontier h.full⟩ := by
  cases mid : h.layout.mid with
  | none =>
    rw [(swa_eq_low mid).1]
    simp [bounds, lowFrontierAbove, opaqueMid, mid, fa, full]
  | some c =>
    rw [(swa_eq_mid mid).1]
    rfl

lemma highFrontierBelow_swa (same : ∀ m, m ≠ .high → s' m = s m) :
    Chain.highFrontierBelow h.layout s' h.layout.swaMember
      = Chain.highFrontierBelow h.layout s h.layout.swaMember := by
  unfold Layout.swaMember
  split
  · simp only [highFrontierBelow, same .low (by decide)]
  · rfl

lemma inv_full (good : Chain.Good h.layout s written) :
    ∃ B R, (fa s).Inv h.full (written .high) B R :=
  good.inv .high h.full rfl

lemma inv_swa (good : Chain.Good h.layout s written) :
    ∃ B R, (h.sa s).Inv h.swa (written h.layout.swaMember) B R :=
  good.inv h.layout.swaMember h.swa h.swa_here

lemma TookFull.none (s : Chain γ) : h.TookFull s s 0 := by
  refine ⟨fun _ _ => rfl, rfl, ?_⟩
  rw [lowAfter, Nat.zero_sub, zero_mul, Nat.sub_zero]

section

variable [Zero γ] {numSwa n numFull needSize : Nat} (good : Chain.Good h.layout s written)
include good

/-- Binding the next free ids in the full pool. -/
lemma bindFreeIds_eq (ids : n ≤ (fa s).freeVirtualIds.length)
    (room : n ≤ (fa s).availablePages h.full (Chain.bounds h.layout s .high)) :
    ∃ s', Chain.bindFreeIds h.layout h.full s .high n = some (s', (fa s).freeVirtualIds.take n) ∧
      h.TookFull s s' n := by
  obtain ⟨B, R, inv⟩ := inv_full good
  have length : ((fa s).freeVirtualIds.take n).length = n := length_take_of_le ids
  obtain ⟨⟨pool, pages⟩, allocated⟩ := isSome_iff_exists.mp
    (allocBind_isSome inv.placed (length.trans_le room))
  refine ⟨_, map_eq_some_iff.mpr ⟨(pool, pages), allocated, rfl⟩, fun m other => ?_, ?_, ?_⟩
  · exact set_other other
  · exact congrArg (drop n) (freeVirtualIds_allocBind inv.placed (good.ordered.within full_here)
      (length.trans_le room) allocated)
  · have low := byteLowFrontier_allocBind h.layout.high_down allocated
    rw [length] at low
    exact low

omit [Zero γ] good in
/-- There is room for the window pages that were priced. -/
lemma TookFull.room (took : h.TookFull s s' numFull) (fits : h.Fits s numFull numSwa) (priced : n ≤ numSwa) :
    n ≤ (h.sa s').availablePages h.swa (Chain.bounds h.layout s' h.layout.swaMember) := by
  rw [bounds_swa, highFrontierBelow_swa took.others, took.low, sa, took.others _ swaMember_ne_high]
  exact priced.trans fits.window

/-- **The window pool** binds what was priced for it. -/
lemma bindWindow_isSome (vPages : List Nat) (fits : h.Fits s numFull numSwa)
    (took : h.TookFull s s' numFull) (priced : vPages.length ≤ numSwa) :
    ∃ t, h.bindWindow s' vPages = some t := by
  obtain ⟨B, R, inv⟩ := inv_swa good
  rw [sa, ← took.others _ swaMember_ne_high] at inv
  obtain ⟨result, allocated⟩ := isSome_iff_exists.mp
    (allocBind_isSome inv.placed (took.room fits priced))
  refine ⟨.set s' h.layout.swaMember result.1, ?_⟩
  rw [bindWindow, allocWithVirtual, h.swa_here, bind_some, allocated]
  rfl

/-- `alloc` of the full pool. -/
lemma full_alloc (fired : Nat → Bool) (aligned : needSize % h.pageSize = 0)
    (fits : h.Fits s (needSize / h.pageSize) numSwa) :
    ∃ s' out, Chain.alloc h.layout fired s .high needSize = some (s', some out) ∧
      h.TookFull s s' (needSize / h.pageSize) := by
  by_cases nothing : needSize = 0
  · subst nothing
    rw [Nat.zero_div]
    exact ⟨s, [], by simp [Chain.alloc, Layout.pool, h.full_owner], .none s⟩
  · obtain ⟨ids, room, -⟩ := fits
    obtain ⟨s', bound, took⟩ := bindFreeIds_eq good ids room
    have owner : h.full.isIdOwner = true := h.full_owner
    have gate : needSize ≤ Chain.availableSize h.layout h.full s .high := by
      rw [← Nat.div_mul_cancel (dvd_of_mod_eq_zero aligned)]
      exact mul_le_mul_right _ room
    change needSize % h.full.pageSize = 0 at aligned
    change needSize / h.full.pageSize ≤ (s .high).freeVirtualIds.length at ids
    change Chain.bindFreeIds _ _ _ _ (needSize / h.full.pageSize) = _ at bound
    refine ⟨s', Alloc.expandPages h.full.pageSize
      ((fa s).freeVirtualIds.take (needSize / h.pageSize)), ?_, took⟩
    rw [Chain.alloc, full_here]
    simp [owner, nothing, aligned, Chain.ensureAvailable, gate, not_lt.mpr ids, bound]

/-- `alloc_extend` and `alloc_decode` of the full pool. -/
lemma full_allocRows (fired : Nat → Bool) (numNewPages : SubPool → Nat)
    (out : SubPool → List Nat → List Nat) (fits : h.Fits s (numNewPages h.full) numSwa) :
    ∃ s', Chain.allocRows h.layout fired s .high numNewPages out
        = some (s', some (out h.full (fa s).freeVirtualIds)) ∧ h.TookFull s s' (numNewPages h.full) := by
  obtain ⟨s', bound, took⟩ := bindFreeIds_eq good fits.ids fits.full
  have gate : numNewPages h.full * h.full.pageSize ≤ Chain.availableSize h.layout h.full s .high :=
    mul_le_mul_right _ fits.full
  have ids : numNewPages h.full ≤ (s .high).freeVirtualIds.length := fits.ids
  refine ⟨s', ?_, took⟩
  have owner : h.full.isIdOwner = true := h.full_owner
  rw [Chain.allocRows, full_here]
  simp [owner, Chain.ensureAvailable, gate, not_lt.mpr ids, bound, fa]

end

/-! ### The checks -/

variable {c : SubPool} {n f w numFull numSwa f' w' tail : Nat} {fired : Nat → Bool} {pool : Pool γ}
  {b : Bounds} {row : ExtendRow} {ids : List Nat}

/-- The holes of a pool at an end are reused; an eager one has none. -/
lemma reusableHoles_eq {H : Finset Nat} (placed : Pool.Placed c pool H)
    (ends : c.growDirection ≠ .float) : reusableHoles c pool = pool.freePhysPages.length := by
  unfold reusableHoles
  cases lazy : c.lazyCompaction with
  | true => rfl
  | false => rw [placed.packed lazy ends]; rfl

/-- What an end pool can give: its holes, and pages of the gap within its index space. -/
lemma le_availablePages_end (ends : c.growDirection ≠ .float)
    (room : n ≤ reusableHoles c pool + indexRoomOf c pool)
    (bytes : (n - reusableHoles c pool) * c.entryBytesPerPage ≤ pool.currentGapBytes c b) :
    n ≤ pool.availablePages c b := by
  have gap := (le_div_iff_mul_le c.entryBytesPerPage_pos).mpr bytes
  rw [availablePages_end ends]
  unfold reusableHoles indexRoomOf at room
  unfold reusableHoles at gap
  omega

/-- What a float can give: its holes, and the larger of its gaps within its index space. -/
lemma le_availablePages_float (float : c.growDirection = .float)
    (room : n ≤ pool.holePages + indexRoomOf c pool)
    (gap : n - pool.holePages ≤ max (pool.gapPages c b).1 (pool.gapPages c b).2) :
    n ≤ pool.availablePages c b := by
  simp only [indexRoomOf, allocatedPages, float] at room
  simp only [availablePages, float]
  omega

/-- What `_fits_page_demand` of the two-ended composite found, without compaction. -/
lemma fits_of_ends (good : Chain.Good h.layout s written)
    (noMid : h.layout.mid = none)
    (fits : h.fitsPageDemand s numFull numSwa 0 0 false false = true) : h.Fits s numFull numSwa := by
  obtain ⟨B, R, inv⟩ := inv_full good
  obtain ⟨B', R', inv'⟩ := inv_swa good
  obtain ⟨member, isLow⟩ := swa_eq_low noMid
  have grows : h.swa.growDirection = .up := isLow ▸ h.layout.low_up
  have ends := swa_ends noMid
  simp only [fitsPageDemand, Bool.false_eq_true, if_false, Nat.min_zero, add_zero] at fits
  split at fits
  · cases fits
  simp only [Snapshot.fits, Bool.and_eq_true, decide_eq_true_eq,
    ← reusableHoles_eq inv.placed full_ends, ← reusableHoles_eq inv'.placed ends] at fits
  obtain ⟨⟨⟨ids, fullRoom⟩, swaRoom⟩, bytes⟩ := fits
  refine ⟨ids, le_availablePages_end full_ends fullRoom ((le_add_right _ _).trans bytes),
    le_availablePages_end ends swaRoom ?_⟩
  -- the window pool may use what the full pool leaves of the gap
  have gap := gap_eq noMid s
  simp only [currentGapBytes, grows, lowAfter]
  omega

/-- The bands that the tri-pool composite prices are the gaps of the float. -/
lemma swaRoom_le_gap (s : Chain γ) (mid : h.layout.mid = some c)
    (below : b.below = Chain.highFrontierBelow h.layout s h.layout.swaMember) :
    h.swaRoom s b.above ≤ max ((h.sa s).gapPages h.swa b).1 ((h.sa s).gapPages h.swa b).2 := by
  obtain ⟨member, rfl⟩ := swa_eq_mid mid
  have float := h.layout.mid_float _ mid
  have pos := h.swa.entryBytesPerPage_pos
  rw [member] at below
  simp only [swaRoom, gapPages, regionBoundsPages, below]
  split
  · rw [max_self]
    rfl
  · apply max_le_max
    · simp only [pagesInBand, byteLowFrontier, float, Nat.mul_div_cancel _ pos]
      exact Nat.sub_le_sub_right (min_le_left _ _) _
    · simp only [pagesInBand, byteHighFrontier, float]
      rw [pagesFor_mul pos]
      exact Nat.sub_le_sub_left (le_max_left _ _) _

/-- What `_fits_page_demand` of the tri-pool composite found. -/
lemma fits_of_chain (good : Chain.Good h.layout s written) (mid : h.layout.mid = some c)
    (fits : h.fitsChainDemand s numFull numSwa = true) : h.Fits s numFull numSwa := by
  obtain ⟨B, R, inv⟩ := inv_full good
  obtain ⟨member, rfl⟩ := swa_eq_mid mid
  have float := h.layout.mid_float _ mid
  simp only [fitsChainDemand] at fits
  split at fits
  · cases fits
  rename_i room
  rw [not_or, not_lt, not_lt] at room
  split at fits
  · cases fits
  rename_i bytes
  rw [decide_eq_true_eq] at fits
  refine ⟨?_, le_availablePages_end full_ends room.1 (not_lt.mp bytes), ?_⟩
  · apply room.1.trans
    rw [reusableHoles_eq inv.placed full_ends]
    exact inv.room_le_ids h.full_owner full_ends
  · refine le_availablePages_float float room.2 (le_trans ?_ (swaRoom_le_gap s mid rfl))
    exact fits

/-! ### Smaller demands -/

lemma pagesInBand_mono (c : SubPool) (low : Nat) {high high' : Nat} (above : high ≤ high') :
    pagesInBand c low high ≤ pagesInBand c low high' :=
  Nat.sub_le_sub_right (min_le_min_right _ (Nat.div_le_div_right above)) _

lemma swaRoom_mono {above above' : Nat} (le : above ≤ above') : h.swaRoom s above ≤ h.swaRoom s above' := by
  unfold swaRoom
  split
  · exact pagesInBand_mono _ _ le
  · exact max_le_max le_rfl (pagesInBand_mono _ _ le)

lemma Snapshot.fits_mono {v : Snapshot} (fewer : f' ≤ f) (fewer' : w' ≤ w)
    (fits : v.fits h f w = true) : v.fits h f' w' = true := by
  simp only [Snapshot.fits, Bool.and_eq_true, decide_eq_true_eq] at fits ⊢
  obtain ⟨⟨⟨ids, fullRoom⟩, swaRoom⟩, bytes⟩ := fits
  refine ⟨⟨⟨fewer.trans ids, fewer.trans fullRoom⟩, fewer'.trans swaRoom⟩, le_trans ?_ bytes⟩
  exact Nat.add_le_add (mul_le_mul_right _ (Nat.sub_le_sub_right fewer _))
    (mul_le_mul_right _ (Nat.sub_le_sub_right fewer' _))

lemma fitsPageDemand_mono {a b : Nat} {compacted emptyPool : Bool} (fewer : f' ≤ f)
    (fewer' : w' ≤ w) (fits : h.fitsPageDemand s f w a b compacted emptyPool = true) :
    h.fitsPageDemand s f' w' a b compacted emptyPool = true := by
  simp only [fitsPageDemand, Bool.if_false_left, Bool.and_eq_true, Bool.not_eq_true',
    decide_eq_false_iff_not, not_or, not_lt] at fits ⊢
  obtain ⟨⟨full, window⟩, room⟩ := fits
  exact ⟨⟨(Nat.add_le_add_left fewer _).trans full, (Nat.add_le_add_left fewer' _).trans window⟩,
    Snapshot.fits_mono fewer fewer' room⟩

lemma fitsChainDemand_mono (fewer : f' ≤ f) (fewer' : w' ≤ w)
    (fits : h.fitsChainDemand s f w = true) : h.fitsChainDemand s f' w' = true := by
  simp only [fitsChainDemand] at fits ⊢
  split at fits
  · cases fits
  split at fits
  · cases fits
  have less : (f' - reusableHoles h.full (fa s)) * h.full.entryBytesPerPage
      ≤ (f - reusableHoles h.full (fa s)) * h.full.entryBytesPerPage :=
    mul_le_mul_right _ (Nat.sub_le_sub_right fewer _)
  rw [if_neg (by omega), if_neg (by omega)]
  rw [decide_eq_true_eq] at fits ⊢
  calc w' - (h.sa s).holePages
      ≤ w - (h.sa s).holePages := Nat.sub_le_sub_right fewer' _
    _ ≤ _ := fits
    _ ≤ _ := swaRoom_mono (Nat.sub_le_sub_left less _)

/-! ### `ensure_capacity` -/

/-- All that `ensure_capacity` does to a chain: flushes and `make_room`, one after the other. -/
inductive Relieved (l : Layout) (s : Chain γ) : Chain γ → Prop
  | refl : Relieved l s s
  | flush {t s' : Chain γ} {m : Member} {fired : Nat → Bool} {moved : Nat} (before : Relieved l s t)
      (ran : Chain.flush l fired true t m = some (s', moved)) : Relieved l s s'
  | makeRoom {t s' : Chain γ} {side : Side} {minBytes bytes : Nat} (before : Relieved l s t)
      (ran : Chain.makeRoom l side minBytes t = some (s', bytes)) : Relieved l s s'

namespace Relieved

variable {l : Layout} {t : Chain γ}

lemma rests (relieved : Relieved l s s') (good : Chain.Good l s written) :
    Chain.Rests l written s s' := by
  induction relieved with
  | refl => exact .refl good
  | flush _ ran ih => exact ih.trans (ih.good.flush ran).1
  | makeRoom _ ran ih => exact ih.trans (ih.good.makeRoom ran).1

lemma flushAll {members : List Member} (before : Relieved h.layout s t)
    (ran : h.flushAll fired members t = some s') : Relieved h.layout s s' := by
  induction members generalizing t with
  | nil =>
    cases ran
    exact before
  | cons m rest ih =>
    obtain ⟨⟨u, moved⟩, flushed, called⟩ := bind_eq_some_iff.mp ran
    exact ih (before.flush flushed) called

lemma openShortSide {demand : Chain.Demand} (before : Relieved l s t)
    (ran : Chain.floatOpenShortSide l t demand = some s') : Relieved l s s' := by
  unfold Chain.floatOpenShortSide at ran
  split at ran
  · cases ran
    exact before
  · obtain ⟨⟨u, bytes⟩, opened, rfl⟩ := map_eq_some_iff.mp ran
    exact before.makeRoom opened

end Relieved

/-- The check of the composite at hand, in pages; nothing is asked of a check for nothing. -/
def Covers (h : Hybrid) (s : Chain γ) (numFull numSwa : Nat) : Prop :=
  match h.layout.mid with
  | none => numFull = 0 ∧ numSwa = 0 ∨ h.fitsPageDemand s numFull numSwa 0 0 false false = true
  | some _ => h.fitsChainDemand s numFull numSwa = true

lemma Covers.mono (covers : h.Covers s f w) (fewer : f' ≤ f) (fewer' : w' ≤ w) :
    h.Covers s f' w' := by
  unfold Covers at covers ⊢
  split
  · rename_i noMid
    rw [noMid] at covers
    rcases covers with ⟨rfl, rfl⟩ | fits
    · exact .inl ⟨Nat.le_zero.mp fewer, Nat.le_zero.mp fewer'⟩
    · exact .inr (fitsPageDemand_mono fewer fewer' fits)
  · rename_i mid
    rw [mid] at covers
    exact fitsChainDemand_mono fewer fewer' covers

lemma Covers.fits (good : Chain.Good h.layout s written) (covers : h.Covers s f w) :
    h.Fits s f w := by
  unfold Covers at covers
  split at covers
  · rename_i noMid
    rcases covers with ⟨rfl, rfl⟩ | fits
    · exact ⟨zero_le _, zero_le _, zero_le _⟩
    · exact fits_of_ends good noMid fits
  · rename_i mid
    exact fits_of_chain good mid covers

/-- The binary search ends at a number that passed, or where it started. -/
lemma searchLast_spec (p : Nat → Bool) (lo hi : Nat) (le : lo ≤ hi) :
    (searchLast p lo hi = lo ∨ p (searchLast p lo hi) = true) ∧ searchLast p lo hi ≤ hi := by
  fun_induction searchLast p lo hi with
  | case1 lo hi more passed ih =>
    obtain ⟨same | passes, below⟩ := ih (by omega)
    · exact ⟨.inr (by rwa [same]), below⟩
    · exact ⟨.inr passes, below⟩
  | case2 lo hi more failed ih =>
    obtain ⟨passes, below⟩ := ih (by omega)
    exact ⟨passes, by omega⟩
  | case3 lo hi done => exact ⟨.inl rfl, le⟩

lemma le_searchLast {p : Nat → Bool} {lo hi k : Nat} (down : ∀ i j, i ≤ j → p j = true → p i = true)
    (holds : p k = true) (le : k ≤ hi) : k ≤ searchLast p lo hi := by
  fun_induction searchLast p lo hi with
  | case1 lo hi more passed ih => exact ih le
  | case2 lo hi more failed ih =>
    refine ih (Nat.le_sub_one_of_lt (Nat.lt_of_not_le fun above => failed ?_))
    exact down _ _ above holds
  | case3 lo hi done => omega

/-- `available_size` is priced as `_fits_page_demand` is. -/
lemma fits_of_available (available : n * h.pageSize ≤ h.availableSize s) :
    h.fitsChainDemand s n n = true := by
  have count := le_of_mul_le_mul_right available h.full.pageSize_pos
  apply fitsChainDemand_mono count count
  have start : h.midFits s 0 = true := by simp [midFits]
  obtain ⟨passes, below⟩ := searchLast_spec (h.midFits s) 0
    (min (reusableHoles h.full (fa s) + indexRoomOf h.full (fa s))
      ((h.sa s).holePages + indexRoomOf h.swa (h.sa s))) (zero_le _)
  replace passes := passes.elim (fun same => (congrArg (h.midFits s) same).trans start) id
  simp only [midFits, Bool.and_eq_true, decide_eq_true_eq] at passes
  obtain ⟨bytes, room⟩ := passes
  simp only [fitsChainDemand]
  rw [if_neg (by omega), if_neg (not_lt.mpr bytes), decide_eq_true_eq]
  refine room.trans (le_of_eq ?_)
  unfold swaRoom
  split
  · exact zero_max _
  · rfl

variable {yes : Bool}

/-- The two-ended `ensure_capacity`. -/
lemma ensureCapacityEnds_spec (ran : h.ensureCapacityEnds fired s f w = some (s', yes)) :
    Relieved h.layout s s' ∧ (yes = true → pagesFor h.pageSize f = 0 ∧ pagesFor h.pageSize w = 0 ∨
      h.fitsPageDemand s' (pagesFor h.pageSize f) (pagesFor h.pageSize w) 0 0 false false = true) := by
  unfold ensureCapacityEnds at ran
  split at ran
  · rename_i nothing
    obtain ⟨rfl, rfl⟩ := nothing
    cases ran
    have noFull := (Alloc.pagesFor_eq_zero_iff h.full.pageSize_pos).mpr rfl
    exact ⟨.refl, fun _ => .inl ⟨noFull, noFull⟩⟩
  simp only at ran
  split at ran
  · rename_i fits
    cases ran
    exact ⟨.refl, fun _ => .inr fits⟩
  split at ran
  · cases ran
    exact ⟨.refl, nofun⟩
  split at ran
  · cases ran
    exact ⟨.refl, nofun⟩
  obtain ⟨t, flushed, result⟩ := map_eq_some_iff.mp ran
  obtain ⟨rfl, rfl⟩ := Prod.mk.inj result
  exact ⟨Relieved.refl.flushAll flushed, .inr⟩

/-- The branch for unequal demands. -/
lemma ensureUnequal_spec (ran : h.ensureUnequal fired s f w = some (s', yes)) :
    Relieved h.layout s s' ∧ (yes = true → h.canReserve s' f w = true) := by
  obtain ⟨t, flushed, called⟩ := bind_eq_some_iff.mp ran
  have relieved := Relieved.refl.flushAll flushed
  split at called
  · rename_i enough
    cases called
    exact ⟨relieved, fun _ => enough⟩
  · obtain ⟨u, opened, result⟩ := map_eq_some_iff.mp called
    cases result
    exact ⟨relieved.openShortSide opened, id⟩

/-- The branch that moves the float down. -/
lemma ensureHighTarget_spec (ran : h.ensureHighTarget fired s n = some (s', yes)) :
    Relieved h.layout s s' ∧ (yes = true → n ≤ h.availableSize s') := by
  obtain ⟨t, flushed, called⟩ := bind_eq_some_iff.mp ran
  have relieved := Relieved.refl.flushAll flushed
  split at called
  · cases called
    exact ⟨relieved, nofun⟩
  split at called
  · rename_i available
    cases called
    exact ⟨relieved, fun _ => available⟩
  split at called
  · cases called
    exact ⟨relieved, nofun⟩
  · obtain ⟨⟨u, bytes⟩, opened, result⟩ := map_eq_some_iff.mp called
    cases result
    refine ⟨relieved.makeRoom opened, fun fits => ?_⟩
    rw [Bool.and_eq_true, decide_eq_true_eq] at fits
    exact fits.2

/-- The ladder of the composite. -/
lemma relieveForAlloc_spec (ran : h.relieveForAlloc fired s n = some (s', yes)) :
    Relieved h.layout s s' ∧ (yes = true → n ≤ h.availableSize s') := by
  obtain ⟨t, flushed, called⟩ := bind_eq_some_iff.mp ran
  have relieved := Relieved.refl.flushAll flushed
  split at called
  · rename_i available
    cases called
    exact ⟨relieved, fun _ => available⟩
  · obtain ⟨u, opened, result⟩ := map_eq_some_iff.mp called
    cases result
    exact ⟨relieved.openShortSide opened, of_decide_eq_true⟩

/-- The tri-pool `ensure_capacity` only moves pages and, whatever it did to get there, the check
holds now if it says so. -/
lemma ensureCapacityChain_spec (ran : h.ensureCapacityChain fired s f w = some (s', yes)) :
    Relieved h.layout s s' ∧ (yes = true → h.canReserve s' f w = true) := by
  unfold ensureCapacityChain at ran
  split at ran
  · rename_i enough
    cases ran
    exact ⟨.refl, fun _ => enough⟩
  split at ran
  · exact ensureUnequal_spec ran
  rename_i same
  obtain rfl : f = w := not_not.mp same
  suffices done : Relieved h.layout s s' ∧
      (yes = true → pagesFor h.pageSize f * h.pageSize ≤ h.availableSize s') from
    done.imp_right fun enough said => fits_of_available (enough said)
  simp only at ran
  split at ran
  · cases ran
    exact ⟨.refl, nofun⟩
  split at ran
  · rename_i available
    cases ran
    exact ⟨.refl, fun _ => available⟩
  split at ran
  · obtain ⟨t, flushed, result⟩ := map_eq_some_iff.mp ran
    cases result
    exact ⟨Relieved.refl.flushAll flushed, of_decide_eq_true⟩
  split at ran
  · exact ensureHighTarget_spec ran
  split at ran
  · cases ran
    exact ⟨.refl, nofun⟩
  · exact relieveForAlloc_spec ran

/-- **`ensure_capacity`** relieves the chain; if it says yes, the demand is covered now. -/
lemma ensureCapacity_spec (ran : h.ensureCapacity fired s f w = some (s', yes)) :
    Relieved h.layout s s' ∧
      (yes = true → h.Covers s' (pagesFor h.pageSize f) (pagesFor h.pageSize w)) := by
  unfold ensureCapacity at ran
  unfold Covers
  cases mid : h.layout.mid with
  | none =>
    rw [mid] at ran
    exact ensureCapacityEnds_spec ran
  | some c =>
    rw [mid] at ran
    exact ensureCapacityChain_spec ran

/-- **And it says yes again**, without touching the pools, to every demand that is covered. -/
lemma ensureCapacity_again (f w : Nat) (fired : Nat → Bool)
    (covers : h.Covers s (pagesFor h.pageSize f) (pagesFor h.pageSize w)) :
    h.ensureCapacity fired s f w = some (s, true) := by
  unfold ensureCapacity
  unfold Covers at covers
  split
  · rename_i noMid
    rw [noMid] at covers
    unfold ensureCapacityEnds
    split
    · rfl
    · rename_i more
      have fits := covers.resolve_left fun asks => more
        ⟨(Alloc.pagesFor_eq_zero_iff h.full.pageSize_pos).mp asks.1,
          (Alloc.pagesFor_eq_zero_iff h.full.pageSize_pos).mp asks.2⟩
      simp [fits]
  · rename_i mid
    rw [mid] at covers
    rw [ensureCapacityChain, canReserve, covers, if_pos rfl]

/-! ### The tail of a prompt -/

/-- A partly filled last page is the request's own: `last_loc` is on it, and it is bound. -/
def LastPageHeld (h : Hybrid) (s : Chain γ) (row : ExtendRow) : Prop :=
  row.Aligned h.pageSize ∧
    (row.prefixLen % h.pageSize ≠ 0 → ((fa s).v2p (row.lastPage h.pageSize)).isSome = true)

/-- A new page that one of the last lanes is on is not among the first new pages. -/
lemma tail_page_index {ps : Nat} (pos : 0 < ps) (row : ExtendRow) {i : Nat}
    (late : row.extendLen - tail ≤ i) (lt : i < row.extendLen) (past : row.num1 ps ≤ i) :
    max (pagesFor ps row.prefixLen) ((row.seqLen - tail) / ps)
      ≤ pagesFor ps row.prefixLen + (i - row.num1 ps) / ps := by
  have ceil := row.prefix_le_ceilPrefix pos
  apply max_le (le_add_right _ _)
  rw [add_comm, ← add_mul_div_right _ _ pos]
  apply Nat.div_le_div_right
  simp only [ExtendRow.num1, ExtendRow.ceilPrefix, ExtendRow.extendLen] at *
  omega

/-- What the tail binds lies behind the pages it may skip. -/
lemma mem_tailPagesToBind {page : Nat} (tail : Nat)
    (aligned : row.Aligned h.pageSize)
    (held : row.prefixLen % h.pageSize ≠ 0 → row.lastPage h.pageSize ∉ ids)
    (room : row.newPages h.pageSize ≤ ids.length)
    (mem : page ∈ h.tailPagesToBind (row.slots h.pageSize ids) (ids.take (row.newPages h.pageSize)) tail) :
    page ∈ (ids.take (row.newPages h.pageSize)).drop
      (max (pagesFor h.pageSize row.prefixLen) ((row.seqLen - tail) / h.pageSize)
        - pagesFor h.pageSize row.prefixLen) := by
  have pos : 0 < h.pageSize := h.full.pageSize_pos
  obtain ⟨isNew, onTail⟩ := mem_filter.mp mem
  rw [decide_eq_true_eq, Alloc.mem_unique, pagesOf, List.mem_map] at onTail
  obtain ⟨slot, late, rfl⟩ := onTail
  obtain ⟨j, found⟩ := mem_iff_getElem?.mp late
  rw [getElem?_drop, ExtendRow.slots, length_map, length_range, getElem?_map] at found
  obtain ⟨i, lane, rfl⟩ := map_eq_some_iff.mp found
  obtain ⟨lt, rfl⟩ := List.getElem?_eq_some_iff.mp lane
  rw [length_range] at lt
  rw [getElem_range] at isNew ⊢
  by_cases first : row.extendLen - tail + j < row.num1 h.pageSize
  · -- a lane on the last cached page, which is not free
    obtain ⟨partly, onLast, -⟩ := row.slot_first pos ids aligned first
    rw [onLast] at isNew
    exact absurd (mem_of_mem_take isNew) (held partly)
  · have past := Nat.le_of_not_lt first
    have index := row.lane_page_lt pos lt past
    have behind := tail_page_index pos row (le_add_right _ j) lt past
    rw [(row.slot_later pos ids past lt).1, getD_eq_getElem _ _ (index.trans_le room)]
    generalize (row.extendLen - tail + j - row.num1 h.pageSize) / h.pageSize = k at index behind ⊢
    refine mem_drop_iff_getElem.mpr ⟨pagesFor h.pageSize row.prefixLen + k
      - max (pagesFor h.pageSize row.prefixLen) ((row.seqLen - tail) / h.pageSize), ?_, ?_⟩
    · rw [length_take_of_le room]
      omega
    · rw [getElem_take]
      congr 1
      omega

/-- **The tail was priced right**: it binds no more window pages than were asked for. -/
lemma length_tailPagesToBind (nodup : ids.Nodup)
    (pos : 0 < tail) (aligned : row.Aligned h.pageSize)
    (held : row.prefixLen % h.pageSize ≠ 0 → row.lastPage h.pageSize ∉ ids)
    (room : row.newPages h.pageSize ≤ ids.length) :
    (h.tailPagesToBind (row.slots h.pageSize ids) (ids.take (row.newPages h.pageSize)) tail).length
      ≤ h.numSwaPages row tail := by
  have distinct : (ids.take (row.newPages h.pageSize)).Nodup := nodup.sublist (take_sublist _ _)
  have behind := subperm_of_subset (.filter _ distinct) fun page mem =>
    mem_tailPagesToBind tail aligned held room mem
  apply behind.length_le.trans
  rw [length_drop, length_take_of_le room, numSwaPages, if_neg pos.ne', ExtendRow.newPages]
  omega

/-! ### The allocations -/

/-- The composite allocations. -/
inductive Call where
  | alloc (needSize : Nat)
  | allocExtend (rows : List ExtendRow)
  | allocExtendSwaTail (row : ExtendRow) (swaTailLen : Nat)
  | allocDecode (rows : List DecodeRow)

namespace Call

/-- The full pages that a call consumes. -/
def fullPages (h : Hybrid) : Call → Nat
  | alloc needSize => needSize / h.pageSize
  | allocExtend rows => getNumNewPages h.pageSize rows
  | allocExtendSwaTail row _ => getNumNewPages h.pageSize [row]
  | allocDecode rows => getNumNewPagesDecode h.pageSize rows

/-- The window pages that a call consumes. -/
def swaPages (h : Hybrid) : Call → Nat
  | allocExtendSwaTail row swaTailLen => h.numSwaPages row swaTailLen
  | call => call.fullPages h

/-- What the callers of an allocation see to: whole pages for `alloc`, and a tail within
the new tokens of a request that holds its last page. -/
def Valid (h : Hybrid) (s : Chain γ) : Call → Prop
  | alloc needSize => needSize % h.pageSize = 0
  | allocExtendSwaTail row swaTailLen => swaTailLen ≤ row.extendLen ∧ h.LastPageHeld s row
  | _ => True

/-- Run a call; the outer `none` is a failed assertion, the inner one a shortfall. -/
def run [Zero γ] (h : Hybrid) (fired : Nat → Bool) (s : Chain γ) : Call → Option (Chain γ × Option (List Nat))
  | alloc needSize => h.alloc fired s needSize
  | allocExtend rows => h.allocExtend fired s rows
  | allocExtendSwaTail row swaTailLen => h.allocExtendSwaTail fired s row swaTailLen
  | allocDecode rows => h.allocDecode fired s rows

end Call

variable [Zero γ]

/-- The allocations of a pool that mints its ids. -/
def mints : Run.Op γ → Bool
  | .alloc _ _ _ | .allocExtend _ _ _ _ | .allocDecode _ _ _ => true
  | _ => false

/-- What a served allocation does: the full pool takes `n` pages, and the window pool binds at
most `w` of their ids. -/
def Performs (h : Hybrid) (s s' : Chain γ) (n w : Nat) : Prop :=
  ∃ op t, mints op = true ∧ Run.stepChain h.layout s op = some t ∧ h.TookFull s t n ∧
    (s' = t ∨ ∃ vPages, vPages.Sublist ((fa s).freeVirtualIds.take n) ∧ vPages.length ≤ w ∧
      h.bindWindow t vPages = some s')

/-- `_extend_in_virtual_space` for a covered demand. -/
lemma extendInVirtualSpace_eq (rows : List ExtendRow) (numSwa : Option Nat) (fired : Nat → Bool)
    (good : Chain.Good h.layout s written)
    (covers : h.Covers s (getNumNewPages h.pageSize rows) (numSwa.getD (getNumNewPages h.pageSize rows))) :
    ∃ s', h.extendInVirtualSpace fired s rows numSwa = some (s', some
        (extendRows h.pageSize rows (fa s).freeVirtualIds,
          (fa s).freeVirtualIds.take (getNumNewPages h.pageSize rows))) ∧
      Run.stepChain h.layout s
        (.allocExtend .high fired rows (some (getNumNewPages h.pageSize rows))) = some s' ∧
      h.TookFull s s' (getNumNewPages h.pageSize rows) := by
  have pos : 0 < h.pageSize := h.full.pageSize_pos
  have again : h.ensureCapacity fired s (getNumNewPages h.pageSize rows * h.pageSize)
      (numSwa.getD (getNumNewPages h.pageSize rows) * h.pageSize) = some (s, true) :=
    ensureCapacity_again _ _ fired (by rwa [pagesFor_mul pos, pagesFor_mul pos])
  obtain ⟨s', ran, took⟩ := full_allocRows good fired (fun _ => getNumNewPages h.pageSize rows)
    (fun c => extendRows c.pageSize rows) (covers.fits good)
  have extended : Chain.allocExtend h.layout fired s .high rows (some (getNumNewPages h.pageSize rows))
      = some (s', some (extendRows h.pageSize rows (fa s).freeVirtualIds)) := ran
  refine ⟨s', ?_, by rw [Run.stepChain, extended]; rfl, took⟩
  simp [extendInVirtualSpace, again, extended]

/-- **A covered allocation succeeds.** -/
lemma run_succeeds {call : Call} (fired : Nat → Bool) (good : Chain.Good h.layout s written)
    (valid : call.Valid h s) (covers : h.Covers s (call.fullPages h) (call.swaPages h)) :
    ∃ s' out, call.run h fired s = some (s', some out) ∧
      h.Performs s s' (call.fullPages h) (call.swaPages h) := by
  have pos : 0 < h.pageSize := h.full.pageSize_pos
  have fits := covers.fits good
  cases call with
  | alloc needSize =>
    have aligned : needSize % h.pageSize = 0 := valid
    have pages : pagesFor h.pageSize needSize = needSize / h.pageSize := by
      rw [Alloc.pagesFor_eq pos, aligned, if_neg (lt_irrefl 0), add_zero]
    have again := ensureCapacity_again needSize needSize fired (by rwa [pages])
    obtain ⟨t, out, ran, took⟩ := full_alloc good fired aligned fits
    obtain ⟨u, bound⟩ := bindWindow_isSome good
      ((fa s).freeVirtualIds.take (needSize / h.pageSize)) fits took (length_take_le _ _)
    exact ⟨u, out, by simp [Call.run, Hybrid.alloc, again, ran, bound], .alloc .high fired needSize, t,
      rfl, by rw [Run.stepChain, ran]; rfl, took, .inr ⟨_, .refl _, length_take_le _ _, bound⟩⟩
  | allocExtend rows =>
    obtain ⟨t, ran, step, took⟩ := extendInVirtualSpace_eq rows none fired good covers
    obtain ⟨u, bound⟩ := bindWindow_isSome good
      ((fa s).freeVirtualIds.take (getNumNewPages h.pageSize rows)) fits took (length_take_le _ _)
    exact ⟨u, _, by simp [Call.run, Hybrid.allocExtend, ran, bound]; rfl, _, t, rfl, step, took,
      .inr ⟨_, .refl _, length_take_le _ _, bound⟩⟩
  | allocExtendSwaTail row swaTailLen =>
    obtain ⟨inside, aligned, held⟩ := valid
    obtain ⟨t, ran, step, took⟩ := extendInVirtualSpace_eq [row] (some (h.numSwaPages row swaTailLen))
      fired good covers
    have one : getNumNewPages h.pageSize [row] = row.newPages h.pageSize := by simp [getNumNewPages]
    have slots : extendRows h.pageSize [row] (fa s).freeVirtualIds
        = row.slots h.pageSize (fa s).freeVirtualIds := by simp [extendRows]
    obtain ⟨B, R, inv⟩ := inv_full good
    have notFree : row.prefixLen % h.pageSize ≠ 0 →
        row.lastPage h.pageSize ∉ (fa s).freeVirtualIds := by
      intro partly mem
      have unbound := ((inv.mapped.ids_free h.full_owner _).mp mem).2
      rw [unbound] at held
      exact absurd (held partly) (by decide)
    rw [slots, one] at ran
    rw [Call.run, Hybrid.allocExtendSwaTail, if_neg (not_lt.mpr inside), ran]
    simp only [bind_some]
    split
    · rename_i window
      have priced := length_tailPagesToBind inv.mapped.ids_nodup window.1 aligned notFree
        (one ▸ fits.ids)
      obtain ⟨u, bound⟩ := bindWindow_isSome good _ fits took priced
      refine ⟨u, _, by rw [bound]; rfl, _, t, rfl, step, took, .inr ⟨_, ?_, priced, bound⟩⟩
      exact one ▸ filter_sublist
    · exact ⟨t, _, rfl, _, t, rfl, step, took, .inl rfl⟩
  | allocDecode rows =>
    have again := ensureCapacity_again (getNumNewPagesDecode h.pageSize rows * h.pageSize)
      (getNumNewPagesDecode h.pageSize rows * h.pageSize) fired
      (by rw [pagesFor_mul pos]; exact covers)
    obtain ⟨t, ran, took⟩ := full_allocRows good fired (fun c => getNumNewPagesDecode c.pageSize rows)
      (fun c => extendRows c.pageSize (rows.map DecodeRow.toExtendRow)) fits
    have decoded : Chain.allocDecode h.layout fired s .high rows = some (t, some
        (extendRows h.pageSize (rows.map DecodeRow.toExtendRow) (fa s).freeVirtualIds)) := ran
    obtain ⟨u, bound⟩ := bindWindow_isSome good
      ((fa s).freeVirtualIds.take (getNumNewPagesDecode h.pageSize rows)) fits took (length_take_le _ _)
    exact ⟨u, _, by simp [Call.run, Hybrid.allocDecode, again, decoded, bound]; rfl,
      .allocDecode .high fired rows, t, rfl, by rw [Run.stepChain, decoded]; rfl, took,
      .inr ⟨_, .refl _, length_take_le _ _, bound⟩⟩

omit [Zero γ] in
/-- What runs `ensure_capacity` first stops there, or goes on as from the state it left. -/
lemma ensured_bind {β : Type} {k : Chain γ × Bool → Option (Chain γ × Option β)} {out : Option β}
    (stops : ∀ t, k (t, false) = some (t, none))
    (ran : (h.ensureCapacity fired s f w).bind k = some (s', out)) :
    ∃ t, Relieved h.layout s t ∧ (s' = t ∧ out = none ∨
      h.Covers t (pagesFor h.pageSize f) (pagesFor h.pageSize w) ∧
        (h.ensureCapacity fired t f w).bind k = some (s', out)) := by
  obtain ⟨⟨t, yes⟩, ensured, rest⟩ := bind_eq_some_iff.mp ran
  obtain ⟨relieved, covers⟩ := ensureCapacity_spec ensured
  refine ⟨t, relieved, ?_⟩
  cases yes with
  | false =>
    cases (stops t).symm.trans rest
    exact .inl ⟨rfl, rfl⟩
  | true =>
    refine .inr ⟨covers rfl, ?_⟩
    rw [ensureCapacity_again _ _ fired (covers rfl)]
    exact rest

lemma extend_ensured {β : Type} {k : Chain γ × Option (List Nat × List Nat) →
      Option (Chain γ × Option β)} {rows : List ExtendRow} {numSwa : Option Nat} {out : Option β}
    (ran : (h.extendInVirtualSpace fired s rows numSwa).bind k = some (s', out))
    (stops : ∀ t, k (t, none) = some (t, none)) :
    ∃ t, Relieved h.layout s t ∧ (s' = t ∨
      h.Covers t (getNumNewPages h.pageSize rows) (numSwa.getD (getNumNewPages h.pageSize rows)) ∧
        (h.extendInVirtualSpace fired t rows numSwa).bind k = some (s', out)) := by
  have pos : 0 < h.pageSize := h.full.pageSize_pos
  obtain ⟨⟨u, extended⟩, called, rest⟩ := bind_eq_some_iff.mp ran
  obtain ⟨t, relieved, ends⟩ := ensured_bind (fun _ => rfl) called
  rw [pagesFor_mul pos, pagesFor_mul pos] at ends
  refine ⟨t, relieved, ends.imp (fun ⟨same, refused⟩ => ?_) fun ⟨covers, again⟩ => ?_⟩
  · subst same refused
    cases (stops u).symm.trans rest
    rfl
  · exact ⟨covers, bind_eq_some_iff.mpr ⟨_, again, rest⟩⟩

/-- **A call** stops after `ensure_capacity`, or goes on as from the state it left. -/
lemma run_ensured {call : Call} {out : Option (List Nat)} (valid : call.Valid h s)
    (ran : call.run h fired s = some (s', out)) : ∃ t, Relieved h.layout s t ∧ (s' = t ∨
      h.Covers t (call.fullPages h) (call.swaPages h) ∧ call.run h fired t = some (s', out)) := by
  have pos : 0 < h.pageSize := h.full.pageSize_pos
  cases call with
  | alloc needSize =>
    obtain ⟨t, relieved, ends⟩ := ensured_bind (fun _ => rfl) ran
    rw [Alloc.pagesFor_eq pos, show needSize % h.pageSize = 0 from valid, if_neg (lt_irrefl 0),
      add_zero] at ends
    exact ⟨t, relieved, ends.imp_left And.left⟩
  | allocExtend rows => exact extend_ensured ran fun _ => rfl
  | allocExtendSwaTail row swaTailLen =>
    have inside : ¬ row.extendLen < swaTailLen := not_lt.mpr valid.1
    rw [Call.run, Hybrid.allocExtendSwaTail, if_neg inside] at ran
    obtain ⟨t, relieved, ends⟩ := extend_ensured ran fun _ => rfl
    refine ⟨t, relieved, ?_⟩
    rwa [Call.run, Hybrid.allocExtendSwaTail, if_neg inside]
  | allocDecode rows =>
    obtain ⟨t, relieved, ends⟩ := ensured_bind (fun _ => rfl) ran
    rw [pagesFor_mul pos] at ends
    exact ⟨t, relieved, ends.imp_left And.left⟩

/-- **The promise of `ensure_capacity`**: when it said yes to `f` full and `w` window tokens
in any state of any run, every composite allocation that consumes no more pages than that
returns its slots, whatever forward events have fired in between. -/
theorem reachable_allocates (h : Hybrid) (r : Run γ) (reached : (Run.machine h.layout).Reachable r)
    (fired fired' : Nat → Bool) (f w : Nat) (s : Chain γ)
    (ensured : h.ensureCapacity fired r.chain f w = some (s, true)) (call : Call)
    (valid : call.Valid h s) (full : call.fullPages h ≤ pagesFor h.pageSize f)
    (window : call.swaPages h ≤ pagesFor h.pageSize w) :
    ∃ s' out, call.run h fired' s = some (s', some out) := by
  have kept := (Run.kept_inductive h.layout).reachable reached
  obtain ⟨relieved, covers⟩ := ensureCapacity_spec ensured
  obtain ⟨s', out, ran, -⟩ :=
    run_succeeds fired' (relieved.rests kept.good).good valid ((covers rfl).mono full window)
  exact ⟨s', out, ran⟩

/-- Two pools of seven pages each over the same buffer, compacted lazily. -/
def lazyHybrid : Hybrid where
  layout := Run.lazyLayout
  swa := Run.lazyLayout.low
  swa_here := rfl
  full_owner := rfl
  swa_foreign := rfl
  same_page := rfl
  lazy_agrees := fun _ => rfl

/-- Three pages of both pools, one page of the gap between them and a hole in the window pool: two
tokens without a window fit after a flush, and get their slots. -/
theorem reachable_allocates_flushed : ∃ (r : Run Nat) (s s' : Chain Nat) (out : List Nat),
    (Run.machine lazyHybrid.layout).Reachable r ∧ (r.chain .low).freePhysPages = [1] ∧
    lazyHybrid.ensureCapacity (fun _ => true) r.chain 2 0 = some (s, true) ∧
    (s .low).freePhysPages = [] ∧
    Call.run lazyHybrid (fun _ => true) s (.allocExtendSwaTail ⟨0, 2, 0, by decide⟩ 0) = some (s', some out) := by
  have three : (Run.machine lazyHybrid.layout).Reachable _ :=
    .step (a := .alloc .high (fun _ => true) 3) (.start Run.start_lazy) ⟨trivial, trivial⟩ rfl
  have both := three.step (a := Run.Op.allocWithVirtual .low [1, 2, 3])
    ⟨trivial, fun c here => by cases here; decide⟩ rfl
  have hole := both.step (a := Run.Op.free .low [1])
    ⟨fun c here => by cases here; decide, trivial⟩ rfl
  obtain ⟨s', out, ran⟩ := reachable_allocates lazyHybrid _ hole (fun _ => true) (fun _ => true) 2 0 _ rfl
    (.allocExtendSwaTail ⟨0, 2, 0, by decide⟩ 0) ⟨by decide, absurd rfl, absurd rfl⟩ (by decide) (by decide)
  exact ⟨_, _, s', out, hole, rfl, rfl, rfl, ran⟩

end Hybrid

end Sglang.Unified
