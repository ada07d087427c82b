/-
# What one sub-pool keeps

* `Pool.Placed` — the band of a sub-pool is split between the pages it can reuse (holes
  and pending pages) and the pages it holds.
* `Pool.Mapped` — its tables are inverse to each other, its free and bound virtual ids
  partition the id space, and every page that was written reads back.
* taking, binding and freeing pages keep both; moving pages is in
  `Sglang.Unified.Compaction`.
-/

import Sglang.Unified.Chain

namespace Sglang.Unified

open List
open Nat (card_Ico div_mul_le_self le_div_iff_mul_le lt_div_mul_add mul_le_mul_right succ_mul)
open Option (bind_eq_some_iff map_eq_some_iff ne_none_iff_exists')
open Finset (card_eq_zero card_sdiff_of_subset card_union_of_disjoint disjoint_left disjoint_right
  disjoint_union_left disjoint_union_right insert_sdiff_of_notMem insert_union mem_Ico mem_insert
  mem_sdiff mem_union mem_union_right notMem_union union_assoc union_eq_empty union_right_comm
  union_sdiff_distrib)
open Sglang.Alloc (pagesFor pagesOf expandPages unique pagesFor_le_iff)
open Sglang.Lib (scatter unpair bindings copyAll Linked Stored Splits)

namespace SubPool

variable (c : SubPool)

lemma entryBytesPerPage_pos : 0 < c.entryBytesPerPage :=
  mul_pos c.entryBytes_pos c.poolPageSize_pos

lemma pageSize_pos : 0 < c.pageSize := mul_pos c.poolPageSize_pos c.dcpSize_pos

lemma numPages_eq : c.numPages = c.totalBytes / c.entryBytesPerPage :=
  Nat.div_div_eq_div_mul ..

lemma minPageIndex_le_iff (k : Nat) :
    c.minPageIndex ≤ k ↔ c.reservedFloor ≤ k * c.entryBytesPerPage := by
  rw [minPageIndex, pagesFor_le_iff c.poolPageSize_pos, minSlotIndex,
    pagesFor_le_iff c.entryBytes_pos, entryBytesPerPage, mul_comm c.entryBytes, mul_assoc]

lemma minPageIndex_pos : 0 < c.minPageIndex := by
  by_contra zero
  have below : c.minPageIndex ≤ 0 := by omega
  have floor := (c.minPageIndex_le_iff 0).mp below
  have page := c.page_le_floor
  have pos := c.entryBytesPerPage_pos
  rw [entryBytesPerPage] at floor pos
  omega

lemma min_mul_lt : c.minPageIndex * c.entryBytesPerPage < c.reservedFloor + c.entryBytesPerPage := by
  have pos := c.minPageIndex_pos
  have below : ¬ c.minPageIndex ≤ c.minPageIndex - 1 := by omega
  rw [c.minPageIndex_le_iff, Nat.sub_mul] at below
  omega

lemma ends_of_lazy (lazy : c.lazyCompaction = true) : c.growDirection ≠ .float := by
  intro float
  rw [c.float_eager float] at lazy
  cases lazy

lemma min_lt_num : c.minPageIndex < c.numPages := c.room

lemma num_mul_le : c.numPages * c.entryBytesPerPage ≤ c.totalBytes := by
  rw [numPages_eq]
  exact div_mul_le_self ..

lemma lt_succ_num_mul : c.totalBytes < c.numPages * c.entryBytesPerPage + c.entryBytesPerPage := by
  rw [numPages_eq]
  exact lt_div_mul_add c.entryBytesPerPage_pos

end SubPool

/-- The empty ends of a chain do not overlap. -/
lemma Layout.ends_ordered (l : Layout) :
    l.low.minPageIndex * l.low.entryBytesPerPage ≤ l.high.numPages * l.high.entryBytesPerPage := by
  obtain ⟨total, floor⟩ := l.same_buffer
  have lowMin := l.low.min_mul_lt
  have highMin := (l.high.minPageIndex_le_iff _).mp le_rfl
  have highRoom := mul_le_mul_right l.high.entryBytesPerPage l.high.min_lt_num
  have lowRoom := mul_le_mul_right l.low.entryBytesPerPage l.low.min_lt_num
  have lowTotal := l.low.num_mul_le
  have highTotal := l.high.lt_succ_num_mul
  rw [succ_mul] at highRoom lowRoom
  omega

namespace Pool

variable {γ : Type} {c : SubPool} {s s' t : Pool γ} {B H : Finset Nat}

variable (c) in
/-- The first page of the band. -/
def lowPage (s : Pool γ) : Nat :=
  match c.growDirection with
  | .up => c.minPageIndex
  | .down => s.watermarkPhysical + 1
  | .float => s.lowWmPage

variable (c) in
/-- The page after the last one of the band. -/
def highPage (s : Pool γ) : Nat :=
  match c.growDirection with
  | .up => s.watermarkPhysical
  | .down => c.numPages
  | .float => s.highWmPage

variable (c) in
def band (s : Pool γ) : Finset Nat := Finset.Ico (s.lowPage c) (s.highPage c)

lemma byteLowFrontier_eq : s.byteLowFrontier c = s.lowPage c * c.entryBytesPerPage := by
  unfold byteLowFrontier lowPage
  cases c.growDirection <;> rfl

lemma byteHighFrontier_eq : s.byteHighFrontier c = s.highPage c * c.entryBytesPerPage := by
  unfold byteHighFrontier highPage
  cases c.growDirection <;> rfl

lemma mem_band {p : Nat} : p ∈ s.band c ↔ s.lowPage c ≤ p ∧ p < s.highPage c := mem_Ico

variable (c) in
/-- The band of a sub-pool, with the pages `H` in it that are neither holes nor pending. -/
structure Placed (s : Pool γ) (H : Finset Nat) : Prop where
  split : Splits (s.band c) (s.freePhysPages ++ s.pendingReusePages) H
  low_ge : c.minPageIndex ≤ s.lowPage c
  ordered : s.lowPage c ≤ s.highPage c
  high_le : s.highPage c ≤ c.numPages
  settled : c.lazyCompaction = false → s.pendingReuse = []
  packed : c.lazyCompaction = false → c.growDirection ≠ .float → s.freePhysPages = []
  count : c.lazyCompaction = true → s.livePageCount = H.card
  parked : c.growDirection = .float → H = ∅ → s.lowWmPage = c.numPages ∧ s.highWmPage = c.numPages

/-- The placement of the pages is as before. -/
structure SamePlacement (s s' : Pool γ) : Prop where
  watermarkPhysical : s'.watermarkPhysical = s.watermarkPhysical
  lowWmPage : s'.lowWmPage = s.lowWmPage
  highWmPage : s'.highWmPage = s.highWmPage
  freePhysPages : s'.freePhysPages = s.freePhysPages
  pendingReuse : s'.pendingReuse = s.pendingReuse
  livePageCount : s'.livePageCount = s.livePageCount

/-- A float's own count of live pages is right. -/
lemma livePages_of_split (float : c.growDirection = .float)
    (split : Splits (s.band c) (s.freePhysPages ++ s.pendingReusePages) H)
    (settled : s.pendingReuse = []) : s.livePages = H.card := by
  have card := split.card
  rw [band, card_Ico, pendingReusePages, settled, flatMap_nil, append_nil] at card
  simp only [lowPage, highPage, float] at card
  rw [livePages, spanPages, holePages]
  omega

section

variable (placed : Placed c s H)
include placed

lemma Placed.congr (same : SamePlacement s s' := by constructor <;> rfl) : Placed c s' H := by
  obtain ⟨watermark, low, high, free, pending, count⟩ := same
  cases s
  cases s'
  subst watermark low high free pending count
  exact { placed with }

lemma Placed.pos_of_mem {p : Nat} (mem : p ∈ H) : 0 < p := by
  have inBand := mem_band.mp (placed.split.held_sub mem)
  exact lt_of_lt_of_le c.minPageIndex_pos (placed.low_ge.trans inBand.1)

lemma Placed.card :
    s.highPage c - s.lowPage c = s.freePhysPages.length + s.pendingReusePages.length + H.card := by
  have := placed.split.card
  rwa [band, card_Ico, length_append] at this

lemma Placed.livePages_eq (float : c.growDirection = .float) : s.livePages = H.card :=
  livePages_of_split float placed.split (placed.settled (c.float_eager float))

lemma Placed.transparent_iff (float : c.growDirection = .float) :
    s.isFrontierTransparent c = true ↔ H = ∅ := by
  rw [isFrontierTransparent, float]
  simp [placed.livePages_eq float]

end

/-! ### Taking pages -/

variable (c) in
/-- The band lies between the frontiers of the neighbours. -/
def Within (b : Bounds) (s : Pool γ) : Prop :=
  b.below ≤ s.byteLowFrontier c ∧ s.byteHighFrontier c ≤ b.above

/-- The pool with another watermark or span. -/
def atSpan (s : Pool γ) (watermark low high : Nat) : Pool γ :=
  { s with watermarkPhysical := watermark, lowWmPage := low, highWmPage := high }

variable (c) in
/-- The band grew by the pages `fresh`, and nothing else changed. -/
structure Grown (s s' : Pool γ) (fresh : List Nat) : Prop where
  same : ∃ watermark low high, s' = s.atSpan watermark low high
  nodup : fresh.Nodup
  fresh_iff : ∀ p, p ∈ fresh ↔ p ∈ s'.band c ∧ p ∉ s.band c
  sub : s.band c ⊆ s'.band c
  low_ge : c.minPageIndex ≤ s'.lowPage c
  ordered : s'.lowPage c ≤ s'.highPage c
  high_le : s'.highPage c ≤ c.numPages

lemma Grown.band_eq {fresh : List Nat} (grown : Grown c s s' fresh) :
    s'.band c = s.band c ∪ fresh.toFinset := by
  ext p
  rw [mem_union, List.mem_toFinset, grown.fresh_iff]
  have := @grown.sub p
  tauto

variable {n k start needMore low high : Nat} {b : Bounds} {pages fresh ids drained rest : List Nat}

/-- An end pool's watermark moves by `n` pages, all of them new. -/
lemma Placed.advance (placed : Placed c s H) (ends : c.growDirection ≠ .float)
    (ran : s.advanceWatermark c n = some s') : Grown c s s' (s'.takePhysicalArange c n) := by
  have low := placed.low_ge
  have order := placed.ordered
  have high := placed.high_le
  have pos := c.minPageIndex_pos
  unfold advanceWatermark at ran
  cases grow : c.growDirection with
  | float => exact absurd grow ends
  | up | down =>
    simp only [grow] at ran
    split at ran
    · cases ran
    cases ran
    simp only [lowPage, highPage, grow] at low order high
    refine ⟨⟨_, _, _, rfl⟩, ?_, ?_, ?_, ?_, ?_, ?_⟩
    · simp only [takePhysicalArange, grow]
      exact nodup_range'
    · intro p
      simp only [takePhysicalArange, grow, mem_band, lowPage, highPage, mem_range'_1]
      omega
    · exact Finset.Ico_subset_Ico (by simp [lowPage, grow]) (by simp [highPage, grow])
    all_goals
      simp only [lowPage, highPage, grow]
      omega

lemma advance_of_extend (ran : s.extendWatermark c b n = some s') :
    s.advanceWatermark c n = some s' := by
  unfold extendWatermark at ran
  unfold advanceWatermark
  cases grow : c.growDirection <;> simp only [grow] at ran ⊢ <;> split at ran <;>
    first
    | cases ran
    | split at ran
      · cases ran
      · rename_i fits _
        rw [if_neg fits]
        exact ran

/-- Growth inside the gap stays clear of the neighbours. -/
lemma Within.advance (within : Within c b s) (ends : c.growDirection ≠ .float)
    (gap : n ≤ s.currentGapBytes c b / c.entryBytesPerPage) (ran : s.advanceWatermark c n = some s')
    : Within c b s' := by
  have bytes : n * c.entryBytesPerPage ≤ s.currentGapBytes c b :=
    (le_div_iff_mul_le c.entryBytesPerPage_pos).mp gap
  have pos := c.minPageIndex_pos
  unfold advanceWatermark at ran
  cases grow : c.growDirection with
  | float => exact absurd grow ends
  | up =>
    simp only [grow] at ran
    split at ran
    · cases ran
    cases ran
    simp only [currentGapBytes, byteHighFrontier, byteLowFrontier, Within, grow] at *
    rw [add_mul]
    omega
  | down =>
    simp only [grow] at ran
    split at ran
    · cases ran
    cases ran
    simp only [currentGapBytes, byteHighFrontier, byteLowFrontier, Within, grow] at *
    have shift : s.watermarkPhysical - n + 1 = s.watermarkPhysical + 1 - n := by omega
    rw [shift, Nat.sub_mul]
    omega

lemma region_low_le_iff : (regionBoundsPages c b).1 ≤ k ↔
    b.below ≤ k * c.entryBytesPerPage ∧ c.minPageIndex ≤ k := by
  rw [regionBoundsPages, max_le_iff, pagesFor_le_iff c.entryBytesPerPage_pos]

lemma le_region_high_iff : k ≤ (regionBoundsPages c b).2 ↔
    k * c.entryBytesPerPage ≤ b.above ∧ k ≤ c.numPages := by
  rw [regionBoundsPages, le_min_iff, le_div_iff_mul_le c.entryBytesPerPage_pos]

lemma region_inside (c : SubPool) (b : Bounds) :
    c.minPageIndex ≤ (regionBoundsPages c b).1 ∧ (regionBoundsPages c b).2 ≤ c.numPages :=
  ⟨(region_low_le_iff.mp le_rfl).2, (le_region_high_iff.mp le_rfl).2⟩

/-- A span inside the region is clear of the neighbours. -/
lemma within_of_region (float : c.growDirection = .float)
    (low : (regionBoundsPages c b).1 ≤ s.lowWmPage)
    (high : s.highWmPage ≤ (regionBoundsPages c b).2) : Within c b s := by
  rw [region_low_le_iff] at low
  rw [le_region_high_iff] at high
  simp only [Within, byteLowFrontier, byteHighFrontier, float]
  exact ⟨low.1, high.1⟩

lemma Within.region (within : Within c b s) (placed : Placed c s H)
    (float : c.growDirection = .float) :
    (regionBoundsPages c b).1 ≤ s.lowWmPage ∧ s.highWmPage ≤ (regionBoundsPages c b).2 := by
  have low := placed.low_ge
  have high := placed.high_le
  simp only [Within, byteLowFrontier, byteHighFrontier, lowPage, highPage, float] at within low high
  exact ⟨region_low_le_iff.mpr ⟨within.1, low⟩, le_region_high_iff.mpr ⟨within.2, high⟩⟩

/-- A float's span grows inside its region by a run of pages next to it, or from nothing. -/
lemma grown_span (float : c.growDirection = .float)
    (run : ∀ p, start ≤ p ∧ p < start + n ↔
      (low ≤ p ∧ p < high) ∧ ¬ (s.lowWmPage ≤ p ∧ p < s.highWmPage))
    (sub : ∀ p, s.lowWmPage ≤ p ∧ p < s.highWmPage → low ≤ p ∧ p < high)
    (inside : (regionBoundsPages c b).1 ≤ low ∧ low ≤ high ∧ high ≤ (regionBoundsPages c b).2) :
    Grown c s { s with lowWmPage := low, highWmPage := high } (range' start n) ∧
      Within c b { s with lowWmPage := low, highWmPage := high } := by
  obtain ⟨lowMin, highNum⟩ := region_inside c b
  refine ⟨⟨⟨_, _, _, rfl⟩, nodup_range', fun p => ?_, fun p => ?_, ?_, ?_, ?_⟩,
    within_of_region float inside.1 inside.2.2⟩
  · simp only [mem_band, lowPage, highPage, float, mem_range'_1]
    exact run p
  · simp only [mem_band, lowPage, highPage, float]
    exact sub p
  all_goals
    simp only [lowPage, highPage, float]
    omega

/-- Room for the pages a float asks for, on one of its sides or around the middle. -/
lemma Placed.extendSpan (placed : Placed c s H)
    (float : c.growDirection = .float) (within : s.isFrontierTransparent c = false → Within c b s)
    (more : 0 < needMore) (ran : s.extendSpan c b needMore = some (s', start)) :
    Grown c s s' (range' start needMore) ∧ Within c b s' := by
  have order := placed.ordered
  simp only [lowPage, highPage, float] at order
  unfold Pool.extendSpan at ran
  simp only at ran
  split at ran
  · rename_i empty
    obtain ⟨low, high⟩ := placed.parked float ((placed.transparent_iff float).mp empty)
    split at ran
    · cases ran
    cases ran
    exact grown_span float (by omega) (by omega) (by omega)
  · rename_i live
    obtain ⟨lowIn, highIn⟩ := (within (by simpa using live)).region placed float
    have side : needMore ≤ (regionBoundsPages c b).2 - s.highWmPage ∧
          s' = { s with highWmPage := s.highWmPage + needMore } ∧ start = s.highWmPage ∨
        needMore ≤ s.lowWmPage - (regionBoundsPages c b).1 ∧
          s' = { s with lowWmPage := s.lowWmPage - needMore } ∧ start = s.lowWmPage - needMore := by
      generalize (regionBoundsPages c b).2 - s.highWmPage = gapHigh at ran ⊢
      generalize s.lowWmPage - (regionBoundsPages c b).1 = gapLow at ran ⊢
      by_cases high : needMore ≤ gapHigh <;> by_cases low : needMore ≤ gapLow <;>
        by_cases roomier : gapLow ≤ gapHigh <;>
        simp [high, low, roomier] at ran ⊢
      all_goals
        obtain ⟨rfl, rfl⟩ := ran
        simp
    rcases side with ⟨fits, rfl, rfl⟩ | ⟨fits, rfl, rfl⟩
    · exact grown_span float (by omega) (by omega) (by omega)
    · exact grown_span float (by omega) (by omega) (by omega)

/-- Everything but the placement of the pages is as before. -/
structure SameTables (s s' : Pool γ) : Prop where
  v2p : s'.v2p = s.v2p
  p2v : s'.p2v = s.p2v
  mem : s'.mem = s.mem
  freeVirtualIds : s'.freeVirtualIds = s.freeVirtualIds
  freeGroup : s'.freeGroup = s.freeGroup
  freePageRepsGroup : s'.freePageRepsGroup = s.freePageRepsGroup
  pendingHicacheLoadPages : s'.pendingHicacheLoadPages = s.pendingHicacheLoadPages

lemma SameTables.refl (s : Pool γ) : SameTables s s := ⟨rfl, rfl, rfl, rfl, rfl, rfl, rfl⟩

variable (c) in
/-- The pages `pages` were taken: they are new to the held ones, and the band stays clear
of the neighbours. -/
structure Took (b : Bounds) (s s' : Pool γ) (H : Finset Nat) (pages : List Nat) : Prop where
  placed : Placed c s' (H ∪ pages.toFinset)
  nodup : pages.Nodup
  fresh : ∀ p ∈ pages, p ∉ H
  within : s'.isFrontierTransparent c = false → Within c b s'
  same : SameTables s s'

lemma Took.none (placed : Placed c s H)
    (within : s.isFrontierTransparent c = false → Within c b s) : Took c b s s H [] :=
  ⟨by simpa using placed, nodup_nil, by simp, within, .refl s⟩

/-- Holes from the front of the list and pages the band grew by. -/
lemma Placed.take {live : Nat}
    (placed : Placed c s H) (grown : Grown c s t fresh) (holes : s.freePhysPages = drained ++ rest)
    (nonempty : drained ++ fresh ≠ [])
    (count : c.lazyCompaction = true → live = s.livePageCount + (drained ++ fresh).length)
    (within : Within c b t) :
    Took c b s { t with freePhysPages := rest, livePageCount := live } H (drained ++ fresh) := by
  obtain ⟨wm, low, high, rfl⟩ := grown.same
  have split := placed.split
  rw [holes, append_assoc] at split
  have nodup : (drained ++ fresh).Nodup := by
    refine nodup_append.mpr ⟨(nodup_append.mp split.nodup).1, grown.nodup, ?_⟩
    rintro p mem _ new rfl
    exact ((grown.fresh_iff p).mp new).2 (split.free_mem (mem_append_left _ mem))
  have notHeld : ∀ p ∈ drained ++ fresh, p ∉ H := by
    intro p mem
    rcases mem_append.mp mem with old | new
    · exact split.disjoint p (mem_append_left _ old)
    · exact fun held => ((grown.fresh_iff p).mp new).2 (split.held_sub held)
  have held : H ∪ (drained ++ fresh).toFinset = (H ∪ drained.toFinset) ∪ fresh.toFinset := by
    rw [toFinset_append, union_assoc]
  refine ⟨⟨?_, grown.low_ge, grown.ordered, grown.high_le, placed.settled, ?_, ?_, ?_⟩, nodup,
    notHeld, fun _ => within, ⟨rfl, rfl, rfl, rfl, rfl, rfl, rfl⟩⟩
  · rw [held]
    have grownSplit := split.take.grow fun p mem => ((grown.fresh_iff p).mp mem).2
    rwa [← grown.band_eq] at grownSplit
  · intro eager ends
    have noHoles := placed.packed eager ends
    rw [holes] at noHoles
    exact (append_eq_nil_iff.mp noHoles).2
  · intro lazy
    have disjoint : Disjoint H (drained ++ fresh).toFinset :=
      disjoint_right.mpr fun p mem => notHeld p (mem_toFinset.mp mem)
    rw [card_union_of_disjoint disjoint, toFinset_card_of_nodup nodup, ← placed.count lazy]
    exact count lazy
  · intro _ empty
    rw [union_eq_empty, toFinset_eq_empty_iff] at empty
    exact absurd empty.2 nonempty

lemma Grown.refl (placed : Placed c s H) : Grown c s s [] :=
  ⟨⟨_, _, _, rfl⟩, nodup_nil, by simp, Finset.Subset.refl _, placed.low_ge, placed.ordered,
    placed.high_le⟩

/-- The order in which the extension is listed does not matter. -/
lemma Grown.reverse (grown : Grown c s s' fresh) : Grown c s s' fresh.reverse :=
  { grown with
    nodup := nodup_reverse.mpr grown.nodup
    fresh_iff := fun p => mem_reverse.trans (grown.fresh_iff p) }

lemma availablePages_end (ends : c.growDirection ≠ .float) :
    s.availablePages c b = min (s.currentGapBytes c b / c.entryBytesPerPage)
        (c.numPages - c.minPageIndex - s.allocatedPages c)
      + (if c.lazyCompaction then s.freePhysPages.length else 0) := by
  unfold availablePages
  cases grow : c.growDirection with
  | float => exact absurd grow ends
  | up => rfl
  | down => rfl

lemma Grown.takeExtension (grown : Grown c s s' (s'.takePhysicalArange c n)) :
    Grown c s s' (s'.takeExtension c n) := by
  unfold Pool.takeExtension
  cases c.growDirection with
  | up => exact grown
  | down => exact grown.reverse
  | float => exact grown.reverse

lemma length_takePhysicalArange (n : Nat) : (s.takePhysicalArange c n).length = n := by
  unfold takePhysicalArange
  cases c.growDirection <;> exact length_range'

lemma length_takeExtension (n : Nat) : (s.takeExtension c n).length = n := by
  unfold takeExtension
  cases c.growDirection <;> simp [length_takePhysicalArange]

section

variable (placed : Placed c s H)
include placed

section

variable (ends : c.growDirection ≠ .float) (within : Within c b s)
include ends within

/-- The extension behind `nDrain` holes, if one is needed. -/
lemma Placed.extend (gap : needMore ≤ s.currentGapBytes c b / c.entryBytesPerPage)
    (ran : (if 0 < needMore then s.extendWatermark c b needMore else some s) = some t) :
    Grown c s t (t.takePhysicalArange c needMore) ∧ Within c b t := by
  split at ran
  · have advanced := advance_of_extend ran
    exact ⟨placed.advance ends advanced, within.advance ends gap advanced⟩
  · obtain rfl : needMore = 0 := by omega
    cases ran
    refine ⟨?_, within⟩
    rw [eq_nil_of_length_eq_zero (length_takePhysicalArange 0)]
    exact .refl placed

/-- What `take_physical` of an end pool takes when the gate in front of it was passed. -/
lemma Placed.takePhysicalEnd (fits : n ≤ s.availablePages c b)
    (ran : s.takePhysicalEnd c b n = some (s', pages)) :
    Took c b s s' H pages ∧ pages.length = n := by
  rw [availablePages_end ends] at fits
  unfold Pool.takePhysicalEnd at ran
  split at ran
  · rename_i nothing
    cases ran
    exact ⟨.none placed fun _ => within, nothing.symm⟩
  rename_i positive
  split at ran
  · rename_i lazy
    rw [if_pos lazy] at fits
    obtain ⟨t, extended, result⟩ := map_eq_some_iff.mp ran
    have gap : n - min n s.freePhysPages.length
        ≤ s.currentGapBytes c b / c.entryBytesPerPage := by
      generalize s.currentGapBytes c b / c.entryBytesPerPage = q at fits ⊢
      omega
    obtain ⟨grown, inside⟩ := placed.extend ends within gap extended
    obtain ⟨wm, low, high, rfl⟩ := grown.same
    cases result
    -- the extension is listed differently when no hole was drained
    obtain ⟨fresh, freshGrown, length, listed⟩ : ∃ fresh, Grown c s (s.atSpan wm low high) fresh ∧
        fresh.length = n - min n s.freePhysPages.length ∧
        (if min n s.freePhysPages.length = 0 then (s.atSpan wm low high).takePhysicalArange c n
          else s.freePhysPages.take (min n s.freePhysPages.length)
            ++ (s.atSpan wm low high).takeExtension c (n - min n s.freePhysPages.length))
        = s.freePhysPages.take (min n s.freePhysPages.length) ++ fresh := by
      split
      · rename_i noDrain
        rw [noDrain] at grown ⊢
        exact ⟨_, grown, length_takePhysicalArange _, rfl⟩
      · exact ⟨_, grown.takeExtension, length_takeExtension _, rfl⟩
    have total : (s.freePhysPages.take (min n s.freePhysPages.length) ++ fresh).length = n := by
      rw [length_append, length_take]
      omega
    rw [show (s.atSpan wm low high).freePhysPages = s.freePhysPages from rfl, listed]
    refine ⟨placed.take freshGrown (take_append_drop ..).symm ?_ ?_ inside, total⟩
    · intro bare
      rw [bare] at total
      exact positive total.symm
    · rw [total]
      exact fun _ => rfl
  · rename_i eager
    obtain ⟨t, advanced, result⟩ := map_eq_some_iff.mp ran
    cases result
    refine ⟨?_, length_takePhysicalArange n⟩
    rw [if_neg eager] at fits
    have gap : n ≤ s.currentGapBytes c b / c.entryBytesPerPage := by
      omega
    have grown := placed.advance ends advanced
    have inside := within.advance ends gap advanced
    obtain ⟨wm, low, high, rfl⟩ := grown.same
    have noHoles : s.freePhysPages = [] ++ s.freePhysPages := rfl
    refine placed.take grown noHoles ?_ (absurd · eager) inside
    rw [nil_append]
    intro bare
    have := length_takePhysicalArange (c := c) (s := s.atSpan wm low high) n
    rw [bare] at this
    exact positive this.symm

end

lemma Placed.takePhysicalFloat (float : c.growDirection = .float)
    (within : s.isFrontierTransparent c = false → Within c b s)
    (ran : s.takePhysicalFloat c b n = some (s', pages)) :
    Took c b s s' H pages ∧ pages.length = n := by
  have notLazy : ¬ c.lazyCompaction = true := by simp [c.float_eager float]
  unfold Pool.takePhysicalFloat at ran
  split at ran
  · rename_i nothing
    cases ran
    exact ⟨.none placed within, nothing.symm⟩
  rename_i positive
  obtain ⟨⟨t, fresh⟩, extended, result⟩ := map_eq_some_iff.mp ran
  cases result
  obtain ⟨grown, inside, length⟩ : Grown c s t fresh ∧ Within c b t ∧
      fresh.length = n - min n s.holePages := by
    split at extended
    · rename_i more
      obtain ⟨⟨t', start⟩, span, listed⟩ := map_eq_some_iff.mp extended
      cases listed
      obtain ⟨grown, inside⟩ := placed.extendSpan float within more span
      exact ⟨grown, inside, length_range'⟩
    · cases extended
      refine ⟨.refl placed, within ?_, by simp only [length_nil]; omega⟩
      -- a float with holes is not empty
      have holes : 0 < s.holePages := by omega
      by_contra empty
      have parked := placed.parked float ((placed.transparent_iff float).mp (by simpa using empty))
      have count := placed.card
      simp only [lowPage, highPage, float] at count
      rw [holePages] at holes
      omega
  obtain ⟨wm, low, high, rfl⟩ := grown.same
  have total : (s.freePhysPages.take (min n s.holePages) ++ fresh).length = n := by
    rw [length_append, length_take, length, holePages]
    omega
  refine ⟨placed.take grown (take_append_drop ..).symm ?_ (absurd · notLazy) inside, total⟩
  intro bare
  have empty := congrArg List.length bare
  exact positive (total.symm.trans empty)

/-- Taking pages behind the gate of `available_size`. -/
lemma Placed.takePhysicalPages (within : s.isFrontierTransparent c = false → Within c b s)
    (fits : n ≤ s.availablePages c b) (ran : s.takePhysicalPages c b n = some (s', pages)) :
    Took c b s s' H pages ∧ pages.length = n := by
  unfold Pool.takePhysicalPages at ran
  cases grow : c.growDirection with
  | float =>
    rw [grow] at ran
    exact placed.takePhysicalFloat grow within ran
  | up | down =>
    rw [grow] at ran
    have ends : c.growDirection ≠ .float := by simp [grow]
    exact placed.takePhysicalEnd ends (within (by simp [isFrontierTransparent])) fits ran

end

/-! ### Tables -/

variable (c) in
/-- The virtual pages an open group will free. -/
def queuedPages (s : Pool γ) : List Nat :=
  freedPages c (s.freeGroup.getD []).flatten none
    ++ pagesOf c.pageSize (s.freePageRepsGroup.getD []).flatten

variable (c) in
/-- The tables of a sub-pool whose bound physical pages are `B`. -/
structure Mapped (s : Pool γ) (B : Finset Nat) (written : Nat → Option γ) : Prop where
  linked : Linked s.v2p s.p2v (insert 0 B)
  sink : s.v2p 0 = some 0
  real : 0 ∉ B
  ids_nodup : s.freeVirtualIds.Nodup
  ids_free : c.isIdOwner = true →
    ∀ v, v ∈ s.freeVirtualIds ↔ (c.minPageIndex ≤ v ∧ v < c.numPages) ∧ s.v2p v = none
  ids_bound : c.isIdOwner = true →
    ∀ v p, s.v2p v = some p → v = 0 ∨ c.minPageIndex ≤ v ∧ v < c.numPages
  stored : Stored s.v2p s.mem written
  queued_nodup : (s.queuedPages c).Nodup
  queued_live : ∀ v ∈ s.queuedPages c, v ≠ 0 ∧ ∃ p, s.v2p v = some p
  groups : s.freeGroup = none ↔ s.freePageRepsGroup = none

lemma Mapped.congr {written : Nat → Option γ} (mapped : Mapped c s B written)
    (same : SameTables s s' := by constructor <;> rfl) : Mapped c s' B written := by
  obtain ⟨v2p, p2v, mem, ids, group, reps, -⟩ := same
  cases s
  cases s'
  subst v2p p2v mem ids group reps
  exact { mapped with }

variable {written : Nat → Option γ}

/-- The tables do not depend on the pages that wait for a load. -/
lemma Mapped.pending (mapped : Mapped c s B written) (n : Nat) :
    Mapped c { s with pendingHicacheLoadPages := n } B written :=
  { mapped with }

/-- Virtual pages that may be bound: distinct, unbound and with nothing stored. -/
structure Bindable (s : Pool γ) (written : Nat → Option γ) (vPages : List Nat) : Prop where
  nodup : vPages.Nodup
  unbound : ∀ v ∈ vPages, s.v2p v = none
  unwritten : ∀ v ∈ vPages, written v = none

/-- Binding changes the entries of the virtual pages it binds. -/
lemma bind_v2p {vPages : List Nat} (nodup : vPages.Nodup) (length : pages.length = vPages.length) :
    (∀ v, v ∉ vPages → (s.bind vPages pages).v2p v = s.v2p v) ∧
      ∀ v ∈ vPages, ∃ p ∈ pages, (s.bind vPages pages).v2p v = some p := by
  refine ⟨fun v notNew => Lib.scatter_of_not_mem ?_, fun v new => ?_⟩
  · rwa [Lib.map_fst_bindings length.ge]
  · obtain ⟨k, key⟩ := getElem?_of_mem new
    have lt : k < pages.length := length ▸ (List.getElem?_eq_some_iff.mp key).1
    exact ⟨pages[k], getElem_mem lt, Lib.scatter_bindings nodup key (getElem?_eq_getElem lt)⟩

variable {R : Finset Nat}

variable (c) in
/-- A sub-pool: `B` is bound, `R` is reserved by `alloc_physical` and not bound yet. Moves
are blocked as long as there is such a page. -/
structure Inv (s : Pool γ) (written : Nat → Option γ) (B R : Finset Nat) : Prop where
  mapped : Mapped c s B written
  placed : Placed c s (B ∪ R)
  apart : Disjoint B R
  reserved : R.card ≤ s.pendingHicacheLoadPages

section

variable [Zero γ] {vPages : List Nat}

/-- The fast path of an end pool does what the slow path does. -/
lemma allocBindFastOrSlow_eq (b : Bounds) (vPages : List Nat) :
    s.allocBindFastOrSlow c b vPages = (s.takePhysicalPages c b vPages.length).map
      fun (t, pages) => ((t.bind vPages pages).maybeZeroPages c pages, pages) := by
  unfold allocBindFastOrSlow
  by_cases empty : vPages.length = 0
  · obtain rfl := eq_nil_of_length_eq_zero empty
    cases grow : c.growDirection <;>
      simp [takePhysicalPages, takePhysicalEnd, takePhysicalFloat, grow, bind, maybeZeroPages,
        bindings, scatter]
  · simp only [if_neg empty]
    have fast : ¬ (c.lazyCompaction && !s.freePhysPages.isEmpty) = true →
        (if c.lazyCompaction then s.extendWatermark c b vPages.length
          else s.advanceWatermark c vPages.length).map (fun t =>
            let pages := t.takePhysicalArange c vPages.length
            let t := t.bind vPages pages
            let t := if c.lazyCompaction then
              { t with livePageCount := t.livePageCount + vPages.length } else t
            (t.maybeZeroPages c pages, pages))
          = (s.takePhysicalEnd c b vPages.length).map
            fun (t, pages) => ((t.bind vPages pages).maybeZeroPages c pages, pages) := by
      intro noHoles
      cases lazy : c.lazyCompaction with
      | false => simp [takePhysicalEnd, empty, lazy, Function.comp_def]
      | true =>
        have drained : s.freePhysPages = [] := by simpa [lazy] using noHoles
        simp only [takePhysicalEnd, empty, lazy, drained, length_nil, Nat.min_zero, Nat.sub_zero,
          pos_of_ne_zero empty, if_true, if_false, Option.map_map]
        refine Option.map_congr fun t extended => ?_
        simp [bind]
    cases grow : c.growDirection with
    | float => rfl
    | up | down =>
      simp only [takePhysicalPages, grow]
      split
      · rfl
      · rename_i noHoles
        exact fast noHoles

lemma maybeZeroPages_eq (pages : List Nat) : ∃ mem : Nat → γ, (∀ p, p ∉ pages → mem p = s.mem p) ∧
      s.maybeZeroPages c pages = { s with mem := mem } := by
  unfold maybeZeroPages
  split
  · refine ⟨_, fun p notNew => Lib.scatter_of_not_mem ?_, rfl⟩
    simpa using notNew
  · exact ⟨s.mem, fun _ _ => rfl, rfl⟩

/-- What is left of the free ids when `vPages` are bound. -/
structure IdsAfter (c : SubPool) (s : Pool γ) (vPages ids : List Nat) : Prop where
  nodup : ids.Nodup
  rest : c.isIdOwner = true → ∀ v, v ∈ ids ↔ v ∈ s.freeVirtualIds ∧ v ∉ vPages
  range : c.isIdOwner = true → ∀ v ∈ vPages, c.minPageIndex ≤ v ∧ v < c.numPages

omit [Zero γ] in
/-- Binding fresh virtual pages to fresh physical ones, whose contents may change. -/
lemma Mapped.bindPages {mem : Nat → γ} (mapped : Mapped c s B written)
    (bindable : Bindable s written vPages) (length : pages.length = vPages.length)
    (nodup : pages.Nodup) (fresh : ∀ p ∈ pages, p ≠ 0 ∧ p ∉ B) (after : IdsAfter c s vPages ids)
    (kept : ∀ p, p ∉ pages → mem p = s.mem p) :
    Mapped c { s.bind vPages pages with mem := mem, freeVirtualIds := ids } (B ∪ pages.toFinset)
      written := by
  have outside : ∀ p ∈ pages, p ∉ insert 0 B := fun p here => by
    rw [Finset.mem_insert, not_or]
    exact fresh p here
  have linked := mapped.linked.bind length.symm bindable.nodup nodup bindable.unbound outside
  rw [insert_union] at linked
  obtain ⟨others, new⟩ := bind_v2p (s := s) bindable.nodup length
  have notZero : 0 ∉ vPages := fun zero => by
    have := bindable.unbound 0 zero
    rw [mapped.sink] at this
    cases this
  have unbound_iff : ∀ v, (s.bind vPages pages).v2p v = none ↔ s.v2p v = none ∧ v ∉ vPages := by
    intro v
    by_cases here : v ∈ vPages
    · obtain ⟨p, -, bound⟩ := new v here
      simp [bound, here]
    · rw [others v here]
      simp [here]
  refine ⟨linked, (others 0 notZero).trans mapped.sink, ?_, after.nodup, ?_, ?_, ?_,
    mapped.queued_nodup, ?_, mapped.groups⟩
  · rw [Finset.mem_union, List.mem_toFinset, not_or]
    exact ⟨mapped.real, fun zero => (fresh 0 zero).1 rfl⟩
  · intro owner v
    rw [after.rest owner, mapped.ids_free owner, and_assoc]
    exact and_congr_right fun _ => (unbound_iff v).symm
  · intro owner v p bound
    by_cases here : v ∈ vPages
    · exact .inr (after.range owner v here)
    · exact mapped.ids_bound owner v p ((others v here).symm.trans bound)
  · intro v p x read stored
    by_cases here : v ∈ vPages
    · rw [bindable.unwritten v here] at stored
      cases stored
    · rw [others v here] at read
      refine (kept p fun new => ?_).trans (mapped.stored v p x read stored)
      exact outside p new (mapped.linked.mem_bound read)
  · intro v queued
    obtain ⟨real, p, bound⟩ := mapped.queued_live v queued
    refine ⟨real, p, (others v fun here => ?_).trans bound⟩
    rw [bindable.unbound v here] at bound
    cases bound

/-- **Allocation.** Bindable virtual pages get fresh physical pages, within the room the
gate in front of the allocation found. -/
lemma Inv.allocBind (inv : Inv c s written B R)
    (within : s.isFrontierTransparent c = false → Within c b s)
    (fits : vPages.length ≤ s.availablePages c b) (bindable : Bindable s written vPages)
    (after : IdsAfter c s vPages ids) (ran : s.allocBindFastOrSlow c b vPages = some (s', pages)) :
    Inv c { s' with freeVirtualIds := ids } written (B ∪ pages.toFinset) R ∧
      (s'.isFrontierTransparent c = false → Within c b s') ∧
      s'.freeVirtualIds = s.freeVirtualIds ∧ (∀ v, v ∉ vPages → s'.v2p v = s.v2p v) ∧
      ∀ v ∈ vPages, s'.v2p v ≠ none := by
  rw [allocBindFastOrSlow_eq] at ran
  obtain ⟨⟨t, pages⟩, taken, result⟩ := map_eq_some_iff.mp ran
  cases result
  obtain ⟨took, length⟩ := inv.placed.takePhysicalPages within fits taken
  have mapped : Mapped c t B written := inv.mapped.congr took.same
  have freshHeld (p) mem := notMem_union.mp (took.fresh p mem)
  have pos : ∀ p ∈ pages, p ≠ 0 := fun p mem =>
    (took.placed.pos_of_mem (mem_union_right _ (List.mem_toFinset.mpr mem))).ne'
  have bindable' : Bindable t written vPages :=
    ⟨bindable.nodup, took.same.v2p ▸ bindable.unbound, bindable.unwritten⟩
  have after' : IdsAfter c t vPages ids :=
    ⟨after.nodup, took.same.freeVirtualIds ▸ after.rest, after.range⟩
  obtain ⟨mem, kept, zeroed⟩ := maybeZeroPages_eq (s := t.bind vPages pages) pages
  rw [zeroed]
  refine ⟨⟨mapped.bindPages bindable' length took.nodup (fun p here => ⟨pos p here, (freshHeld p here).1⟩)
    after' kept, ?_, ?_, ?_⟩, took.within, took.same.freeVirtualIds, fun v notNew => ?_, fun v new => ?_⟩
  · rw [union_right_comm]
    exact took.placed.congr
  · rw [disjoint_union_left]
    refine ⟨inv.apart, disjoint_left.mpr fun p mem => ?_⟩
    exact (freshHeld p (mem_toFinset.mp mem)).2
  · exact inv.reserved.trans took.same.pendingHicacheLoadPages.ge
  · rw [← took.same.v2p]
    exact (bind_v2p bindable.nodup length).1 v notNew
  · obtain ⟨p, -, bound⟩ := (bind_v2p bindable.nodup length).2 v new
    exact ne_none_iff_exists'.mpr ⟨p, bound⟩

end

variable {pages vPages : List Nat}

/-- Pages taken for `alloc_physical`. -/
lemma Inv.reserve (inv : Inv c s written B R) (took : Took c b s s' (B ∪ R) pages) :
    Inv c { s' with pendingHicacheLoadPages := s'.pendingHicacheLoadPages + pages.length } written B
      (R ∪ pages.toFinset) := by
  have mapped := inv.mapped.congr took.same
  have fresh (p) mem := notMem_union.mp (took.fresh p mem)
  refine ⟨mapped.pending _, ?_, ?_, ?_⟩
  · rw [← union_assoc]
    exact took.placed.congr
  · rw [disjoint_union_right]
    refine ⟨inv.apart, disjoint_right.mpr fun p mem => ?_⟩
    exact (fresh p (List.mem_toFinset.mp mem)).1
  · have disjoint : Disjoint R pages.toFinset := disjoint_right.mpr fun p mem =>
      (fresh p (List.mem_toFinset.mp mem)).2
    rw [card_union_of_disjoint disjoint, toFinset_card_of_nodup took.nodup,
      took.same.pendingHicacheLoadPages]
    exact Nat.add_le_add_right inv.reserved _

/-! ### Freeing pages -/

variable (c) in
/-- Virtual pages that may be freed: distinct, bound, and not queued by an open group. -/
structure Freeable (s : Pool γ) (vPages : List Nat) : Prop where
  nodup : vPages.Nodup
  live : ∀ v ∈ vPages, v ≠ 0 ∧ ∃ p, s.v2p v = some p
  notQueued : ∀ v ∈ vPages, v ∉ s.queuedPages c

instance (vPages : List Nat) : Decidable (Freeable c s vPages) :=
  decidable_of_iff (vPages.Nodup ∧ (∀ v ∈ vPages, v ≠ 0 ∧ (s.v2p v).isSome) ∧
    ∀ v ∈ vPages, v ∉ s.queuedPages c) (by
      simp only [Option.isSome_iff_exists]
      exact ⟨fun h => ⟨h.1, h.2.1, h.2.2⟩, fun h => ⟨h.nodup, h.live, h.notQueued⟩⟩)

/-- The physical pages behind freed virtual ones. -/
lemma Mapped.freed_pages (mapped : Mapped c s B written) (freeable : Freeable c s vPages)
    (values : List.Forall₂ (fun v p => s.v2p v = some p) vPages pages) :
    pages.Nodup ∧ ∀ p ∈ pages, p ∈ B := by
  constructor
  · have back : List.Forall₂ (fun p v => s.p2v p = some v) pages vPages :=
      values.flip.imp fun p v => (mapped.linked.inverse v p).mp
    exact Lib.nodup_keys back freeable.nodup
  · intro p mem
    obtain ⟨v, mem', h⟩ := Lib.exists_of_mem_left values.flip mem
    rcases mem_insert.mp (mapped.linked.mem_bound h) with rfl | bound
    · exact absurd (mapped.linked.injective h mapped.sink) (freeable.live v mem').1
    · exact bound

lemma recycleIds_eq (s : Pool γ) : s.recycleIds c vPages = { s with
    freeVirtualIds := if c.isIdOwner then s.freeVirtualIds ++ vPages else s.freeVirtualIds } := by
  unfold recycleIds
  split <;> rfl

/-- The physical pages behind freed virtual ones, and what is left by each way to free them. -/
lemma freePages_cases (ran : s.freePages c vPages = some s') : ∃ pages ids,
    List.Forall₂ (fun v p => s.v2p v = some p) vPages pages ∧
    ids = (if c.isIdOwner then s.freeVirtualIds ++ vPages else s.freeVirtualIds) ∧
    (c.growDirection = .float ∧ s' = Pool.parkIfEmpty c { s with
        v2p := unpair s.v2p vPages, p2v := unpair s.p2v pages, freeVirtualIds := ids
        freePhysPages := s.freePhysPages ++ pages, holesDirty := true } ∨
      c.growDirection ≠ .float ∧ c.lazyCompaction = true ∧ s' = { s with
        v2p := unpair s.v2p vPages, p2v := unpair s.p2v pages, freeVirtualIds := ids
        freePhysPages := s.freePhysPages ++ pages
        livePageCount := s.livePageCount - pages.length } ∨
      c.growDirection ≠ .float ∧ c.lazyCompaction = false ∧
        ({ s with v2p := unpair s.v2p vPages, freeVirtualIds := ids }).compactPending c pages
          = some s') := by
  unfold freePages at ran
  cases grow : c.growDirection with
  | float =>
    rw [grow, freeFloat, unbindPages, Option.map_map] at ran
    obtain ⟨pages, found, rfl⟩ := map_eq_some_iff.mp ran
    refine ⟨pages, _, Lib.forall₂_of_mapM found, rfl, .inl ⟨rfl, ?_⟩⟩
    simp [recycleIds_eq]
  | up | down =>
    rw [grow] at ran
    dsimp only at ran
    split at ran
    · rename_i lazy
      rw [freeLazy, unbindPages, Option.map_map] at ran
      obtain ⟨pages, found, rfl⟩ := map_eq_some_iff.mp ran
      refine ⟨pages, _, Lib.forall₂_of_mapM found, rfl, .inr (.inl ⟨by decide, lazy, ?_⟩)⟩
      simp [recycleIds_eq]
    · rename_i eager
      obtain ⟨pages, found, compacted⟩ := bind_eq_some_iff.mp ran
      rw [recycleIds_eq] at compacted
      exact ⟨pages, _, Lib.forall₂_of_mapM found, rfl, .inr (.inr ⟨by decide, by simpa using eager,
        compacted⟩)⟩

/-- Clearing freed pages in both tables and recycling their ids. -/
lemma Mapped.unbind {ids : List Nat} (mapped : Mapped c s B written)
    (freeable : Freeable c s vPages)
    (values : List.Forall₂ (fun v p => s.v2p v = some p) vPages pages)
    (ids_eq : ids = if c.isIdOwner then s.freeVirtualIds ++ vPages else s.freeVirtualIds) :
    Mapped c { s with v2p := unpair s.v2p vPages, p2v := unpair s.p2v pages, freeVirtualIds := ids }
      (B \ pages.toFinset) written := by
  obtain ⟨nodup, bound⟩ := mapped.freed_pages freeable values
  have unbound := mapped.linked.unbind values
  have sinkKept : insert 0 B \ pages.toFinset = insert 0 (B \ pages.toFinset) := by
    refine insert_sdiff_of_notMem _ fun zero => mapped.real (bound 0 ?_)
    exact mem_toFinset.mp zero
  have notFreed : ∀ v, v ∉ vPages → unpair s.v2p vPages v = s.v2p v := fun v kept => if_neg kept
  refine ⟨sinkKept ▸ unbound, ?_, ?_, ?_, ?_, ?_, ?_, mapped.queued_nodup, ?_, mapped.groups⟩
  · exact (notFreed 0 fun zero => (freeable.live 0 zero).1 rfl).trans mapped.sink
  · exact fun zero => mapped.real (mem_sdiff.mp zero).1
  · rw [ids_eq]
    split
    · rename_i owner
      refine nodup_append.mpr ⟨mapped.ids_nodup, freeable.nodup, ?_⟩
      rintro v free _ freed rfl
      obtain ⟨-, p, h⟩ := freeable.live v freed
      rw [((mapped.ids_free owner v).mp free).2] at h
      cases h
    · exact mapped.ids_nodup
  · intro owner v
    rw [ids_eq, if_pos owner, mem_append, mapped.ids_free owner]
    by_cases freed : v ∈ vPages
    · obtain ⟨real, p, h⟩ := freeable.live v freed
      have range := (mapped.ids_bound owner v p h).resolve_left real
      simp [Lib.unpair, freed, range]
    · simp [Lib.unpair, freed]
  · intro owner v p h
    exact mapped.ids_bound owner v p (Lib.unpair_eq_some.mp h).2
  · intro v p x h stored
    exact mapped.stored v p x (Lib.unpair_eq_some.mp h).2 stored
  · intro v queued
    obtain ⟨real, p, h⟩ := mapped.queued_live v queued
    exact ⟨real, p, (notFreed v fun freed => freeable.notQueued v freed queued).trans h⟩

/-- Freed pages become holes. -/
lemma Placed.release_split (placed : Placed c s H) (nodup : pages.Nodup)
    (sub : ∀ p ∈ pages, p ∈ H) :
    Splits (s.band c) ((s.freePhysPages ++ pages) ++ s.pendingReusePages) (H \ pages.toFinset) := by
  apply (placed.split.give nodup sub).perm
  rw [append_assoc]
  apply perm_append_comm.trans
  rw [append_assoc]
  exact perm_append_comm.append_left _

lemma Placed.releaseLazy (placed : Placed c s H) (lazy : c.lazyCompaction = true)
    (nodup : pages.Nodup) (sub : ∀ p ∈ pages, p ∈ H) :
    Placed c { s with
      freePhysPages := s.freePhysPages ++ pages
      livePageCount := s.livePageCount - pages.length } (H \ pages.toFinset) :=
  { placed with
    split := placed.release_split nodup sub
    packed := fun eager => absurd lazy (by simp [eager])
    count := by
      intro _
      have held : pages.toFinset ⊆ H := fun p mem => sub p (mem_toFinset.mp mem)
      rw [card_sdiff_of_subset held, toFinset_card_of_nodup nodup, ← placed.count lazy]
    parked := fun float => absurd float (c.ends_of_lazy lazy) }

section

variable (float : c.growDirection = .float)
include float

/-- A float is placed by its span and the holes in it. -/
lemma placed_span (settled : s.pendingReuse = [])
    (split : Splits (Finset.Ico s.lowWmPage s.highWmPage) s.freePhysPages H)
    (low : c.minPageIndex ≤ s.lowWmPage) (ordered : s.lowWmPage ≤ s.highWmPage)
    (high : s.highWmPage ≤ c.numPages)
    (parked : H = ∅ → s.lowWmPage = c.numPages ∧ s.highWmPage = c.numPages) : Placed c s H where
  split := by simpa [band, lowPage, highPage, float, pendingReusePages, settled] using split
  low_ge := by simpa only [lowPage, float] using low
  ordered := by simpa only [lowPage, highPage, float] using ordered
  high_le := by simpa only [highPage, float] using high
  settled _ := settled
  packed _ ends := absurd float ends
  count lazy := absurd lazy (by simp [c.float_eager float])
  parked _ := parked

/-- A parked float. -/
lemma placed_reset (settled : s.pendingReuse = []) :
    Placed c { s.resetWatermarks c with freePhysPages := [] } ∅ := by
  simp only [resetWatermarks, float]
  refine placed_span float settled ?_ ?_ ?_ ?_ ?_
  · exact .all nodup_nil (by simp)
  · exact c.min_lt_num.le
  · exact le_rfl
  · exact le_rfl
  · exact fun _ => ⟨rfl, rfl⟩

/-- An emptied float parks; any other float is placed as it is. -/
lemma placed_parkIfEmpty (split : Splits (s.band c) (s.freePhysPages ++ s.pendingReusePages) H)
    (low_ge : c.minPageIndex ≤ s.lowPage c) (ordered : s.lowPage c ≤ s.highPage c)
    (high_le : s.highPage c ≤ c.numPages) (settled : s.pendingReuse = []) :
    Placed c (s.parkIfEmpty c) H := by
  have eager := c.float_eager float
  have count := livePages_of_split float split settled
  unfold parkIfEmpty
  split
  · rename_i empty
    have empty : H = ∅ := card_eq_zero.mp (count.symm.trans empty)
    subst empty
    exact (placed_reset float settled).congr
  · rename_i live
    refine ⟨split, low_ge, ordered, high_le, fun _ => settled, fun _ => absurd float,
      fun lazy => absurd lazy (by simp [eager]), fun _ bare => ?_⟩
    rw [count, bare] at live
    exact absurd rfl live

end

variable (c) in
/-- The band did not grow, if neighbours see it at all. -/
def Shrunk (s s' : Pool γ) : Prop :=
  s'.isFrontierTransparent c = false → s.isFrontierTransparent c = false ∧
    s.lowPage c ≤ s'.lowPage c ∧ s'.highPage c ≤ s.highPage c

lemma Shrunk.refl (s : Pool γ) : Shrunk c s s := fun isOpaque => ⟨isOpaque, le_rfl, le_rfl⟩

lemma Shrunk.trans (first : Shrunk c s s') (second : Shrunk c s' t) : Shrunk c s t := by
  intro isOpaque
  obtain ⟨before, low, high⟩ := second isOpaque
  obtain ⟨start, low', high'⟩ := first before
  exact ⟨start, low'.trans low, high.trans high'⟩

lemma held_sdiff (apart : Disjoint B R) (sub : ∀ p ∈ pages, p ∈ B) :
    (B ∪ R) \ pages.toFinset = B \ pages.toFinset ∪ R := by
  rw [union_sdiff_distrib]
  congr 1
  rw [Finset.sdiff_eq_self_iff_disjoint]
  exact apart.symm.mono_right fun p mem => sub p (mem_toFinset.mp mem)

lemma parkIfEmpty_tables (float : c.growDirection = .float) : SameTables s (s.parkIfEmpty c) := by
  unfold parkIfEmpty resetWatermarks
  rw [float]
  split
  · exact ⟨rfl, rfl, rfl, rfl, rfl, rfl, rfl⟩
  · exact .refl s

/-- A pool that parks is seen through; one that does not keeps its span. -/
lemma parkIfEmpty_shrunk (float : c.growDirection = .float) : Shrunk c s (s.parkIfEmpty c) := by
  unfold parkIfEmpty
  split
  · intro isOpaque
    simp [isFrontierTransparent, float, resetWatermarks, livePages, spanPages] at isOpaque
  · exact fun isOpaque => ⟨isOpaque, le_rfl, le_rfl⟩

end Pool

end Sglang.Unified
