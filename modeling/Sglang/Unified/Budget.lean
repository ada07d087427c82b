/-
# The byte budget of the two-ended composite

* `Hybrid.reachable_available_isGreatest` — the closed form of `_compute_available_size` is
  the largest demand on both pools that `_fits_page_demand` accepts.
* `Hybrid.reachable_promise_kept` — what fits after compaction, by the counters, fits once
  the pools are flushed.
* `Hybrid.reclaimPlan_isLeast` — `reclaim_plan` finds the least reclaim that fits.
-/

import Mathlib.Data.Prod.Lex
import Sglang.Unified.Composite

namespace Sglang.Unified

open Pool
open Option (bind_some map_some ne_none_iff_exists')

open Nat (zero_le)

open Sglang.Alloc (pagesFor)

/-! ### Draining holes and extending -/

/-- Pages that two pools give out together, the first of which has fewer holes: both drain,
then the first extends while the second drains, then both extend. -/
lemma joint_cost_le_iff {h₁ h₂ e₁ e₂ gap k : Nat} (fewer : h₁ ≤ h₂) (pos : 0 < e₁) :
    (k - h₁) * e₁ + (k - h₂) * e₂ ≤ gap ↔
      k ≤ h₁ + min (h₂ - h₁) (gap / e₁) + (gap - min (h₂ - h₁) (gap / e₁) * e₁) / (e₁ + e₂) := by
  by_cases short : gap / e₁ < h₂ - h₁
  · -- the gap is used up before the second pool runs out of holes
    have rest : (gap - gap / e₁ * e₁) / (e₁ + e₂) = 0 := by
      apply Nat.div_eq_of_lt
      have := Nat.mod_lt gap pos
      have := Nat.div_add_mod' gap e₁
      omega
    rw [min_eq_right short.le, rest, add_zero, ← Nat.sub_le_iff_le_add',
      Nat.le_div_iff_mul_le pos]
    constructor
    · exact (Nat.le_add_right _ _).trans
    · intro cost
      have few : k - h₁ ≤ gap / e₁ := (Nat.le_div_iff_mul_le pos).mpr cost
      have enough : k - h₂ = 0 := by omega
      rwa [enough, zero_mul, add_zero]
  · rw [not_lt, Nat.le_div_iff_mul_le pos] at short
    have enough := (Nat.le_div_iff_mul_le pos).mpr short
    rw [min_eq_left enough, Nat.add_sub_of_le fewer, ← Nat.sub_le_iff_le_add',
      Nat.le_div_iff_mul_le (Nat.add_pos_left pos e₂), Nat.le_sub_iff_add_le short]
    by_cases drained : k ≤ h₂
    · have enough : k - h₂ = 0 := Nat.sub_eq_zero_of_le drained
      rw [enough, zero_mul, zero_mul, zero_add]
      exact iff_of_true ((Nat.mul_le_mul_right e₁ (by omega)).trans short) short
    · have split : k - h₁ = (k - h₂) + (h₂ - h₁) := by omega
      rw [split, add_mul, mul_add]
      omega

namespace Hybrid

variable {γ : Type} {h : Hybrid} {s s' : Chain γ} {written : Member → Nat → Option γ} {c : SubPool}
  {H : Finset Nat} {pool : Pool γ}

/-- The pages of a pool are its room, its holes, the pages that wait for an event and the
ones it counts. -/
lemma room_eq (placed : pool.Placed c H) (ends : c.growDirection ≠ .float) :
    livePagesOf c pool + pool.freePhysPages.length + pool.pendingReusePages.length
      + indexRoomOf c pool = c.numPages - c.minPageIndex := by
  have card := placed.card
  have low := placed.low_ge
  have high := placed.high_le
  rw [livePagesOf_eq placed, indexRoomOf, allocatedPages_end ends]
  omega

/-- Without compaction, a demand on both pools is a matter of holes, index space and bytes:
ids and page counts never bind. -/
lemma fits_both_iff {x : Composite γ} (kept : h.Kept x) (noMid : h.layout.mid = none) (k : Nat) :
    h.fitsPageDemand x.run.chain k k 0 0 false false = true ↔
      (k ≤ (fa x.run.chain).freePhysPages.length + indexRoomOf h.full (fa x.run.chain) ∧
        k ≤ (h.sa x.run.chain).freePhysPages.length + indexRoomOf h.swa (h.sa x.run.chain)) ∧
      (k - (fa x.run.chain).freePhysPages.length) * h.full.entryBytesPerPage
        + (k - (h.sa x.run.chain).freePhysPages.length) * h.swa.entryBytesPerPage
        ≤ (fa x.run.chain).byteLowFrontier h.full - (h.sa x.run.chain).byteHighFrontier h.swa := by
  obtain ⟨B, R, inv⟩ := inv_full kept.run.good
  obtain ⟨B', R', inv'⟩ := inv_swa kept.run.good
  have ids := inv.room_le_ids h.full_owner full_ends
  have fullPages := room_eq inv.placed full_ends
  have swaPages := room_eq inv'.placed (swa_ends noMid)
  have inside := kept.live_le
  rw [← indexRoomOf] at ids
  simp only [fitsPageDemand, Bool.false_eq_true, if_false, Nat.min_zero, gap_eq noMid]
  constructor
  · intro fits
    split at fits
    · cases fits
    simp only [Snapshot.fits, Bool.and_eq_true, decide_eq_true_eq] at fits
    exact ⟨⟨fits.1.1.2, fits.1.2⟩, fits.2⟩
  · rintro ⟨⟨fullRoom, swaRoom⟩, bytes⟩
    -- the window pool holds no more pages than the full pool, so it does not run out of ids first
    rw [if_neg (by omega)]
    simp only [Snapshot.fits, Bool.and_eq_true, decide_eq_true_eq]
    exact ⟨⟨⟨by omega, fullRoom⟩, swaRoom⟩, bytes⟩

/-- **The closed form is exact**: in every reachable state of a two-ended composite,
`_compute_available_size` is, in pages, the greatest demand on both pools that
`_fits_page_demand` accepts without compaction. -/
theorem reachable_available_isGreatest [Zero γ] (h : Hybrid) (noMid : h.layout.mid = none) (x : Composite γ)
    (reached : h.machine.Reachable x) :
    IsGreatest {k | h.fitsPageDemand x.run.chain k k 0 0 false false = true}
      (h.computeAvailableSize x.run.chain / h.pageSize) := by
  have kept := reachable_kept reached
  obtain ⟨B, R, inv⟩ := inv_full kept.run.good
  obtain ⟨B', R', inv'⟩ := inv_swa kept.run.good
  have pos : 0 < h.pageSize := h.full.pageSize_pos
  have posF := h.full.entryBytesPerPage_pos
  have posS := h.swa.entryBytesPerPage_pos
  suffices threshold : ∀ k, h.fitsPageDemand x.run.chain k k 0 0 false false = true ↔
      k ≤ h.computeAvailableSize x.run.chain / h.pageSize from
    ⟨(threshold _).mpr (le_refl _), fun k => (threshold k).mp⟩
  intro k
  rw [fits_both_iff kept noMid]
  unfold computeAvailableSize
  cases lazy : h.full.lazyCompaction with
  | false =>
    -- an eager pool has no holes
    have noHoles := inv.placed.packed lazy full_ends
    have noHoles' := inv'.placed.packed ((h.lazy_agrees noMid).trans lazy) (swa_ends noMid)
    simp only [noHoles, noHoles', List.length_nil, zero_add, ← mul_add,
      Bool.not_false, if_true]
    rw [Nat.mul_div_cancel _ pos, Nat.le_min, Nat.le_min,
      Nat.le_div_iff_mul_le (Nat.add_pos_left posF _)]
    tauto
  | true =>
    simp only [Bool.not_true, Bool.false_eq_true, if_false]
    rw [Nat.mul_div_cancel _ pos, Nat.le_min, Nat.le_min]
    by_cases fewer : (fa x.run.chain).freePhysPages.length ≤ (h.sa x.run.chain).freePhysPages.length
    · simp only [if_pos fewer, if_pos posF, min_eq_left fewer]
      rw [joint_cost_le_iff fewer posF]
      tauto
    · have more := Nat.le_of_not_le fewer
      simp only [if_neg fewer, if_pos posS, min_eq_right more]
      rw [add_comm (_ * _), add_comm h.full.entryBytesPerPage, joint_cost_le_iff more posS]
      tauto

lemma start_lazyHybrid : lazyHybrid.machine.Reachable (⟨Run.lazyStart, ∅⟩ : Composite Nat) :=
  .start ⟨Run.start_lazy, rfl⟩

/-- Three pages of the full pool. -/
def takeThree : CompositeOp Nat := .call (.alloc .high (fun _ => true) 3)

def bindThree : CompositeOp Nat := .call (.allocWithVirtual .low [1, 2, 3])

/-- Three pages of both pools with one page of the gap between them, and a hole in the window
pool: two more pages of the full pool fit after compaction only. -/
lemma reachable_hole : ∃ x : Composite Nat, lazyHybrid.machine.Reachable x ∧
    (lazyHybrid.sa x.run.chain).freePhysPages = [1] ∧
    lazyHybrid.computeAvailableSize x.run.chain / lazyHybrid.pageSize = 1 ∧
    lazyHybrid.compactionAllowed x.run.chain = true ∧
    lazyHybrid.fitsPageDemand x.run.chain 2 0 0 0 false false = false ∧
    lazyHybrid.fitsPageDemand x.run.chain 2 0 0 0 true false = true ∧
    lazyHybrid.canReserveEnds 7 7 x.run.chain (2 : Nat) (0 : Nat) 0 0 false true = true := by
  have three := start_lazyHybrid.step (a := takeThree) ⟨trivial, trivial, ⟨rfl, nofun, nofun⟩⟩ rfl
  have both := three.step (a := bindThree)
    ⟨trivial, fun c here => by cases here; decide, ⟨rfl, nofun, by decide⟩⟩ rfl
  have hole := both.step (a := CompositeOp.call (.free .low [1]))
    ⟨fun c here => by cases here; decide, trivial, ⟨rfl, nofun, nofun⟩⟩ rfl
  exact ⟨_, hole, rfl, rfl, rfl, rfl, rfl, by decide⟩

/-- A page of the gap and a hole of the window pool are left for one more page of both. -/
theorem reachable_available_isGreatest_hole : ∃ x : Composite Nat, lazyHybrid.machine.Reachable x ∧
    (lazyHybrid.sa x.run.chain).freePhysPages = [1] ∧
    IsGreatest {k | lazyHybrid.fitsPageDemand x.run.chain k k 0 0 false false = true} 1 := by
  obtain ⟨x, hole, free, available, -⟩ := reachable_hole
  have greatest := reachable_available_isGreatest lazyHybrid rfl x hole
  exact ⟨x, hole, free, available ▸ greatest⟩

/-! ### What compaction gives -/

/-- A pool without holes and pending pages. -/
def Tight (pool : Pool γ) : Prop := pool.freePhysPages = [] ∧ pool.pendingReuse = []

/-- In a pool without holes the pages it counts are all there is. -/
lemma Tight.live_add_room (tight : Tight pool)
    (placed : pool.Placed c H) (ends : c.growDirection ≠ .float) :
    livePagesOf c pool + indexRoomOf c pool = c.numPages - c.minPageIndex ∧
      pool.allocatedPages c = livePagesOf c pool := by
  have pages := room_eq placed ends
  have low := placed.low_ge
  have high := placed.high_le
  rw [tight.1, pendingReusePages, tight.2] at pages
  simp only [List.length_nil, List.flatMap_nil] at pages
  refine ⟨pages, ?_⟩
  have allocated := allocatedPages_end (s := pool) ends
  rw [indexRoomOf] at pages
  omega

variable {f w a b sizeFull sizeSwa a' b' most : Nat} {compacted : Bool} {emptyPool slack : Bool}

section

variable (good : Chain.Good h.layout s written)
include good

/-- **In tight pools** the counters are the layout: what fits after compaction fits. -/
lemma fits_of_tight (noMid : h.layout.mid = none) (full : Tight (fa s)) (window : Tight (h.sa s))
    (fits : h.fitsPageDemand s f w 0 0 true false = true) :
    h.fitsPageDemand s f w 0 0 false false = true := by
  obtain ⟨B, R, inv⟩ := inv_full good
  obtain ⟨B', R', inv'⟩ := inv_swa good
  have ids := inv.free_ids_ge h.full_owner
  have bound : B.card ≤ livePagesOf h.full (fa s) := by
    rw [livePagesOf_eq inv.placed]
    exact Finset.card_le_card Finset.subset_union_left
  obtain ⟨fullPages, fullAllocated⟩ := full.live_add_room inv.placed full_ends
  obtain ⟨swaPages, swaAllocated⟩ := window.live_add_room inv'.placed (swa_ends noMid)
  simp only [fitsPageDemand, Bool.false_eq_true, if_false, if_true, Nat.min_zero] at fits ⊢
  split at fits
  · cases fits
  rename_i counts
  rw [if_neg counts]
  simp only [Snapshot.fits, Bool.and_eq_true, decide_eq_true_eq, Nat.sub_zero, full.1, window.1, gap_eq noMid] at fits ⊢
  obtain ⟨⟨⟨-, fullRoom⟩, swaRoom⟩, bytes⟩ := fits
  refine ⟨⟨⟨by omega, by omega⟩, by omega⟩, bytes.trans (le_of_eq ?_)⟩
  -- both frontiers are the counted pages away from the fixed ends
  have low : (fa s).lowPage h.full = h.full.numPages - livePagesOf h.full (fa s) := by
    have allocated := allocatedPages_end (c := h.full) (s := fa s) full_ends
    have order := inv.placed.ordered
    have top : (fa s).highPage h.full = h.full.numPages := by
      simp only [highPage, Hybrid.full, h.layout.high_down]
    omega
  have high : (h.sa s).highPage h.swa = h.swa.minPageIndex + livePagesOf h.swa (h.sa s) := by
    have allocated := allocatedPages_end (s := h.sa s) (swa_ends noMid)
    have order := inv'.placed.ordered
    have bottom : (h.sa s).lowPage h.swa = h.swa.minPageIndex := by
      rw [lowPage, (swa_eq_low noMid).2, h.layout.low_up]
    omega
  rw [byteLowFrontier_eq, byteHighFrontier_eq, low, high, emptySharedGapBytes, Nat.sub_mul,
    add_mul]
  omega

omit good in
/-- An urgent flush of a member that may move pages. -/
lemma flush_tight {l : Layout} {m : Member} (good : Chain.Good l s written)
    (here : c ∈ l.pool m) (lazy : c.lazyCompaction = true) (unblocked : (s m).movesBlocked = false)
    (fired : Nat → Bool) : ∃ pool n, Chain.flush l fired true s m = some (Chain.set s m pool, n) ∧
      Tight pool ∧ livePagesOf c pool = livePagesOf c (s m) := by
  obtain ⟨B, R, inv⟩ := good.inv m c here
  have ends := c.ends_of_lazy lazy
  obtain ⟨pool, n, ran, -⟩ := inv.flushEnd_isSome fired true ends
  have packed := inv.flushEnd_packs lazy unblocked ran
  refine ⟨pool, n, ?_, ⟨packed.free, packed.pending⟩, ?_⟩
  · unfold Chain.flush
    rw [show l.pool m = some c from here, bind_some, flush_eq_flushEnd ends, ran]
    rfl
  · rw [livePagesOf, livePagesOf, if_pos lazy, if_pos lazy, packed.count]

/-- The flushes of `ensure_capacity` leave both pools tight. -/
lemma flushAll_tight (noMid : h.layout.mid = none)
    (lazy : h.full.lazyCompaction = true) (allowed : h.compactionAllowed s = true) (fired : Nat → Bool) :
    ∃ s', h.flushAll fired [.high, h.layout.swaMember] s = some s' ∧ Tight (fa s') ∧ Tight (h.sa s') ∧
      livePagesOf h.full (fa s') = livePagesOf h.full (fa s) ∧
      livePagesOf h.swa (h.sa s') = livePagesOf h.swa (h.sa s) := by
  simp only [compactionAllowed, Bool.and_eq_true, Bool.not_eq_true'] at allowed
  have other := h.swaMember_ne_high
  obtain ⟨pool, n, ran, tight, count⟩ := flush_tight good full_here lazy allowed.1 fired
  have window : h.sa (.set s .high pool) = h.sa s := Chain.set_other other
  have unblocked : (Chain.set s .high pool h.layout.swaMember).movesBlocked = false :=
    (congrArg movesBlocked window).trans allowed.2
  obtain ⟨pool', n', ran', tight', count'⟩ := flush_tight (good.flush ran).1.good h.swa_here
    ((h.lazy_agrees noMid).trans lazy) unblocked fired
  have fullAfter : fa (.set (.set s .high pool) h.layout.swaMember pool') = pool :=
    (Chain.set_other other.symm).trans (Chain.set_self ..)
  have windowAfter : h.sa (.set (.set s .high pool) h.layout.swaMember pool') = pool' :=
    Chain.set_self ..
  have flushed : h.flushAll fired [.high, h.layout.swaMember] s
      = some (.set (.set s .high pool) h.layout.swaMember pool') := by
    simp [flushAll, ran, ran']
  refine ⟨_, flushed, ?_, ?_, ?_, ?_⟩
  · rwa [fullAfter]
  · rwa [windowAfter]
  · rw [fullAfter]
    exact count
  · rw [windowAfter]
    exact count'.trans (congrArg (livePagesOf h.swa) window)

/-- Pools that compact on every free are tight, and a flush does nothing to them. -/
lemma eager_tight (noMid : h.layout.mid = none)
    (eager : h.full.lazyCompaction = false) (fired : Nat → Bool) :
    Tight (fa s) ∧ Tight (h.sa s) ∧ h.flushAll fired [.high, h.layout.swaMember] s = some s := by
  obtain ⟨B, R, inv⟩ := inv_full good
  obtain ⟨B', R', inv'⟩ := inv_swa good
  have eager' := (h.lazy_agrees noMid).trans eager
  have stays : ∀ m, ∀ c ∈ h.layout.pool m, c.growDirection ≠ .float → c.lazyCompaction = false →
      Chain.flush h.layout fired true s m = some (s, 0) := by
    intro m c here ends eager
    unfold Chain.flush
    rw [show h.layout.pool m = some c from here, bind_some, flush_eq_flushEnd ends]
    simp only [flushEnd, eager]
    exact congrArg (fun t => some (t, 0)) (Function.update_eq_self m s)
  refine ⟨⟨inv.placed.packed eager full_ends, inv.placed.settled eager⟩,
    ⟨inv'.placed.packed eager' (swa_ends noMid), inv'.placed.settled eager'⟩, ?_⟩
  simp [flushAll, stays .high h.full full_here full_ends eager, stays h.layout.swaMember h.swa h.swa_here (swa_ends noMid) eager']

/-- **What the counters predict, compaction gives.** -/
lemma fits_after_flush (noMid : h.layout.mid = none)
    (allowed : h.compactionAllowed s = true) (fits : h.fitsPageDemand s f w 0 0 true false = true)
    (fired : Nat → Bool) : ∃ s', h.flushAll fired [.high, h.layout.swaMember] s = some s' ∧
      h.fitsPageDemand s' f w 0 0 false false = true := by
  cases lazy : h.full.lazyCompaction with
  | false =>
    obtain ⟨full, window, ran⟩ := eager_tight good noMid lazy fired
    exact ⟨s, ran, fits_of_tight good noMid full window fits⟩
  | true =>
    obtain ⟨s', ran, full, window, fullLive, swaLive⟩ := flushAll_tight good noMid lazy allowed fired
    refine ⟨s', ran, fits_of_tight ((Relieved.refl.flushAll ran).rests good).good noMid full window ?_⟩
    -- the prediction looks at the counters only
    refine .trans ?_ fits
    simp [fitsPageDemand, fullLive, swaLive]

end

/-- Without anything to evict, `can_reserve` asks whether the demand fits as it is. -/
lemma reclaimFits_of_canReserve {fullTokens swaTokens : Nat}
    (reserved : h.canReserveEnds sizeFull sizeSwa s fullTokens swaTokens 0 0 false slack = true) :
    h.fitsPageDemand s (pagesFor h.pageSize fullTokens) (pagesFor h.pageSize swaTokens) 0 0
      (!h.full.lazyCompaction || h.compactionAllowed s) false = true := by
  have fits : h.reclaimFits s fullTokens swaTokens false 0 0 = true := by
    unfold canReserveEnds at reserved
    split at reserved
    · cases reserved
    split at reserved
    · cases reserved
    unfold reclaimPlan at reserved
    simp only [evictablePages] at reserved
    by_contra refused
    rw [Bool.not_eq_true] at refused
    simp [refused] at reserved
  have ceil : ∀ n : Nat, (n : Rat).ceil.toNat = n := fun n => by
    rw [show (n) = ((n : Int) : Rat) by simp, Rat.ceil_intCast, Int.toNat_natCast]
  simpa only [reclaimFits, ceil, Bool.false_or] using fits

/-- **Promises are kept.** In every reachable state of a two-ended composite: a demand that fits
after compaction, by the counters, fits once `ensure_capacity` has flushed both pools; and when
`can_reserve` says yes with nothing to evict, `ensure_capacity` does. -/
theorem reachable_promise_kept [Zero γ] (h : Hybrid) (noMid : h.layout.mid = none) (x : Composite γ)
    (reached : h.machine.Reachable x) (fired : Nat → Bool) :
    (∀ f w, h.compactionAllowed x.run.chain = true →
      h.fitsPageDemand x.run.chain f w 0 0 true false = true →
      ∃ s, h.flushAll fired [.high, h.layout.swaMember] x.run.chain = some s ∧
        h.fitsPageDemand s f w 0 0 false false = true) ∧
    ∀ (sizeFull sizeSwa fullTokens swaTokens : Nat) (slack : Bool),
      h.canReserveEnds sizeFull sizeSwa x.run.chain fullTokens swaTokens 0 0 false slack = true →
      ∃ s, h.ensureCapacityEnds fired x.run.chain fullTokens swaTokens = some (s, true) := by
  have good := (reachable_kept reached).run.good
  refine ⟨fun f w allowed fits => fits_after_flush good noMid allowed fits fired, ?_⟩
  intro sizeFull sizeSwa fullTokens swaTokens slack reserved
  have fits := reclaimFits_of_canReserve reserved
  unfold ensureCapacityEnds
  split
  · exact ⟨_, rfl⟩
  dsimp only
  split
  · exact ⟨_, rfl⟩
  rename_i short
  cases lazy : h.full.lazyCompaction with
  | false =>
    -- an eager pool has nothing to compact
    obtain ⟨full, window, -⟩ := eager_tight good noMid lazy fired
    rw [lazy, Bool.not_false] at fits
    exact absurd (fits_of_tight good noMid full window fits) short
  | true =>
    rw [lazy, Bool.not_true, Bool.false_or] at fits
    cases allowed : h.compactionAllowed x.run.chain with
    | false =>
      rw [allowed] at fits
      exact absurd fits short
    | true =>
      rw [allowed] at fits
      obtain ⟨s, ran, fits'⟩ := fits_after_flush good noMid allowed fits fired
      simp only [fits, ran, fits', map_some]
      exact ⟨s, rfl⟩

/-- The two pages that fit after compaction only are given. -/
theorem reachable_promise_kept_hole : ∃ (x : Composite Nat) (s s' : Chain Nat),
    lazyHybrid.machine.Reachable x ∧
    lazyHybrid.fitsPageDemand x.run.chain 2 0 0 0 false false = false ∧
    lazyHybrid.flushAll (fun _ => true) [.high, .low] x.run.chain = some s ∧
    lazyHybrid.fitsPageDemand s 2 0 0 0 false false = true ∧
    lazyHybrid.ensureCapacityEnds (fun _ => true) x.run.chain 2 0 = some (s', true) := by
  obtain ⟨x, hole, -, -, allowed, short, fits, reserved⟩ := reachable_hole
  obtain ⟨compacts, ensures⟩ := reachable_promise_kept lazyHybrid rfl x hole fun _ => true
  obtain ⟨s, ran, fits'⟩ := compacts 2 0 allowed fits
  obtain ⟨s', ensured⟩ := ensures 7 7 2 0 true reserved
  exact ⟨x, s, s', hole, short, ran, fits', ensured⟩

/-! ### Reclaiming -/

/-- **More to reclaim fits more**, whether the pools compact or not. -/
lemma fitsPageDemand_reclaim_mono (more : a ≤ a')
    (more' : b ≤ b') (fits : h.fitsPageDemand s f w a b compacted emptyPool = true) :
    h.fitsPageDemand s f w a' b' compacted emptyPool = true := by
  cases emptyPool with
  | true => exact fits
  | false =>
    have full : min (livePagesOf h.full (fa s)) a ≤ min (livePagesOf h.full (fa s)) a' := by omega
    have window : min (livePagesOf h.swa (h.sa s)) b ≤ min (livePagesOf h.swa (h.sa s)) b' := by omega
    simp only [fitsPageDemand, Bool.false_eq_true, if_false] at fits ⊢
    generalize min (livePagesOf h.full (fa s)) a = r at *
    generalize min (livePagesOf h.swa (h.sa s)) b = q at *
    split at fits
    · cases fits
    rw [if_neg (by omega)]
    cases compacted with
    | true =>
      simp only [if_true, Snapshot.fits, Bool.and_eq_true, decide_eq_true_eq] at fits ⊢
      obtain ⟨⟨⟨ids, fullRoom⟩, swaRoom⟩, bytes⟩ := fits
      refine ⟨⟨⟨by omega, by omega⟩, by omega⟩, bytes.trans ?_⟩
      have fullBytes := Nat.mul_le_mul_right h.full.entryBytesPerPage
        (Nat.sub_le_sub_left full (livePagesOf h.full (fa s)))
      have swaBytes := Nat.mul_le_mul_right h.swa.entryBytesPerPage
        (Nat.sub_le_sub_left window (livePagesOf h.swa (h.sa s)))
      omega
    | false =>
      simp only [Bool.false_eq_true, if_false, Snapshot.fits, Bool.and_eq_true,
        decide_eq_true_eq] at fits ⊢
      obtain ⟨⟨⟨ids, fullRoom⟩, swaRoom⟩, bytes⟩ := fits
      refine ⟨⟨⟨by omega, by omega⟩, by omega⟩, le_trans ?_ bytes⟩
      exact add_le_add
        (Nat.mul_le_mul_right _ (Nat.sub_le_sub_left (Nat.add_le_add_left full _) f))
        (Nat.mul_le_mul_right _ (Nat.sub_le_sub_left (Nat.add_le_add_left window _) w))

/-- Nobody reclaims more pages than there are. -/
lemma fitsPageDemand_reclaim_min :
    h.fitsPageDemand s f w (min (livePagesOf h.full (fa s)) a) (min (livePagesOf h.swa (h.sa s)) b)
      compacted emptyPool = h.fitsPageDemand s f w a b compacted emptyPool := by
  cases emptyPool with
  | true => rfl
  | false =>
    simp [fitsPageDemand]

/-- An empty pool has nothing to reclaim. -/
lemma fitsPageDemand_empty :
    h.fitsPageDemand s f w a b compacted true = h.fitsPageDemand s f w 0 0 compacted true := rfl

/-- Reclaims of up to `fullMost` and `swaMost` pages that `fits` accepts, the pages to keep low
first in front: those of the window pool, or with `preferSwa` those of the full pool. -/
def Plans (fits : Nat → Nat → Bool) (fullMost swaMost : Nat) (preferSwa : Bool) : Set (ℕ ×ₗ ℕ) :=
  {plan | ∃ f w, plan = toLex (if preferSwa then (f, w) else (w, f)) ∧ f ≤ fullMost ∧ w ≤ swaMost ∧
    fits f w = true}

/-- Two bisections, one after the other, find the least pair. -/
lemma firstFit_lex (fits : Nat → Nat → Bool) {most' : Nat}
    (mono : ∀ a a' b b', a ≤ a' → b ≤ b' → fits a b = true → fits a' b' = true)
    (top : fits most most' = true) : let a := Lib.firstFit (fits · most') 0 most
    let b := Lib.firstFit (fits a) 0 most'
    (a ≤ most ∧ b ≤ most' ∧ fits a b = true) ∧
      ∀ a' b', a' ≤ most → b' ≤ most' → fits a' b' = true → toLex (a, b) ≤ toLex (a', b') := by
  intro a b
  have first : IsLeast {n | fits n most' = true} a :=
    Lib.firstFit_isLeast (fun m n le => mono m n most' most' le (le_refl _)) top
  have second : IsLeast {n | fits a n = true} b :=
    Lib.firstFit_isLeast (fun m n => mono a a m n (le_refl _)) first.1
  refine ⟨⟨first.2 top, second.2 first.1, second.1⟩, fun a' b' le le' fits' => ?_⟩
  have least : a ≤ a' := first.2 (mono a' a' b' most' (le_refl _) le' fits')
  rw [Prod.Lex.toLex_le_toLex]
  rcases Nat.lt_or_eq_of_le least with lt | rfl
  · exact .inl lt
  · exact .inr ⟨rfl, second.2 fits'⟩

section

variable {fullTokens swaTokens : Rat} (nonneg : 0 ≤ fullTokens) (nonneg' : 0 ≤ swaTokens)
include nonneg nonneg'

/-- Only a demand that does not fit with everything evictable reclaimed is refused. -/
lemma reclaimPlan_none_iff (fullEvictable swaEvictable : Int) (emptyPool preferSwa : Bool) :
    h.reclaimPlan s fullTokens swaTokens fullEvictable swaEvictable emptyPool preferSwa = none ↔
      h.reclaimFits s fullTokens swaTokens emptyPool (h.evictablePages fullEvictable)
        (h.evictablePages swaEvictable) = false := by
  unfold reclaimPlan reclaimFits
  rw [if_neg (by rw [not_or, Rat.not_lt, Rat.not_lt]; exact ⟨nonneg, nonneg'⟩)]
  dsimp only
  split
  · rename_i isEmpty
    subst isEmpty
    rw [fitsPageDemand_empty (a := h.evictablePages fullEvictable)]
    split <;> simp_all
  split
  · rename_i fits
    simp [fitsPageDemand_reclaim_mono (zero_le _) (zero_le _) fits]
  simp only [fitsPageDemand_reclaim_min]
  split
  · simp_all
  · split <;> simp_all

end

/-- **`reclaim_plan`** refuses a demand only if it does not fit with everything evictable
reclaimed, and otherwise answers with the least reclaim in whole pages that fits. -/
theorem reclaimPlan_isLeast (h : Hybrid) (s : Chain γ) (fullTokens swaTokens : Rat)
    (nonneg : 0 ≤ fullTokens) (nonneg' : 0 ≤ swaTokens) (fullEvictable swaEvictable : Int)
    (emptyPool preferSwa : Bool) :
    (h.reclaimPlan s fullTokens swaTokens fullEvictable swaEvictable emptyPool preferSwa = none ↔
      h.reclaimFits s fullTokens swaTokens emptyPool (h.evictablePages fullEvictable)
        (h.evictablePages swaEvictable) = false) ∧
    ∀ full swa, h.reclaimPlan s fullTokens swaTokens fullEvictable swaEvictable emptyPool preferSwa
        = some (full, swa) →
      ∃ f w, full = f * h.pageSize ∧ swa = w * h.pageSize ∧
        IsLeast (Plans (h.reclaimFits s fullTokens swaTokens emptyPool)
          (h.evictablePages fullEvictable) (h.evictablePages swaEvictable) preferSwa)
          (toLex (if preferSwa then (f, w) else (w, f))) := by
  refine ⟨reclaimPlan_none_iff nonneg nonneg' .., ?_⟩
  have mono : ∀ a a' b b', a ≤ a' → b ≤ b' → h.reclaimFits s fullTokens swaTokens emptyPool a b = true →
      h.reclaimFits s fullTokens swaTokens emptyPool a' b' = true :=
    fun _ _ _ _ => fitsPageDemand_reclaim_mono
  have capped : ∀ a b, h.reclaimFits s fullTokens swaTokens emptyPool
      (min (livePagesOf h.full (fa s)) a) (min (livePagesOf h.swa (h.sa s)) b)
      = h.reclaimFits s fullTokens swaTokens emptyPool a b := fun _ _ => fitsPageDemand_reclaim_min
  unfold reclaimPlan
  rw [if_neg (by rw [not_or, Rat.not_lt, Rat.not_lt]; exact ⟨nonneg, nonneg'⟩)]
  dsimp only
  generalize h.reclaimFits s fullTokens swaTokens emptyPool = fits at *
  generalize h.evictablePages fullEvictable = fullMost at *
  generalize h.evictablePages swaEvictable = swaMost at *
  generalize livePagesOf h.full (fa s) = fullLive at *
  generalize livePagesOf h.swa (h.sa s) = swaLive at *
  -- a plan is not worse for reclaiming no more pages than there are
  have cheaper : ∀ f w, toLex (if preferSwa then (min fullLive f, min swaLive w)
      else (min swaLive w, min fullLive f)) ≤ toLex (if preferSwa then (f, w) else (w, f)) := by
    intro f w
    cases preferSwa with
    | true | false => exact .toLex_mono ⟨min_le_right _ _, min_le_right _ _⟩
  intro full swa same
  by_cases fits₀ : fits 0 0 = true
  · simp only [fits₀, if_true, ite_self] at same
    cases same
    refine ⟨0, 0, (zero_mul _).symm, (zero_mul _).symm, ⟨0, 0, rfl, zero_le _, zero_le _, fits₀⟩, ?_⟩
    rintro _ ⟨f, w, rfl, -⟩
    cases preferSwa with
    | true => exact .toLex_mono ⟨zero_le f, zero_le w⟩
    | false => exact .toLex_mono ⟨zero_le w, zero_le f⟩
  rw [if_neg fits₀, if_neg fits₀] at same
  by_cases isEmpty : emptyPool = true
  · rw [if_pos isEmpty] at same
    cases same
  rw [if_neg isEmpty] at same
  cases top : fits (min fullLive fullMost) (min swaLive swaMost) with
  | false =>
    rw [top] at same
    cases same
  | true =>
    simp only [top, Bool.not_true] at same
    cases preferSwa
    case' true => obtain ⟨⟨fullLe, swaLe, here⟩, least⟩ := firstFit_lex fits mono top
    case' false =>
      obtain ⟨⟨swaLe, fullLe, here⟩, least⟩ := firstFit_lex (fun w f => fits f w)
        (fun a a' b b' le le' => mono b b' a a' le' le) top
    all_goals
      cases same
      refine ⟨_, _, rfl, rfl, ⟨_, _, rfl, fullLe.trans (min_le_right _ _),
        swaLe.trans (min_le_right _ _), here⟩, ?_⟩
      rintro _ ⟨f, w, rfl, le, le', fits'⟩
      exact (least _ _ (by omega) (by omega) ((capped f w).trans fits')).trans (cheaper f w)

/-- Three pages of both pools are held; two more full pages take one page that is evicted. -/
theorem reclaimPlan_isLeast_full : ∃ (s : Chain Nat) (f w : Nat),
    lazyHybrid.reclaimFits s 2 0 false 0 0 = false ∧
    lazyHybrid.reclaimPlan s 2 0 3 3 false false = some (f * 1, w * 1) ∧
    IsLeast (Plans (lazyHybrid.reclaimFits s 2 0 false) 3 3 false) (toLex (w, f)) := by
  obtain ⟨s, short, enough⟩ : ∃ s, lazyHybrid.reclaimFits s 2 0 false 0 0 = false ∧
      lazyHybrid.reclaimFits s 2 0 false 3 3 = true :=
    ⟨_, show lazyHybrid.reclaimFits (((lazyHybrid.step ⟨.lazyStart, ∅⟩ takeThree).bind
      (lazyHybrid.step · bindThree)).elim Run.lazyStart.chain fun x => x.run.chain) 2 0 false 0 0 = false
      by decide, by decide⟩
  obtain ⟨refuses, plans⟩ := reclaimPlan_isLeast lazyHybrid s 2 0 (by decide) (by decide) 3 3 false false
  obtain ⟨⟨full, swa⟩, planned⟩ := ne_none_iff_exists'.mp fun refused =>
    absurd (enough.symm.trans (refuses.mp refused)) (by decide)
  obtain ⟨f, w, rfl, rfl, least⟩ := plans full swa planned
  exact ⟨s, f, w, short, planned, least⟩

end Hybrid

end Sglang.Unified
