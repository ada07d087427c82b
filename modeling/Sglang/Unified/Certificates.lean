/-
# The reclaim certificates of the tri-pool composite

* `Pool.Eased` — an end pool after a flush: its frontier went back at least as far as a
  certificate credits it.
* `Hybrid.fits_of_after` — a demand fits when the full pool may reach down that far.
* `Hybrid.bytes_of_fits` — a demand that fits, fits the buffer byte by byte.
* `TriPool.reachable_certificates` — a certificate is honoured by `ensure_capacity`, and a
  byte shortfall is not moved away.
-/

import Sglang.Unified.Composite

namespace Sglang.Unified

open List Pool Chain Hybrid
open Nat (div_mul_le_self le_add_right le_div_iff_mul_le le_min mul_le_mul_right)
open Int (natCast_mul natCast_nonneg toNat_le_toNat toNat_natCast)
open Option (bind_some isSome_iff_exists isSome_some map_eq_some_iff map_some some.inj)
open Sglang.Alloc (pagesFor)

/-! ### Compaction and the number of live pages -/

namespace Pool

variable {γ : Type} {c : SubPool} {s s' : Pool γ} {written : Nat → Option γ} {B B' R : Finset Nat}

lemma float_frontiers (float : c.growDirection = .float) :
    s.byteLowFrontier c = s.lowWmPage * c.entryBytesPerPage ∧
      s.byteHighFrontier c = s.highWmPage * c.entryBytesPerPage := by
  simp [byteLowFrontier, byteHighFrontier, float]

/-- Moving pages changes no count. -/
lemma Unbinds.livePagesOf_eq (unbinds : Unbinds s s' []) (inv : Inv c s written B R)
    (inv' : Inv c s' written B' R) : Hybrid.livePagesOf c s' = Hybrid.livePagesOf c s := by
  have bound : B'.card = B.card := by
    obtain ⟨ids, count, mem_ids⟩ := Hybrid.exists_ids inv
    obtain ⟨ids', count', mem_ids'⟩ := Hybrid.exists_ids inv'
    have same : ids' = ids := by
      ext v
      rw [mem_ids, mem_ids', ne_eq, ne_eq, unbinds.unbound_iff inv]
    rw [← count, ← count', same]
  rw [Hybrid.livePagesOf_eq inv.placed, Hybrid.livePagesOf_eq inv'.placed,
    Finset.card_union_of_disjoint inv.apart, Finset.card_union_of_disjoint inv'.apart, bound]

end Pool

namespace Chain

variable {γ : Type} {l : Layout} {s s' t : Chain γ}
  {written : Member → Nat → Option γ}

variable (l) in
/-- Every member has as many live pages as before. -/
def SameLive (s s' : Chain γ) : Prop :=
  ∀ m, ∀ c ∈ l.pool m, Hybrid.livePagesOf c (s' m) = Hybrid.livePagesOf c (s m)

lemma SameLive.refl (s : Chain γ) : SameLive l s s := fun _ _ _ => rfl

lemma SameLive.trans (one : SameLive l s t) (two : SameLive l t s') : SameLive l s s' :=
  fun m c here => (two m c here).trans (one m c here)

lemma Moved.sameLive (moved : Moved l written s s') : SameLive l s s' := by
  obtain ⟨m, c, here, pool, B, B', R, rfl, inv, inv', unbinds⟩ := moved
  intro m' c' here'
  by_cases isHere : m' = m
  · subst isHere
    cases here.symm.trans here'
    rw [set_self]
    exact unbinds.livePagesOf_eq inv inv'
  · rw [set_other isHere]

lemma Rests.sameLive (rests : Rests l written s s') : SameLive l s s' := by
  induction rests with
  | refl good => exact .refl s
  | tail rests moved good ih => exact ih.trans moved.sameLive

end Chain

namespace Hybrid

open Chain (SameLive)

variable {γ : Type} {h : Hybrid} {s : Chain γ} {written : Member → Nat → Option γ}

/-! ### A demand that fits, in bytes -/

/-- The pages of an end pool: what is live and what it may take without growing lie beyond the
frontier. -/
lemma full_bytes {f : Nat} (good : Chain.Good h.layout s written)
    (reach : (f - reusableHoles h.full (fa s)) * h.full.entryBytesPerPage ≤ (fa s).byteLowFrontier h.full) :
    (livePagesOf h.full (fa s) + f) * h.full.entryBytesPerPage
      + ((fa s).byteLowFrontier h.full
        - (f - reusableHoles h.full (fa s)) * h.full.entryBytesPerPage) ≤ h.full.totalBytes := by
  obtain ⟨B, R, inv⟩ := inv_full good
  have card := inv.placed.card
  have order := inv.placed.ordered
  have buffer := h.full.num_mul_le
  have down : h.full.growDirection = .down := h.layout.high_down
  rw [reusableHoles_eq inv.placed full_ends] at reach ⊢
  rw [livePagesOf_eq inv.placed]
  rw [byteLowFrontier_eq] at reach ⊢
  simp only [highPage, down] at card order
  have reachPages := Nat.le_of_mul_le_mul_right reach h.full.entryBytesPerPage_pos
  rw [← Nat.sub_mul, ← add_mul]
  refine (Nat.mul_le_mul_right _ ?_).trans buffer
  omega

/-- What the state pool holds lies below its frontier. -/
lemma state_bytes (good : Chain.Good h.layout s written) :
    (livePagesOf h.layout.low (s .low) + h.layout.low.minPageIndex) * h.layout.low.entryBytesPerPage
      ≤ (s .low).byteHighFrontier h.layout.low := by
  obtain ⟨B, R, inv⟩ := good.inv .low h.layout.low rfl
  have card := inv.placed.card
  have order := inv.placed.ordered
  simp only [lowPage, h.layout.low_up] at card order
  rw [livePagesOf_eq inv.placed, byteHighFrontier_eq]
  apply mul_le_mul_right _
  omega

/-- Pages of a band, in bytes. -/
lemma bytes_of_pagesInBand {c : SubPool} {n low high : Nat} (fits : n ≤ pagesInBand c low high)
    (pos : 0 < n) : low + n * c.entryBytesPerPage ≤ high := by
  unfold pagesInBand at fits
  have below := Alloc.le_pagesFor_mul c.entryBytesPerPage_pos low
  have above := div_mul_le_self high c.entryBytesPerPage
  have pages : pagesFor c.entryBytesPerPage low + n ≤ high / c.entryBytesPerPage := by omega
  have bytes := mul_le_mul_right c.entryBytesPerPage pages
  rw [add_mul] at bytes
  omega

/-- What the full pool sees below it. -/
lemma below_full (s : Chain γ) (mid : h.layout.mid = some h.swa) :
    (Chain.bounds h.layout s .high).below = if (h.sa s).isFrontierTransparent h.swa then
      (s .low).byteHighFrontier h.layout.low else (h.sa s).byteHighFrontier h.swa := by
  have here : h.sa s = s .mid := by rw [sa, (swa_eq_mid mid).1]
  simp only [bounds, highFrontierBelow, opaqueMid, mid, here]
  cases seen : (s .mid).isFrontierTransparent h.swa <;> simp [Option.filter, seen]

section

variable (good : Chain.Good h.layout s written) (mid : h.layout.mid = some h.swa)
include good mid

/-- What the window pool holds and takes lies between the state pool and the full pool. -/
lemma window_bytes {w after : Nat} (clear : (Chain.bounds h.layout s .high).below ≤ after)
    (room : w - (h.sa s).holePages ≤ h.swaRoom s after) : (s .low).byteHighFrontier h.layout.low
      + (livePagesOf h.swa (h.sa s) + w) * h.swa.entryBytesPerPage ≤ after := by
  have float := h.layout.mid_float _ mid
  have member := (swa_eq_mid mid).1
  obtain ⟨B, R, inv⟩ := inv_swa good
  have placed := inv.placed
  rw [livePagesOf_eq placed]
  rw [below_full s mid] at clear
  simp only [swaRoom, highFrontierBelow] at room
  cases seen : (h.sa s).isFrontierTransparent h.swa with
  | true =>
    rw [seen, if_pos rfl] at clear room
    have empty := (placed.transparent_iff float).mp seen
    have holes : (h.sa s).holePages = 0 := by
      have card := placed.card
      have parked := placed.parked float empty
      simp only [lowPage, highPage, float] at card
      rw [holePages]
      omega
    rw [empty, Finset.card_empty, zero_add]
    rw [holes] at room
    obtain rfl | pos := Nat.eq_zero_or_pos w
    · omega
    · exact bytes_of_pagesInBand room pos
  | false =>
    rw [seen, if_neg (by simp)] at clear room
    have ordered := good.ordered.mid h.swa mid (by rwa [sa, member] at seen)
    have span : (h.sa s).lowWmPage + (h.sa s).holePages + (B ∪ R).card = (h.sa s).highWmPage := by
      have card := placed.card
      have order := placed.ordered
      rw [pendingReusePages, placed.settled (h.swa.float_eager float), flatMap_nil] at card
      simp only [lowPage, highPage, float, length_nil] at card order
      rw [holePages]
      omega
    -- the live pages and `w` more are the span and the pages it grows by
    have pages : (h.sa s).lowWmPage + ((B ∪ R).card + w)
        ≤ (h.sa s).highWmPage + (w - (h.sa s).holePages) := by omega
    have bytes := Nat.mul_le_mul_right h.swa.entryBytesPerPage pages
    have frontiers := float_frontiers (s := h.sa s) float
    rw [← show h.sa s = s .mid by rw [sa, member]] at ordered
    rw [add_mul, add_mul _ (w - _)] at bytes
    obtain enough | pos := Nat.eq_zero_or_pos (w - (h.sa s).holePages)
    · rw [enough] at bytes
      omega
    · rcases le_max_iff.mp room with low | high
      · have := bytes_of_pagesInBand low pos
        omega
      · have := bytes_of_pagesInBand high pos
        omega

/-- **A demand that fits** fits the buffer, with what is live and the reserved pages. -/
lemma bytes_of_fits {f w : Nat} (fits : h.fitsChainDemand s f w = true) :
    (livePagesOf h.full (fa s) + f) * h.full.entryBytesPerPage
      + (livePagesOf h.swa (h.sa s) + w) * h.swa.entryBytesPerPage
      + (livePagesOf h.layout.low (s .low) + h.layout.low.minPageIndex)
        * h.layout.low.entryBytesPerPage ≤ h.layout.low.totalBytes := by
  have below := (good.ordered.within full_here (isOpaque_of_ends full_ends)).1
  change _ ≤ (fa s).byteLowFrontier h.full at below
  simp only [fitsChainDemand] at fits
  split at fits
  · cases fits
  split at fits
  · cases fits
  rw [decide_eq_true_eq] at fits
  have gap := gap_full (h := h) s
  have state := state_bytes good
  have window := window_bytes good mid (by omega) fits
  have full := full_bytes (f := f) good (by omega)
  have buffer : h.full.totalBytes = h.layout.low.totalBytes := h.layout.same_buffer.1
  omega

end

/-! ### What the search for the available size finds -/

lemma midFits_down {i j : Nat} (le : i ≤ j) (fits : h.midFits s j = true) : h.midFits s i = true := by
  simp only [midFits, Bool.and_eq_true, decide_eq_true_eq] at fits ⊢
  have less : (i - reusableHoles h.full (fa s)) * h.full.entryBytesPerPage
      ≤ (j - reusableHoles h.full (fa s)) * h.full.entryBytesPerPage :=
    Nat.mul_le_mul_right _ (Nat.sub_le_sub_right le _)
  refine ⟨less.trans fits.1, (Nat.sub_le_sub_right le _).trans (fits.2.trans ?_)⟩
  exact max_le_max le_rfl (pagesInBand_mono _ _ (Nat.sub_le_sub_left less _))

/-- `available_size` is as large as `_fits_page_demand` allows. -/
lemma available_of_fits {n : Nat} (fits : h.fitsChainDemand s n n = true) :
    n * h.pageSize ≤ h.availableSize s := by
  simp only [fitsChainDemand] at fits
  split at fits
  · cases fits
  rename_i room
  rw [not_or, not_lt, not_lt] at room
  split at fits
  · cases fits
  rename_i bytes
  rw [decide_eq_true_eq] at fits
  refine mul_le_mul_right _ (le_searchLast (fun i j => midFits_down) ?_ (le_min room.1 room.2))
  simp only [midFits, Bool.and_eq_true, decide_eq_true_eq]
  refine ⟨not_lt.mp bytes, fits.trans (le_of_eq ?_)⟩
  unfold swaRoom
  split
  · exact (zero_max _).symm
  · rfl

end Hybrid

/-! ### A flush of the ends -/

namespace Pool

variable {γ : Type} {c : SubPool} {s s' : Pool γ} {written : Nat → Option γ} {B R : Finset Nat}

open Hybrid (endCredit reusableHoles)

/-- The band of an end pool went back by the pages a certificate credits, and the other holes are
still there. -/
structure Eased (c : SubPool) (s s' : Pool γ) : Prop where
  retreats : s'.allocatedPages c + endCredit true c s ≤ s.allocatedPages c
  holes : reusableHoles c s - endCredit true c s ≤ reusableHoles c s'

/-- **An urgent flush** of an end pool. -/
lemma Inv.flushEnd_eased {fired : Nat → Bool} {n : Nat} (inv : Inv c s written B R)
    (ends : c.growDirection ≠ .float) (ran : s.flushEnd c fired true = some (s', n)) : Eased c s s' := by
  cases lazy : c.lazyCompaction with
  | false =>
    unfold Pool.flushEnd at ran
    simp only [lazy] at ran
    cases ran
    constructor <;> simp [endCredit, lazy]
  | true =>
    cases blocked : s.movesBlocked with
    | true =>
      unfold Pool.flushEnd at ran
      simp only [lazy, blocked] at ran
      cases ran
      -- the watermark stays, and fired pages become holes
      constructor
      · rw [allocatedPages_end ends, allocatedPages_end ends]
        simp only [endCredit, blocked, Bool.or_true]
        exact le_refl _
      · simp [endCredit, blocked, reusableHoles, lazy, drainPendingReuse]
    | false =>
      have packed := inv.flushEnd_packs lazy blocked ran
      obtain ⟨⟨⟨⟨B', inv'⟩, -⟩, -⟩, -⟩ := inv.flushEnd ends ran
      constructor
      · have before := inv.placed.allocated_eq lazy ends
        have after := inv'.placed.allocated_eq lazy ends
        rw [packed.free, packed.count, pendingReusePages, packed.pending] at after
        simp only [endCredit, lazy, blocked, Bool.not_true, Bool.or_false, Bool.false_eq_true, if_false]
        simp only [flatMap_nil, length_nil] at after
        omega
      · simp [endCredit, lazy, blocked, reusableHoles]

/-- A float whose gap below has room for what lies above `limit` retreats to there. -/
lemma Inv.makeRoom_high {b : Bounds} (limit : Nat) (inv : Inv c s written B R)
    (float : c.growDirection = .float) (unblocked : s.movesBlocked = false)
    (within : s.isFrontierTransparent c = false → Within c b s)
    (seen : s.isFrontierTransparent c = false) (above : limit < s.highWmPage)
    (room : (regionBoundsPages c b).1 + s.highWmPage ≤ s.lowWmPage + limit) :
    ∃ s' n, s.makeRoom c b .high (((regionBoundsPages c b).2 - limit) * c.entryBytesPerPage)
        = some (s', n) ∧ (s'.isFrontierTransparent c = false → s'.highWmPage ≤ limit) := by
  obtain ⟨lowIn, highIn⟩ := (within seen).region inv.placed float
  obtain ⟨-, -, -, span⟩ := inv.placed.span float
  have live := inv.placed.livePages_eq float
  obtain ⟨s', n, ran, -, n_eq, delivers, -⟩ := inv.makeRoom_delivers .high
    (((regionBoundsPages c b).2 - limit) * c.entryBytesPerPage) float within
  refine ⟨s', n, ran, fun seen' => ?_⟩
  have possible : Possible c b (((regionBoundsPages c b).2 - limit) * c.entryBytesPerPage) s :=
    ⟨unblocked, Nat.mul_le_mul_right _ (by omega)⟩
  have retreats : Retreats c b .high (((regionBoundsPages c b).2 - limit) * c.entryBytesPerPage) s := by
    intro _
    simp only [Side.far, gapSide, gapPages, seen, Bool.false_eq_true, if_false, needPages, gapSideBytes]
    rw [Sglang.Alloc.pagesFor_le_iff c.entryBytesPerPage_pos, ← Nat.sub_mul]
    exact Nat.mul_le_mul_right _ (by omega)
  have opened := (delivers possible).mpr retreats
  rw [n_eq, gapSideBytes_eq] at opened
  have pages := Nat.le_of_mul_le_mul_right opened c.entryBytesPerPage_pos
  simp only [gapSide, gapPages, seen', Bool.false_eq_true, if_false] at pages
  omega

end Pool

namespace Hybrid

variable {γ : Type} {h : Hybrid} {s s' : Chain γ} {written : Member → Nat → Option γ}

/-- `flush_for_allocation` of the full and the state pool. -/
lemma flushEnds (fired : Nat → Bool) (good : Chain.Good h.layout s written) :
    ∃ s', h.flushAll fired [.high, .low] s = some s' ∧ Chain.Good h.layout s' written ∧
      s' .mid = s .mid ∧ Pool.Eased h.full (fa s) (fa s') ∧
      Pool.Eased h.layout.low (s .low) (s' .low) := by
  obtain ⟨B, R, inv⟩ := inv_full good
  obtain ⟨full, n, ranFull, -⟩ := inv.flushEnd_isSome fired true full_ends
  have flushed : flush h.layout fired true s .high = some (.set s .high full, n) := by
    change ((s .high).flush h.full fired true).map _ = _
    rw [flush_eq_flushEnd full_ends, show (s .high).flushEnd h.full fired true = _ from ranFull]
    rfl
  have good' := (good.flush flushed).1.good
  obtain ⟨B', R', inv'⟩ := good'.inv .low h.layout.low rfl
  obtain ⟨state, n', ranState, -⟩ := inv'.flushEnd_isSome fired true low_ends
  have flushed' : flush h.layout fired true (.set s .high full) .low
      = some (.set (.set s .high full) .low state, n') := by
    change ((set s .high full .low).flush h.layout.low fired true).map _ = _
    rw [flush_eq_flushEnd low_ends, ranState]
    rfl
  refine ⟨.set (.set s .high full) .low state, ?_, (good'.flush flushed').1.good, ?_, ?_, ?_⟩
  · simp [flushAll, flushed, flushed']
  · rw [set_other (by decide), set_other (by decide)]
  · exact inv.flushEnd_eased full_ends ranFull
  · exact inv'.flushEnd_eased low_ends ranState

lemma endCredit_false (c : SubPool) (pool : Pool γ) : endCredit false c pool = 0 := rfl

/-- Two states of the composite around a flush of its ends. -/
structure Flushed (h : Hybrid) (written : Member → Nat → Option γ) (s s' : Chain γ) : Prop where
  good : Chain.Good h.layout s written
  good' : Chain.Good h.layout s' written
  mid : h.layout.mid = some h.swa
  window : h.sa s' = h.sa s
  full : Pool.Eased h.full (fa s) (fa s')
  state : Pool.Eased h.layout.low (s .low) (s' .low)

/-- The frontiers after the flush are no worse than a certificate counts them. -/
lemma Flushed.frontiers_le (numTokens : Nat) (flushed : Flushed h written s s') :
    (h.tokenEndFrontiers s numTokens true).2.1 ≤ (h.tokenEndFrontiers s' numTokens false).2.1 ∧
      (h.tokenEndFrontiers s' numTokens false).2.2 ≤ (h.tokenEndFrontiers s numTokens true).2.2 := by
  obtain ⟨B, R, inv⟩ := inv_full flushed.good
  obtain ⟨B', R', inv'⟩ := inv_full flushed.good'
  constructor
  · have retreats := flushed.full.retreats
    have holes := flushed.full.holes
    have order := inv.placed.ordered
    have order' := inv'.placed.ordered
    rw [allocatedPages_end full_ends, allocatedPages_end full_ends] at retreats
    have down : h.full.growDirection = .down := h.layout.high_down
    simp only [highPage, down] at retreats order order'
    have pages : (fa s).lowPage h.full + endCredit true h.full (fa s)
        + (numTokens / h.pageSize - reusableHoles h.full (fa s'))
        ≤ (fa s').lowPage h.full + (numTokens / h.pageSize
          - (reusableHoles h.full (fa s) - endCredit true h.full (fa s))) := by omega
    have bytes := mul_le_mul_right h.full.entryBytesPerPage pages
    simp only [add_mul] at bytes
    simp [tokenEndFrontiers, byteLowFrontier_eq, endCredit_false]
    omega
  · have retreats := flushed.state.retreats
    obtain ⟨_, _, low⟩ := flushed.good.inv .low h.layout.low rfl
    obtain ⟨_, _, low'⟩ := flushed.good'.inv .low h.layout.low rfl
    have order := low.placed.ordered
    have order' := low'.placed.ordered
    rw [allocatedPages_end low_ends, allocatedPages_end low_ends] at retreats
    simp only [lowPage, h.layout.low_up] at retreats order order'
    have pages : (s' .low).highPage h.layout.low + endCredit true h.layout.low (s .low)
        ≤ (s .low).highPage h.layout.low := by omega
    have bytes := mul_le_mul_right h.layout.low.entryBytesPerPage pages
    rw [add_mul] at bytes
    simp only [tokenEndFrontiers, byteHighFrontier_eq, endCredit_false]
    omega

/-- A full pool that stays above its reserved pages has the index room for what it takes. -/
lemma index_of_floor (numTokens : Nat) (good : Chain.Good h.layout s written)
    (floor : (h.full.minPageIndex * h.full.entryBytesPerPage : Int)
      ≤ (h.tokenEndFrontiers s numTokens false).2.1) :
    numTokens / h.pageSize ≤ reusableHoles h.full (fa s) + indexRoomOf h.full (fa s) := by
  have down : h.full.growDirection = .down := h.layout.high_down
  obtain ⟨B, R, inv⟩ := inv_full good
  have order := inv.placed.ordered
  simp only [tokenEndFrontiers, endCredit_false, Nat.sub_zero] at floor
  generalize numTokens / h.pageSize = k at *
  have pages : (h.full.minPageIndex + (k - reusableHoles h.full (fa s))) * h.full.entryBytesPerPage
      ≤ (fa s).lowPage h.full * h.full.entryBytesPerPage := by
    rw [add_mul, ← byteLowFrontier_eq]
    omega
  have := Nat.le_of_mul_le_mul_right pages h.full.entryBytesPerPage_pos
  rw [indexRoomOf, allocatedPages_end full_ends]
  simp only [highPage, down] at order ⊢
  omega

variable {numTokens low low' target : Nat}

/-- **A demand fits** when the full pool may reach down to `after` and the window pool finds its
pages between the state pool and there. -/
lemma fits_of_after (after : Nat) (good : Chain.Good h.layout s written)
    (mid : h.layout.mid = some h.swa)
    (cap : numTokens / h.pageSize ≤ h.swa.numPages - h.swa.minPageIndex - (h.sa s).livePages)
    (reach : (after : Int) ≤ (h.tokenEndFrontiers s numTokens false).2.1)
    (floor : h.full.minPageIndex * h.full.entryBytesPerPage ≤ after)
    (clear : (Chain.bounds h.layout s .high).below ≤ after)
    (room : numTokens / h.pageSize - (h.sa s).holePages ≤ h.swaRoom s after) :
    h.fitsChainDemand s (numTokens / h.pageSize) (numTokens / h.pageSize) = true := by
  have float := h.layout.mid_float _ mid
  have index := index_of_floor numTokens good (by omega)
  simp only [tokenEndFrontiers, endCredit_false, Nat.sub_zero] at reach
  generalize numTokens / h.pageSize = k at *
  have windowIndex : k ≤ (h.sa s).holePages + indexRoomOf h.swa (h.sa s) := by
    simp only [indexRoomOf, allocatedPages, float]
    omega
  simp only [fitsChainDemand]
  rw [if_neg (by omega), if_neg (by rw [gap_full]; omega), decide_eq_true_eq]
  exact room.trans (swaRoom_mono (by omega))

lemma pagesInBand_anti (c : SubPool) (high : Nat) (below : low ≤ low') :
    pagesInBand c low' high ≤ pagesInBand c low high := by
  have := Alloc.pagesFor_mono c.entryBytesPerPage_pos below
  unfold pagesInBand
  omega

/-- The state pool ends where a certificate counts it, or below. -/
lemma Flushed.state_le (numTokens : Nat) (flushed : Flushed h written s s') :
    (s' .low).byteHighFrontier h.layout.low ≤ (h.tokenEndFrontiers s numTokens true).2.2.toNat := by
  have le := (flushed.frontiers_le numTokens).2
  simp only [tokenEndFrontiers, endCredit_false] at le ⊢
  omega

/-- **The end certificate** holds what it says after a flush of the ends. -/
lemma Flushed.fits_of_endReclaim (flushed : Flushed h written s s')
    (cert : h.tokenEndReclaimSatisfied s numTokens = true) (short : ¬ numTokens ≤ h.availableSize s)
    :
    h.fitsChainDemand s' (numTokens / h.pageSize) (numTokens / h.pageSize) = true := by
  have mid := flushed.mid
  obtain none | some := Nat.eq_zero_or_pos (numTokens / h.pageSize)
  · rw [none]
    exact fits_of_available (by rw [Nat.zero_mul]; exact Nat.zero_le _)
  have after_le := (flushed.frontiers_le numTokens).1
  have state_le := flushed.state_le numTokens
  unfold tokenEndReclaimSatisfied at cert
  split at cert
  · cases cert
  rename_i cap
  simp only [tokenIdCapacity, Bool.not_eq_true', Bool.not_eq_false, Bool.and_eq_true, decide_eq_true_eq] at cap
  generalize h.tokenEndFrontiers s numTokens true = frontiers at *
  obtain ⟨before, after, state⟩ := frontiers
  dsimp only at *
  split at cert
  · cases cert
  have reserved : (0 : Int) ≤ h.full.minPageIndex * h.full.entryBytesPerPage :=
    mul_nonneg (natCast_nonneg _) (natCast_nonneg _)
  refine fits_of_after after.toNat flushed.good' mid (flushed.window ▸ cap.2) ?_ ?_ ?_ ?_
  · omega
  · omega
  · rw [below_full s' mid, flushed.window]
    split at cert
    · rename_i hidden
      rw [if_pos hidden]
      have band := bytes_of_pagesInBand (of_decide_eq_true cert) some
      omega
    · rename_i seen
      rw [if_neg seen]
      split at cert
      · cases cert
      · omega
  · simp only [swaRoom, flushed.window]
    split at cert
    · rename_i hidden
      rw [if_pos hidden]
      exact (Nat.sub_le _ _).trans ((of_decide_eq_true cert).trans (pagesInBand_anti _ _ state_le))
    · rename_i seen
      rw [if_neg seen]
      split at cert
      · cases cert
      · exact (of_decide_eq_true cert).trans (max_le_max (pagesInBand_anti _ _ state_le) le_rfl)

/-! ### Retreating the high end of the float -/

/-- The page of the window pool's grid up to which it may reach once the full pool has what it is
asked for. -/
def highAfter (h : Hybrid) (s : Chain γ) (numTokens : Nat) (flushEnds : Bool) : Nat :=
  min ((h.tokenEndFrontiers s numTokens flushEnds).2.1.toNat / h.swa.entryBytesPerPage) h.swa.numPages

/-- The lowest page the float may use above the state pool. -/
def lowAfterState (h : Hybrid) (s : Chain γ) (numTokens : Nat) (flushEnds : Bool) : Nat :=
  max (pagesFor h.swa.entryBytesPerPage (h.tokenEndFrontiers s numTokens flushEnds).2.2.toNat)
    h.swa.minPageIndex

/-- What `_token_float_high_target` certifies: the float has to go down, and the gap below it has
room for every page that moves. -/
structure HighTarget (h : Hybrid) (s : Chain γ) (numTokens : Nat) (flushEnds : Bool) : Prop where
  cap : h.tokenIdCapacity s numTokens = true
  seen : (h.sa s).isFrontierTransparent h.swa = false
  unblocked : (h.sa s).movesBlocked = false
  floor : (h.full.minPageIndex * h.full.entryBytesPerPage : Int)
    ≤ (h.tokenEndFrontiers s numTokens flushEnds).2.1
  short : h.highAfter s numTokens flushEnds < (h.sa s).highWmPage + numTokens / h.pageSize
  room : h.lowAfterState s numTokens flushEnds + (h.sa s).highWmPage + numTokens / h.pageSize
    ≤ (h.sa s).lowWmPage + h.highAfter s numTokens flushEnds

lemma highTarget_iff {flushEnds : Bool} :
    h.tokenFloatHighTarget s numTokens flushEnds = some target ↔
      HighTarget h s numTokens flushEnds ∧ target =
        ((min ((h.tokenEndFrontiers s numTokens flushEnds).1.toNat / h.swa.entryBytesPerPage)
            h.swa.numPages - ((h.highAfter s numTokens flushEnds : Int) - (numTokens / h.pageSize : Nat)))
          * h.swa.entryBytesPerPage).toNat := by
  constructor
  · intro ran
    unfold tokenFloatHighTarget at ran
    split at ran
    · cases ran
    rename_i cap
    split at ran
    · cases ran
    rename_i seen
    split at ran
    · cases ran
    rename_i unblocked
    obtain ⟨before, after, state, frontiers⟩ : ∃ before after state,
      h.tokenEndFrontiers s numTokens flushEnds = (before, after, state) := ⟨_, _, _, rfl⟩
    rw [frontiers] at ran ⊢
    dsimp only at ran
    split at ran
    · cases ran
    rename_i floor
    split at ran
    · cases ran
    refine ⟨⟨by simpa using cap, by simpa using seen, by simpa using unblocked, ?_, ?_, ?_⟩, ?_⟩
    · rw [frontiers]
      exact not_lt.mp floor
    · rw [highAfter, frontiers]
      dsimp only
      omega
    · rw [highAfter, lowAfterState, frontiers]
      dsimp only
      omega
    · rw [highAfter, frontiers]
      exact (some.inj ran).symm
  · rintro ⟨⟨cap, seen, unblocked, floor, short, room⟩, rfl⟩
    unfold tokenFloatHighTarget
    rw [if_neg (by simp [cap]), if_neg (by simp [seen]), if_neg (by simp [unblocked])]
    unfold highAfter at short room ⊢
    unfold lowAfterState at room
    obtain ⟨before, after, state, frontiers⟩ : ∃ before after state,
      h.tokenEndFrontiers s numTokens flushEnds = (before, after, state) := ⟨_, _, _, rfl⟩
    rw [frontiers] at floor short room ⊢
    dsimp only at *
    rw [if_neg (by omega), if_neg (by omega)]

/-- Below the full pool there is room for the whole demand. -/
lemma fits_of_high (good : Chain.Good h.layout s written) (mid : h.layout.mid = some h.swa)
    (cap : h.tokenIdCapacity s numTokens = true)
    (seen : (h.sa s).isFrontierTransparent h.swa = false)
    (floor : (h.full.minPageIndex * h.full.entryBytesPerPage : Int)
      ≤ (h.tokenEndFrontiers s numTokens false).2.1)
    (high : (h.sa s).highWmPage + numTokens / h.pageSize ≤ h.highAfter s numTokens false) :
    h.fitsChainDemand s (numTokens / h.pageSize) (numTokens / h.pageSize) = true := by
  have float := h.layout.mid_float _ mid
  obtain ⟨B, R, inv⟩ := inv_swa good
  have frontiers := float_frontiers (s := h.sa s) float
  have least : h.swa.minPageIndex ≤ (h.sa s).highWmPage := by
    have low := inv.placed.low_ge
    have order := inv.placed.ordered
    simp only [highPage, float] at low order
    omega
  have reserved : (0 : Int) ≤ h.full.minPageIndex * h.full.entryBytesPerPage :=
    mul_nonneg (natCast_nonneg _) (natCast_nonneg _)
  simp only [tokenIdCapacity, Bool.and_eq_true, decide_eq_true_eq] at cap
  unfold highAfter at high
  generalize after_eq : (h.tokenEndFrontiers s numTokens false).2.1 = after at *
  apply fits_of_after after.toNat good mid cap.2
  · omega
  · omega
  · rw [below_full s mid, if_neg (by simp [seen]), frontiers.2]
    have pages : (h.sa s).highWmPage ≤ after.toNat / h.swa.entryBytesPerPage :=
      (le_add_right _ _).trans (high.trans (min_le_left _ _))
    exact (le_div_iff_mul_le h.swa.entryBytesPerPage_pos).mp pages
  · simp only [swaRoom, seen, frontiers.2]
    apply le_max_of_le_right
    rw [pagesInBand, Alloc.pagesFor_mul h.swa.entryBytesPerPage_pos]
    omega

/-- The target of the float, after the ends are flushed, if there still is one. -/
lemma Flushed.highTarget (flushed : Flushed h written s s') (target : HighTarget h s numTokens true)
    (short : h.highAfter s' numTokens false < (h.sa s').highWmPage + numTokens / h.pageSize)
    (cap : h.tokenIdCapacity s' numTokens = true) : HighTarget h s' numTokens false := by
  obtain ⟨after_le, state_le⟩ := flushed.frontiers_le numTokens
  have higher : h.highAfter s numTokens true ≤ h.highAfter s' numTokens false := by
    refine min_le_min_right _ (Nat.div_le_div_right ?_)
    omega
  have lower : h.lowAfterState s' numTokens false ≤ h.lowAfterState s numTokens true := by
    refine max_le_max_right _ (Alloc.pagesFor_mono h.swa.entryBytesPerPage_pos ?_)
    omega
  have room := target.room
  refine ⟨cap, flushed.window ▸ target.seen, flushed.window ▸ target.unblocked,
    target.floor.trans after_le, short, ?_⟩
  rw [flushed.window]
  omega

/-- The region of the float, as the target is computed. -/
lemma region_mid (s : Chain γ) (numTokens : Nat) : h.lowAfterState s numTokens false
        = (regionBoundsPages h.swa (Chain.bounds h.layout s .mid)).1 ∧
      min ((h.tokenEndFrontiers s numTokens false).1.toNat / h.swa.entryBytesPerPage) h.swa.numPages
        = (regionBoundsPages h.swa (Chain.bounds h.layout s .mid)).2 := by
  have state : (h.tokenEndFrontiers s numTokens false).2.2.toNat = (s .low).byteHighFrontier h.layout.low := by
    simp only [tokenEndFrontiers, endCredit_false]
    omega
  have before : (h.tokenEndFrontiers s numTokens false).1.toNat = (s .high).byteLowFrontier h.layout.high := by
    simp only [tokenEndFrontiers, endCredit_false, fa, full]
    omega
  rw [lowAfterState, state, before]
  exact ⟨rfl, rfl⟩

lemma highAfter_le (s : Chain γ) (numTokens : Nat) : h.highAfter s numTokens false
    ≤ (regionBoundsPages h.swa (Chain.bounds h.layout s .mid)).2 := by
  rw [← (region_mid s numTokens).2]
  refine min_le_min_right _ (Nat.div_le_div_right (toNat_le_toNat (sub_le_self _ ?_)))
  exact mul_nonneg (natCast_nonneg _) (natCast_nonneg _)

/-- **The high target is met** and the demand fits then. -/
lemma HighTarget.delivers (good : Chain.Good h.layout s written) (mid : h.layout.mid = some h.swa)
    (certified : HighTarget h s numTokens false) :
    ∃ target t n, h.tokenFloatHighTarget s numTokens false = some target ∧
      Chain.makeRoom h.layout .high target s = some (t, n) ∧ h.tokenIdCapacity t numTokens = true ∧
      h.fitsChainDemand t (numTokens / h.pageSize) (numTokens / h.pageSize) = true := by
  have float := h.layout.mid_float _ mid
  have member := (swa_eq_mid mid).1
  have here : h.sa s = s .mid := by rw [sa, member]
  obtain ⟨B, R, inv⟩ := good.inv .mid h.swa mid
  have seen := certified.seen
  have room := certified.room
  have short := certified.short
  have top_le := highAfter_le (h := h) s numTokens
  rw [here] at seen room short
  rw [(region_mid s numTokens).1] at room
  obtain ⟨-, -, -, span⟩ := inv.placed.span float
  -- the page the float has to stay below
  obtain ⟨limit, limit_eq⟩ : ∃ limit,
      limit + numTokens / h.pageSize = h.highAfter s numTokens false := ⟨_, Nat.sub_add_cancel (by omega)⟩
  obtain ⟨target, target_eq⟩ : ∃ target, target
      = ((regionBoundsPages h.swa (Chain.bounds h.layout s .mid)).2 - limit)
        * h.swa.entryBytesPerPage := ⟨_, rfl⟩
  have asked : h.tokenFloatHighTarget s numTokens false = some target := by
    refine highTarget_iff.mpr ⟨certified, ?_⟩
    have whole : ((regionBoundsPages h.swa (Chain.bounds h.layout s .mid)).2 : Int)
        - ((h.highAfter s numTokens false) - (numTokens / h.pageSize : Nat))
        = ((regionBoundsPages h.swa (Chain.bounds h.layout s .mid)).2 - limit : Nat) := by
      have := Nat.zero_le (numTokens / h.pageSize)
      omega
    rw [(region_mid s numTokens).2, whole, target_eq, ← natCast_mul, toNat_natCast]
  obtain ⟨pool, n, ran, below⟩ := inv.makeRoom_high limit float (here ▸ certified.unblocked)
    (good.ordered.within mid) seen (by omega) (by omega)
  rw [← target_eq] at ran
  have called : Chain.makeRoom h.layout .high target s = some (.set s .mid pool, n) := by
    rw [Chain.makeRoom, mid]
    exact congrArg (Option.map _) ran
  have rests := (good.makeRoom called).1
  have good' := rests.good
  have sameLive := rests.sameLive .mid h.swa mid
  have full : fa (.set s .mid pool) = fa s := Chain.set_other (by decide)
  have window : h.sa (.set s .mid pool) = pool := by rw [sa, member, Chain.set_self]
  have frontiers : ∀ flushEnds, h.tokenEndFrontiers (.set s .mid pool) numTokens flushEnds
      = h.tokenEndFrontiers s numTokens flushEnds := by
    intro flushEnds
    simp only [tokenEndFrontiers, full, Chain.set_other (show .low ≠ .mid by decide)]
  have livePages : pool.livePages = (s .mid).livePages := by
    rw [Chain.set_self] at sameLive
    simpa only [livePagesOf, h.swa.float_eager float, Bool.false_eq_true, if_false, allocatedPages,
      float] using sameLive
  have seen' : pool.isFrontierTransparent h.swa = false := by
    rw [isFrontierTransparent] at seen ⊢
    simpa only [livePages] using seen
  have cap : h.tokenIdCapacity (.set s .mid pool) numTokens = true := by
    rw [tokenIdCapacity, window, livePages, ← here]
    exact certified.cap
  refine ⟨target, _, n, asked, called, cap, fits_of_high good' mid cap ?_ ?_ ?_⟩
  · rwa [window]
  · exact certified.floor
  · rw [window, highAfter, frontiers, ← highAfter, ← limit_eq]
    exact Nat.add_le_add_right (below seen') _

/-! ### The certificates -/

lemma Flushed.tokenIdCapacity (flushed : Flushed h written s s')
    (cap : h.tokenIdCapacity s numTokens = true)
    (floor : (h.full.minPageIndex * h.full.entryBytesPerPage : Int)
      ≤ (h.tokenEndFrontiers s numTokens true).2.1) : h.tokenIdCapacity s' numTokens = true := by
  obtain ⟨B, R, inv⟩ := inv_full flushed.good'
  have after_le := (flushed.frontiers_le numTokens).1
  have index := index_of_floor numTokens flushed.good' (floor.trans after_le)
  have ids := inv.room_le_ids h.full_owner full_ends
  rw [reusableHoles_eq inv.placed full_ends] at index
  simp only [Hybrid.tokenIdCapacity, Bool.and_eq_true, decide_eq_true_eq] at cap ⊢
  exact ⟨index.trans ids, flushed.window ▸ cap.2⟩

/-- **A reclaim certificate** is honoured. -/
lemma ensureCapacity_of_reclaim (fired : Nat → Bool) (good : Chain.Good h.layout s written)
    (mid : h.layout.mid = some h.swa) (aligned : h.pageSize ∣ numTokens)
    (cert : h.tokenReclaimSatisfied s numTokens = true) :
    ∃ t, h.ensureCapacity fired s numTokens numTokens = some (t, true) := by
  have pos : 0 < h.pageSize := h.full.pageSize_pos
  have whole : pagesFor h.pageSize numTokens * h.pageSize = numTokens := by
    obtain ⟨k, rfl⟩ := aligned
    rw [mul_comm h.pageSize k, Alloc.pagesFor_mul pos]
  have pages : numTokens / h.pageSize * h.pageSize = numTokens := Nat.div_mul_cancel aligned
  have available : ∀ t : Chain γ,
      h.fitsChainDemand t (numTokens / h.pageSize) (numTokens / h.pageSize) = true →
      numTokens ≤ h.availableSize t := fun t fits => pages ▸ available_of_fits fits
  obtain ⟨s', flushes, good', same, full, state⟩ := flushEnds fired good
  have window : h.sa s' = h.sa s := by
    rw [sa, sa, (swa_eq_mid mid).1]
    exact same
  have flushed : Flushed h written s s' := ⟨good, good', mid, window, full, state⟩
  unfold ensureCapacity
  rw [mid]
  dsimp only
  unfold ensureCapacityChain
  split
  · exact ⟨s, rfl⟩
  rw [if_neg (not_not.mpr rfl)]
  rw [whole]
  rw [tokenReclaimSatisfied, Bool.or_eq_true, isSome_iff_exists] at cert
  have cap : h.tokenIdCapacity s numTokens = true := by
    rcases cert with ends | ⟨target, asked⟩
    · unfold tokenEndReclaimSatisfied at ends
      split at ends
      · cases ends
      · rename_i cap
        simpa using cap
    · exact (highTarget_iff.mp asked).1.cap
  rw [if_neg (by simp [cap])]
  split
  · exact ⟨s, rfl⟩
  rename_i short
  split
  · rename_i ends
    have fits := available s' (flushed.fits_of_endReclaim ends short)
    rw [flushes, map_some, decide_eq_true fits]
    exact ⟨s', rfl⟩
  rename_i noEnds
  obtain ⟨target, asked⟩ := cert.resolve_left noEnds
  rw [asked, isSome_some, if_pos rfl, ensureHighTarget, flushes, bind_some]
  have certified := (highTarget_iff.mp asked).1
  have cap' := flushed.tokenIdCapacity cap certified.floor
  rw [if_neg (by simp [cap'])]
  split
  · exact ⟨s', rfl⟩
  rename_i short'
  -- what the flush gave back was not enough, so that the float has to move
  have after_le := (flushed.frontiers_le numTokens).1
  have still : h.highAfter s' numTokens false < (h.sa s').highWmPage + numTokens / h.pageSize := by
    refine Nat.lt_of_not_le fun high => short' (available s' (fits_of_high good' mid cap' ?_ ?_ high))
    · rw [window]
      exact certified.seen
    · exact certified.floor.trans after_le
  obtain ⟨target', t, n, asked', called, capT, fits⟩ := (flushed.highTarget certified still cap').delivers good' mid
  rw [asked']
  dsimp only
  rw [called, map_some, capT, decide_eq_true (available t fits)]
  exact ⟨t, rfl⟩

/-- **A byte shortfall** is one in every state with the same live pages. -/
lemma not_canReserve_of_shortfall (good : Chain.Good h.layout s' written)
    (mid : h.layout.mid = some h.swa) (unsharded : ∀ m, ∀ c ∈ h.layout.pool m, c.dcpSize = 1)
    (same : Chain.SameLive h.layout s s')
    (shortfall : 0 < h.tokenAllocationByteShortfall s numTokens) :
    h.canReserve s' numTokens numTokens = false := by
  rw [← Bool.not_eq_true]
  intro fits
  have pos : 0 < h.pageSize := h.full.pageSize_pos
  have fewer : numTokens / h.pageSize ≤ pagesFor h.pageSize numTokens :=
    Nat.div_le_div_right (by omega)
  have bytes := bytes_of_fits good mid (fitsChainDemand_mono fewer fewer fits)
  have rows : ∀ m, ∀ c ∈ h.layout.pool m, ∀ k, k * c.pageSize * c.entryBytes = k * c.entryBytesPerPage := by
    intro m c here k
    rw [SubPool.pageSize, SubPool.entryBytesPerPage, unsharded m c here, mul_one, mul_assoc,
      mul_comm c.entryBytes]
  have full := same .high h.full full_here
  have window := same h.layout.swaMember h.swa h.swa_here
  have state := same .low h.layout.low rfl
  simp only [tokenAllocationByteShortfall, rows .high h.full full_here, rows _ h.swa h.swa_here,
    rows .low h.layout.low rfl] at shortfall
  change livePagesOf h.full (fa s') = livePagesOf h.full (fa s) at full
  change livePagesOf h.swa (h.sa s') = livePagesOf h.swa (h.sa s) at window
  rw [full, window, state] at bytes
  simp only [add_mul, mul_add] at bytes shortfall
  omega

end Hybrid

/-- `UnifiedMambaSWATokenToKVPoolAllocator`: the window pool floats between the per-request state,
one slot a page, and the full pool, and no member is sharded over ranks. -/
structure TriPool extends Hybrid where
  mid_swa : layout.mid = some swa
  state_owner : layout.low.isIdOwner = true
  state_slots : layout.low.poolPageSize = 1
  unsharded : ∀ m, ∀ c ∈ layout.pool m, c.dcpSize = 1

namespace TriPool

variable {γ : Type} [Zero γ] {p : TriPool}

/-- Calls that only move pages: flushes, float relocations and packing the float. -/
def Compaction : CompositeOp γ → Prop
  | .call (.flush _ _ _) | .call (.makeRoom _ _) | .call (.compactHoles _) => True
  | _ => False

lemma sameLive_step {x x' : Composite γ} {op : CompositeOp γ} (kept : p.Kept x)
    (moves : Compaction op) (ran : p.step x op = some x') :
    Chain.SameLive p.layout x.run.chain x'.run.chain := by
  have good := kept.run.good
  cases op with
  | call op =>
    obtain ⟨r, called, rfl⟩ := map_eq_some_iff.mp ran
    obtain ⟨s, stepped, rfl⟩ := map_eq_some_iff.mp called
    cases op with
    | flush m fired urgent =>
      obtain ⟨⟨t, n⟩, flushed, rfl⟩ := map_eq_some_iff.mp stepped
      exact (good.flush flushed).1.sameLive
    | makeRoom side minBytes =>
      obtain ⟨⟨t, n⟩, opened, rfl⟩ := map_eq_some_iff.mp stepped
      exact (good.makeRoom opened).1.sameLive
    | compactHoles side =>
      obtain ⟨⟨t, n⟩, compacted, rfl⟩ := map_eq_some_iff.mp stepped
      exact (good.compactHoles compacted).sameLive
    | _ => exact absurd moves id
  | _ => exact absurd moves id

/-- Compaction frees nothing and allocates nothing. -/
lemma sameLive_path {x x' : Composite γ} (kept : p.Kept x)
    (path : p.machine.Path Compaction x x') : Chain.SameLive p.layout x.run.chain x'.run.chain := by
  induction path with
  | refl => exact .refl _
  | tail before moves ok ran ih =>
    exact ih.trans (sameLive_step (before.keeps (kept_inductive _) kept) moves ran)

/-- **The reclaim certificates are sound.** In every reachable state: if `_token_reclaim_satisfied`
holds for whole pages of tokens, `ensure_capacity` for as many full and window tokens returns true;
if `_token_allocation_byte_shortfall` is positive, then after any sequence of compactions the demand
does not fit, `ensure_capacity` returns false and `alloc` hands out nothing. -/
theorem reachable_certificates (p : TriPool) (x : Composite γ) (reached : p.machine.Reachable x)
    (numTokens : Nat) :
    (p.pageSize ∣ numTokens → p.tokenReclaimSatisfied x.run.chain numTokens = true → ∀ fired,
      ∃ s, p.ensureCapacity fired x.run.chain numTokens numTokens = some (s, true)) ∧
    (0 < p.tokenAllocationByteShortfall x.run.chain numTokens →
      ∀ x', p.machine.Path Compaction x x' → p.canReserve x'.run.chain numTokens numTokens = false ∧
        (∀ fired s fits, p.ensureCapacity fired x'.run.chain numTokens numTokens = some (s, fits) →
          fits = false) ∧
        ∀ fired s out, p.alloc fired x'.run.chain numTokens = some (s, out) → out = none) := by
  have kept := reachable_kept reached
  refine ⟨fun aligned cert fired => ensureCapacity_of_reclaim fired kept.run.good p.mid_swa
    aligned cert, fun shortfall x' path => ?_⟩
  have good := (path.keeps (kept_inductive _) kept).run.good
  have same := sameLive_path kept path
  have refuses : ∀ fired s fits,
      p.ensureCapacity fired x'.run.chain numTokens numTokens = some (s, fits) → fits = false := by
    intro fired s fits ran
    cases fits with
    | false => rfl
    | true =>
      -- a state in which the check passes has the same live pages
      unfold ensureCapacity at ran
      rw [p.mid_swa] at ran
      obtain ⟨relieved, passes⟩ := ensureCapacityChain_spec ran
      have rests := relieved.rests good
      have short := not_canReserve_of_shortfall rests.good p.mid_swa p.unsharded
        (same.trans rests.sameLive) shortfall
      exact (passes rfl).symm.trans short
  refine ⟨not_canReserve_of_shortfall good p.mid_swa p.unsharded same shortfall, refuses, ?_⟩
  intro fired s out ran
  obtain ⟨⟨t, fits⟩, checked, rest⟩ := Option.bind_eq_some_iff.mp ran
  obtain rfl := refuses fired t fits checked
  exact ((Prod.mk.inj (Option.some.inj rest)).2).symm

/-- A sub-pool of a buffer of eight pages of eight bytes, the lowest reserved. -/
def octetPool (rows : Nat) (half : rows = 1 ∨ rows = 2) (growDirection : Grow) (isIdOwner : Bool) :
    SubPool where
  totalBytes := 64
  reservedFloor := 8
  entryBytes := 8 / rows
  poolPageSize := rows
  dcpSize := 1
  growDirection := growDirection
  isIdOwner := isIdOwner
  lazyCompaction := growDirection != .float
  zeroPagesOnAlloc := false
  lazyMaxMovesPerCall := 4
  entryBytes_pos := by rcases half with rfl | rfl <;> decide
  poolPageSize_pos := by rcases half with rfl | rfl <;> decide
  dcpSize_pos := Nat.one_pos
  page_le_floor := by rcases half with rfl | rfl <;> decide
  room := by rcases half with rfl | rfl <;> decide
  float_eager := by rintro rfl; rfl

def octetTri : TriPool where
  layout :=
    { low := octetPool 1 (.inl rfl) .up true
      mid := some (octetPool 2 (.inr rfl) .float false)
      high := octetPool 2 (.inr rfl) .down true
      low_up := rfl
      mid_float := by simp [octetPool]
      high_down := rfl
      same_buffer := ⟨rfl, rfl⟩
      mid_buffer := by simp [octetPool] }
  swa := octetPool 2 (.inr rfl) .float false
  swa_here := rfl
  full_owner := rfl
  swa_foreign := rfl
  same_page := rfl
  lazy_agrees := nofun
  mid_swa := rfl
  state_owner := rfl
  state_slots := rfl
  unsharded := by
    rintro (_ | _ | _) c here <;> cases here <;> rfl

def octetStart : Composite Nat where
  run :=
    { chain := fun m => match m with
        | .low => clear octetTri.layout.low fun _ => 0
        | .mid => clear octetTri.swa fun _ => 0
        | .high => clear octetTri.layout.high fun _ => 0
      written := fun _ _ => none }
  loading := ∅

lemma reachable_octetStart : octetTri.machine.Reachable octetStart :=
  .start ⟨⟨fun _ _ => 0, fun m c here => by cases m <;> cases here <;> rfl, fun _ _ => rfl⟩, rfl⟩

/-- State slots taken from the start. -/
def takeSlots (n : Nat) : CompositeOp Nat := .call (.alloc .low (fun _ => true) n)

lemma takeSlots_allowed (x : Composite Nat) (n : Nat) : octetTri.Allowed x (takeSlots n) :=
  ⟨trivial, trivial, rfl, by simp [Run.freedBy], by simp [Run.boundBy]⟩

/-- Four state slots taken and the first two freed: a flush of the state pool makes room for two
pages each, and no compaction makes room for three. -/
theorem reachable_certificates_holes : ∃ x : Composite Nat, octetTri.machine.Reachable x ∧
    ¬ 4 ≤ octetTri.availableSize x.run.chain ∧
    octetTri.tokenReclaimSatisfied x.run.chain 4 = true ∧
    (∃ s, octetTri.ensureCapacity (fun _ => true) x.run.chain 4 4 = some (s, true)) ∧
    0 < octetTri.tokenAllocationByteShortfall x.run.chain 6 ∧
    octetTri.canReserve x.run.chain 6 6 = false := by
  have four := reachable_octetStart.step (a := takeSlots 4) (takeSlots_allowed _ _) rfl
  have freed := four.step (a := CompositeOp.call (.free .low [1, 2]))
    ⟨fun c here => by cases here; decide, trivial, rfl, by simp [Run.freedBy],
      by simp [Run.boundBy]⟩ rfl
  have satisfied := (reachable_certificates octetTri _ freed 4).1 (by decide) (by decide +kernel)
  have refused := (reachable_certificates octetTri _ freed 6).2 (by decide) _ .refl
  exact ⟨_, freed, by decide +kernel, by decide +kernel, satisfied _, by decide, refused.1⟩

/-- A token count that is not whole pages: with six state slots taken one page is left, and
`_token_reclaim_satisfied` rounds one token down to no page where `ensure_capacity` rounds it up. -/
theorem reclaim_rounds_down : ∃ x : Composite Nat, octetTri.machine.Reachable x ∧
    octetTri.tokenReclaimSatisfied x.run.chain 1 = true ∧
    (octetTri.ensureCapacity (fun _ => true) x.run.chain 1 1).map Prod.snd = some false := by
  have six := reachable_octetStart.step (a := takeSlots 6) (takeSlots_allowed _ _) rfl
  exact ⟨_, six, by decide +kernel, by decide +kernel⟩

end TriPool

end Sglang.Unified
