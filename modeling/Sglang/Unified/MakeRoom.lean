/-
# What `make_room` delivers

* `Pool.Retreats` — the live pages nearest the demanded side find room beyond themselves.
* `Pool.Inv.openSide` — the room a call opens.
-/

import Sglang.Unified.Float

namespace Sglang.Unified

open List
open Sglang.Alloc (pagesFor unique mem_unique nodup_unique)

namespace Pool

variable {γ : Type} {c : SubPool} {s s' : Pool γ} {B H R : Finset Nat} {written : Nat → Option γ}

/-! ### The boundary relocation -/

/-- `p` is farther from the side than `q`. -/
def farther (side : Side) (p q : Nat) : Bool :=
  match side with
  | .low => decide (q < p)
  | .high => decide (p < q)

/-- The live pages nearest to the side, the nearest first. -/
def nearest (side : Side) (s : Pool γ) (n : Nat) : List Nat :=
  match side with
  | .low => s.livePagesSorted.take n
  | .high => s.livePagesSorted.reverse.take n

/-- The holes farther from the side than each of the `n` live pages nearest to it. -/
def farHoles (side : Side) (s : Pool γ) (n : Nat) : List Nat :=
  s.freePhysPages.filter fun hole => (s.nearest side n).all (farther side hole)

variable (c) in
/-- The gap on a side, in pages. -/
def gapSide (b : Bounds) (side : Side) (s : Pool γ) : Nat :=
  match side with
  | .low => (s.gapPages c b).1
  | .high => (s.gapPages c b).2

def Side.far : Side → Side
  | .low => .high
  | .high => .low

variable {b : Bounds} {side : Side} {n p q : Nat} {pages srcs dsts : List Nat}

lemma gapSideBytes_eq : s.gapSideBytes c b side = s.gapSide c b side * c.entryBytesPerPage := by
  cases side <;> rfl

lemma length_unique (nodup : pages.Nodup) : (unique pages).length = pages.length := by
  rw [unique, length_insertionSort, nodup.dedup]

/-- The far-side holes a boundary relocation fills. -/
def filledHoles (side : Side) (s : Pool γ) (n : Nat) : List Nat :=
  (match side with
    | .low => (unique (s.farHoles side n)).reverse
    | .high => unique (s.farHoles side n)).take (s.nearest side n).length

/-- The pages of the far gap next to the span. -/
def freshPages (side : Side) (s : Pool γ) (n : Nat) : List Nat :=
  match side with
  | .low => List.range' s.highWmPage n
  | .high => (List.range' (s.lowWmPage - n) n).reverse

section

variable (le : n ≤ s.livePagesSorted.length)
include le

lemma boundaryMoves_eq : s.boundaryMoves c b side n =
      if s.gapSide c b side.far < (s.nearest side n).length - (s.filledHoles side n).length then none
      else some (s.nearest side n, s.filledHoles side n ++
        s.freshPages side ((s.nearest side n).length - (s.filledHoles side n).length)) := by
  unfold Pool.boundaryMoves
  dsimp only
  cases side <;> rw [min_eq_left le] <;> rfl

lemma boundaryMoves_sources
    (ran : s.boundaryMoves c b side n = some (srcs, dsts)) : srcs = s.nearest side n := by
  rw [boundaryMoves_eq le] at ran
  split at ran
  · cases ran
  · exact (Prod.mk.inj (Option.some.inj ran)).1.symm

lemma length_nearest : (s.nearest side n).length = n := by
  cases side <;> simp [nearest, le]

lemma length_filledHoles (nodup : s.freePhysPages.Nodup) :
    (s.filledHoles side n).length = min n (s.farHoles side n).length := by
  have holes : (unique (s.farHoles side n)).length = (s.farHoles side n).length :=
    length_unique (nodup.filter _)
  cases side <;> simp [filledHoles, length_nearest le, holes]

end

/-- The boundary relocation has a destination for each of its sources exactly when the holes
beyond them and the far gap are enough. -/
lemma boundaryMoves_isSome_iff (le : n ≤ s.livePagesSorted.length) (nodup : s.freePhysPages.Nodup) :
    (s.boundaryMoves c b side n).isSome = true ↔
      n ≤ (s.farHoles side n).length + s.gapSide c b side.far := by
  rw [boundaryMoves_eq le, length_nearest le, length_filledHoles le nodup]
  split
  · simp
    omega
  · simp
    omega

lemma mem_nearest (mem : p ∈ s.nearest side n) : p ∈ s.livePagesSorted := by
  cases side with
  | low => exact mem_of_mem_take mem
  | high => exact mem_reverse.mp (mem_of_mem_take mem)

/-- What stays is farther from the side than what moves. -/
lemma farther_of_stays (live : p ∈ s.livePagesSorted) (stays : p ∉ s.nearest side n)
    (moves : q ∈ s.nearest side n) : farther side p q = true := by
  have sorted := livePagesSorted_sorted (s := s)
  cases side with
  | low =>
    rw [← take_append_drop n s.livePagesSorted] at live sorted
    have later := (mem_append.mp live).resolve_left stays
    exact decide_eq_true ((pairwise_append.mp sorted).2.2 q moves p later)
  | high =>
    have reversed := pairwise_reverse.mpr sorted
    rw [← mem_reverse, ← take_append_drop n s.livePagesSorted.reverse] at live
    rw [← take_append_drop n s.livePagesSorted.reverse] at reversed
    have later := (mem_append.mp live).resolve_left stays
    exact decide_eq_true ((pairwise_append.mp reversed).2.2 q moves p later)

/-- Every destination is farther from the side than every source. -/
lemma Placed.farther_of_arrives (placed : Placed c s H) (float : c.growDirection = .float)
    (le : n ≤ s.livePagesSorted.length) (isOpaque : s.isFrontierTransparent c = false)
    (ran : s.boundaryMoves c b side n = some (srcs, dsts)) (arrives : p ∈ dsts) (moves : q ∈ srcs) :
    farther side p q = true := by
  obtain ⟨inside, -⟩ := placed.span float
  rw [boundaryMoves_eq le] at ran
  split at ran
  · cases ran
  rename_i fits
  cases ran
  have held := inside q ((placed.mem_livePagesSorted float).mp (mem_nearest moves))
  rcases mem_append.mp arrives with hole | fresh
  · have far : p ∈ s.farHoles side n := by
      cases side with
      | low => exact mem_unique.mp (mem_reverse.mp (mem_of_mem_take hole))
      | high => exact mem_unique.mp (mem_of_mem_take hole)
    exact all_eq_true.mp (mem_filter.mp far).2 q moves
  · cases side with
    | low =>
      rw [freshPages, mem_range'_1] at fresh
      exact decide_eq_true (by omega)
    | high =>
      simp only [gapSide, Side.far, gapPages, isOpaque, Bool.false_eq_true, if_false] at fits
      rw [freshPages, mem_reverse, mem_range'_1] at fresh
      exact decide_eq_true (by omega)

/-! ### The room opened -/

variable (c) in
/-- What the call asks for fits the region beside the live pages, and pages may move. -/
def Possible (b : Bounds) (minBytes : Nat) (s : Pool γ) : Prop :=
  s.movesBlocked = false ∧
    minBytes ≤ ((regionBoundsPages c b).2 - (regionBoundsPages c b).1 - s.livePages) * c.entryBytesPerPage

variable (c) in
/-- The pages by which a call has to push the span back. -/
def needPages (b : Bounds) (side : Side) (minBytes : Nat) (s : Pool γ) : Nat :=
  pagesFor c.entryBytesPerPage (minBytes - s.gapSideBytes c b side)

variable (c) in
/-- When fewer pages than all have to move, there are enough holes beyond them and pages in
the far gap. -/
def Retreats (b : Bounds) (side : Side) (minBytes : Nat) (s : Pool γ) : Prop :=
  s.needPages c b side minBytes < s.livePages → s.needPages c b side minBytes ≤
      (s.farHoles side (s.needPages c b side minBytes)).length + s.gapSide c b side.far

instance (b : Bounds) (minBytes : Nat) (s : Pool γ) : Decidable (Possible c b minBytes s) :=
  inferInstanceAs (Decidable (_ ∧ _))

instance (b : Bounds) (side : Side) (minBytes : Nat) (s : Pool γ) :
    Decidable (Retreats c b side minBytes s) :=
  inferInstanceAs (Decidable (_ → _))

/-- The tables, the holes and the span are as before. -/
structure Untouched (s s' : Pool γ) : Prop where
  v2p : s'.v2p = s.v2p
  p2v : s'.p2v = s.p2v
  freePhysPages : s'.freePhysPages = s.freePhysPages
  lowWmPage : s'.lowWmPage = s.lowWmPage
  highWmPage : s'.highWmPage = s.highWmPage

lemma Untouched.refl (s : Pool γ) : Untouched s s := ⟨rfl, rfl, rfl, rfl, rfl⟩

/-- A span that keeps `n` pages clear of the region's edge leaves a gap of `n` pages. -/
lemma le_gapSide (fits : n ≤ (regionBoundsPages c b).2 - (regionBoundsPages c b).1)
    (clear : s.isFrontierTransparent c = false → match side with
      | .low => (regionBoundsPages c b).1 + n ≤ s.lowWmPage
      | .high => s.highWmPage + n ≤ (regionBoundsPages c b).2) : n ≤ s.gapSide c b side := by
  unfold gapSide gapPages
  cases seen : s.isFrontierTransparent c with
  | true => cases side <;> simpa using fits
  | false =>
    have clear := clear seen
    cases side <;> simp only [Bool.false_eq_true, if_false] at clear ⊢ <;> omega

lemma needPages_covers (s : Pool γ) (b : Bounds) (side : Side) (minBytes : Nat) :
    minBytes ≤ (s.gapSide c b side + s.needPages c b side minBytes) * c.entryBytesPerPage := by
  have enough : _ ≤ s.needPages c b side minBytes * _ :=
    Sglang.Alloc.le_pagesFor_mul c.entryBytesPerPage_pos _
  rw [gapSideBytes_eq] at enough
  rw [add_mul]
  omega

/-- Pages that all lie between two bounds. -/
lemma length_le_of_between (low high : Nat) (nodup : pages.Nodup)
    (between : ∀ p ∈ pages, low ≤ p ∧ p < high) : pages.length ≤ high - low := by
  rw [← toFinset_card_of_nodup nodup, ← Nat.card_Ico]
  exact Finset.card_le_card fun p mem => Finset.mem_Ico.mpr (between p (mem_toFinset.mp mem))

/-- A boundary relocation pushes the span back by as many pages as it moves. -/
lemma Placed.retreats (placed : Placed c s H)
    (float : c.growDirection = .float) (isOpaque : s.isFrontierTransparent c = false)
    (le : n ≤ s.livePagesSorted.length) (pos : 0 < n)
    (ran : s.boundaryMoves c b side n = some (srcs, dsts))
    (pages_eq : pages = unique (s.livePagesSorted.filter (· ∉ srcs) ++ dsts)) (nonempty : pages ≠ []) :
    match side with
    | .low => s.lowWmPage + n ≤ pages.headD 0
    | .high => pages.getLastD 0 + 1 + n ≤ s.highWmPage := by
  obtain ⟨inside, -⟩ := placed.span float
  obtain rfl := boundaryMoves_sources le ran
  have length : (s.nearest side n).length = n := length_nearest le
  have live : ∀ q ∈ s.nearest side n, s.lowWmPage ≤ q ∧ q < s.highWmPage := fun q moves =>
    inside q ((placed.mem_livePagesSorted float).mp (mem_nearest moves))
  have nodup : (s.nearest side n).Nodup := by
    have sorted := livePagesSorted_sorted (s := s).imp ne_of_lt
    cases side with
    | low => exact sorted.sublist (take_sublist ..)
    | high => exact (nodup_reverse.mpr sorted).sublist (take_sublist ..)
  have far : ∀ p ∈ pages, ∀ q ∈ s.nearest side n, farther side p q = true := by
    intro p mem q moves
    rw [pages_eq, mem_unique, mem_append, mem_filter, decide_eq_true_eq] at mem
    rcases mem with ⟨here, stays⟩ | arrives
    · exact farther_of_stays here stays moves
    · exact placed.farther_of_arrives float le isOpaque ran arrives moves
  cases side with
  | low =>
    have count := length_le_of_between s.lowWmPage (pages.headD 0) nodup
      fun q moves => ⟨(live q moves).1, of_decide_eq_true (far _ (headD_mem nonempty) q moves)⟩
    omega
  | high =>
    have count := length_le_of_between (pages.getLastD 0 + 1) s.highWmPage nodup
      fun q moves => ⟨of_decide_eq_true (far _ (getLastD_mem nonempty) q moves), (live q moves).2⟩
    omega

/-- The pool is kept, nothing is unbound and the float stays between its neighbours. -/
def Stays (c : SubPool) (b : Bounds) (s s' : Pool γ) (written : Nat → Option γ) (R : Finset Nat) : Prop :=
  (∃ B', Inv c s' written B' R) ∧ Unbinds s s' [] ∧ (s'.isFrontierTransparent c = false → Within c b s')

/-- All live pages packed against the far edge of the region. -/
lemma Inv.leapfrog (side : Side) (inv : Inv c s written B ∅) (float : c.growDirection = .float)
    (unblocked : s.movesBlocked = false) (within : Within c b s) :
    ∃ s' n, s.relocateToPositions c s.livePagesSorted (match side with
        | .high => range' (regionBoundsPages c b).1 s.livePages
        | .low => range' ((regionBoundsPages c b).2 - s.livePages) s.livePages) = some (s', n) ∧
      Stays c b s s' written ∅ ∧
      (regionBoundsPages c b).2 - (regionBoundsPages c b).1 - s.livePages ≤ s'.gapSide c b side := by
  have placed : Placed c s B := by simpa using inv.placed
  have count := placed.length_livePagesSorted float
  rw [placed.livePages_eq float, ← count]
  obtain ⟨lowIn, highIn⟩ := within.region placed float
  obtain ⟨inside, -, -, room⟩ := placed.span float
  obtain ⟨lowMin, highNum⟩ := region_inside c b
  cases side
  case' high =>
    obtain ⟨s', n, ran, kept, unbinds, span⟩ := inv.relocate float unblocked
      (.inl fun p mem => lowIn.trans (inside p mem).1) lowMin (by omega)
  case' low =>
    have below : ∀ p ∈ B, p < (regionBoundsPages c b).2 - s.livePagesSorted.length
        + s.livePagesSorted.length := by
      intro p mem
      have := (inside p mem).2
      omega
    obtain ⟨s', n, ran, kept, unbinds, span⟩ :=
      inv.relocate float unblocked (.inr below) (by omega) (by omega)
  all_goals
    refine ⟨s', n, ran, ⟨kept, unbinds, fun isOpaque => ?_⟩, le_gapSide (Nat.sub_le _ _) fun isOpaque => ?_⟩
    all_goals obtain ⟨-, lowEq, highEq⟩ := span isOpaque
    · refine within_of_region float (le_trans ?_ lowEq.ge) (highEq.le.trans ?_) <;> omega
    · omega

/-- The boundary relocation opens a gap larger by the pages moved. -/
lemma Inv.boundary (inv : Inv c s written B ∅)
    (float : c.growDirection = .float) (unblocked : s.movesBlocked = false)
    (isOpaque : s.isFrontierTransparent c = false) (within : Within c b s) (fewer : n ≤ s.livePages)
    (pos : 0 < n) (ran : s.boundaryMoves c b side n = some (srcs, dsts)) :
    ∃ t, s.movePagesAndRebind srcs dsts = some t ∧
      Stays c b s (((t.clearP2v srcs).spanAround
        (unique (s.livePagesSorted.filter (· ∉ srcs) ++ dsts))).absorbSpanBoundaryHoles c).1 written ∅ ∧
      s.gapSide c b side + n ≤ ((((t.clearP2v srcs).spanAround
        (unique (s.livePagesSorted.filter (· ∉ srcs) ++ dsts))).absorbSpanBoundaryHoles c).1).gapSide
          c b side := by
  have placed : Placed c s B := by simpa using inv.placed
  have le : n ≤ s.livePagesSorted.length := by
    rwa [placed.length_livePagesSorted float, ← placed.livePages_eq float]
  have live : B ≠ ∅ := by
    intro empty
    rw [(placed.transparent_iff float).mpr empty] at isOpaque
    cases isOpaque
  obtain ⟨movable, region⟩ := placed.boundaryMoves float isOpaque within ran
  obtain ⟨t, moved, around, unbinds, aroundIn⟩ :=
    inv.relocateBoundary float unblocked live within movable region rfl
  obtain ⟨absorbed, shrunk, unbinds'⟩ := around.absorbSpan float
  refine ⟨t, moved, ⟨⟨_, absorbed⟩, unbinds.trans unbinds', aroundIn.shrunk shrunk⟩, ?_⟩
  generalize pages_eq : unique (s.livePagesSorted.filter (· ∉ srcs) ++ dsts) = pages at *
  have nonempty : pages ≠ [] := by
    have moves : srcs.length = n := boundaryMoves_sources le ran ▸ length_nearest le
    obtain ⟨p, arrives⟩ := exists_mem_of_length_pos
      (Nat.lt_of_lt_of_eq pos (moves.symm.trans movable.length))
    exact ne_nil_of_mem (pages_eq ▸ mem_unique.mpr (mem_append_right _ arrives))
  have back := placed.retreats float isOpaque le pos ran pages_eq.symm nonempty
  obtain ⟨lowIn, highIn⟩ := within.region placed float
  obtain ⟨-, -, -, room⟩ := placed.span float
  rw [← placed.livePages_eq float] at room
  have gap : s.gapSide c b side = match side with
      | .low => s.lowWmPage - (regionBoundsPages c b).1
      | .high => (regionBoundsPages c b).2 - s.highWmPage := by
    cases side <;> simp only [gapSide, gapPages, isOpaque, Bool.false_eq_true, if_false]
  refine le_gapSide ?_ fun isOpaque' => ?_
  · cases side <;> simp only at gap <;> omega
  · obtain ⟨-, low, high⟩ := shrunk isOpaque'
    simp only [lowPage, highPage, float] at low high
    change pages.headD 0 ≤ _ at low
    change _ ≤ pages.getLastD 0 + 1 at high
    cases side <;> simp only at gap back ⊢ <;> omega

/-- **`make_room` behind its gate** opens the room asked for, if the region has it, exactly when
the pages that have to move find a place; an ask that does not fit changes nothing. -/
lemma Inv.openSide (side : Side) (minBytes : Nat) (inv : Inv c s written B ∅)
    (float : c.growDirection = .float) (unblocked : s.movesBlocked = false)
    (within : s.isFrontierTransparent c = false → Within c b s) :
    ∃ s' n, s.openSide c b side minBytes = some (s', n) ∧ Stays c b s s' written ∅ ∧
      n = s'.gapSideBytes c b side ∧
      (Possible c b minBytes s → (minBytes ≤ n ↔ Retreats c b side minBytes s)) ∧
      (¬ Possible c b minBytes s → Untouched s s') := by
  have placed : Placed c s B := by simpa using inv.placed
  have stays : Stays c b s s written ∅ := ⟨⟨B, inv⟩, .refl s, within⟩
  unfold Pool.openSide
  dsimp only
  split
  · rename_i idle
    refine ⟨s, _, rfl, stays, rfl, fun possible => ?_, fun _ => .refl s⟩
    rw [Bool.or_eq_true, decide_eq_true_eq] at idle
    have enough : minBytes ≤ s.gapSideBytes c b side := by
      refine idle.elim id fun hidden => possible.2.trans ?_
      -- an empty float leaves the whole region
      exact Nat.mul_le_mul_right _ (le_gapSide (Nat.sub_le _ _) fun isOpaque => by
        rw [hidden] at isOpaque
        cases isOpaque)
    refine iff_of_true enough fun _ => ?_
    have asks : s.needPages c b side minBytes ≤ 0 := by
      rw [needPages, Sglang.Alloc.pagesFor_le_iff c.entryBytesPerPage_pos]
      omega
    exact asks.trans (Nat.zero_le _)
  rename_i short
  rw [Bool.or_eq_true, decide_eq_true_eq, not_or, Bool.not_eq_true] at short
  obtain ⟨short, isOpaque⟩ := short
  split
  · rename_i much
    exact ⟨s, _, rfl, stays, rfl, fun possible => absurd possible.2 (not_le.mpr much), fun _ => .refl s⟩
  rename_i fits
  have possible : Possible c b minBytes s := ⟨unblocked, not_lt.mp fits⟩
  split
  · rename_i all
    obtain ⟨s', n, ran, moved, room⟩ := inv.leapfrog side float unblocked (within isOpaque)
    refine ⟨s', _, congrArg (Option.map _) ran, moved, rfl, fun _ => ?_, absurd possible⟩
    exact iff_of_true (possible.2.trans (Nat.mul_le_mul_right _ room)) (absurd · (not_lt.mpr all))
  rename_i fewer
  have fewer := not_le.mp fewer
  have le : s.needPages c b side minBytes ≤ s.livePagesSorted.length := by
    rw [placed.length_livePagesSorted float, ← placed.livePages_eq float]
    exact fewer.le
  have found : (s.boundaryMoves c b side _).isSome = true ↔ _ :=
    boundaryMoves_isSome_iff le (nodup_append.mp placed.split.nodup).1
  split
  · rename_i refused
    rw [needPages, refused] at found
    refine ⟨s, _, rfl, stays, rfl, fun _ => iff_of_false short fun retreats => ?_, absurd possible⟩
    cases found.mpr (retreats fewer)
  · rename_i srcs dsts moves
    have pos : 0 < s.needPages c b side minBytes := by
      refine pos_of_ne_zero fun still => short ?_
      have covers := needPages_covers (c := c) s b side minBytes
      rwa [still, add_zero, ← gapSideBytes_eq] at covers
    obtain ⟨t, moved, kept, room⟩ :=
      inv.boundary float unblocked isOpaque (within isOpaque) fewer.le pos moves
    refine ⟨_, _, congrArg (Option.map _) moved, kept, rfl, fun _ => ?_, absurd possible⟩
    refine iff_of_true ?_ fun _ => found.mp (Option.isSome_iff_exists.mpr ⟨_, moves⟩)
    exact (needPages_covers s b side minBytes).trans (Nat.mul_le_mul_right _ room)

/-- **`make_room`.** -/
lemma Inv.makeRoom_delivers (side : Side) (minBytes : Nat) (inv : Inv c s written B R)
    (float : c.growDirection = .float) (within : s.isFrontierTransparent c = false → Within c b s) :
    ∃ s' n, s.makeRoom c b side minBytes = some (s', n) ∧ Stays c b s s' written R ∧
      n = s'.gapSideBytes c b side ∧
      (Possible c b minBytes s → (minBytes ≤ n ↔ Retreats c b side minBytes s)) ∧
      (¬ Possible c b minBytes s → Untouched s s') := by
  unfold Pool.makeRoom
  cases blocked : s.movesBlocked with
  | true =>
    refine ⟨s, _, rfl, ⟨⟨B, inv⟩, .refl s, within⟩, rfl, fun possible => ?_, fun _ => .refl s⟩
    have unblocked := possible.1
    rw [blocked] at unblocked
    cases unblocked
  | false =>
    obtain rfl := inv.reserved_empty blocked
    obtain ⟨forward, settled⟩ := settleInflightForward_eq
    obtain ⟨s', n, ran, ⟨kept, unbinds, within⟩, rfl, delivers, refuses⟩ :=
      (inv.forward forward).openSide side minBytes float blocked within
    refine ⟨s', _, ?_, ⟨kept, ⟨unbinds.fewer, unbinds.others⟩, within⟩, rfl, delivers, fun asked => ?_⟩
    · rw [settled]
      exact ran
    · obtain ⟨v2p, p2v, holes, low, high⟩ := refuses asked
      exact ⟨v2p, p2v, holes, low, high⟩

end Pool

end Sglang.Unified
