/-
# Moving a float

* `Pool.Mapped.moveOneByOne` — moving pages one after the other is safe when no
  destination is the source of a later move.
* `Pool.Inv.relocate` — an order-preserving relocation onto a block below or above the
  live pages.
* `Pool.Inv.flush`, `Pool.Inv.compactHoles` — what the chain calls.
-/

import Sglang.Unified.Flush

namespace Sglang.Unified

open List Prod

open Finset (mem_sdiff mem_Ico)

open Lib (mem_shifts shifts)

open Option (map_eq_some_iff)
open Sglang.Alloc (pagesFor unique mem_unique nodup_unique)
open Sglang.Lib (scatter unpair bindings copyAll Linked Stored Splits)

namespace Pool

variable {γ : Type} {c : SubPool} {s s' : Pool γ} {B H R : Finset Nat} {written : Nat → Option γ}

/-! ### Single moves in order -/

/-- The pool with other tables and contents. -/
def withTables (s : Pool γ) (mem : Nat → γ) (v2p p2v : Nat → Option Nat) : Pool γ :=
  { s with mem := mem, v2p := v2p, p2v := p2v }

variable {srcs pages : List Nat} {pairs : List (Nat × Nat)} {n src : Nat} {side : Side} {b : Bounds}
  {live : List Nat} {dsts : List Nat} {holes final : List Nat} {dst : Nat} {start p low high : Nat}

/-- Pages have moved, and the bound ones are now `B`. -/
structure Moved (c : SubPool) (s s' : Pool γ) (B : Finset Nat) (written : Nat → Option γ) : Prop where
  mapped : Mapped c s' B written
  unbinds : Unbinds s s' []
  same : ∃ mem v2p p2v, s' = s.withTables mem v2p p2v

/-- A batch of moves with its sources cleared. -/
lemma Mapped.moveBatch (mapped : Mapped c s B written)
    (unblocked : s.movesBlocked = false) (movable : Movable B srcs dsts) :
    ∃ t, s.movePagesAndRebind srcs dsts = some t ∧
      Moved c s (t.clearP2v srcs) (movedTo B srcs dsts) written := by
  obtain ⟨t, moved⟩ := mapped.moves_isSome dsts unblocked movable.bound
  refine ⟨t, moved, ?_⟩
  unfold movePagesAndRebind at moved
  split at moved
  · cases moved
  obtain ⟨vMoved, found, rfl⟩ := map_eq_some_iff.mp moved
  have found := Lib.forall₂_of_mapM found
  have values : List.Forall₂ (fun v p => s.v2p v = some p) vMoved srcs :=
    found.flip.imp fun v p => (mapped.linked.inverse v p).mpr
  exact ⟨(mapped.move movable values).congr,
    unbinds_rebind found rfl fun _ _ entry => (Lib.unpair_eq_some.mp entry).2, _, _, _, rfl⟩

/-- Moves that can be made one after the other. -/
structure Sequential (B : Finset Nat) (pairs : List (Nat × Nat)) : Prop where
  bound : ∀ pair ∈ pairs, pair.1 ∈ B
  moves : ∀ pair ∈ pairs, pair.1 ≠ pair.2
  real : ∀ pair ∈ pairs, pair.2 ≠ 0
  freed : ∀ pair ∈ pairs, pair.2 ∈ B → pair.2 ∈ pairs.map Prod.fst
  order : pairs.Pairwise fun x y => x.1 ≠ y.1 ∧ x.2 ≠ y.2 ∧ x.2 ≠ y.1

section

variable (seq : Sequential B ((src, dst) :: pairs))
include seq

lemma Sequential.not_later : dst ∉ pairs.map Prod.fst := by
  intro later
  obtain ⟨pair, mem, same⟩ := mem_map.mp later
  exact ((pairwise_cons.mp seq.order).1 pair mem).2.2 same.symm

lemma Sequential.head : Movable B [src] [dst] := by
  refine ⟨?_, nodup_singleton _, nodup_singleton _, rfl, ?_, ?_⟩
  · simpa using seq.bound (src, dst) mem_cons_self
  · rw [forall_mem_singleton]
    intro held
    have gone := seq.freed (src, dst) mem_cons_self held
    rw [map_cons, mem_cons] at gone
    rcases gone with here | later
    · exact seq.moves (src, dst) mem_cons_self here.symm
    · exact seq.not_later later
  · simpa using seq.real (src, dst) mem_cons_self

lemma Sequential.tail : Sequential (movedTo B [src] [dst]) pairs := by
  have order := pairwise_cons.mp seq.order
  refine ⟨fun pair mem => ?_, fun pair mem => seq.moves pair (mem_cons_of_mem _ mem),
    fun pair mem => seq.real pair (mem_cons_of_mem _ mem), fun pair mem held => ?_, order.2⟩
  · have bound := seq.bound pair (mem_cons_of_mem _ mem)
    have other := (order.1 pair mem).1
    simp [movedTo, bound, other.symm]
  · have apart := order.1 pair mem
    simp only [movedTo, toFinset_cons, toFinset_nil, Finset.mem_union, mem_sdiff,
      Finset.mem_insert, Finset.notMem_empty, or_false] at held
    rcases held with ⟨before, notSrc⟩ | here
    · have gone := seq.freed pair (mem_cons_of_mem _ mem) before
      rw [map_cons, mem_cons] at gone
      exact gone.resolve_left notSrc
    · exact absurd here.symm apart.2.1

lemma Sequential.movedTo_cons :
    movedTo (movedTo B [src] [dst]) (pairs.map Prod.fst) (pairs.map Prod.snd)
      = movedTo B (src :: pairs.map Prod.fst) (dst :: pairs.map Prod.snd) := by
  ext p
  have : p = dst → p ∉ pairs.map fst := fun here => here ▸ seq.not_later
  simp only [movedTo, toFinset_cons, Finset.mem_union, mem_sdiff,
    Finset.mem_insert, mem_toFinset]
  tauto

end

/-- **Single moves.** Each destination is free by the time it is written. -/
lemma Mapped.moveOneByOne (mapped : Mapped c s B written) (unblocked : s.movesBlocked = false)
    (seq : Sequential B pairs) : ∃ s', s.moveOneByOne pairs = some s' ∧
      Moved c s s' (movedTo B (pairs.map Prod.fst) (pairs.map Prod.snd)) written := by
  induction pairs generalizing s B with
  | nil => exact ⟨s, rfl, by simpa [movedTo] using mapped, .refl s, s.mem, s.v2p, s.p2v, rfl⟩
  | cons pair pairs ih =>
    obtain ⟨t, moved, first, unbinds, mem, v2p, p2v, here⟩ := mapped.moveBatch unblocked seq.head
    have unblocked' : (t.clearP2v [pair.1]).movesBlocked = false := by
      rw [here]
      exact unblocked
    obtain ⟨s', rest, later, unbinds', mem', v2p', p2v', there⟩ := ih first unblocked' seq.tail
    rw [seq.movedTo_cons] at later
    refine ⟨s', Option.bind_eq_some_iff.mpr ⟨t, moved, rest⟩, later, unbinds.trans unbinds', mem', v2p',
      p2v', there.trans ?_⟩
    rw [here]
    rfl

/-! ### Relocating onto a block -/

/-- In one batch the order does not matter, if no destination is a source. -/
lemma Sequential.movable {pairs' : List (Nat × Nat)} (seq : Sequential B pairs')
    (perm : pairs'.Perm pairs) (apart : ∀ p ∈ pairs.map Prod.fst, p ∉ pairs.map Prod.snd) :
    Movable B (pairs.map Prod.fst) (pairs.map Prod.snd) := by
  refine ⟨?_, ?_, ?_, by simp, ?_, ?_⟩
  · intro p mem
    obtain ⟨pair, mem', rfl⟩ := mem_map.mp mem
    exact seq.bound pair (perm.mem_iff.mpr mem')
  · rw [← (perm.map fst).nodup_iff]
    exact pairwise_map.mpr (seq.order.imp And.left)
  · rw [← (perm.map snd).nodup_iff]
    exact pairwise_map.mpr (seq.order.imp fun h => h.2.1)
  · intro p mem taken
    obtain ⟨pair, mem', rfl⟩ := mem_map.mp mem
    have leaves := seq.freed pair (perm.mem_iff.mpr mem') taken
    exact apart _ ((perm.map fst).mem_iff.mp leaves) mem
  · intro p mem
    obtain ⟨pair, mem', rfl⟩ := mem_map.mp mem
    exact seq.real pair (perm.mem_iff.mpr mem')

/-- The order `_relocate_to_positions` chooses. -/
lemma shifts_ahead (start : Nat) (sorted : live.Pairwise (· < ·))
    (beside : (∀ p ∈ live, start ≤ p) ∨ ∀ p ∈ live, p < start + live.length) :
    (if (range' start live.length).headD 0 ≤ live.headD 0 then
        shifts live (range' start live.length)
      else (shifts live (range' start live.length)).reverse).Pairwise
      fun x y => x.2 ≠ y.1 := by
  have ordered : (shifts live (range' start live.length)).Pairwise
      fun x y => x.1 < y.1 ∧ x.2 < y.2 :=
    (Lib.pairwise_zip sorted pairwise_lt_range').filter _
  obtain _ | ⟨p, rest⟩ := live
  · simp [shifts]
  split
  · rename_i below
    have le := Lib.zip_range_le sorted fun q mem => by
      rcases mem_cons.mp mem with rfl | later
      · exact below
      · exact below.trans ((pairwise_cons.mp sorted).1 q later).le
    refine ordered.imp_of_mem fun {x y} memX _ h => ?_
    have := le x (mem_shifts.mp memX).1
    omega
  · rename_i above
    have ge := Lib.le_zip_range sorted (beside.resolve_left fun below =>
      above (below p mem_cons_self))
    refine pairwise_reverse.mpr (ordered.imp_of_mem fun {x y} _ memY h => ?_)
    have := ge y (mem_shifts.mp memY).1
    omega

lemma Placed.mem_livePagesSorted (placed : Placed c s H) (float : c.growDirection = .float) :
    p ∈ s.livePagesSorted ↔ p ∈ H := by
  have settled := placed.settled (c.float_eager float)
  have cover := placed.split.cover p
  have disjoint := placed.split.disjoint p
  have order := placed.ordered
  simp only [mem_band, lowPage, highPage, float, pendingReusePages, settled, flatMap_nil,
    append_nil] at cover disjoint order
  rw [livePagesSorted, mem_filter, mem_range'_1, spanPages, decide_eq_true_eq,
    Nat.add_sub_of_le order]
  tauto

lemma livePagesSorted_sorted : s.livePagesSorted.Pairwise (· < ·) :=
  .filter _ pairwise_lt_range'

lemma Placed.length_livePagesSorted (placed : Placed c s H) (float : c.growDirection = .float) :
    s.livePagesSorted.length = H.card := by
  rw [← toFinset_card_of_nodup (livePagesSorted_sorted.imp ne_of_lt)]
  congr 1
  ext p
  rw [mem_toFinset, placed.mem_livePagesSorted float]

/-- The moves of `_relocate_to_positions`, whichever way they are made. -/
lemma Mapped.movePairs {forwards : Bool} (mapped : Mapped c s B written)
    (unblocked : s.movesBlocked = false)
    (seq : Sequential B (if forwards then pairs else pairs.reverse)) :
    ∃ s', s.movePairs pairs forwards = some s' ∧
      Moved c s s' (movedTo B (pairs.map Prod.fst) (pairs.map Prod.snd)) written := by
  have perm : (if forwards then pairs else pairs.reverse).Perm pairs := by
    split
    · exact .refl _
    · exact reverse_perm pairs
  have sameMove : movedTo B ((if forwards then pairs else pairs.reverse).map fst)
      ((if forwards then pairs else pairs.reverse).map snd)
      = movedTo B (pairs.map fst) (pairs.map snd) := by
    rw [movedTo, movedTo, toFinset_eq_of_perm _ _ (perm.map fst),
      toFinset_eq_of_perm _ _ (perm.map snd)]
  unfold Pool.movePairs
  dsimp only
  split
  · rename_i empty
    rw [List.isEmpty_iff] at empty
    subst empty
    exact ⟨s, rfl, by simpa [movedTo] using mapped, .refl s, s.mem, s.v2p, s.p2v, rfl⟩
  split
  · rename_i disjoint
    obtain ⟨t, moved, spec⟩ := mapped.moveBatch unblocked (seq.movable perm fun p mem => by
      simpa using all_eq_true.mp disjoint p mem)
    exact ⟨_, congrArg (Option.map _) moved, spec⟩
  · rw [← sameMove]
    exact mapped.moveOneByOne unblocked seq

lemma movedTo_shifts (live_iff : ∀ p, p ∈ live ↔ p ∈ B) (nodup : live.Nodup)
    (nodup' : final.Nodup) (length : live.length = final.length) :
    movedTo B ((shifts live final).map Prod.fst) ((shifts live final).map Prod.snd)
      = final.toFinset := by
  ext p
  rw [mem_toFinset, Lib.mem_final_iff nodup nodup' length, movedTo, Finset.mem_union,
    mem_sdiff, mem_toFinset, mem_toFinset, live_iff]

/-- The moves onto a block below or above the live pages can be made one after the other. -/
lemma sequential_shifts (live_iff : ∀ p, p ∈ live ↔ p ∈ B)
    (sorted : live.Pairwise (· < ·))
    (beside : (∀ p ∈ B, start ≤ p) ∨ ∀ p ∈ B, p < start + live.length) (real : 0 < start)
    (chosen : pairs = if decide ((range' start live.length).headD 0 ≤ live.headD 0) then
        shifts live (range' start live.length)
      else (shifts live (range' start live.length)).reverse) : Sequential B pairs := by
  have ahead := shifts_ahead start sorted
    (beside.imp (fun h p mem => h p ((live_iff p).mp mem)) fun h p mem => h p ((live_iff p).mp mem))
  simp only [decide_eq_true_eq] at chosen
  have perm : pairs.Perm (shifts live (range' start live.length)) := by
    rw [chosen]
    split
    · exact .refl _
    · exact reverse_perm _
  rw [← chosen] at ahead
  have nodup : live.Nodup := sorted.imp ne_of_lt
  have zipped : ∀ pair ∈ pairs, pair ∈ live.zip (range' start live.length) ∧ pair.1 ≠ pair.2 :=
    fun pair mem => mem_shifts.mp (perm.mem_iff.mp mem)
  refine ⟨fun pair mem => ?_, fun pair mem => (zipped pair mem).2, fun pair mem => ?_,
    fun pair mem taken => ?_, ?_⟩
  · exact (live_iff _).mp (of_mem_zip (zipped pair mem).1).1
  · have := mem_range'_1.mp (of_mem_zip (zipped pair mem).1).2
    omega
  · rw [(perm.map fst).mem_iff]
    exact Lib.leaves_of_taken nodup nodup_range' length_range'.symm (perm.mem_iff.mp mem)
      ((live_iff _).mpr taken)
  · have distinct : (shifts live (range' start live.length)).Pairwise
        fun x y => x.1 ≠ y.1 ∧ x.2 ≠ y.2 :=
      (Lib.pairwise_zip nodup nodup_range').filter _
    have distinct' := (perm.pairwise_iff fun h => ⟨h.1.symm, h.2.symm⟩).mpr distinct
    exact (distinct'.and ahead).imp fun h => ⟨h.1.1, h.1.2, h.2⟩

/-- **`_relocate_to_positions`** onto a block below or above the live pages. -/
lemma Inv.relocate (inv : Inv c s written B ∅) (float : c.growDirection = .float)
    (unblocked : s.movesBlocked = false)
    (beside : (∀ p ∈ B, start ≤ p) ∨ ∀ p ∈ B, p < start + s.livePagesSorted.length)
    (low : c.minPageIndex ≤ start) (high : start + s.livePagesSorted.length ≤ c.numPages) :
    ∃ s' n, s.relocateToPositions c s.livePagesSorted
        (range' start s.livePagesSorted.length) = some (s', n) ∧
      (∃ B', Inv c s' written B' ∅) ∧ Unbinds s s' [] ∧ (s'.isFrontierTransparent c = false →
      s.isFrontierTransparent c = false ∧ s'.lowWmPage = start ∧
        s'.highWmPage = start + s.livePagesSorted.length) := by
  have placed : Placed c s B := by simpa using inv.placed
  have live_iff : ∀ p, p ∈ s.livePagesSorted ↔ p ∈ B := fun p => placed.mem_livePagesSorted float
  have nodup : s.livePagesSorted.Nodup := livePagesSorted_sorted.imp ne_of_lt
  have count := placed.length_livePagesSorted float
  have settled := placed.settled (c.float_eager float)
  have seq := sequential_shifts live_iff livePagesSorted_sorted beside
    (c.minPageIndex_pos.trans_le low) rfl
  have length : s.livePagesSorted.length
      = (range' start s.livePagesSorted.length).length := length_range'.symm
  obtain ⟨t, moved, mapped, unbinds, mem, v2p, p2v, rfl⟩ := inv.mapped.movePairs unblocked seq
  unfold relocateToPositions
  rw [if_pos length]
  refine ⟨_, _, congrArg (Option.map _) moved, ?_⟩
  rw [movedTo_shifts live_iff nodup nodup_range' length] at mapped
  generalize s.livePagesSorted.length = k at *
  obtain _ | k := k
  · -- an empty float parks
    have reset := placed_reset (s := s.withTables mem v2p p2v) float settled
    refine ⟨⟨∅, ?_, ?_, by simp, ?_⟩, unbinds.trans ?_, fun isOpaque => ?_⟩
    · refine mapped.congr ?_
      simp only [resetWatermarks, float]
      exact ⟨rfl, rfl, rfl, rfl, rfl, rfl, rfl⟩
    · simpa using reset
    · simp only [resetWatermarks, float]
      exact inv.reserved
    · simp only [resetWatermarks, float]
      exact .of_tables rfl rfl
    · simp [isFrontierTransparent, float, resetWatermarks, livePages, spanPages] at isOpaque
  · have first : (range' start (k + 1)).headD 0 = start := by
      rw [range'_succ, headD_cons]
    have last : (range' start (k + 1)).getLastD 0 + 1 = start + (k + 1) := by
      rw [range'_1_concat, getLastD_concat]
      omega
    rw [first, last]
    refine ⟨⟨_, mapped.congr, ?_, by simp, inv.reserved⟩, unbinds.trans (.of_tables rfl rfl),
      fun _ => ⟨?_, rfl, rfl⟩⟩
    · -- a float without holes
      refine placed_span float settled ⟨nodup_nil, by simp, by simp⟩ low ?_ high (by simp)
      exact Nat.le_add_right ..
    · rw [← Bool.not_eq_true, placed.transparent_iff float]
      rintro rfl
      simp at count

/-! ### Absorbing holes at the ends of the span -/

lemma absorbLow_split (fuel : Nat)
    (split : Splits (Finset.Ico low high) holes H) (ordered : low ≤ high) :
    Splits (Finset.Ico (absorbLow fuel low holes).1 high) (absorbLow fuel low holes).2 H ∧
      low ≤ (absorbLow fuel low holes).1 ∧ (absorbLow fuel low holes).1 ≤ high := by
  induction fuel generalizing low holes with
  | zero => exact ⟨split, le_rfl, ordered⟩
  | succ fuel ih =>
    unfold absorbLow
    split
    · rename_i hole
      have lt := (mem_Ico.mp (split.free_mem hole)).2
      have shrunk : Splits (Finset.Ico low high \ [low].toFinset) (holes.erase low) H :=
        (split.perm (perm_cons_erase hole)).shrink
      have shorter : Finset.Ico low high \ [low].toFinset = Finset.Ico (low + 1) high := by
        ext p
        simp
        omega
      rw [shorter] at shrunk
      obtain ⟨split', low', high'⟩ := ih shrunk lt
      exact ⟨split', by omega, high'⟩
    · exact ⟨split, le_rfl, ordered⟩

lemma absorbHigh_split (fuel : Nat)
    (split : Splits (Finset.Ico low high) holes H) (ordered : low ≤ high) :
    Splits (Finset.Ico low (absorbHigh fuel high holes).1) (absorbHigh fuel high holes).2 H ∧
      low ≤ (absorbHigh fuel high holes).1 ∧ (absorbHigh fuel high holes).1 ≤ high := by
  induction fuel generalizing high holes with
  | zero => exact ⟨split, ordered, le_rfl⟩
  | succ fuel ih =>
    unfold absorbHigh
    split
    · rename_i hole
      have inside := mem_Ico.mp (split.free_mem hole)
      have shrunk : Splits (Finset.Ico low high \ [high - 1].toFinset) (holes.erase (high - 1)) H :=
        (split.perm (perm_cons_erase hole)).shrink
      have shorter : Finset.Ico low high \ [high - 1].toFinset = Finset.Ico low (high - 1) := by
        ext p
        simp
        omega
      rw [shorter] at shrunk
      obtain ⟨split', low', high'⟩ := ih shrunk inside.1
      exact ⟨split', low', by omega⟩
    · exact ⟨split, ordered, le_rfl⟩

lemma absorbSpan_tables (float : c.growDirection = .float) :
    SameTables s (s.absorbSpanBoundaryHoles c).1 := by
  unfold absorbSpanBoundaryHoles
  split
  · exact parkIfEmpty_tables float
  split <;> exact ⟨rfl, rfl, rfl, rfl, rfl, rfl, rfl⟩

/-- **`_absorb_span_boundary_holes`.** -/
lemma Inv.absorbSpan (inv : Inv c s written B R) (float : c.growDirection = .float) :
    Inv c (s.absorbSpanBoundaryHoles c).1 written B R ∧ Shrunk c s (s.absorbSpanBoundaryHoles c).1 ∧
      Unbinds s (s.absorbSpanBoundaryHoles c).1 [] := by
  have same := absorbSpan_tables (s := s) float
  refine and_assoc.mp ⟨?_, .of_tables same.v2p same.p2v⟩
  have placed := inv.placed
  have settled := placed.settled (c.float_eager float)
  unfold absorbSpanBoundaryHoles
  split
  · refine ⟨⟨inv.mapped.congr (parkIfEmpty_tables float), ?_, inv.apart, ?_⟩, parkIfEmpty_shrunk float⟩
    · exact placed_parkIfEmpty float placed.split placed.low_ge placed.ordered placed.high_le settled
    · rw [(parkIfEmpty_tables float).pendingHicacheLoadPages]
      exact inv.reserved
  rename_i live
  have isOpaque : s.isFrontierTransparent c = false := by simpa [isFrontierTransparent, float] using live
  split
  · exact ⟨⟨inv.mapped.congr, placed.congr,
      inv.apart, inv.reserved⟩, fun _ => ⟨isOpaque, le_rfl, le_rfl⟩⟩
  have low_ge := placed.low_ge
  have high_le := placed.high_le
  have order := placed.ordered
  have split := placed.split
  simp only [band, lowPage, highPage, float, pendingReusePages, settled, flatMap_nil,
    append_nil] at low_ge high_le order split
  obtain ⟨split', lowUp, order'⟩ := absorbLow_split s.freePhysPages.length split order
  generalize absorbLow s.freePhysPages.length s.lowWmPage s.freePhysPages = lower at *
  obtain ⟨low, holes⟩ := lower
  dsimp only at *
  obtain ⟨split'', order'', highDown⟩ := absorbHigh_split holes.length split' order'
  generalize absorbHigh holes.length s.highWmPage holes = upper at *
  refine ⟨⟨inv.mapped.congr, placed_span float settled ?_ (low_ge.trans lowUp) order''
    (highDown.trans high_le) fun empty => ?_, inv.apart, inv.reserved⟩, fun _ => ⟨isOpaque, ?_, ?_⟩⟩
  · split
    · exact split''.perm (perm_insertionSort _ _).symm
    · rename_i unchanged
      simp only [Bool.or_eq_true, decide_eq_true_eq, not_or, not_not] at unchanged
      rwa [unchanged.1, unchanged.2]
  · rw [placed.livePages_eq float, empty] at live
    exact absurd rfl live
  · simpa only [lowPage, float] using lowUp
  · simpa only [highPage, float] using highDown

/-! ### What the chain calls -/

/-- **`_flush`.** -/
lemma Inv.flush {fired : Nat → Bool} {urgent : Bool} (inv : Inv c s written B R)
    (ran : s.flush c fired urgent = some (s', n)) : Frees c s s' written R [] := by
  unfold Pool.flush at ran
  cases grow : c.growDirection with
  | float =>
    rw [grow] at ran
    obtain rfl : (s.absorbSpanBoundaryHoles c).1 = s' := congrArg fst (Option.some.inj ran)
    obtain ⟨absorbed, shrunk, unbinds⟩ := inv.absorbSpan grow
    exact ⟨⟨⟨B, absorbed⟩, shrunk⟩, unbinds⟩
  | up | down =>
    rw [grow] at ran
    exact (inv.flushEnd (by simp [grow]) ran).1

/-- The span of a float holds its live pages. -/
lemma Placed.span (placed : Placed c s H) (float : c.growDirection = .float) :
    (∀ p ∈ H, s.lowWmPage ≤ p ∧ p < s.highWmPage) ∧ c.minPageIndex ≤ s.lowWmPage ∧
      s.highWmPage ≤ c.numPages ∧ s.lowWmPage + H.card ≤ s.highWmPage := by
  have low := placed.low_ge
  have high := placed.high_le
  have order := placed.ordered
  have card := placed.card
  simp only [lowPage, highPage, float] at low high order card
  refine ⟨fun p mem => ?_, low, high, by omega⟩
  have inBand := mem_band.mp (placed.split.held_sub mem)
  simpa only [lowPage, highPage, float] using inBand

/-- **`compact_holes`.** -/
lemma Inv.compactHoles (inv : Inv c s written B R) (float : c.growDirection = .float)
    (ran : s.compactHoles c side = some (s', n)) : Frees c s s' written R [] := by
  unfold Pool.compactHoles at ran
  split at ran
  · cases ran
    exact inv.frees_nothing _
  rename_i go
  rw [Bool.or_eq_true, not_or] at go
  have unblocked := Bool.eq_false_iff.mpr go.1
  obtain rfl := inv.reserved_empty unblocked
  have placed : Placed c s B := by simpa using inv.placed
  have count := placed.length_livePagesSorted float
  obtain ⟨inside, low, high, room⟩ := placed.span float
  obtain ⟨forward, settled⟩ := settleInflightForward_eq
  rw [settled] at ran
  -- the pages go to a block at either end of the span
  have onto : ∀ start, ((∀ p ∈ B, start ≤ p) ∨ ∀ p ∈ B, p < start + s.livePagesSorted.length) →
      s.lowWmPage ≤ start → start + s.livePagesSorted.length ≤ s.highWmPage →
      ({ s with inflightForward := forward } : Pool γ).relocateToPositions c s.livePagesSorted
        (range' start s.livePagesSorted.length) = some (s', n) → Frees c s s' written ∅ [] := by
    intro start beside starts ends ran
    obtain ⟨t, k, moved, kept, unbinds, span⟩ := (inv.forward forward).relocate float unblocked
      beside (low.trans starts) (ends.trans high)
    cases moved.symm.trans ran
    refine ⟨⟨kept, fun isOpaque => ?_⟩, ⟨unbinds.fewer, unbinds.others⟩⟩
    obtain ⟨before, lowEq, highEq⟩ := span isOpaque
    simp only [lowPage, highPage, float, lowEq]
    exact ⟨before, starts, highEq.le.trans ends⟩
  cases side with
  | high => exact onto s.lowWmPage (.inl fun p mem => (inside p mem).1) le_rfl (by omega) ran
  | low =>
    refine onto (s.highWmPage - s.livePagesSorted.length) (.inr fun p mem => ?_) (by omega) (by omega) ran
    have := (inside p mem).2
    omega

/-! ### Opening room on one side -/

/-- Some live pages, in either order, go to holes first and then to pages of the region outside
the span. -/
lemma Placed.movable_outside {fresh : List Nat} {k m : Nat} {fits : Nat → Bool}
    (placed : Placed c s H) (float : c.growDirection = .float) (within : Within c b s)
    (ofLive : live.Perm s.livePagesSorted)
    (ofHoles : holes.Perm (unique (s.freePhysPages.filter fits))) (fresh_nodup : fresh.Nodup)
    (outside : ∀ p ∈ fresh, ((regionBoundsPages c b).1 ≤ p ∧ p < (regionBoundsPages c b).2) ∧
      ¬ (s.lowWmPage ≤ p ∧ p < s.highWmPage))
    (length : (live.take k).length = (holes.take m).length + fresh.length) :
    Movable H (live.take k) (holes.take m ++ fresh) ∧
      ∀ p ∈ holes.take m ++ fresh, (regionBoundsPages c b).1 ≤ p ∧ p < (regionBoundsPages c b).2 := by
  obtain ⟨lowIn, highIn⟩ := within.region placed float
  obtain ⟨lowMin, -⟩ := region_inside c b
  obtain ⟨inside, -⟩ := placed.span float
  have free : ∀ p ∈ holes.take m, p ∈ s.freePhysPages ++ s.pendingReusePages := fun p mem =>
    mem_append_left _ (mem_filter.mp (mem_unique.mp (ofHoles.mem_iff.mp (mem_of_mem_take mem)))).1
  have inSpan : ∀ p ∈ holes.take m, s.lowWmPage ≤ p ∧ p < s.highWmPage := by
    intro p mem
    have inBand := mem_band.mp (placed.split.free_mem (free p mem))
    simpa only [lowPage, highPage, float] using inBand
  have region : ∀ p ∈ holes.take m ++ fresh,
      (regionBoundsPages c b).1 ≤ p ∧ p < (regionBoundsPages c b).2 := by
    intro p mem
    rcases mem_append.mp mem with hole | new
    · have := inSpan p hole
      omega
    · exact (outside p new).1
  refine ⟨⟨?_, ?_, ?_, by rw [length, length_append], ?_, ?_⟩, region⟩
  · intro p mem
    exact (placed.mem_livePagesSorted float).mp (ofLive.mem_iff.mp (mem_of_mem_take mem))
  · have nodup := livePagesSorted_sorted (s := s).imp ne_of_lt
    exact (ofLive.nodup_iff.mpr nodup).sublist (take_sublist ..)
  · have nodup := (ofHoles.nodup_iff.mpr (nodup_unique _)).sublist (take_sublist m _)
    refine nodup_append.mpr ⟨nodup, fresh_nodup, ?_⟩
    rintro p mem _ mem' rfl
    exact (outside p mem').2 (inSpan p mem)
  · intro p mem held
    rcases mem_append.mp mem with hole | new
    · exact placed.split.disjoint p (free p hole) held
    · exact (outside p new).2 (inside p held)
  · intro p mem
    have := region p mem
    have := c.minPageIndex_pos
    omega

/-- The boundary relocation of `make_room` stays inside the region. -/
lemma Placed.boundaryMoves {needPages : Nat} (placed : Placed c s H)
    (float : c.growDirection = .float) (isOpaque : s.isFrontierTransparent c = false)
    (within : Within c b s) (ran : s.boundaryMoves c b side needPages = some (srcs, dsts)) :
    Movable H srcs dsts ∧
      ∀ p ∈ dsts, (regionBoundsPages c b).1 ≤ p ∧ p < (regionBoundsPages c b).2 := by
  obtain ⟨lowIn, highIn⟩ := within.region placed float
  obtain ⟨-, -, -, room⟩ := placed.span float
  unfold Pool.boundaryMoves at ran
  simp only [gapPages, isOpaque, Bool.false_eq_true, if_false] at ran
  cases side with
  | high =>
    dsimp only at ran
    split at ran
    · cases ran
    cases ran
    refine placed.movable_outside float within (reverse_perm _) (.refl _)
      (nodup_reverse.mpr nodup_range') (fun p mem => ?_) ?_
    · simp only [mem_reverse, mem_range'_1] at mem
      omega
    · rw [length_reverse, length_range']
      exact (Nat.add_sub_of_le (length_take_le ..)).symm
  | low =>
    dsimp only at ran
    split at ran
    · cases ran
    cases ran
    refine placed.movable_outside float within (.refl _) (reverse_perm _) nodup_range'
      (fun p mem => ?_) ?_
    · rw [mem_range'_1] at mem
      omega
    · rw [length_range']
      exact (Nat.add_sub_of_le (length_take_le ..)).symm

/-- The first and the last of a sorted list. -/
lemma sorted_between (sorted : pages.Pairwise (· < ·)) (mem : p ∈ pages) :
    pages.headD 0 ≤ p ∧ p ≤ pages.getLastD 0 := by
  constructor
  · cases sorted with
    | nil => cases mem
    | cons head _ =>
      rcases mem_cons.mp mem with rfl | later
      · exact le_rfl
      · exact (head p later).le
  · obtain ⟨front, last, rfl⟩ := (eq_nil_or_concat' pages).resolve_left (ne_nil_of_mem mem)
    rw [getLastD_concat]
    rcases mem_append.mp mem with earlier | here
    · exact ((pairwise_append.mp sorted).2.2 p earlier last mem_cons_self).le
    · rw [mem_singleton] at here
      exact here.le

lemma headD_mem (nonempty : pages ≠ []) : pages.headD 0 ∈ pages := by
  cases pages with
  | nil => exact absurd rfl nonempty
  | cons p pages => exact mem_cons_self

lemma getLastD_mem (nonempty : pages ≠ []) : pages.getLastD 0 ∈ pages := by
  obtain ⟨front, p, rfl⟩ := (eq_nil_or_concat' pages).resolve_left nonempty
  rw [getLastD_concat]
  exact mem_append_right _ mem_cons_self

/-- The span around the live pages, with everything else in it a hole. -/
lemma placed_spanAround (float : c.growDirection = .float) (settled : s.pendingReuse = [])
    (sorted : pages.Pairwise (· < ·)) (nonempty : pages ≠ [])
    (inside : ∀ p ∈ pages, c.minPageIndex ≤ p ∧ p < c.numPages) :
    Placed c (s.spanAround pages) pages.toFinset := by
  have first := headD_mem nonempty
  have last := getLastD_mem nonempty
  have between := sorted_between sorted first
  refine placed_span float settled ?_ ?_ ?_ ?_ ?_
  · refine ⟨.filter _ nodup_range', fun p hole => ?_, fun p => ?_⟩
    · simpa using (mem_filter.mp hole).2
    · simp only [spanAround, mem_Ico, mem_filter, mem_toFinset]
      have within := sorted_between (p := p) sorted
      by_cases live : p ∈ pages
      · have := within live
        simp only [live, or_true, iff_true]
        omega
      · simp [live]
        omega
  · exact (inside _ first).1
  · dsimp only [spanAround]
    omega
  · exact (inside _ last).2
  · exact fun empty => absurd ((toFinset_eq_empty_iff _).mp empty) nonempty

/-- The float around the pages of a boundary relocation. -/
lemma Inv.relocateBoundary (inv : Inv c s written B ∅) (float : c.growDirection = .float)
    (unblocked : s.movesBlocked = false) (live : B ≠ ∅) (within : Within c b s)
    (movable : Movable B srcs dsts)
    (region : ∀ p ∈ dsts, (regionBoundsPages c b).1 ≤ p ∧ p < (regionBoundsPages c b).2)
    (pages_eq : pages = unique (s.livePagesSorted.filter (· ∉ srcs) ++ dsts)) :
    ∃ t, s.movePagesAndRebind srcs dsts = some t ∧
    Inv c ((t.clearP2v srcs).spanAround pages) written pages.toFinset ∅ ∧
      Unbinds s ((t.clearP2v srcs).spanAround pages) [] ∧
      Within c b ((t.clearP2v srcs).spanAround pages) := by
  have placed : Placed c s B := by simpa using inv.placed
  have settled := placed.settled (c.float_eager float)
  obtain ⟨lowIn, highIn⟩ := within.region placed float
  obtain ⟨inside, -⟩ := placed.span float
  obtain ⟨lowMin, highNum⟩ := region_inside c b
  obtain ⟨t, ran, mapped, unbinds, mem, v2p, p2v, same⟩ := inv.mapped.moveBatch unblocked movable
  have moved : pages.toFinset = movedTo B srcs dsts := by
    ext p
    simp [pages_eq, mem_unique, movedTo, placed.mem_livePagesSorted float]
  have nonempty : pages ≠ [] := by
    rintro rfl
    have card := card_movedTo movable
    rw [← moved] at card
    exact live (Finset.card_eq_zero.mp card.symm)
  have pagesIn : ∀ p ∈ pages, (regionBoundsPages c b).1 ≤ p ∧ p < (regionBoundsPages c b).2 := by
    intro p mem
    rw [pages_eq, mem_unique, mem_append, mem_filter, placed.mem_livePagesSorted float] at mem
    rcases mem with ⟨stays, -⟩ | arrives
    · have := inside p stays
      omega
    · exact region p arrives
  have sorted : pages.Pairwise (· < ·) := pages_eq ▸ sorted_insertionSort (nodup_dedup _)
  refine ⟨t, ran, ?_⟩
  rw [same] at unbinds ⊢
  refine ⟨⟨?_, ?_, by simp, inv.reserved⟩, unbinds.trans (.of_tables rfl rfl),
    within_of_region float ?_ ?_⟩
  · rw [moved, ← same]
    exact mapped.congr
  · rw [Finset.union_empty]
    refine placed_spanAround float settled sorted nonempty fun p mem => ?_
    have := pagesIn p mem
    omega
  · exact (pagesIn _ (headD_mem nonempty)).1
  · exact (pagesIn _ (getLastD_mem nonempty)).2

lemma Within.shrunk (within : Within c b s) (shrunk : Shrunk c s s')
    (isOpaque : s'.isFrontierTransparent c = false) : Within c b s' := by
  obtain ⟨-, low, high⟩ := shrunk isOpaque
  rw [Within, byteLowFrontier_eq, byteHighFrontier_eq] at within ⊢
  exact ⟨within.1.trans (Nat.mul_le_mul_right _ low), (Nat.mul_le_mul_right _ high).trans within.2⟩

end Pool

end Sglang.Unified
