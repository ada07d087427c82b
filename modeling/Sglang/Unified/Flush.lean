/-
# Lazy compaction of an end pool

* `Pool.walk_eq` — the walk of `_flush` pairs the survivors, from the frontier inwards,
  with the holes, from the fixed end outwards, up to the first pair it refuses.
* `Pool.Inv.flushEnd` — `_flush` keeps the pool, and its band does not grow. An urgent
  pass leaves no hole.
-/

import Mathlib.Data.List.TakeWhile
import Sglang.Unified.Compaction

namespace Sglang.Unified

open List SubPool
open Sglang.Lib (scatter unpair bindings copyAll Linked Stored Splits)

namespace SubPool

variable {c : SubPool} {p q d e : Nat}

lemma not_beyond_self : c.beyond p p = false := by
  unfold beyond
  cases grow : c.growDirection <;> simp

lemma beyond_asymm (h : c.beyond p q = true) : c.beyond q p = false := by
  unfold beyond at *
  cases grow : c.growDirection <;> simp only [grow, decide_eq_true_eq, decide_eq_false_iff_not] at * <;>
    omega

/-- Pages are numbered away from the fixed end. -/
lemma page_beyond (lt : e < d) (bound : d < c.numPages) : c.beyond (c.page e) (c.page d) = true := by
  unfold beyond page
  cases grow : c.growDirection <;> simp only [decide_eq_true_eq] <;> omega

lemma page_ne (lt : e < d) (bound : d < c.numPages) : c.page e ≠ c.page d := by
  intro same
  have := page_beyond lt bound
  rw [same, not_beyond_self] at this
  cases this

end SubPool

namespace Pool

variable {γ : Type} {c : SubPool} {s s' : Pool γ} {B H R : Finset Nat} {written : Nat → Option γ}

variable {p d q wm n : Nat} {holes rest released pending writeSet : List Nat} {fired f : Nat → Bool}
  {urgent : Bool} {latest cap : Option Nat} {moves : List (Nat × Nat)} {pages dsts srcs : List Nat}

lemma mem_band_iff_page (ends : c.growDirection ≠ .float) :
    p ∈ s.band c ↔ ∃ d < s.allocatedPages c, c.page d = p := by
  rw [mem_band]
  cases grow : c.growDirection with
  | float => exact absurd grow ends
  | up | down =>
    simp only [lowPage, highPage, allocatedPages, page, grow]
    constructor
    · rintro ⟨low, high⟩
      first
      | exact ⟨p - c.minPageIndex, by omega, by omega⟩
      | exact ⟨c.numPages - 1 - p, by omega, by omega⟩
    · rintro ⟨d, lt, rfl⟩
      omega

/-! ### The walk -/

variable (c) in
/-- The pages below position `d` that are neither holes nor pending, from the frontier
inwards. -/
def survivors (holes pending : List Nat) (d : Nat) : List Nat :=
  ((List.range d).reverse.map c.page).filter fun p => p ∉ holes ∧ p ∉ pending

lemma mem_survivors : p ∈ survivors c holes pending d ↔
    (∃ e < d, c.page e = p) ∧ p ∉ holes ∧ p ∉ pending := by
  simp [survivors]

lemma survivors_succ (holes pending : List Nat) (d : Nat) : survivors c holes pending (d + 1) =
    if c.page d ∈ holes ∨ c.page d ∈ pending then survivors c holes pending d
    else c.page d :: survivors c holes pending d := by
  rw [survivors, range_succ, reverse_append]
  by_cases gone : c.page d ∈ holes ∨ c.page d ∈ pending
  · rw [if_pos gone]
    exact filter_cons_of_neg (by simpa using or_iff_not_imp_left.mp gone)
  · rw [if_neg gone]
    exact filter_cons_of_pos (by simpa using gone)

lemma survivors_sorted (bound : d ≤ c.numPages) :
    (survivors c holes pending d).Pairwise fun p q => c.beyond q p = true := by
  refine .filter _ (pairwise_map.mpr (pairwise_reverse.mpr ?_))
  refine .imp_of_mem (fun _ mem lt => ?_) pairwise_lt_range
  exact page_beyond lt (lt_of_lt_of_le (mem_range.mp mem) bound)

lemma nodup_of_sorted (sorted : pages.Pairwise fun p q => c.beyond q p = true) : pages.Nodup := by
  refine sorted.imp fun farther same => ?_
  rw [same, not_beyond_self] at farther
  cases farther

variable (c) in
/-- What the cursor into the holes knows when the scan stands at position `d`: the holes
below `d` are still ahead of it. -/
structure Cursor (holes : List Nat) (d : Nat) (rest : List Nat) : Prop where
  sorted : rest.Pairwise fun p q => c.beyond q p = true
  ahead : ∀ e < d, c.page e ∈ rest ↔ c.page e ∈ holes
  bound : d ≤ c.numPages

/-- Past the holes outside `p`, the next one is `p` if `p` is a hole. -/
lemma head_dropWhile_beyond (sorted : rest.Pairwise fun p q => c.beyond q p = true) :
    (rest.dropWhile (c.beyond p)).head? = some p ↔ p ∈ rest := by
  induction sorted with
  | nil => simp
  | @cons hole rest head _ ih =>
    by_cases outside : c.beyond p hole = true
    · have other : p ≠ hole := by
        rintro rfl
        rw [not_beyond_self] at outside
        cases outside
      rw [dropWhile_cons_of_pos outside, ih, mem_cons]
      exact ⟨.inr, fun mem => mem.resolve_left other⟩
    · rw [dropWhile_cons_of_neg outside, head?_cons, Option.some_inj, mem_cons]
      constructor
      · exact fun same => .inl same.symm
      · rintro (same | later)
        · exact same.symm
        · exact absurd (head p later) outside

lemma mem_dropWhile_of_neg (kept : f p = false) : p ∈ rest.dropWhile f ↔ p ∈ rest := by
  refine ⟨fun mem => (dropWhile_suffix f).subset mem, fun mem => ?_⟩
  rw [← takeWhile_append_dropWhile (l := rest), mem_append] at mem
  apply mem.resolve_left
  intro taken
  rw [mem_takeWhile_imp taken] at kept
  cases kept

/-- The cursor after it passed position `d`. -/
lemma Cursor.next (cursor : Cursor c holes (d + 1) rest) :
    Cursor c holes d (rest.dropWhile (c.beyond (c.page d))) ∧
      ((rest.dropWhile (c.beyond (c.page d))).head? = some (c.page d) ↔ c.page d ∈ holes) := by
  have lt : d < c.numPages := cursor.bound
  refine ⟨⟨cursor.sorted.sublist (dropWhile_suffix _).sublist, fun e below => ?_, lt.le⟩, ?_⟩
  · rw [mem_dropWhile_of_neg (beyond_asymm (page_beyond below lt))]
    exact cursor.ahead e (by omega)
  · rw [head_dropWhile_beyond cursor.sorted]
    exact cursor.ahead d (Nat.lt_succ_self d)

lemma Cursor.tail (cursor : Cursor c holes d rest) (bound : d < c.numPages)
    (here : rest.head? = some (c.page d)) : Cursor c holes d rest.tail := by
  obtain ⟨rest, rfl⟩ : ∃ tail, rest = c.page d :: tail := by
    obtain _ | ⟨hole, rest⟩ := rest
    · cases here
    · cases here
      exact ⟨rest, rfl⟩
  refine ⟨(pairwise_cons.mp cursor.sorted).2, fun e below => ?_, cursor.bound⟩
  rw [← cursor.ahead e below, mem_cons]
  exact ⟨.inr, fun mem => mem.resolve_left (page_ne below bound)⟩

/-- `_topmost_survivor` finds the first of the survivors. -/
lemma topmostSurvivor_eq (pending : List Nat) (cursor : Cursor c holes d rest) :
    match topmostSurvivor c pending d rest with
      | none => survivors c holes pending d = []
      | some (d', rest') =>
        survivors c holes pending d = c.page d' :: survivors c holes pending d' ∧
          Cursor c holes d' rest' := by
  induction d generalizing rest with
  | zero => rfl
  | succ d ih =>
    obtain ⟨next, hole_iff⟩ := cursor.next
    rw [survivors_succ]
    unfold topmostSurvivor
    by_cases hole : c.page d ∈ holes
    · have head := hole_iff.mpr hole
      rw [if_pos head, if_pos (.inl hole)]
      exact ih (next.tail cursor.bound head)
    · rw [if_neg (hole_iff.not.mpr hole)]
      by_cases waits : c.page d ∈ pending
      · rw [if_pos waits, if_pos (.inr waits)]
        exact ih next
      · rw [if_neg waits, if_neg (not_or.mpr ⟨hole, waits⟩)]
        exact ⟨rfl, next⟩

/-- The pairs the walk accepts. -/
def accepts (c : SubPool) (writeSet : List Nat) (pair : Nat × Nat) : Bool :=
  pair.1 ∉ writeSet && !c.beyond pair.1 pair.2

/-- The walk, without its cursors. A cap below one does not stop the first move. -/
lemma walk_eq (cap : Option Nat) (cursor : Cursor c holes d rest) :
    ∃ n, walk c pending writeSet dsts d rest cap =
        (((survivors c holes pending d).zip dsts).takeWhile (accepts c writeSet)).take n ∧
      (cap = none → dsts.length ≤ n) := by
  induction dsts generalizing d rest cap with
  | nil => exact ⟨0, by simp [walk], fun _ => le_rfl⟩
  | cons dst dsts ih =>
    have found := topmostSurvivor_eq pending cursor
    unfold walk
    cases survivor : topmostSurvivor c pending d rest with
    | none =>
      rw [survivor] at found
      exact ⟨(dst :: dsts).length, by simp [found], fun _ => le_rfl⟩
    | some next =>
      obtain ⟨d', rest'⟩ := next
      rw [survivor] at found
      obtain ⟨listed, cursor'⟩ := found
      dsimp only
      rw [listed, zip_cons_cons]
      by_cases accepted : accepts c writeSet (c.page d', dst) = true
      · rw [takeWhile_cons_of_pos accepted]
        simp only [accepts, Bool.and_eq_true, decide_eq_true_eq, Bool.not_eq_true'] at accepted
        rw [if_neg accepted.1, if_neg (by simp [accepted.2])]
        cases cap with
        | none =>
          obtain ⟨n, same, all⟩ := ih none cursor'
          refine ⟨n + 1, by rw [take_succ_cons, same], fun _ => ?_⟩
          exact Nat.succ_le_succ (all rfl)
        | some k =>
          dsimp only
          by_cases last : k ≤ 1
          · exact ⟨1, by rw [if_pos last]; rfl, nofun⟩
          · obtain ⟨n, same, -⟩ := ih (some (k - 1)) cursor'
            exact ⟨n + 1, by rw [if_neg last, take_succ_cons, same], nofun⟩
      · rw [takeWhile_cons_of_neg accepted]
        refine ⟨(dst :: dsts).length, ?_, fun _ => le_rfl⟩
        rw [take_nil]
        simp only [accepts, Bool.and_eq_true, decide_eq_true_eq, not_and] at accepted
        split
        · rfl
        · rename_i writable
          have crossed := accepted writable
          rw [if_pos (by simpa using crossed)]

/-! ### Draining and absorbing -/

lemma Retreated.trans {wm' : Nat} {gone gone' : List Nat} (first : Retreated c s wm gone)
    (second : Retreated c { s with watermarkPhysical := wm } wm' gone') :
    Retreated c s wm' (gone ++ gone') where
  nodup := by
    refine nodup_append.mpr ⟨first.nodup, second.nodup, ?_⟩
    rintro p mem _ mem' rfl
    apply Finset.disjoint_right.mp first.apart (mem_toFinset.mpr mem)
    rw [second.band, Finset.mem_union]
    exact .inr (mem_toFinset.mpr mem')
  band := by
    rw [first.band, second.band, toFinset_append, Finset.union_assoc, Finset.union_comm gone'.toFinset]
  apart := by
    rw [toFinset_append, Finset.disjoint_union_right]
    refine ⟨first.apart.mono_left ?_, second.apart⟩
    rw [second.band]
    exact Finset.subset_union_left
  low_ge := first.low_ge.trans second.low_ge
  ordered := second.ordered
  high_le := second.high_le.trans first.high_le

lemma Retreated.refl (ordered : s.lowPage c ≤ s.highPage c) :
    Retreated c s s.watermarkPhysical [] :=
  ⟨nodup_nil, by simp, by simp, le_rfl, ordered, le_rfl⟩

/-- The watermark retreats past the holes it passes. -/
lemma retreat_eq (ends : c.growDirection ≠ .float) (nodup : holes.Nodup)
    (inside : ∀ p ∈ holes, p ∈ s.band c) (ordered : s.lowPage c ≤ s.highPage c)
    (high_le : s.highPage c ≤ c.numPages) :
    ∃ gone, holes = gone ++ (retreat c s.watermarkPhysical holes).2 ∧
      Retreated c s (retreat c s.watermarkPhysical holes).1 gone := by
  induction holes generalizing s with
  | nil => exact ⟨[], rfl, .refl ordered⟩
  | cons hole holes ih =>
    rw [nodup_cons] at nodup
    rw [forall_mem_cons] at inside
    -- one step back, whichever way the pool grows
    have step : ∀ wm, Retreated c s wm [hole] →
        ∃ gone, hole :: holes = gone ++ (retreat c wm holes).2 ∧
          Retreated c s (retreat c wm holes).1 gone := by
      intro wm back
      have inside' : ∀ p ∈ holes, p ∈ ({ s with watermarkPhysical := wm } : Pool γ).band c := by
        intro p mem
        have := inside.2 p mem
        rw [back.band, Finset.mem_union] at this
        refine this.resolve_right fun here => ?_
        rw [mem_toFinset, mem_singleton] at here
        exact nodup.1 (here ▸ mem)
      obtain ⟨gone, split, further⟩ := ih nodup.2 inside' back.ordered (back.high_le.trans high_le)
      exact ⟨hole :: gone, congrArg (hole :: ·) split, back.trans further⟩
    have inBand := mem_band.mp inside.1
    unfold retreat
    cases grow : c.growDirection with
    | float => exact absurd grow ends
    | up =>
      dsimp only
      simp only [lowPage, grow] at inBand
      split
      · apply step _
        have back := retreated_up (s := s) (k := 1) grow (by omega)
        rwa [range'_one, show s.watermarkPhysical - 1 = hole by omega] at *
      · exact ⟨[], rfl, .refl ordered⟩
    | down =>
      dsimp only
      split
      · rename_i frontier
        apply step _
        have back := retreated_down (s := s) (k := 1) grow (by omega) (by omega)
        rwa [range'_one, ← frontier] at *
      · exact ⟨[], rfl, .refl ordered⟩

/-- Drained pages become holes. -/
lemma Placed.drain (placed : Placed c s H) : Placed c (s.drainPendingReuse fired urgent) H := by
  refine { placed with split := placed.split.perm ?_, settled := ?_, packed := ?_ }
  · have parts := filter_append_perm (fun entry => fired entry.1 || urgent)
      s.pendingReuse
    simp only [pendingReusePages, drainPendingReuse, append_assoc, ← flatMap_append]
    exact (parts.symm.flatMap_right _).append_left _
  · intro eager
    simp [drainPendingReuse, placed.settled eager]
  · intro eager ends
    simp [drainPendingReuse, placed.settled eager, placed.packed eager ends]

lemma fromFrontier_perm (holes : List Nat) : (fromFrontier c holes).Perm holes := by
  unfold fromFrontier
  cases c.growDirection with
  | up => exact reverse_perm holes
  | down => exact .refl _
  | float => exact .refl _

lemma fromFrontier_fromFrontier (holes : List Nat) : fromFrontier c (fromFrontier c holes) = holes := by
  unfold fromFrontier
  cases c.growDirection <;> simp

lemma fromFrontier_sorted (ends : c.growDirection ≠ .float) (sorted : holes.Pairwise (· < ·)) :
    (fromFrontier c holes).Pairwise fun p q => c.beyond q p = true := by
  unfold fromFrontier beyond
  cases grow : c.growDirection with
  | float => exact absurd grow ends
  | up => simpa [pairwise_reverse] using sorted
  | down => simpa using sorted

/-- Holes next to the frontier leave the band. -/
lemma Placed.absorb (placed : Placed c s H) (lazy : c.lazyCompaction = true)
    (ends : c.growDirection ≠ .float) (perm : holes.Perm s.freePhysPages) :
    Placed c (s.absorbBoundaryHoles c holes) H ∧ Shrunk c s (s.absorbBoundaryHoles c holes) ∧
      (fromFrontier c (s.absorbBoundaryHoles c holes).freePhysPages).Sublist (fromFrontier c holes) := by
  have listed : (fromFrontier c holes).Perm s.freePhysPages := (fromFrontier_perm holes).trans perm
  have nodup := listed.nodup_iff.mpr (nodup_append.mp placed.split.nodup).1
  obtain ⟨gone, split, back⟩ := retreat_eq ends nodup
    (fun p mem => placed.split.free_mem (mem_append_left _ (listed.mem_iff.mp mem)))
    placed.ordered placed.high_le
  unfold absorbBoundaryHoles
  generalize retreat c s.watermarkPhysical (fromFrontier c holes) = result at split back
  obtain ⟨wm, rest⟩ := result
  refine ⟨⟨?_, placed.low_ge.trans back.low_ge, back.ordered, back.high_le.trans placed.high_le,
    fun eager => absurd lazy (by simp [eager]), fun eager => absurd lazy (by simp [eager]), placed.count,
    fun float => absurd float ends⟩, fun _ => ⟨isOpaque_of_ends ends, back.low_ge, back.high_le⟩, ?_⟩
  · have parts : Splits (s.band c) (gone ++ (fromFrontier c rest ++ s.pendingReusePages)) H := by
      apply placed.split.perm
      rw [← append_assoc]
      refine .append_right _ (listed.symm.trans ?_)
      rw [split]
      exact (fromFrontier_perm rest).symm.append_left gone
    have kept : ({ s with watermarkPhysical := wm } : Pool γ).band c = s.band c \ gone.toFinset := by
      rw [back.band, Finset.union_sdiff_right, Finset.sdiff_eq_self_of_disjoint back.apart]
    have shrunk := parts.shrink
    rw [← kept] at shrunk
    exact shrunk
  · rw [fromFrontier_fromFrontier, split]
    exact sublist_append_right gone rest

/-! ### Committing the moves -/

lemma addPending_perm (event : Nat) (pages : List Nat) (entries : List (Nat × List Nat)) :
    ((addPending event pages entries).flatMap Prod.snd).Perm (entries.flatMap Prod.snd ++ pages) := by
  induction entries with
  | nil => simp [addPending]
  | cons entry entries ih =>
    obtain ⟨other, waiting⟩ := entry
    unfold addPending
    split
    · simp only [flatMap_cons, append_assoc]
      exact perm_append_comm.append_left waiting
    · simp only [flatMap_cons, append_assoc]
      exact ih.append_left waiting

/-- What `_commit_move_batch` does to the pool, and which pages it hands back. -/
lemma commitMoveBatch_eq (ran : s.commitMoveBatch fired latest moves = some (s', released)) :
    ∃ vMoved pending, List.Forall₂ (fun p v => s.p2v p = some v) (moves.map Prod.fst) vMoved ∧
      s' = { s with
        mem := copyAll s.mem ((moves.map Prod.fst).zip (moves.map Prod.snd))
        v2p := scatter s.v2p (bindings vMoved (moves.map Prod.snd))
        p2v := unpair (scatter s.p2v (bindings (moves.map Prod.snd) vMoved)) (moves.map Prod.fst)
        pendingReuse := pending } ∧
      (pending.flatMap Prod.snd ++ released).Perm (s.pendingReusePages ++ moves.map Prod.fst) ∧
      (latest = none → pending = s.pendingReuse) := by
  unfold commitMoveBatch at ran
  split at ran
  · rename_i empty
    rw [List.isEmpty_iff] at empty
    subst empty
    cases ran
    refine ⟨[], s.pendingReuse, .nil, ?_, by simp [pendingReusePages], fun _ => rfl⟩
    have nothing : unpair s.p2v [] = s.p2v := by
      funext p
      simp [unpair]
    simp [bindings, scatter, copyAll, nothing]
  · obtain ⟨t, moved, result⟩ := Option.map_eq_some_iff.mp ran
    unfold movePagesAndRebind at moved
    split at moved
    · cases moved
    obtain ⟨vMoved, found, rfl⟩ := Option.map_eq_some_iff.mp moved
    split at result
    · cases result
      exact ⟨vMoved, s.pendingReuse, Lib.forall₂_of_mapM found, rfl, .refl _, fun _ => rfl⟩
    · rename_i waits
      cases result
      refine ⟨vMoved, _, Lib.forall₂_of_mapM found, rfl, ?_, fun untimed => ?_⟩
      · rw [append_nil]
        exact addPending_perm ..
      · rw [untimed] at waits
        exact absurd rfl waits

/-! ### One pass -/

variable (c) in
/-- The holes, from the frontier inwards. -/
def inwards (s : Pool γ) : List Nat := fromFrontier c s.freePhysPages

lemma inwards_perm : (s.inwards c).Perm s.freePhysPages := fromFrontier_perm _

section

variable (placed : Placed c s H) (ends : c.growDirection ≠ .float)
include placed ends

lemma Placed.allocated_le : s.allocatedPages c ≤ c.numPages := by
  have high := placed.high_le
  unfold allocatedPages
  cases grow : c.growDirection with
  | float => exact absurd grow ends
  | up | down =>
    simp only [highPage, grow] at high ⊢
    omega

lemma Placed.cursor (sorted : (s.inwards c).Pairwise fun p q => c.beyond q p = true) :
    Cursor c (s.inwards c) (s.allocatedPages c) (s.inwards c) :=
  ⟨sorted, fun _ _ => .rfl, placed.allocated_le ends⟩

/-- The survivors are the pages held. -/
lemma Placed.mem_survivors :
    p ∈ survivors c (s.inwards c) s.pendingReusePages (s.allocatedPages c) ↔ p ∈ H := by
  rw [Pool.mem_survivors, ← mem_band_iff_page ends, placed.split.cover, mem_append, inwards_perm.mem_iff]
  constructor
  · tauto
  · intro held
    have notFree := placed.split.not_free held
    rw [mem_append, not_or] at notFree
    exact ⟨.inr held, notFree⟩

/-- Survivors and holes, from the two ends of the band. -/
lemma Placed.movable
    (front : moves <+: (survivors c (s.inwards c) s.pendingReusePages (s.allocatedPages c)).zip
      (s.inwards c).reverse) : Movable H (moves.map Prod.fst) (moves.map Prod.snd) := by
  obtain ⟨srcs, dsts⟩ := Lib.map_of_prefix_zip front
  have dstHole : ∀ p ∈ moves.map Prod.snd, p ∈ s.freePhysPages := by
    intro p mem
    rw [dsts] at mem
    exact inwards_perm.mem_iff.mp (mem_reverse.mp (mem_of_mem_take mem))
  have free := nodup_append.mp placed.split.nodup
  refine ⟨?_, ?_, ?_, by simp, ?_, ?_⟩
  · intro p mem
    rw [srcs] at mem
    exact (placed.mem_survivors ends).mp (mem_of_mem_take mem)
  · rw [srcs]
    exact (nodup_of_sorted (survivors_sorted (placed.allocated_le ends))).sublist (take_sublist ..)
  · rw [dsts]
    exact (nodup_reverse.mpr (inwards_perm.nodup_iff.mpr free.1)).sublist (take_sublist ..)
  · exact fun p mem => placed.split.disjoint p (mem_append_left _ (dstHole p mem))
  · intro p mem
    have inBand := mem_band.mp (placed.split.free_mem (mem_append_left _ (dstHole p mem)))
    exact (lt_of_lt_of_le c.minPageIndex_pos (placed.low_ge.trans inBand.1)).ne'

lemma Placed.walk_front
    (sorted : (s.inwards c).Pairwise fun p q => c.beyond q p = true)
    (walked : moves = walk c s.pendingReusePages writeSet (s.inwards c).reverse (s.allocatedPages c)
      (s.inwards c) cap) :
    moves <+: (survivors c (s.inwards c) s.pendingReusePages (s.allocatedPages c)).zip
      (s.inwards c).reverse := by
  obtain ⟨n, same, -⟩ := walk_eq cap (placed.cursor ends sorted)
  rw [walked, same]
  exact (List.take_prefix ..).trans (List.takeWhile_prefix _)

end

/-- The tables after a batch of moves was committed. -/
lemma Mapped.commit (mapped : Mapped c s B written)
    (movable : Movable B (moves.map Prod.fst) (moves.map Prod.snd))
    (ran : s.commitMoveBatch fired latest moves = some (s', released)) :
    Mapped c s' (movedTo B (moves.map Prod.fst) (moves.map Prod.snd)) written := by
  obtain ⟨vMoved, pending, found, rfl, -⟩ := commitMoveBatch_eq ran
  have values : List.Forall₂ (fun v p => s.v2p v = some p) vMoved (moves.map Prod.fst) :=
    found.flip.imp fun v p => (mapped.linked.inverse v p).mpr
  exact (mapped.move movable values).congr

lemma card_movedTo (movable : Movable B srcs dsts) : (movedTo B srcs dsts).card = B.card := by
  have apart : Disjoint (B \ srcs.toFinset) dsts.toFinset := by
    rw [Finset.disjoint_right]
    exact fun p mem held => movable.fresh p (mem_toFinset.mp mem) (Finset.mem_sdiff.mp held).1
  have sub : srcs.toFinset ⊆ B := fun p mem => movable.bound p (mem_toFinset.mp mem)
  have le := Finset.card_le_card sub
  rw [movedTo, Finset.card_union_of_disjoint apart, Finset.card_sdiff_of_subset sub,
    toFinset_card_of_nodup movable.nodup, toFinset_card_of_nodup movable.nodup',
    ← movable.length]
  rw [toFinset_card_of_nodup movable.nodup] at le
  omega

/-- The holes after a pass that is not urgent: filled ones are gone, sources come back at
once or wait for their event. -/
lemma Placed.commit (placed : Placed c s H) (lazy : c.lazyCompaction = true)
    (ends : c.growDirection ≠ .float)
    (front : moves <+: (survivors c (s.inwards c) s.pendingReusePages (s.allocatedPages c)).zip
      (s.inwards c).reverse) (ran : s.commitMoveBatch fired latest moves = some (s', released)) :
    Placed c { s' with freePhysPages := fromFrontier c ((s.inwards c).take
        ((s.inwards c).length - moves.length)) ++ released }
      (movedTo H (moves.map Prod.fst) (moves.map Prod.snd)) := by
  have movable := placed.movable ends front
  obtain ⟨vMoved, pending, -, rfl, waiting, -⟩ := commitMoveBatch_eq ran
  refine ⟨?_, placed.low_ge, placed.ordered, placed.high_le, fun eager => absurd lazy (by simp [eager]),
    fun eager => absurd lazy (by simp [eager]), fun _ => ?_, fun float => absurd float ends⟩
  · have filled : (s.freePhysPages ++ s.pendingReusePages).Perm (moves.map Prod.snd
        ++ ((s.inwards c).take ((s.inwards c).length - moves.length) ++ s.pendingReusePages)) := by
      rw [(Lib.map_of_prefix_zip front).2, ← append_assoc, take_reverse]
      refine .append_right _ ((inwards_perm (c := c)).symm.trans ?_)
      refine .trans ?_ ((reverse_perm _).symm.append_right _)
      refine .trans ?_ perm_append_comm
      rw [take_append_drop]
    apply ((placed.split.perm filled).exchange movable.nodup movable.bound).perm
    have kept := fromFrontier_perm (c := c) ((s.inwards c).take ((s.inwards c).length - moves.length))
    rw [perm_iff_count]
    intro p
    have waits := waiting.count_eq p
    have keeps := kept.count_eq p
    simp only [pendingReusePages, count_append] at waits keeps ⊢
    omega
  · rw [card_movedTo movable]
    exact placed.count lazy

/-! ### An urgent pass -/

variable (c) in
/-- The watermark of the pool without its holes. -/
def packedWatermark (s : Pool γ) : Nat :=
  match c.growDirection with
  | .up => s.watermarkPhysical - s.freePhysPages.length
  | _ => s.watermarkPhysical + s.freePhysPages.length

variable (c) in
/-- The pool without its holes. -/
def packed (s : Pool γ) : Pool γ := { s with watermarkPhysical := s.packedWatermark c }

section

variable (placed : Placed c s H) (ends : c.growDirection ≠ .float)
include placed ends

/-- Packing gives up as many pages as there are holes. -/
lemma Placed.retreated_packed : ∃ vacated, Retreated c s (s.packedWatermark c) vacated ∧
      vacated.length = s.freePhysPages.length := by
  have card := placed.card
  have order := placed.ordered
  have numPos : 0 < c.numPages := lt_of_le_of_lt (Nat.zero_le _) c.min_lt_num
  unfold packedWatermark
  cases grow : c.growDirection with
  | float => exact absurd grow ends
  | up | down =>
    simp only [lowPage, highPage, grow] at card order
    first
    | exact ⟨_, retreated_up grow (by omega), length_range'⟩
    | exact ⟨_, retreated_down grow (by omega) numPos, length_range'⟩

/-- Of two pages of the band the nearer one is kept if the farther one is. -/
lemma Placed.kept_of_beyond (inside : p ∈ s.band c) (nearer : c.beyond p q = true)
    (kept : q ∈ (s.packed c).band c) : p ∈ (s.packed c).band c := by
  obtain ⟨d, belowD, rfl⟩ := (mem_band_iff_page ends).mp kept
  obtain ⟨e, belowE, rfl⟩ := (mem_band_iff_page ends).mp inside
  refine (mem_band_iff_page ends).mpr ⟨e, ?_, rfl⟩
  by_contra far
  have crossed := page_beyond (e := d) (by omega)
    (lt_of_lt_of_le belowE (placed.allocated_le ends))
  rw [beyond_asymm nearer] at crossed
  cases crossed

/-- A kept page is nearer to the fixed end than any other page of the band. -/
lemma Placed.beyond_of_kept (kept : p ∈ (s.packed c).band c) (inside : q ∈ s.band c)
    (gone : q ∉ (s.packed c).band c) : c.beyond p q = true := by
  obtain ⟨d, belowD, rfl⟩ := (mem_band_iff_page ends).mp kept
  obtain ⟨e, belowE, rfl⟩ := (mem_band_iff_page ends).mp inside
  refine page_beyond ?_ (lt_of_lt_of_le belowE (placed.allocated_le ends))
  by_contra near
  exact gone ((mem_band_iff_page ends).mpr ⟨e, by omega, rfl⟩)

/-- The survivors outside the packed band are as many as the holes inside, and fill it. -/
lemma Placed.packs {S D : List Nat} (settled : s.pendingReusePages = []) (memS : ∀ p, p ∈ S ↔ p ∈ H)
    (memD : ∀ p, p ∈ D ↔ p ∈ s.freePhysPages) (nodupS : S.Nodup) (nodupD : D.Nodup) :
    (S.filter (· ∉ (s.packed c).band c)).length = (D.filter (· ∈ (s.packed c).band c)).length ∧
      movedTo H (S.filter (· ∉ (s.packed c).band c)) (D.filter (· ∈ (s.packed c).band c))
        = (s.packed c).band c := by
  obtain ⟨vacated, back, vacatedLength⟩ := placed.retreated_packed ends
  have band : s.band c = (s.packed c).band c ∪ vacated.toFinset := back.band
  have apart : Disjoint ((s.packed c).band c) vacated.toFinset := back.apart
  generalize (s.packed c).band c = kept at band apart ⊢
  have free := (nodup_append.mp placed.split.nodup).1
  have held : H = (kept ∪ vacated.toFinset) \ s.freePhysPages.toFinset := by
    ext p
    have cover := placed.split.cover p
    have disjoint := placed.split.disjoint p
    rw [settled, append_nil] at cover disjoint
    rw [Finset.mem_sdiff, ← band, mem_toFinset]
    tauto
  have srcs_eq : (S.filter (· ∉ kept)).toFinset = vacated.toFinset \ s.freePhysPages.toFinset := by
    ext p
    have notKept : p ∈ vacated.toFinset → p ∉ kept := fun gone => Finset.disjoint_right.mp apart gone
    simp only [mem_toFinset, mem_filter, memS, decide_eq_true_eq, held, Finset.mem_sdiff,
      Finset.mem_union] at notKept ⊢
    tauto
  have dsts_eq : (D.filter (· ∈ kept)).toFinset = s.freePhysPages.toFinset ∩ kept := by
    ext p
    simp [memD]
  constructor
  · have sub : s.freePhysPages.toFinset ⊆ kept ∪ vacated.toFinset := by
      intro p mem
      rw [← band]
      exact placed.split.free_mem (mem_append_left _ (mem_toFinset.mp mem))
    have card : s.freePhysPages.toFinset.card = vacated.toFinset.card := by
      rw [toFinset_card_of_nodup free, toFinset_card_of_nodup back.nodup, vacatedLength]
    have exchanged := Lib.exchange_card apart sub card
    rwa [← srcs_eq, ← dsts_eq, toFinset_card_of_nodup (nodupS.filter _),
      toFinset_card_of_nodup (nodupD.filter _)] at exchanged
  · rw [movedTo, srcs_eq, dsts_eq, held]
    exact Lib.exchange_eq _ apart

/-- The walk of an urgent pass moves every survivor outside the packed band into a hole
inside it. -/
lemma Placed.walk_urgent (sorted : (s.inwards c).Pairwise fun p q => c.beyond q p = true)
    (settled : s.pendingReusePages = []) : ∃ srcs dsts,
      walk c [] [] (s.inwards c).reverse (s.allocatedPages c) (s.inwards c) none = srcs.zip dsts ∧
      srcs.length = dsts.length ∧ movedTo H srcs dsts = (s.packed c).band c := by
  obtain ⟨n, walked, all⟩ : ∃ n, walk c [] [] (s.inwards c).reverse (s.allocatedPages c) (s.inwards c) none
      = (((survivors c (s.inwards c) [] (s.allocatedPages c)).zip (s.inwards c).reverse).takeWhile
        (accepts c [])).take n ∧ (none = none → (s.inwards c).reverse.length ≤ n) :=
    walk_eq none (placed.cursor ends sorted)
  have memS : ∀ p, p ∈ survivors c (s.inwards c) [] (s.allocatedPages c) ↔ p ∈ H := fun p => by
    rw [← settled]
    exact placed.mem_survivors ends
  have sortedS : (survivors c (s.inwards c) [] (s.allocatedPages c)).Pairwise
      fun p q => c.beyond q p = true := survivors_sorted (placed.allocated_le ends)
  have memD : ∀ p, p ∈ (s.inwards c).reverse ↔ p ∈ s.freePhysPages := fun p => by
    rw [mem_reverse, inwards_perm.mem_iff]
  have sortedD : (s.inwards c).reverse.Pairwise fun p q => c.beyond p q = true :=
    pairwise_reverse.mpr sorted
  have nodupD := nodup_reverse.mpr (nodup_of_sorted sorted)
  obtain ⟨lengths, fills⟩ := placed.packs ends settled memS memD (nodup_of_sorted sortedS) nodupD
  have heldS : ∀ p ∈ survivors c (s.inwards c) [] (s.allocatedPages c), p ∈ s.band c := fun p mem =>
    placed.split.held_sub ((memS p).mp mem)
  have freeD : ∀ p ∈ (s.inwards c).reverse, p ∈ s.band c := fun p mem =>
    placed.split.free_mem (mem_append_left _ ((memD p).mp mem))
  generalize survivors c (s.inwards c) [] (s.allocatedPages c) = S at walked sortedS lengths fills heldS
  generalize (s.inwards c).reverse = D at walked all sortedD lengths fills freeD
  -- both lists cross the edge of the packed band once
  have splitS : S.filter (· ∉ (s.packed c).band c)
      ++ S.filter (fun p => !decide (p ∉ (s.packed c).band c)) = S := by
    refine Lib.filter_append_filter_not (sortedS.imp_of_mem fun {p q} _ memQ farther => ?_)
    simp only [decide_eq_true_eq]
    exact fun gone here => gone (placed.kept_of_beyond ends (heldS q memQ) farther here)
  have splitD : D.filter (· ∈ (s.packed c).band c)
      ++ D.filter (fun p => !decide (p ∈ (s.packed c).band c)) = D := by
    refine Lib.filter_append_filter_not (sortedD.imp_of_mem fun {p q} memP _ nearer => ?_)
    simp only [decide_eq_true_eq]
    exact placed.kept_of_beyond ends (freeD p memP) nearer
  have crossing : (S.zip D).takeWhile (accepts c [])
      = (S.filter (· ∉ (s.packed c).band c)).zip (D.filter (· ∈ (s.packed c).band c)) := by
    conv_lhs => rw [← splitS, ← splitD]
    refine Lib.takeWhile_zip_split lengths (fun p memP q memQ => ?_) fun p memP q memQ => ?_
    · rw [mem_filter, decide_eq_true_eq] at memP memQ
      have nearer := placed.beyond_of_kept ends memQ.2 (heldS p memP.1) memP.2
      simp [accepts, beyond_asymm nearer]
    · simp only [mem_filter, Bool.not_eq_true', decide_eq_false_iff_not, not_not] at memP memQ
      have farther := placed.beyond_of_kept ends memP.2 (freeD q memQ.1) memQ.2
      simp [accepts, farther]
  refine ⟨_, _, ?_, lengths, fills⟩
  rw [walked, crossing, take_of_length_le]
  refine le_trans ?_ (all rfl)
  rw [length_zip]
  exact (min_le_right ..).trans (length_filter_le ..)

end

/-! ### The whole flush -/

lemma settleInflightForward_eq :
    ∃ forward, s.settleInflightForward = { s with inflightForward := forward } := by
  unfold settleInflightForward
  split
  · exact ⟨_, rfl⟩
  · exact ⟨s.inflightForward, rfl⟩

lemma forgetFired_eq : ∃ forward, s.forgetFired fired = { s with inflightForward := forward } := by
  unfold forgetFired
  split
  · split
    · exact ⟨_, rfl⟩
    · exact ⟨s.inflightForward, rfl⟩
  · exact ⟨s.inflightForward, rfl⟩

/-- The pool is as before but for the forward in flight. -/
lemma Inv.forward (inv : Inv c s written B R) (forward : Option (Nat × List Nat)) :
    Inv c { s with inflightForward := forward } written B R :=
  ⟨inv.mapped.congr, inv.placed.congr,
    inv.apart, inv.reserved⟩

lemma sorted_insertionSort (nodup : pages.Nodup) :
    (pages.insertionSort (· ≤ ·)).Pairwise (· < ·) := by
  have distinct : (pages.insertionSort (· ≤ ·)).Nodup :=
    (perm_insertionSort _ _).nodup_iff.mpr nodup
  exact (pairwise_insertionSort _ pages).imp₂ (fun _ _ => lt_of_le_of_ne) distinct

lemma Inv.drain (inv : Inv c s written B R) :
    Inv c (s.drainPendingReuse fired urgent) written B R :=
  ⟨inv.mapped.congr, inv.placed.drain, inv.apart, inv.reserved⟩

lemma Inv.readied (inv : Inv c s written B R) (fired : Nat → Bool) (urgent : Bool)
    (lazy : c.lazyCompaction = true) (ends : c.growDirection ≠ .float) :
    Inv c (s.readied c fired urgent) written B R ∧ Shrunk c s (s.readied c fired urgent) ∧
      ((s.readied c fired urgent).inwards c).Pairwise (fun p q => c.beyond q p = true) ∧
      (urgent = true → (s.readied c fired urgent).pendingReuse = []) := by
  have drained : Inv c (s.drainPendingReuse fired urgent) written B R := inv.drain
  obtain ⟨placed, shrunk, sub⟩ := drained.placed.absorb lazy ends (perm_insertionSort (· ≤ ·) _)
  have sorted := sorted_insertionSort (nodup_append.mp drained.placed.split.nodup).1
  refine ⟨⟨?_, placed, inv.apart, inv.reserved⟩,
    fun isOpaque => ⟨isOpaque_of_ends ends, (shrunk isOpaque).2⟩,
    (fromFrontier_sorted ends sorted).sublist sub, ?_⟩
  · exact drained.mapped.congr
  · rintro rfl
    simp [Pool.readied, absorbBoundaryHoles, drainPendingReuse]

/-! ### The moves succeed -/

lemma Mapped.moves_isSome (dsts : List Nat) (mapped : Mapped c s B written)
    (unblocked : s.movesBlocked = false) (bound : ∀ p ∈ srcs, p ∈ B) :
    ∃ s', s.movePagesAndRebind srcs dsts = some s' := by
  obtain ⟨vMoved, found⟩ : ∃ vMoved, srcs.mapM s.p2v = some vMoved := Lib.mapM_isSome fun p mem =>
    (mapped.linked.range p).mp (Finset.mem_insert_of_mem (bound p mem))
  unfold movePagesAndRebind
  rw [if_neg (by simp [unblocked]), found]
  exact ⟨_, rfl⟩

/-! ### The pass -/

/-- The count of live pages stays, and an urgent pass leaves no page aside. -/
def Closes (s s' : Pool γ) (urgent : Bool) : Prop :=
  s'.livePageCount = s.livePageCount ∧
    (urgent = true → s'.freePhysPages = [] ∧ s'.pendingReuse = [])

section

variable (inv : Inv c s written B ∅)
  (lazy : c.lazyCompaction = true)
  (ends : c.growDirection ≠ .float)
  (sorted : (s.inwards c).Pairwise fun p q => c.beyond q p = true)
include inv lazy ends sorted

/-- A pass that is not urgent, or finds no hole. -/
lemma Inv.pass
    (walked : moves = walk c s.pendingReusePages writeSet (s.inwards c).reverse (s.allocatedPages c)
      (s.inwards c) cap) (ran : s.commitMoveBatch fired latest moves = some (s', released)) :
    ∃ B', Inv c { s' with freePhysPages := fromFrontier c ((s.inwards c).take
      ((s.inwards c).length - moves.length)) ++ released } written B' ∅ := by
  have placed : Placed c s B := by simpa using inv.placed
  have front := placed.walk_front ends sorted walked
  have movable := placed.movable ends front
  refine ⟨_, (inv.mapped.commit movable ran).congr, ?_, by simp, ?_⟩
  · rw [Finset.union_empty]
    exact placed.commit lazy ends front ran
  · obtain ⟨vMoved, pending, -, rfl, -⟩ := commitMoveBatch_eq ran
    exact inv.reserved

/-- An urgent pass: every hole is closed. -/
lemma Inv.urgentPass (settled : s.pendingReuse = [])
    (walked : moves = walk c s.pendingReusePages [] (s.inwards c).reverse (s.allocatedPages c)
      (s.inwards c) none) (ran : s.commitMoveBatch fired none moves = some (s', released)) :
    ∃ B', Inv c { s' with watermarkPhysical := s.packedWatermark c, freePhysPages := [] } written B' ∅ := by
  have placed : Placed c s B := by simpa using inv.placed
  have noPending : s.pendingReusePages = [] := by rw [pendingReusePages, settled, flatMap_nil]
  have front := placed.walk_front ends sorted walked
  have movable := placed.movable ends front
  have mapped := inv.mapped.commit movable ran
  obtain ⟨srcs, dsts, pairs, lengths, fills⟩ := placed.walk_urgent ends sorted noPending
  obtain ⟨vacated, back, -⟩ := placed.retreated_packed ends
  have moved : movedTo B (moves.map Prod.fst) (moves.map Prod.snd) = (s.packed c).band c := by
    rw [walked, noPending, pairs, map_fst_zip lengths.le, map_snd_zip lengths.ge, fills]
  have count := (card_movedTo movable).trans (placed.count lazy).symm
  rw [moved] at mapped count
  obtain ⟨vMoved, pending, -, rfl, -, waits⟩ := commitMoveBatch_eq ran
  refine ⟨_, mapped.congr, ?_, by simp, inv.reserved⟩
  rw [Finset.union_empty]
  refine ⟨?_, placed.low_ge.trans back.low_ge, back.ordered, back.high_le.trans placed.high_le,
    fun eager => absurd lazy (by simp [eager]), fun eager => absurd lazy (by simp [eager]),
    fun _ => count.symm, fun float => absurd float ends⟩
  rw [pendingReusePages, waits rfl, settled]
  exact ⟨nodup_nil, by simp, fun p => by simp; rfl⟩

/-- The pass `_flush` makes when moves are allowed. -/
lemma Inv.flushReadied (unblocked : s.movesBlocked = false)
    (settled : urgent = true → s.pendingReuse = []) :
    ∃ s' n, s.flushReadied c fired urgent = some (s', n) ∧ Frees c s s' written ∅ [] ∧
      Closes s s' urgent := by
  have placed : Placed c s B := by simpa using inv.placed
  -- whatever the pass does with the forward in flight, its sources are bound
  have commit : ∀ (forward : Option (Nat × List Nat)) (latest cap) writeSet,
      ∃ t released, ({ s with inflightForward := forward } : Pool γ).commitMoveBatch fired latest
        (walk c s.pendingReusePages writeSet (s.inwards c).reverse (s.allocatedPages c) (s.inwards c)
          cap) = some (t, released) := by
    intro forward latest cap writeSet
    unfold commitMoveBatch
    dsimp only
    split
    · exact ⟨_, [], rfl⟩
    · obtain ⟨moved, ran⟩ := (inv.forward forward).mapped.moves_isSome _ unblocked
        (placed.movable ends (placed.walk_front ends sorted rfl)).bound
      rw [ran]
      split <;> exact ⟨_, _, rfl⟩
  unfold Pool.flushReadied
  dsimp only
  split
  · rename_i now
    rw [Bool.and_eq_true] at now
    obtain ⟨forward, forwarded⟩ := settleInflightForward_eq
    obtain ⟨t, released, committed⟩ := commit forward none none []
    have packed := (inv.forward forward).urgentPass lazy ends sorted (settled now.1) rfl committed
    obtain ⟨vacated, back, -⟩ := inv.placed.retreated_packed ends
    rw [forwarded]
    refine ⟨_, _, congrArg (Option.map _) committed, ?_⟩
    obtain ⟨_, _, found, rfl, -, waits⟩ := commitMoveBatch_eq committed
    exact ⟨⟨⟨packed, fun _ => ⟨isOpaque_of_ends ends, back.low_ge, back.high_le⟩⟩,
      unbinds_rebind found rfl fun _ _ entry => (Lib.unpair_eq_some.mp entry).2⟩,
      rfl, fun _ => ⟨rfl, (waits rfl).trans (settled now.1)⟩⟩
  · rename_i whole
    obtain ⟨forward, forwarded⟩ : ∃ forward, (if s.freePhysPages.isEmpty ||
        (topmostSurvivor c s.pendingReusePages (s.allocatedPages c)
          (fromFrontier c s.freePhysPages)).isNone then s else s.forgetFired fired)
        = { s with inflightForward := forward } := by
      split
      · exact ⟨s.inflightForward, rfl⟩
      · exact forgetFired_eq
    rw [forwarded]
    obtain ⟨t, released, committed⟩ := commit forward s.latestForwardDoneEvent
      (if urgent then none else some c.lazyMaxMovesPerCall) (s.inflightWriteSet fired)
    have passed := (inv.forward forward).pass lazy ends sorted rfl committed
    refine ⟨_, _, congrArg (Option.map _) committed, ?_⟩
    have quiet : urgent = true → s.inwards c = [] ∧ released = [] ∧ t.pendingReuse = [] := by
      intro now
      have packed : s.inwards c = [] := by
        have empty : s.freePhysPages = [] := by simpa [now] using whole
        exact (empty ▸ inwards_perm).eq_nil
      rw [packed] at committed
      cases committed
      exact ⟨packed, rfl, settled now⟩
    obtain ⟨_, _, found, rfl, -⟩ := commitMoveBatch_eq committed
    refine ⟨⟨⟨passed, fun _ => ⟨isOpaque_of_ends ends, le_rfl, le_rfl⟩⟩,
      unbinds_rebind found rfl fun _ _ entry => (Lib.unpair_eq_some.mp entry).2⟩, rfl, fun now => ?_⟩
    obtain ⟨packed, rfl, pending⟩ := quiet now
    change fromFrontier c ((s.inwards c).take _) ++ [] = [] ∧ _
    rw [packed, List.take_nil, (fromFrontier_perm []).eq_nil]
    exact ⟨rfl, pending⟩

end

/-- Pages reserved without virtual ids block moves. -/
lemma Inv.reserved_empty (inv : Inv c s written B R) (unblocked : s.movesBlocked = false) : R = ∅ := by
  simp only [movesBlocked, Bool.or_eq_false_iff, decide_eq_false_iff_not] at unblocked
  exact Finset.card_eq_zero.mp (Nat.le_zero.mp (inv.reserved.trans (by omega)))

/-- **`_flush` of an end pool** raises nothing and keeps the pool, and its band does not grow. -/
lemma Inv.flushEnd_isSome (fired : Nat → Bool) (urgent : Bool) (inv : Inv c s written B R)
    (ends : c.growDirection ≠ .float) : ∃ s' n, s.flushEnd c fired urgent = some (s', n) ∧
      Frees c s s' written R [] ∧
      (c.lazyCompaction = true → s.movesBlocked = false → Closes s s' urgent) := by
  unfold Pool.flushEnd
  split
  · rename_i eager
    exact ⟨s, 0, rfl, inv.frees_nothing _, fun lazy => by simp [lazy] at eager⟩
  rename_i lazy
  simp only [Bool.not_eq_true', Bool.not_eq_false] at lazy
  split
  · rename_i blocked
    exact ⟨_, 0, rfl, ⟨⟨⟨B, inv.drain⟩, fun _ => ⟨isOpaque_of_ends ends, le_rfl, le_rfl⟩⟩,
      .of_tables rfl rfl⟩, fun _ unblocked => by simp [unblocked] at blocked⟩
  rename_i unblocked
  rw [Bool.not_eq_true] at unblocked
  obtain rfl := inv.reserved_empty unblocked
  obtain ⟨ready, shrunk, sorted, settled⟩ := inv.readied fired urgent lazy ends
  obtain ⟨s', n, ran, ⟨⟨kept, shrunk'⟩, unbinds⟩, closes⟩ :
      ∃ s' n, (s.readied c fired urgent).flushReadied c fired urgent = some (s', n) ∧ _ :=
    ready.flushReadied lazy ends sorted unblocked settled
  exact ⟨s', n, ran, ⟨⟨kept, shrunk.trans shrunk'⟩, ⟨unbinds.fewer, unbinds.others⟩⟩, fun _ _ => closes⟩

lemma Inv.flushEnd (inv : Inv c s written B R) (ends : c.growDirection ≠ .float)
    (ran : s.flushEnd c fired urgent = some (s', n)) : Frees c s s' written R [] ∧
      (c.lazyCompaction = true → s.movesBlocked = false → Closes s s' urgent) := by
  obtain ⟨t, k, flushed, spec⟩ := inv.flushEnd_isSome fired urgent ends
  cases flushed.symm.trans ran
  exact spec

end Pool

end Sglang.Unified
