/-
# What an urgent flush and `make_room` deliver

* `Pool.Packed` — no hole, nothing pending, the live pages in one block at the fixed end.
* `Run.reachable_flush_packs` — what an urgent pass leaves in every reachable state, and the
  count every other pass keeps.
* `Run.reachable_makeRoom_delivers` — over every run; `Run.makeRoom_refuses` has an ask
  that fits the region and is refused.
-/

import Sglang.Unified.Runs

namespace Sglang.Unified

open Option (some.inj)

namespace Pool

variable {γ : Type} {c : SubPool} {s s' : Pool γ} {B H R : Finset Nat} {written : Nat → Option γ}

variable {fired : Nat → Bool}

lemma flush_eq_flushEnd (ends : c.growDirection ≠ .float) (fired : Nat → Bool) (urgent : Bool) :
    s.flush c fired urgent = s.flushEnd c fired urgent := by
  unfold Pool.flush
  cases grow : c.growDirection with
  | float => exact absurd grow ends
  | up => rfl
  | down => rfl

/-- The pool packed: `k` pages fewer are in its band, and no page of it is a hole or pending. -/
structure Packed (c : SubPool) (s s' : Pool γ) (k : Nat) : Prop where
  free : s'.freePhysPages = []
  pending : s'.pendingReuse = []
  count : s'.livePageCount = s.livePageCount
  /-- The live pages are the first ones from the fixed end. -/
  block : ∀ p, (∃ v, v ≠ 0 ∧ s'.v2p v = some p) ↔ ∃ d < s'.livePageCount, c.page d = p
  watermark : match c.growDirection with
    | .down => s'.watermarkPhysical = s.watermarkPhysical + k
    | _ => s'.watermarkPhysical + k = s.watermarkPhysical

lemma allocatedPages_end (ends : c.growDirection ≠ .float) :
    s.allocatedPages c = s.highPage c - s.lowPage c := by
  unfold allocatedPages lowPage highPage
  cases grow : c.growDirection with
  | up => rfl
  | down => simp only [Nat.sub_sub, Nat.add_comm]
  | float => exact absurd grow ends

/-- The band of a lazily compacted pool is made of live pages, holes and pending pages. -/
lemma Placed.allocated_eq (placed : Placed c s H) (lazy : c.lazyCompaction = true)
    (ends : c.growDirection ≠ .float) :
    s.allocatedPages c = s.livePageCount + s.freePhysPages.length + s.pendingReusePages.length := by
  rw [allocatedPages_end ends, placed.card, placed.count lazy]
  omega

lemma Inv.mem_bound_iff (inv : Inv c s written B R) {p : Nat} :
    p ∈ B ↔ ∃ v, v ≠ 0 ∧ s.v2p v = some p := by
  have mapped := inv.mapped
  constructor
  · intro mem
    obtain ⟨v, bound⟩ := (mapped.linked.range p).mp (Finset.mem_insert_of_mem mem)
    have forward := (mapped.linked.inverse v p).mpr bound
    refine ⟨v, ?_, forward⟩
    rintro rfl
    exact mapped.real (some.inj (mapped.sink.symm.trans forward) ▸ mem)
  · rintro ⟨v, real, bound⟩
    apply Finset.mem_of_mem_insert_of_ne (mapped.linked.mem_bound bound)
    rintro rfl
    exact real (mapped.linked.injective bound mapped.sink)

/-- **An urgent flush** packs the pool. -/
lemma Inv.flushEnd_packs {n : Nat} (inv : Inv c s written B R) (lazy : c.lazyCompaction = true)
    (unblocked : s.movesBlocked = false) (ran : s.flushEnd c fired true = some (s', n)) :
    Packed c s s' (s.freePhysPages.length + s.pendingReusePages.length) := by
  have ends := c.ends_of_lazy lazy
  obtain rfl := inv.reserved_empty unblocked
  obtain ⟨⟨⟨⟨B', inv'⟩, -⟩, -⟩, closes⟩ := inv.flushEnd ends ran
  obtain ⟨count, closed⟩ := closes lazy unblocked
  obtain ⟨free, pending⟩ := closed rfl
  have before := inv.placed.allocated_eq lazy ends
  have after := inv'.placed.allocated_eq lazy ends
  rw [free, pendingReusePages, pending, count, List.flatMap_nil] at after
  refine ⟨free, pending, count, fun p => ?_, ?_⟩
  · -- the band has no other pages than the bound ones
    have all : s'.livePageCount = s'.allocatedPages c := count.trans after.symm
    rw [← inv'.mem_bound_iff, all, ← mem_band_iff_page ends, inv'.placed.split.cover, free,
      pendingReusePages, pending]
    simp
  · have order := inv.placed.ordered
    have order' := inv'.placed.ordered
    rw [allocatedPages_end ends] at before after
    simp only [List.length_nil] at after
    cases grow : c.growDirection with
    | float => exact absurd grow ends
    | up | down =>
      simp only [lowPage, highPage, grow] at *
      omega

end Pool

namespace Run

variable {γ : Type} [Zero γ]

/-- **Urgent flushes pack.** In every reachable state, for a lazily compacted member with no move
blocked: an urgent `_flush` leaves no hole and nothing pending, the live pages are one block at
the fixed end, and the watermark moved back by the pages that were holes or pending. Any pass
keeps the band made of live pages, holes and pending pages. -/
theorem reachable_flush_packs (l : Layout) (r : Run γ) (reached : (machine l).Reachable r)
    (m : Member) (c : SubPool) (here : c ∈ l.pool m) (lazy : c.lazyCompaction = true)
    (fired : Nat → Bool) :
    ((r.chain m).movesBlocked = false → ∃ pool n, (r.chain m).flush c fired true = some (pool, n) ∧
      Pool.Packed c (r.chain m) pool
        ((r.chain m).freePhysPages.length + (r.chain m).pendingReusePages.length)) ∧
    ∃ pool n, (r.chain m).flush c fired false = some (pool, n) ∧ pool.allocatedPages c =
        pool.livePageCount + pool.freePhysPages.length + pool.pendingReusePages.length := by
  obtain ⟨B, R, inv⟩ := ((kept_inductive l).reachable reached).good.inv m c here
  have ends := c.ends_of_lazy lazy
  rw [Pool.flush_eq_flushEnd ends, Pool.flush_eq_flushEnd ends]
  constructor
  · intro unblocked
    obtain ⟨pool, n, ran, -⟩ := inv.flushEnd_isSome fired true ends
    exact ⟨pool, n, ran, inv.flushEnd_packs lazy unblocked ran⟩
  · obtain ⟨pool, n, ran, ⟨⟨⟨B', inv'⟩, -⟩, -⟩, -⟩ := inv.flushEnd_isSome fired false ends
    exact ⟨pool, n, ran, inv'.placed.allocated_eq lazy ends⟩

def lazyStart : Run Nat where
  chain := fun m => match m with
    | .high => Pool.clear lazyLayout.high fun _ => 0
    | _ => Pool.clear lazyLayout.low fun _ => 0
  written := fun _ _ => none

lemma start_lazy : Start lazyLayout lazyStart :=
  ⟨fun _ _ => 0, fun m c here => by cases m <;> cases here <;> rfl, fun _ _ => rfl⟩

/-- Three pages at the upper end; the first one is freed and its place filled. -/
theorem reachable_flush_packs_hole : ∃ (r : Run Nat) (pool : Pool Nat) (n : Nat),
    (machine lazyLayout).Reachable r ∧ (r.chain .high).freePhysPages = [5] ∧
      (r.chain .high).flush lazyLayout.high (fun _ => true) true = some (pool, n) ∧
      Pool.Packed lazyLayout.high (r.chain .high) pool 1 := by
  have three : (machine lazyLayout).Reachable _ :=
    .step (a := .alloc .high (fun _ => true) 3) (.start start_lazy) ⟨trivial, trivial⟩ rfl
  have freed := three.step (a := Op.free .high [1])
    ⟨fun c here => by cases here; decide, trivial⟩ rfl
  obtain ⟨pool, n, ran, packed⟩ := (reachable_flush_packs lazyLayout _ freed .high lazyLayout.high rfl
    rfl fun _ => true).1 rfl
  exact ⟨_, pool, n, freed, rfl, ran, packed⟩

/-- **`make_room` delivers exactly when the pages it has to move find room beyond themselves**: in
every reachable state, if the region of the float has `minBytes` beside the live pages and moves are
not blocked, then the gap on that side is at least `minBytes` afterwards, and the call says so, if
and only if they do. Otherwise tables, holes and span are as before. -/
theorem reachable_makeRoom_delivers (l : Layout) (r : Run γ) (reached : (machine l).Reachable r)
    (c : SubPool) (mid : c ∈ l.mid) (side : Pool.Side) (minBytes : Nat) :
    ∃ chain n, Chain.makeRoom l side minBytes r.chain = some (chain, n) ∧
      ((r.chain .mid).Possible c (Chain.bounds l r.chain .mid) minBytes →
        (minBytes ≤ n ∧ minBytes ≤ (chain .mid).gapSideBytes c (Chain.bounds l chain .mid) side ↔
          (r.chain .mid).Retreats c (Chain.bounds l r.chain .mid) side minBytes)) ∧
      (¬ (r.chain .mid).Possible c (Chain.bounds l r.chain .mid) minBytes →
        (r.chain .mid).Untouched (chain .mid)) := by
  have good := ((kept_inductive l).reachable reached).good
  obtain ⟨B, R, inv⟩ := good.inv .mid c mid
  obtain ⟨pool, n, ran, -, n_eq, delivers, refuses⟩ := inv.makeRoom_delivers side minBytes (l.mid_float c mid)
    (good.ordered.within mid)
  have called : Chain.makeRoom l side minBytes r.chain = some (.set r.chain .mid pool, n) := by
    rw [Chain.makeRoom, mid]
    exact congrArg (Option.map _) ran
  have gap : (Chain.set r.chain .mid pool .mid).gapSideBytes c
      (Chain.bounds l (.set r.chain .mid pool) .mid) side = n := n_eq.symm
  refine ⟨_, n, called, fun possible => ?_, refuses⟩
  rw [gap, and_self]
  exact delivers possible

/-- A float between two ends. -/
def floatLayout : Layout where
  low := smallPool .up false
  mid := some (smallPool .float true)
  high := smallPool .down false
  low_up := growDirection_smallPool .up false
  mid_float := by simp [smallPool]
  high_down := growDirection_smallPool .down false
  same_buffer := ⟨rfl, rfl⟩
  mid_buffer := by simp [smallPool]

def floatStart : Run Nat where
  chain := fun m => match m with
    | .low => Pool.clear floatLayout.low fun _ => 0
    | .mid => Pool.clear (smallPool .float true) fun _ => 0
    | .high => Pool.clear floatLayout.high fun _ => 0
  written := fun _ _ => none

lemma start_float : Start floatLayout floatStart :=
  ⟨fun _ _ => 0, fun m c here => by cases m <;> cases here <;> rfl, fun _ _ => rfl⟩

/-- The float has taken its whole region. -/
def floatSeven : Run Nat :=
  (step floatLayout floatStart (.alloc .mid (fun _ => true) 7)).getD floatStart

lemma reachable_seven : (machine floatLayout).Reachable floatSeven :=
  .step (a := .alloc .mid (fun _ => true) 7) (.start start_float) ⟨trivial, trivial⟩ rfl

/-- Pages 2 and 3 freed: the two pages at the top move down into the holes. -/
theorem reachable_makeRoom_delivers_below : ∃ (r : Run Nat) (chain : Chain Nat) (n : Nat),
    (machine floatLayout).Reachable r ∧
      (r.chain .mid).Possible (smallPool .float true) (Chain.bounds floatLayout r.chain .mid) 16 ∧
      Chain.makeRoom floatLayout .high 16 r.chain = some (chain, n) ∧ 16 ≤ n := by
  have freed := reachable_seven.step (a := Op.free .mid [2, 3])
    ⟨fun c here => by cases here; decide, trivial⟩ rfl
  obtain ⟨chain, n, ran, delivers, -⟩ := reachable_makeRoom_delivers floatLayout _ freed
    (smallPool .float true) rfl .high 16
  exact ⟨_, chain, n, freed, by decide, ran, ((delivers (by decide)).mpr (by decide)).1⟩

/-- Pages 4 and 6 freed: the region has two pages to spare, but only one hole lies below the two
live pages at the top, and `make_room` refuses. -/
theorem makeRoom_refuses : ∃ (r : Run Nat) (chain : Chain Nat), (machine floatLayout).Reachable r ∧
      (r.chain .mid).Possible (smallPool .float true) (Chain.bounds floatLayout r.chain .mid) 16 ∧
      Chain.makeRoom floatLayout .high 16 r.chain = some (chain, 0) ∧
      (chain .mid).gapSideBytes (smallPool .float true) (Chain.bounds floatLayout chain .mid) .high = 0 := by
  have freed := reachable_seven.step (a := Op.free .mid [4, 6])
    ⟨fun c here => by cases here; decide, trivial⟩ rfl
  exact ⟨_, _, freed, by decide, rfl, rfl⟩

end Run

end Sglang.Unified
