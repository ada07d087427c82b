/-
# The KV indexer: the prefix scanner

One pass over the blocks of a request, with a state of constant size, answers how many leading
blocks a worker can serve. What it answers is a matter of boundaries: `Boundary` says of every
`N` whether a prefix of `N` blocks may end there.

* `legacy_run` — a scan without a spec answers a leading run.
* `Scanned` — what the state of a component-aware scan means for the blocks pushed so far.
* `computeWorkerPrefix_exact` — the answer is the largest boundary; for a worker without a spec
  the length of the leading run, or `0` if some block has components.
-/

import Mathlib.Data.List.Infix
import Mathlib.Order.Bounds.Basic
import Sglang.Indexer.Backend

namespace Sglang.Indexer

open List

open Component (mamba swa)

namespace WorkerPrefixScanner

variable {views before after part : List (Option BlockComponents)} {n p : Nat} {saw : Bool}

/-- No block has components. -/
def Plain (views : List (Option BlockComponents)) : Prop :=
  ∀ view ∈ views, (view.any fun b => b.tierMasks.any fun (_, mask) => mask != 0) = false

variable (spec : WorkerCacheSpec) (view : Option BlockComponents) {s : WorkerPrefixScanner}

lemma push_plain {view : Option BlockComponents} {contiguous : Bool}
    (plain : (view.any fun b => b.tierMasks.any fun (_, mask) => mask != 0) = false) :
    push ⟨n, .legacy p contiguous false⟩ view =
      ⟨n + 1, .legacy (if contiguous && view.isSome then n + 1 else p)
        (contiguous && view.isSome) false⟩ := by
  unfold push
  rw [plain]
  rfl

/-- Blocks after a gap add nothing. -/
lemma legacy_broken (plain : Plain views) :
    (views.foldl push ⟨n, .legacy p false false⟩).prefixLen = p := by
  induction views generalizing n with
  | nil => rfl
  | cons view views ih =>
    rw [foldl_cons, push_plain (plain view mem_cons_self)]
    exact ih fun x mem => plain x (mem_cons_of_mem _ mem)

/-- A legacy scan counts the leading blocks that are there. -/
theorem legacy_run (plain : Plain views) : (views.foldl push ⟨n, .legacy n true false⟩).prefixLen =
      n + (views.takeWhile Option.isSome).length := by
  induction views generalizing n with
  | nil => rfl
  | cons view views ih =>
    have rest : Plain views := fun x mem => plain x (mem_cons_of_mem _ mem)
    rw [foldl_cons, push_plain (plain view mem_cons_self)]
    cases view with
    | none => exact legacy_broken rest
    | some b =>
      have step := ih rest (n := n + 1)
      rw [takeWhile_cons_of_pos rfl, length_cons]
      exact step.trans (by omega)

/-- What the FULL component alone asks of a block. -/
def fullOk : Bool :=
  componentAvailable view .full spec.fullTierMask

/-! ### Boundaries -/

def swaOk : Bool :=
  componentAvailable view .swa spec.swaTierMask

def mambaOk : Bool :=
  componentAvailable view .mamba spec.mambaTierMask

/-- The tokens of some blocks. -/
def tokens (views : List (Option BlockComponents)) : Nat :=
  (views.map fun view => (view.map BlockComponents.tokenCount).getD 0).sum

/-- An unbroken run at the end of some blocks that reaches their head or fills the window. -/
def SwaRun (views run : List (Option BlockComponents)) : Prop :=
  run ≠ [] ∧ run <:+ views ∧ (∀ view ∈ run, swaOk spec view = true) ∧
    (run = views ∨ spec.swaWindowTokens ≤ tokens run)

/-- A prefix of `N` blocks may end here. -/
structure Boundary (spec : WorkerCacheSpec) (views : List (Option BlockComponents)) (N : Nat) :
    Prop where
  pos : 0 < N
  le : N ≤ views.length
  full : ∀ view ∈ views.take N, fullOk spec view = true
  swa : spec.components.testBit swa.bit = true → ∃ run, SwaRun spec (views.take N) run
  mamba : spec.components.testBit mamba.bit = true →
    ∀ view ∈ views[N - 1]?, mambaOk spec view = true

/-- A spec that the scanner can work with. -/
def Valid : Prop :=
  spec.components ≠ 0 ∧ spec.version ≤ supportedSpecVersion ∧
    (spec.components.testBit swa.bit = true → spec.swaWindowTokens ≠ 0)

variable {spec : WorkerCacheSpec} {view : Option BlockComponents} {N best run : Nat}
  {active broken contiguous : Bool}

/-- Blocks after a boundary do not matter to it. -/
lemma boundary_append (le : N ≤ views.length) :
    Boundary spec (views ++ [view]) N ↔ Boundary spec views N := by
  have same : (views ++ [view]).take N = views.take N := take_append_of_le_length le
  have last : 0 < N → (views ++ [view])[N - 1]? = views[N - 1]? := fun pos =>
    getElem?_append_left (by omega)
  constructor
  · rintro ⟨pos, -, full, swa, mamba⟩
    rw [same] at full swa
    rw [last pos] at mamba
    exact ⟨pos, le, full, swa, mamba⟩
  · rintro ⟨pos, -, full, swa, mamba⟩
    rw [← same] at full swa
    rw [← last pos] at mamba
    exact ⟨pos, by rw [length_append]; omega, full, swa, mamba⟩

/-- The last block is a boundary if all have FULL, a run ends there and it has MAMBA. -/
lemma boundary_last : Boundary spec (views ++ [view]) (views.length + 1) ↔
    (∀ x ∈ views ++ [view], fullOk spec x = true) ∧
      (spec.components.testBit swa.bit = true → ∃ run, SwaRun spec (views ++ [view]) run) ∧
      (spec.components.testBit mamba.bit = true → mambaOk spec view = true) := by
  have whole : (views ++ [view]).take (views.length + 1) = views ++ [view] :=
    take_of_length_le (by simp)
  have last : (views ++ [view])[views.length + 1 - 1]? = some view := by simp
  constructor
  · rintro ⟨-, -, full, swa, mamba⟩
    rw [whole] at full swa
    rw [last] at mamba
    exact ⟨full, swa, fun needs => mamba needs view rfl⟩
  · rintro ⟨full, swa, mamba⟩
    refine ⟨by omega, by simp, ?_, ?_, fun needs x here => ?_⟩
    · rwa [whole]
    · rwa [whole]
    · rw [last] at here
      exact Option.some.inj here ▸ mamba needs

/-- What the run and the flag of a scan say of the blocks so far: SWA is there on all of them,
or the run is what follows the last block without it. -/
def SwaState (spec : WorkerCacheSpec) (views : List (Option BlockComponents)) (run : Nat)
    (broken : Bool) : Prop :=
  (broken = false ∧ ∀ view ∈ views, swaOk spec view = true) ∨
    (broken = true ∧ ∃ before gap after, views = before ++ gap :: after ∧ swaOk spec gap = false ∧
      (∀ view ∈ after, swaOk spec view = true) ∧ run = tokens after)

lemma tokens_append (first second : List (Option BlockComponents)) :
    tokens (first ++ second) = tokens first + tokens second := by
  simp [tokens]

/-- A run does not reach over a gap. -/
lemma suffix_after_gap {gap : Option BlockComponents} (hole : swaOk spec gap = false)
    (all : ∀ view ∈ part, swaOk spec view = true) (suffix : part <:+ before ++ gap :: after) :
    part <:+ after := by
  have out : gap ∉ part := fun mem => by
    rw [all gap mem] at hole
    cases hole
  rcases suffix_or_suffix_of_suffix suffix (suffix_append before (gap :: after)) with
    inside | covers
  · rcases suffix_cons_iff.mp inside with same | inside
    · exact absurd (same ▸ mem_cons_self) out
    · exact inside
  · exact absurd (covers.subset mem_cons_self) out

/-- With SWA on the next block, a run ends there if the runs reach the head or fill the window. -/
lemma SwaState.extend (state : SwaState spec views run broken) {view : Option BlockComponents}
    (here : swaOk spec view = true) :
    SwaState spec (views ++ [view]) (run + tokens [view]) broken ∧
      ((∃ part, SwaRun spec (views ++ [view]) part) ↔
        broken = false ∨ spec.swaWindowTokens ≤ run + tokens [view]) := by
  rcases state with ⟨rfl, all⟩ | ⟨rfl, before, gap, after, rfl, hole, all, rfl⟩
  · have whole : ∀ x ∈ views ++ [view], swaOk spec x = true := by
      intro x mem
      rcases mem_append.mp mem with old | new
      · exact all x old
      · exact mem_singleton.mp new ▸ here
    refine ⟨.inl ⟨rfl, whole⟩, iff_of_true ?_ (.inl rfl)⟩
    exact ⟨views ++ [view], by simp, suffix_rfl, whole, .inl rfl⟩
  · have rest : ∀ x ∈ after ++ [view], swaOk spec x = true := by
      intro x mem
      rcases mem_append.mp mem with old | new
      · exact all x old
      · exact mem_singleton.mp new ▸ here
    have split : (before ++ gap :: after) ++ [view] = before ++ gap :: (after ++ [view]) := by simp
    rw [split]
    refine ⟨.inr ⟨rfl, before, gap, after ++ [view], rfl, hole, rest, (tokens_append _ _).symm⟩, ?_⟩
    rw [← tokens_append]
    constructor
    · rintro ⟨part, -, suffix, available, whole | filled⟩
      · subst whole
        have mem := available gap (by simp)
        rw [hole] at mem
        cases mem
      · obtain ⟨rest, whole⟩ := suffix_after_gap hole available suffix
        rw [← whole, tokens_append]
        exact .inr (filled.trans (Nat.le_add_left _ _))
    · rintro (unbroken | filled)
      · cases unbroken
      · exact ⟨after ++ [view], by simp, .trans (suffix_cons gap _)
          (suffix_append before _), rest, .inr filled⟩

/-- Without SWA on the next block no run ends there. -/
lemma SwaState.gap (views : List (Option BlockComponents)) (hole : swaOk spec view = false) :
    SwaState spec (views ++ [view]) 0 true ∧ ¬ ∃ part, SwaRun spec (views ++ [view]) part := by
  refine ⟨.inr ⟨rfl, views, view, [], rfl, hole, by simp, rfl⟩, ?_⟩
  rintro ⟨part, nonempty, suffix, all, -⟩
  have empty := suffix_after_gap hole all suffix
  exact nonempty (suffix_nil.mp empty)

/-- What the state of a component-aware scan means. -/
structure Scanned (spec : WorkerCacheSpec) (views : List (Option BlockComponents)) (active : Bool)
    (best run : Nat) (broken : Bool) : Prop where
  all : active = true ↔ ∀ view ∈ views, fullOk spec view = true
  greatest : IsGreatest {N | N = 0 ∨ Boundary spec views N} best
  swa : active = true → spec.components.testBit swa.bit = true →
    SwaState spec views run broken

lemma scanned_nil : Scanned spec [] true 0 0 false where
  all := by simp
  greatest := by
    refine ⟨.inl rfl, ?_⟩
    rintro N (rfl | boundary)
    · exact le_refl _
    · exact boundary.le
  swa _ _ := .inl ⟨rfl, by simp⟩

/-- The largest boundary after one more block. -/
lemma greatest_append (greatest : IsGreatest {N | N = 0 ∨ Boundary spec views N} best)
    (ok : Bool) (last : ok = true ↔ Boundary spec (views ++ [view]) (views.length + 1)) :
    IsGreatest {N | N = 0 ∨ Boundary spec (views ++ [view]) N}
      (if ok then views.length + 1 else best) := by
  have bound : best ≤ views.length := by
    rcases greatest.1 with zero | boundary
    · exact zero ▸ Nat.zero_le _
    · exact boundary.le
  constructor
  · split
    · rename_i here
      exact .inr (last.mp here)
    · exact greatest.1.imp_right (boundary_append bound).mpr
  · rintro N (rfl | boundary)
    · exact Nat.zero_le _
    · have le : N ≤ views.length + 1 := by simpa using boundary.le
      split
      · exact le
      · rename_i past
        by_cases end_ : N = views.length + 1
        · exact absurd (last.mpr (end_ ▸ boundary)) past
        · exact greatest.2 (.inr ((boundary_append (by omega)).mp boundary))

/-- The SWA rule at the next block. -/
lemma swaRule_spec (view : Option BlockComponents)
    (state : spec.components.testBit swa.bit = true → SwaState spec views run broken) :
    (spec.components.testBit swa.bit = true →
      SwaState spec (views ++ [view]) (swaRule spec view run broken).1
        (swaRule spec view run broken).2.1) ∧
    ((swaRule spec view run broken).2.2 = true ↔ (spec.components.testBit swa.bit = true →
        ∃ part, SwaRun spec (views ++ [view]) part)) := by
  unfold swaRule
  cases needs : spec.components.testBit swa.bit with
  | false => simp
  | true =>
    have state := state needs
    cases here : componentAvailable view .swa spec.swaTierMask with
    | true =>
      have available : swaOk spec view = true := here
      obtain ⟨state', ends⟩ := state.extend available
      refine ⟨fun _ => state', ?_⟩
      simp only [if_true, Bool.or_eq_true, Bool.not_eq_true', decide_eq_true_eq, true_imp_iff]
      exact ends.symm
    | false =>
      obtain ⟨state', ends⟩ := SwaState.gap views here
      exact ⟨fun _ => state', iff_of_false (by simp) fun shown => ends (shown rfl)⟩

/-- A scan that has met a block without FULL is at its end. -/
lemma Scanned.settle (scanned : Scanned spec views active best run broken)
    (missing : ¬ ∀ x ∈ views ++ [view], fullOk spec x = true) :
    Scanned spec (views ++ [view]) false best run broken where
  all := iff_of_false (by simp) missing
  greatest := greatest_append scanned.greatest false
    (iff_of_false (by simp) fun boundary => missing (boundary_last.mp boundary).1)
  swa none := by cases none

lemma Scanned.push (scanned : Scanned spec views active best run broken)
    (view : Option BlockComponents) :
    ∃ active' best' run' broken',
      WorkerPrefixScanner.push ⟨views.length, .componentAware active best spec run broken⟩ view =
        ⟨(views ++ [view]).length, .componentAware active' best' spec run' broken'⟩ ∧
      Scanned spec (views ++ [view]) active' best' run' broken' := by
  have length : (views ++ [view]).length = views.length + 1 := by simp
  rw [length]
  cases active with
  | false =>
    refine ⟨false, best, run, broken, rfl, scanned.settle fun all => ?_⟩
    have still := scanned.all.mpr fun x mem => all x (mem_append_left _ mem)
    cases still
  | true =>
    have before := scanned.all.mp rfl
    cases here : fullOk spec view with
    | false =>
      refine ⟨false, best, run, broken, ?_, scanned.settle fun all => ?_⟩
      · change componentAvailable view .full spec.fullTierMask = false at here
        unfold WorkerPrefixScanner.push
        simp [here]
      · rw [all view (by simp)] at here
        cases here
    | true =>
      obtain ⟨state, ends⟩ := swaRule_spec view (scanned.swa rfl)
      have all : ∀ x ∈ views ++ [view], fullOk spec x = true := by
        intro x mem
        rcases mem_append.mp mem with old | new
        · exact before x old
        · exact mem_singleton.mp new ▸ here
      refine ⟨true, if (swaRule spec view run broken).2.2 &&
          (!spec.components.testBit mamba.bit || mambaOk spec view) then views.length + 1
        else best, _, _, ?_, ⟨iff_of_true rfl all, greatest_append scanned.greatest _ ?_, fun _ => state⟩⟩
      · change componentAvailable view .full spec.fullTierMask = true at here
        unfold WorkerPrefixScanner.push
        simp [here, mambaOk]
      · rw [boundary_last, Bool.and_eq_true, ends]
        refine ⟨fun both => ⟨all, both.1, fun needs => ?_⟩, fun all => ⟨all.2.1, ?_⟩⟩
        · simpa [needs] using both.2
        · cases needs : spec.components.testBit mamba.bit with
          | false => rfl
          | true => simpa using all.2.2 needs

lemma scanned_run (spec : WorkerCacheSpec) (views : List (Option BlockComponents)) :
    ∃ active best run broken, views.foldl push ⟨0, .componentAware true 0 spec 0 false⟩ =
        ⟨views.length, .componentAware active best spec run broken⟩ ∧
      Scanned spec views active best run broken := by
  induction views using reverseRecOn with
  | nil => exact ⟨true, 0, 0, false, rfl, scanned_nil⟩
  | append_singleton views view ih =>
    obtain ⟨active, best, run, broken, ran, scanned⟩ := ih
    rw [foldl_append, ran]
    exact scanned.push view

lemma new_valid (valid : Valid spec) :
    new (some spec) = ⟨0, .componentAware true 0 spec 0 false⟩ := by
  obtain ⟨nonempty, version, window⟩ := valid
  unfold new
  have first : ¬ (spec.components = 0 ∨ supportedSpecVersion < spec.version) := by
    rintro (bare | newer)
    · exact nonempty bare
    · omega
  have second : ¬ (spec.components.testBit swa.bit ∧ spec.swaWindowTokens = 0) :=
    fun both => window both.1 both.2
  dsimp only
  rw [if_neg first, if_neg second]

/-- Once a block has components, a legacy scan answers `0`. -/
lemma legacy_saw : (views.foldl push ⟨n, .legacy p contiguous true⟩).prefixLen = 0 := by
  induction views generalizing n p contiguous with
  | nil => rfl
  | cons view views ih => exact ih

lemma legacy_components (shown : ¬ Plain views) :
    (views.foldl push ⟨n, .legacy p contiguous false⟩).prefixLen = 0 := by
  induction views generalizing n p contiguous with
  | nil => exact absurd (fun _ mem => absurd mem (by simp)) shown
  | cons view views ih =>
    cases here : (view.any fun b => b.tierMasks.any fun (_, mask) => mask != 0) with
    | true =>
      rw [foldl_cons]
      unfold push
      rw [here]
      exact legacy_saw
    | false =>
      rw [foldl_cons, push_plain here]
      refine ih fun plain => shown fun x mem => ?_
      rcases mem_cons.mp mem with rfl | inside
      · exact here
      · exact plain x inside

end WorkerPrefixScanner

open WorkerPrefixScanner in
/-- The scanner answers with the largest boundary of the blocks, for every usable spec; without
a spec it counts the leading blocks that are held, or answers `0` if some block has components. -/
theorem computeWorkerPrefix_exact (views : List (Option BlockComponents)) : (∀ spec, Valid spec →
      IsGreatest {N | N = 0 ∨ Boundary spec views N} (computeWorkerPrefix (some spec) views)) ∧
    (Plain views → computeWorkerPrefix none views = (views.takeWhile Option.isSome).length) ∧
    (¬ Plain views → computeWorkerPrefix none views = 0) := by
  refine ⟨fun spec valid => ?_, fun plain => ?_, legacy_components⟩
  · obtain ⟨active, best, run, broken, ran, scanned⟩ := scanned_run spec views
    unfold computeWorkerPrefix
    rw [new_valid valid, ran]
    exact scanned.greatest
  · have run := legacy_run (n := 0) plain
    rw [zero_add] at run
    exact run

/-- FULL and SWA with a window of four tokens, on HBM and DRAM. -/
def windowSpec : WorkerCacheSpec := ⟨1, 3, 4, 6, 6, 6⟩

/-- A block of two tokens on HBM. -/
def pairBlock (mask : Nat) : Option BlockComponents := some ⟨2, [(.hbm, mask)]⟩

/-- The head loses SWA; two blocks fill the window again, and the block after them has no FULL. -/
theorem computeWorkerPrefix_exact_window : computeWorkerPrefix (some windowSpec)
        [pairBlock 3, pairBlock 1, pairBlock 3, pairBlock 3, pairBlock 2] = 4 ∧
      IsGreatest {N | N = 0 ∨ WorkerPrefixScanner.Boundary windowSpec
        [pairBlock 3, pairBlock 1, pairBlock 3, pairBlock 3, pairBlock 2] N} 4 ∧
      computeWorkerPrefix none [pairBlock 0, none, pairBlock 0] = 1 := by
  have four : computeWorkerPrefix (some windowSpec)
      [pairBlock 3, pairBlock 1, pairBlock 3, pairBlock 3, pairBlock 2] = 4 := by decide +kernel
  have valid : WorkerPrefixScanner.Valid windowSpec := by
    refine ⟨by decide, by decide, by decide⟩
  have plain : WorkerPrefixScanner.Plain [pairBlock 0, none, pairBlock 0] := by
    unfold WorkerPrefixScanner.Plain
    decide
  have greatest := (computeWorkerPrefix_exact
    [pairBlock 3, pairBlock 1, pairBlock 3, pairBlock 3, pairBlock 2]).1 windowSpec valid
  exact ⟨four, greatest, (computeWorkerPrefix_exact [pairBlock 0, none, pairBlock 0]).2.1 plain⟩

end Sglang.Indexer
