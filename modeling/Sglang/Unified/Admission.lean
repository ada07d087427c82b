/-
# Admission against the shared byte budget

`SharedSWAPrefillBudget` looks for the largest chunk whose full and window demand `can_reserve`
accepts, and `max_new_tokens_for_memory` for the largest number of new tokens that an empty pool
could hold. Both bisect, so both rest on `can_reserve` accepting every smaller demand, whatever is
to be evicted or compacted (`canReserveEnds_anti`), and on a window estimate that grows with the
request (`estimateSwaKvTokens_mono`).

* `searches_find_greatest` — both searches answer with the largest number that passes.
-/

import Mathlib.Algebra.Order.BigOperators.Group.List
import Sglang.Unified.Budget

namespace Sglang.Unified

open Sglang.Alloc (pagesFor pagesFor_mono)

/-- `estimate_swa_kv_tokens`. -/
def estimateSwaKvTokens (extendInputLen maxNewTokens : Int) (slidingWindowSize : Option Int)
    (pageSize : Nat) (allocationLimit : Option Int) (hostHitLength : Int) : Int :=
  let allocated := allocationLimit.elim extendInputLen (min extendInputLen)
  let wanted := extendInputLen + maxNewTokens
  let reserved := (slidingWindowSize.filter (0 < ·)).elim (wanted + pageSize)
    fun window => max (allocated - window) 0 + min wanted window + pageSize
  if 0 < hostHitLength then reserved + -(-hostHitLength / pageSize) * pageSize else reserved

section

variable {extend extend' new new' : Int} (window limit : Option Int) (pageSize : Nat) (hit : Int)

lemma estimateSwaKvTokens_mono (le : extend ≤ extend') (le' : new ≤ new') :
    estimateSwaKvTokens extend new window pageSize limit hit ≤
      estimateSwaKvTokens extend' new' window pageSize limit hit := by
  have allocated : limit.elim extend (min extend) ≤ limit.elim extend' (min extend') := by
    cases limit with
    | none => exact le
    | some limit => exact min_le_min_right limit le
  unfold estimateSwaKvTokens
  cases window.filter (0 < ·) with
  | none | some window =>
    simp only [Option.elim_none, Option.elim_some]
    split <;> omega

lemma estimateSwaKvTokens_nonneg (pos : 0 < pageSize) (nonneg : 0 ≤ extend) (nonneg' : 0 ≤ new) :
    0 ≤ estimateSwaKvTokens extend new window pageSize limit hit := by
  have pages : 0 < hit → 0 ≤ -(-hit / pageSize) * pageSize := by
    intro fits
    apply mul_nonneg _ (Int.natCast_nonneg _)
    exact neg_nonneg.mpr (Int.ediv_nonpos_of_nonpos_of_neg (by omega) (Int.ofNat_lt.mpr pos))
  unfold estimateSwaKvTokens
  cases found : window.filter (0 < ·) with
  | none =>
    simp only [Option.elim_none]
    split <;> omega
  | some window =>
    have wide := of_decide_eq_true (Option.filter_eq_some_iff.mp found).2
    simp only [Option.elim_some]
    split <;> omega

end

/-- What a `SharedSWAPrefillBudget` has reserved, and what its tree could evict. `running` are the
offsets of the running requests that are in `totalOffset`: a preempted request gives its own back. -/
structure SharedBudget where
  totalOffset : Rat
  swaOffset : Rat
  running : List Rat
  fullEvictableSize : Int
  swaEvictableSize : Int
  slidingWindowSize : Option Int
  running_nonneg : ∀ r ∈ running, 0 ≤ r
  running_le : running.sum ≤ totalOffset
  swa_nonneg : 0 ≤ swaOffset

namespace SharedBudget

lemma total_nonneg (b : SharedBudget) : 0 ≤ b.totalOffset :=
  (List.sum_nonneg b.running_nonneg).trans b.running_le

/-- `__init__`, and the offsets of the running batch that the adder counts on top. -/
def init (numMixedDecodeTokens : Nat) (running : List Rat) (nonneg : ∀ r ∈ running, 0 ≤ r)
    (fullEvictableSize swaEvictableSize : Int) (slidingWindowSize : Option Int) : SharedBudget where
  totalOffset := numMixedDecodeTokens + running.sum
  swaOffset := numMixedDecodeTokens
  running
  fullEvictableSize
  swaEvictableSize
  slidingWindowSize
  running_nonneg := nonneg
  running_le := le_add_of_nonneg_left (Nat.cast_nonneg _)
  swa_nonneg := Nat.cast_nonneg _

/-- `reserve`. -/
def reserve (b : SharedBudget) (pageSize : Nat) (pos : 0 < pageSize)
    (extendInputLen maxNewTokens extraTokens : Nat) (chunkLimit : Option Int) : SharedBudget :=
  let extendInputLen := pagesFor pageSize extendInputLen * pageSize
  { b with
    totalOffset := b.totalOffset + (extendInputLen + pageSize + extraTokens + maxNewTokens : Nat)
    swaOffset := b.swaOffset + estimateSwaKvTokens extendInputLen maxNewTokens b.slidingWindowSize
      pageSize chunkLimit 0
    running_le := b.running_le.trans (le_add_of_nonneg_right (Nat.cast_nonneg _))
    swa_nonneg := add_nonneg b.swa_nonneg (Rat.intCast_nonneg.mpr (estimateSwaKvTokens_nonneg _ _ _ _
      pos (Int.natCast_nonneg _) (Int.natCast_nonneg _))) }

/-- The adder takes the offset of a running request it preempts out again. -/
def preempt (b : SharedBudget) (offset : Rat) (mem : offset ∈ b.running) : SharedBudget :=
  { b with
    totalOffset := b.totalOffset - offset
    running := b.running.erase offset
    running_nonneg := fun r rest => b.running_nonneg r (List.mem_of_mem_erase rest)
    running_le := by
      have le := b.running_le
      rw [← List.sum_erase mem] at le
      linarith }

end SharedBudget

namespace Hybrid

variable {γ : Type} (h : Hybrid) (s : Chain γ) (sizeFull sizeSwa : Nat) (b : SharedBudget)

/-- `_fits`. -/
def budgetFits (fullTokens swaTokens : Rat) (emptyPool : Bool) : Bool :=
  h.canReserveEnds sizeFull sizeSwa s (fullTokens + if emptyPool then 0 else b.totalOffset)
    (swaTokens + if emptyPool then 0 else b.swaOffset)
    (if emptyPool then 0 else b.fullEvictableSize) (if emptyPool then 0 else b.swaEvictableSize)
    emptyPool emptyPool

section

variable (chunkLimit : Option Int) (swaHostHitLength : Int)

/-- The joint demand of a chunk passes. -/
def chunkFits (tokens : Nat) : Bool :=
  h.budgetFits s sizeFull sizeSwa b (tokens + h.pageSize)
    (estimateSwaKvTokens tokens 0 b.slidingWindowSize h.pageSize chunkLimit swaHostHitLength) false

/-- `_joint_chunk_cap`. -/
def jointChunkCap (maxChunkTokens : Int) : Nat :=
  let fits := h.chunkFits s sizeFull sizeSwa b chunkLimit swaHostHitLength
  searchLast (fun mid => fits (mid * h.pageSize)) 0
    ((max 0 maxChunkTokens).toNat / h.pageSize) * h.pageSize

end

variable (inputTokens : Nat) (slidingWindowSize chunkSize : Option Int)

/-- A request with that many new tokens fits an empty pool. -/
def memoryFits (candidate : Nat) : Bool :=
  h.canReserveEnds sizeFull sizeSwa s (inputTokens + candidate + h.pageSize)
    (estimateSwaKvTokens inputTokens candidate slidingWindowSize h.pageSize chunkSize 0)
    0 0 true true

/-- `max_new_tokens_for_memory`. -/
def maxNewTokensForMemory (maxNewTokens : Nat) : Option Nat :=
  let fits := h.memoryFits s sizeFull sizeSwa inputTokens slidingWindowSize chunkSize
  if !fits 0 then none
  else if fits maxNewTokens then some maxNewTokens
  else some (searchLast fits 0 maxNewTokens)

end Hybrid

/-! ### Smaller demands -/

namespace Hybrid

variable {γ : Type} {h : Hybrid} {s : Chain γ} {sizeFull sizeSwa m n input : Nat}

lemma pages_mono {x y : Rat} (le : x ≤ y) :
    pagesFor h.pageSize x.ceil.toNat ≤ pagesFor h.pageSize y.ceil.toNat :=
  pagesFor_mono h.full.pageSize_pos
    (Int.toNat_le_toNat (Rat.ceil_le_iff.mpr (le.trans Rat.le_ceil)))

/-- **Smaller demands pass**, with evictable pages and compaction as with an empty pool. -/
lemma canReserveEnds_anti {full full' swa swa' : Rat} {fullEvictable swaEvictable : Int}
    {emptyPool slack : Bool} (nonneg : 0 ≤ full') (nonneg' : 0 ≤ swa') (le : full' ≤ full)
    (le' : swa' ≤ swa) (passes : h.canReserveEnds sizeFull sizeSwa s full swa fullEvictable
      swaEvictable emptyPool slack = true) :
    h.canReserveEnds sizeFull sizeSwa s full' swa' fullEvictable swaEvictable emptyPool slack
      = true := by
  have more := nonneg.trans le
  have more' := nonneg'.trans le'
  unfold canReserveEnds at passes ⊢
  rw [if_neg (by simp [more, more'])] at passes
  rw [if_neg (by simp [nonneg, nonneg'])]
  split at passes
  · cases passes
  rename_i strict
  rw [if_neg]
  · rw [Option.isSome_iff_ne_none, Ne, reclaimPlan_none_iff more more', Bool.not_eq_false]
      at passes
    rw [Option.isSome_iff_ne_none, Ne, reclaimPlan_none_iff nonneg nonneg', Bool.not_eq_false]
    exact fitsPageDemand_mono (pages_mono le) (pages_mono le') passes
  · simp only [Bool.and_eq_true, Bool.or_eq_true, decide_eq_true_eq] at strict ⊢
    intro tight
    exact strict ⟨tight.1, tight.2.imp le.trans' le'.trans'⟩

lemma chunkFits_anti {b : SharedBudget} {limit : Option Int} {hit : Int} (le : m ≤ n)
    (passes : h.chunkFits s sizeFull sizeSwa b limit hit n = true) :
    h.chunkFits s sizeFull sizeSwa b limit hit m = true := by
  have total := b.total_nonneg
  have swa := b.swa_nonneg
  have smaller := estimateSwaKvTokens_mono b.slidingWindowSize limit h.pageSize hit
    (Int.ofNat_le.mpr le) (le_refl 0)
  have nonneg := estimateSwaKvTokens_nonneg b.slidingWindowSize limit h.pageSize hit
    h.full.pageSize_pos (Int.natCast_nonneg m) (le_refl 0)
  apply canReserveEnds_anti _ _ _ _ passes
  · positivity
  · exact add_nonneg (Rat.intCast_nonneg.mpr nonneg) swa
  · gcongr
  · gcongr

lemma memoryFits_anti {window chunk : Option Int} (le : m ≤ n)
    (passes : h.memoryFits s sizeFull sizeSwa input window chunk n = true) :
    h.memoryFits s sizeFull sizeSwa input window chunk m = true := by
  have smaller := estimateSwaKvTokens_mono window chunk h.pageSize 0 (le_refl (input : Int))
    (Int.ofNat_le.mpr le)
  have nonneg := estimateSwaKvTokens_nonneg window chunk h.pageSize 0 h.full.pageSize_pos
    (Int.natCast_nonneg input) (Int.natCast_nonneg m)
  apply canReserveEnds_anti _ _ _ _ passes
  · positivity
  · exact Rat.intCast_nonneg.mpr nonneg
  · gcongr
  · exact_mod_cast smaller

/-- **The searches are exact.** In every state `_joint_chunk_cap` is the largest page multiple not
above `max_chunk_tokens` that passes, or 0, and `max_new_tokens_for_memory` the largest candidate
not above the request, unless not even 0 passes. -/
theorem searches_find_greatest (h : Hybrid) (s : Chain γ) (sizeFull sizeSwa : Nat) :
    (∀ (b : SharedBudget) (chunkLimit : Option Int) (hit maxChunkTokens : Int),
      IsGreatest (insert 0 {n : Nat | h.pageSize ∣ n ∧ (n : Int) ≤ maxChunkTokens ∧
          h.chunkFits s sizeFull sizeSwa b chunkLimit hit n = true})
        (h.jointChunkCap s sizeFull sizeSwa b chunkLimit hit maxChunkTokens)) ∧
    ∀ (inputTokens maxNewTokens : Nat) (window chunkSize : Option Int),
      let fits := h.memoryFits s sizeFull sizeSwa inputTokens window chunkSize
      let found :=
        h.maxNewTokensForMemory s sizeFull sizeSwa inputTokens window chunkSize maxNewTokens
      (found = none ↔ fits 0 = false) ∧
        ∀ n ∈ found, IsGreatest {k | k ≤ maxNewTokens ∧ fits k = true} n := by
  constructor
  · intro b limit hit most
    have pos : 0 < h.pageSize := h.full.pageSize_pos
    have down : ∀ i j, i ≤ j → h.chunkFits s sizeFull sizeSwa b limit hit (j * h.pageSize) = true →
        h.chunkFits s sizeFull sizeSwa b limit hit (i * h.pageSize) = true :=
      fun i j le => chunkFits_anti (Nat.mul_le_mul_right _ le)
    unfold jointChunkCap
    dsimp only
    generalize passes : (fun mid => h.chunkFits s sizeFull sizeSwa b limit hit _) = p
    constructor
    · obtain ⟨found, below⟩ :=
        searchLast_spec p 0 ((max 0 most).toNat / h.pageSize) (Nat.zero_le _)
      rw [Nat.le_div_iff_mul_le pos] at below
      rcases Nat.eq_zero_or_pos (searchLast p 0 ((max 0 most).toNat / h.pageSize)) with zero | reaches
      · simp [zero]
      · right
        refine ⟨dvd_mul_left .., ?_, ?_⟩
        · have := Nat.mul_pos reaches pos
          omega
        · subst passes
          exact found.resolve_left reaches.ne'
    · rintro n (rfl | ⟨⟨k, rfl⟩, le, fits⟩)
      · exact Nat.zero_le _
      rw [mul_comm] at fits le ⊢
      apply Nat.mul_le_mul_right
      subst passes
      apply le_searchLast down fits
      rw [Nat.le_div_iff_mul_le pos]
      omega
  · intro input most window chunk fits found
    have down : ∀ i j, i ≤ j → fits j = true → fits i = true := fun i j => memoryFits_anti
    have eq : found = if !fits 0 then none else if fits most then some most
      else some (searchLast fits 0 most) := rfl
    rw [eq]
    cases start : fits 0 with
    | false => simp
    | true =>
      simp only [Bool.not_true, Bool.false_eq_true, if_false]
      constructor
      · split <;> simp
      intro n mem
      split at mem
      · rename_i top
        cases mem
        exact ⟨⟨le_rfl, top⟩, fun k inside => inside.1⟩
      · cases mem
        obtain ⟨passes, below⟩ := searchLast_spec fits 0 most (Nat.zero_le _)
        constructor
        · refine ⟨below, passes.elim (fun same => ?_) id⟩
          rwa [same]
        · exact fun k inside => le_searchLast down inside.2 inside.1

/-- Two running requests, one of them preempted. -/
def preemptedBudget : SharedBudget :=
  (SharedBudget.init 0 [1 / 2, 3 / 2] (by decide +kernel) 0 0 (some 2)).preempt (3 / 2)
    (by decide +kernel)

/-- Of seven pages the running request takes one and a chunk of two tokens takes three of each
pool. -/
theorem searches_find_greatest_preempted : IsGreatest (insert 0 {n : Nat | lazyHybrid.pageSize ∣ n ∧
    (n : Int) ≤ 3 ∧ lazyHybrid.chunkFits Run.lazyStart.chain 7 7 preemptedBudget none 0 n = true})
      2 := by
  have greatest := (searches_find_greatest lazyHybrid Run.lazyStart.chain 7 7).1 preemptedBudget none 0 3
  have two : lazyHybrid.chunkFits Run.lazyStart.chain 7 7 preemptedBudget none 0 2 = true := by
    decide +kernel
  have three : lazyHybrid.chunkFits Run.lazyStart.chain 7 7 preemptedBudget none 0 3 = false := by
    decide +kernel
  have found : lazyHybrid.jointChunkCap Run.lazyStart.chain 7 7 preemptedBudget none 0 3 = 2 := by
    simp [jointChunkCap, searchLast, two, three, show lazyHybrid.pageSize = 1 from rfl]
  rwa [found] at greatest

end Hybrid

end Sglang.Unified
