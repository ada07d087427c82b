/-
# Page arithmetic and the slot assignment of a batch

`alloc_extend_naive` and `alloc_decode_naive` of `allocator/paged.py` write the
slots of a whole batch in one vectorised pass over its output lanes. This module
keeps that shape and relates it to the row-by-row assignment the batch is meant
to have.

* `allocExtendNaive_eq` — the lanes of an extend batch are the rows' slots, each
  row filling the rest of its last page and then the next unused free pages.
* `allocDecodeNaive_eq` — the same for a decode batch, one slot per row.
* `mem_pagesOf_extendRows` — the pages a batch touches are exactly the prefix of the
  free list whose length `getNumNewPages` computes, and last pages of the rows.
-/

import Mathlib.Data.List.Sort
import Mathlib.Data.List.Dedup
import Mathlib.Data.List.GetD
import Mathlib.Tactic.Ring
import Mathlib.Tactic.Linarith

namespace Sglang.Alloc

open List Nat

/-! ### Pages and slots -/

/-- `(n + page_size - 1) // page_size`. -/
def pagesFor (ps n : Nat) : Nat := (n + ps - 1) / ps

/-- The slots of one page, in order. -/
def expandPage (ps page : Nat) : List Nat := (List.range ps).map (page * ps + ·)

/-- `out_pages[:, None] * page_size + arange(page_size)`, flattened. -/
def expandPages (ps : Nat) (pages : List Nat) : List Nat := pages.flatMap (expandPage ps)

/-- The pages of a tensor of slots, lane by lane. -/
def pagesOf (ps : Nat) (slots : List Nat) : List Nat := slots.map (· / ps)

/-- `torch.unique`: the distinct values in increasing order. -/
def unique (xs : List Nat) : List Nat := xs.dedup.insertionSort (· ≤ ·)

lemma mem_unique {xs : List Nat} {x : Nat} : x ∈ unique xs ↔ x ∈ xs := by
  rw [unique, mem_insertionSort, mem_dedup]

lemma nodup_unique (xs : List Nat) : (unique xs).Nodup :=
  ((perm_insertionSort (· ≤ ·) xs.dedup).nodup_iff).mpr (nodup_dedup xs)

/-- `torch.cumsum` from a running total. -/
def cumsumFrom (total : Nat) : List Nat → List Nat
  | [] => []
  | x :: xs => (total + x) :: cumsumFrom (total + x) xs

/-- `torch.cumsum`. -/
def cumsum (xs : List Nat) : List Nat := cumsumFrom 0 xs

/-- `torch.searchsorted(xs, v, right=True)` on a sorted `xs`. -/
def searchsortedRight (xs : List Nat) (v : Nat) : Nat := xs.countP (· ≤ v)

/-! ### Rows of a batch -/

/-- One row of an extend batch: `prefix_lens[i]`, `seq_lens[i]` and `last_loc[i]`
(`-1` for a row without a cached prefix). -/
structure ExtendRow where
  prefixLen : Nat
  seqLen : Nat
  lastLoc : Int
  prefix_le_seq : prefixLen ≤ seqLen
  deriving DecidableEq

namespace ExtendRow

variable (ps : Nat) (r : ExtendRow)

def extendLen : Nat := r.seqLen - r.prefixLen

def ceilPrefix : Nat := pagesFor ps r.prefixLen * ps

def ceilSeq : Nat := pagesFor ps r.seqLen * ps

def floorSeq : Nat := r.seqLen / ps * ps

/-- Lanes that fill the row's last, partly used page. -/
def num1 : Nat := min r.seqLen (r.ceilPrefix ps) - r.prefixLen

def doneAfter1 : Bool := r.prefixLen + r.num1 ps == r.seqLen

/-- Lanes on completely filled new pages. -/
def num2 : Nat := if r.doneAfter1 ps then 0 else r.floorSeq ps - r.ceilPrefix ps

/-- Lanes on the partly filled new page at the end. -/
def num3 : Nat := if r.doneAfter1 ps then 0 else r.seqLen - r.floorSeq ps

def pagesPerReq : Nat := r.num2 ps / ps + (if r.num3 ps > 0 then 1 else 0)

/-- `num_pages_after - num_pages_before`. -/
def newPages : Nat := pagesFor ps r.seqLen - pagesFor ps r.prefixLen

/-- The `val_phase1`/`val_phase2`/`val_phase3` selection of one lane, from the values
gathered for its owner: the row, the cumulative page counts and the lane's offset. -/
def lane (freePages : List Nat) (startNewPages endNewPages : Nat) (i : Nat) : Nat :=
  let rel2 := i - r.num1 ps
  let pageIdx2 := min (startNewPages + rel2 / ps) (freePages.length - 1)
  let rel3 := i - r.num1 ps - r.num2 ps
  let pageIdx3 := min (endNewPages - 1) (freePages.length - 1)
  if i < r.num1 ps then (r.lastLoc + 1 + i).toNat
  else if i < r.num1 ps + r.num2 ps then freePages.getD pageIdx2 0 * ps + rel2 % ps
  else freePages.getD pageIdx3 0 * ps + rel3

end ExtendRow

open ExtendRow (extendLen pagesPerReq newPages)

/-- Gather a per-row value at an owner index. -/
def gather {α : Type} [Inhabited α] (xs : List α) (i : Nat) : α := xs.getD i default

instance : Inhabited ExtendRow := ⟨⟨0, 0, -1, Nat.le_refl 0⟩⟩

/-- `alloc_extend_naive`; `none` when its assertion on an empty pool fails. -/
def allocExtendNaive (ps : Nat) (rows : List ExtendRow) (freePages : List Nat)
    (extendNumTokens : Nat) : Option (List Nat) :=
  let extendLens := rows.map extendLen
  let endPos := cumsum extendLens
  let startPos := List.zipWith (· - ·) endPos extendLens
  let owner := searchsortedRight endPos
  let offset j := j - gather startPos (owner j)
  if extendNumTokens = 0 then some []
  else if freePages.isEmpty then
    if rows.all (fun r => r.ceilSeq ps == r.ceilPrefix ps) then
      some ((List.range extendNumTokens).map fun j =>
        ((gather rows (owner j)).lastLoc + 1 + offset j).toNat)
    else none
  else
    let pagesPerReq := rows.map (pagesPerReq ps)
    let endNewPages := cumsum pagesPerReq
    let startNewPages := List.zipWith (· - ·) endNewPages pagesPerReq
    some ((List.range extendNumTokens).map fun j =>
      (gather rows (owner j)).lane ps freePages (gather startNewPages (owner j))
        (gather endNewPages (owner j)) (offset j))

/-- `get_num_new_pages` for an extend batch. -/
def getNumNewPages (ps : Nat) (rows : List ExtendRow) : Nat :=
  (rows.map (newPages ps)).sum

/-- One row of a decode batch: `seq_lens[i]`, which counts the new token, and
`last_loc[i]`. -/
structure DecodeRow where
  seqLen : Nat
  lastLoc : Int
  seq_pos : 0 < seqLen
  deriving DecidableEq

/-- `get_num_new_pages` with `decode=True`. -/
def getNumNewPagesDecode (ps : Nat) (rows : List DecodeRow) : Nat :=
  rows.countP (fun r => r.seqLen % ps == 1)

/-- `need_new_page`. -/
def DecodeRow.needNewPage (ps : Nat) (r : DecodeRow) : Bool := (r.seqLen - 1) % ps == 0

/-- `alloc_decode_naive`. -/
def allocDecodeNaive (ps : Nat) (rows : List DecodeRow) (freePages : List Nat)
    (numNewPages : Nat) : List Nat :=
  if numNewPages = 0 then rows.map fun r => (r.lastLoc + 1).toNat
  else
    let need := rows.map fun r => (r.needNewPage ps).toNat
    let rank := (List.zipWith (· - ·) (cumsum need) need).map (min · (numNewPages - 1))
    List.zipWith (fun r k =>
      if r.needNewPage ps then freePages.getD k 0 * ps else (r.lastLoc + 1).toNat) rows rank

/-! ### Slots of whole pages -/

lemma page_of_offset {ps i : Nat} (lt : i < ps) (page : Nat) : (page * ps + i) / ps = page := by
  rw [add_comm, add_mul_div_right _ _ (by omega), div_eq_of_lt lt, zero_add]

lemma offset_of_offset {ps i : Nat} (lt : i < ps) (page : Nat) : (page * ps + i) % ps = i := by
  rw [add_comm, add_mul_mod_self_right, mod_eq_of_lt lt]

@[simp] lemma length_expandPage (ps page : Nat) : (expandPage ps page).length = ps := by
  simp [expandPage]

lemma length_expandPages (ps : Nat) (pages : List Nat) :
    (expandPages ps pages).length = pages.length * ps := by
  induction pages with
  | nil => simp [expandPages]
  | cons page pages ih =>
    rw [expandPages, flatMap_cons, length_append, ← expandPages, ih, length_expandPage,
      length_cons, add_mul, one_mul, add_comm]

/-- Offset `i` of the `k`-th page. -/
lemma getElem?_expandPages {ps i : Nat} (lt : i < ps) (pages : List Nat) (k : Nat) :
    (expandPages ps pages)[k * ps + i]? = pages[k]?.map (· * ps + i) := by
  induction pages generalizing k with
  | nil => simp [expandPages]
  | cons page pages ih =>
    rw [expandPages, flatMap_cons, ← expandPages]
    cases k with
    | zero =>
      rw [getElem?_append_left (by simpa using lt)]
      simp [expandPage, lt]
    | succ k =>
      have past : (k + 1) * ps + i - ps = k * ps + i := by
        rw [add_mul]
        omega
      rw [getElem?_append_right (by rw [length_expandPage, add_mul]; omega),
        length_expandPage, past, ih, getElem?_cons_succ]

lemma mem_pagesOf_expandPages {ps : Nat} (pos : 0 < ps) {pages : List Nat} {page : Nat} :
    page ∈ pagesOf ps (expandPages ps pages) ↔ page ∈ pages := by
  simp only [pagesOf, expandPages, expandPage, mem_map, mem_flatMap, mem_range]
  constructor
  · rintro ⟨_, ⟨p, mem, i, lt, rfl⟩, rfl⟩
    rwa [page_of_offset lt]
  · intro mem
    exact ⟨page * ps, ⟨page, mem, 0, pos, rfl⟩, Nat.mul_div_cancel _ pos⟩

/-! ### Page counts -/

section

variable {ps n k m : Nat} (pos : 0 < ps)
include pos

lemma pagesFor_le_iff : pagesFor ps n ≤ k ↔ n ≤ k * ps := by
  rw [pagesFor, div_le_iff_le_mul_add_pred pos, mul_comm]
  omega

lemma le_pagesFor_mul (n : Nat) : n ≤ pagesFor ps n * ps :=
  (pagesFor_le_iff pos).mp (le_refl _)

lemma pagesFor_mul_lt (n : Nat) : pagesFor ps n * ps < n + ps := by
  have h := div_mul_le_self (n + ps - 1) ps
  rw [← pagesFor] at h
  omega

lemma pagesFor_mono (h : m ≤ n) : pagesFor ps m ≤ pagesFor ps n :=
  (pagesFor_le_iff pos).mpr (h.trans (le_pagesFor_mul pos n))

/-- Rounding up is rounding down plus one page for a remainder. -/
lemma pagesFor_eq (n : Nat) : pagesFor ps n = n / ps + (if n % ps > 0 then 1 else 0) := by
  have split := div_add_mod' n ps
  apply le_antisymm
  · rw [pagesFor_le_iff pos, add_mul]
    have := mod_lt n pos
    split_ifs <;> omega
  · split_ifs with rest
    · by_contra low
      have : pagesFor ps n ≤ n / ps := by omega
      rw [pagesFor_le_iff pos] at this
      omega
    · by_contra low
      have : pagesFor ps n ≤ n / ps - 1 := by omega
      rw [pagesFor_le_iff pos, Nat.sub_mul] at this
      have : 0 < n / ps := by omega
      have := mul_le_mul_right ps this
      omega

lemma pagesFor_eq_zero_iff : pagesFor ps n = 0 ↔ n = 0 := by
  rw [← le_zero, pagesFor_le_iff pos, zero_mul, le_zero]

lemma pagesFor_mul_add (k n : Nat) : pagesFor ps (k * ps + n) = k + pagesFor ps n := by
  have shift : k * ps + n + ps - 1 = n + ps - 1 + k * ps := by omega
  rw [pagesFor, pagesFor, shift, add_mul_div_right _ _ pos, add_comm]

lemma pagesFor_mul (k : Nat) : pagesFor ps (k * ps) = k := by
  simpa [(pagesFor_eq_zero_iff pos).mpr rfl] using pagesFor_mul_add pos k 0

end

namespace ExtendRow

variable {ps : Nat} (pos : 0 < ps) (r : ExtendRow)

lemma doneAfter1_iff : r.doneAfter1 ps = true ↔ r.seqLen ≤ r.ceilPrefix ps ∨
    r.seqLen = r.prefixLen := by
  have := r.prefix_le_seq
  simp [doneAfter1, num1]
  omega

/-- A row that is not done after its first page covers whole pages from
`ceil_prefix` to `floor_seq`. -/
lemma num2_eq (more : r.doneAfter1 ps = false) :
    r.num2 ps = (r.seqLen / ps - pagesFor ps r.prefixLen) * ps := by
  rw [num2, if_neg (by simp [more]), floorSeq, ceilPrefix, Nat.sub_mul]

lemma ceilPrefix_lt_of_not_done (more : r.doneAfter1 ps = false) : r.ceilPrefix ps < r.seqLen := by
  have notDone : ¬ r.doneAfter1 ps = true := by simp [more]
  rw [doneAfter1_iff] at notDone
  omega

include pos

lemma prefix_le_ceilPrefix : r.prefixLen ≤ r.ceilPrefix ps := le_pagesFor_mul pos _

lemma pagesFor_prefix_le (more : r.doneAfter1 ps = false) :
    pagesFor ps r.prefixLen ≤ r.seqLen / ps :=
  (le_div_iff_mul_le pos).mpr (r.ceilPrefix_lt_of_not_done more).le

/-- The page count summed over the lanes is the page count of the lengths. -/
lemma pagesPerReq_eq : r.pagesPerReq ps = r.newPages ps := by
  cases more : r.doneAfter1 ps with
  | true =>
    have le : pagesFor ps r.seqLen ≤ pagesFor ps r.prefixLen := by
      rcases r.doneAfter1_iff.mp more with h | h
      · exact (pagesFor_le_iff pos).mpr h
      · rw [h]
    simp [pagesPerReq, num2, num3, more, newPages, Nat.sub_eq_zero_of_le le]
  | false =>
    have le := r.pagesFor_prefix_le pos more
    have rest : r.num3 ps = r.seqLen % ps := by
      rw [num3, if_neg (by simp [more]), floorSeq, mod_eq_sub_div_mul]
    rw [pagesPerReq, r.num2_eq more, Nat.mul_div_cancel _ pos, rest, newPages,
      pagesFor_eq pos r.seqLen]
    omega

end ExtendRow

/-! ### The row-by-row assignment -/

/-- Slot of lane `i` of a row: the rest of the last page first, then the row's own
new pages in order. -/
def ExtendRow.slot (ps : Nat) (r : ExtendRow) (pages : List Nat) (i : Nat) : Nat :=
  if i < r.num1 ps then (r.lastLoc + 1 + i).toNat
  else pages.getD ((i - r.num1 ps) / ps) 0 * ps + (i - r.num1 ps) % ps

def ExtendRow.slots (ps : Nat) (r : ExtendRow) (pages : List Nat) : List Nat :=
  (List.range r.extendLen).map (r.slot ps pages)

/-- The slots of a batch when every row takes its new pages off the free list in turn. -/
def extendRows (ps : Nat) : List ExtendRow → List Nat → List Nat
  | [], _ => []
  | r :: rs, freePages => r.slots ps freePages ++ extendRows ps rs (freePages.drop (r.newPages ps))

namespace ExtendRow

variable {ps i start : Nat} (pos : 0 < ps) (r : ExtendRow)
include pos

/-- A lane past the last page lies on one of the row's new pages. -/
lemma lane_page_lt (lt : i < r.extendLen) (past : r.num1 ps ≤ i) :
    (i - r.num1 ps) / ps < r.newPages ps := by
  have after := le_pagesFor_mul pos r.seqLen
  rw [div_lt_iff_lt_mul pos, newPages, Nat.sub_mul]
  simp only [extendLen, num1, ceilPrefix] at *
  omega

/-- A lane past the whole new pages is at its offset in the page after them. -/
lemma lane_last_page (more : r.doneAfter1 ps = false) (lt : i < r.extendLen)
    (past : r.num1 ps ≤ i) (last : r.num1 ps + r.num2 ps ≤ i) :
    (i - r.num1 ps) / ps = r.seqLen / ps - pagesFor ps r.prefixLen ∧
      (i - r.num1 ps) % ps = i - r.num1 ps - r.num2 ps := by
  obtain ⟨rel, rel_eq⟩ := Nat.exists_eq_add_of_le (Nat.le_sub_of_add_le' last)
  have whole := r.num2_eq more
  have small : rel < ps := by
    have rest := mod_lt r.seqLen pos
    have split := div_add_mod' r.seqLen ps
    rw [Nat.sub_mul] at whole
    simp only [ceilPrefix, extendLen, num1] at *
    omega
  constructor
  · rw [rel_eq, whole, page_of_offset small]
  · rw [rel_eq, Nat.add_sub_cancel_left, whole, offset_of_offset small]

lemma newPages_le : r.newPages ps ≤ r.seqLen / ps - pagesFor ps r.prefixLen + 1 := by
  rw [newPages, pagesFor_eq pos r.seqLen]
  split_ifs <;> omega

/-- With enough free pages the three phases of a lane give the row's slot. -/
lemma lane_eq_slot {freePages : List Nat} (lt : i < r.extendLen)
    (room : start + r.newPages ps ≤ freePages.length) :
    r.lane ps freePages start (start + r.newPages ps) i = r.slot ps (freePages.drop start) i := by
  unfold lane slot
  by_cases first : i < r.num1 ps
  · simp [first]
  have page := r.lane_page_lt pos lt (by omega)
  simp only
  by_cases second : i < r.num1 ps + r.num2 ps
  · rw [if_pos second, min_eq_left (by omega), getD_eq_getElem?_getD,
      getD_eq_getElem?_getD, getElem?_drop]
  · -- third phase: the offset lies on the last new page
    rw [if_neg second]
    cases more : r.doneAfter1 ps with
    | true =>
      have noPages : r.newPages ps = 0 := by
        rw [← r.pagesPerReq_eq pos]
        simp [pagesPerReq, num2, num3, more]
      exact absurd (noPages ▸ page) (not_lt_zero _)
    | false =>
      obtain ⟨quot, rel⟩ := r.lane_last_page pos more lt (by omega) (by omega)
      have last : start + r.newPages ps - 1 = start + (i - r.num1 ps) / ps := by
        have := r.newPages_le pos
        omega
      rw [last, min_eq_left (by omega), rel, getD_eq_getElem?_getD,
        getD_eq_getElem?_getD, getElem?_drop]

end ExtendRow

open ExtendRow (slot slots)

/-! ### Owners of lanes -/

lemma le_of_mem_cumsumFrom {xs : List Nat} {total v : Nat} (mem : v ∈ cumsumFrom total xs) :
    total ≤ v := by
  induction xs generalizing total with
  | nil => simp [cumsumFrom] at mem
  | cons x xs ih =>
    rcases mem_cons.mp mem with rfl | later
    · omega
    · have := ih later
      omega

/-- Lanes before the end of the first row belong to it. -/
lemma searchsortedRight_first {x total v : Nat} (xs : List Nat) (lt : v < total + x) :
    searchsortedRight (cumsumFrom total (x :: xs)) v = 0 := by
  rw [searchsortedRight, countP_eq_zero]
  intro w mem
  have : total + x ≤ w := by
    rcases mem_cons.mp mem with rfl | later
    · exact le_refl _
    · exact le_of_mem_cumsumFrom later
  simp
  omega

lemma searchsortedRight_later {x total v : Nat} (xs : List Nat) (le : total + x ≤ v) :
    searchsortedRight (cumsumFrom total (x :: xs)) v
      = searchsortedRight (cumsumFrom (total + x) xs) v + 1 := by
  simp [searchsortedRight, cumsumFrom, le]

@[simp] lemma gather_zero {α : Type} [Inhabited α] (x : α) (xs : List α) :
    gather (x :: xs) 0 = x := rfl

@[simp] lemma gather_succ {α : Type} [Inhabited α] (x : α) (xs : List α) (i : Nat) :
    gather (x :: xs) (i + 1) = gather xs i := rfl

@[simp] lemma cumsumFrom_cons (total x : Nat) (xs : List Nat) :
    cumsumFrom total (x :: xs) = (total + x) :: cumsumFrom (total + x) xs := rfl

/-- The lanes of the rows one after the other: lane `i` of a row computes `f` from the
row and the number of pages taken before and after it. -/
def rowLanes (ps : Nat) (f : ExtendRow → Nat → Nat → Nat → Nat) (taken : Nat) :
    List ExtendRow → List Nat
  | [] => []
  | r :: rs =>
    (List.range r.extendLen).map (f r taken (taken + r.pagesPerReq ps))
      ++ rowLanes ps f (taken + r.pagesPerReq ps) rs

/-- A value gathered for the lanes of a batch, row after row: if lane `i` of each row
computes `f`, the pass over all lanes is the concatenation over the rows. The running
totals `t` and `p` of lanes and pages carry the induction. -/
lemma lanes_eq_rows (ps : Nat) (f : ExtendRow → Nat → Nat → Nat → Nat) (rows : List ExtendRow)
    (t p : Nat) :
    (range (rows.map extendLen).sum).map (fun j => let ends := cumsumFrom t (rows.map extendLen)
      let owner := searchsortedRight ends (t + j)
      let counts := rows.map (pagesPerReq ps)
      f (gather rows owner)
        (gather (zipWith (· - ·) (cumsumFrom p counts) counts) owner)
        (gather (cumsumFrom p counts) owner)
        (t + j - gather (zipWith (· - ·) ends (rows.map extendLen)) owner))
      = rowLanes ps f p rows := by
  induction rows generalizing t p with
  | nil => rfl
  | cons r rs ih =>
    rw [map_cons, sum_cons, range_add, map_append, rowLanes, ← ih (t + r.extendLen)]
    congr 1
    · apply map_congr_left
      intro j mem
      have lt := mem_range.mp mem
      simp only [searchsortedRight_first (rs.map extendLen)
        (show t + j < t + r.extendLen by omega)]
      simp
    · rw [map_map]
      apply map_congr_left
      intro j _
      simp only [Function.comp_apply, searchsortedRight_later (rs.map extendLen)
        (show t + r.extendLen ≤ t + (r.extendLen + j) by omega)]
      simp [add_assoc]

/-! ### The vectorised pass is the row-by-row assignment -/

section

variable {ps taken : Nat} (pos : 0 < ps) {rows : List ExtendRow} {freePages : List Nat}
include pos

lemma rowLanes_lane (room : taken + getNumNewPages ps rows ≤ freePages.length) :
    rowLanes ps (fun r start stop => r.lane ps freePages start stop) taken rows
      = extendRows ps rows (freePages.drop taken) := by
  induction rows generalizing taken with
  | nil => rfl
  | cons r rs ih =>
    simp only [getNumNewPages, map_cons, sum_cons] at room
    rw [rowLanes, extendRows, r.pagesPerReq_eq pos, drop_drop, ih (by
      simp only [getNumNewPages]; omega)]
    congr 1
    apply map_congr_left
    intro i mem
    exact r.lane_eq_slot pos (mem_range.mp mem) (by omega)

lemma rowLanes_last (noNew : getNumNewPages ps rows = 0) (taken : Nat) :
    rowLanes ps (fun r _ _ i => (r.lastLoc + 1 + i).toNat) taken rows = extendRows ps rows [] := by
  induction rows generalizing taken with
  | nil => rfl
  | cons r rs ih =>
    simp only [getNumNewPages, map_cons, sum_cons, Nat.add_eq_zero_iff] at noNew
    rw [rowLanes, extendRows, drop_nil, ih noNew.2]
    congr 1
    apply map_congr_left
    intro i mem
    -- a row that needs no page fills its last page only
    have first : i < r.num1 ps := not_le.mp fun past =>
      not_lt_zero _ (noNew.1 ▸ r.lane_page_lt pos (mem_range.mp mem) past)
    rw [slot, if_pos first]

lemma ExtendRow.newPages_zero_iff (r : ExtendRow) :
    r.newPages ps = 0 ↔ r.ceilSeq ps = r.ceilPrefix ps := by
  have ordered := pagesFor_mono pos r.prefix_le_seq
  rw [ExtendRow.ceilSeq, ExtendRow.ceilPrefix, Nat.mul_left_inj (by omega), newPages]
  omega

/-- With the demanded pages at hand, `alloc_extend_naive` raises nothing and writes the
row-by-row assignment. -/
theorem allocExtendNaive_eq (room : getNumNewPages ps rows ≤ freePages.length) :
    allocExtendNaive ps rows freePages (rows.map extendLen).sum
      = some (extendRows ps rows freePages) := by
  have lanes f := lanes_eq_rows ps f rows 0 0
  simp only [zero_add] at lanes
  unfold allocExtendNaive
  by_cases noTokens : (rows.map extendLen).sum = 0
  · have := lanes (fun r => r.lane ps freePages)
    rw [rowLanes_lane pos (by omega)] at this
    simpa [noTokens] using this
  simp only [noTokens, if_false, cumsum]
  cases freePages with
  | nil =>
    have noNew : getNumNewPages ps rows = 0 := by simpa using room
    have noPages : rows.all (fun r => r.ceilSeq ps == r.ceilPrefix ps) = true := by
      simp only [all_eq_true, beq_iff_eq]
      intro r mem
      rw [← r.newPages_zero_iff pos]
      exact List.sum_eq_zero_iff_forall_eq_nat.mp noNew _ (mem_map_of_mem mem)
    simp only [isEmpty_nil, if_true, noPages]
    rw [← rowLanes_last pos noNew 0, ← lanes]
  | cons page pages =>
    simp only [isEmpty_cons, Bool.false_eq_true, if_false]
    rw [lanes (fun r => r.lane ps (page :: pages)),
      rowLanes_lane pos (by omega), drop_zero]

end

/-! ### The pages a batch touches -/

namespace ExtendRow

/-- `last_loc` is the slot of position `prefix_len - 1`: `alloc_extend`'s debug check, for
the rows whose last page is partly filled. -/
def Aligned (ps : Nat) (r : ExtendRow) : Prop :=
  r.prefixLen % ps ≠ 0 → 0 ≤ r.lastLoc ∧ (r.lastLoc.toNat + 1) % ps = r.prefixLen % ps

/-- The page of `last_loc`. -/
def lastPage (ps : Nat) (r : ExtendRow) : Nat := r.lastLoc.toNat / ps

variable {ps i k page : Nat} (pos : 0 < ps) (r : ExtendRow)
include pos

lemma ceilPrefix_eq :
    r.ceilPrefix ps = r.prefixLen + (if r.prefixLen % ps = 0 then 0 else ps - r.prefixLen % ps) := by
  have split := div_add_mod' r.prefixLen ps
  have lt := mod_lt r.prefixLen pos
  rw [ceilPrefix, pagesFor_eq pos, add_mul]
  split_ifs <;> omega

/-- A lane of the first phase stays on the page of `last_loc`. -/
lemma slot_first (pages : List Nat) (aligned : r.Aligned ps) (first : i < r.num1 ps) :
    r.prefixLen % ps ≠ 0 ∧ r.slot ps pages i / ps = r.lastPage ps ∧
      r.slot ps pages i % ps = (r.prefixLen + i) % ps := by
  have ceil := r.ceilPrefix_eq pos
  have partly : r.prefixLen % ps ≠ 0 := by
    intro whole
    rw [if_pos whole] at ceil
    rw [num1] at first
    omega
  obtain ⟨nonneg, offset⟩ := aligned partly
  rw [if_neg partly] at ceil
  have inPage : r.prefixLen % ps + i < ps := by
    rw [num1] at first
    omega
  have next : r.slot ps pages i = (r.lastLoc.toNat + 1) / ps * ps + (r.prefixLen % ps + i) := by
    have := div_add_mod' (r.lastLoc.toNat + 1) ps
    rw [slot, if_pos first]
    omega
  have samePage : (r.lastLoc.toNat + 1) / ps = r.lastPage ps := by
    have := div_add_mod' (r.lastLoc.toNat + 1) ps
    rw [lastPage, eq_comm, Nat.div_eq_iff pos]
    omega
  refine ⟨partly, ?_, ?_⟩
  · rw [next, page_of_offset inPage, samePage]
  · rw [next, add_comm, add_mul_mod_self_right, mod_add_mod]

/-- A later lane lies on the new page its offset selects. -/
lemma slot_later (pages : List Nat) (past : r.num1 ps ≤ i) (lt : i < r.extendLen) :
    r.slot ps pages i / ps = pages.getD ((i - r.num1 ps) / ps) 0 ∧
      r.slot ps pages i % ps = (r.prefixLen + i) % ps := by
  have small := mod_lt (i - r.num1 ps) pos
  have ceil := r.prefix_le_ceilPrefix pos
  have reach : r.prefixLen + i = pagesFor ps r.prefixLen * ps + (i - r.num1 ps) := by
    simp only [num1, ceilPrefix, extendLen] at *
    omega
  rw [slot, if_neg (by omega)]
  constructor
  · rw [page_of_offset small]
  · rw [reach, add_comm, add_mul_mod_self_right, mod_mod, add_comm,
      add_mul_mod_self_right]

/-- Every new page of a row starts at one of its lanes. -/
lemma newPage_lane (lt : k < r.newPages ps) : r.num1 ps + k * ps < r.extendLen := by
  have before := r.prefix_le_ceilPrefix pos
  have ends := pagesFor_mul_lt pos r.seqLen
  have step : (k + 1) * ps ≤ r.newPages ps * ps := mul_le_mul_right ps lt
  rw [newPages, Nat.sub_mul, add_mul] at step
  simp only [num1, extendLen, ceilPrefix] at *
  omega

lemma mem_pagesOf_slots {pages : List Nat} (aligned : r.Aligned ps)
    (room : r.newPages ps ≤ pages.length) :
    page ∈ pagesOf ps (r.slots ps pages) ↔
      (0 < r.num1 ps ∧ page = r.lastPage ps) ∨ page ∈ pages.take (r.newPages ps) := by
  simp only [pagesOf, slots, map_map, mem_map, mem_range, Function.comp_apply]
  constructor
  · rintro ⟨i, lt, rfl⟩
    by_cases first : i < r.num1 ps
    · exact .inl ⟨by omega, (r.slot_first pos pages aligned first).2.1⟩
    · have page := r.lane_page_lt pos lt (by omega)
      rw [(r.slot_later pos pages (by omega) lt).1, getD_eq_getElem _ _ (by omega)]
      exact .inr (mem_take_iff_getElem.mpr ⟨_, by omega, rfl⟩)
  · rintro (⟨part, rfl⟩ | new)
    · exact ⟨0, by simp only [num1, extendLen] at *; omega, (r.slot_first pos pages aligned part).2.1⟩
    · obtain ⟨k, lt, rfl⟩ := mem_take_iff_getElem.mp new
      have lane := r.newPage_lane pos (show k < r.newPages ps by omega)
      refine ⟨_, lane, ?_⟩
      rw [(r.slot_later pos pages (le_add_right _ _) lane).1, Nat.add_sub_cancel_left,
        Nat.mul_div_cancel _ pos, getD_eq_getElem]

end ExtendRow

variable {ps page : Nat} {rows : List ExtendRow} {freePages new new' : List Nat} {r : ExtendRow}

section

variable (pos : 0 < ps)
include pos

/-- One row's page count grows by at most its length in pages and one more. -/
lemma ExtendRow.newPages_le_extendLen (r : ExtendRow) : r.newPages ps ≤ r.extendLen / ps + 1 := by
  have before := le_pagesFor_mul pos r.prefixLen
  have rest := mod_lt r.extendLen pos
  have split := div_add_mod' r.extendLen ps
  rw [newPages, Nat.sub_le_iff_le_add, pagesFor_le_iff pos, add_mul, add_mul]
  simp only [extendLen] at *
  omega

/-- The bound `alloc_extend` tests before counting is above the demand. -/
lemma getNumNewPages_lt_bound (rows : List ExtendRow) :
    getNumNewPages ps rows < (rows.map extendLen).sum / ps + rows.length + 1 := by
  induction rows with
  | nil => simp [getNumNewPages]
  | cons r rs ih =>
    have row := r.newPages_le_extendLen pos
    have sum : r.extendLen / ps + (rs.map extendLen).sum / ps
        ≤ (r.extendLen + (rs.map extendLen).sum) / ps := div_add_div_le_add_div
    simp only [getNumNewPages, map_cons, sum_cons, length_cons] at ih ⊢
    omega

/-- The pages a batch touches: the last pages its rows continue, and exactly as many pages
off the free list as `get_num_new_pages` says. -/
lemma mem_pagesOf_extendRows (page : Nat) (aligned : ∀ r ∈ rows, r.Aligned ps)
    (room : getNumNewPages ps rows ≤ freePages.length) :
    page ∈ pagesOf ps (extendRows ps rows freePages) ↔
      (∃ r ∈ rows, 0 < r.num1 ps ∧ page = r.lastPage ps) ∨
        page ∈ freePages.take (getNumNewPages ps rows) := by
  induction rows generalizing freePages with
  | nil => simp [extendRows, getNumNewPages, pagesOf]
  | cons r rs ih =>
    simp only [forall_mem_cons] at aligned
    simp only [getNumNewPages, map_cons, sum_cons] at room ih ⊢
    have split : page ∈ pagesOf ps (extendRows ps (r :: rs) freePages) ↔
        page ∈ pagesOf ps (r.slots ps freePages) ∨
          page ∈ pagesOf ps (extendRows ps rs (freePages.drop (r.newPages ps))) := by
      simp [extendRows, pagesOf]
    rw [split, r.mem_pagesOf_slots pos aligned.1 (by omega),
      ih aligned.2 (by rw [length_drop]; omega), take_add, mem_append,
      exists_mem_cons_iff]
    exact or_or_or_comm

/-- Only the demanded prefix of the free list is read. -/
lemma extendRows_take (rows : List ExtendRow) (freePages : List Nat) :
    extendRows ps rows (freePages.take (getNumNewPages ps rows)) = extendRows ps rows freePages := by
  induction rows generalizing freePages with
  | nil => rfl
  | cons r rs ih =>
    simp only [getNumNewPages, map_cons, sum_cons] at ih ⊢
    rw [extendRows, drop_take, Nat.add_sub_cancel_left, ih]
    congr 1
    apply map_congr_left
    intro i mem
    simp only [slot]
    split
    · rfl
    · have page := r.lane_page_lt pos (mem_range.mp mem) (by omega)
      rw [getD_eq_getElem?_getD, getD_eq_getElem?_getD, getElem?_take_of_lt (by omega)]

omit pos in
lemma length_extendRows (ps : Nat) (rows : List ExtendRow) (freePages : List Nat) :
    (extendRows ps rows freePages).length = (rows.map extendLen).sum := by
  induction rows generalizing freePages with
  | nil => rfl
  | cons r rs ih => simp [extendRows, slots, ih]

/-- Every new page is handed out from its first slot on. -/
lemma first_slot_mem_extendRows (room : getNumNewPages ps rows ≤ freePages.length)
    (mem : page ∈ freePages.take (getNumNewPages ps rows)) :
    page * ps ∈ extendRows ps rows freePages := by
  induction rows generalizing freePages with
  | nil => simp [getNumNewPages] at mem
  | cons r rs ih =>
    simp only [getNumNewPages, map_cons, sum_cons] at room mem ih
    rw [take_add, mem_append] at mem
    rw [extendRows, mem_append]
    rcases mem with own | later
    · obtain ⟨k, lt, rfl⟩ := mem_take_iff_getElem.mp own
      have lane := r.newPage_lane pos (show k < r.newPages ps by omega)
      refine .inl (mem_map.mpr ⟨_, mem_range.mpr lane, ?_⟩)
      rw [slot, if_neg (by omega), Nat.add_sub_cancel_left, Nat.mul_div_cancel _ pos,
        mul_mod_left, getD_eq_getElem]
      rfl
    · exact .inr (ih (by rw [length_drop]; omega) later)

/-- A row that starts on a page boundary takes the slots of its new pages in order. -/
lemma ExtendRow.slot_of_aligned (whole : r.prefixLen % ps = 0)
    (pages : List Nat) (i : Nat) : r.slot ps pages i = pages.getD (i / ps) 0 * ps + i % ps := by
  have noHead : r.num1 ps = 0 := by
    have ceil := r.ceilPrefix_eq pos
    rw [if_pos whole] at ceil
    rw [num1]
    omega
  rw [slot, noHead]
  simp

end

/-! ### Two pools paged in step -/

/-- The same row in another pool: only the slot it continues differs. -/
def ExtendRow.relocate (r : ExtendRow) (lastLoc : Int) : ExtendRow := { r with lastLoc := lastLoc }

@[simp] lemma ExtendRow.relocate_newPages (ps : Nat) (r : ExtendRow) (lastLoc : Int) :
    (r.relocate lastLoc).newPages ps = r.newPages ps := rfl

/-- The lanes `(f, w)` of one batch served by two pools: same offset, on the row's last
pages or on the `k`-th new pages. -/
def LanePair (ps : Nat) (tr : Int → Int) (rows : List ExtendRow) (new new' : List Nat)
    (f w : Nat) : Prop :=
  f % ps = w % ps ∧ ((∃ r ∈ rows, r.prefixLen % ps ≠ 0 ∧ f / ps = r.lastPage ps ∧
        w / ps = (r.relocate (tr r.lastLoc)).lastPage ps) ∨
      ∃ k : Nat, new[k]? = some (f / ps) ∧ new'[k]? = some (w / ps))

section

variable {ps f w : Nat} (pos : 0 < ps) (tr : Int → Int)
include pos

lemma lanePair_slots (aligned : r.Aligned ps) (aligned' : (r.relocate (tr r.lastLoc)).Aligned ps)
    (room : r.newPages ps ≤ new.length) (room' : r.newPages ps ≤ new'.length)
    (mem : (f, w) ∈ (r.slots ps new).zip ((r.relocate (tr r.lastLoc)).slots ps new')) :
    LanePair ps tr [r] new new' f w := by
  have zipped : (r.slots ps new).zip ((r.relocate (tr r.lastLoc)).slots ps new')
      = (range r.extendLen).map fun i =>
          (r.slot ps new i, (r.relocate (tr r.lastLoc)).slot ps new' i) :=
    zip_map'
  rw [zipped] at mem
  obtain ⟨i, lane, pair⟩ := mem_map.mp mem
  cases pair
  have lt := mem_range.mp lane
  by_cases first : i < r.num1 ps
  · obtain ⟨partly, page, offset⟩ := r.slot_first pos new aligned first
    obtain ⟨-, page', offset'⟩ :=
      (r.relocate (tr r.lastLoc)).slot_first pos new' aligned' first
    exact ⟨offset.trans offset'.symm, .inl ⟨r, mem_singleton_self r, partly, page, page'⟩⟩
  · have past := Nat.le_of_not_lt first
    obtain ⟨page, offset⟩ := r.slot_later pos new past lt
    obtain ⟨page', offset'⟩ := (r.relocate (tr r.lastLoc)).slot_later pos new' past lt
    have inNew := r.lane_page_lt pos lt past
    refine ⟨offset.trans offset'.symm, .inr ⟨(i - r.num1 ps) / ps, ?_, ?_⟩⟩
    · rw [page, getD_eq_getElem _ _ (by omega), getElem?_eq_getElem]
    · rw [page']
      change _ = some (new'.getD ((i - r.num1 ps) / ps) 0)
      rw [getD_eq_getElem _ _ (by omega), getElem?_eq_getElem]

/-- Serving one batch from two pools pairs its slots offset for offset, page for page. -/
lemma lanePair_extendRows
    (aligned : ∀ r ∈ rows, r.Aligned ps ∧ (r.relocate (tr r.lastLoc)).Aligned ps)
    (room : getNumNewPages ps rows ≤ new.length) (room' : getNumNewPages ps rows ≤ new'.length)
    (mem : (f, w) ∈ (extendRows ps rows new).zip
      (extendRows ps (rows.map fun r => r.relocate (tr r.lastLoc)) new')) :
    LanePair ps tr rows new new' f w := by
  induction rows generalizing new new' with
  | nil => simp [extendRows] at mem
  | cons r rs ih =>
    simp only [forall_mem_cons] at aligned
    simp only [getNumNewPages, map_cons, sum_cons] at room room' ih
    rw [map_cons, extendRows, extendRows, zip_append (by simp [slots, extendLen, ExtendRow.relocate]),
      mem_append] at mem
    rcases mem with own | later
    · obtain ⟨offset, last | new⟩ := lanePair_slots pos tr aligned.1.1 aligned.1.2
        (by omega) (by omega) own
      · obtain ⟨r', mem, rest⟩ := last
        rw [mem_singleton.mp mem] at rest
        exact ⟨offset, .inl ⟨r, mem_cons_self, rest⟩⟩
      · exact ⟨offset, .inr new⟩
    · obtain ⟨offset, ⟨r', mem, rest⟩ | ⟨k, page, page'⟩⟩ := ih aligned.2
        (by rw [length_drop]; omega)
        (by rw [length_drop, ExtendRow.relocate_newPages]; omega) later
      · exact ⟨offset, .inl ⟨r', mem_cons_of_mem _ mem, rest⟩⟩
      · rw [getElem?_drop] at page page'
        exact ⟨offset, .inr ⟨r.newPages ps + k, page, page'⟩⟩

end

/-! ### Decode batches -/

/-- A decode row extends its request by one position. -/
def DecodeRow.toExtendRow (r : DecodeRow) : ExtendRow :=
  ⟨r.seqLen - 1, r.seqLen, r.lastLoc, Nat.sub_le _ _⟩

section

variable {ps : Nat} (two : 1 < ps)
include two

lemma DecodeRow.needNewPage_iff (r : DecodeRow) : r.needNewPage ps = (r.seqLen % ps == 1) := by
  have pos := r.seq_pos
  obtain ⟨n, hn⟩ : ∃ n, r.seqLen = n + 1 := ⟨r.seqLen - 1, by omega⟩
  rw [needNewPage, hn, Nat.add_sub_cancel, Bool.eq_iff_iff, beq_iff_eq, beq_iff_eq, add_mod,
    mod_eq_of_lt two]
  have lt := mod_lt n (show 0 < ps by omega)
  rcases lt_or_eq_of_le (succ_le_of_lt lt) with inside | wrap
  · rw [mod_eq_of_lt inside]
    omega
  · rw [show n % ps + 1 = ps from wrap, mod_self]
    omega

end

variable {ps total : Nat} (pos : 0 < ps)
include pos

/-- One more position opens a page exactly when the positions so far fill theirs. -/
lemma DecodeRow.newPages_toExtendRow (r : DecodeRow) :
    r.toExtendRow.newPages ps = (r.needNewPage ps).toNat := by
  obtain ⟨n, hn⟩ : ∃ n, r.seqLen = n + 1 := ⟨r.seqLen - 1, by have := r.seq_pos; omega⟩
  have split := div_add_mod' n ps
  have rest := mod_lt n pos
  have before := pagesFor_eq pos n
  have after : pagesFor ps (n + 1) ≤ n / ps + 1 := by
    rw [pagesFor_le_iff pos, add_mul]
    omega
  simp only [newPages, toExtendRow, needNewPage, hn]
  by_cases whole : n % ps = 0
  · have opens : ¬ pagesFor ps (n + 1) ≤ n / ps := by
      rw [pagesFor_le_iff pos]
      omega
    simp only [whole, lt_irrefl, if_false] at before
    simp [whole]
    omega
  · rw [if_pos (by omega)] at before
    have : (n % ps == 0) = false := by simpa using whole
    simp [this]
    omega

/-- The one slot of a decode row. -/
lemma DecodeRow.slots_toExtendRow (r : DecodeRow) (pages : List Nat) :
    r.toExtendRow.slots ps pages
      = [if r.needNewPage ps then pages.getD 0 0 * ps else (r.lastLoc + 1).toNat] := by
  have one : r.toExtendRow.extendLen = 1 := by
    have := r.seq_pos
    simp only [extendLen, toExtendRow]
    omega
  have ceil : r.toExtendRow.ceilPrefix ps = r.seqLen - 1 +
      (if (r.seqLen - 1) % ps = 0 then 0 else ps - (r.seqLen - 1) % ps) :=
    r.toExtendRow.ceilPrefix_eq pos
  have lt := mod_lt (r.seqLen - 1) pos
  have num1 : r.toExtendRow.num1 ps = if r.needNewPage ps then 0 else 1 := by
    have := r.seq_pos
    change min r.seqLen (r.toExtendRow.ceilPrefix ps) - (r.seqLen - 1) = _
    simp only [needNewPage, beq_iff_eq]
    by_cases whole : (r.seqLen - 1) % ps = 0
    · rw [if_pos whole] at ceil ⊢
      omega
    · rw [if_neg whole] at ceil ⊢
      omega
  rw [slots, one, range_one, map_singleton, slot, num1]
  cases r.needNewPage ps with
  | true => simp
  | false => simp [toExtendRow]

lemma getNumNewPages_decode (two : 1 < ps) (rows : List DecodeRow) :
    getNumNewPages ps (rows.map DecodeRow.toExtendRow) = getNumNewPagesDecode ps rows := by
  induction rows with
  | nil => rfl
  | cons r rs ih =>
    simp only [getNumNewPages, getNumNewPagesDecode, map_cons, sum_cons,
      countP_cons, r.newPages_toExtendRow pos, r.needNewPage_iff two] at ih ⊢
    rw [ih]
    cases r.seqLen % ps == 1 <;> simp [add_comm]

/-- The ranked gather of a decode batch, from `taken` pages on, is the row-by-row
assignment. -/
lemma decode_lanes (freePages : List Nat) (rows : List DecodeRow) (taken : Nat)
    (demand : taken + getNumNewPages ps (rows.map DecodeRow.toExtendRow) ≤ total) :
    zipWith (fun r k =>
        if r.needNewPage ps then freePages.getD k 0 * ps else (r.lastLoc + 1).toNat) rows
      ((zipWith (· - ·) (cumsumFrom taken (rows.map fun r => (r.needNewPage ps).toNat))
        (rows.map fun r => (r.needNewPage ps).toNat)).map (min · (total - 1)))
      = extendRows ps (rows.map DecodeRow.toExtendRow) (freePages.drop taken) := by
  induction rows generalizing taken with
  | nil => rfl
  | cons r rs ih =>
    simp only [getNumNewPages, map_cons, sum_cons, r.newPages_toExtendRow pos] at demand
    simp only [map_cons, extendRows, r.slots_toExtendRow pos, r.newPages_toExtendRow pos, drop_drop]
    rw [← ih (taken + (r.needNewPage ps).toNat) (by simp only [getNumNewPages]; omega)]
    simp only [cumsumFrom_cons, zipWith_cons_cons, map_cons]
    cases need : r.needNewPage ps with
    | true =>
      simp only [need, Bool.toNat_true] at demand
      rw [min_eq_left (by omega)]
      simp
    | false => simp

lemma decode_no_pages {rows : List DecodeRow}
    (noNew : getNumNewPages ps (rows.map DecodeRow.toExtendRow) = 0) (freePages : List Nat) :
    rows.map (fun r => (r.lastLoc + 1).toNat)
      = extendRows ps (rows.map DecodeRow.toExtendRow) freePages := by
  induction rows with
  | nil => rfl
  | cons r rs ih =>
    simp only [getNumNewPages, map_cons, sum_cons, Nat.add_eq_zero_iff] at noNew
    have stays : r.needNewPage ps = false := by
      simpa [r.newPages_toExtendRow pos] using noNew.1
    simp only [map_cons, extendRows, r.slots_toExtendRow pos, stays, noNew.1, drop_zero]
    rw [← ih noNew.2]
    simp

/-- `alloc_decode_naive` writes the row-by-row assignment when it is given the pages
`get_num_new_pages` counts. -/
theorem allocDecodeNaive_eq (two : 1 < ps) {rows : List DecodeRow} :
    allocDecodeNaive ps rows freePages (getNumNewPagesDecode ps rows)
      = extendRows ps (rows.map DecodeRow.toExtendRow) freePages := by
  rw [← getNumNewPages_decode pos two]
  unfold allocDecodeNaive
  split_ifs with noNew
  · exact decode_no_pages pos noNew freePages
  · exact decode_lanes pos freePages rows 0 (le_of_eq (zero_add _))

end Sglang.Alloc
