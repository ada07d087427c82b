/-
# The slots of a batch, position by position

What `alloc_extend` promises each request: position `j` gets offset `j % page_size` of the
request's page number `j // page_size`. A page the cached prefix reaches into is the page of
`last_loc`; the others come off the free list, in the order of the requests and their pages.

* `pageIndex` — which free page a request's new page is.
* `getElem?_extendRows` — the lanes of a batch, request by request.
* `existsUnique_pageIndex` — every demanded free page is one page of one request.
* `allocExtendNaive_assigns` — `alloc_extend_naive` keeps the promise.
-/

import Sglang.Alloc.Paging

namespace Sglang.Alloc

open List

open ExtendRow (extendLen newPages slots)

/-- `start_pos[i]`: lanes of the rows before `i`. -/
def startPos (rows : List ExtendRow) (i : Nat) : Nat :=
  ((rows.take i).map extendLen).sum

/-- Where page `q` of row `i` is in the free list, for a page its prefix does not reach. -/
def pageIndex (ps : Nat) (rows : List ExtendRow) (i : Nat) (r : ExtendRow) (q : Nat) : Nat :=
  getNumNewPages ps (rows.take i) + (q - pagesFor ps r.prefixLen)

/-- Page `q` of row `i`: the page of `last_loc` as far as the prefix reaches, then the next
unused free pages. -/
def pageOf (ps : Nat) (rows : List ExtendRow) (freePages : List Nat) (i : Nat) (r : ExtendRow)
    (q : Nat) : Nat :=
  if q < pagesFor ps r.prefixLen then r.lastPage ps else freePages.getD (pageIndex ps rows i r q) 0

/-- Row `i` opens page `q`. -/
def Opens (ps : Nat) (rows : List ExtendRow) (i q : Nat) (r : ExtendRow) : Prop :=
  rows[i]? = some r ∧ pagesFor ps r.prefixLen ≤ q ∧ q < pagesFor ps r.seqLen

variable {ps : Nat} {rows : List ExtendRow} {freePages : List Nat} {r r' : ExtendRow} {i j q : Nat}

/-- The lanes of a batch are those of its rows, each on the pages the rows before it left. -/
theorem getElem?_extendRows (row : rows[i]? = some r) (lt : j < r.extendLen) :
    (extendRows ps rows freePages)[startPos rows i + j]? =
      some (r.slot ps (freePages.drop (getNumNewPages ps (rows.take i))) j) := by
  induction rows generalizing freePages i with
  | nil => simp at row
  | cons r₀ rows ih =>
    cases i with
    | zero =>
      obtain rfl : r₀ = r := by simpa using row
      have own : j < (r₀.slots ps freePages).length := by simpa [slots] using lt
      rw [extendRows, startPos, take_zero, map_nil, sum_nil, zero_add,
        getElem?_append_left own]
      simp [slots, getNumNewPages, lt]
    | succ i =>
      have own : (r₀.slots ps freePages).length = r₀.extendLen := by simp [slots]
      have lanes : startPos (r₀ :: rows) (i + 1) + j = r₀.extendLen + (startPos rows i + j) := by
        simp [startPos, add_assoc]
      have pages : getNumNewPages ps ((r₀ :: rows).take (i + 1)) =
          r₀.newPages ps + getNumNewPages ps (rows.take i) := by
        simp [getNumNewPages]
      rw [extendRows, lanes, getElem?_append_right (by omega), own,
        Nat.add_sub_cancel_left, ih (by simpa using row), drop_drop, pages]

/-- A row's slot by position. -/
lemma ExtendRow.slot_position (pos : 0 < ps) (aligned : r.Aligned ps) (lt : i < r.extendLen)
    (pages : List Nat) :
    r.slot ps pages i = (if (r.prefixLen + i) / ps < pagesFor ps r.prefixLen then r.lastPage ps
      else pages.getD ((r.prefixLen + i) / ps - pagesFor ps r.prefixLen) 0) * ps +
        (r.prefixLen + i) % ps := by
  have split := Nat.div_add_mod' (r.slot ps pages i) ps
  have ceil := r.prefix_le_ceilPrefix pos
  by_cases first : i < r.num1 ps
  · obtain ⟨-, page, offset⟩ := r.slot_first pos pages aligned first
    have inside : (r.prefixLen + i) / ps < pagesFor ps r.prefixLen := by
      rw [Nat.div_lt_iff_lt_mul pos]
      simp only [num1, ceilPrefix] at first
      omega
    rw [if_pos inside, ← page, ← offset, split]
  · obtain ⟨page, offset⟩ := r.slot_later pos pages (Nat.le_of_not_lt first) lt
    have reach : r.prefixLen + i = i - r.num1 ps + pagesFor ps r.prefixLen * ps := by
      simp only [num1, ceilPrefix, extendLen] at *
      omega
    have quot : (r.prefixLen + i) / ps = (i - r.num1 ps) / ps + pagesFor ps r.prefixLen := by
      rw [reach, Nat.add_mul_div_right _ _ pos]
    rw [quot, if_neg (not_lt.mpr (Nat.le_add_left _ _)), Nat.add_sub_cancel, ← page, ← offset,
      split]

/-! ### Every demanded page once -/

lemma getNumNewPages_take_succ (row : rows[i]? = some r) :
    getNumNewPages ps (rows.take (i + 1)) = getNumNewPages ps (rows.take i) + r.newPages ps := by
  simp [getNumNewPages, take_add_one, row]

lemma getNumNewPages_take_mono (ps : Nat) (rows : List ExtendRow) (le : i ≤ j) :
    getNumNewPages ps (rows.take i) ≤ getNumNewPages ps (rows.take j) := by
  obtain ⟨more, eq⟩ : rows.take i <+: rows.take j := take_prefix_take_left le
  simp [← eq, getNumNewPages]

section

variable (opens : Opens ps rows i q r)
include opens

/-- A row's new pages lie between what the rows before it took and what is taken after it. -/
lemma Opens.bounds : getNumNewPages ps (rows.take i) ≤ pageIndex ps rows i r q ∧
      pageIndex ps rows i r q < getNumNewPages ps (rows.take (i + 1)) := by
  obtain ⟨row, low, high⟩ := opens
  rw [getNumNewPages_take_succ row, pageIndex, newPages]
  omega

lemma Opens.lt : pageIndex ps rows i r q < getNumNewPages ps rows := by
  have all := getNumNewPages_take_mono ps rows (le_max_left (i + 1) rows.length)
  rw [take_of_length_le (le_max_right _ _)] at all
  exact lt_of_lt_of_le opens.bounds.2 all

lemma Opens.unique {i' q' : Nat} (opens' : Opens ps rows i' q' r')
    (same : pageIndex ps rows i r q = pageIndex ps rows i' r' q') : i = i' ∧ q = q' := by
  have bounds := opens.bounds
  have bounds' := opens'.bounds
  rcases Nat.lt_trichotomy i i' with before | rfl | after
  · have taken := getNumNewPages_take_mono ps rows (show i + 1 ≤ i' from before)
    omega
  · cases opens.1.symm.trans opens'.1
    have low := opens.2.1
    have low' := opens'.2.1
    rw [pageIndex, pageIndex] at same
    omega
  · have taken := getNumNewPages_take_mono ps rows (show i' + 1 ≤ i from after)
    omega

end

lemma exists_pageIndex {k : Nat} (lt : k < getNumNewPages ps rows) :
    ∃ i q r, Opens ps rows i q r ∧ pageIndex ps rows i r q = k := by
  induction rows generalizing k with
  | nil => exact absurd lt (Nat.not_lt_zero k)
  | cons r₀ rows ih =>
    by_cases own : k < r₀.newPages ps
    · refine ⟨0, pagesFor ps r₀.prefixLen + k, r₀, ⟨rfl, Nat.le_add_right _ _, ?_⟩, ?_⟩
      · rw [newPages] at own
        omega
      · simp [pageIndex, getNumNewPages]
    · have total : getNumNewPages ps (r₀ :: rows) = r₀.newPages ps + getNumNewPages ps rows := by
        simp [getNumNewPages]
      obtain ⟨i, q, r, ⟨row, low, high⟩, index⟩ := ih (k := k - r₀.newPages ps) (by omega)
      refine ⟨i + 1, q, r, ⟨by simpa using row, low, high⟩, ?_⟩
      have taken : getNumNewPages ps ((r₀ :: rows).take (i + 1)) =
          r₀.newPages ps + getNumNewPages ps (rows.take i) := by
        simp [getNumNewPages]
      rw [pageIndex] at index ⊢
      omega

/-- Every demanded free page is one page of one row. -/
theorem existsUnique_pageIndex {k : Nat} (lt : k < getNumNewPages ps rows) :
    ∃! page : Nat × Nat, ∃ r, Opens ps rows page.1 page.2 r ∧
      pageIndex ps rows page.1 r page.2 = k := by
  obtain ⟨i, q, r, opens, index⟩ := exists_pageIndex lt
  refine ⟨(i, q), ⟨r, opens, index⟩, ?_⟩
  rintro ⟨i', q'⟩ ⟨r', opens', index'⟩
  obtain ⟨rfl, rfl⟩ := opens'.unique opens (index'.trans index.symm)
  rfl

/-- A batch whose `last_loc`s are the slots before their first positions, with the demanded
pages at hand: position `j` of row `i` gets slot `j % ps` of its page, the free pages used are
the first `get_num_new_pages` ones, each for one page of one row, and `alloc_extend`'s bound
is above that number. -/
theorem allocExtendNaive_assigns (freePages : List Nat) (pos : 0 < ps) (aligned : ∀ r ∈ rows, r.Aligned ps)
    (room : getNumNewPages ps rows ≤ freePages.length) :
    (∃ out, allocExtendNaive ps rows freePages (rows.map extendLen).sum = some out ∧
      out.length = (rows.map extendLen).sum ∧
      ∀ i r j, rows[i]? = some r → r.prefixLen ≤ j → j < r.seqLen →
        out[startPos rows i + (j - r.prefixLen)]? =
          some (pageOf ps rows freePages i r (j / ps) * ps + j % ps)) ∧
    (∀ i q r, Opens ps rows i q r → pageIndex ps rows i r q < getNumNewPages ps rows) ∧
    (∀ k < getNumNewPages ps rows, ∃! page : Nat × Nat, ∃ r, Opens ps rows page.1 page.2 r ∧
      pageIndex ps rows page.1 r page.2 = k) ∧
    getNumNewPages ps rows ≤ (rows.map extendLen).sum / ps + rows.length + 1 := by
  refine ⟨⟨_, allocExtendNaive_eq pos room, length_extendRows .., ?_⟩, fun i q r opens => opens.lt,
    fun k => existsUnique_pageIndex, (getNumNewPages_lt_bound pos rows).le⟩
  intro i r j row low high
  have lt : j - r.prefixLen < r.extendLen := by
    rw [extendLen]
    omega
  rw [getElem?_extendRows row lt,
    ExtendRow.slot_position pos (aligned r (mem_of_getElem? row)) lt,
    Nat.add_sub_cancel' low, pageOf, pageIndex]
  split
  · rfl
  · rw [getD_eq_getElem?_getD, getElem?_drop, ← getD_eq_getElem?_getD]

/-- Pages of four slots: a row that fills its last page and opens two, and a row without a
prefix. -/
theorem allocExtendNaive_assigns_two :
    ∃ out, allocExtendNaive 4 [⟨3, 9, 22, by decide⟩, ⟨0, 2, -1, by decide⟩] [7, 2, 9] 8 = some out ∧
      out[1]? = some 28 ∧ out[6]? = some 36 := by
  have aligned : ∀ r ∈ ([⟨3, 9, 22, by decide⟩, ⟨0, 2, -1, by decide⟩] : List ExtendRow),
      r.Aligned 4 := by
    simp [ExtendRow.Aligned]
  obtain ⟨⟨out, ran, -, slots⟩, -⟩ := allocExtendNaive_assigns [7, 2, 9] (by decide) aligned (by decide)
  exact ⟨out, ran, slots 0 _ 4 rfl (by decide) (by decide), slots 1 _ 0 rfl (by decide) (by decide)⟩

end Sglang.Alloc
