/-
# `PagedTokenToKVPoolAllocator`

The page free list of `allocator/paged.py` with its two ways of giving pages back
(slots, or page ids), the staged list of a sorting pool, and the free groups that
defer both.

* `PagedOwned.Op` and `PagedOwned.step` — one call of the allocator, with the pages handed
  out and not yet freed carried along as ghost state.
* `PagedOwned.Conserved` — free, staged and handed-out pages split `1 .. num_pages`.
* `PagedOwned.HandsOut` — a call hands out as many pages as it is asked for, none of them held.
* `PagedOwned.reachable_conserved` — every run whose callers free only what they hold keeps
  the split, the reported size counts the free and staged pages, and no page is handed out twice.
-/

import Mathlib.Order.Interval.Finset.Nat
import Sglang.Lib.FreeList
import Sglang.Lib.Machine
import Sglang.Alloc.Paging

namespace Sglang.Alloc

open List

/-- What `PagedTokenToKVPoolAllocator` is built with. -/
structure PagedConfig where
  size : Nat
  pageSize : Nat
  needSort : Bool
  pageSize_pos : 0 < pageSize

def PagedConfig.numPages (c : PagedConfig) : Nat := c.size / c.pageSize

/-- The allocator's fields. `freeGroup` and `freePageIdsGroup` hold deferred tensors. -/
structure Paged where
  freePages : List Nat
  stagedPages : List (List Nat)
  numStagedPages : Nat
  freeGroup : Option (List (List Nat))
  freePageIdsGroup : List (List Nat)
  deriving DecidableEq, Repr

namespace Paged

variable (c : PagedConfig)

/-- `clear`: page 0 takes the dummy writes of padded tokens and is never free. -/
def clear : Paged where
  freePages := List.range' 1 c.numPages
  stagedPages := []
  numStagedPages := 0
  freeGroup := none
  freePageIdsGroup := []

variable (a : Paged)

def availableSize : Nat := (a.freePages.length + a.numStagedPages) * c.pageSize

def getAllFreePages : List Nat := a.freePages ++ a.stagedPages.flatten

def mergeAndSortFree : Paged :=
  if a.stagedPages.isEmpty then a
  else { a with
    freePages := a.getAllFreePages.insertionSort (· ≤ ·)
    stagedPages := []
    numStagedPages := 0 }

/-- `merge_and_sort_free` when the free list is shorter than `n`. -/
def mergeIfShort (n : Nat) : Paged :=
  if n > a.freePages.length then a.mergeAndSortFree else a

/-- Take the first `n` free pages off the list. -/
def takePages (n : Nat) : Paged := { a with freePages := a.freePages.drop n }

/-- `alloc`. -/
def alloc (needSize : Nat) : Paged × Option (List Nat) :=
  let numPages := needSize / c.pageSize
  let a := a.mergeIfShort numPages
  if numPages > a.freePages.length then (a, none)
  else (a.takePages numPages, some (expandPages c.pageSize (a.freePages.take numPages)))

/-- `alloc_extend`; the outer `none` is `alloc_extend_naive`'s assertion. A caller may
pass the page count it already knows. -/
def allocExtend (rows : List ExtendRow) (extendNumTokens : Nat)
    (numNewPages : Option Nat) : Option (Paged × Option (List Nat)) :=
  let maxNewPages := extendNumTokens / c.pageSize + rows.length + 1
  let a := a.mergeIfShort maxNewPages
  let count := numNewPages.getD (getNumNewPages c.pageSize rows)
  -- the exact count is only paid for when the bound cannot show the list is deep enough
  if maxNewPages > a.freePages.length ∧ count > a.freePages.length then some (a, none)
  else
    (allocExtendNaive c.pageSize rows a.freePages extendNumTokens).map fun out =>
      (a.takePages count, some out)

/-- `alloc_decode`. -/
def allocDecode (rows : List DecodeRow) : Paged × Option (List Nat) :=
  let a := a.mergeIfShort rows.length
  let numNewPages := getNumNewPagesDecode c.pageSize rows
  if numNewPages > a.freePages.length then (a, none)
  else (a.takePages numNewPages, some (allocDecodeNaive c.pageSize rows a.freePages numNewPages))

/-- `_release_page_ids`, given one tensor. -/
def releasePageIds (pageIds : List Nat) : Paged :=
  if c.needSort then
    { a with
      stagedPages := a.stagedPages ++ [pageIds]
      numStagedPages := a.numStagedPages + pageIds.length }
  else { a with freePages := pageIds ++ a.freePages }

variable (freeIndex : List Nat)

/-- The page ids `free` releases: distinct, without the dummy page and without pages that
are already free. -/
def pagesToFree : List Nat :=
  ((unique (pagesOf c.pageSize freeIndex)).filter (0 < ·)).filter
    (fun page => !(a.getAllFreePages.contains page))

/-- `free` outside a group. -/
def freeNow : Paged :=
  let pages := a.pagesToFree c freeIndex
  if pages.isEmpty then a else a.releasePageIds c pages

def free : Paged :=
  if freeIndex.isEmpty then a
  else match a.freeGroup with
    | none => a.freeNow c freeIndex
    | some group => { a with freeGroup := some (group ++ [freeIndex]) }

def freePageIds (pageIds : List Nat) : Paged :=
  if pageIds.isEmpty then a
  else match a.freeGroup with
    | none => a.releasePageIds c pageIds
    | some _ => { a with freePageIdsGroup := a.freePageIdsGroup ++ [pageIds] }

/-- `free_index[::page_size]`. -/
def representatives (ps : Nat) (freeIndex : List Nat) : List Nat :=
  (List.range (pagesFor ps freeIndex.length)).map fun k => freeIndex.getD (k * ps) 0

/-- `free_segment`; `none` when the start is not page-aligned. -/
def freeSegment (startPos : Nat) : Option Paged :=
  if freeIndex.isEmpty then some a
  else if startPos % c.pageSize = 0 then
    some (a.freePageIds c (pagesOf c.pageSize (representatives c.pageSize freeIndex)))
  else none

/-- `free_group_begin`; `none` when a group is already open. -/
def freeGroupBegin : Option Paged :=
  match a.freeGroup with
  | none => some { a with freeGroup := some [], freePageIdsGroup := [] }
  | some _ => none

/-- The base class's part of `free_group_end`. -/
def freeGroupEndSlots : Paged :=
  let closed := { a with freeGroup := none }
  match a.freeGroup with
  | none => closed
  | some pending => if pending.isEmpty then closed else closed.free c pending.flatten

def freeGroupEnd : Paged :=
  let a := a.freeGroupEndSlots c
  if a.freePageIdsGroup.isEmpty then a
  else { a.releasePageIds c a.freePageIdsGroup.flatten with freePageIdsGroup := [] }

end Paged

/-! ### Calls, with the pages handed out carried along -/

/-- The allocator and the pages handed out whose free has not been carried out. A page
waiting in an open group is still held. -/
structure PagedOwned where
  pool : Paged
  held : Finset Nat

namespace PagedOwned

/-- One call of the allocator. -/
inductive Op where
  | alloc (needSize : Nat)
  | allocExtend (rows : List ExtendRow) (extendNumTokens : Nat) (numNewPages : Option Nat)
  | allocDecode (rows : List DecodeRow)
  | free (freeIndex : List Nat)
  | freeSegment (freeIndex : List Nat) (startPos : Nat)
  | freePageIds (pageIds : List Nat)
  | freeGroupBegin
  | freeGroupEnd
  | mergeAndSortFree

/-- The rows of a batch. -/
def Op.rows : Op → List ExtendRow
  | .allocExtend rows _ _ => rows
  | .allocDecode rows => rows.map DecodeRow.toExtendRow
  | _ => []

/-- The pages a call asks for. -/
def Op.demand (ps : Nat) : Op → Nat
  | .alloc needSize => needSize / ps
  | op => getNumNewPages ps op.rows

/-- The last pages on which the rows of a batch go on. -/
def Op.continued (ps : Nat) (op : Op) : List Nat :=
  (op.rows.filter fun r => 0 < r.num1 ps).map fun r => r.lastPage ps

variable (c : PagedConfig)

/-- Pages of the slots deferred by an open group. -/
def queuedSlotPages (a : Paged) : List Nat := pagesOf c.pageSize (a.freeGroup.getD []).flatten

/-- Page ids deferred by an open group. -/
def queuedPageIds (a : Paged) : List Nat := a.freePageIdsGroup.flatten

variable (s : PagedOwned)

/-- The pages of the returned slots are now held. -/
def receive (result : Paged × Option (List Nat)) : PagedOwned :=
  ⟨result.1, s.held ∪ (pagesOf c.pageSize (result.2.getD [])).toFinset⟩

/-- A free is carried out at once unless a group is open. -/
def giveBack (pool : Paged) (pages : List Nat) : PagedOwned :=
  ⟨pool, if s.pool.freeGroup.isNone then s.held \ pages.toFinset else s.held⟩

def step : Op → Option PagedOwned
  | .alloc needSize => some (s.receive c (s.pool.alloc c needSize))
  | .allocExtend rows n numNewPages => (s.pool.allocExtend c rows n numNewPages).map (s.receive c)
  | .allocDecode rows => some (s.receive c (s.pool.allocDecode c rows))
  | .free freeIndex => some (s.giveBack (s.pool.free c freeIndex) (pagesOf c.pageSize freeIndex))
  | .freeSegment freeIndex startPos =>
    (s.pool.freeSegment c freeIndex startPos).map fun pool =>
      s.giveBack pool (pagesOf c.pageSize freeIndex)
  | .freePageIds pageIds => some (s.giveBack (s.pool.freePageIds c pageIds) pageIds)
  | .freeGroupBegin => s.pool.freeGroupBegin.map fun pool => ⟨pool, s.held⟩
  | .freeGroupEnd => some ⟨s.pool.freeGroupEnd c,
      s.held \ (queuedSlotPages c s.pool ++ queuedPageIds s.pool).toFinset⟩
  | .mergeAndSortFree => some ⟨s.pool.mergeAndSortFree, s.held⟩

/-- The slots a call returns. -/
def returned : Op → Option (List Nat)
  | .alloc needSize => (s.pool.alloc c needSize).2
  | .allocExtend rows n numNewPages => (s.pool.allocExtend c rows n numNewPages).bind Prod.snd
  | .allocDecode rows => (s.pool.allocDecode c rows).2
  | _ => none

/-- The returned slots lie on the pages the rows go on with and on other pages, as many as were
asked for, that nobody held. -/
def HandsOut (op : Op) (out : List Nat) : Prop :=
  let new := (pagesOf c.pageSize out).toFinset \ (op.continued c.pageSize).toFinset
  new.card = op.demand c.pageSize ∧ Disjoint new s.held

/-- A row continues a page its request holds, at the slot after `last_loc`. -/
def RowHeld (r : ExtendRow) : Prop :=
  r.Aligned c.pageSize ∧ (r.prefixLen % c.pageSize ≠ 0 → r.lastPage c.pageSize ∈ s.held)

/-- Distinct held pages, none of them already given up in the open group. -/
def Returnable (pages : List Nat) : Prop :=
  pages.Nodup ∧ ∀ page ∈ pages, page ∈ s.held ∧ page ∉ queuedSlotPages c s.pool ∧
    page ∉ queuedPageIds s.pool

/-- Consecutive slots of whole pages; the last page may be covered in part. -/
def IsRun (freeIndex pages : List Nat) : Prop :=
  pages.length = pagesFor c.pageSize freeIndex.length ∧
    freeIndex = (expandPages c.pageSize pages).take freeIndex.length

/-- What callers of each operation promise. -/
def Allowed : Op → Prop
  | .allocExtend rows n numNewPages =>
    n = (rows.map ExtendRow.extendLen).sum ∧ (∀ r ∈ rows, s.RowHeld c r) ∧
      ∀ k ∈ numNewPages, k = getNumNewPages c.pageSize rows
  -- a pool of single-slot pages is never asked to decode: `alloc_for_decode` sends
  -- `page_size == 1` to `alloc`
  | .allocDecode rows => 1 < c.pageSize ∧ ∀ r ∈ rows, s.RowHeld c r.toExtendRow
  | .free freeIndex => ∀ page ∈ pagesOf c.pageSize freeIndex,
      page = 0 ∨ page ∈ s.held ∧ page ∉ queuedPageIds s.pool
  | .freeSegment freeIndex _ => ∃ pages, IsRun c freeIndex pages ∧ s.Returnable c pages
  | .freePageIds pageIds => s.Returnable c pageIds
  | .alloc _ | .freeGroupBegin | .freeGroupEnd | .mergeAndSortFree => True

/-- The allocator after `clear`, used by callers that keep their promises. -/
def machine : Lib.Machine PagedOwned Op where
  start := fun s => s = ⟨Paged.clear c, ∅⟩
  allowed := Allowed c
  step := step c

/-- `1 .. num_pages`. -/
def stock : Finset Nat := Finset.Icc 1 c.numPages

/-- The free pages, the staged pages and the pages handed out partition `1 .. num_pages`,
and the reported size counts the first two. -/
structure Conserved (s : PagedOwned) : Prop where
  free_nodup : s.pool.freePages.Nodup
  staged_nodup : s.pool.stagedPages.flatten.Nodup
  free_staged : ∀ page ∈ s.pool.freePages, page ∉ s.pool.stagedPages.flatten
  free_held : ∀ page ∈ s.pool.freePages, page ∉ s.held
  staged_held : ∀ page ∈ s.pool.stagedPages.flatten, page ∉ s.held
  exact : s.pool.freePages.toFinset ∪ s.pool.stagedPages.flatten.toFinset ∪ s.held = stock c
  available : s.pool.availableSize c =
    c.pageSize * (s.pool.freePages.length + s.pool.stagedPages.flatten.length)

/-- The split itself, with the count of staged pages. -/
structure Core (s : PagedOwned) : Prop where
  split : Lib.Splits (stock c) s.pool.getAllFreePages s.held
  staged : s.pool.numStagedPages = s.pool.stagedPages.flatten.length

/-- The invariant that carries the split through a run: deferred pages are still held,
and no deferred page id is deferred a second time. -/
structure Inv (s : PagedOwned) : Prop extends Core c s where
  queuedSlots : ∀ page ∈ queuedSlotPages c s.pool, page = 0 ∨ page ∈ s.held
  queuedIds : ∀ page ∈ queuedPageIds s.pool, page ∈ s.held
  queuedIds_nodup : (queuedPageIds s.pool).Nodup
  queued_apart : ∀ page ∈ queuedSlotPages c s.pool, page ∉ queuedPageIds s.pool
  closed : s.pool.freeGroup = none → s.pool.freePageIdsGroup = []

variable {c}

variable {s s' : PagedOwned} {a b : Paged} {held : Finset Nat} {pages freeIndex pageIds : List Nat}
  {rows : List ExtendRow} {numNewPages : Option Nat} {n : Nat} {page k startPos : Nat}

lemma Inv.conserved (inv : Inv c s) : Conserved c s where
  free_nodup := inv.split.nodup.of_append_left
  staged_nodup := inv.split.nodup.of_append_right
  free_staged := fun page free staged =>
    (nodup_append.mp inv.split.nodup).2.2 page free page staged rfl
  free_held := fun page free => inv.split.disjoint page (mem_append_left _ free)
  staged_held := fun page staged => inv.split.disjoint page (mem_append_right _ staged)
  exact := by
    ext page
    rw [inv.split.cover page]
    simp [Paged.getAllFreePages, or_assoc]
  available := by rw [Paged.availableSize, inv.staged, mul_comm]

/-! ### Taking pages -/

/-- `b` has the free pages of `a`, perhaps sorted and unstaged, and its groups. -/
structure Regrouped (a b : Paged) : Prop where
  perm : a.getAllFreePages.Perm b.getAllFreePages
  staged : a.numStagedPages = a.stagedPages.flatten.length →
    b.numStagedPages = b.stagedPages.flatten.length
  group : b.freeGroup = a.freeGroup
  ids : b.freePageIdsGroup = a.freePageIdsGroup

lemma Regrouped.refl (a : Paged) : Regrouped a a := ⟨.refl _, id, rfl, rfl⟩

lemma mergeAndSortFree_regrouped (a : Paged) : Regrouped a a.mergeAndSortFree := by
  unfold Paged.mergeAndSortFree
  split
  · exact .refl a
  · refine ⟨?_, fun _ => rfl, rfl, rfl⟩
    simpa [Paged.getAllFreePages] using (perm_insertionSort (· ≤ ·) a.getAllFreePages).symm

lemma mergeIfShort_regrouped (a : Paged) (n : Nat) : Regrouped a (a.mergeIfShort n) := by
  unfold Paged.mergeIfShort
  split
  · exact mergeAndSortFree_regrouped a
  · exact .refl a

lemma Inv.regroup (inv : Inv c ⟨a, held⟩) (same : Regrouped a b) : Inv c ⟨b, held⟩ where
  split := inv.split.perm same.perm
  staged := same.staged inv.staged
  queuedSlots := by simpa only [queuedSlotPages, same.group] using inv.queuedSlots
  queuedIds := by simpa only [queuedPageIds, same.ids] using inv.queuedIds
  queuedIds_nodup := by simpa only [queuedPageIds, same.ids] using inv.queuedIds_nodup
  queued_apart := by
    simpa only [queuedSlotPages, queuedPageIds, same.group, same.ids] using inv.queued_apart
  closed := by simpa only [same.group, same.ids] using inv.closed

lemma Inv.takePages (inv : Inv c ⟨a, held⟩) (n : Nat) :
    Inv c ⟨a.takePages n, held ∪ (a.freePages.take n).toFinset⟩ := by
  refine { inv with split := ?_, queuedSlots := fun page mem => ?_, queuedIds := fun page mem => ?_ }
  · apply Lib.Splits.take
    simpa only [Paged.getAllFreePages, Paged.takePages, ← append_assoc, take_append_drop]
      using inv.split
  · exact (inv.queuedSlots page mem).imp_right (Finset.mem_union_left _)
  · exact Finset.mem_union_left _ (inv.queuedIds page mem)

/-- What an allocating call does: it fails, or hands out the pages asked for off the front of a
rearranged free list, along with the pages its rows go on with. -/
structure Serves (c : PagedConfig) (s : PagedOwned) (op : Op)
    (result : Paged × Option (List Nat)) : Prop where
  held : ∀ page ∈ op.continued c.pageSize, page ∈ s.held
  pages : ∃ b, Regrouped s.pool b ∧ (result = (b, none) ∨ ∃ out,
    result = (b.takePages (op.demand c.pageSize), some out) ∧
      op.demand c.pageSize ≤ b.freePages.length ∧
      ∀ page, page ∈ pagesOf c.pageSize out ↔
        page ∈ op.continued c.pageSize ∨ page ∈ b.freePages.take (op.demand c.pageSize))

variable {op : Op} {result : Paged × Option (List Nat)} {out : List Nat}

lemma continued_held (rowHeld : ∀ r ∈ op.rows, s.RowHeld c r) :
    ∀ page ∈ op.continued c.pageSize, page ∈ s.held := by
  intro page mem
  obtain ⟨r, row, rfl⟩ := mem_map.mp mem
  obtain ⟨row, first⟩ := mem_filter.mp row
  obtain ⟨aligned, held⟩ := rowHeld r row
  exact held (r.slot_first c.pageSize_pos [] aligned (of_decide_eq_true first)).1

lemma Inv.receive (inv : Inv c s) (serves : Serves c s op result) :
    Inv c (s.receive c result) := by
  obtain ⟨held, b, same, rfl | ⟨out, rfl, -, touched⟩⟩ := serves
  · simpa [PagedOwned.receive, pagesOf] using inv.regroup same
  · have taken := (inv.regroup same).takePages (op.demand c.pageSize)
    have union : s.held ∪ (pagesOf c.pageSize out).toFinset
        = s.held ∪ (b.freePages.take (op.demand c.pageSize)).toFinset := by
      ext page
      have held := held page
      simp only [Finset.mem_union, mem_toFinset, touched]
      tauto
    simpa only [PagedOwned.receive, Option.getD_some, union] using taken

/-- The pages taken off the free list are distinct, and nobody held one. -/
lemma Inv.handsOut (inv : Inv c s) (serves : Serves c s op result) (got : out ∈ result.2) :
    s.HandsOut c op out := by
  obtain ⟨held, b, same, rfl | ⟨out, rfl, room, touched⟩⟩ := serves
  · cases got
  cases got
  have split := inv.split.perm same.perm
  have free : ∀ page ∈ b.freePages.take (op.demand c.pageSize), page ∉ s.held := fun page mem =>
    split.disjoint page (mem_append_left _ (mem_of_mem_take mem))
  have new : (pagesOf c.pageSize out).toFinset \ (op.continued c.pageSize).toFinset
      = (b.freePages.take (op.demand c.pageSize)).toFinset := by
    ext page
    have held := held page
    have apart := free page
    simp only [Finset.mem_sdiff, mem_toFinset, touched]
    tauto
  rw [HandsOut, new, toFinset_card_of_nodup (split.nodup.of_append_left.sublist (take_sublist ..)),
    length_take, min_eq_left room]
  exact ⟨rfl, Finset.disjoint_left.mpr fun page mem => free page (mem_toFinset.mp mem)⟩

lemma alloc_serves (s : PagedOwned) (needSize : Nat) :
    Serves c s (.alloc needSize) (s.pool.alloc c needSize) := by
  refine ⟨fun _ mem => absurd mem not_mem_nil, _,
    mergeIfShort_regrouped s.pool (needSize / c.pageSize), ?_⟩
  simp only [Paged.alloc]
  split
  · exact .inl rfl
  · rename_i room
    refine .inr ⟨_, rfl, not_lt.mp room, fun page => ?_⟩
    rw [mem_pagesOf_expandPages c.pageSize_pos]
    exact (or_iff_right not_mem_nil).symm

/-- The slots of a batch lie on the rows' last pages and on the demanded number of free pages. -/
lemma Serves.batch (batch : op.demand c.pageSize = getNumNewPages c.pageSize op.rows)
    (rowHeld : ∀ r ∈ op.rows, s.RowHeld c r) (same : Regrouped s.pool b)
    (room : getNumNewPages c.pageSize op.rows ≤ b.freePages.length) :
    Serves c s op (b.takePages (getNumNewPages c.pageSize op.rows),
      some (extendRows c.pageSize op.rows b.freePages)) := by
  refine ⟨continued_held rowHeld, b, same, .inr ⟨_, by rw [batch], by rwa [batch], fun page => ?_⟩⟩
  rw [mem_pagesOf_extendRows c.pageSize_pos page (fun r mem => (rowHeld r mem).1) room, batch]
  simp [Op.continued, and_assoc, eq_comm]

/-- What `alloc_extend` does when the caller's counts are right: it fails, or it serves the
rows from the front of a rearranged free list. It never trips the kernel's assertion. -/
lemma allocExtend_cases (known : ∀ k ∈ numNewPages, k = getNumNewPages c.pageSize rows) :
    ∃ b, Regrouped a b ∧
      (a.allocExtend c rows (rows.map ExtendRow.extendLen).sum numNewPages = some (b, none) ∨
        getNumNewPages c.pageSize rows ≤ b.freePages.length ∧
          a.allocExtend c rows (rows.map ExtendRow.extendLen).sum numNewPages
            = some (b.takePages (getNumNewPages c.pageSize rows),
              some (extendRows c.pageSize rows b.freePages))) := by
  have count : numNewPages.getD (getNumNewPages c.pageSize rows)
      = getNumNewPages c.pageSize rows := by
    cases numNewPages with
    | none => rfl
    | some k => exact known k rfl
  have bound := getNumNewPages_lt_bound c.pageSize_pos rows
  refine ⟨_, mergeIfShort_regrouped a
    ((rows.map ExtendRow.extendLen).sum / c.pageSize + rows.length + 1), ?_⟩
  simp only [Paged.allocExtend, count]
  split
  · exact .inl rfl
  · rename_i enough
    rw [not_and_or, not_lt, not_lt] at enough
    have room := enough.elim (bound.le.trans) id
    rw [allocExtendNaive_eq c.pageSize_pos room]
    exact .inr ⟨room, rfl⟩

lemma allocExtend_serves (allowed : Allowed c s (.allocExtend rows n numNewPages)) :
    ∃ result, s.pool.allocExtend c rows n numNewPages = some result ∧
      Serves c s (.allocExtend rows n numNewPages) result := by
  obtain ⟨rfl, rowHeld, known⟩ := allowed
  obtain ⟨b, same, failed | ⟨room, served⟩⟩ := allocExtend_cases known
  · exact ⟨_, failed, continued_held rowHeld, b, same, .inl rfl⟩
  · exact ⟨_, served, .batch rfl rowHeld same room⟩

/-- A sorted-in free list holds every page that was free or staged. -/
lemma length_mergeIfShort (short : n > a.freePages.length) :
    (a.mergeIfShort n).freePages.length = a.getAllFreePages.length := by
  unfold Paged.mergeIfShort Paged.mergeAndSortFree Paged.getAllFreePages
  rw [if_pos short]
  split
  · rename_i empty
    simp [isEmpty_iff.mp empty]
  · simp

/-- What `alloc_decode` does: it fails exactly when the demand exceeds the free and staged
pages, and else serves the rows like a one-position extend. -/
lemma allocDecode_cases (two : 1 < c.pageSize) (a : Paged) (rows : List DecodeRow) :
    ∃ b, Regrouped a b ∧ (a.getAllFreePages.length < getNumNewPagesDecode c.pageSize rows ∧
          a.allocDecode c rows = (b, none) ∨
        getNumNewPagesDecode c.pageSize rows ≤ a.getAllFreePages.length ∧
        getNumNewPages c.pageSize (rows.map DecodeRow.toExtendRow) ≤ b.freePages.length ∧
          a.allocDecode c rows
            = (b.takePages (getNumNewPages c.pageSize (rows.map DecodeRow.toExtendRow)),
              some (extendRows c.pageSize (rows.map DecodeRow.toExtendRow) b.freePages))) := by
  have most : getNumNewPagesDecode c.pageSize rows ≤ rows.length := countP_le_length
  refine ⟨_, mergeIfShort_regrouped a rows.length, ?_⟩
  have all : (a.mergeIfShort rows.length).freePages.length = a.getAllFreePages.length ∨
      rows.length ≤ (a.mergeIfShort rows.length).freePages.length ∧
        rows.length ≤ a.getAllFreePages.length := by
    by_cases short : rows.length > a.freePages.length
    · exact .inl (length_mergeIfShort short)
    · refine .inr ⟨?_, ?_⟩
      · rw [Paged.mergeIfShort, if_neg short]
        omega
      · simp [Paged.getAllFreePages]
        omega
  simp only [Paged.allocDecode]
  split
  · exact .inl ⟨by omega, rfl⟩
  · rw [allocDecodeNaive_eq c.pageSize_pos two, getNumNewPages_decode c.pageSize_pos two]
    exact .inr ⟨by omega, by omega, rfl⟩

lemma allocDecode_serves {rows : List DecodeRow} (allowed : Allowed c s (.allocDecode rows)) :
    Serves c s (.allocDecode rows) (s.pool.allocDecode c rows) := by
  obtain ⟨two, rowHeld⟩ := allowed
  have held : ∀ r ∈ (Op.allocDecode rows).rows, s.RowHeld c r := by
    simpa [Op.rows] using rowHeld
  obtain ⟨b, same, ⟨-, failed⟩ | ⟨-, room, served⟩⟩ := allocDecode_cases two s.pool rows
  · exact ⟨continued_held held, b, same, .inl failed⟩
  · exact served ▸ .batch rfl held same room

/-! ### Giving pages back -/

lemma releasePageIds_perm (a : Paged) (pages : List Nat) :
    (pages ++ a.getAllFreePages).Perm (a.releasePageIds c pages).getAllFreePages := by
  unfold Paged.releasePageIds Paged.getAllFreePages
  split
  · simp only [flatten_append, flatten_singleton]
    rw [← append_assoc a.freePages]
    exact perm_append_comm
  · simp

@[simp] lemma releasePageIds_freeGroup (a : Paged) (pages : List Nat) :
    (a.releasePageIds c pages).freeGroup = a.freeGroup := by
  unfold Paged.releasePageIds
  split <;> rfl

@[simp] lemma releasePageIds_freePageIdsGroup (a : Paged) (pages : List Nat) :
    (a.releasePageIds c pages).freePageIdsGroup = a.freePageIdsGroup := by
  unfold Paged.releasePageIds
  split <;> rfl

lemma Core.release (core : Core c ⟨a, held⟩) (nodup : pages.Nodup)
    (sub : ∀ page ∈ pages, page ∈ held) :
    Core c ⟨a.releasePageIds c pages, held \ pages.toFinset⟩ where
  split := (core.split.give nodup sub).perm (releasePageIds_perm a pages)
  staged := by
    have staged := core.staged
    unfold Paged.releasePageIds
    split
    · simp only at staged
      simp [staged]
    · exact staged

lemma mem_pagesToFree : page ∈ a.pagesToFree c freeIndex ↔
      page ∈ pagesOf c.pageSize freeIndex ∧ 0 < page ∧ page ∉ a.getAllFreePages := by
  simp only [Paged.pagesToFree, mem_filter, mem_unique, decide_eq_true_eq, Bool.not_eq_true',
    contains_eq_mem, decide_eq_false_iff_not, and_assoc]

lemma zero_not_stock : 0 ∉ stock c := by simp [stock]

/-- A `free` of held pages gives back exactly the pages of its slots. -/
lemma Core.freeNow (core : Core c ⟨a, held⟩)
    (sub : ∀ page ∈ pagesOf c.pageSize freeIndex, page = 0 ∨ page ∈ held) :
    Core c ⟨a.freeNow c freeIndex, held \ (pagesOf c.pageSize freeIndex).toFinset⟩ := by
  have same : held \ (pagesOf c.pageSize freeIndex).toFinset
      = held \ (a.pagesToFree c freeIndex).toFinset := by
    ext page
    simp only [Finset.mem_sdiff, mem_toFinset, mem_pagesToFree]
    refine and_congr_right fun mem => not_congr ?_
    have pos : 0 < page := pos_of_ne_zero fun zero =>
      zero_not_stock (zero ▸ core.split.held_sub mem)
    exact (and_iff_left ⟨pos, core.split.not_free mem⟩).symm
  have released : Core c ⟨a.releasePageIds c (a.pagesToFree c freeIndex),
      held \ (a.pagesToFree c freeIndex).toFinset⟩ := by
    apply core.release
    · exact ((nodup_unique _).filter _).filter _
    · intro page mem
      obtain ⟨freed, pos, -⟩ := mem_pagesToFree.mp mem
      exact (sub page freed).resolve_left pos.ne'
  rw [same]
  simp only [Paged.freeNow]
  split
  · rename_i noIndex
    rw [isEmpty_iff.mp noIndex]
    simpa using core
  · exact released

@[simp] lemma freeNow_freeGroup (a : Paged) (freeIndex : List Nat) :
    (a.freeNow c freeIndex).freeGroup = a.freeGroup := by
  simp only [Paged.freeNow]
  split
  · rfl
  · simp

@[simp] lemma freeNow_freePageIdsGroup (a : Paged) (freeIndex : List Nat) :
    (a.freeNow c freeIndex).freePageIdsGroup = a.freePageIdsGroup := by
  simp only [Paged.freeNow]
  split
  · rfl
  · simp

/-- Outside a group the invariant is the split. -/
lemma Core.inv (core : Core c ⟨a, held⟩) (closed : a.freeGroup = none)
    (empty : a.freePageIdsGroup = []) : Inv c ⟨a, held⟩ where
  toCore := core
  queuedSlots := by simp [queuedSlotPages, closed, pagesOf]
  queuedIds := by simp [queuedPageIds, empty]
  queuedIds_nodup := by simp [queuedPageIds, empty]
  queued_apart := by simp [queuedSlotPages, closed, pagesOf]
  closed := fun _ => empty

/-- Slots deferred by an open group join its queue. -/
lemma Inv.queueSlots {waiting : List (List Nat)} (inv : Inv c ⟨a, held⟩)
    (group : a.freeGroup = some waiting) (owned : ∀ page ∈ pagesOf c.pageSize freeIndex,
      page = 0 ∨ page ∈ held ∧ page ∉ queuedPageIds a) :
    Inv c ⟨{ a with freeGroup := some (waiting ++ [freeIndex]) }, held⟩ := by
  have queued page : page ∈ pagesOf c.pageSize (waiting ++ [freeIndex]).flatten ↔
      page ∈ queuedSlotPages c a ∨ page ∈ pagesOf c.pageSize freeIndex := by
    simp [queuedSlotPages, group, pagesOf]
  refine ⟨⟨inv.split, inv.staged⟩, ?_, inv.queuedIds, inv.queuedIds_nodup, ?_, by simp⟩
  · intro page mem
    rcases (queued page).mp mem with before | now
    · exact inv.queuedSlots page before
    · exact (owned page now).imp_right And.left
  · intro page mem
    rcases (queued page).mp mem with before | now
    · exact inv.queued_apart page before
    · rcases owned page now with rfl | ⟨-, apart⟩
      · intro zero
        exact zero_not_stock (inv.split.held_sub (inv.queuedIds 0 zero))
      · exact apart

/-- Page ids deferred by an open group join its other queue. -/
lemma Inv.queuePageIds (inv : Inv c s) (opened : s.pool.freeGroup ≠ none)
    (returnable : s.Returnable c pageIds) :
    Inv c ⟨{ s.pool with freePageIdsGroup := s.pool.freePageIdsGroup ++ [pageIds] }, s.held⟩ := by
  obtain ⟨nodup, owned⟩ := returnable
  have queued : (s.pool.freePageIdsGroup ++ [pageIds]).flatten
      = queuedPageIds s.pool ++ pageIds := by simp [queuedPageIds]
  refine ⟨⟨inv.split, inv.staged⟩, inv.queuedSlots, ?_, ?_, ?_, fun closed => absurd closed opened⟩
  · intro page mem
    rw [queuedPageIds, queued, mem_append] at mem
    exact mem.elim (inv.queuedIds page) fun new => (owned page new).1
  · rw [queuedPageIds, queued]
    refine nodup_append.mpr ⟨inv.queuedIds_nodup, nodup, ?_⟩
    rintro page before _ new rfl
    exact (owned page new).2.2 before
  · intro page mem
    rw [queuedPageIds, queued, mem_append, not_or]
    exact ⟨inv.queued_apart page mem, fun new => (owned page new).2.1 mem⟩

lemma Inv.free (inv : Inv c s) (allowed : Allowed c s (.free freeIndex)) :
    Inv c (s.giveBack (s.pool.free c freeIndex) (pagesOf c.pageSize freeIndex)) := by
  unfold PagedOwned.giveBack Paged.free
  cases freeIndex with
  | nil => simpa [pagesOf] using inv
  | cons slot slots =>
    cases group : s.pool.freeGroup with
    | none =>
      have freed := inv.toCore.freeNow fun page mem => (allowed page mem).imp_right And.left
      exact freed.inv (by simp [group]) (by simp [inv.closed group])
    | some waiting => exact inv.queueSlots group allowed

lemma Inv.freePageIds (inv : Inv c s) (returnable : s.Returnable c pageIds) :
    Inv c (s.giveBack (s.pool.freePageIds c pageIds) pageIds) := by
  unfold PagedOwned.giveBack Paged.freePageIds
  cases pageIds with
  | nil => simpa using inv
  | cons first rest =>
    cases group : s.pool.freeGroup with
    | none =>
      have freed := inv.toCore.release returnable.1 fun page mem => (returnable.2 page mem).1
      exact freed.inv (by simp [group]) (by simp [inv.closed group])
    | some waiting => simpa [group] using inv.queuePageIds (by simp [group]) returnable

section

variable (run : IsRun c freeIndex pages)
include run

/-- The first slot of each page of a run. -/
lemma IsRun.getElem? (lt : k < pages.length) :
    freeIndex[k * c.pageSize]? = some (pages[k] * c.pageSize) := by
  have pos := c.pageSize_pos
  have inside : k * c.pageSize < freeIndex.length := by
    by_contra past
    have := (pagesFor_le_iff pos).mpr (Nat.le_of_not_lt past)
    exact absurd (run.1 ▸ lt) (not_lt.mpr this)
  rw [run.2, getElem?_take_of_lt (run.2 ▸ inside), ← add_zero (k * c.pageSize),
    getElem?_expandPages pos, getElem?_eq_getElem lt]
  rfl

/-- The representatives of a run are the first slots of its pages, in order. -/
lemma IsRun.representatives_eq :
    Paged.representatives c.pageSize freeIndex = pages.map (· * c.pageSize) := by
  apply ext_getElem
  · simp [Paged.representatives, run.1]
  · intro k _ lt
    have lt : k < pages.length := by simpa using lt
    simp [Paged.representatives, run.getElem? lt]

lemma IsRun.pagesOf_representatives :
    pagesOf c.pageSize (Paged.representatives c.pageSize freeIndex) = pages := by
  simp [run.representatives_eq, pagesOf, Function.comp_def, c.pageSize_pos]

lemma IsRun.mem_pagesOf : page ∈ pagesOf c.pageSize freeIndex ↔ page ∈ pages := by
  constructor
  · intro mem
    rw [run.2, pagesOf, map_take] at mem
    exact (mem_pagesOf_expandPages c.pageSize_pos).mp (mem_of_mem_take mem)
  · intro mem
    obtain ⟨k, lt, rfl⟩ := getElem_of_mem mem
    refine mem_map.mpr ⟨_, mem_of_getElem? (run.getElem? lt), ?_⟩
    exact Nat.mul_div_cancel _ c.pageSize_pos

end

lemma Inv.freeSegment (inv : Inv c s) (allowed : Allowed c s (.freeSegment freeIndex startPos))
    (ran : step c s (.freeSegment freeIndex startPos) = some s') : Inv c s' := by
  obtain ⟨pages, run, returnable⟩ := allowed
  have sameSet : (pagesOf c.pageSize freeIndex).toFinset = pages.toFinset := by
    ext page
    simp only [mem_toFinset, run.mem_pagesOf]
  simp only [step, Paged.freeSegment] at ran
  split at ran
  · rename_i empty
    cases ran
    rw [isEmpty_iff.mp empty]
    simpa [PagedOwned.giveBack, pagesOf] using inv
  · split at ran
    · cases ran
      rw [run.pagesOf_representatives]
      simpa only [PagedOwned.giveBack, sameSet] using inv.freePageIds returnable
    · cases ran

lemma Inv.freeGroupBegin (inv : Inv c s) (ran : step c s .freeGroupBegin = some s') : Inv c s' := by
  simp only [step, Paged.freeGroupBegin] at ran
  cases group : s.pool.freeGroup with
  | none =>
    rw [group] at ran
    cases ran
    exact ⟨⟨inv.split, inv.staged⟩, by simp [queuedSlotPages, pagesOf],
      by simp [queuedPageIds], by simp [queuedPageIds], by simp [queuedSlotPages, pagesOf],
      by simp⟩
  | some waiting =>
    rw [group] at ran
    cases ran

/-- Closing a group carries out the deferred slot frees; the page ids are still queued. -/
lemma Core.freeGroupEndSlots (inv : Inv c s) :
    Core c ⟨s.pool.freeGroupEndSlots c, s.held \ (queuedSlotPages c s.pool).toFinset⟩ := by
  have core : Core c ⟨{ s.pool with freeGroup := none }, s.held⟩ := ⟨inv.split, inv.staged⟩
  have queued := inv.queuedSlots
  unfold Paged.freeGroupEndSlots queuedSlotPages at *
  cases group : s.pool.freeGroup with
  | none => simpa [pagesOf] using core
  | some pending =>
    rw [group] at queued
    cases pending with
    | nil => simpa [pagesOf] using core
    | cons first rest =>
      simp only [isEmpty_cons, Bool.false_eq_true, if_false, Option.getD_some]
      unfold Paged.free
      split
      · rename_i empty
        rw [isEmpty_iff.mp empty]
        simpa [pagesOf] using core
      · exact core.freeNow queued

lemma freeGroupEndSlots_groups (a : Paged) :
    (a.freeGroupEndSlots c).freePageIdsGroup = a.freePageIdsGroup ∧
      (a.freeGroupEndSlots c).freeGroup = none := by
  unfold Paged.freeGroupEndSlots Paged.free
  cases a.freeGroup with
  | none => exact ⟨rfl, rfl⟩
  | some pending => simp only; split_ifs <;> simp

lemma Inv.freeGroupEnd (inv : Inv c s) : Inv c ⟨s.pool.freeGroupEnd c,
      s.held \ (queuedSlotPages c s.pool ++ queuedPageIds s.pool).toFinset⟩ := by
  have core := Core.freeGroupEndSlots inv
  obtain ⟨ids, closed⟩ := freeGroupEndSlots_groups (c := c) s.pool
  have both : s.held \ (queuedSlotPages c s.pool ++ queuedPageIds s.pool).toFinset
      = (s.held \ (queuedSlotPages c s.pool).toFinset) \ (queuedPageIds s.pool).toFinset := by
    rw [toFinset_append]
    exact sdiff_sdiff_left.symm
  rw [both]
  simp only [Paged.freeGroupEnd, ids]
  cases queue : s.pool.freePageIdsGroup with
  | nil =>
    have noIds : queuedPageIds s.pool = [] := by simp [queuedPageIds, queue]
    simpa [noIds] using core.inv closed (ids.trans queue)
  | cons first rest =>
    have released : Core c ⟨(s.pool.freeGroupEndSlots c).releasePageIds c (queuedPageIds s.pool),
        (s.held \ (queuedSlotPages c s.pool).toFinset) \ (queuedPageIds s.pool).toFinset⟩ := by
      apply core.release inv.queuedIds_nodup
      intro page mem
      rw [Finset.mem_sdiff, mem_toFinset]
      exact ⟨inv.queuedIds page mem, fun slot => inv.queued_apart page slot mem⟩
    have emptied : Core c ⟨{ (s.pool.freeGroupEndSlots c).releasePageIds c (queuedPageIds s.pool)
        with freePageIdsGroup := [] },
        (s.held \ (queuedSlotPages c s.pool).toFinset) \ (queuedPageIds s.pool).toFinset⟩ :=
      ⟨released.split, released.staged⟩
    simpa [queuedPageIds, queue] using emptied.inv (by simp [closed]) rfl

/-! ### Every run -/

lemma Inv.clear : Inv c ⟨Paged.clear c, ∅⟩ := by
  refine Core.inv ⟨.all ?_ ?_, rfl⟩ rfl rfl
  · simpa [Paged.clear, Paged.getAllFreePages] using nodup_range'
  · intro page
    simp only [stock, Finset.mem_Icc, Paged.clear, Paged.getAllFreePages, flatten_nil,
      append_nil, mem_range'_1]
    omega

lemma Inv.step {op : Op} (inv : Inv c s) (allowed : Allowed c s op)
    (ran : PagedOwned.step c s op = some s') : Inv c s' := by
  cases op with
  | alloc needSize => cases ran; exact inv.receive (alloc_serves s needSize)
  | allocExtend rows n numNewPages =>
    obtain ⟨result, called, serves⟩ := allocExtend_serves allowed
    obtain rfl : s.receive c result = s' := by
      simpa only [PagedOwned.step, called, Option.map_some, Option.some.injEq] using ran
    exact inv.receive serves
  | allocDecode rows => cases ran; exact inv.receive (allocDecode_serves allowed)
  | free freeIndex => cases ran; exact inv.free allowed
  | freeSegment freeIndex startPos => exact inv.freeSegment allowed ran
  | freePageIds pageIds => cases ran; exact inv.freePageIds allowed
  | freeGroupBegin => exact inv.freeGroupBegin ran
  | freeGroupEnd => cases ran; exact inv.freeGroupEnd
  | mergeAndSortFree => cases ran; exact inv.regroup (mergeAndSortFree_regrouped s.pool)

lemma inv_inductive : (machine c).Inductive (Inv c) where
  start := by
    rintro s rfl
    exact .clear
  step := fun _ _ _ inv => inv.step

/-- No call hands out a page that is held, nor one page twice. -/
lemma Inv.returned_new (inv : Inv c s) (allowed : Allowed c s op)
    (got : out ∈ s.returned c op) : s.HandsOut c op out := by
  cases op with
  | alloc needSize => exact inv.handsOut (alloc_serves s needSize) got
  | allocExtend rows n numNewPages =>
    obtain ⟨result, called, serves⟩ := allocExtend_serves allowed
    rw [returned, called] at got
    exact inv.handsOut serves got
  | allocDecode rows => exact inv.handsOut (allocDecode_serves allowed) got
  | _ => cases got

/-- **Pages are conserved.** In every state reached by calls that free only what they
hold, the free pages, the staged pages and the pages handed out partition
`1 .. num_pages`, the reported size counts the free and the staged pages, and a call hands out
as many new pages as it is asked for, none of which is held. -/
theorem reachable_conserved {s : PagedOwned} (reached : (machine c).Reachable s) :
    Conserved c s ∧
      ∀ op, s.Allowed c op → ∀ out ∈ s.returned c op, s.HandsOut c op out := by
  have inv := inv_inductive.reachable reached
  exact ⟨inv.conserved, fun op allowed out => inv.returned_new allowed⟩

/-- A sorting pool of two pages after handing out one and taking it back: the next call takes
the other one. -/
theorem reachable_conserved_staged :
    Conserved ⟨8, 4, true, by decide⟩ ⟨⟨[2], [[1]], 1, none, []⟩, ∅⟩ ∧
      HandsOut ⟨8, 4, true, by decide⟩ ⟨⟨[2], [[1]], 1, none, []⟩, ∅⟩ (.alloc 4) [8, 9, 10, 11] := by
  have taken : (machine ⟨8, 4, true, by decide⟩).Reachable ⟨⟨[2], [], 0, none, []⟩, {1}⟩ :=
    .step (.start rfl) (a := .alloc 4) trivial rfl
  have allowed : Allowed ⟨8, 4, true, by decide⟩ ⟨⟨[2], [], 0, none, []⟩, {1}⟩ (.free [4, 5, 6, 7]) := by
    change ∀ page ∈ [1, 1, 1, 1], page = 0 ∨ page ∈ ({1} : Finset Nat) ∧ page ∉ []
    decide
  have staged := taken.step (a := Op.free [4, 5, 6, 7]) allowed rfl
  obtain ⟨conserved, handsOut⟩ := reachable_conserved staged
  exact ⟨conserved, handsOut (.alloc 4) trivial _ rfl⟩

end PagedOwned

end Sglang.Alloc
