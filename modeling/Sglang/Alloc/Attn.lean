/-
# The sub-allocators of a hybrid pool

`SWATokenToKVPoolAllocator` drives two allocators of one class: `TokenToKVPoolAllocator`
for single-slot pages, `PagedTokenToKVPoolAllocator` otherwise. `Attn` is such a
sub-allocator, and `Attn.Live` the one fact about it the hybrid pool needs: which of its
pages are out and not given back. A page given back inside an open group is no longer
live, though the sub-allocator only frees it when the group ends.

Each operation has one lemma about `Live`.
-/

import Sglang.Alloc.Paged
import Sglang.Alloc.Token

namespace Sglang.Alloc

open List PagedOwned

/-- `full_attn_allocator` or `swa_attn_allocator`. -/
inductive Attn where
  | token (a : Token)
  | paged (a : Paged)
  deriving DecidableEq, Repr

namespace Attn

variable (c : PagedConfig)

def clear : Attn :=
  if c.pageSize = 1 then .token (Token.clear c.size) else .paged (Paged.clear c)

def availableSize : Attn → Nat
  | .token a => a.availableSize
  | .paged a => a.availableSize c

def getAllFreePages : Attn → List Nat
  | .token a => a.getAllFreePages
  | .paged a => a.getAllFreePages

def alloc (needSize : Nat) : Attn → Attn × Option (List Nat)
  | .token a => (a.alloc c.needSort needSize).map .token id
  | .paged a => (a.alloc c needSize).map .paged id

/-- `alloc_extend`; `none` when it raises, as it does on a token allocator. -/
def allocExtend (rows : List ExtendRow) (extendNumTokens : Nat) (numNewPages : Option Nat) :
    Attn → Option (Attn × Option (List Nat))
  | .token _ => none
  | .paged a => (a.allocExtend c rows extendNumTokens numNewPages).map (Prod.map .paged id)

/-- `alloc_decode`; `none` when it raises, as it does on a token allocator. -/
def allocDecode (rows : List DecodeRow) : Attn → Option (Attn × Option (List Nat))
  | .token _ => none
  | .paged a => some ((a.allocDecode c rows).map .paged id)

def free (freeIndex : List Nat) : Attn → Attn
  | .token a => .token (a.free c.needSort freeIndex)
  | .paged a => .paged (a.free c freeIndex)

def freePageIds (pageIds : List Nat) : Attn → Attn
  | .token a => .token (a.free c.needSort pageIds)
  | .paged a => .paged (a.freePageIds c pageIds)

/-- `free_segment`; `none` when the start is not page-aligned. -/
def freeSegment (freeIndex : List Nat) (startPos : Nat) : Attn → Option Attn
  | .token a => some (.token (a.free c.needSort freeIndex))
  | .paged a => (a.freeSegment c freeIndex startPos).map .paged

def freeGroupBegin : Attn → Option Attn
  | .token a => a.freeGroupBegin.map .token
  | .paged a => a.freeGroupBegin.map .paged

def freeGroupEnd : Attn → Attn
  | .token a => .token (a.freeGroupEnd c.needSort)
  | .paged a => .paged (a.freeGroupEnd c)

/-- Pages given back inside an open group. -/
def queued : Attn → List Nat
  | .token a => a.queued
  | .paged a => PagedOwned.queuedSlotPages c a ++ PagedOwned.queuedPageIds a

/-- The pages out of the free lists and not given back. -/
def livePages (a : Attn) : Finset Nat :=
  (PagedOwned.stock c).filter fun page => page ∉ a.getAllFreePages ∧ page ∉ a.queued c

/-- The invariant of the sub-allocator that is in use at this page size. -/
inductive Inv : Attn → Finset Nat → Prop
  | token {a : Token} {held : Finset Nat} (one : c.pageSize = 1)
      (inv : a.Inv c.numPages held) : Inv (.token a) held
  | paged {a : Paged} {held : Finset Nat} (many : 1 < c.pageSize)
      (inv : PagedOwned.Inv c ⟨a, held⟩) : Inv (.paged a) held

/-- `live` are the pages out and not given back. -/
def Live (a : Attn) (live : Finset Nat) : Prop :=
  ∃ held, Inv c a held ∧ live = held \ (a.queued c).toFinset

variable {c} {a : Attn} {live held : Finset Nat}

lemma Inv.split (inv : Inv c a held) : Lib.Splits (PagedOwned.stock c) a.getAllFreePages held := by
  cases inv with
  | token one inv => exact inv.split
  | paged many inv => exact inv.split

lemma Live.paged {a : Paged} (h : Live c (.paged a) live) :
    ∃ held, 1 < c.pageSize ∧ PagedOwned.Inv c ⟨a, held⟩ ∧
      live = held \ ((Attn.paged a).queued c).toFinset := by
  obtain ⟨held, inv, rfl⟩ := h
  cases inv with
  | paged many inv => exact ⟨held, many, inv, rfl⟩

lemma Live.token {a : Token} (h : Live c (.token a) live) :
    ∃ held, c.pageSize = 1 ∧ a.Inv c.numPages held ∧ live = held \ a.queued.toFinset := by
  obtain ⟨held, inv, rfl⟩ := h
  cases inv with
  | token one inv => exact ⟨held, one, inv, rfl⟩

/-- The live pages are determined by the free lists and the queues. -/
lemma Live.eq_livePages (h : Live c a live) : live = livePages c a := by
  obtain ⟨held, inv, rfl⟩ := h
  ext page
  have cover := inv.split.cover page
  have apart := inv.split.disjoint page
  simp [livePages]
  tauto

lemma Live.clear : Live c (clear c) ∅ := by
  unfold Attn.clear
  split
  · rename_i one
    refine ⟨∅, .token one ?_, by simp⟩
    have : c.numPages = c.size := by rw [PagedConfig.numPages, one, Nat.div_one]
    rw [this]
    exact Token.Inv.clear
  · rename_i many
    exact ⟨∅, .paged (by have := c.pageSize_pos; omega) PagedOwned.Inv.clear, by simp⟩

/-! ### Taking pages -/

/-- `a'` is the allocator after the pages `new` left the free lists. -/
structure Granted (c : PagedConfig) (a' : Attn) (live : Finset Nat) (new : List Nat) : Prop where
  after : Live c a' (live ∪ new.toFinset)
  nodup : new.Nodup
  fresh : ∀ page ∈ new, page ∉ live

lemma Granted.none (h : Live c a live) : Granted c a live [] :=
  ⟨by simpa using h, nodup_nil, by simp⟩

lemma Live.regroup {a b : Paged} (h : Live c (.paged a) live)
    (same : PagedOwned.Regrouped a b) : Live c (.paged b) live := by
  obtain ⟨held, many, inv, rfl⟩ := h.paged
  refine ⟨held, .paged many (inv.regroup same), ?_⟩
  simp only [queued, queuedSlotPages, queuedPageIds, same.group, same.ids]

variable {a' : Attn} {out : Option (List Nat)} {pages freeIndex new rest slots : List Nat}

/-- Handing out the front of a free list that is nowhere queued. -/
lemma granted_of_split (inv' : Inv c a' (held ∪ new.toFinset))
    (queue : a'.queued c = a.queued c) (split : Lib.Splits (PagedOwned.stock c) (new ++ rest) held)
    (queued_held : ∀ page ∈ a.queued c, page = 0 ∨ page ∈ held) :
    Granted c a' (held \ (a.queued c).toFinset) new where
  after := by
    refine ⟨_, inv', ?_⟩
    rw [queue, Finset.union_sdiff_distrib]
    congr 1
    symm
    rw [Finset.sdiff_eq_self_iff_disjoint, Finset.disjoint_left]
    intro page mem queued
    rw [mem_toFinset] at mem queued
    rcases queued_held page queued with rfl | out
    · exact zero_not_stock (split.free_mem (mem_append_left _ mem))
    · exact split.disjoint page (mem_append_left _ mem) out
  nodup := split.nodup.of_append_left
  fresh := by
    intro page mem live
    exact split.disjoint page (mem_append_left _ mem) (Finset.mem_sdiff.mp live).1

lemma paged_queued_held {a : Paged} (inv : PagedOwned.Inv c ⟨a, held⟩) :
    ∀ page ∈ (Attn.paged a).queued c, page = 0 ∨ page ∈ held := by
  intro page mem
  rcases mem_append.mp mem with slot | id
  · exact inv.queuedSlots page slot
  · exact .inr (inv.queuedIds page id)

lemma Live.takePages {a : Paged} (h : Live c (.paged a) live) (n : Nat) :
    Granted c (.paged (a.takePages n)) live (a.freePages.take n) := by
  obtain ⟨held, many, inv, rfl⟩ := h.paged
  have split : Lib.Splits (stock c)
      (a.freePages.take n ++ (a.freePages.drop n ++ a.stagedPages.flatten)) held := by
    rw [← append_assoc, take_append_drop]
    exact inv.split
  exact granted_of_split (.paged many (inv.takePages n)) rfl split (paged_queued_held inv)

lemma Live.allocExtend {rows : List ExtendRow} {n : Nat} {numNewPages : Option Nat}
    (h : Live c a live) (total : n = (rows.map ExtendRow.extendLen).sum)
    (known : ∀ k ∈ numNewPages, k = getNumNewPages c.pageSize rows)
    (ran : a.allocExtend c rows n numNewPages = some (a', out)) :
    (out = none ∧ Live c a' live) ∨
      ∃ new, out = some (extendRows c.pageSize rows new) ∧ Granted c a' live new ∧
        new.length = getNumNewPages c.pageSize rows := by
  subst total
  cases a with
  | token a => cases ran
  | paged a =>
    obtain ⟨b, same, failed | ⟨room, served⟩⟩ := allocExtend_cases known
    · rw [Attn.allocExtend, failed] at ran
      cases ran
      exact .inl ⟨rfl, h.regroup same⟩
    · rw [Attn.allocExtend, served] at ran
      cases ran
      refine .inr ⟨_, ?_, (h.regroup same).takePages _, ?_⟩
      · rw [extendRows_take c.pageSize_pos]
        rfl
      · rw [length_take, min_eq_left room]

lemma Live.allocDecode {rows : List DecodeRow} (h : Live c a live)
    (ran : a.allocDecode c rows = some (a', out)) :
    (out = none ∧ Live c a' live ∧
        a.availableSize c / c.pageSize < getNumNewPagesDecode c.pageSize rows) ∨
      ∃ new, out = some (extendRows c.pageSize (rows.map DecodeRow.toExtendRow) new) ∧
        Granted c a' live new ∧ new.length = getNumNewPagesDecode c.pageSize rows ∧
        getNumNewPagesDecode c.pageSize rows ≤ a.availableSize c / c.pageSize := by
  cases a with
  | token a => cases ran
  | paged a =>
    obtain ⟨held, many, inv, -⟩ := h.paged
    have size : (Attn.paged a).availableSize c / c.pageSize = a.getAllFreePages.length := by
      rw [Attn.availableSize, Paged.availableSize, Nat.mul_div_cancel _ c.pageSize_pos, inv.staged,
        Paged.getAllFreePages, length_append]
    rw [size]
    obtain ⟨b, same, ⟨short, failed⟩ | ⟨enough, room, served⟩⟩ :=
      allocDecode_cases many a rows
    · rw [Attn.allocDecode, failed] at ran
      cases ran
      exact .inl ⟨rfl, h.regroup same, short⟩
    · rw [Attn.allocDecode, served] at ran
      cases ran
      refine .inr ⟨_, ?_, (h.regroup same).takePages _, ?_, enough⟩
      · rw [extendRows_take c.pageSize_pos]
        rfl
      · rw [length_take, min_eq_left room, getNumNewPages_decode c.pageSize_pos many]

/-- A token allocator hands out single-slot pages. -/
lemma Live.alloc_one {n : Nat} (one : c.pageSize = 1) (h : Live c a live)
    (ran : a.alloc c n = (a', out)) :
    (out = none ∧ Live c a' live) ∨
      ∃ new, out = some new ∧ Granted c a' live new ∧ new.length = n := by
  cases a with
  | paged a =>
    obtain ⟨-, many, -⟩ := h.paged
    omega
  | token a =>
    obtain ⟨held, -, inv, rfl⟩ := h.token
    obtain ⟨b, perm, group, failed | ⟨room, served⟩⟩ := Token.alloc_cases c.needSort a n
    · rw [Attn.alloc, failed] at ran
      cases ran
      refine .inl ⟨rfl, held, .token one (inv.regroup perm group), ?_⟩
      simp only [queued, Token.queued, group]
    · rw [Attn.alloc, served] at ran
      cases ran
      have inv' := inv.regroup perm group
      have split : Lib.Splits (stock c)
          (b.freePages.take n ++ (b.freePages.drop n ++ b.releasePages)) held := by
        rw [← append_assoc, take_append_drop]
        exact inv'.split
      have queue : b.queued = a.queued := by simp only [Token.queued, group]
      refine .inr ⟨_, rfl, ?_, by rw [length_take, min_eq_left room]⟩
      exact granted_of_split (a := .token a) (.token one (inv'.takePages n)) queue split
        fun page mem => .inr (inv.queued_held page mem)

/-! ### Giving pages back -/

lemma sdiff_append (s : Finset Nat) (xs ys : List Nat) :
    s \ (xs ++ ys).toFinset = (s \ xs.toFinset) \ ys.toFinset := by
  rw [toFinset_append]
  exact sdiff_sdiff_left.symm

lemma queued_closed {a : Paged} (inv : PagedOwned.Inv c ⟨a, held⟩) (closed : a.freeGroup = none) :
    (Attn.paged a).queued c = [] := by
  have noIds : a.freePageIdsGroup = [] := inv.closed closed
  simp [queued, queuedSlotPages, queuedPageIds, closed, noIds, pagesOf]

/-- Outside a group a free is carried out at once, inside one it is queued. -/
lemma Live.of_giveBack {a a' : Paged} (many : 1 < c.pageSize)
    (before : PagedOwned.Inv c ⟨a, held⟩)
    (after : PagedOwned.Inv c (PagedOwned.giveBack ⟨a, held⟩ a' pages))
    (closed : a.freeGroup = none → a'.freeGroup = none) (opened : a.freeGroup ≠ none →
      ∀ page, page ∈ (Attn.paged a').queued c ↔ page ∈ (Attn.paged a).queued c ++ pages) :
    Live c (.paged a') ((held \ ((Attn.paged a).queued c).toFinset) \ pages.toFinset) := by
  refine ⟨_, .paged many after, ?_⟩
  cases group : a.freeGroup with
  | none =>
    rw [queued_closed before group, queued_closed after (closed group)]
    simp
  | some waiting =>
    have queue : ((Attn.paged a').queued c).toFinset
        = ((Attn.paged a).queued c ++ pages).toFinset := by
      ext page
      simpa using opened (by simp [group]) page
    rw [queue, sdiff_append]
    simp

/-- A paged `free` of live pages. -/
lemma Live.free_paged {a : Paged} (h : Live c (.paged a) live)
    (owned : ∀ page ∈ pagesOf c.pageSize freeIndex, page = 0 ∨ page ∈ live) :
    Live c (.paged (a.free c freeIndex)) (live \ (pagesOf c.pageSize freeIndex).toFinset) := by
  obtain ⟨held, many, inv, rfl⟩ := h.paged
  have allowed : PagedOwned.Allowed c ⟨a, held⟩ (.free freeIndex) := by
    intro page mem
    apply (owned page mem).imp_right
    intro out
    rw [Finset.mem_sdiff, mem_toFinset, queued, mem_append, not_or] at out
    exact ⟨out.1, out.2.2⟩
  apply Live.of_giveBack many inv (inv.free allowed)
  · intro closed
    unfold Paged.free
    split
    · exact closed
    · simp [closed]
  · intro opened page
    unfold Paged.free
    split
    · rename_i empty
      simp [isEmpty_iff.mp empty, pagesOf]
    · cases group : a.freeGroup with
      | none => exact absurd group opened
      | some waiting =>
        simp only [queued, queuedSlotPages, group, pagesOf,
          Option.getD_some, flatten_append, flatten_singleton, map_append,
          mem_append]
        tauto

lemma Live.freePageIds_paged {a : Paged} (h : Live c (.paged a) live) (nodup : pages.Nodup)
    (owned : ∀ page ∈ pages, page ∈ live) :
    Live c (.paged (a.freePageIds c pages)) (live \ pages.toFinset) := by
  obtain ⟨held, many, inv, rfl⟩ := h.paged
  have returnable : PagedOwned.Returnable c ⟨a, held⟩ pages := by
    refine ⟨nodup, fun page mem => ?_⟩
    have out := owned page mem
    rwa [Finset.mem_sdiff, mem_toFinset, queued, mem_append, not_or] at out
  apply Live.of_giveBack many inv (inv.freePageIds returnable)
  · intro closed
    unfold Paged.freePageIds
    split
    · exact closed
    · simp [closed]
  · intro opened page
    unfold Paged.freePageIds
    split
    · rename_i empty
      simp [isEmpty_iff.mp empty]
    · cases group : a.freeGroup with
      | none => exact absurd group opened
      | some waiting =>
        simp only [queued, queuedSlotPages, queuedPageIds, group,
          flatten_append, flatten_singleton, mem_append, or_assoc]

/-- A token `free` of distinct live slots. -/
lemma Live.free_token {a : Token} (h : Live c (.token a) live)
    (nodup : slots.Nodup) (owned : ∀ slot ∈ slots, slot ∈ live) :
    Live c (.token (a.free c.needSort slots)) (live \ slots.toFinset) := by
  obtain ⟨held, one, inv, rfl⟩ := h.token
  have out : ∀ slot ∈ slots, slot ∈ held ∧ slot ∉ a.queued := by
    intro slot mem
    have := owned slot mem
    rwa [Finset.mem_sdiff, mem_toFinset] at this
  cases group : a.freeGroup with
  | none =>
    have freed := inv.free_closed c.needSort group nodup fun slot mem => (out slot mem).1
    refine ⟨_, .token one freed, ?_⟩
    simp [queued, Token.queued, group, Token.free_freeGroup]
  | some waiting =>
    obtain ⟨freed, queue⟩ := inv.free_open c.needSort (by simp [group]) nodup out
    refine ⟨_, .token one freed, ?_⟩
    change _ = held \ (Token.queued _).toFinset
    rw [queue, sdiff_append]

lemma Live.freePageIds (h : Live c a live) (nodup : pages.Nodup)
    (owned : ∀ page ∈ pages, page ∈ live) :
    Live c (a.freePageIds c pages) (live \ pages.toFinset) := by
  cases a with
  | token a => exact h.free_token nodup owned
  | paged a => exact h.freePageIds_paged nodup owned

lemma pagesOf_one (slots : List Nat) : pagesOf 1 slots = slots := by
  simp [pagesOf]

/-- What callers of `free` promise: a token allocator wants each slot once, a paged one
sorts out duplicates and the dummy page itself. -/
def FreeOk (c : PagedConfig) (live : Finset Nat) (freeIndex : List Nat) : Prop :=
  if c.pageSize = 1 then freeIndex.Nodup ∧ ∀ slot ∈ freeIndex, slot ∈ live
  else ∀ page ∈ pagesOf c.pageSize freeIndex, page = 0 ∨ page ∈ live

instance (live : Finset Nat) (freeIndex : List Nat) : Decidable (FreeOk c live freeIndex) :=
  inferInstanceAs (Decidable (ite _ _ _))

lemma Live.free (h : Live c a live) (ok : FreeOk c live freeIndex) :
    Live c (a.free c freeIndex) (live \ (pagesOf c.pageSize freeIndex).toFinset) := by
  cases a with
  | token a =>
    obtain ⟨held, one, -⟩ := h.token
    rw [FreeOk, if_pos one] at ok
    rw [one, pagesOf_one]
    exact h.free_token ok.1 ok.2
  | paged a =>
    obtain ⟨held, many, -⟩ := h.paged
    rw [FreeOk, if_neg (by omega)] at ok
    exact h.free_paged ok

/-- A run of single-slot pages is its own list of pages. -/
lemma isRun_one (one : c.pageSize = 1) (run : PagedOwned.IsRun c freeIndex pages) :
    freeIndex = pages := by
  have slots := run.pagesOf_representatives
  rw [one, pagesOf_one] at slots
  rw [← slots]
  apply ext_getElem
  · simp [Paged.representatives, pagesFor]
  · intro k lt _
    simp [Paged.representatives, getElem?_eq_getElem lt]

lemma Live.freeSegment {startPos : Nat} (h : Live c a live)
    (run : PagedOwned.IsRun c freeIndex pages) (nodup : pages.Nodup)
    (owned : ∀ page ∈ pages, page ∈ live) (ran : a.freeSegment c freeIndex startPos = some a') :
    Live c a' (live \ pages.toFinset) := by
  cases a with
  | token a =>
    obtain ⟨held, one, -⟩ := h.token
    cases ran
    rw [isRun_one one run]
    exact h.free_token nodup owned
  | paged a =>
    simp only [Attn.freeSegment, Paged.freeSegment] at ran
    split at ran
    · rename_i empty
      cases ran
      have noPages : pages = [] := by
        rw [← run.pagesOf_representatives, isEmpty_iff.mp empty]
        simp [Paged.representatives, pagesFor, pagesOf, c.pageSize_pos]
      simpa [noPages] using h
    · split at ran
      · cases ran
        rw [run.pagesOf_representatives]
        exact h.freePageIds_paged nodup owned
      · cases ran

lemma Live.freeGroupBegin (h : Live c a live) (ran : a.freeGroupBegin = some a') :
    Live c a' live := by
  cases a with
  | token a =>
    obtain ⟨held, one, inv, rfl⟩ := h.token
    simp only [Attn.freeGroupBegin, Option.map_eq_some_iff] at ran
    obtain ⟨b, began, rfl⟩ := ran
    obtain ⟨inv', queue⟩ := inv.freeGroupBegin began
    refine ⟨held, .token one inv', ?_⟩
    have closed : a.queued = [] := by
      unfold Token.freeGroupBegin at began
      cases group : a.freeGroup with
      | none => simp [Token.queued, group]
      | some waiting => simp [group] at began
    simp [queued, queue, closed]
  | paged a =>
    obtain ⟨held, many, inv, rfl⟩ := h.paged
    simp only [Attn.freeGroupBegin, Option.map_eq_some_iff] at ran
    obtain ⟨b, began, rfl⟩ := ran
    have inv' : PagedOwned.Inv c ⟨b, held⟩ :=
      inv.freeGroupBegin (by simp [step, began])
    refine ⟨held, .paged many inv', ?_⟩
    unfold Paged.freeGroupBegin at began
    cases group : a.freeGroup with
    | none =>
      rw [queued_closed inv group]
      rw [group] at began
      cases began
      simp [queued, queuedSlotPages, queuedPageIds, pagesOf]
    | some waiting => simp [group] at began

lemma Live.freeGroupEnd (h : Live c a live) : Live c (a.freeGroupEnd c) live := by
  cases a with
  | token a =>
    obtain ⟨held, one, inv, rfl⟩ := h.token
    obtain ⟨inv', queue⟩ := inv.freeGroupEnd c.needSort
    exact ⟨_, .token one inv', by simp [Attn.freeGroupEnd, queued, queue]⟩
  | paged a =>
    obtain ⟨held, many, inv, rfl⟩ := h.paged
    have inv' : PagedOwned.Inv c ⟨a.freeGroupEnd c,
        held \ ((Attn.paged a).queued c).toFinset⟩ := inv.freeGroupEnd
    refine ⟨_, .paged many inv', ?_⟩
    have closed : (a.freeGroupEnd c).freeGroup = none := by
      unfold Paged.freeGroupEnd
      simp only
      split
      · exact (freeGroupEndSlots_groups a).2
      · simp [freeGroupEndSlots_groups]
    simp only [Attn.freeGroupEnd]
    rw [queued_closed inv' closed]
    simp

end Attn

end Sglang.Alloc
