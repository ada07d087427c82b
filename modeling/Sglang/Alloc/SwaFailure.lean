/-
# Failed calls of `SWATokenToKVPoolAllocator`

A call that returns nothing should leave both pools and the mapping as they were, since its
caller evicts and tries again. `alloc`, `alloc_extend` and `alloc_extend_swa_tail` ask both
pools for room before they touch either. `alloc_decode` does not: it takes pages from one pool
and drops them when the other has none.

* `Swa.failed_call_keeps` — nothing is lost by the first three, and by a failed decode exactly when
  neither pool has the pages.
* `SwaOwned.decode_drops_full_page` — what a decode loses otherwise.
-/

import Sglang.Alloc.SwaInStep

namespace Sglang.Alloc

open List Option Paged

variable {c : PagedConfig} {rows : List DecodeRow} {n tail : Nat}

/-- A decode fails when free and staged pages together are too few, and then keeps them; else it
takes as many as it needs. -/
lemma Attn.allocDecode_takes {a a' : Attn} {out : Option (List Nat)} (two : 1 < c.pageSize)
    (ran : a.allocDecode c rows = some (a', out)) :
    (out = none ∧ a.getAllFreePages.length < getNumNewPagesDecode c.pageSize rows ∧
        a.getAllFreePages.Perm a'.getAllFreePages) ∨
      ∃ slots, out = some slots ∧
        a'.getAllFreePages.length + getNumNewPagesDecode c.pageSize rows =
          a.getAllFreePages.length := by
  cases a with
  | token a => cases ran
  | paged a =>
    obtain ⟨b, same, ⟨few, failed⟩ | ⟨-, room, served⟩⟩ := PagedOwned.allocDecode_cases two a rows
    · rw [Attn.allocDecode, failed] at ran
      cases ran
      exact .inl ⟨rfl, few, same.perm⟩
    · rw [Attn.allocDecode, served] at ran
      cases ran
      refine .inr ⟨_, rfl, ?_⟩
      rw [getNumNewPages_decode c.pageSize_pos two] at room ⊢
      simp only [Attn.getAllFreePages, same.perm.length_eq]
      simp only [Paged.getAllFreePages, takePages, length_append, length_drop]
      omega

lemma Attn.allocExtend_keeps {a a' : Attn} {rows : List ExtendRow} {count : Option Nat}
    (failed : a.allocExtend c rows n count = some (a', none)) :
    a.getAllFreePages.Perm a'.getAllFreePages := by
  cases a with
  | token a => cases failed
  | paged a =>
    obtain ⟨⟨b, out⟩, ran, same⟩ := map_eq_some_iff.mp failed
    cases same
    unfold Paged.allocExtend at ran
    dsimp only at ran
    split_ifs at ran
    · cases ran
      exact (PagedOwned.mergeIfShort_regrouped a _).perm
    · obtain ⟨lanes, -, same⟩ := map_eq_some_iff.mp ran
      cases (Prod.mk.inj same).2

namespace Swa

variable {c : SwaConfig} {s s' : Swa}

/-- The free pages of both pools and the mapping are what they were. -/
structure Keeps (s s' : Swa) : Prop where
  full : s.full.getAllFreePages.Perm s'.full.getAllFreePages
  swa : s.swa.getAllFreePages.Perm s'.swa.getAllFreePages
  mapping : s'.mapping = s.mapping

lemma Keeps.refl (s : Swa) : s.Keeps s := ⟨.refl _, .refl _, rfl⟩

lemma Keeps.ring {full : Attn} (keeps : s.full.getAllFreePages.Perm full.getAllFreePages) :
    s.Keeps { s with full := full } := ⟨keeps, .refl _, rfl⟩

/-- Both pools have the pages a decode needs, or neither has; a ring has no window pages. -/
def DecodeAlike (c : SwaConfig) (s : Swa) (rows : List DecodeRow) : Prop :=
  c.swaReqRing = true ∨ (getNumNewPagesDecode c.pageSize rows ≤ s.full.getAllFreePages.length ↔
      getNumNewPagesDecode c.pageSize rows ≤ s.swa.getAllFreePages.length)

/-- What is mapped to an answer is not without one. -/
lemma answered {β : Type} {found : Option β} {f : β → Swa} {slots : List Nat} :
    (found.map fun x => (f x, some slots)) ≠ some (s', none) := by
  cases found <;> simp

lemma alloc_keeps (failed : s.alloc c n = some (s', none)) : s.Keeps s' := by
  unfold alloc at failed
  split_ifs at failed
  · cases failed
    exact .refl s
  · cases failed
    exact .refl s
  · split at failed
    · exact absurd failed answered
    · cases failed

lemma allocExtend_keeps {rows : List ExtendRow}
    (failed : s.allocExtend c rows n = some (s', none)) : s.Keeps s' := by
  unfold allocExtend at failed
  dsimp only at failed
  split_ifs at failed with many room ring
  · cases failed
    exact .refl s
  · obtain ⟨⟨full, out⟩, ran, same⟩ := map_eq_some_iff.mp failed
    cases same
    exact .ring (Attn.allocExtend_keeps ran)
  · split at failed
    · exact absurd failed answered
    · cases failed

lemma allocExtendSwaTail_keeps {row : ExtendRow}
    (failed : s.allocExtendSwaTail c row n tail = some (s', none)) : s.Keeps s' := by
  unfold allocExtendSwaTail at failed
  by_cases fits : 1 < c.pageSize ∧ tail ≤ n
  · rw [if_pos fits] at failed
    by_cases short : (!s.newPagesAvailable c (getNumNewPages c.pageSize [row])
        (pagesFor c.pageSize tail)) = true
    · rw [if_pos short] at failed
      cases failed
      exact .refl s
    rw [if_neg short] at failed
    cases ran : s.full.allocExtend c.full [row] n (some (getNumNewPages c.pageSize [row])) with
    | none =>
      rw [ran] at failed
      cases failed
    | some result =>
      obtain ⟨full, out⟩ := result
      rw [ran] at failed
      by_cases ring : c.swaReqRing = true
      · simp only [if_pos ring] at failed
        cases failed
        exact .ring (Attn.allocExtend_keeps ran)
      · -- without a ring a missing answer is a failed assertion, not a returned one
        simp only [if_neg ring] at failed
        cases out with
        | none => cases failed
        | some fullOut =>
          dsimp only at failed
          split at failed
          · cases (Prod.mk.inj (some.inj failed)).2
          · split at failed
            · exact absurd failed answered
            · cases failed
  · rw [if_neg fits] at failed
    cases failed

/-- When a decode fails, it keeps the pages of both pools exactly if none had what it needs. -/
lemma allocDecode_keeps_iff (failed : s.allocDecode c rows = some (s', none)) :
    s.Keeps s' ↔ DecodeAlike c s rows := by
  unfold allocDecode at failed
  split_ifs at failed with many ring
  · obtain ⟨⟨full, out⟩, ran, same⟩ := map_eq_some_iff.mp failed
    cases same
    rcases Attn.allocDecode_takes many ran with ⟨-, -, kept⟩ | ⟨slots, got, -⟩
    · exact iff_of_true (.ring kept) (.inl ring)
    · cases got
  have needs : getNumNewPagesDecode c.pageSize (rows.map s.swaDecodeRow) =
      getNumNewPagesDecode c.pageSize rows := by
    simp only [getNumNewPagesDecode, countP_map]
    rfl
  have alike : DecodeAlike c s rows ↔ _ := or_iff_right ring
  rw [alike]
  cases ran : s.full.allocDecode c.full rows with
  | none =>
    rw [ran] at failed
    cases failed
  | some result =>
    cases ran' : s.swa.allocDecode c.swa (rows.map s.swaDecodeRow) with
    | none =>
      rw [ran, ran'] at failed
      rcases result with ⟨full, _ | slots⟩ <;> cases failed
    | some result' =>
      obtain ⟨full, out⟩ := result
      obtain ⟨swa, out'⟩ := result'
      have takes := Attn.allocDecode_takes many ran
      have takes' := Attn.allocDecode_takes many ran'
      have size : c.full.pageSize = c.pageSize := rfl
      have size' : c.swa.pageSize = c.pageSize := rfl
      rw [size] at takes
      rw [size', needs] at takes'
      rw [ran, ran'] at failed
      rcases takes with ⟨rfl, few, kept⟩ | ⟨slots, rfl, took⟩ <;>
        rcases takes' with ⟨rfl, few', kept'⟩ | ⟨slots', rfl, took'⟩
      · cases failed
        exact iff_of_true ⟨kept, kept', rfl⟩ (by omega)
      · cases failed
        refine iff_of_false (fun keeps => ?_) (by omega)
        have same := keeps.swa.length_eq
        dsimp only at same
        omega
      · cases failed
        refine iff_of_false (fun keeps => ?_) (by omega)
        have same := keeps.full.length_eq
        dsimp only at same
        omega
      · exact absurd failed answered

/-- **A failed call loses nothing**, in any state and for any arguments, except exactly the decodes
asked of pools of which only one has the pages. -/
theorem failed_call_keeps (c : SwaConfig) (s s' : Swa) :
    (∀ n, s.alloc c n = some (s', none) → s.Keeps s') ∧
    (∀ rows n, s.allocExtend c rows n = some (s', none) → s.Keeps s') ∧
    (∀ row n tail, s.allocExtendSwaTail c row n tail = some (s', none) → s.Keeps s') ∧
    (∀ rows, s.allocDecode c rows = some (s', none) → (s.Keeps s' ↔ DecodeAlike c s rows)) :=
  ⟨fun _ => alloc_keeps, fun _ _ => allocExtend_keeps, fun _ _ _ => allocExtendSwaTail_keeps,
    fun _ => allocDecode_keeps_iff⟩

/-- One page in each pool: a request fills it, and its next decode fails in both. -/
theorem failed_call_keeps_full_pools : ∃ s s' : Swa,
    (∃ out, (clear ⟨2, 2, 2, false, false, by decide, by decide⟩).allocExtend
      ⟨2, 2, 2, false, false, by decide, by decide⟩ [⟨0, 2, -1, by decide⟩] 2 = some (s, some out)) ∧
      s.allocDecode ⟨2, 2, 2, false, false, by decide, by decide⟩ [⟨3, 3, by decide⟩] =
        some (s', none) ∧ s.Keeps s' :=
  ⟨_, _, ⟨_, rfl⟩, rfl, ((failed_call_keeps ⟨2, 2, 2, false, false, by decide, by decide⟩ _ _).2.2.2
    [⟨3, 3, by decide⟩] rfl).mpr (.inr (by decide))⟩

end Swa

/-- **`alloc_decode` drops full pages.** Two pages in the full pool, one in the window pool. A
request fills its page and decodes: the full pool gives page 2, the window pool has none, and
the call returns nothing, with page 2 neither free nor handed out. -/
theorem SwaOwned.decode_drops_full_page : ∃ (s : SwaOwned) (pool' : Swa),
    (machine ⟨4, 2, 2, false, false, by decide, by decide⟩).Reachable s ∧
      s.Allowed ⟨4, 2, 2, false, false, by decide, by decide⟩ (.allocDecode [⟨3, 3, by decide⟩]) ∧
      s.pool.allocDecode ⟨4, 2, 2, false, false, by decide, by decide⟩ [⟨3, 3, by decide⟩] =
        some (pool', none) ∧
      s.pool.full.getAllFreePages = [2] ∧ pool'.full.getAllFreePages = [] := by
  refine ⟨_, _, .step (.start rfl) (a := .allocExtend [⟨0, 2, -1, by decide⟩] 2)
    ⟨rfl, by decide⟩ rfl, ?_, rfl, rfl, rfl⟩
  intro r mem
  rw [List.mem_singleton.mp mem]
  decide

end Sglang.Alloc
