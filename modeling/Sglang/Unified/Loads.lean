/-
# Bound pages, reservations and host loads

* `Pool.reservedPages` — the pages `alloc_physical` holds without a virtual page; in a good
  pool they are the `R` of `Pool.Inv`.
* `Pool.Effect` — what one call does to the bound virtual pages and to the reservations.
* `Inv.bindReserved`, `Inv.cancelReserved`, `Inv.setLoadDone` — what becomes of a reservation.
-/

import Sglang.Unified.MakeRoom

namespace Sglang.Unified

open List
open Option (ne_none_iff_exists' some.inj some_ne_none)
open Sglang.Alloc (pagesOf expandPages Paged.representatives)
open Sglang.Lib (scatter unpair bindings)

/-- The representatives of whole pages are the pages. -/
lemma pagesOf_representatives_expandPages {ps : Nat} (pos : 0 < ps) (pages : List Nat) :
    pagesOf ps (Paged.representatives ps (expandPages ps pages)) = pages := by
  have first : ∀ k, (expandPages ps pages)[k * ps]? = pages[k]?.map (· * ps) :=
    (Alloc.getElem?_expandPages pos pages)
  apply ext_getElem?
  intro k
  simp only [pagesOf, Paged.representatives, Alloc.length_expandPages, Alloc.pagesFor_mul pos, getElem?_map]
  by_cases lt : k < pages.length
  · simp [getElem?_range lt, first, getElem?_eq_getElem lt, pos]
  · rw [getElem?_eq_none (by simpa using lt), getElem?_eq_none (by omega)]
    rfl

/-- The pages of whole pages, once per slot. -/
lemma pagesOf_expandPages {ps : Nat} (pos : 0 < ps) (pages : List Nat) :
    pagesOf ps (expandPages ps pages) = pages.flatMap (replicate ps) := by
  have one : ∀ page, (Alloc.expandPage ps page).map (· / ps) = replicate ps page := by
    intro page
    refine eq_replicate_iff.mpr ⟨by simp, fun x mem => ?_⟩
    simp only [Alloc.expandPage, List.mem_map, mem_range] at mem
    obtain ⟨-, ⟨i, lt, rfl⟩, rfl⟩ := mem
    rw [mul_comm, Nat.mul_add_div pos, Nat.div_eq_of_lt lt, add_zero]
  simp only [pagesOf, expandPages, map_flatMap, one]

lemma bindings_flatMap_replicate (n : Nat) {keys values : List Nat} (length : keys.length = values.length) :
    bindings (keys.flatMap (replicate n)) (values.flatMap (replicate n))
      = (bindings keys values).flatMap (replicate n) := by
  induction keys generalizing values with
  | nil => rfl
  | cons key keys ih =>
    cases values with
    | nil => simp at length
    | cons value values =>
      have rest := ih (Nat.succ_injective length)
      unfold bindings at rest ⊢
      rw [flatMap_cons, flatMap_cons, map_append, zip_append (by simp), rest]
      simp

namespace Pool

variable {γ : Type} {c : SubPool} {s s' t : Pool γ}

/-- Binding whole pages slot by slot binds the pages. -/
lemma bind_expandPages {ps : Nat} (pos : 0 < ps) (s : Pool γ) {vPages pages : List Nat}
    (length : vPages.length = pages.length) :
    s.bind (pagesOf ps (expandPages ps vPages)) (pagesOf ps (expandPages ps pages)) = s.bind vPages pages := by
  simp only [bind, pagesOf_expandPages pos, bindings_flatMap_replicate ps length,
    bindings_flatMap_replicate ps length.symm, Lib.scatter_flatMap_replicate pos]

variable {vPages : List Nat}

/-! ### Tables that agree -/

variable {written written' : Nat → Option γ} {B B' R : Finset Nat}

lemma Inv.named_iff (inv : Inv c s written B R) {v : Nat} : Named s v ↔ s.v2p v ≠ none := by
  refine ⟨?_, .inl⟩
  rintro (bound | ⟨p, entry⟩)
  · exact bound
  · rw [(inv.mapped.linked.inverse v p).mpr entry]
    exact some_ne_none p

/-- Between good states nothing new is bound. -/
lemma Unbinds.unbound (unbinds : Unbinds s s' vPages) (inv : Inv c s written B R) {v : Nat}
    (unbound : s.v2p v = none) : s'.v2p v = none := by
  by_contra bound
  exact inv.named_iff.mp (unbinds.fewer v (.inl bound)) unbound

/-- Moves keep every virtual page as it was. -/
lemma Unbinds.unbound_iff (unbinds : Unbinds s s' []) (inv : Inv c s written B R) (v : Nat) :
    s'.v2p v = none ↔ s.v2p v = none := by
  refine ⟨fun unbound => ?_, unbinds.unbound inv⟩
  by_contra bound
  exact unbinds.others v not_mem_nil bound unbound

/-! ### Reservations -/

variable (c) in
/-- The pages of the band that are neither free nor behind a virtual page. -/
def reservedPages (s : Pool γ) : Finset Nat :=
  (s.band c).filter fun p => s.p2v p = none ∧ p ∉ s.freePhysPages ++ s.pendingReusePages

lemma Inv.reserved_eq (inv : Inv c s written B R) : s.reservedPages c = R := by
  ext p
  have unnamed : p ∈ B ↔ p ≠ 0 ∧ s.p2v p ≠ none := by
    have entry := inv.mapped.linked.range p
    rw [← ne_none_iff_exists'] at entry
    by_cases zero : p = 0
    · subst zero
      simp [inv.mapped.real]
    · simpa [zero] using entry
  have cover := inv.placed.split.cover p
  have free := inv.placed.split.disjoint p
  have apart : p ∈ B → p ∉ R := fun mem => Finset.disjoint_left.mp inv.apart mem
  have positive : p ∈ s.band c → p ≠ 0 := by
    rintro inBand rfl
    have low := inv.placed.low_ge
    have := c.minPageIndex_pos
    rw [band, Finset.mem_Ico] at inBand
    omega
  rw [Finset.mem_union] at cover free
  rw [reservedPages, Finset.mem_filter]
  tauto

/-- The reservations are a matter of the state. -/
lemma Inv.reserved_same (inv : Inv c s written B R) (inv' : Inv c s' written' B' R) :
    s'.reservedPages c = s.reservedPages c := by
  rw [inv.reserved_eq, inv'.reserved_eq]

/-! ### Effects -/

/-- Only `freed` may be unbound and, in a pool that does not own its ids, only `bound` may
be bound; the reservations stay. -/
structure Effect (c : SubPool) (s s' : Pool γ) (freed bound : List Nat) : Prop where
  reserved : s'.reservedPages c = s.reservedPages c
  kept : ∀ v, v ∉ freed → s.v2p v ≠ none → s'.v2p v ≠ none
  fresh : c.isIdOwner = false → ∀ v, v ∉ bound → s.v2p v = none → s'.v2p v = none

variable {freed bound : List Nat}

lemma Effect.refl (s : Pool γ) : Effect c s s freed bound :=
  ⟨rfl, fun _ _ bound => bound, fun _ _ _ unbound => unbound⟩

section

variable (inv : Inv c s written B R) (inv' : Inv c s' written B' R)
include inv inv'

/-- A call that frees and moves. -/
lemma Effect.of_unbinds (unbinds : Unbinds s s' freed) : Effect c s s' freed bound :=
  ⟨inv.reserved_same inv', unbinds.others, fun _ _ _ => unbinds.unbound inv⟩

/-- A call that binds `vPages`. -/
lemma Effect.of_binds (others : ∀ v, v ∉ vPages → s'.v2p v = s.v2p v)
    (new : ∀ v ∈ vPages, s'.v2p v ≠ none) (named : c.isIdOwner = false → vPages ⊆ bound) :
    Effect c s s' freed bound := by
  refine ⟨inv.reserved_same inv', fun v _ held => ?_, fun foreign v notBound unbound => ?_⟩
  · by_cases fresh : v ∈ vPages
    · exact new v fresh
    · rwa [others v fresh]
  · exact (others v fun mem => notBound (named foreign mem)).trans unbound

end

lemma Effect.trans (one : Effect c s t freed bound) (two : Effect c t s' freed bound) :
    Effect c s s' freed bound :=
  ⟨two.reserved.trans one.reserved, fun v notFreed held => two.kept v notFreed (one.kept v notFreed held),
    fun foreign v notBound unbound => two.fresh foreign v notBound (one.fresh foreign v notBound unbound)⟩

variable {pages : List Nat}

variable (inv : Inv c s written B R)
include inv

/-- **Binding reserved pages**, in a pool that does not own the ids. -/
theorem Inv.bindReserved (foreign : c.isIdOwner = false) (bindable : Bindable s written vPages)
    (length : pages.length = vPages.length) (nodup : pages.Nodup) (held : ∀ p ∈ pages, p ∈ R) :
    Inv c (s.bind vPages pages) written (B ∪ pages.toFinset) (R \ pages.toFinset) := by
  have after : IdsAfter c s vPages s.freeVirtualIds :=
    ⟨inv.mapped.ids_nodup, fun owner => absurd owner (by simp [foreign]),
      fun owner => absurd owner (by simp [foreign])⟩
  have fresh : ∀ p ∈ pages, p ≠ 0 ∧ p ∉ B := fun p mem =>
    ⟨(inv.placed.pos_of_mem (Finset.mem_union_right B (held p mem))).ne',
      Finset.disjoint_right.mp inv.apart (held p mem)⟩
  have sub : pages.toFinset ⊆ R := fun p mem => held p (mem_toFinset.mp mem)
  have all : B ∪ pages.toFinset ∪ R \ pages.toFinset = B ∪ R := by
    rw [Finset.union_assoc, Finset.union_sdiff_of_subset sub]
  refine ⟨mapped_bind after fresh, ?_, ?_, ?_⟩
  · rw [all]
    exact inv.placed.congr
  · rw [Finset.disjoint_union_left]
    exact ⟨inv.apart.mono_right Finset.sdiff_subset, Finset.disjoint_sdiff⟩
  · exact (Finset.card_le_card Finset.sdiff_subset).trans inv.reserved
where
  mapped_bind (after : IdsAfter c s vPages s.freeVirtualIds) (fresh : ∀ p ∈ pages, p ≠ 0 ∧ p ∉ B) :
      Mapped c (s.bind vPages pages) (B ∪ pages.toFinset) written :=
    inv.mapped.bindPages bindable length nodup fresh after fun _ _ => rfl

/-- The load is queued: its pages are bound and may move. -/
theorem Inv.setLoadDone (unreserved : s.reservedPages c = ∅) : Inv c s.setLoadDone written B R := by
  refine ⟨inv.mapped.pending 0, inv.placed.congr, inv.apart, ?_⟩
  rw [← inv.reserved_eq, unreserved]
  exact Nat.zero_le _

/-- Clearing the entries of reserved pages does nothing. -/
lemma Inv.unpair_reserved (held : ∀ p ∈ pages, p ∈ R) :
    unpair s.v2p (pages.filterMap s.p2v) = s.v2p ∧ unpair s.p2v pages = s.p2v := by
  have unnamed : ∀ p ∈ pages, s.p2v p = none := fun p mem => by
    have reserved := held p mem
    rw [← inv.reserved_eq, reservedPages, Finset.mem_filter] at reserved
    exact reserved.2.1
  have nothing : pages.filterMap s.p2v = [] := filterMap_eq_nil_iff.mpr unnamed
  refine ⟨?_, funext fun p => ?_⟩
  · rw [nothing]
    exact funext fun v => by simp [unpair]
  · by_cases mem : p ∈ pages
    · rw [unpair, if_pos mem, unnamed p mem]
    · rw [unpair, if_neg mem]

variable (holes : c.lazyCompaction = true ∨ c.growDirection = .float)
  (nodup : pages.Nodup)
  (held : ∀ p ∈ pages, p ∈ R)
include holes nodup held

/-- **Giving reserved pages back**, in a pool that does not compact on every free. -/
lemma Inv.freeReserved
    (ran : ({ s with pendingHicacheLoadPages := s.pendingHicacheLoadPages - pages.length } :
      Pool γ).freePhysical c pages = some s') :
    Inv c s' written B (R \ pages.toFinset) ∧ Shrunk c s s' ∧ s'.v2p = s.v2p := by
  have sub : pages.toFinset ⊆ R := fun p mem => held p (mem_toFinset.mp mem)
  have rest : (B ∪ R) \ pages.toFinset = B ∪ R \ pages.toFinset := by
    rw [Finset.union_sdiff_distrib, Finset.sdiff_eq_self_of_disjoint (inv.apart.mono_right sub)]
  have apart : Disjoint B (R \ pages.toFinset) := inv.apart.mono_right Finset.sdiff_subset
  have fewer : (R \ pages.toFinset).card ≤ s.pendingHicacheLoadPages - pages.length := by
    rw [Finset.card_sdiff_of_subset sub, toFinset_card_of_nodup nodup]
    exact Nat.sub_le_sub_right inv.reserved _
  have mapped := inv.mapped.pending (s.pendingHicacheLoadPages - pages.length)
  have inHeld : ∀ p ∈ pages, p ∈ B ∪ R := fun p mem => Finset.mem_union_right B (held p mem)
  obtain ⟨sameV, sameP⟩ := inv.unpair_reserved held
  unfold freePhysical at ran
  rw [sameV, sameP] at ran
  by_cases float : c.growDirection = .float
  · rw [float] at ran
    cases ran
    have split := inv.placed.release_split nodup inHeld
    rw [rest] at split
    have placed := placed_parkIfEmpty (s := { s with
        freePhysPages := s.freePhysPages ++ pages, holesDirty := true
        pendingHicacheLoadPages := s.pendingHicacheLoadPages - pages.length })
      float split inv.placed.low_ge inv.placed.ordered inv.placed.high_le
      (inv.placed.settled (c.float_eager float))
    refine ⟨⟨.congr ?_ (parkIfEmpty_tables float), placed, apart, ?_⟩, ?_,
      (parkIfEmpty_tables float).v2p⟩
    · exact mapped.congr
    · rw [(parkIfEmpty_tables float).pendingHicacheLoadPages]
      exact fewer
    · intro isOpaque
      obtain ⟨still, low, high⟩ := parkIfEmpty_shrunk float isOpaque
      refine ⟨?_, low, high⟩
      simp only [isFrontierTransparent, float, livePages, spanPages, holePages, length_append,
        beq_eq_false_iff_ne] at still ⊢
      omega
  · have lazy := holes.resolve_right float
    have released := inv.placed.releaseLazy lazy nodup inHeld
    rw [rest] at released
    have eq : s' = { s with
        pendingHicacheLoadPages := s.pendingHicacheLoadPages - pages.length
        freePhysPages := s.freePhysPages ++ pages
        livePageCount := s.livePageCount - pages.length } := by
      cases grow : c.growDirection with
      | float => exact absurd grow float
      | up | down =>
        simp only [lazy] at ran
        exact (some.inj ran).symm
    subst eq
    exact ⟨⟨mapped.congr,
      released.congr, apart, fewer⟩,
      fun _ => ⟨isOpaque_of_ends float, le_rfl, le_rfl⟩, rfl⟩

/-- **`cancel_physical_reservation`.** -/
theorem Inv.cancelReserved
    (ran : s.cancelPhysicalReservation c (expandPages c.pageSize pages) = some s') :
    Inv c s' written B (R \ pages.toFinset) ∧ Shrunk c s s' ∧ s'.v2p = s.v2p := by
  have pos := c.pageSize_pos
  have length := Alloc.length_expandPages c.pageSize pages
  unfold cancelPhysicalReservation at ran
  dsimp only at ran
  rw [length, Nat.mul_div_cancel _ pos, pagesOf_representatives_expandPages pos] at ran
  split at ran
  · rename_i empty
    cases ran
    rw [isEmpty_iff_length_eq_zero, length] at empty
    obtain rfl : pages = [] := length_eq_zero_iff.mp
      ((Nat.mul_eq_zero.mp empty).resolve_right pos.ne')
    rw [toFinset_nil, Finset.sdiff_empty]
    exact ⟨inv, .refl s, rfl⟩
  split at ran
  · cases ran
  split at ran
  · exact inv.freeReserved holes nodup held ran
  · cases ran

end Pool

end Sglang.Unified
