/-
# Moving pages

* `Pool.Mapped.move` — a batch of moves onto pages that are not bound keeps the tables
  and what is read through them.
* `Pool.Unbinds` — a call unbinds some virtual pages and binds none: what moves, frees and
  flushes have in common.
* `Pool.Inv.freePages` — a free; `_compact_pending_impl` packs an eager pool after every one.
-/

import Sglang.Lib.Packing
import Sglang.Unified.Placement

namespace Sglang.Unified

open List
open Option (bind_eq_some_iff getD_none ite_none_right_eq_some map_eq_some_iff ne_none_iff_exists'
  some.inj)
open Finset (card_eq_zero disjoint_left disjoint_union_left empty_sdiff insert_sdiff_of_notMem
  insert_union mem_filter mem_insert mem_sdiff mem_union mem_union_left sdiff_empty sdiff_subset
  union_empty union_right_comm union_sdiff_distrib)
open Sglang.Alloc (pagesFor pagesOf expandPages unique)
open Sglang.Lib (scatter unpair bindings copyAll Linked Stored Splits)

namespace Pool

variable {γ : Type} {c : SubPool} {s s' : Pool γ} {B H R : Finset Nat} {written : Nat → Option γ}

/-! ### A batch of moves -/

/-- Pages that may be moved: bound, distinct, onto as many distinct pages that are not. -/
structure Movable (B : Finset Nat) (srcs dsts : List Nat) : Prop where
  bound : ∀ p ∈ srcs, p ∈ B
  nodup : srcs.Nodup
  nodup' : dsts.Nodup
  length : srcs.length = dsts.length
  fresh : ∀ p ∈ dsts, p ∉ B
  real : ∀ p ∈ dsts, p ≠ 0

/-- The pages bound after a batch of moves. -/
def movedTo (B : Finset Nat) (srcs dsts : List Nat) : Finset Nat := B \ srcs.toFinset ∪ dsts.toFinset

variable {dsts freed vacated tokens srcs vMoved : List Nat} {wm : Nat} {k x v startPos : Nat}

lemma Mapped.move (mapped : Mapped c s B written) (movable : Movable B srcs dsts)
    (values : List.Forall₂ (fun v p => s.v2p v = some p) vMoved srcs) :
    Mapped c { s with
      mem := copyAll s.mem (srcs.zip dsts)
      v2p := scatter s.v2p (bindings vMoved dsts)
      p2v := unpair (scatter s.p2v (bindings dsts vMoved)) srcs }
      (movedTo B srcs dsts) written := by
  have lengths : vMoved.length = dsts.length := values.length_eq.trans movable.length
  have fresh : ∀ d ∈ dsts, d ∉ insert 0 B := by
    intro d mem
    rw [mem_insert, not_or]
    exact ⟨movable.real d mem, movable.fresh d mem⟩
  have linked := mapped.linked.move values movable.nodup movable.nodup' movable.length fresh
  have sinkKept : insert 0 B \ srcs.toFinset ∪ dsts.toFinset = insert 0 (movedTo B srcs dsts) := by
    rw [movedTo, insert_sdiff_of_notMem, insert_union]
    exact fun zero => mapped.real (movable.bound 0 (mem_toFinset.mp zero))
  have rebound := bind_v2p (s := s) (Lib.nodup_keys values movable.nodup) lengths.symm
  have stays : ∀ v, v ∉ vMoved → scatter s.v2p (bindings vMoved dsts) v = s.v2p v := rebound.1
  have goes : ∀ v ∈ vMoved, (∃ p ∈ srcs, s.v2p v = some p) ∧
      ∃ p, scatter s.v2p (bindings vMoved dsts) v = some p := by
    intro v moved
    exact ⟨Lib.exists_of_mem_left values moved, (rebound.2 v moved).imp fun _ => And.right⟩
  have live_iff : ∀ v, (∃ p, scatter s.v2p (bindings vMoved dsts) v = some p) ↔
      ∃ p, s.v2p v = some p := by
    intro v
    by_cases moved : v ∈ vMoved
    · obtain ⟨⟨p, -, before⟩, after⟩ := goes v moved
      exact iff_of_true after ⟨p, before⟩
    · rw [stays v moved]
  refine ⟨sinkKept ▸ linked, ?_, ?_, mapped.ids_nodup, ?_, ?_, ?_, mapped.queued_nodup, ?_,
    mapped.groups⟩
  · refine (stays 0 fun moved => ?_).trans mapped.sink
    obtain ⟨⟨p, mem, before⟩, -⟩ := goes 0 moved
    rw [mapped.sink] at before
    cases before
    exact mapped.real (movable.bound 0 mem)
  · rw [movedTo, mem_union, mem_sdiff, List.mem_toFinset, List.mem_toFinset]
    rintro (⟨zero, -⟩ | zero)
    · exact mapped.real zero
    · exact movable.real 0 zero rfl
  · intro owner v
    rw [mapped.ids_free owner]
    refine and_congr_right fun _ => not_iff_not.mp ?_
    exact ne_none_iff_exists'.trans ((live_iff v).symm.trans ne_none_iff_exists'.symm)
  · intro owner v p h
    obtain ⟨p', before⟩ := (live_iff v).mp ⟨p, h⟩
    exact mapped.ids_bound owner v p' before
  · exact mapped.stored.move mapped.linked values movable.nodup movable.nodup' movable.length fresh
  · intro v queued
    obtain ⟨real, live⟩ := mapped.queued_live v queued
    exact ⟨real, (live_iff v).mpr live⟩

/-! ### Eager compaction -/

variable (c) in
/-- The band after the watermark went back to `wm`: it lost the pages `vacated`. -/
structure Retreated (s : Pool γ) (wm : Nat) (vacated : List Nat) : Prop where
  nodup : vacated.Nodup
  band : s.band c = ({ s with watermarkPhysical := wm } : Pool γ).band c ∪ vacated.toFinset
  apart : Disjoint (({ s with watermarkPhysical := wm } : Pool γ).band c) vacated.toFinset
  low_ge : s.lowPage c ≤ ({ s with watermarkPhysical := wm } : Pool γ).lowPage c
  ordered : ({ s with watermarkPhysical := wm } : Pool γ).lowPage c
    ≤ ({ s with watermarkPhysical := wm } : Pool γ).highPage c
  high_le : ({ s with watermarkPhysical := wm } : Pool γ).highPage c ≤ s.highPage c

lemma retreated_up (up : c.growDirection = .up) (fits : c.minPageIndex + k ≤ s.watermarkPhysical) :
    Retreated c s (s.watermarkPhysical - k) (range' (s.watermarkPhysical - k) k) := by
  refine ⟨nodup_range', ?_, disjoint_left.mpr fun p => ?_, ?_, ?_, ?_⟩
  · ext p
    simp only [mem_union, mem_band, lowPage, highPage, up, List.mem_toFinset, mem_range'_1]
    omega
  all_goals
    simp only [mem_band, lowPage, highPage, up, List.mem_toFinset, mem_range'_1]
    omega

lemma retreated_down (down : c.growDirection = .down)
    (fits : s.watermarkPhysical + k ≤ c.numPages - 1) (pages : 0 < c.numPages) :
    Retreated c s (s.watermarkPhysical + k) (range' (s.watermarkPhysical + 1) k) := by
  refine ⟨nodup_range', ?_, disjoint_left.mpr fun p => ?_, ?_, ?_, ?_⟩
  · ext p
    simp only [mem_union, mem_band, lowPage, highPage, down, List.mem_toFinset, mem_range'_1]
    omega
  all_goals
    simp only [mem_band, lowPage, highPage, down, List.mem_toFinset, mem_range'_1]
    omega

variable (c) in
/-- What `_compact_pending_impl` decides on: the new watermark, the band given up and the
holes to fill. -/
structure Compacts (s : Pool γ) (freed : List Nat) (wm : Nat) (vacated dsts : List Nat) : Prop where
  retreated : Retreated c s wm vacated
  dsts_nodup : dsts.Nodup
  dsts_iff : ∀ p, p ∈ dsts ↔ p ∈ freed ∧ p ∈ ({ s with watermarkPhysical := wm } : Pool γ).band c
  balanced : (vacated.filter (· ∉ freed.toFinset)).length = dsts.length

lemma compactPending_cases (ends : c.growDirection ≠ .float) (nodup : freed.Nodup)
    (ran : s.compactPending c freed = some s') :
    freed = [] ∧ s' = s ∨ ∃ wm vacated dsts, Compacts c s freed wm vacated dsts ∧
      (if (vacated.filter (· ∉ freed.toFinset)).isEmpty then
          some (({ s with watermarkPhysical := wm } : Pool γ).clearP2v vacated)
        else (({ s with watermarkPhysical := wm } : Pool γ).movePagesAndRebind
          (vacated.filter (· ∉ freed.toFinset)) dsts).map (·.clearP2v vacated)) = some s' := by
  have card : freed.toFinset.card = freed.length := toFinset_card_of_nodup nodup
  have numPos : 0 < c.numPages := lt_of_le_of_lt (Nat.zero_le _) c.min_lt_num
  unfold compactPending at ran
  simp only [card] at ran
  split at ran
  · cases ran
  split at ran
  · rename_i nothing
    cases ran
    exact .inl ⟨eq_nil_of_length_eq_zero nothing, rfl⟩
  right
  cases grow : c.growDirection
  case float => exact absurd grow ends
  all_goals
    simp only [grow, List.mem_toFinset] at ran
    obtain ⟨checked, ran⟩ := ite_none_right_eq_some.mp ran
    simp only [Bool.and_eq_true, decide_eq_true_eq, beq_iff_eq] at checked
    obtain ⟨⟨fits, inside⟩, balanced⟩ := checked
  case' up =>
    refine ⟨_, _, unique (freed.filter (· < s.watermarkPhysical - freed.length)),
      ⟨retreated_up grow fits, Alloc.nodup_unique _, ?_, ?_⟩, ?_⟩
  case' down =>
    refine ⟨_, _, unique (freed.filter (s.watermarkPhysical + freed.length < ·)),
      ⟨retreated_down grow fits numPos, Alloc.nodup_unique _, ?_, ?_⟩, ?_⟩
  case up.refine_1 | down.refine_1 =>
    intro p
    simp only [Alloc.mem_unique, mem_filter, decide_eq_true_eq, mem_band, lowPage, highPage, grow]
    apply and_congr_right
    intro mem
    have := inside p mem
    omega
  case up.refine_2 | down.refine_2 => simpa only [List.mem_toFinset] using balanced
  all_goals simpa only [List.mem_toFinset] using ran

/-- Clearing the freed pages and then moving, in the tables: what `_compact_pending_impl`
does in the other order. -/
lemma Compacts.p2v_eq
    (compacts : Compacts c s freed wm vacated dsts) (inside : ∀ p ∈ freed, p ∈ s.band c)
    (length : dsts.length = vMoved.length) (table : Nat → Option Nat) :
    unpair (scatter table (bindings dsts vMoved)) vacated
      = unpair (scatter (unpair table freed) (bindings dsts vMoved))
          (vacated.filter (· ∉ freed.toFinset)) := by
  have keys : (bindings dsts vMoved).map Prod.fst = dsts := Lib.map_fst_bindings length.le
  have notDst : ∀ p ∈ vacated, p ∉ dsts := by
    intro p gone dst
    exact disjoint_left.mp compacts.retreated.apart ((compacts.dsts_iff p).mp dst).2
      (mem_toFinset.mpr gone)
  funext p
  by_cases gone : p ∈ vacated
  · rw [unpair, if_pos gone]
    by_cases free : p ∈ freed
    · have kept : p ∉ vacated.filter (· ∉ freed.toFinset) := by simp [free]
      rw [unpair, if_neg kept, Lib.scatter_of_not_mem (keys.symm ▸ notDst p gone), unpair, if_pos free]
    · have moved : p ∈ vacated.filter (· ∉ freed.toFinset) := by simp [gone, free]
      rw [unpair, if_pos moved]
  · have kept : p ∉ vacated.filter (· ∉ freed.toFinset) := by simp [gone]
    rw [unpair, if_neg gone, unpair, if_neg kept]
    by_cases dst : p ∈ dsts
    · exact Lib.scatter_touched (keys.symm ▸ dst)
    · apply Lib.scatter_apply_congr
      have notFreed : p ∉ freed := by
        intro free
        have inBand := inside p free
        rw [compacts.retreated.band, mem_union, List.mem_toFinset] at inBand
        exact dst ((compacts.dsts_iff p).mpr ⟨free, inBand.resolve_right gone⟩)
      rw [unpair, if_neg notFreed]

/-- The pool after a successful `_compact_pending_impl`. -/
lemma compacted_eq (length : srcs.length = dsts.length)
    (ran : (if srcs.isEmpty then some (s.clearP2v vacated)
        else (s.movePagesAndRebind srcs dsts).map (·.clearP2v vacated)) = some s') :
    ∃ vMoved, List.Forall₂ (fun p v => s.p2v p = some v) srcs vMoved ∧
      (srcs ≠ [] → s.pendingHicacheLoadPages = 0) ∧
      s' = { s with
        mem := copyAll s.mem (srcs.zip dsts)
        v2p := scatter s.v2p (bindings vMoved dsts)
        p2v := unpair (scatter s.p2v (bindings dsts vMoved)) vacated } := by
  split at ran
  · rename_i empty
    rw [List.isEmpty_iff] at empty
    subst empty
    obtain rfl := eq_nil_of_length_eq_zero length.symm
    cases ran
    exact ⟨[], .nil, absurd rfl, rfl⟩
  · obtain ⟨t, moved, rfl⟩ := map_eq_some_iff.mp ran
    unfold movePagesAndRebind at moved
    split at moved
    · cases moved
    rename_i unblocked
    obtain ⟨vMoved, found, rfl⟩ := map_eq_some_iff.mp moved
    refine ⟨vMoved, Lib.forall₂_of_mapM found, fun _ => ?_, rfl⟩
    simp only [movesBlocked, Bool.or_eq_true, decide_eq_true_eq] at unblocked
    omega

/-- A packed pool holds all of its band. -/
lemma Placed.band_eq (placed : Placed c s H) (eager : c.lazyCompaction = false)
    (ends : c.growDirection ≠ .float) : s.band c = H := by
  have split := placed.split
  rw [placed.packed eager ends, pendingReusePages, placed.settled eager] at split
  refine Finset.Subset.antisymm (fun p mem => ?_) fun p mem => split.held_sub mem
  exact ((split.cover p).mp mem).resolve_left not_mem_nil

/-- The survivors and the holes they go to. -/
lemma Compacts.movable (placed : Placed c s (B ∪ R))
    (compacts : Compacts c s freed wm vacated dsts) (all : s.band c = B ∪ R)
    (bound : ∀ p ∈ freed, p ∈ B) (unreserved : vacated.filter (· ∉ freed.toFinset) ≠ [] → R = ∅) :
    Movable (B \ freed.toFinset) (vacated.filter (· ∉ freed.toFinset)) dsts := by
  refine ⟨?_, compacts.retreated.nodup.filter _, compacts.dsts_nodup, compacts.balanced, ?_, ?_⟩
  · intro p survivor
    have noReserved := unreserved (ne_nil_of_mem survivor)
    obtain ⟨gone, live⟩ := mem_filter.mp survivor
    have inBand : p ∈ s.band c := by
      rw [compacts.retreated.band, mem_union, List.mem_toFinset]
      exact .inr gone
    rw [all, noReserved, union_empty] at inBand
    exact mem_sdiff.mpr ⟨inBand, of_decide_eq_true live⟩
  · intro p dst held
    exact (mem_sdiff.mp held).2 (List.mem_toFinset.mpr ((compacts.dsts_iff p).mp dst).1)
  · intro p dst
    have held := mem_union_left R (bound p ((compacts.dsts_iff p).mp dst).1)
    exact (placed.pos_of_mem held).ne'

/-- After the moves exactly the kept band is held. -/
lemma Compacts.held_eq (compacts : Compacts c s freed wm vacated dsts)
    (all : s.band c = B ∪ R) (apart : Disjoint B R) (bound : ∀ p ∈ freed, p ∈ B)
    (unreserved : vacated.filter (· ∉ freed.toFinset) ≠ [] → R = ∅) :
    movedTo (B \ freed.toFinset) (vacated.filter (· ∉ freed.toFinset)) dsts ∪ R
      = ({ s with watermarkPhysical := wm } : Pool γ).band c := by
  have srcs_eq : (vacated.filter (· ∉ freed.toFinset)).toFinset
      = vacated.toFinset \ freed.toFinset := by
    ext p
    simp
  have dsts_eq : dsts.toFinset
      = freed.toFinset ∩ ({ s with watermarkPhysical := wm } : Pool γ).band c := by
    ext p
    simp [compacts.dsts_iff]
  have reservedStays : R \ (vacated.filter (· ∉ freed.toFinset)).toFinset = R := by
    by_cases stay : vacated.filter (· ∉ freed.toFinset) = []
    · rw [stay, toFinset_nil, sdiff_empty]
    · rw [unreserved stay, empty_sdiff]
  have exchanged := Lib.exchange_eq freed.toFinset compacts.retreated.apart
  rw [← compacts.retreated.band, all, held_sdiff apart bound, ← srcs_eq, ← dsts_eq,
    union_sdiff_distrib, reservedStays] at exchanged
  rw [← exchanged, movedTo, union_right_comm]

lemma isOpaque_of_ends (ends : c.growDirection ≠ .float) : s.isFrontierTransparent c = false := by
  unfold isFrontierTransparent
  cases grow : c.growDirection with
  | float => exact absurd grow ends
  | up => rfl
  | down => rfl

/-! ### Nothing new is bound -/

/-- Virtual page `v` has an entry in one of the tables. -/
def Named (s : Pool γ) (v : Nat) : Prop := s.v2p v ≠ none ∨ ∃ p, s.p2v p = some v

/-- No virtual page is bound that had no entry before, and of the bound ones only `vPages`
may be unbound. -/
structure Unbinds (s s' : Pool γ) (vPages : List Nat) : Prop where
  fewer : ∀ v, Named s' v → Named s v
  others : ∀ v, v ∉ vPages → s.v2p v ≠ none → s'.v2p v ≠ none

variable {t : Pool γ} {vPages first second keys values pages more : List Nat}

lemma Unbinds.of_tables (v2p : s'.v2p = s.v2p) (p2v : s'.p2v = s.p2v) : Unbinds s s' vPages :=
  ⟨fun v named => by rwa [Named, v2p, p2v] at named, fun v _ bound => by rwa [v2p]⟩

lemma Unbinds.refl (s : Pool γ) : Unbinds s s vPages := .of_tables rfl rfl

lemma Unbinds.append (one : Unbinds s t first) (two : Unbinds t s' second) :
    Unbinds s s' (first ++ second) := by
  refine ⟨fun v named => one.fewer v (two.fewer v named), fun v kept bound => ?_⟩
  rw [mem_append, not_or] at kept
  exact two.others v kept.2 (one.others v kept.1 bound)

lemma Unbinds.trans (one : Unbinds s t vPages) (two : Unbinds t s' vPages) : Unbinds s s' vPages :=
  ⟨fun v named => one.fewer v (two.fewer v named), fun v kept bound =>
    two.others v kept (one.others v kept bound)⟩

/-- An entry after binding `keys` is an old one, or that of a key. -/
lemma scatter_entry {table : Nat → Option Nat}
    (entry : scatter table (bindings keys values) k = some x) :
    table k = some x ∨ (k ∈ keys ∧ x ∈ values) := by
  induction keys generalizing table values with
  | nil => exact .inl entry
  | cons key keys ih =>
    cases values with
    | nil => exact .inl entry
    | cons value values =>
      have later : scatter (Function.update table key (some value)) (bindings keys values) k = some x :=
        entry
      rcases ih later with old | ⟨mem, mem'⟩
      · by_cases here : k = key
        · subst here
          rw [Function.update_self] at old
          exact .inr ⟨mem_cons_self, some.inj old ▸ mem_cons_self⟩
        · rw [Function.update_of_ne here] at old
          exact .inl old
      · exact .inr ⟨mem_cons_of_mem _ mem, mem_cons_of_mem _ mem'⟩

/-- Moving pages binds the virtual pages that were there. -/
lemma unbinds_rebind {srcs vMoved : List Nat}
    (found : List.Forall₂ (fun p v => s.p2v p = some v) srcs vMoved)
    (v2p : s'.v2p = scatter s.v2p (bindings vMoved dsts))
    (p2v : ∀ p v, s'.p2v p = some v → scatter s.p2v (bindings dsts vMoved) p = some v) :
    Unbinds s s' vPages := by
  have named : ∀ v ∈ vMoved, Named s v := fun v mem => by
    obtain ⟨src, -, entry⟩ := Lib.exists_of_mem_left found.flip mem
    exact .inr ⟨src, entry⟩
  refine ⟨?_, fun v _ bound => ?_⟩
  · rintro v (bound | ⟨p, entry⟩)
    · rw [v2p] at bound
      obtain ⟨p, entry⟩ := ne_none_iff_exists'.mp bound
      rcases scatter_entry entry with old | ⟨mem, -⟩
      · exact .inl (by simp [old])
      · exact named v mem
    · rcases scatter_entry (p2v p v entry) with old | ⟨-, mem⟩
      · exact .inr ⟨p, old⟩
      · exact named v mem
  · rw [v2p, ne_none_iff_exists'] at *
    exact Lib.scatter_bindings_bound bound

lemma unbinds_unpair (v2p : s'.v2p = unpair s.v2p vPages)
    (p2v : ∀ p v, s'.p2v p = some v → s.p2v p = some v) : Unbinds s s' vPages := by
  refine ⟨?_, fun v kept bound => ?_⟩
  · rintro v (bound | ⟨p, entry⟩)
    · rw [v2p] at bound
      obtain ⟨p, entry⟩ := ne_none_iff_exists'.mp bound
      exact .inl (by simp [(Lib.unpair_eq_some.mp entry).2])
    · exact .inr ⟨p, p2v p v entry⟩
  · rwa [v2p, unpair, if_neg kept]

/-- What a call leaves that frees the virtual pages `gone`. -/
def Frees (c : SubPool) (s s' : Pool γ) (written : Nat → Option γ) (R : Finset Nat) (gone : List Nat) :
    Prop :=
  ((∃ B', Inv c s' written B' R) ∧ Shrunk c s s') ∧ Unbinds s s' gone

lemma Inv.frees_nothing (inv : Inv c s written B R) (gone : List Nat) : Frees c s s written R gone :=
  ⟨⟨⟨B, inv⟩, .refl s⟩, .refl s⟩

/-! ### Packing after a free -/

/-- `_compact_pending_impl`, called when the freed pages are cleared in `v2p` only; it names no
page that was freed. -/
lemma Placed.compactPending (placed : Placed c s (B ∪ R))
    (unbound : Mapped c { s with p2v := unpair s.p2v freed } (B \ freed.toFinset) written)
    (apart : Disjoint B R) (reserved : R.card ≤ s.pendingHicacheLoadPages)
    (eager : c.lazyCompaction = false) (ends : c.growDirection ≠ .float) (nodup : freed.Nodup)
    (bound : ∀ p ∈ freed, p ∈ B) (ran : s.compactPending c freed = some s') :
    ((∃ B', Inv c s' written B' R) ∧ Shrunk c s s') ∧
      Unbinds { s with p2v := unpair s.p2v freed } s' vPages ∧ s'.freeGroup = s.freeGroup := by
  have all := placed.band_eq eager ends
  rcases compactPending_cases ends nodup ran with ⟨rfl, rfl⟩ | ⟨wm, vacated, dsts, compacts, result⟩
  · have nothing : unpair s'.p2v [] = s'.p2v := by
      funext p
      simp [unpair]
    rw [toFinset_nil, sdiff_empty] at unbound
    rw [nothing]
    exact ⟨⟨⟨B, unbound, placed, apart, reserved⟩, .refl s'⟩, .refl s', rfl⟩
  obtain ⟨vMoved, moved, unreserved, rfl⟩ := compacted_eq compacts.balanced result
  have noReserved : vacated.filter (· ∉ freed.toFinset) ≠ [] → R = ∅ := fun moved =>
    card_eq_zero.mp (Nat.le_zero.mp (reserved.trans (unreserved moved).le))
  have movable := compacts.movable placed all bound noReserved
  have held := compacts.held_eq all apart bound noReserved
  have values : List.Forall₂ (fun v p => s.v2p v = some p) vMoved
      (vacated.filter (· ∉ freed.toFinset)) := by
    refine .flip (.imp ?_ ((forall₂_and_left _ _).mpr
      ⟨fun p survivor => (mem_filter.mp survivor).2, moved⟩))
    rintro p v ⟨live, h⟩
    refine (unbound.linked.inverse v p).mpr ((if_neg ?_).trans h)
    simpa using live
  have mapped := unbound.move movable values
  have lengths : dsts.length = vMoved.length := compacts.balanced.symm.trans moved.length_eq
  have inside : ∀ p ∈ freed, p ∈ s.band c := fun p mem => all ▸ mem_union_left R (bound p mem)
  have survivors := values.flip.imp fun p v => (unbound.linked.inverse v p).mp
  refine ⟨⟨⟨movedTo (B \ freed.toFinset) (vacated.filter (· ∉ freed.toFinset)) dsts, ?_, ?_, ?_,
    reserved⟩, ?_⟩, unbinds_rebind survivors rfl fun p v entry => ?_, rfl⟩
  · -- the tables do not care in which order pages are cleared and moved
    rw [compacts.p2v_eq inside lengths]
    exact mapped.congr
  · rw [held]
    refine { placed with
      split := ?_
      low_ge := placed.low_ge.trans compacts.retreated.low_ge
      ordered := compacts.retreated.ordered
      high_le := compacts.retreated.high_le.trans placed.high_le
      count := fun lazy => absurd lazy (by simp [eager])
      parked := fun float => absurd float ends }
    rw [pendingReusePages, placed.packed eager ends, placed.settled eager]
    exact ⟨nodup_nil, by simp, fun p => (or_iff_right not_mem_nil).symm⟩
  · rw [movedTo, disjoint_union_left]
    refine ⟨(apart.mono_left sdiff_subset).mono_left sdiff_subset, ?_⟩
    apply apart.mono_left
    intro p dst
    exact bound p ((compacts.dsts_iff p).mp (mem_toFinset.mp dst)).1
  · intro _
    exact ⟨isOpaque_of_ends ends, compacts.retreated.low_ge, compacts.retreated.high_le⟩
  · rw [compacts.p2v_eq inside lengths] at entry
    exact (Lib.unpair_eq_some.mp entry).2

/-- **Freeing virtual pages.** The band of an eager end pool closes up behind them. -/
lemma Inv.freePages (inv : Inv c s written B R) (freeable : Freeable c s vPages)
    (ran : s.freePages c vPages = some s') : Frees c s s' written R vPages ∧
      s'.freeGroup = s.freeGroup ∧ ∀ v ∈ vPages, s'.v2p v = none := by
  obtain ⟨pages, ids, values, ids_eq, ways⟩ := freePages_cases ran
  obtain ⟨nodup, bound⟩ := inv.mapped.freed_pages freeable values
  have mapped := inv.mapped.unbind freeable values ids_eq
  have gone : ∀ v ∈ vPages, unpair s.v2p vPages v = none := fun v freed => if_pos freed
  have held : ∀ p ∈ pages, p ∈ B ∪ R := fun p mem => mem_union_left R (bound p mem)
  have apart : Disjoint (B \ pages.toFinset) R := inv.apart.mono_left sdiff_subset
  rcases ways with ⟨float, rfl⟩ | ⟨ends, lazy, rfl⟩ | ⟨ends, eager, compacted⟩
  · have split := inv.placed.release_split nodup held
    rw [held_sdiff inv.apart bound] at split
    refine ⟨⟨⟨⟨B \ pages.toFinset, ?_, ?_, apart, ?_⟩, fun isOpaque => ?_⟩,
      unbinds_unpair (parkIfEmpty_tables float).v2p fun p v entry => ?_⟩,
      (parkIfEmpty_tables float).freeGroup, fun v freed => ?_⟩
    · refine .congr ?_ (parkIfEmpty_tables float)
      exact mapped.congr
    · exact placed_parkIfEmpty float split inv.placed.low_ge inv.placed.ordered inv.placed.high_le
        (inv.placed.settled (c.float_eager float))
    · rw [(parkIfEmpty_tables float).pendingHicacheLoadPages]
      exact inv.reserved
    · obtain ⟨still, low, high⟩ := parkIfEmpty_shrunk float isOpaque
      refine ⟨?_, low, high⟩
      -- fewer holes, so more live pages before
      simp only [isFrontierTransparent, float, livePages, spanPages, holePages, length_append,
        beq_eq_false_iff_ne] at still ⊢
      omega
    · rw [(parkIfEmpty_tables float).p2v] at entry
      exact (Lib.unpair_eq_some.mp entry).2
    · rw [(parkIfEmpty_tables float).v2p]
      exact gone v freed
  · have placed := inv.placed.releaseLazy lazy nodup held
    rw [held_sdiff inv.apart bound] at placed
    exact ⟨⟨⟨⟨_, mapped.congr,
      placed.congr, apart, inv.reserved⟩,
      fun _ => ⟨isOpaque_of_ends ends, le_rfl, le_rfl⟩⟩,
      unbinds_unpair rfl fun _ _ entry => (Lib.unpair_eq_some.mp entry).2⟩, rfl, gone⟩
  · have placed : Placed c { s with v2p := unpair s.v2p vPages, freeVirtualIds := ids } (B ∪ R) :=
      inv.placed.congr
    obtain ⟨kept, unbinds, closed⟩ :=
      placed.compactPending mapped inv.apart inv.reserved eager ends nodup bound compacted
    have cleared : Unbinds s { s with
        v2p := unpair s.v2p vPages, p2v := unpair s.p2v pages, freeVirtualIds := ids } vPages :=
      unbinds_unpair rfl fun _ _ entry => (Lib.unpair_eq_some.mp entry).2
    refine ⟨⟨kept, cleared.trans unbinds⟩, closed, fun v freed => ?_⟩
    by_contra bound
    rcases unbinds.fewer v (.inl bound) with still | ⟨p, entry⟩
    · exact still (gone v freed)
    · exact absurd ((mapped.linked.inverse v p).mpr entry) (by simp [gone v freed])

/-! ### `free`, `free_segment` and free groups -/

lemma mem_freedPages : v ∈ freedPages c tokens none ↔ v ∈ pagesOf c.pageSize tokens := by
  unfold freedPages
  split
  · rename_i single
    rw [Bool.and_eq_true, decide_eq_true_eq] at single
    rw [single.1]
    simp [pagesOf]
  · exact Alloc.mem_unique

/-- The pool with other queues. -/
def withQueues (s : Pool γ) (tokens reps : Option (List (List Nat))) : Pool γ :=
  { s with freeGroup := tokens, freePageRepsGroup := reps }

/-- Queueing pages that may be freed. -/
lemma Inv.queue (inv : Inv c s written B R) (tokens reps : List (List Nat))
    (freeable : Freeable c s pages)
    (nodup : (freedPages c tokens.flatten none ++ pagesOf c.pageSize reps.flatten).Nodup)
    (queued : ∀ v, v ∈ freedPages c tokens.flatten none ++ pagesOf c.pageSize reps.flatten →
      v ∈ s.queuedPages c ∨ v ∈ pages) :
    Frees c s (s.withQueues (some tokens) (some reps)) written R pages := by
  refine ⟨⟨⟨B, { inv.mapped with
      queued_nodup := nodup, queued_live := fun v mem => ?_, groups := by simp [withQueues] },
    inv.placed.congr, inv.apart, inv.reserved⟩,
    fun isOpaque => ⟨isOpaque, le_rfl, le_rfl⟩⟩, .of_tables rfl rfl⟩
  exact (queued v mem).elim (inv.mapped.queued_live v) (freeable.live v)

lemma queuedPages_closed : (s.withQueues none none).queuedPages c = [] := by
  have : ∀ v, v ∉ (s.withQueues none none).queuedPages c := by
    intro v mem
    simp only [queuedPages, withQueues, getD_none, flatten_nil, mem_append,
      mem_freedPages, pagesOf, map_nil, not_mem_nil, or_false] at mem
  exact eq_nil_iff_forall_not_mem.mpr this

lemma Inv.close (inv : Inv c s written B R) : Inv c (s.withQueues none none) written B R := by
  have queued := queuedPages_closed (c := c) (s := s)
  exact ⟨{ inv.mapped with
      queued_nodup := queued ▸ nodup_nil, queued_live := by simp [queued], groups := by simp [withQueues] },
    inv.placed.congr, inv.apart, inv.reserved⟩

lemma nodup_freedPages_append (nodup : (freedPages c tokens none).Nodup)
    (nodup' : (freedPages c more none).Nodup)
    (apart : ∀ v ∈ freedPages c more none, v ∉ freedPages c tokens none) :
    (freedPages c (tokens ++ more) none).Nodup := by
  unfold freedPages at *
  split at nodup
  · rename_i single
    simp only [single] at nodup' apart ⊢
    refine nodup_append.mpr ⟨nodup, nodup', ?_⟩
    rintro v mem _ mem' rfl
    exact apart v mem' mem
  · rename_i several
    rw [if_neg several]
    exact Alloc.nodup_unique _

/-- The queues of an open group. -/
lemma Mapped.queues {group : List (List Nat)} (mapped : Mapped c s B written)
    (opened : s.freeGroup = some group) : ∃ reps, s.freePageRepsGroup = some reps ∧
      s.queuedPages c = freedPages c group.flatten none ++ pagesOf c.pageSize reps.flatten := by
  cases waiting : s.freePageRepsGroup with
  | none =>
    rw [mapped.groups.mpr waiting] at opened
    cases opened
  | some reps =>
    refine ⟨reps, rfl, ?_⟩
    rw [queuedPages, opened, waiting]
    rfl

/-- **`free`.** -/
lemma Inv.free (inv : Inv c s written B R) (freeable : Freeable c s (freedPages c tokens none))
    (ran : s.free c tokens none = some s') : Frees c s s' written R (freedPages c tokens none) := by
  unfold Pool.free at ran
  split at ran
  · cases ran
    exact inv.frees_nothing _
  split at ran
  · rename_i group opened
    cases ran
    obtain ⟨reps, waiting, queue⟩ := inv.mapped.queues opened
    have nodup := inv.mapped.queued_nodup
    have notQueued := freeable.notQueued
    rw [queue] at nodup notQueued
    rw [nodup_append] at nodup
    have mem_more : ∀ v, v ∈ freedPages c (group ++ [tokens]).flatten none ↔
        v ∈ freedPages c group.flatten none ∨ v ∈ freedPages c tokens none := by
      simp [mem_freedPages, pagesOf]
    have enqueued := inv.queue (group ++ [tokens]) reps freeable ?_ fun v mem => ?_
    · rwa [withQueues, ← waiting] at enqueued
    · refine nodup_append.mpr ⟨?_, nodup.2.1, ?_⟩
      · rw [show (group ++ [tokens]).flatten = group.flatten ++ tokens by simp]
        exact nodup_freedPages_append nodup.1 freeable.nodup fun v mem old =>
          notQueued v mem (mem_append_left _ old)
      · rintro v mem _ rep rfl
        rcases (mem_more v).mp mem with old | new
        · exact nodup.2.2 v old v rep rfl
        · exact notQueued v new (mem_append_right _ rep)
    · rw [queue, mem_append]
      rw [mem_append, mem_more] at mem
      tauto
  · exact (inv.freePages freeable ran).1

variable (c) in
/-- The pages `free_segment` frees. -/
def segmentPages (tokens : List Nat) : List Nat :=
  if c.pageSize = 1 then freedPages c tokens none
  else pagesOf c.pageSize (Alloc.Paged.representatives c.pageSize tokens)

section

variable (inv : Inv c s written B R)
include inv

/-- **`free_segment`.** -/
lemma Inv.freeSegment (freeable : Freeable c s (segmentPages c tokens))
    (ran : s.freeSegment c tokens startPos = some s') :
    Frees c s s' written R (segmentPages c tokens) := by
  unfold Pool.freeSegment at ran
  unfold segmentPages at freeable ⊢
  split at ran
  · cases ran
    exact inv.frees_nothing _
  split at ran
  · rename_i single
    rw [if_pos single] at freeable ⊢
    exact inv.free freeable ran
  rename_i several
  rw [if_neg several] at freeable ⊢
  split at ran
  · dsimp only at ran
    split at ran
    · rename_i closed
      have noGroup := inv.mapped.groups.mpr closed
      unfold Pool.free at ran
      rw [noGroup] at ran
      split at ran
      · cases ran
        exact inv.frees_nothing _
      · exact (inv.freePages freeable ran).1
    · rename_i reps waiting
      cases ran
      cases opened : s.freeGroup with
      | none =>
        rw [inv.mapped.groups.mp opened] at waiting
        cases waiting
      | some group =>
        obtain ⟨reps', waiting', queue⟩ := inv.mapped.queues opened
        cases waiting.symm.trans waiting'
        have nodup := inv.mapped.queued_nodup
        have notQueued := freeable.notQueued
        rw [queue] at nodup notQueued
        rw [nodup_append] at nodup
        have more : pagesOf c.pageSize (reps ++ [Alloc.Paged.representatives c.pageSize tokens]).flatten
            = pagesOf c.pageSize reps.flatten
              ++ pagesOf c.pageSize (Alloc.Paged.representatives c.pageSize tokens) := by
          simp [pagesOf]
        have enqueued := inv.queue group (reps ++ [Alloc.Paged.representatives c.pageSize tokens])
          freeable ?_ fun v mem => ?_
        · exact enqueued
        · rw [more, ← append_assoc]
          refine nodup_append.mpr ⟨nodup_append.mpr nodup, freeable.nodup, ?_⟩
          rintro v old _ new rfl
          exact notQueued v new old
        · rwa [more, ← append_assoc, ← queue, mem_append] at mem
  · cases ran

/-- **`free_group_begin`.** -/
lemma Inv.freeGroupBegin (ran : s.freeGroupBegin = some s') : Frees c s s' written R [] := by
  unfold Pool.freeGroupBegin at ran
  split at ran
  · cases ran
  · cases ran
    have nothing : freedPages c ([] : List (List Nat)).flatten none
        ++ pagesOf c.pageSize ([] : List (List Nat)).flatten = [] := queuedPages_closed (s := s)
    have freeable : Freeable c s [] := ⟨nodup_nil, by simp, by simp⟩
    apply inv.queue [] [] freeable (nothing ▸ nodup_nil)
    intro v mem
    rw [nothing] at mem
    cases mem

/-- `free` while no group is open. -/
lemma Inv.freeNow {pages : Option (List Nat)} (closed : s.freeGroup = none)
    (freeable : Freeable c s (freedPages c tokens pages)) (ran : s.free c tokens pages = some s') :
    Frees c s s' written R (freedPages c tokens pages) ∧ s'.freeGroup = none ∧
      (tokens ≠ [] → ∀ v ∈ freedPages c tokens pages, s'.v2p v = none) := by
  unfold Pool.free at ran
  rw [closed] at ran
  split at ran
  · rename_i empty
    cases ran
    exact ⟨inv.frees_nothing _, closed, fun more => absurd (isEmpty_iff.mp empty) more⟩
  · obtain ⟨frees, group, gone⟩ := inv.freePages freeable ran
    exact ⟨frees, group.trans closed, fun _ => gone⟩

end

lemma Mapped.queuedPages_nil (mapped : Mapped c s B written) (closed : s.freeGroup = none) :
    s.queuedPages c = [] := by
  have same : s.queuedPages c = (s.withQueues none none).queuedPages c := by
    rw [queuedPages, closed, mapped.groups.mp closed]
    rfl
  rw [same, queuedPages_closed]

/-- **`free_group_end`.** -/
lemma Inv.freeGroupEnd (inv : Inv c s written B R) (ran : s.freeGroupEnd c = some s') :
    Frees c s s' written R (s.queuedPages c) := by
  have nodup := nodup_append.mp inv.mapped.queued_nodup
  have live := inv.mapped.queued_live
  have closed := inv.close
  obtain ⟨t, tokens, reps⟩ := bind_eq_some_iff.mp ran
  -- the tokens first
  have first : Freeable c (s.withQueues none none) (freedPages c (s.freeGroup.getD []).flatten none) :=
    ⟨nodup.1, fun v mem => live v (mem_append_left _ mem), by simp [queuedPages_closed]⟩
  obtain ⟨⟨⟨⟨B₁, inv₁⟩, shrunk₁⟩, unbinds₁⟩, noGroup⟩ : Frees c (s.withQueues none none) t written R
      (freedPages c (s.freeGroup.getD []).flatten none) ∧ t.freeGroup = none := by
    split at tokens
    · cases tokens
      exact ⟨closed.frees_nothing _, rfl⟩
    · exact (closed.freeNow rfl first tokens).imp_right And.left
  -- and then the representatives, which are still bound
  have second : Freeable c t (freedPages c (s.freePageRepsGroup.getD []).flatten
      (some (pagesOf c.pageSize (s.freePageRepsGroup.getD []).flatten))) := by
    refine ⟨nodup.2.1, fun v mem => ?_, by simp [inv₁.mapped.queuedPages_nil noGroup]⟩
    obtain ⟨real, bound⟩ := live v (mem_append_right _ mem)
    rw [← ne_none_iff_exists'] at bound ⊢
    exact ⟨real, unbinds₁.others v (fun earlier => nodup.2.2 v earlier v mem rfl) bound⟩
  obtain ⟨⟨⟨kept, shrunk₂⟩, unbinds₂⟩, -⟩ : Frees c t s' written R (freedPages c
      (s.freePageRepsGroup.getD []).flatten
      (some (pagesOf c.pageSize (s.freePageRepsGroup.getD []).flatten))) ∧ s'.freeGroup = none := by
    split at reps
    · cases reps
      exact ⟨inv₁.frees_nothing _, noGroup⟩
    · exact (inv₁.freeNow noGroup second reps).imp_right And.left
  exact ⟨⟨kept, shrunk₁.trans shrunk₂⟩,
    .append ⟨unbinds₁.fewer, unbinds₁.others⟩ unbinds₂⟩

end Pool

end Sglang.Unified
