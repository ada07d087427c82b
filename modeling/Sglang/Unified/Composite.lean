/-
# Runs of a composite allocator

A composite drives its sub-pools through the calls of `Run.Op` and keeps the window pool
inside the full one: what the window pool binds, the full pool holds. A host load reserves
window pages for virtual pages that have none, binds them and lets the copy go ahead.

* `Hybrid.machine` — the calls of a composite with what its callers promise.
* `Hybrid.reachable_kept` — every run keeps the chain good and the window inside the full
  pool, so that the window pool never holds more pages than the full one.
* `Hybrid.reachable_run` — every run of a composite is one of its chain.
* `Hybrid.Reaches.call`, `Hybrid.Reaches.free` — the composite's own allocations and frees are
  runs of its machine.
-/

import Sglang.Unified.Capacity

namespace Sglang.Unified

open List Run Chain
open Option (bind_eq_some_iff map_eq_some_iff ne_none_iff_exists')
open Finset (card_image_of_injOn card_le_card card_sdiff_of_subset card_union_le
  card_union_of_disjoint disjoint_left disjoint_right mem_image mem_sdiff mem_union
  subset_union_left)
open Sglang.Alloc (pagesFor pagesOf expandPages extendRows ExtendRow DecodeRow getNumNewPages
  getNumNewPagesDecode)

/-! ### The machine -/

/-- A composite and, for every host load that is under way, the virtual page it is for. -/
structure Composite (γ : Type) where
  run : Run γ
  loading : Finset Nat

/-- What happens to a composite: a call on one of its sub-pools (its own calls are made of
those), or a step of a host load of whole window pages. -/
inductive CompositeOp (γ : Type) where
  | call (op : Run.Op γ)
  | allocPhysical (fired : Nat → Bool) (virtualPages : List Nat)
  | setFullToSwaMapping (virtualPages physicalPages : List Nat)
  | cancelPhysicalReservation (virtualPages physicalPages : List Nat)

namespace Hybrid

variable {γ : Type}

section

variable [Zero γ] (h : Hybrid)

def step (x : Composite γ) : CompositeOp γ → Option (Composite γ)
  | .call op => (Run.step h.layout x.run op).map fun r => ⟨r, x.loading⟩
  | .allocPhysical fired virtualPages =>
    (Chain.allocPhysical h.layout fired x.run.chain h.layout.swaMember
      (virtualPages.length * h.pageSize)).map fun (s, out) =>
        ⟨⟨s, Run.forget s x.run.written⟩,
          if out.isSome then x.loading ∪ virtualPages.toFinset else x.loading⟩
  | .setFullToSwaMapping virtualPages physicalPages =>
    (h.setFullToSwaMapping x.run.chain (expandPages h.pageSize virtualPages)
      (expandPages h.pageSize physicalPages)).map fun s =>
        ⟨⟨s, Run.forget s x.run.written⟩, x.loading \ virtualPages.toFinset⟩
  | .cancelPhysicalReservation virtualPages physicalPages =>
    (Run.step h.layout x.run (.cancelPhysicalReservation h.layout.swaMember physicalPages)).map
      fun r => ⟨r, x.loading \ virtualPages.toFinset⟩

/-- The composite frees window pages before the full page they belong to, binds window pages
under pages of the full pool, and leaves pages alone that a load is under way for. -/
structure Shares (x : Composite γ) (op : Run.Op γ) : Prop where
  noLoad : op.keepsReservations = true
  freed : ∀ v ∈ Run.freedBy h.layout x.run.chain op .high,
    (h.sa x.run.chain).v2p v = none ∧ v ∉ x.loading
  bound : ∀ v ∈ Run.boundBy op h.layout.swaMember, (fa x.run.chain).v2p v ≠ none ∧ v ∉ x.loading

/-- Pages of a load: distinct virtual pages, as many distinct reserved pages. -/
structure Loaded (x : Composite γ) (virtualPages physicalPages : List Nat) : Prop where
  length : physicalPages.length = virtualPages.length
  nodup : virtualPages.Nodup
  loading : ∀ v ∈ virtualPages, v ∈ x.loading
  nodup' : physicalPages.Nodup
  reserved : ∀ p ∈ physicalPages, p ∈ (h.sa x.run.chain).reservedPages h.swa

/-- What the callers of a composite promise. Host loads go with lazy compaction only, and
their pages are bound before the copy is queued. -/
def Allowed (x : Composite γ) : CompositeOp γ → Prop
  | .call op => Run.FreesLive h.layout x.run op ∧ Run.BindsForeign h.layout x.run op ∧ h.Shares x op
  | .allocPhysical _ virtualPages => h.full.lazyCompaction = true ∧ virtualPages.Nodup ∧
      ∀ v ∈ virtualPages, (fa x.run.chain).v2p v ≠ none ∧ (h.sa x.run.chain).v2p v = none ∧
        v ∉ x.loading
  | .setFullToSwaMapping virtualPages physicalPages => h.Loaded x virtualPages physicalPages
  | .cancelPhysicalReservation virtualPages physicalPages =>
    h.full.lazyCompaction = true ∧ h.Loaded x virtualPages physicalPages

/-- The composite, called as its callers promise. -/
def machine : Lib.Machine (Composite γ) (CompositeOp γ) :=
  ⟨fun x => Run.Start h.layout x.run ∧ x.loading = ∅, h.Allowed, h.step⟩

/-! ### What every run keeps -/

/-- The chain is good, the window pool binds pages of the full pool only, and every page
reserved in it is for a page of the full pool of its own. -/
structure Kept (x : Composite γ) : Prop where
  run : Run.Kept h.layout x.run
  window : ∀ v, (h.sa x.run.chain).v2p v ≠ none → (fa x.run.chain).v2p v ≠ none
  loading : ∀ v ∈ x.loading, (fa x.run.chain).v2p v ≠ none ∧ (h.sa x.run.chain).v2p v = none
  reserved : ((h.sa x.run.chain).reservedPages h.swa).card ≤ x.loading.card
  full : (fa x.run.chain).reservedPages h.full = ∅

end

variable {h : Hybrid} {x x' : Composite γ}

lemma kept_start (start : Run.Start h.layout x.run) (idle : x.loading = ∅) : h.Kept x := by
  obtain ⟨mem, cleared, unwritten⟩ := id start
  have full : fa x.run.chain = .clear h.full (mem .high) := cleared .high _ full_here
  have window : h.sa x.run.chain = .clear h.swa (mem h.layout.swaMember) :=
    cleared _ _ h.swa_here
  have unbound : ∀ v, v ≠ 0 → (Pool.clear h.swa (mem h.layout.swaMember)).v2p v = none := by
    intro v real
    rw [(clear_tables (mem h.layout.swaMember)).v2p]
    exact if_neg real
  have zero : (Pool.clear h.full (mem .high)).v2p 0 ≠ none := by
    rw [(clear_tables (mem .high)).v2p]
    simp
  refine ⟨⟨good_start start, fun m v _ => unwritten m v⟩, fun v bound => ?_, by simp [idle], ?_, ?_⟩
  · rw [window] at bound
    rw [full]
    by_cases real : v = 0
    · exact real ▸ zero
    · exact absurd (unbound v real) bound
  · rw [window, (inv_clear (mem h.layout.swaMember)).reserved_eq]
    simp
  · rw [full, (inv_clear (mem .high)).reserved_eq]

/-- **A call on a sub-pool.** -/
lemma kept_call [Zero γ] {op : Run.Op γ} {r : Run γ} (kept : h.Kept x)
    (frees : Run.FreesLive h.layout x.run op) (binds : Run.BindsForeign h.layout x.run op)
    (shares : h.Shares x op) (ran : Run.step h.layout x.run op = some r) :
    h.Kept ⟨r, x.loading⟩ := by
  have run := kept_step kept.run frees binds ran
  obtain ⟨s, called, rfl⟩ := map_eq_some_iff.mp ran
  have effect := (stepChain_spec kept.run frees binds called).2 shares.noLoad
  have full : Pool.Effect h.full (fa x.run.chain) (fa s) (freedBy h.layout x.run.chain op .high)
      (boundBy op .high) := effect .high h.full full_here
  have window : Pool.Effect h.swa (h.sa x.run.chain) (h.sa s)
      (freedBy h.layout x.run.chain op h.layout.swaMember) (boundBy op h.layout.swaMember) :=
    effect h.layout.swaMember h.swa h.swa_here
  -- a page of the full pool that the window pool or a load needs is not freed
  have held : ∀ v, (fa x.run.chain).v2p v ≠ none →
      (h.sa x.run.chain).v2p v ≠ none ∨ v ∈ x.loading → (fa s).v2p v ≠ none := by
    intro v bound needed
    refine full.kept v (fun freed => ?_) bound
    obtain ⟨unbound, notLoading⟩ := shares.freed v freed
    exact needed.elim (fun bound => bound unbound) notLoading
  refine ⟨run, fun v bound => ?_, fun v loading => ?_, ?_, ?_⟩
  · by_cases before : (h.sa x.run.chain).v2p v = none
    · have new : v ∈ boundBy op h.layout.swaMember := by
        by_contra notBound
        exact bound (window.fresh h.swa_foreign v notBound before)
      refine full.kept v (fun freed => ?_) (shares.bound v new).1
      cases op <;> simp [boundBy, freedBy] at new freed
    · exact held v (kept.window v before) (.inl before)
  · obtain ⟨bound, unbound⟩ := kept.loading v loading
    refine ⟨held v bound (.inr loading), window.fresh h.swa_foreign v (fun new => ?_) unbound⟩
    exact (shares.bound v new).2 loading
  · rw [window.reserved]
    exact kept.reserved
  · exact full.reserved.trans kept.full

variable {virtualPages physicalPages : List Nat} {s : Chain γ} {c : SubPool}

section

variable (kept : h.Kept x)
include kept

/-- **`alloc_physical`** of the window pool. -/
lemma kept_allocPhysical {fired : Nat → Bool} {out : Option (List Nat)}
    (nodup : virtualPages.Nodup)
    (wanted : ∀ v ∈ virtualPages, (fa x.run.chain).v2p v ≠ none ∧
      (h.sa x.run.chain).v2p v = none ∧ v ∉ x.loading)
    (ran : Chain.allocPhysical h.layout fired x.run.chain h.layout.swaMember
      (virtualPages.length * h.pageSize) = some (s, out)) :
    h.Kept ⟨⟨s, Run.forget s x.run.written⟩,
      if out.isSome then x.loading ∪ virtualPages.toFinset else x.loading⟩ := by
  obtain ⟨good, t, steady, others, same, more⟩ := kept.run.good.allocPhysical ran
  have full : Pool.Effect h.full (fa x.run.chain) (fa s) [] [] := by
    rw [fa, fa, others .high h.swaMember_ne_high.symm]
    exact steady .high h.full full_here
  have window := steady h.layout.swaMember h.swa h.swa_here
  have windowSame : ∀ v, (h.sa s).v2p v = none ↔ (h.sa x.run.chain).v2p v = none := by
    intro v
    rw [sa, same]
    refine ⟨fun unbound => ?_, window.fresh h.swa_foreign v List.not_mem_nil⟩
    by_contra bound
    exact window.kept v List.not_mem_nil bound unbound
  refine ⟨kept_forget good, fun v bound => ?_, fun v loading => ?_, ?_, full.reserved.trans kept.full⟩
  · exact full.kept v List.not_mem_nil (kept.window v fun unbound => bound ((windowSame v).mpr unbound))
  · have either : v ∈ x.loading ∨ v ∈ virtualPages := by
      split at loading
      · simpa using loading
      · exact .inl loading
    obtain ⟨bound, unbound⟩ : (fa x.run.chain).v2p v ≠ none ∧ (h.sa x.run.chain).v2p v = none := by
      rcases either with old | new
      · exact kept.loading v old
      · exact ⟨(wanted v new).1, (wanted v new).2.1⟩
    exact ⟨full.kept v List.not_mem_nil bound, (windowSame v).mpr unbound⟩
  · have counted : ((t h.layout.swaMember).reservedPages h.swa).card ≤ x.loading.card := by
      rw [window.reserved]
      exact kept.reserved
    have disjoint : Disjoint x.loading virtualPages.toFinset := disjoint_right.mpr
      fun v mem => (wanted v (List.mem_toFinset.mp mem)).2.2
    apply (more h.swa h.swa_here).trans
    cases out with
    | none => exact counted
    | some slots =>
      have pages : virtualPages.length * h.pageSize / h.swa.pageSize = virtualPages.length := by
        rw [h.same_page]
        exact Nat.mul_div_cancel _ h.full.pageSize_pos
      simp only [Option.isSome_some, if_true]
      rw [card_union_of_disjoint disjoint, List.toFinset_card_of_nodup nodup, pages]
      exact Nat.add_le_add_right counted _

/-- A step of a load: the window pool changes, and some loads are over. -/
lemma kept_setWindow {pool : Pool γ} {loading : Finset Nat} {written : Member → Nat → Option γ}
    (run : Run.Kept h.layout ⟨Chain.set x.run.chain h.layout.swaMember pool, written⟩)
    (window : ∀ v, pool.v2p v ≠ none → (h.sa x.run.chain).v2p v ≠ none ∨ v ∈ x.loading)
    (under : ∀ v ∈ loading, v ∈ x.loading ∧ pool.v2p v = none)
    (reserved : (pool.reservedPages h.swa).card ≤ loading.card) :
    h.Kept ⟨⟨Chain.set x.run.chain h.layout.swaMember pool, written⟩, loading⟩ := by
  have full : fa (.set x.run.chain h.layout.swaMember pool) = fa x.run.chain :=
    set_other h.swaMember_ne_high.symm
  have here : h.sa (.set x.run.chain h.layout.swaMember pool) = pool := set_self ..
  refine ⟨run, fun v bound => ?_, fun v mem => ?_, ?_, ?_⟩
  · rw [full]
    rw [here] at bound
    exact (window v bound).elim (kept.window v) fun loading => (kept.loading v loading).1
  · rw [full, here]
    obtain ⟨old, unbound⟩ := under v mem
    exact ⟨(kept.loading v old).1, unbound⟩
  · rwa [here]
  · rw [full]
    exact kept.full

/-- The pages of a load leave the loads and the reservations together. -/
lemma Loaded.card_le (loaded : h.Loaded x virtualPages physicalPages) :
    ((h.sa x.run.chain).reservedPages h.swa \ physicalPages.toFinset).card
      ≤ (x.loading \ virtualPages.toFinset).card := by
  rw [card_sdiff_of_subset fun p mem => loaded.reserved p (List.mem_toFinset.mp mem),
    card_sdiff_of_subset fun v mem => loaded.loading v (List.mem_toFinset.mp mem),
    List.toFinset_card_of_nodup loaded.nodup, List.toFinset_card_of_nodup loaded.nodup', loaded.length]
  exact Nat.sub_le_sub_right kept.reserved _

/-- `set_full_to_swa_mapping` binds the pages of a load. -/
lemma Loaded.bindsForeign (loaded : h.Loaded x virtualPages physicalPages) [Zero γ] :
    Run.BindsForeign h.layout x.run (.bindReserved h.layout.swaMember virtualPages physicalPages) := by
  intro c here
  cases h.swa_here.symm.trans here
  exact ⟨h.swa_foreign, loaded.nodup, fun v mem => (kept.loading v (loaded.loading v mem)).2,
    loaded.length, loaded.nodup', loaded.reserved⟩

omit kept in
lemma setFullToSwaMapping_eq [Zero γ] (length : physicalPages.length = virtualPages.length) :
    h.setFullToSwaMapping s (expandPages h.pageSize virtualPages) (expandPages h.pageSize physicalPages)
      = Run.stepChain h.layout s (.bindReserved h.layout.swaMember virtualPages physicalPages) := by
  have pos : 0 < h.pageSize := h.full.pageSize_pos
  have bound : Run.stepChain h.layout s (.bindReserved h.layout.swaMember virtualPages physicalPages)
      = some (.set s h.layout.swaMember ((h.sa s).bind virtualPages physicalPages)) := by
    rw [Run.stepChain, Run.onPool, h.swa_here]
    rfl
  rw [bound, setFullToSwaMapping, Pool.bind_expandPages pos _ length.symm, Alloc.length_expandPages,
    Alloc.length_expandPages, length, if_pos rfl]
  split
  · rename_i empty
    rw [List.isEmpty_iff_length_eq_zero, Alloc.length_expandPages] at empty
    have noPages := (Nat.mul_eq_zero.mp empty).resolve_right pos.ne'
    obtain rfl := List.length_eq_zero_iff.mp noPages
    obtain rfl := List.length_eq_zero_iff.mp (length.trans noPages)
    exact congrArg some (Function.update_eq_self ..).symm
  · rfl

/-- **`set_full_to_swa_mapping`** of a load. -/
lemma kept_setFullToSwaMapping [Zero γ] (loaded : h.Loaded x virtualPages physicalPages)
    (ran : Run.stepChain h.layout x.run.chain
      (.bindReserved h.layout.swaMember virtualPages physicalPages) = some s) :
    h.Kept ⟨⟨s, Run.forget s x.run.written⟩, x.loading \ virtualPages.toFinset⟩ := by
  have binds := loaded.bindsForeign kept
  have frees : Run.FreesLive h.layout x.run
      (.bindReserved h.layout.swaMember virtualPages physicalPages) := trivial
  have run := kept_forget (stepChain_spec kept.run frees binds ran).1
  obtain ⟨c, here, called⟩ := bind_eq_some_iff.mp ran
  cases h.swa_here.symm.trans here
  cases called
  obtain ⟨B, R, inv⟩ := inv_swa kept.run.good
  obtain ⟨foreign, nodup, unbound, length, nodup', reserved⟩ := binds h.swa h.swa_here
  have bindable : (h.sa x.run.chain).Bindable (x.run.written h.layout.swaMember) virtualPages :=
    ⟨nodup, unbound, fun v mem => kept.run.forgotten _ v (unbound v mem)⟩
  have inv' := inv.bindReserved foreign bindable length nodup' (inv.reserved_eq ▸ reserved)
  have others : ∀ v, v ∉ virtualPages →
      ((h.sa x.run.chain).bind virtualPages physicalPages).v2p v = (h.sa x.run.chain).v2p v :=
    fun v notNew => Lib.scatter_of_not_mem (by rwa [Lib.map_fst_bindings length.ge])
  refine kept_setWindow kept run ?_ ?_ ?_
  · intro v bound
    by_cases new : v ∈ virtualPages
    · exact .inr (loaded.loading v new)
    · exact .inl (others v new ▸ bound)
  · intro v mem
    obtain ⟨loading, notNew⟩ := mem_sdiff.mp mem
    rw [List.mem_toFinset] at notNew
    exact ⟨loading, (others v notNew).trans (kept.loading v loading).2⟩
  · have left := loaded.card_le kept
    rwa [inv.reserved_eq, ← inv'.reserved_eq] at left

omit kept in
lemma swa_makes_holes (lazy : h.full.lazyCompaction = true) :
    h.swa.lazyCompaction = true ∨ h.swa.growDirection = .float := by
  cases mid : h.layout.mid with
  | none => exact .inl ((h.lazy_agrees mid).trans lazy)
  | some c =>
    obtain ⟨-, rfl⟩ := h.swa_eq_mid mid
    exact .inr (h.layout.mid_float _ mid)

omit kept in
lemma Loaded.freesLive [Zero γ] (lazy : h.full.lazyCompaction = true)
    (loaded : h.Loaded x virtualPages physicalPages) : Run.FreesLive h.layout x.run
      (.cancelPhysicalReservation h.layout.swaMember physicalPages) := by
  intro c here
  cases h.swa_here.symm.trans here
  exact ⟨swa_makes_holes lazy, loaded.nodup', loaded.reserved⟩

/-- **`cancel_physical_reservation`** of a load. -/
lemma kept_cancel [Zero γ] {r : Run γ}
    (lazy : h.full.lazyCompaction = true) (loaded : h.Loaded x virtualPages physicalPages)
    (ran : Run.step h.layout x.run
      (.cancelPhysicalReservation h.layout.swaMember physicalPages) = some r) :
    h.Kept ⟨r, x.loading \ virtualPages.toFinset⟩ := by
  have run := kept_step kept.run (loaded.freesLive lazy) trivial ran
  obtain ⟨s, called, rfl⟩ := map_eq_some_iff.mp ran
  obtain ⟨c, here, onWindow⟩ := bind_eq_some_iff.mp called
  obtain ⟨pool, cancelled, rfl⟩ := map_eq_some_iff.mp onWindow
  cases h.swa_here.symm.trans here
  obtain ⟨B, R, inv⟩ := inv_swa kept.run.good
  have held : ∀ p ∈ physicalPages, p ∈ R := inv.reserved_eq ▸ loaded.reserved
  obtain ⟨inv', -, same⟩ := inv.cancelReserved (swa_makes_holes lazy) loaded.nodup' held cancelled
  apply kept_setWindow kept run
  · exact fun v bound => .inl (same ▸ bound)
  · intro v mem
    have loading := (mem_sdiff.mp mem).1
    exact ⟨loading, same ▸ (kept.loading v loading).2⟩
  · have left := loaded.card_le kept
    rwa [inv.reserved_eq, ← inv'.reserved_eq] at left

end

/-- **Every run** of a composite keeps it. -/
lemma kept_inductive [Zero γ] (h : Hybrid) : (h.machine (γ := γ)).Inductive h.Kept where
  start := fun _ start => kept_start start.1 start.2
  step := by
    intro x op x' kept ok ran
    cases op with
    | call op =>
      obtain ⟨r, called, rfl⟩ := map_eq_some_iff.mp ran
      exact kept_call kept ok.1 ok.2.1 ok.2.2 called
    | allocPhysical fired virtualPages =>
      obtain ⟨⟨s, out⟩, called, rfl⟩ := map_eq_some_iff.mp ran
      exact kept_allocPhysical kept ok.2.1 ok.2.2 called
    | setFullToSwaMapping virtualPages physicalPages =>
      obtain ⟨s, called, rfl⟩ := map_eq_some_iff.mp ran
      rw [setFullToSwaMapping_eq ok.length] at called
      exact kept_setFullToSwaMapping kept ok called
    | cancelPhysicalReservation virtualPages physicalPages =>
      obtain ⟨r, called, rfl⟩ := map_eq_some_iff.mp ran
      exact kept_cancel kept ok.1 ok.2 called

lemma reachable_kept [Zero γ] (reached : h.machine.Reachable x) : h.Kept x := (kept_inductive h).reachable reached

/-- **A run of a composite is a run of its chain**, with all that is shown of those. -/
lemma reachable_run [Zero γ] (reached : h.machine.Reachable x) :
    (Run.machine h.layout).Reachable x.run := by
  induction reached with
  | start first => exact .start first.1
  | @step x x' op before ok ran ih =>
    cases op with
    | call op =>
      obtain ⟨r, called, rfl⟩ := map_eq_some_iff.mp ran
      exact ih.step ⟨ok.1, ok.2.1⟩ called
    | allocPhysical fired virtualPages =>
      obtain ⟨⟨s, out⟩, called, rfl⟩ := map_eq_some_iff.mp ran
      refine ih.step (a := .allocPhysical h.layout.swaMember fired (virtualPages.length * h.pageSize))
        ⟨trivial, trivial⟩ ?_
      simp [Run.machine, Run.step, Run.stepChain, called, Run.record]
    | setFullToSwaMapping virtualPages physicalPages =>
      obtain ⟨s, called, rfl⟩ := map_eq_some_iff.mp ran
      rw [setFullToSwaMapping_eq ok.length] at called
      refine ih.step (a := .bindReserved h.layout.swaMember virtualPages physicalPages)
        ⟨trivial, ok.bindsForeign (reachable_kept before)⟩ ?_
      simp [Run.machine, Run.step, called, Run.record]
    | cancelPhysicalReservation virtualPages physicalPages =>
      obtain ⟨r, called, rfl⟩ := map_eq_some_iff.mp ran
      exact ih.step ⟨ok.2.freesLive ok.1, trivial⟩ called

/-! ### The window pool holds no more pages than the full pool -/

/-- As many ids are bound as pages. -/
lemma exists_ids {s : Pool γ} {written : Nat → Option γ} {B R : Finset Nat}
    (inv : s.Inv c written B R) :
    ∃ ids : Finset Nat, ids.card = B.card ∧ ∀ v, v ∈ ids ↔ v ≠ 0 ∧ s.v2p v ≠ none := by
  have entry : ∀ p ∈ B, ∃ v, v ≠ 0 ∧ s.v2p v = some p ∧ (s.p2v p).getD 0 = v := by
    intro p mem
    obtain ⟨v, real, read⟩ := inv.mem_bound_iff.mp mem
    exact ⟨v, real, read, by rw [(inv.mapped.linked.inverse v p).mp read, Option.getD_some]⟩
  refine ⟨B.image fun p => (s.p2v p).getD 0, ?_, fun v => ⟨fun mem => ?_, fun ⟨real, held⟩ => ?_⟩⟩
  · apply card_image_of_injOn
    intro p memP q memQ same
    obtain ⟨v, -, readP, eqP⟩ := entry p memP
    obtain ⟨w, -, readQ, eqQ⟩ := entry q memQ
    obtain rfl : v = w := eqP.symm.trans (same.trans eqQ)
    exact Option.some.inj (readP.symm.trans readQ)
  · obtain ⟨p, memP, rfl⟩ := mem_image.mp mem
    obtain ⟨v, real, read, eq⟩ := entry p memP
    rw [eq]
    exact ⟨real, by simp [read]⟩
  · obtain ⟨p, read⟩ := Option.ne_none_iff_exists'.mp held
    refine mem_image.mpr ⟨p, inv.mem_bound_iff.mpr ⟨v, real, read⟩, ?_⟩
    rw [(inv.mapped.linked.inverse v p).mp read, Option.getD_some]

/-- The pages a pool counts as allocated are the bound and the reserved ones. -/
lemma livePagesOf_eq {s : Pool γ} {H : Finset Nat} (placed : s.Placed c H) :
    livePagesOf c s = H.card := by
  unfold livePagesOf
  split
  · rename_i lazy
    exact placed.count lazy
  rename_i eager
  by_cases float : c.growDirection = .float
  · simp only [Pool.allocatedPages, float]
    exact placed.livePages_eq float
  · rw [Pool.allocatedPages_end float, placed.card, placed.packed (by simpa using eager) float,
      Pool.pendingReusePages, placed.settled (by simpa using eager)]
    simp

/-- **The window is inside.** -/
lemma Kept.live_le (kept : h.Kept x) :
    livePagesOf h.swa (h.sa x.run.chain) ≤ livePagesOf h.full (fa x.run.chain) := by
  obtain ⟨B, R, inv⟩ := inv_full kept.run.good
  obtain ⟨B', R', inv'⟩ := inv_swa kept.run.good
  rw [livePagesOf_eq inv.placed, livePagesOf_eq inv'.placed]
  -- the ids of the bound window pages and of the loads are different ids of the full pool
  obtain ⟨fullIds, fullCount, mem_fullIds⟩ := exists_ids inv
  obtain ⟨ids, count, mem_ids⟩ := exists_ids inv'
  have apart : Disjoint ids x.loading := disjoint_left.mpr fun v mem loading =>
    ((mem_ids v).mp mem).2 (kept.loading v loading).2
  have all : (ids ∪ x.loading).card ≤ B.card := by
    rw [← fullCount]
    refine card_le_card fun v mem => (mem_fullIds v).mpr ?_
    rcases mem_union.mp mem with bound | loading
    · obtain ⟨real, held⟩ := (mem_ids v).mp bound
      exact ⟨real, kept.window v held⟩
    · obtain ⟨held, unbound⟩ := kept.loading v loading
      refine ⟨?_, held⟩
      rintro rfl
      rw [inv'.mapped.sink] at unbound
      cases unbound
  have reserved := kept.reserved
  rw [inv'.reserved_eq] at reserved
  rw [card_union_of_disjoint apart, count] at all
  calc (B' ∪ R').card ≤ B'.card + R'.card := card_union_le _ _
    _ ≤ B'.card + x.loading.card := Nat.add_le_add_left reserved _
    _ ≤ B.card := all
    _ ≤ (B ∪ R).card := card_le_card subset_union_left

/-! ### The composite's own allocations -/

section

variable [Zero γ] {loading : Finset Nat} {s' t : Chain γ} {fired : Nat → Bool}
  {vPages tokens : List Nat} {n w : Nat} {pages : Option (List Nat)}

/-- The chain is in a state of a run in which `loading` are the loads under way. -/
def Reaches (h : Hybrid) (loading : Finset Nat) (s : Chain γ) : Prop :=
  ∃ written, h.machine.Reachable ⟨⟨s, written⟩, loading⟩

lemma Reaches.kept (reaches : h.Reaches loading s) : ∃ written, h.Kept ⟨⟨s, written⟩, loading⟩ :=
  reaches.imp fun _ => reachable_kept

/-- A call on a sub-pool. -/
lemma Reaches.step (reaches : h.Reaches loading s) (op : Run.Op γ)
    (ok : ∀ written, h.Allowed ⟨⟨s, written⟩, loading⟩ (.call op))
    (ran : Run.stepChain h.layout s op = some s') : h.Reaches loading s' := by
  obtain ⟨written, reached⟩ := reaches
  refine ⟨Run.forget s' (Run.record written op), reached.step (a := .call op) (ok written) ?_⟩
  simp only [machine, Hybrid.step, Run.step, ran, Option.map_some]

lemma Reaches.relieved (reaches : h.Reaches loading s) (relieved : Relieved h.layout s s') :
    h.Reaches loading s' := by
  induction relieved with
  | refl => exact reaches
  | @flush t s' m fired moved _ ran ih =>
    exact ih.step (.flush m fired true) (fun _ => ⟨trivial, trivial, rfl, forall_mem_nil _, forall_mem_nil _⟩)
      (map_eq_some_iff.mpr ⟨_, ran, rfl⟩)
  | @makeRoom t s' side minBytes bytes _ ran ih =>
    exact ih.step (.makeRoom side minBytes) (fun _ => ⟨trivial, trivial, rfl, forall_mem_nil _, forall_mem_nil _⟩)
      (map_eq_some_iff.mpr ⟨_, ran, rfl⟩)

/-- **A served allocation**: the window pages are bound under ids that the full pool has just
taken. -/
lemma Reaches.performs (reaches : h.Reaches loading s) (fits : h.Fits s n w)
    (performs : h.Performs s s' n w) : h.Reaches loading s' := by
  obtain ⟨op, t, minted, ran, took, way⟩ := performs
  have ok : ∀ written, h.Allowed ⟨⟨s, written⟩, loading⟩ (.call op) := by
    cases op with
    | alloc | allocExtend | allocDecode => exact fun _ => ⟨trivial, trivial, rfl, forall_mem_nil _, forall_mem_nil _⟩
    | _ => cases minted
  have after := reaches.step op ok ran
  obtain rfl | ⟨vPages, new, priced, bound⟩ := way
  · exact after
  obtain ⟨_, kept⟩ := reaches.kept
  obtain ⟨_, kept'⟩ := after.kept
  obtain ⟨B, R, inv⟩ := inv_full kept.run.good
  obtain ⟨B', R', inv'⟩ := inv_full kept'.run.good
  have fresh : ∀ v ∈ vPages, ((fa t).v2p v ≠ none ∧ v ∉ loading) ∧ (h.sa t).v2p v = none := by
    intro v mem
    have taken := new.subset mem
    obtain ⟨range, unbound⟩ := (inv.mapped.ids_free h.full_owner v).mp (mem_of_mem_take taken)
    refine ⟨⟨fun still => ?_, fun under => (kept.loading v under).1 unbound⟩, ?_⟩
    · have free := (inv'.mapped.ids_free h.full_owner v).mpr ⟨range, still⟩
      rw [took.ids] at free
      exact disjoint_take_drop inv.mapped.ids_nodup le_rfl taken free
    · rw [sa, took.others _ swaMember_ne_high]
      by_contra held
      exact kept.window v held unbound
  refine after.step (.allocWithVirtual h.layout.swaMember vPages)
    (fun _ => ⟨trivial, fun c here => ?_, rfl, forall_mem_nil _, fun v mem => ?_⟩) bound
  · cases h.swa_here.symm.trans here
    refine ⟨h.swa_foreign, (inv.mapped.ids_nodup.sublist (take_sublist _ _)).sublist new,
      fun v mem => (fresh v mem).2, ?_⟩
    exact Nat.mul_le_mul_right _ (took.room fits priced)
  · rw [boundBy, if_pos rfl] at mem
    exact (fresh v mem).1

/-- A partly filled last page stays bound. -/
lemma Call.Valid.relieved {call : Call} (valid : call.Valid h s)
    (reaches : h.Reaches loading s) (relieved : Relieved h.layout s t) : call.Valid h t := by
  cases call with
  | allocExtendSwaTail row swaTailLen =>
    obtain ⟨inside, aligned, held⟩ := valid
    obtain ⟨_, kept⟩ := reaches.kept
    refine ⟨inside, aligned, fun partly => ?_⟩
    have bound := held partly
    rw [Option.isSome_iff_ne_none] at bound ⊢
    exact ((relieved.rests kept.run.good).steady .high h.full full_here).kept _ List.not_mem_nil bound
  | _ => exact valid

/-- **Every allocation** of the composite, served or not, is a run of its machine. -/
lemma Reaches.call {call : Call} {out : Option (List Nat)} (reaches : h.Reaches loading s)
    (valid : call.Valid h s) (ran : call.run h fired s = some (s', out)) : h.Reaches loading s' := by
  obtain ⟨t, relieved, rfl | ⟨covers, again⟩⟩ := run_ensured valid ran
  · exact reaches.relieved relieved
  · have after := reaches.relieved relieved
    obtain ⟨_, kept⟩ := after.kept
    obtain ⟨s'', out', served, performs⟩ :=
      run_succeeds fired kept.run.good (valid.relieved reaches relieved) covers
    cases again.symm.trans served
    exact after.performs (covers.fits kept.run.good) performs

/-- **The promise of `ensure_capacity` over the runs of the composite**: what it covers is
allocated, and the run goes on. -/
lemma Reaches.allocates {call : Call} {fired' : Nat → Bool} {f : Nat}
    (reaches : h.Reaches loading s) (ensured : h.ensureCapacity fired s f w = some (t, true))
    (valid : call.Valid h t) (full : call.fullPages h ≤ pagesFor h.pageSize f)
    (window : call.swaPages h ≤ pagesFor h.pageSize w) :
    ∃ s' out, call.run h fired' t = some (s', some out) ∧ h.Reaches loading s' := by
  obtain ⟨relieved, covers⟩ := ensureCapacity_spec ensured
  have after := reaches.relieved relieved
  obtain ⟨_, kept⟩ := after.kept
  obtain ⟨s', out, ran, -⟩ :=
    run_succeeds fired' kept.run.good valid ((covers rfl).mono full window)
  exact ⟨s', out, ran, after.call valid ran⟩

/-! ### The composite's own frees -/

/-- `free` of a sub-pool, with the pages given or not. -/
def freeOp (m : Member) (tokens : List Nat) : Option (List Nat) → Run.Op γ
  | none => .free m tokens
  | some pages => .freePages m tokens pages

/-- Pages of one sub-pool are freed, and no load's. -/
lemma Reaches.release {m : Member} {pool : Pool γ} (reaches : h.Reaches loading s)
    (here : c ∈ h.layout.pool m) (closed : (s m).freeGroup = none)
    (freeable : (s m).Freeable c (Pool.freedPages c tokens pages))
    (apart : m = .high → ∀ v ∈ Pool.freedPages c tokens pages,
      (h.sa s).v2p v = none ∧ v ∉ loading)
    (ran : (s m).free c tokens pages = some pool) : h.Reaches loading (.set s m pool) := by
  have freed : ∀ v ∈ Run.freedBy h.layout s (freeOp m tokens pages) .high,
      (h.sa s).v2p v = none ∧ v ∉ loading := by
    intro v mem
    cases pages with
    | none | some =>
      simp only [freeOp, freedBy] at mem
      split at mem
      · rename_i high
        subst high
        cases here
        exact apart rfl v mem
      · cases mem
  refine reaches.step (freeOp m tokens pages) (fun _ => ?_) ?_
  · cases pages with
    | none =>
      refine ⟨fun c' here' => ?_, trivial, rfl, freed, forall_mem_nil _⟩
      cases here.symm.trans here'
      exact freeable
    | some =>
      refine ⟨fun c' here' => ?_, trivial, rfl, freed, forall_mem_nil _⟩
      cases here.symm.trans here'
      exact ⟨closed, freeable⟩
  · have called : Run.stepChain h.layout s (freeOp m tokens pages)
        = Run.onPool h.layout s m fun c pool => pool.free c tokens pages := by
      cases pages <;> rfl
    rw [called, Run.onPool, show h.layout.pool m = some c from here, Option.bind_some, ran]
    rfl

/-- **The window pages first**: they are unbound then, and the full pool is as it was. -/
lemma Reaches.releaseWindow (reaches : h.Reaches loading s) (closed : (h.sa s).freeGroup = none)
    (freeable : (h.sa s).Freeable h.swa (Pool.freedPages h.swa tokens pages))
    (ran : h.releaseWindow s tokens pages = some s') :
    h.Reaches loading s' ∧ fa s' = fa s ∧
      (∀ v, (h.sa s).v2p v = none → (h.sa s').v2p v = none) ∧
      (tokens ≠ [] → ∀ v ∈ Pool.freedPages h.swa tokens pages, (h.sa s').v2p v = none) := by
  obtain ⟨pool, released, rfl⟩ := map_eq_some_iff.mp ran
  obtain ⟨_, kept⟩ := reaches.kept
  obtain ⟨B, R, inv⟩ := inv_swa kept.run.good
  obtain ⟨⟨-, unbinds⟩, -, gone⟩ := inv.freeNow closed freeable released
  have here : h.sa (.set s h.layout.swaMember pool) = pool := set_self ..
  rw [here]
  refine ⟨reaches.release h.swa_here closed freeable (fun high => ?_) released,
    set_other swaMember_ne_high.symm, fun v => unbinds.unbound inv, gone⟩
  exact absurd high swaMember_ne_high

/-- **And then the full pages.** -/
lemma Reaches.releaseFull (reaches : h.Reaches loading s) (closed : (fa s).freeGroup = none)
    (freeable : (fa s).Freeable h.full (Pool.freedPages h.full tokens pages))
    (apart : ∀ v ∈ Pool.freedPages h.full tokens pages, (h.sa s).v2p v = none ∧ v ∉ loading)
    (ran : h.releaseFull s tokens pages = some s') : h.Reaches loading s' := by
  obtain ⟨pool, released, rfl⟩ := map_eq_some_iff.mp ran
  exact reaches.release full_here closed freeable (fun _ => apart) released

/-- The composite's frees. A group's end makes these calls for what it has queued. -/
inductive FreeCall where
  | free (freeIndex : List Nat)
  | freeSwa (freeIndex : List Nat)
  | freeFull (freeIndex : List Nat)
  | freeSwaSegment (freeIndex : List Nat) (startPos : Nat)
  | freeSegment (freeIndex : List Nat) (startPos : Nat)
  | freeFullSegment (freeIndex : List Nat) (startPos : Nat)

namespace FreeCall

def run (h : Hybrid) (s : Chain γ) : FreeCall → Option (Chain γ)
  | free freeIndex => h.free s freeIndex
  | freeSwa freeIndex => h.freeSwa s freeIndex
  | freeFull freeIndex => h.freeFull s freeIndex
  | freeSwaSegment freeIndex startPos => h.freeSwaSegment s freeIndex startPos
  | freeSegment freeIndex startPos => h.freeSegment s freeIndex startPos
  | freeFullSegment freeIndex startPos => h.freeFullSegment s freeIndex startPos

/-- A page of the full pool that no load is for. -/
def Held (loading : Finset Nat) (s : Chain γ) (v : Nat) : Prop :=
  v ≠ 0 ∧ (fa s).v2p v ≠ none ∧ v ∉ loading

/-- The pages of a segment. -/
def segment (h : Hybrid) (freeIndex : List Nat) : List Nat :=
  pagesOf h.pageSize (Alloc.Paged.representatives h.pageSize freeIndex)

/-- What the callers of a free see to: distinct tokens or pages that are held, bound in the
window pool where the call takes that for granted, and not where it leaves that pool alone. -/
def Valid (h : Hybrid) (loading : Finset Nat) (s : Chain γ) : FreeCall → Prop
  | free freeIndex => freeIndex.Nodup ∧ ∀ v ∈ pagesOf h.pageSize freeIndex, Held loading s v
  | freeSwa freeIndex => freeIndex.Nodup
  | freeFull freeIndex => freeIndex.Nodup ∧ ∀ v ∈ pagesOf h.pageSize freeIndex,
      Held loading s v ∧ (h.sa s).v2p v = none
  | freeSwaSegment freeIndex _ => (segment h freeIndex).Nodup ∧
      ∀ v ∈ segment h freeIndex, v ≠ 0 ∧ (h.sa s).v2p v ≠ none
  | freeSegment freeIndex _ => (segment h freeIndex).Nodup ∧
      ∀ v ∈ segment h freeIndex, Held loading s v ∧ (h.sa s).v2p v ≠ none
  | freeFullSegment freeIndex _ => (segment h freeIndex).Nodup ∧
      ∀ v ∈ segment h freeIndex, Held loading s v ∧ (h.sa s).v2p v = none

end FreeCall

omit [Zero γ] in
/-- What may be freed outside a group. -/
lemma freeable_closed {pool : Pool γ} {written : Nat → Option γ} {B R : Finset Nat}
    (inv : pool.Inv c written B R) (closed : pool.freeGroup = none) (nodup : vPages.Nodup)
    (live : ∀ v ∈ vPages, v ≠ 0 ∧ pool.v2p v ≠ none) : pool.Freeable c vPages := by
  refine ⟨nodup, fun v mem => ?_, by simp [inv.mapped.queuedPages_nil closed]⟩
  exact (live v mem).imp_right ne_none_iff_exists'.mp

lemma nodup_freedPages (nodup : tokens.Nodup) : (Pool.freedPages c tokens none).Nodup := by
  unfold Pool.freedPages
  rw [Option.getD_none]
  split
  · exact nodup
  · exact Alloc.nodup_unique _

omit [Zero γ] in
/-- The pages of the live tokens are the pages among these that the window pool binds. -/
lemma mem_liveTokens {written : Nat → Option γ} {B R : Finset Nat} {v : Nat}
    (inv : (h.sa s).Inv h.swa written B R) :
    v ∈ pagesOf h.pageSize (h.liveTokens s tokens) ↔
      v ∈ pagesOf h.pageSize tokens ∧ v ≠ 0 ∧ (h.sa s).v2p v ≠ none := by
  have bound : ((h.sa s).v2p v).any (0 < ·) = true ↔ v ≠ 0 ∧ (h.sa s).v2p v ≠ none := by
    cases read : (h.sa s).v2p v with
    | none => simp
    | some p =>
      simp only [Option.any_some, decide_eq_true_eq, ne_eq, reduceCtorEq, not_false_eq_true, and_true,
        Nat.pos_iff_ne_zero]
      refine not_congr ⟨?_, ?_⟩
      · rintro rfl
        exact inv.mapped.linked.injective read inv.mapped.sink
      · rintro rfl
        exact Option.some.inj (read.symm.trans inv.mapped.sink)
  rw [← bound]
  simp only [pagesOf, liveTokens, mem_map, mem_filter]
  constructor
  · rintro ⟨token, ⟨mem, live⟩, rfl⟩
    exact ⟨⟨token, mem, rfl⟩, live⟩
  · rintro ⟨⟨token, mem, rfl⟩, live⟩
    exact ⟨token, ⟨mem, live⟩, rfl⟩

/-- The frees of both pools, one after the other. -/
lemma Reaches.releaseBoth {more : List Nat} {pages' : Option (List Nat)}
    (reaches : h.Reaches loading s) (closed : (fa s).freeGroup = none)
    (closed' : (h.sa s).freeGroup = none)
    (window : (h.sa s).Freeable h.swa (Pool.freedPages h.swa tokens pages))
    (full : (fa s).Freeable h.full (Pool.freedPages h.full more pages'))
    (apart : ∀ v ∈ Pool.freedPages h.full more pages', v ∉ loading ∧
      ((h.sa s).v2p v = none ∨ tokens ≠ [] ∧ v ∈ Pool.freedPages h.swa tokens pages))
    (ran : (h.releaseWindow s tokens pages).bind (fun s => h.releaseFull s more pages') = some s') :
    h.Reaches loading s' := by
  obtain ⟨t, first, second⟩ := bind_eq_some_iff.mp ran
  obtain ⟨after, same, others, gone⟩ := reaches.releaseWindow closed' window first
  refine after.releaseFull (same ▸ closed) (same ▸ full) (fun v mem => ?_) second
  obtain ⟨idle, unbound | ⟨more, freed⟩⟩ := apart v mem
  · exact ⟨others v unbound, idle⟩
  · exact ⟨gone more v freed, idle⟩

omit [Zero γ] in
/-- An empty segment is nothing, and any other starts at a page. -/
lemma segment_cases {startPos : Nat} {call : List Nat → Option (Chain γ)}
    (ran : (if tokens.isEmpty then some s else (h.pageReps tokens startPos).bind call) = some s') :
    s' = s ∨ call (Alloc.Paged.representatives h.pageSize tokens) = some s' := by
  split at ran
  · exact .inl (Option.some.inj ran).symm
  · obtain ⟨reps, found, called⟩ := bind_eq_some_iff.mp ran
    unfold pageReps at found
    split at found
    · cases found
      exact .inr called
    · cases found

/-- **Every free** of the composite outside a group is a run of its machine. -/
lemma Reaches.free {call : FreeCall} (reaches : h.Reaches loading s)
    (closed : (fa s).freeGroup = none) (closed' : (h.sa s).freeGroup = none)
    (valid : call.Valid h loading s) (ran : call.run h s = some s') : h.Reaches loading s' := by
  obtain ⟨_, kept⟩ := reaches.kept
  obtain ⟨B, R, inv⟩ := inv_full kept.run.good
  obtain ⟨B', R', inv'⟩ := inv_swa kept.run.good
  have pageSize : h.swa.pageSize = h.pageSize := h.same_page
  cases call with
  | free freeIndex =>
    obtain ⟨nodup, held⟩ := valid
    have live : ∀ v, v ∈ Pool.freedPages h.swa (h.liveTokens s freeIndex) none ↔
        v ∈ pagesOf h.pageSize freeIndex ∧ v ≠ 0 ∧ (h.sa s).v2p v ≠ none := fun v => by
      rw [Pool.mem_freedPages, pageSize, mem_liveTokens inv']
    refine reaches.releaseBoth closed closed' ?_ ?_ (fun v mem => ?_) ran
    · exact freeable_closed inv' closed' (nodup_freedPages (nodup.filter _)) fun v mem =>
        ((live v).mp mem).2
    · refine freeable_closed inv closed (nodup_freedPages nodup) fun v mem => ?_
      exact (held v (Pool.mem_freedPages.mp mem)).imp_right And.left
    · have page := Pool.mem_freedPages.mp mem
      obtain ⟨real, -, idle⟩ := held v page
      refine ⟨idle, or_iff_not_imp_left.mpr fun bound => ?_⟩
      have freed := (live v).mpr ⟨page, real, bound⟩
      refine ⟨fun zero => ?_, freed⟩
      rw [zero, Pool.mem_freedPages] at freed
      cases freed
  | freeSwa freeIndex =>
    have live : ∀ v ∈ pagesOf h.pageSize (h.liveTokens s freeIndex), v ≠ 0 ∧ (h.sa s).v2p v ≠ none :=
      fun v mem => ((mem_liveTokens inv').mp mem).2
    have nodup : (h.liveTokens s freeIndex).Nodup := valid.filter _
    refine (reaches.releaseWindow closed' (freeable_closed inv' closed' ?_ fun v mem => ?_) ran).1
    · split
      · exact nodup
      · exact nodup_freedPages nodup
    · apply live v
      split at mem
      · rename_i single
        rw [single, pagesOf]
        exact mem_map.mpr ⟨v, mem, Nat.div_one v⟩
      · rwa [← pageSize, ← Pool.mem_freedPages]
  | freeFull freeIndex =>
    refine reaches.releaseFull closed ?_ (fun v mem => ?_) ran
    · refine freeable_closed inv closed (nodup_freedPages valid.1) fun v mem => ?_
      exact (valid.2 v (Pool.mem_freedPages.mp mem)).1.imp_right And.left
    · obtain ⟨⟨-, -, idle⟩, unbound⟩ := valid.2 v (Pool.mem_freedPages.mp mem)
      exact ⟨unbound, idle⟩
  | freeSwaSegment freeIndex startPos =>
    rcases segment_cases ran with rfl | released
    · exact reaches
    · refine (reaches.releaseWindow closed' ?_ released).1
      exact freeable_closed inv' closed' valid.1 valid.2
  | freeSegment freeIndex startPos =>
    rcases segment_cases ran with rfl | released
    · exact reaches
    rw [releasePageReps, flatten_singleton, append_nil, flatten_singleton] at released
    refine reaches.releaseBoth closed closed' ?_ ?_ (fun v mem => ?_) released
    · exact freeable_closed inv' closed' valid.1 fun v mem => ⟨(valid.2 v mem).1.1, (valid.2 v mem).2⟩
    · exact freeable_closed inv closed valid.1 fun v mem => (valid.2 v mem).1.imp_right And.left
    · refine ⟨(valid.2 v mem).1.2.2, .inr ⟨?_, mem⟩⟩
      rintro empty
      rw [empty] at mem
      cases mem
  | freeFullSegment freeIndex startPos =>
    rcases segment_cases ran with rfl | released
    · exact reaches
    rw [releasePageReps, nil_append, flatten_singleton] at released
    refine reaches.releaseBoth closed closed' ?_ ?_ (fun v mem => ?_) released
    · exact freeable_closed inv' closed' nodup_nil (forall_mem_nil _)
    · exact freeable_closed inv closed valid.1 fun v mem => (valid.2 v mem).1.imp_right And.left
    · exact ⟨(valid.2 v mem).1.2.2, .inl (valid.2 v mem).2⟩

end

end Hybrid

end Sglang.Unified
