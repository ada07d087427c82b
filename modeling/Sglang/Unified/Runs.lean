/-
# Runs of a chain of sub-pools

* `Chain.Ordered` — the bands of the members lie in the order of the chain; an empty float
  is not in the way of anybody.
* `Chain.Good` — every member keeps `Pool.Inv`, and the chain is ordered. Every operation
  of the chain keeps this (`Run.kept_inductive`).
* `Run.Safe` and `Run.reachable_safe` — no two bands and no two live pages share a byte,
  the tables are inverse to each other and the virtual ids are partitioned.
* `Run.reachable_reads` — what is read through `v2p` is what was written last, however
  often the page was moved.
-/

import Sglang.Unified.Loads

namespace Sglang.Unified

open List Pool
open Nat (mul_le_mul_right zero_le)
open Option (bind_eq_some_iff filter_eq_none_iff filter_eq_some_iff map_eq_some_iff)

open Function (update_of_ne update_self update)
open Sglang.Alloc (pagesFor ExtendRow DecodeRow expandPages)

namespace Chain

variable {γ : Type} {l : Layout} {s s' : Chain γ} {m m' : Member} {c : SubPool}

variable (l) in
/-- The bands of the members do not overlap, from the lowest byte to the highest. -/
structure Ordered (s : Chain γ) : Prop where
  ends : (s .low).byteHighFrontier l.low ≤ (s .high).byteLowFrontier l.high
  mid : ∀ c ∈ l.mid, (s .mid).isFrontierTransparent c = false →
    (s .low).byteHighFrontier l.low ≤ (s .mid).byteLowFrontier c ∧
      (s .mid).byteHighFrontier c ≤ (s .high).byteLowFrontier l.high

variable (l) in
/-- Every member keeps its invariant, and the members are in order. -/
structure Good (s : Chain γ) (written : Member → Nat → Option γ) : Prop where
  inv : ∀ m, ∀ c ∈ l.pool m, ∃ B R, (s m).Inv c (written m) B R
  ordered : Ordered l s

variable {written : Member → Nat → Option γ}

lemma opaqueMid_eq_some (h : opaqueMid l s = some c) :
    l.mid = some c ∧ (s .mid).isFrontierTransparent c = false := by
  obtain ⟨mid, isOpaque⟩ := filter_eq_some_iff.mp h
  exact ⟨mid, by simpa using isOpaque⟩

lemma opaqueMid_eq_none (h : opaqueMid l s = none) (mid : c ∈ l.mid) :
    (s .mid).isFrontierTransparent c = true := by
  simpa using filter_eq_none_iff.mp h c mid

/-- The band of a member that is seen lies between the frontiers it sees. -/
lemma Ordered.within (ordered : Ordered l s) (pool : c ∈ l.pool m)
    (isOpaque : (s m).isFrontierTransparent c = false) : (s m).Within c (bounds l s m) := by
  cases m with
  | low =>
    cases pool
    refine ⟨zero_le _, ?_⟩
    simp only [bounds, lowFrontierAbove]
    split
    · rename_i c seen
      obtain ⟨mid, midOpaque⟩ := opaqueMid_eq_some seen
      exact (ordered.mid c mid midOpaque).1
    · exact ordered.ends
  | mid => exact ordered.mid c pool isOpaque
  | high =>
    cases pool
    constructor
    · simp only [bounds, highFrontierBelow]
      split
      · rename_i c seen
        obtain ⟨mid, midOpaque⟩ := opaqueMid_eq_some seen
        exact (ordered.mid c mid midOpaque).2
      · exact ordered.ends
    · simp only [bounds, lowFrontierAbove, byteHighFrontier, l.high_down]
      rw [← l.same_buffer.1]
      exact l.high.num_mul_le

/-- The float's own band is in order. -/
lemma Good.mid_ordered (good : Good l s written) (mid : c ∈ l.mid) :
    (s .mid).byteLowFrontier c ≤ (s .mid).byteHighFrontier c := by
  obtain ⟨B, R, inv⟩ := good.inv .mid c mid
  rw [byteLowFrontier_eq, byteHighFrontier_eq]
  exact mul_le_mul_right _ inv.placed.ordered

variable {pool : Pool γ} {n needTokens needSize minBytes : Nat} {t : Chain γ}

lemma set_other (other : m' ≠ m) : Chain.set s m pool m' = s m' :=
  update_of_ne other _ _

lemma set_self (s : Chain γ) (m : Member) (pool : Pool γ) : Chain.set s m pool m = pool :=
  update_self ..

variable (l) in
/-- Pages may move, but every virtual page is bound as it was and the reservations stay. -/
def Steady (s s' : Chain γ) : Prop := ∀ m, ∀ c ∈ l.pool m, Pool.Effect c (s m) (s' m) [] []

lemma Steady.refl (s : Chain γ) : Steady l s s := fun _ _ _ => .refl _

lemma Steady.trans (one : Steady l s t) (two : Steady l t s') : Steady l s s' :=
  fun m c here => (one m c here).trans (two m c here)

/-- The effect of a call on one member. -/
lemma effect_set {f b : Member → List Nat} (here : c ∈ l.pool m)
    (effect : Pool.Effect c (s m) pool (f m) (b m)) (m' : Member) (c' : SubPool)
    (here' : c' ∈ l.pool m') : Pool.Effect c' (s m') (Chain.set s m pool m') (f m') (b m') := by
  by_cases same : m' = m
  · subst same
    cases here.symm.trans here'
    rwa [set_self]
  · rw [set_other same]
    exact .refl _

/-- One member has moved pages, and bound and unbound nothing. -/
def Moved (l : Layout) (written : Member → Nat → Option γ) (s s' : Chain γ) : Prop :=
  ∃ m, ∃ c ∈ l.pool m, ∃ pool B B' R, s' = Chain.set s m pool ∧ (s m).Inv c (written m) B R ∧
    pool.Inv c (written m) B' R ∧ Pool.Unbinds (s m) pool []

lemma Moved.steady (moved : Moved l written s s') : Steady l s s' := by
  obtain ⟨m, c, here, pool, B, B', R, rfl, inv, inv', unbinds⟩ := moved
  exact effect_set here (.of_unbinds inv inv' unbinds)

/-- The chain is good and stays good, and pages have moved at most. -/
inductive Rests (l : Layout) (written : Member → Nat → Option γ) (s : Chain γ) : Chain γ → Prop
  | refl (good : Good l s written) : Rests l written s s
  | tail {t s' : Chain γ} (rests : Rests l written s t) (moved : Moved l written t s')
      (good : Good l s' written) : Rests l written s s'

lemma Rests.good : Rests l written s s' → Good l s' written
  | .refl good | .tail _ _ good => good

lemma Rests.steady (rests : Rests l written s s') : Steady l s s' := by
  induction rests with
  | refl good => exact .refl s
  | tail rests moved good ih => exact ih.trans moved.steady

lemma Rests.trans (one : Rests l written s t) (two : Rests l written t s') : Rests l written s s' := by
  induction two with
  | refl good => exact one
  | tail rests moved good ih => exact ih.tail moved good

section

variable (good : Good l s written) {side : Pool.Side}
include good

section

variable (here : c ∈ l.pool m)
include here

/-- A member may change as it likes between the frontiers it sees. -/
lemma Good.ordered_set
    (within : pool.isFrontierTransparent c = false → pool.Within c (bounds l s m)) :
    Ordered l (Chain.set s m pool) := by
  cases m with
  | low =>
    cases here
    have above := (within (isOpaque_of_ends (by simp [l.low_up]))).2
    simp only [bounds, lowFrontierAbove] at above
    cases seen : opaqueMid l s with
    | some c =>
      obtain ⟨mid, isOpaque⟩ := opaqueMid_eq_some seen
      obtain ⟨-, midHigh⟩ := good.ordered.mid c mid isOpaque
      rw [seen] at above
      refine ⟨above.trans ((good.mid_ordered mid).trans midHigh), fun c' mid' isOpaque' => ?_⟩
      cases mid.symm.trans mid'
      exact ⟨above, midHigh⟩
    | none =>
      rw [seen] at above
      refine ⟨above, fun c mid isOpaque => ?_⟩
      exact absurd ((opaqueMid_eq_none seen mid).symm.trans isOpaque) (by simp)
  | mid =>
    refine ⟨good.ordered.ends, fun c' mid' isOpaque => ?_⟩
    cases here.symm.trans mid'
    exact within isOpaque
  | high =>
    cases here
    have below := (within (isOpaque_of_ends (by simp [l.high_down]))).1
    simp only [bounds, highFrontierBelow] at below
    cases seen : opaqueMid l s with
    | some c =>
      obtain ⟨mid, isOpaque⟩ := opaqueMid_eq_some seen
      obtain ⟨midLow, -⟩ := good.ordered.mid c mid isOpaque
      rw [seen] at below
      refine ⟨(midLow.trans (good.mid_ordered mid)).trans below, fun c' mid' isOpaque' => ?_⟩
      cases mid.symm.trans mid'
      exact ⟨midLow, below⟩
    | none =>
      rw [seen] at below
      refine ⟨below, fun c mid isOpaque => ?_⟩
      exact absurd ((opaqueMid_eq_none seen mid).symm.trans isOpaque) (by simp)

/-- **One member at a time.** -/
lemma Good.set (inv : ∃ B R, pool.Inv c (written m) B R)
    (within : pool.isFrontierTransparent c = false → pool.Within c (bounds l s m)) :
    Good l (Chain.set s m pool) written := by
  refine ⟨fun m' c' pool' => ?_, good.ordered_set here within⟩
  by_cases same : m' = m
  · subst same
    cases here.symm.trans pool'
    rwa [set_self]
  · rw [set_other same]
    exact good.inv m' c' pool'

/-- A member that only gives up pages. -/
lemma Good.shrink {R : Finset Nat}
    (inv : (∃ B, pool.Inv c (written m) B R) ∧ Pool.Shrunk c (s m) pool) :
    Good l (Chain.set s m pool) written := by
  obtain ⟨⟨B, kept⟩, shrunk⟩ := inv
  apply good.set here ⟨B, R, kept⟩
  intro isOpaque
  exact (good.ordered.within here (shrunk isOpaque).1).shrunk shrunk isOpaque

/-- Pages of one member have moved. -/
lemma Good.rests_set {B R : Finset Nat} (inv : (s m).Inv c (written m) B R)
    (inv' : ∃ B', pool.Inv c (written m) B' R) (unbinds : Pool.Unbinds (s m) pool [])
    (good' : Good l (Chain.set s m pool) written) : Rests l written s (Chain.set s m pool) := by
  obtain ⟨B', inv'⟩ := inv'
  exact .tail (.refl good) ⟨m, c, here, pool, B, B', R, rfl, inv, inv', unbinds⟩ good'

end

/-- `_flush` of one member. -/
lemma Good.flush {fired : Nat → Bool} {urgent : Bool}
    (ran : Chain.flush l fired urgent s m = some (s', n)) :
    Rests l written s s' ∧ ∀ m', m' ≠ m → s' m' = s m' := by
  obtain ⟨c, here, called⟩ := bind_eq_some_iff.mp ran
  obtain ⟨⟨pool, moved⟩, flushed, result⟩ := map_eq_some_iff.mp called
  cases result
  obtain ⟨B, R, inv⟩ := good.inv m c here
  obtain ⟨kept, unbinds⟩ := inv.flush flushed
  exact ⟨good.rests_set here inv kept.1 unbinds (good.shrink here kept), fun m' => set_other⟩

/-- `make_room` of the float. -/
lemma Good.makeRoom (ran : Chain.makeRoom l side minBytes s = some (s', n)) :
    Rests l written s s' ∧ ∀ m', m' ≠ .mid → s' m' = s m' := by
  obtain ⟨c, here, called⟩ := bind_eq_some_iff.mp ran
  obtain ⟨⟨pool, bytes⟩, opened, result⟩ := map_eq_some_iff.mp called
  cases result
  obtain ⟨B, R, inv⟩ := good.inv .mid c here
  obtain ⟨t, k, ran, ⟨⟨B', inv'⟩, unbinds, within⟩, -⟩ :=
    inv.makeRoom_delivers side minBytes (l.mid_float c here) (good.ordered.within here)
  cases ran.symm.trans opened
  exact ⟨good.rests_set here inv ⟨B', inv'⟩ unbinds (good.set here ⟨B', R, inv'⟩ within),
    fun m' => set_other⟩

/-- `compact_holes` of the float. -/
lemma Good.compactHoles
    (ran : Chain.compactHoles l side s = some (s', n)) : Rests l written s s' := by
  obtain ⟨c, here, called⟩ := bind_eq_some_iff.mp ran
  obtain ⟨⟨pool, moved⟩, compacted, result⟩ := map_eq_some_iff.mp called
  cases result
  obtain ⟨B, R, inv⟩ := good.inv .mid c here
  obtain ⟨kept, unbinds⟩ := inv.compactHoles (l.mid_float c here) compacted
  exact good.rests_set here inv kept.1 unbinds (good.shrink here kept)

/-! ### The gate in front of an allocation -/

lemma Good.floatOpenShortSide {demand : Demand}
    (ran : Chain.floatOpenShortSide l s demand = some s') :
    Rests l written s s' ∧ ∀ m, m ≠ .mid → s' m = s m := by
  unfold Chain.floatOpenShortSide at ran
  split at ran
  · cases ran
    exact ⟨.refl good, fun _ _ => rfl⟩
  · obtain ⟨⟨t, bytes⟩, opened, rfl⟩ := map_eq_some_iff.mp ran
    exact good.makeRoom opened

end

lemma growthSideNeighbor_ne (neighbor : Member) (h : growthSideNeighbor l s m = some neighbor) :
    neighbor ≠ m := by
  rintro rfl
  cases neighbor <;> simp only [growthSideNeighbor] at h <;> first | cases h | (split at h <;> cases h)

/-- Asking the float for room changes nothing but the float. -/
lemma Good.askFloatForRoom (good : Good l s written)
    (ran : Chain.askFloatForRoom l c s m needTokens = some s') :
    Rests l written s s' ∧ s' m = s m := by
  unfold Chain.askFloatForRoom at ran
  split at ran
  · rename_i neighbor
    obtain ⟨rests, others⟩ := good.floatOpenShortSide ran
    exact ⟨rests, others m (growthSideNeighbor_ne _ neighbor).symm⟩
  · cases ran
    exact ⟨.refl good, rfl⟩

/-- The ladder relieves the neighbours and leaves the asking member alone. -/
lemma Good.ensureAvailable {fired : Nat → Bool} {fits : Bool} (good : Good l s written)
    (ran : Chain.ensureAvailable l fired c s m needTokens = some (s', fits)) :
    Rests l written s s' ∧ s' m = s m ∧ (fits = true → needTokens ≤ Chain.availableSize l c s' m) := by
  unfold Chain.ensureAvailable at ran
  split at ran
  · rename_i room
    cases ran
    exact ⟨.refl good, rfl, fun _ => room⟩
  obtain ⟨t, flushed, rest⟩ := bind_eq_some_iff.mp ran
  obtain ⟨rests, same⟩ : Rests l written s t ∧ t m = s m := by
    split at flushed
    · cases flushed
      exact ⟨.refl good, rfl⟩
    · rename_i neighbor found
      obtain ⟨⟨t', n⟩, passed, rfl⟩ := map_eq_some_iff.mp flushed
      exact (good.flush passed).imp_right fun others => others m (growthSideNeighbor_ne _ found).symm
  split at rest
  · rename_i room
    cases rest
    exact ⟨rests, same, fun _ => room⟩
  · obtain ⟨u, asked, result⟩ := map_eq_some_iff.mp rest
    cases result
    obtain ⟨rests', same'⟩ := rests.good.askFloatForRoom asked
    exact ⟨rests.trans rests', same'.trans same, of_decide_eq_true⟩

/-! ### Allocating -/

variable [Zero γ] {out : Option (List Nat)} {fired : Nat → Bool} {vPages : List Nat}

omit [Zero γ] in
/-- The free ids of a pool, split where an allocation takes them. -/
lemma idsAfter_take {B : Finset Nat} {stored : Nat → Option γ} (n : Nat)
    (mapped : pool.Mapped c B stored) :
    pool.IdsAfter c (pool.freeVirtualIds.take n) (pool.freeVirtualIds.drop n) := by
  have nodup := mapped.ids_nodup
  rw [← List.take_append_drop n pool.freeVirtualIds, List.nodup_append] at nodup
  refine ⟨nodup.2.1, fun owner v => ?_, fun owner v mem => ?_⟩
  · have parts : v ∈ pool.freeVirtualIds ↔
        v ∈ pool.freeVirtualIds.take n ∨ v ∈ pool.freeVirtualIds.drop n := by
      rw [← List.mem_append, List.take_append_drop]
    rw [parts]
    have apart := nodup.2.2 v
    constructor
    · exact fun later => ⟨.inr later, fun earlier => apart earlier v later rfl⟩
    · rintro ⟨earlier | later, notTaken⟩
      · exact absurd earlier notTaken
      · exact later
  · exact ((mapped.ids_free owner v).mp (List.mem_of_mem_take mem)).1

/-- Taking free ids unbinds nothing and binds nothing in a pool without ids. -/
lemma Good.bindFreeIds (good : Good l s written) (here : c ∈ l.pool m)
    (owner : c.isIdOwner = true) (forgotten : ∀ v, (s m).v2p v = none → written m v = none)
    (fits : n ≤ (s m).availablePages c (bounds l s m))
    (ran : Chain.bindFreeIds l c s m n = some (s', vPages)) : Good l s' written ∧ Steady l s s' := by
  obtain ⟨B, R, inv⟩ := good.inv m c here
  obtain ⟨⟨pool, pages⟩, allocated, result⟩ := map_eq_some_iff.mp ran
  cases result
  have taken : ∀ v ∈ (s m).freeVirtualIds.take n, (s m).v2p v = none := fun v mem =>
    ((inv.mapped.ids_free owner v).mp (mem_of_mem_take mem)).2
  have bindable : (s m).Bindable (written m) ((s m).freeVirtualIds.take n) :=
    ⟨inv.mapped.ids_nodup.sublist (take_sublist ..), taken, fun v mem => forgotten v (taken v mem)⟩
  obtain ⟨kept, within, ids, others, new⟩ := inv.allocBind (good.ordered.within here)
    ((length_take_le ..).trans fits) bindable (idsAfter_take n inv.mapped) allocated
  rw [ids]
  refine ⟨good.set here ⟨_, _, kept⟩ within, effect_set here (.of_binds inv kept others new ?_)⟩
  exact fun foreign => absurd owner (by simp [foreign])

omit [Zero γ] in
lemma pages_le_available (room : n * c.pageSize ≤ Chain.availableSize l c s m) :
    n ≤ (s m).availablePages c (bounds l s m) :=
  le_of_mul_le_mul_right room c.pageSize_pos

section

variable (good : Good l s written) (forgotten : ∀ v, (s m).v2p v = none → written m v = none)
include good forgotten

/-- **`alloc`.** -/
lemma Good.alloc (ran : Chain.alloc l fired s m needSize = some (s', out)) :
    Good l s' written ∧ Steady l s s' := by
  obtain ⟨c, here, called⟩ := bind_eq_some_iff.mp ran
  split at called
  · cases called
  rename_i owner
  split at called
  · cases called
    exact ⟨good, .refl s⟩
  split at called
  · rename_i aligned
    obtain ⟨⟨t, fits⟩, gate, result⟩ := map_eq_some_iff.mp called
    obtain ⟨rests, same, room⟩ := good.ensureAvailable gate
    dsimp only at result
    split at result
    · cases result
      exact ⟨rests.good, rests.steady⟩
    rename_i enough
    split at result
    · cases result
      exact ⟨rests.good, rests.steady⟩
    split at result
    · cases result
      exact ⟨rests.good, rests.steady⟩
    · rename_i u vPages bound
      cases result
      rw [← same] at forgotten
      have fits := room (by simpa using enough)
      rw [← Nat.div_mul_cancel (Nat.dvd_of_mod_eq_zero aligned)] at fits
      exact (rests.good.bindFreeIds here (by simpa using owner) forgotten (pages_le_available fits)
        bound).imp_right rests.steady.trans
  · cases called

/-- **`alloc_extend` and `alloc_decode`.** -/
lemma Good.allocRows {numNewPages : SubPool → Nat} {slots : SubPool → List Nat → List Nat}
    (ran : Chain.allocRows l fired s m numNewPages slots = some (s', out)) :
    Good l s' written ∧ Steady l s s' := by
  obtain ⟨c, here, called⟩ := bind_eq_some_iff.mp ran
  split at called
  · cases called
  rename_i owner
  split at called
  · cases called
    exact ⟨good, .refl s⟩
  obtain ⟨⟨t, fits⟩, gate, result⟩ := map_eq_some_iff.mp called
  obtain ⟨rests, same, room⟩ := good.ensureAvailable gate
  dsimp only at result
  split at result
  · cases result
    exact ⟨rests.good, rests.steady⟩
  rename_i enough
  split at result
  · cases result
    exact ⟨rests.good, rests.steady⟩
  · rename_i u vPages bound
    cases result
    rw [← same] at forgotten
    exact (rests.good.bindFreeIds here (by simpa using owner) forgotten
      (pages_le_available (room (by simpa using enough))) bound).imp_right rests.steady.trans

end

/-- **`alloc_with_virtual`**, for a pool that does not own its ids. -/
lemma Good.allocWithVirtual (good : Good l s written)
    (bindable : (s m).Bindable (written m) vPages)
    (foreign : ∀ c ∈ l.pool m, c.isIdOwner = false ∧ vPages.length ≤ (s m).availablePages c (bounds l s m))
    (ran : Chain.allocWithVirtual l s m vPages = some s') : Good l s' written ∧
      ∀ m', ∀ c ∈ l.pool m', Pool.Effect c (s m') (s' m') [] (if m' = m then vPages else []) := by
  obtain ⟨c, here, called⟩ := bind_eq_some_iff.mp ran
  obtain ⟨⟨pool, pages⟩, allocated, rfl⟩ := map_eq_some_iff.mp called
  obtain ⟨B, R, inv⟩ := good.inv m c here
  obtain ⟨notOwner, fits⟩ := foreign c here
  have ids : (s m).IdsAfter c vPages (s m).freeVirtualIds :=
    ⟨inv.mapped.ids_nodup, fun owner => absurd owner (by simp [notOwner]),
      fun owner => absurd owner (by simp [notOwner])⟩
  obtain ⟨kept, within, same, others, new⟩ :=
    inv.allocBind (good.ordered.within here) fits bindable ids allocated
  rw [← same] at kept
  refine ⟨good.set here ⟨_, _, kept⟩ within, effect_set
    here (.of_binds inv kept others new ?_)⟩
  simp

omit [Zero γ] in
/-- **`alloc_physical`**: nobody reads the pages through the tables; it binds and unbinds
nothing and reserves what it was asked for. -/
lemma Good.allocPhysical
    (good : Good l s written) (ran : Chain.allocPhysical l fired s m needSize = some (s', out)) :
    Good l s' written ∧ ∃ t, Steady l s t ∧ (∀ m', m' ≠ m → s' m' = t m') ∧
      (s' m).v2p = (t m).v2p ∧ ∀ c ∈ l.pool m, ((s' m).reservedPages c).card
        ≤ ((t m).reservedPages c).card + if out.isSome then needSize / c.pageSize else 0 := by
  have stays : ∀ {t : Chain γ} (k : SubPool → Nat), Rests l written s t → Good l t written ∧
      ∃ u, Steady l s u ∧ (∀ m', m' ≠ m → t m' = u m') ∧ (t m).v2p = (u m).v2p ∧
      ∀ c ∈ l.pool m, ((t m).reservedPages c).card ≤ ((u m).reservedPages c).card + k c :=
    fun k rests => ⟨rests.good, _, rests.steady, fun _ _ => rfl, rfl, fun c _ => Nat.le_add_right _ _⟩
  obtain ⟨c, here, called⟩ := Option.bind_eq_some_iff.mp ran
  split at called
  · cases called
    exact stays _ (.refl good)
  split at called
  · rename_i aligned
    obtain ⟨⟨t, fits⟩, gate, result⟩ := Option.map_eq_some_iff.mp called
    obtain ⟨rests, same, room⟩ := good.ensureAvailable gate
    dsimp only at result
    split at result
    · cases result
      exact stays _ rests
    rename_i enough
    split at result
    · cases result
      exact stays _ rests
    · rename_i pool pages taken
      cases result
      obtain ⟨B, R, inv⟩ := rests.good.inv m c here
      have fits := room (by simpa using enough)
      rw [← Nat.div_mul_cancel (Nat.dvd_of_mod_eq_zero aligned)] at fits
      obtain ⟨took, length⟩ := inv.placed.takePhysicalPages (rests.good.ordered.within here)
        (pages_le_available fits) taken
      refine ⟨rests.good.set here ⟨B, _, inv.reserve took⟩ took.within, t, rests.steady,
        fun m' => set_other, ?_, fun c' here' => ?_⟩
      · rw [set_self]
        exact took.same.v2p
      · cases here.symm.trans here'
        rw [set_self, (inv.reserve took).reserved_eq, inv.reserved_eq, ← length]
        exact (Finset.card_union_le _ _).trans (Nat.add_le_add_left (toFinset_card_le pages) _)
  · cases called

end Chain

/-! ### Runs -/

open Chain (bounds Good effect_set)

/-- A chain and, for every virtual page of every member, what was written to it since it
was bound. -/
structure Run (γ : Type) where
  chain : Chain γ
  written : Member → Nat → Option γ

namespace Run

variable {γ : Type}

/-- One call on a member of the chain. `fired` answers `event.query()` during the call;
the gate, the events and the writes come from outside the allocator. `freePages` is `free` with
`_pages`, `bindReserved` is `bind` for the pages of a load, and `setLoadDone` is
`set_hicache_transfer_done_event`. -/
inductive Op (γ : Type) where
  | alloc (m : Member) (fired : Nat → Bool) (needSize : Nat)
  | allocWithVirtual (m : Member) (virtualPages : List Nat)
  | allocExtend (m : Member) (fired : Nat → Bool) (rows : List ExtendRow) (numNewPages : Option Nat)
  | allocDecode (m : Member) (fired : Nat → Bool) (rows : List DecodeRow)
  | allocPhysical (m : Member) (fired : Nat → Bool) (needSize : Nat)
  | free (m : Member) (freeIndex : List Nat)
  | freePages (m : Member) (freeIndex pages : List Nat)
  | freeSegment (m : Member) (freeIndex : List Nat) (startPos : Nat)
  | freeGroupBegin (m : Member)
  | freeGroupEnd (m : Member)
  | flush (m : Member) (fired : Nat → Bool) (urgent : Bool)
  | makeRoom (side : Pool.Side) (minBytes : Nat)
  | compactHoles (side : Pool.Side)
  | bindReserved (m : Member) (virtualPages physicalPages : List Nat)
  | cancelPhysicalReservation (m : Member) (physicalPages : List Nat)
  | setLoadDone (m : Member)
  | setGate (m : Member) (closed : Bool)
  | setForward (m : Member) (latestForwardDoneEvent : Option Nat)
      (inflightForward : Option (Nat × List Nat))
  | write (m : Member) (virtualPage : Nat) (content : γ)

section

variable [Zero γ] (l : Layout)

/-- A call that changes one member. -/
def onPool (s : Chain γ) (m : Member) (call : SubPool → Pool γ → Option (Pool γ)) : Option (Chain γ) :=
  (l.pool m).bind fun c => (call c (s m)).map (Chain.set s m)

/-- What a call does to the chain. -/
def stepChain (s : Chain γ) : Op γ → Option (Chain γ)
  | .alloc m fired needSize => (Chain.alloc l fired s m needSize).map Prod.fst
  | .allocWithVirtual m virtualPages => Chain.allocWithVirtual l s m virtualPages
  | .allocExtend m fired rows numNewPages =>
    (Chain.allocExtend l fired s m rows numNewPages).map Prod.fst
  | .allocDecode m fired rows => (Chain.allocDecode l fired s m rows).map Prod.fst
  | .allocPhysical m fired needSize => (Chain.allocPhysical l fired s m needSize).map Prod.fst
  | .free m freeIndex => onPool l s m fun c pool => pool.free c freeIndex none
  | .freePages m freeIndex pages => onPool l s m fun c pool => pool.free c freeIndex (some pages)
  | .freeSegment m freeIndex startPos => onPool l s m fun c pool => pool.freeSegment c freeIndex startPos
  | .freeGroupBegin m => onPool l s m fun _ pool => pool.freeGroupBegin
  | .freeGroupEnd m => onPool l s m fun c pool => pool.freeGroupEnd c
  | .flush m fired urgent => (Chain.flush l fired urgent s m).map Prod.fst
  | .makeRoom side minBytes => (Chain.makeRoom l side minBytes s).map Prod.fst
  | .compactHoles side => (Chain.compactHoles l side s).map Prod.fst
  | .bindReserved m virtualPages physicalPages => onPool l s m fun _ pool =>
    some (pool.bind virtualPages physicalPages)
  | .cancelPhysicalReservation m physicalPages => onPool l s m fun c pool =>
    pool.cancelPhysicalReservation c (expandPages c.pageSize physicalPages)
  | .setLoadDone m => onPool l s m fun _ pool => some pool.setLoadDone
  | .setGate m closed => onPool l s m fun _ pool => some { pool with gateClosed := closed }
  | .setForward m latest inflight => onPool l s m fun _ pool =>
    some { pool with latestForwardDoneEvent := latest, inflightForward := inflight }
  | .write m v content => onPool l s m fun _ pool =>
    (pool.v2p v).map fun p => { pool with mem := update pool.mem p content }

/-- What was written, including by this call. -/
def record (written : Member → Nat → Option γ) : Op γ → Member → Nat → Option γ
  | .write m v content => update written m (update (written m) v (some content))
  | _ => written

/-- Forget what was written to pages that are no longer bound. -/
def forget (s : Chain γ) (written : Member → Nat → Option γ) : Member → Nat → Option γ :=
  fun m v => if (s m).v2p v = none then none else written m v

def step (r : Run γ) (op : Op γ) : Option (Run γ) :=
  (stepChain l r.chain op).map fun s => ⟨s, forget s (record r.written op)⟩

/-- Callers free live pages, each once, cancel reserved pages, each once, of a pool that does not
compact on every free, and report a load done when its pages are bound. -/
def FreesLive (r : Run γ) : Op γ → Prop
  | .free m freeIndex => ∀ c ∈ l.pool m, (r.chain m).Freeable c (freedPages c freeIndex none)
  | .freePages m _ pages => ∀ c ∈ l.pool m, (r.chain m).freeGroup = none ∧ (r.chain m).Freeable c pages
  | .freeSegment m freeIndex _ => ∀ c ∈ l.pool m, (r.chain m).Freeable c (Pool.segmentPages c freeIndex)
  | .cancelPhysicalReservation m pages => ∀ c ∈ l.pool m,
      (c.lazyCompaction = true ∨ c.growDirection = .float) ∧ pages.Nodup ∧
      ∀ p ∈ pages, p ∈ (r.chain m).reservedPages c
  | .setLoadDone m => ∀ c ∈ l.pool m, (r.chain m).reservedPages c = ∅
  | _ => True

/-- The composite hands `alloc_with_virtual` distinct ids of another pool that are not
bound yet, and has checked the byte budget; for a load it binds as many reserved pages. -/
def BindsForeign (r : Run γ) : Op γ → Prop
  | .allocWithVirtual m virtualPages => ∀ c ∈ l.pool m, c.isIdOwner = false ∧ virtualPages.Nodup ∧
      (∀ v ∈ virtualPages, (r.chain m).v2p v = none) ∧
      virtualPages.length * c.pageSize ≤ Chain.availableSize l c r.chain m
  | .bindReserved m virtualPages physicalPages => ∀ c ∈ l.pool m, c.isIdOwner = false ∧
      virtualPages.Nodup ∧ (∀ v ∈ virtualPages, (r.chain m).v2p v = none) ∧
      physicalPages.length = virtualPages.length ∧ physicalPages.Nodup ∧
      ∀ p ∈ physicalPages, p ∈ (r.chain m).reservedPages c
  | _ => True

/-- Every pool is cleared. -/
def Start (r : Run γ) : Prop :=
  ∃ mem : Member → Nat → γ, (∀ m, ∀ c ∈ l.pool m, r.chain m = clear c (mem m)) ∧
    ∀ m v, r.written m v = none

/-- The allocators of a chain, called as their callers promise. -/
def machine : Lib.Machine (Run γ) (Op γ) :=
  ⟨Start l, fun r op => FreesLive l r op ∧ BindsForeign l r op, step l⟩

/-! ### What a call binds and unbinds -/

/-- The virtual pages of member `m` that a call may unbind. -/
def freedBy (l : Layout) (s : Chain γ) (op : Op γ) (m : Member) : List Nat :=
  match op with
  | .free m' freeIndex =>
    if m = m' then ((l.pool m).map (freedPages · freeIndex none)).getD [] else []
  | .freePages m' _ pages => if m = m' then pages else []
  | .freeSegment m' freeIndex _ =>
    if m = m' then ((l.pool m).map (Pool.segmentPages · freeIndex)).getD [] else []
  | .freeGroupEnd m' => if m = m' then ((l.pool m).map (queuedPages · (s m))).getD [] else []
  | _ => []

/-- The virtual pages that a call binds in member `m`, if `m` does not own its ids. -/
def boundBy (op : Op γ) (m : Member) : List Nat :=
  match op with
  | .allocWithVirtual m' virtualPages => if m = m' then virtualPages else []
  | _ => []

/-- Calls that reserve no page and take no reservation back. -/
def Op.keepsReservations : Op γ → Bool
  | .allocPhysical _ _ _ | .bindReserved _ _ _ | .cancelPhysicalReservation _ _ => false
  | _ => true

/-! ### The invariant of a run -/

end

variable {l : Layout} {r r' : Run γ} {s s' : Chain γ} {written written' : Member → Nat → Option γ}
  {pool : Pool γ} {op : Op γ}

/-- The less was written, the less has to be read. -/
lemma good_of_less (good : Good l s written)
    (less : ∀ m v x, written' m v = some x → written m v = some x) : Good l s written' := by
  refine ⟨fun m c pool => ?_, good.ordered⟩
  obtain ⟨B, R, inv⟩ := good.inv m c pool
  exact ⟨B, R, { inv.mapped with
    stored := fun v p x read stored => inv.mapped.stored v p x read (less m v x stored) },
    inv.placed, inv.apart, inv.reserved⟩

/-- A call on one member that frees what it says. -/
lemma onPool_spec {m : Member} {call : SubPool → Pool γ → Option (Pool γ)}
    {freed bound : Member → List Nat} {keeping : Prop} (good : Good l s written)
    (ran : onPool l s m call = some s')
    (keeps : ∀ c ∈ l.pool m, ∀ B R pool, (s m).Inv c (written m) B R → call c (s m) = some pool →
      Pool.Frees c (s m) pool (written m) R (freed m)) : Good l s' written ∧
      (keeping → ∀ m', ∀ c ∈ l.pool m', Pool.Effect c (s m') (s' m') (freed m') (bound m')) := by
  obtain ⟨c, here, called⟩ := Option.bind_eq_some_iff.mp ran
  obtain ⟨pool, result, rfl⟩ := Option.map_eq_some_iff.mp called
  obtain ⟨B, R, inv⟩ := good.inv m c here
  obtain ⟨kept, unbinds⟩ := keeps c here B R pool inv result
  obtain ⟨B', inv'⟩ := kept.1
  exact ⟨good.shrink here kept, fun _ => effect_set here (.of_unbinds inv inv' unbinds)⟩

/-- Writing to a bound page. -/
lemma inv_write {c : SubPool} {stored : Nat → Option γ} {B R : Finset Nat} {v p : Nat}
    {content : γ} (inv : pool.Inv c stored B R) (bound : pool.v2p v = some p) :
    ({ pool with mem := update pool.mem p content } : Pool γ).Inv c
      (update stored v (some content)) B R := by
  refine ⟨{ inv.mapped with stored := ?_ },
    inv.placed.congr, inv.apart, inv.reserved⟩
  intro w q x read wrote
  by_cases here : w = v
  · subst here
    cases read.symm.trans bound
    rw [update_self] at wrote
    dsimp only
    rw [update_self]
    exact Option.some_injective _ wrote
  · rw [update_of_ne here] at wrote
    have elsewhere : q ≠ p := by
      rintro rfl
      exact here (inv.mapped.linked.injective read bound)
    dsimp only
    rw [update_of_ne elsewhere]
    exact inv.mapped.stored w q x read wrote

section

variable {c : SubPool} (mem : Nat → γ)

/-- `_reset_watermarks` moves the watermarks of an end pool or the span of a float. -/
lemma clear_tables : Pool.SameTables
    { v2p := fun v => if v = 0 then some 0 else none
      p2v := fun p => if p = 0 then some 0 else none
      freeVirtualIds :=
        if c.isIdOwner then .range' c.minPageIndex (c.numPages - c.minPageIndex) else []
      watermarkPhysical := 0, lowWmPage := 0, highWmPage := 0, freePhysPages := [], holesDirty := false
      pendingReuse := [], livePageCount := 0, freeGroup := none, freePageRepsGroup := none
      pendingHicacheLoadPages := 0, gateClosed := false, latestForwardDoneEvent := none
      inflightForward := none, mem := mem }
    (clear c mem) := by
  unfold clear resetWatermarks
  cases c.growDirection <;> exact ⟨rfl, rfl, rfl, rfl, rfl, rfl, rfl⟩

lemma clear_band : (clear c mem).lowPage c = (clear c mem).highPage c ∧
    c.minPageIndex ≤ (clear c mem).lowPage c ∧ (clear c mem).highPage c ≤ c.numPages := by
  have room := c.min_lt_num
  unfold lowPage highPage clear resetWatermarks
  cases grow : c.growDirection <;> dsimp only <;> omega

lemma placed_clear : (clear c mem).Placed c ∅ := by
  obtain ⟨empty, low, high⟩ := clear_band mem
  have free : (clear c mem).freePhysPages = [] ∧ (clear c mem).pendingReuse = [] ∧
      (clear c mem).livePageCount = 0 := by
    unfold clear resetWatermarks
    cases c.growDirection <;> exact ⟨rfl, rfl, rfl⟩
  refine ⟨?_, low, empty.le, high, fun _ => free.2.1, fun _ _ => free.1, fun _ => by simp [free], ?_⟩
  · rw [band, empty, pendingReusePages, free.1, free.2.1]
    exact .all List.nodup_nil (by simp)
  · intro float _
    simp [clear, resetWatermarks, float]

/-- A cleared pool. -/
lemma inv_clear : (clear c mem).Inv c (fun _ => none) ∅ ∅ := by
  have placed := placed_clear (c := c) mem
  have tables := clear_tables (c := c) mem
  refine ⟨.congr ⟨⟨?_, ?_⟩, rfl, by simp, ?_, ?_, ?_, nofun, ?_, ?_, by simp⟩ tables,
    by simpa using placed, by simp, tables.pendingHicacheLoadPages.ge⟩
  · intro v p
    by_cases hv : v = 0 <;> by_cases hp : p = 0 <;> simp [hp, eq_comm]
  · intro p
    by_cases hp : p = 0 <;> simp [hp]
  · split
    · exact List.nodup_range'
    · exact List.nodup_nil
  · intro owner v
    have pos := c.minPageIndex_pos
    simp only [owner, if_true]
    by_cases hv : v = 0
    · simp
      omega
    · simp
      omega
  · intro _ v p bound
    by_cases hv : v = 0
    · exact .inl hv
    · simp [hv] at bound
  · simp [queuedPages, freedPages, Alloc.pagesOf, Alloc.unique]
  · simp [queuedPages, freedPages, Alloc.pagesOf, Alloc.unique]

end

lemma good_start (start : Start l r) : Good l r.chain r.written := by
  obtain ⟨mem, cleared, unwritten⟩ := start
  have unset : ∀ m, r.written m = fun _ => none := fun m => funext (unwritten m)
  refine ⟨fun m c pool => ⟨∅, ∅, ?_⟩, ⟨?_, fun c mid isOpaque => ?_⟩⟩
  · rw [cleared m c pool, unset m]
    exact inv_clear (mem m)
  · rw [cleared .low l.low rfl, cleared .high l.high rfl]
    have low := l.low_up
    have high := l.high_down
    have room := l.high.min_lt_num
    simp only [byteHighFrontier, byteLowFrontier, clear, resetWatermarks, low, high]
    rw [Nat.sub_add_cancel (Nat.one_le_of_lt room)]
    exact l.ends_ordered
  · rw [cleared .mid c mid] at isOpaque
    simp [isFrontierTransparent, clear, resetWatermarks, l.mid_float c mid, livePages,
      spanPages] at isOpaque

/-- What every call of a run keeps. -/
structure Kept (l : Layout) (r : Run γ) : Prop where
  good : Good l r.chain r.written
  forgotten : ∀ m v, (r.chain m).v2p v = none → r.written m v = none

/-- **What one call does**, before it is forgotten what was written to unbound pages. -/
lemma stepChain_spec [Zero γ] (kept : Kept l r) (frees : FreesLive l r op)
    (binds : BindsForeign l r op) (ran : stepChain l r.chain op = some s') :
    Good l s' (record r.written op) ∧ (op.keepsReservations = true → ∀ m, ∀ c ∈ l.pool m,
      Pool.Effect c (r.chain m) (s' m) (freedBy l r.chain op m) (boundBy op m)) := by
  have good := kept.good
  cases op with
  | alloc m fired needSize =>
    obtain ⟨⟨t, out⟩, called, rfl⟩ := map_eq_some_iff.mp ran
    exact (good.alloc (kept.forgotten m) called).imp_right fun steady _ => steady
  | allocWithVirtual m virtualPages =>
    obtain ⟨c, here, -⟩ := bind_eq_some_iff.mp ran
    obtain ⟨-, nodup, unbound, -⟩ := binds c here
    refine (good.allocWithVirtual ⟨nodup, unbound, fun v mem => kept.forgotten m v (unbound v mem)⟩
      (fun c here => ?_) ran).imp_right fun effect _ => effect
    obtain ⟨foreign, -, -, fits⟩ := binds c here
    exact ⟨foreign, Chain.pages_le_available fits⟩
  | allocExtend m fired rows numNewPages | allocDecode m fired rows =>
    obtain ⟨⟨t, out⟩, called, rfl⟩ := map_eq_some_iff.mp ran
    exact (good.allocRows (kept.forgotten m) called).imp_right fun steady _ => steady
  | allocPhysical m fired needSize =>
    obtain ⟨⟨t, out⟩, called, rfl⟩ := map_eq_some_iff.mp ran
    exact ⟨(good.allocPhysical called).1, fun noLoad => by cases noLoad⟩
  | free m freeIndex | freeSegment m freeIndex startPos =>
    simp only [stepChain] at ran
    apply onPool_spec good ran
    intro c here B R pool inv freed
    rw [freedBy, if_pos rfl, show l.pool m = some c from here]
    first
    | exact inv.free (frees c here) freed
    | exact inv.freeSegment (frees c here) freed
  | freePages m freeIndex pages =>
    simp only [stepChain] at ran
    apply onPool_spec good ran
    intro c here B R pool inv freed
    obtain ⟨closed, freeable⟩ := frees c here
    have freeable : (r.chain m).Freeable c (freedPages c freeIndex (some pages)) := freeable
    rw [freedBy, if_pos rfl]
    exact (inv.freeNow closed freeable freed).1
  | freeGroupBegin m =>
    exact onPool_spec good ran fun c here B R pool inv => inv.freeGroupBegin
  | freeGroupEnd m =>
    apply onPool_spec good ran
    intro c here B R pool inv freed
    rw [freedBy, if_pos rfl, show l.pool m = some c from here]
    exact inv.freeGroupEnd freed
  | flush m fired urgent =>
    obtain ⟨⟨t, moved⟩, called, rfl⟩ := map_eq_some_iff.mp ran
    have rests := (good.flush called).1
    exact ⟨rests.good, fun _ => rests.steady⟩
  | makeRoom side minBytes =>
    obtain ⟨⟨t, bytes⟩, called, rfl⟩ := map_eq_some_iff.mp ran
    have rests := (good.makeRoom called).1
    exact ⟨rests.good, fun _ => rests.steady⟩
  | compactHoles side =>
    obtain ⟨⟨t, moved⟩, called, rfl⟩ := map_eq_some_iff.mp ran
    have rests := good.compactHoles called
    exact ⟨rests.good, fun _ => rests.steady⟩
  | bindReserved m virtualPages physicalPages =>
    obtain ⟨c, here, called⟩ := bind_eq_some_iff.mp ran
    obtain ⟨pool, result, rfl⟩ := map_eq_some_iff.mp called
    cases result
    obtain ⟨foreign, nodup, unbound, length, nodup', reserved⟩ := binds c here
    obtain ⟨B, R, inv⟩ := good.inv m c here
    have bindable : (r.chain m).Bindable (r.written m) virtualPages :=
      ⟨nodup, unbound, fun v mem => kept.forgotten m v (unbound v mem)⟩
    refine ⟨good.set here ⟨_, _, inv.bindReserved foreign bindable length nodup' ?_⟩ ?_, nofun⟩
    · exact inv.reserved_eq ▸ reserved
    · exact good.ordered.within here
  | cancelPhysicalReservation m physicalPages =>
    obtain ⟨c, here, called⟩ := bind_eq_some_iff.mp ran
    obtain ⟨pool, cancelled, rfl⟩ := map_eq_some_iff.mp called
    obtain ⟨holes, nodup, reserved⟩ := frees c here
    obtain ⟨B, R, inv⟩ := good.inv m c here
    obtain ⟨inv', shrunk, -⟩ :=
      inv.cancelReserved holes nodup (inv.reserved_eq ▸ reserved) cancelled
    exact ⟨good.shrink here ⟨⟨B, inv'⟩, shrunk⟩, nofun⟩
  | setLoadDone m =>
    simp only [stepChain] at ran
    apply onPool_spec good ran
    intro c here B R pool inv done
    cases done
    exact ⟨⟨⟨B, inv.setLoadDone (frees c here)⟩, fun isOpaque => ⟨isOpaque, le_rfl, le_rfl⟩⟩,
      .of_tables rfl rfl⟩
  | setGate m closed | setForward m latest inflight =>
    simp only [stepChain] at ran
    apply onPool_spec good ran
    intro c here B R pool inv set
    cases set
    exact ⟨⟨⟨B, inv.mapped.congr,
      inv.placed.congr, inv.apart, inv.reserved⟩,
      fun isOpaque => ⟨isOpaque, le_rfl, le_rfl⟩⟩, .of_tables rfl rfl⟩
  | write m v content =>
    obtain ⟨c, here, called⟩ := bind_eq_some_iff.mp ran
    obtain ⟨pool, result, rfl⟩ := map_eq_some_iff.mp called
    obtain ⟨p, bound, rfl⟩ := map_eq_some_iff.mp result
    refine ⟨⟨fun m' c' pool' => ?_, ?_⟩, fun _ => effect_set here
      ⟨rfl, fun _ _ held => held, fun _ _ _ unbound => unbound⟩⟩
    · obtain ⟨B, R, inv⟩ := good.inv m' c' pool'
      simp only [record]
      by_cases same : m' = m
      · subst same
        rw [Chain.set_self, update_self]
        exact ⟨B, R, inv_write inv bound⟩
      · rw [Chain.set_other same, update_of_ne same]
        exact ⟨B, R, inv⟩
    · exact good.ordered_set here (good.ordered.within here)

/-- What was written to unbound pages is forgotten. -/
lemma kept_forget (good : Good l s written) : Kept l ⟨s, forget s written⟩ := by
  refine ⟨good_of_less good fun m v x stored => ?_, fun m v unbound => if_pos unbound⟩
  change (if (s m).v2p v = none then none else written m v) = some x at stored
  split at stored
  · cases stored
  · exact stored

/-- **One call** keeps the invariant of a run. -/
lemma kept_step [Zero γ] (kept : Kept l r) (frees : FreesLive l r op)
    (binds : BindsForeign l r op) (ran : step l r op = some r') : Kept l r' := by
  obtain ⟨s, called, rfl⟩ := map_eq_some_iff.mp ran
  exact kept_forget (stepChain_spec kept frees binds called).1

/-- **Every run** keeps it. -/
lemma kept_inductive [Zero γ] (l : Layout) : (machine (γ := γ) l).Inductive (Kept l) where
  start := fun _ start => ⟨good_start start, fun m v _ => start.choose_spec.2 m v⟩
  step := fun _ _ _ kept ok => kept_step kept ok.1 ok.2

/-! ### Bytes -/

/-- Byte `b` lies in the band of the pool. -/
def InBand (c : SubPool) (pool : Pool γ) (b : Nat) : Prop :=
  pool.byteLowFrontier c ≤ b ∧ b < pool.byteHighFrontier c

/-- Byte `b` belongs to physical page `p`. -/
def InPage (c : SubPool) (p b : Nat) : Prop :=
  p * c.entryBytesPerPage ≤ b ∧ b < (p + 1) * c.entryBytesPerPage

/-- A live virtual page of a member and the physical page behind it. -/
structure Live (r : Run γ) (m : Member) (v p : Nat) : Prop where
  real : v ≠ 0
  bound : (r.chain m).v2p v = some p

/-- The members share the buffer without getting in each other's way. -/
structure Safe (l : Layout) (r : Run γ) : Prop where
  inside : ∀ m, ∀ c ∈ l.pool m, ∀ b, InBand c (r.chain m) b → b < l.low.totalBytes
  apart : ∀ m, ∀ c ∈ l.pool m, ∀ m', ∀ c' ∈ l.pool m', m ≠ m' → ∀ b,
    InBand c (r.chain m) b → ¬ InBand c' (r.chain m') b
  pages : ∀ m, ∀ c ∈ l.pool m, ∀ m', ∀ c' ∈ l.pool m', ∀ v p v' p', r.Live m v p → r.Live m' v' p' →
    ∀ b, InPage c p b → InPage c' p' b → m = m' ∧ v = v'
  inverse : ∀ m, ∀ c ∈ l.pool m, ∀ v p, (r.chain m).v2p v = some p ↔ (r.chain m).p2v p = some v
  partition : ∀ m, ∀ c ∈ l.pool m, c.isIdOwner = true → (r.chain m).freeVirtualIds.Nodup ∧
    (∀ v ∈ (r.chain m).freeVirtualIds, ∀ p, ¬ r.Live m v p) ∧
    ∀ v, c.minPageIndex ≤ v ∧ v < c.numPages ↔ v ∈ (r.chain m).freeVirtualIds ∨ ∃ p, r.Live m v p

variable {b p v q v' p' : Nat} {c c' : SubPool} {m m' : Member}

lemma inBand_of_inPage (mem : p ∈ pool.band c) (here : InPage c p b) : InBand c pool b := by
  rw [mem_band] at mem
  rw [InBand, byteLowFrontier_eq, byteHighFrontier_eq]
  exact ⟨(mul_le_mul_right _ mem.1).trans here.1,
    lt_of_lt_of_le here.2 (mul_le_mul_right _ mem.2)⟩

lemma eq_of_inPage (here : InPage c p b) (there : InPage c q b) : p = q := by
  have upper := lt_of_mul_lt_mul_right (lt_of_le_of_lt here.1 there.2)
  have lower := lt_of_mul_lt_mul_right (lt_of_le_of_lt there.1 here.2)
  omega

/-- A live page lies in the band of its member. -/
lemma Kept.live_mem (kept : Kept l r) (here : c ∈ l.pool m) (live : r.Live m v p) :
    p ∈ (r.chain m).band c := by
  obtain ⟨B, R, inv⟩ := kept.good.inv m c here
  refine inv.placed.split.held_sub (Finset.mem_union_left R ?_)
  apply Finset.mem_of_mem_insert_of_ne (inv.mapped.linked.mem_bound live.bound)
  rintro rfl
  exact live.real (inv.mapped.linked.injective live.bound inv.mapped.sink)

/-- An empty float has no band. -/
lemma Kept.isOpaque_of_inBand (kept : Kept l r) (here : c ∈ l.pool m)
    (inBand : InBand c (r.chain m) b) : (r.chain m).isFrontierTransparent c = false := by
  obtain ⟨B, R, inv⟩ := kept.good.inv m c here
  by_contra transparent
  rw [Bool.not_eq_false] at transparent
  have float : c.growDirection = .float := by
    unfold isFrontierTransparent at transparent
    cases grow : c.growDirection <;> simp [grow] at transparent ⊢
  obtain ⟨low, high⟩ := inv.placed.parked float ((inv.placed.transparent_iff float).mp transparent)
  simp only [InBand, byteLowFrontier, byteHighFrontier, float, low, high] at inBand
  omega

/-- The three members from low to high. -/
lemma Kept.apart_of_below (kept : Kept l r) (here : c ∈ l.pool m)
    (there : c' ∈ l.pool m') (inBand : InBand c (r.chain m) b) (inBand' : InBand c' (r.chain m') b)
    : ¬ (m = .low ∧ m' ≠ .low ∨ m = .mid ∧ m' = .high) := by
  have ordered := kept.good.ordered
  rintro (⟨rfl, other⟩ | ⟨rfl, rfl⟩)
  · cases here
    cases m' with
    | low => exact other rfl
    | mid =>
      have above := (ordered.mid c' there (kept.isOpaque_of_inBand there inBand')).1
      exact absurd (inBand.2.trans_le (above.trans inBand'.1)) (lt_irrefl b)
    | high =>
      cases there
      exact absurd (inBand.2.trans_le (ordered.ends.trans inBand'.1)) (lt_irrefl b)
  · cases there
    have above := (ordered.mid c here (kept.isOpaque_of_inBand here inBand)).2
    exact absurd (inBand.2.trans_le (above.trans inBand'.1)) (lt_irrefl b)

section

variable (kept : Kept l r) (here : c ∈ l.pool m)
include kept here

lemma Kept.apart (there : c' ∈ l.pool m') (other : m ≠ m')
    (inBand : InBand c (r.chain m) b) : ¬ InBand c' (r.chain m') b := by
  intro inBand'
  have upwards := kept.apart_of_below here there inBand inBand'
  have downwards := kept.apart_of_below there here inBand' inBand
  cases m <;> cases m' <;> simp at other upwards downwards

lemma Kept.inside (inBand : InBand c (r.chain m) b) : b < l.low.totalBytes := by
  obtain ⟨B, R, inv⟩ := kept.good.inv m c here
  have within : (r.chain m).byteHighFrontier c ≤ c.numPages * c.entryBytesPerPage := by
    rw [byteHighFrontier_eq]
    exact mul_le_mul_right _ inv.placed.high_le
  have buffer : c.totalBytes = l.low.totalBytes := by
    cases m with
    | low => cases here; rfl
    | mid => exact (l.mid_buffer c here).1
    | high => cases here; exact l.same_buffer.1
  exact buffer ▸ (inBand.2.trans_le within).trans_le c.num_mul_le

lemma Kept.pages_apart (there : c' ∈ l.pool m') (live : r.Live m v p) (live' : r.Live m' v' p')
    (inPage : InPage c p b) (inPage' : InPage c' p' b) : m = m' ∧ v = v' := by
  by_cases same : m = m'
  · subst same
    cases here.symm.trans there
    obtain ⟨B, R, inv⟩ := kept.good.inv m c here
    obtain rfl := eq_of_inPage inPage inPage'
    exact ⟨rfl, inv.mapped.linked.injective live.bound live'.bound⟩
  · have inBand := inBand_of_inPage (kept.live_mem here live) inPage
    exact absurd (inBand_of_inPage (kept.live_mem there live') inPage') (kept.apart here there same inBand)

end

/-- **From the invariant to the buffer.** -/
lemma Kept.safe (kept : Kept l r) : Safe l r where
  inside := fun _ _ here _ => kept.inside here
  apart := fun _ _ here _ _ there other _ => kept.apart here there other
  pages := fun _ _ here _ _ there _ _ _ _ live live' _ inPage inPage' =>
    kept.pages_apart here there live live' inPage inPage'
  inverse := fun m c here => by
    obtain ⟨B, R, inv⟩ := kept.good.inv m c here
    exact inv.mapped.linked.inverse
  partition := fun m c here owner => by
    obtain ⟨B, R, inv⟩ := kept.good.inv m c here
    have free := inv.mapped.ids_free owner
    refine ⟨inv.mapped.ids_nodup, fun v mem p live => ?_, fun v => ⟨fun range => ?_, ?_⟩⟩
    · exact absurd (((free v).mp mem).2.symm.trans live.bound) (by simp)
    · have real : v ≠ 0 := ne_of_gt (c.minPageIndex_pos.trans_le range.1)
      cases bound : (r.chain m).v2p v with
      | none => exact .inl ((free v).mpr ⟨range, bound⟩)
      | some p => exact .inr ⟨p, real, bound⟩
    · rintro (mem | ⟨p, live⟩)
      · exact ((free v).mp mem).1
      · exact (inv.mapped.ids_bound owner v p live.bound).resolve_left live.real

/-- **Sharing the buffer is safe**: in every state of every run the bands of the members are
disjoint and inside the buffer, no two live pages share a byte, the tables are inverse to
each other, and an id owner's free and bound ids are the ids it has. -/
theorem reachable_safe [Zero γ] (l : Layout) (r : Run γ) (reached : (machine l).Reachable r) : Safe l r :=
  ((kept_inductive l).reachable reached).safe

/-- Eight pages of eight bytes, the lowest reserved. -/
def smallPool (growDirection : Grow) (isIdOwner : Bool) : SubPool where
  totalBytes := 64
  reservedFloor := 8
  entryBytes := 8
  poolPageSize := 1
  dcpSize := 1
  growDirection := growDirection
  isIdOwner := isIdOwner
  lazyCompaction := false
  zeroPagesOnAlloc := false
  lazyMaxMovesPerCall := 4
  entryBytes_pos := by decide
  poolPageSize_pos := Nat.one_pos
  dcpSize_pos := Nat.one_pos
  page_le_floor := by decide
  room := by decide
  float_eager := fun _ => rfl

lemma growDirection_smallPool (g : Grow) (owner : Bool) : (smallPool g owner).growDirection = g :=
  rfl

/-- The same, compacted lazily. -/
def lazyPool (growDirection : Grow) (isIdOwner : Bool) (ends : growDirection ≠ .float) : SubPool :=
  { smallPool growDirection isIdOwner with
    lazyCompaction := true
    float_eager := fun float => absurd float ends }

/-- Two ends, compacted lazily, and a float between them with ids of the upper one. -/
def mixedLayout : Layout where
  low := lazyPool .up true (by decide)
  mid := some (smallPool .float false)
  high := lazyPool .down true (by decide)
  low_up := rfl
  mid_float := by simp [smallPool]
  high_down := rfl
  same_buffer := ⟨rfl, rfl⟩
  mid_buffer := fun c here => by cases here; exact ⟨rfl, rfl⟩

def mixedStart : Run Nat where
  chain := fun m => match m with
    | .low => clear mixedLayout.low fun _ => 0
    | .mid => clear (smallPool .float false) fun _ => 0
    | .high => clear mixedLayout.high fun _ => 0
  written := fun _ _ => none

/-- Two pages of each; the float makes room for the lower end, one page of both is freed, and a
flush moves the other page of the lower end into the hole. -/
theorem reachable_safe_shared : ∃ r : Run Nat, (machine mixedLayout).Reachable r ∧
    r.Live .low 2 1 ∧ r.Live .mid 2 5 ∧ r.Live .high 1 6 ∧ Safe mixedLayout r := by
  have start : Start mixedLayout mixedStart :=
    ⟨fun _ _ => 0, fun m c here => by cases m <;> cases here <;> rfl, fun _ _ => rfl⟩
  have upper : (machine mixedLayout).Reachable _ :=
    .step (a := .alloc .high (fun _ => true) 2) (.start start) ⟨trivial, trivial⟩ rfl
  have middle := upper.step (a := Op.allocWithVirtual .mid [1, 2])
    ⟨trivial, fun c here => by cases here; decide⟩ rfl
  have lower := middle.step (a := Op.alloc .low (fun _ => true) 2) ⟨trivial, trivial⟩ rfl
  have freed := lower.step (a := Op.free .low [1]) ⟨fun c here => by cases here; decide, trivial⟩ rfl
  have holes := freed.step (a := Op.free .mid [1]) ⟨fun c here => by cases here; decide, trivial⟩ rfl
  have flushed := holes.step (a := Op.flush .low (fun _ => true) true) ⟨trivial, trivial⟩
      (Option.some_get (by decide +kernel)).symm
  exact ⟨_, flushed, ⟨by decide, by decide +kernel⟩, ⟨by decide, by decide +kernel⟩,
    ⟨by decide, by decide +kernel⟩, reachable_safe _ _ flushed⟩

/-- Two ends without a float; the lower one hands out the ids of both. -/
def smallLayout : Layout where
  low := smallPool .up true
  mid := none
  high := smallPool .down false
  low_up := growDirection_smallPool .up true
  mid_float := nofun
  high_down := growDirection_smallPool .down false
  same_buffer := ⟨rfl, rfl⟩
  mid_buffer := nofun

def smallStart : Run Nat where
  chain := fun m => clear (smallPool (if m = .low then .up else .down) (m = .low)) fun _ => 0
  written := fun _ _ => none

lemma start_small : Start smallLayout smallStart :=
  ⟨fun _ _ => 0, fun m c here => by cases m <;> cases here <;> rfl, fun _ _ => rfl⟩

/-- The same ends, compacted lazily; the upper one hands out the ids. -/
def lazyLayout : Layout where
  low := lazyPool .up false (by decide)
  mid := none
  high := lazyPool .down true (by decide)
  low_up := rfl
  mid_float := smallLayout.mid_float
  high_down := rfl
  same_buffer := ⟨rfl, rfl⟩
  mid_buffer := nofun

/-- `alloc_with_virtual` does not look at the byte budget: five ids bound at the upper end
run into the three pages of the lower one. And a pool that owns no ids has none free. -/
theorem unchecked_binds_overlap :
    (∃ r : Run Nat, (⟨Start smallLayout, FreesLive smallLayout, step smallLayout⟩ :
        Lib.Machine (Run Nat) (Op Nat)).Reachable r ∧
      InBand smallLayout.low (r.chain .low) 24 ∧ InBand smallLayout.high (r.chain .high) 24) ∧
    ∃ r : Run Nat, (machine smallLayout).Reachable r ∧
      (smallLayout.high.minPageIndex ≤ 1 ∧ 1 < smallLayout.high.numPages) ∧
      1 ∉ (r.chain .high).freeVirtualIds ∧ ∀ p, ¬ r.Live .high 1 p := by
  refine ⟨?_, smallStart, .start start_small, by decide, by decide, fun p live => ?_⟩
  · have three : (⟨Start smallLayout, FreesLive smallLayout, step smallLayout⟩ :
        Lib.Machine (Run Nat) (Op Nat)).Reachable _ :=
      .step (a := .alloc .low (fun _ => true) 3) (.start start_small) trivial rfl
    have five := three.step (a := Op.allocWithVirtual .high [1, 2, 3, 4, 5]) trivial rfl
    exact ⟨_, five, ⟨by decide, by decide⟩, by decide, by decide⟩
  · cases live.bound

/-- **Relocation is invisible**: what is read through `v2p` is what was written last. -/
theorem reachable_reads [Zero γ] (l : Layout) (r : Run γ) (reached : (machine l).Reachable r) (m : Member)
    (c : SubPool) (here : c ∈ l.pool m) (v p : Nat) (x : γ) (bound : (r.chain m).v2p v = some p)
    (wrote : r.written m v = some x) : (r.chain m).mem p = x := by
  obtain ⟨B, R, inv⟩ := ((kept_inductive l).reachable reached).good.inv m c here
  exact inv.mapped.stored v p x bound wrote

/-- Freeing the first of three pages moves the last one into its place. -/
theorem reachable_reads_moved : ∃ r : Run Nat, (machine smallLayout).Reachable r ∧
    (r.chain .low).v2p 3 = some 1 ∧ r.written .low 3 = some 7 ∧ (r.chain .low).mem 1 = 7 := by
  have three : (machine smallLayout).Reachable _ :=
    .step (a := .alloc .low (fun _ => true) 3) (.start start_small) ⟨trivial, trivial⟩ rfl
  have wrote := three.step (a := Op.write .low 3 7) ⟨trivial, trivial⟩ rfl
  have freed := wrote.step (a := Op.free .low [1]) ⟨fun c here => by cases here; decide, trivial⟩ rfl
  exact ⟨_, freed, rfl, rfl, reachable_reads _ _ freed .low smallLayout.low rfl 3 1 7 rfl rfl⟩

end Run

end Sglang.Unified
