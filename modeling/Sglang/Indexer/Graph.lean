/-
# The KV indexer: what holds after every call

The sets of complete workers can go wrong after some batches; the graph itself can not.

* `State.Backed` — no worker is complete for a block that it has nothing on. That is what makes
  pruning reach every bare block, whichever way the sets are wrong otherwise.
* `State.Kept.apply` — every batch keeps the graph, the counters and `Backed`, and leaves no bare
  block behind.
* `State.reachable_consistent` — the graph after any run of calls.
-/

import Sglang.Indexer.Derived
import Sglang.Lib.Machine

namespace Sglang.Indexer

open Sglang.Lib List Option

variable {ω η : Type} [DecidableEq ω] [DecidableEq η]

namespace State

variable {s s' start : State ω η} {w v : ω} {h x : η} {t : Tier} {plan : η → ParentLink η}
  {req : ApplyRequest ω η} {pick : List η → List η} {hashes : List η} {parent : ParentLink η}

/-! ### Bare blocks -/

omit [DecidableEq ω] in
lemma lookup_updateBlock (f : Block ω η → Block ω η) : (s.updateBlock h f).blocks.lookup x =
      if x = h then some (f (s.block h)) else s.blocks.lookup x :=
  Table.lookup_update s.blocks

omit [DecidableEq ω] in
lemma Bare.congr (bare : s'.Bare x) (there : (s'.blocks.lookup x).isSome → (s.blocks.lookup x).isSome)
    (placements : (s'.block x).placements = (s.block x).placements)
    (children : (s'.block x).children = (s.block x).children) : s.Bare x :=
  ⟨there bare.there, placements ▸ bare.placements, children ▸ bare.children⟩

omit [DecidableEq ω] in
lemma Bare.of_linkBlock (bare : (s.linkBlock parent h).Bare x) : x = h ∨ s.Bare x := by
  by_cases here : x = h
  · exact .inl here
  have apart : parent ≠ .hash x := fun above => by
    have children := bare.children
    rw [block_linkBlock, if_pos above] at children
    exact ne_nil_of_mem (mem_insert_self) children
  refine .inr (bare.congr (fun there => ?_) ?_ ?_)
  · unfold linkBlock at there
    rw [lookup_updateBlock, if_neg here] at there
    cases parent with
    | unknown | root => exact there
    | hash up =>
      have other : x ≠ up := fun same => apart (by rw [same])
      simpa only [lookup_updateBlock, if_neg other] using there
  · rw [block_linkBlock]
  · rw [block_linkBlock, if_neg apart]

omit [DecidableEq ω] in
lemma Bare.of_applyReportChain
    (bare : (s.applyReportChain parent hashes).Bare x) : x ∈ hashes ∨ s.Bare x := by
  induction hashes generalizing s parent with
  | nil => exact .inr bare
  | cons h rest ih =>
    rcases ih bare with inside | before
    · exact .inl (mem_cons_of_mem _ inside)
    · exact before.of_linkBlock.imp_left fun here => mem_cons.mpr (.inl here)

lemma Bare.of_place {mask tokenCount : Nat} (bare : (place w t s h mask tokenCount).Bare x) :
    x ≠ h ∧ s.Bare x := by
  have apart : x ≠ h := by
    rintro rfl
    have gone := bare.maskOf w t
    rw [(wrote_place ..).mask, if_pos ⟨rfl, rfl, rfl⟩] at gone
    cases gone
  refine ⟨apart, bare.congr (fun there => ?_) ?_ ?_⟩
  · unfold place adjustComponentPlacementCount at there
    by_cases sized : 0 < tokenCount
    · simpa only [sized, if_true, updateWorker, lookup_updateBlock, if_neg apart] using there
    · simpa only [sized, if_false, updateWorker, lookup_updateBlock, if_neg apart] using there
  · rw [block_place, if_neg apart]
  · rw [block_place, if_neg apart]

lemma Bare.of_placeAll {masks sizes : List Nat}
    (bare : (placeAll w t s hashes masks sizes).Bare x) : x ∉ hashes ∧ s.Bare x := by
  induction hashes generalizing s masks sizes with
  | nil => exact ⟨by simp, bare⟩
  | cons h rest ih =>
    obtain ⟨out, before⟩ := ih bare
    obtain ⟨apart, before⟩ := before.of_place
    exact ⟨by simp [apart, out], before⟩

lemma Bare.of_revokeOne (bare : (revokeOne w t s h).Bare x) : x = h ∨ s.Bare x := by
  by_cases here : x = h
  · exact .inl here
  refine .inr (bare.congr (fun there => ?_) ?_ ?_)
  · unfold revokeOne at there
    dsimp only at there
    rw [adjustComponentPlacementCount, updateWorker] at there
    rwa [Table.lookup_modify, if_neg here] at there
  · rw [block_revokeOne, if_neg here]
  · rw [block_revokeOne, if_neg here]

lemma Bare.of_revokes (bare : (hashes.foldl (revokeOne w t) s).Bare x) : x ∈ hashes ∨ s.Bare x := by
  induction hashes generalizing s with
  | nil => exact .inr bare
  | cons h rest ih =>
    rcases ih bare with inside | before
    · exact .inl (mem_cons_of_mem _ inside)
    · exact before.of_revokeOne.imp_left fun here => mem_cons.mpr (.inl here)

/-- A bare block after the actions was bare before or is among the revoked ones. -/
lemma Bare.of_actions {pass : Pass ω η} {actions : List (Action η)}
    (before : ∀ x, pass.state.Bare x → x ∈ pass.revokedHashes)
    (bare : (actions.foldl (applyAction pick w) pass).state.Bare x) :
    x ∈ (actions.foldl (applyAction pick w) pass).revokedHashes := by
  induction actions generalizing pass with
  | nil => exact before x bare
  | cons action rest ih =>
    refine ih (fun y new => ?_) bare
    cases action with
    | report tier parentBlockHash hashes masks sizes =>
      obtain ⟨out, linked⟩ := new.of_placeAll
      exact before y (linked.of_applyReportChain.resolve_left out)
    | revoke tier hashes | clearAllAtTier tier =>
      rcases new.of_revokes with inside | old
      · exact mem_append_right _ inside
      · exact mem_append_left _ (before y old)
    | unsupported => exact before y new

lemma Recorded.bare (recorded : Recorded w s s') (bare : s'.Bare x) : s.Bare x :=
  bare.congr (fun there => recorded.known x ▸ there) (recorded.placements x) (recorded.children x)

/-! ### Complete workers have something there -/

/-- No worker is complete for a block without a placement of its own. -/
def Backed (s : State ω η) (w : ω) : Prop := ∀ h, s.complete w h = true → s.Placed w h

lemma backed_empty : Backed ({} : State ω η) w := fun h complete => by
  simp [State.complete, block, default] at complete

lemma Bare.emptied (bare : s.Bare h) (backed : ∀ v, s.Backed v) : s.Emptied h := by
  refine ⟨bare, eq_nil_iff_forall_not_mem.mpr fun v inside => ?_⟩
  obtain ⟨t, found⟩ := backed v h (decide_eq_true inside)
  rw [bare.maskOf v t] at found
  cases found

/-! ### What every batch keeps -/

/-- The graph, the counters, and placements under the sets of complete workers. -/
structure Kept (s : State ω η) : Prop where
  wired : s.Wired
  tallied : ∀ w, s.Tallied w
  grounded : ∀ h, Grounded (fun h => (s.block h).parent) h
  backed : ∀ w, s.Backed w

lemma kept_empty : Kept ({} : State ω η) :=
  ⟨wired_empty, fun _ => tallied_empty,
    fun h => .intro h fun up link => by simp [block] at link, fun _ => backed_empty⟩

omit [DecidableEq ω] in
lemma Plan.grounded {actions : List (Action η)} (planned : Plan s actions plan)
    (before : ∀ h, Grounded (fun h => (s.block h).parent) h) (h : η) : Grounded plan h := by
  induction before h with
  | intro h _ ih =>
    refine .intro h fun up link => ?_
    rcases planned.settled h with same | grounded
    · exact ih up (same.symm.trans link)
    · exact grounded.inv link

omit [DecidableEq η] in
/-- Fewer links leave walks shorter. -/
lemma grounded_mono {parent : η → ParentLink η} (grounded : Grounded plan h)
    (fewer : ∀ x up, parent x = .hash up → plan x = .hash up) : Grounded parent h :=
  Subrelation.accessible (fewer _ _) grounded

section

variable (kept : s.Kept)
include kept

lemma Kept.actions (planned : Plan s req.actions plan)
    (noted : Noted plan s req.workerId (s.applyActions pick req)) (h : η) :
    Grounded (fun h => ((s.applyActions pick req).state.block h).parent) h := by
  apply grounded_mono (planned.grounded kept.grounded h)
  intro x up link
  rcases noted.sound.fits x with unknown | same
  · rw [unknown] at link
    cases link
  · exact same.symm.trans link

/-- Before the breadth-first repair only the blocks it starts at can lack a placement. -/
lemma Kept.beforeRecompute
    (noted : Noted plan s req.workerId (s.applyActions pick req)) :
    Recorded req.workerId (s.applyActions pick req).state (s.beforeRecompute pick req).1 ∧
      ∀ x, x ∉ (s.beforeRecompute pick req).2 →
        (s.beforeRecompute pick req).1.complete req.workerId x = true →
          (s.applyActions pick req).state.Placed req.workerId x := by
  have sound := noted.sound
  have acts := noted.acts
  unfold State.beforeRecompute
  dsimp only
  split
  · refine ⟨recorded_forgetComplete, fun x _ raised => ?_⟩
    rw [complete_forgetComplete] at raised
    cases raised
  · obtain ⟨⟨recorded, backed⟩, grown⟩ := repaired_refreshAll (sound.tallied req.workerId) .refl
      (s.applyActions pick req).dirtyRoots (s.applyActions pick req).reportedChains
    refine ⟨recorded, fun x out raised => ?_⟩
    rcases backed x raised with placed | ⟨free, before⟩
    · exact placed
    -- neither reported nor revoked, so the placement from before is still there
    · have away := acts.away x (by simp only [mem_append]; exact not_or.mpr ⟨free, mt (@grown x) out⟩)
      have old : s.complete req.workerId x = true := by
        unfold complete at before ⊢
        rwa [acts.complete] at before
      obtain ⟨t, found⟩ := kept.backed req.workerId x old
      exact ⟨t, (away t).symm ▸ found⟩

/-- A batch up to its pruning. -/
lemma Kept.recompute (planned : Plan s req.actions plan)
    (noted : Noted plan s req.workerId (s.applyActions pick req)) :
    Recorded req.workerId (s.applyActions pick req).state
        ((s.beforeRecompute pick req).1.recomputeWorkerSubtrees pick req.workerId
          (s.beforeRecompute pick req).2) ∧
      ((s.beforeRecompute pick req).1.recomputeWorkerSubtrees pick req.workerId
        (s.beforeRecompute pick req).2).Kept := by
  obtain ⟨refreshed, before⟩ := kept.beforeRecompute noted
  obtain ⟨recorded, backed⟩ := repaired_recomputeWorkerSubtrees
    (noted.sound.tallied req.workerId) refreshed (s.beforeRecompute pick req).2
  refine ⟨recorded, recorded.wired noted.sound.wired,
    fun v => recorded.tallied (noted.sound.tallied v), fun h => ?_, fun v h raised => ?_⟩
  · apply grounded_mono (kept.actions planned noted h)
    intro x up link
    exact (recorded.parent x).symm.trans link
  · rw [recorded.placed]
    by_cases self : v = req.workerId
    · subst self
      rcases backed h raised with placed | ⟨out, old⟩
      · exact placed
      · exact before h out old
    · have acts := noted.acts
      have old : s.complete v h = true := by
        rw [recorded.other v self] at raised
        unfold complete at raised ⊢
        rwa [acts.complete] at raised
      obtain ⟨t, found⟩ := kept.backed v h old
      exact ⟨t, (acts.mask v self h t).symm ▸ found⟩

/-! ### Pruning -/

lemma Kept.removed (emptied : s.Emptied h) (removed : Removed h s s') : s'.Kept := by
  refine ⟨removed.wired emptied kept.wired, fun v => removed.tallied emptied (kept.tallied v),
    fun x => ?_, fun v x raised => ?_⟩
  · apply grounded_mono (kept.grounded x)
    intro y up link
    rw [removed.parent] at link
    split at link
    · cases link
    · exact link
  · rw [removed.complete emptied] at raised
    obtain ⟨t, found⟩ := kept.backed v x raised
    exact ⟨t, (removed.maskOf emptied x v t).symm ▸ found⟩

lemma Kept.pruneEmptyLeaf (fuel : Nat) (h : η) : (State.pruneEmptyLeaf fuel s h).Kept :=
  pruneEmptyLeaf_rule (fun _ => Kept.wired)
    (fun _ _ _ kept => kept.removed) fuel h kept

omit kept in
/-- Only the parent of a removed block can become bare. -/
lemma Removed.bare (removed : Removed h s s') (wired : s.Wired) (bare : s'.Bare x) :
    x ≠ h ∧ ((s.block h).parent ≠ .hash x → s.Bare x) := by
  obtain ⟨apart, there⟩ := removed.known x bare.there
  have block := removed.block x
  rw [if_neg apart] at block
  refine ⟨apart, fun other => bare.congr (fun _ => there) (by rw [block]) ?_⟩
  rw [block]
  apply filter_eq_self.mpr
  intro child mem
  have : child ≠ h := fun same => other ((wired.children x h).mp (same ▸ mem))
  simpa using this

/-- Pruning at a block leaves it not bare, and makes no other block bare. -/
lemma Kept.bare_pruneEmptyLeaf {fuel : Nat} (enough : s.blocks.keys.length < fuel)
    (bare : (State.pruneEmptyLeaf fuel s h).Bare x) : x ≠ h ∧ s.Bare x := by
  induction fuel generalizing s h with
  | zero => omega
  | succ fuel ih =>
    rcases pruneEmptyLeaf_cases kept.wired fuel h with
      ⟨busy, same⟩ | ⟨emptied, s', removed, fewer, ⟨top, same⟩ | ⟨up, link, same⟩⟩
    · rw [same] at bare
      exact ⟨fun here => busy (here ▸ bare.emptied kept.backed), bare⟩
    · rw [same] at bare
      exact (removed.bare kept.wired bare).imp_right fun still => still (top x)
    · rw [same] at bare
      obtain ⟨apart, later⟩ := ih (kept.removed emptied removed) (by omega) bare
      refine (removed.bare kept.wired later).imp_right fun still => still ?_
      rw [link]
      exact fun same => apart (ParentLink.hash.inj same).symm

lemma Kept.prunes (hashes : List η) :
    (hashes.foldl (fun s hash => State.pruneEmptyLeaf (s.blocks.keys.length + 1) s hash) s).Kept ∧
      ∀ x, (hashes.foldl (fun s hash =>
        State.pruneEmptyLeaf (s.blocks.keys.length + 1) s hash) s).Bare x → x ∉ hashes ∧ s.Bare x := by
  induction hashes generalizing s with
  | nil => exact ⟨kept, fun x bare => ⟨by simp, bare⟩⟩
  | cons h rest ih =>
    obtain ⟨kept', bares⟩ := ih (kept.pruneEmptyLeaf (s.blocks.keys.length + 1) h)
    refine ⟨kept', fun x bare => ?_⟩
    obtain ⟨out, pruned⟩ := bares x bare
    obtain ⟨apart, before⟩ := kept.bare_pruneEmptyLeaf (Nat.lt_succ_self _) pruned
    exact ⟨by simp [apart, out], before⟩

/-- Every batch keeps the graph and leaves no bare block. -/
lemma Kept.apply (clean : ∀ x, ¬ s.Bare x) :
    (s.apply pick req).1.Kept ∧ ∀ x, ¬ (s.apply pick req).1.Bare x := by
  rcases apply_cases pick s req with refused | ⟨planned, applied⟩
  · rw [refused]
    exact ⟨kept, clean⟩
  rw [applied]
  have noted := planned.applyActions pick kept.wired kept.tallied
  obtain ⟨recorded, kept'⟩ := kept.recompute planned noted
  obtain ⟨pruned, bares⟩ := kept'.prunes (s.applyActions pick req).revokedHashes
  refine ⟨pruned, fun x bare => ?_⟩
  obtain ⟨out, before⟩ := bares x bare
  have acted := recorded.bare before
  rw [(planned.applyActions_eq pick).2] at out acted
  refine out (Bare.of_actions (fun y old => absurd ?_ (clean y)) acted)
  exact old.congr id rfl rfl

end

/-! ### The claims in the terms of the maps -/

/-- A worker's placements: tier, block and components. -/
def placementsOf (s : State ω η) (w : ω) : List (Tier × η × Nat) :=
  s.blocks.entries.flatMap fun e => e.2.placements.entries.filterMap fun p =>
    if p.1.1 = w then some (p.1.2, e.1, p.2) else none

lemma mem_placementsOf {m : Nat} : (t, h, m) ∈ s.placementsOf w ↔ s.maskOf h w t = some m := by
  unfold placementsOf maskOf block
  rw [mem_flatMap]
  constructor
  · rintro ⟨⟨x, b⟩, mem, found⟩
    obtain ⟨⟨⟨holder, tier⟩, mask⟩, inside, same⟩ := mem_filterMap.mp found
    have lookup := AList.mem_lookup_iff.mpr mem
    split at same
    · rename_i self
      obtain ⟨rfl, rfl, rfl⟩ : tier = t ∧ x = h ∧ mask = m := by simpa using same
      subst self
      rw [lookup]
      exact AList.mem_lookup_iff.mpr inside
    · cases same
  · intro found
    cases lookup : s.blocks.lookup h with
    | none =>
      rw [lookup] at found
      cases found
    | some b =>
      rw [lookup] at found
      refine ⟨⟨h, b⟩, AList.mem_lookup_iff.mp lookup, mem_filterMap.mpr ?_⟩
      exact ⟨⟨(w, t), m⟩, AList.mem_lookup_iff.mp found, if_pos rfl⟩

omit [DecidableEq η] in
/-- A tier of a block is listed once. -/
lemma nodup_placementsOf : ((s.placementsOf w).map fun p => (p.1, p.2.1)).Nodup := by
  have inner : ∀ e : Sigma fun _ : η => Block ω η,
      ((e.2.placements.entries.filterMap fun p =>
        if p.1.1 = w then some (p.1.2, e.1, p.2) else none).map fun p => (p.1, p.2.1)) =
      e.2.placements.keys.filterMap fun k => if k.1 = w then some (k.2, e.1) else none := by
    intro e
    rw [map_filterMap, AList.keys, keys, filterMap_map]
    apply filterMap_congr
    intro p _
    by_cases self : p.1.1 = w <;> simp
  unfold placementsOf
  rw [map_flatMap]
  simp only [inner]
  refine nodup_flatMap.mpr ⟨fun e _ => ?_, ?_⟩
  · refine .filterMap (fun k k' b first second => ?_) (AList.keys_nodup _)
    by_cases self : k.1 = w
    · by_cases self' : k'.1 = w
      · simp only [self, self', if_true, mem_def, some.injEq] at first second
        exact Prod.ext (self.trans self'.symm) (congrArg Prod.fst (first.trans second.symm))
      · simp [self'] at second
    · simp [self] at first
  · have block_of : ∀ {e : Sigma fun _ => Block ω η} {p : Tier × η},
        (p ∈ e.2.placements.keys.filterMap fun k => if k.1 = w then some (k.2, e.1) else none) →
          p.2 = e.1 := by
      intro e p mem
      obtain ⟨k, -, eq⟩ := mem_filterMap.mp mem
      split at eq
      · exact (congrArg Prod.snd (some.inj eq)).symm
      · cases eq
    refine (nodupKeys_iff_pairwise.mp s.blocks.nodupKeys).imp fun apart p first second => ?_
    exact apart ((block_of first).symm.trans (block_of second))

/-- The count is over the placements themselves. -/
lemma Tallied.count_eq (tallied : s.Tallied w) : (s.worker w).componentPlacementCount =
    (s.placementsOf w).countP fun p => p.2.2 != 0 := by
  have perm : (s.worker w).holdings.Perm ((s.placementsOf w).map fun p => (p.1, p.2.1)) := by
    apply (perm_ext_iff_of_nodup tallied.nodup nodup_placementsOf).mpr
    intro held
    obtain ⟨t, h⟩ := held
    rw [tallied.held, isSome_iff_exists, List.mem_map]
    constructor
    · rintro ⟨m, found⟩
      exact ⟨(t, h, m), mem_placementsOf.mpr found, rfl⟩
    · rintro ⟨⟨t', h', m⟩, mem, same⟩
      cases same
      exact ⟨m, mem_placementsOf.mp mem⟩
  rw [tallied.count, perm.countP_eq, countP_map]
  apply countP_congr
  intro p mem
  have found : s.maskOf p.2.1 w p.1 = some p.2.2 := mem_placementsOf.mp mem
  simp [carries, found]

/-- What holds of the graph and the counters of a state, in its own terms. -/
structure Consistent (s : State ω η) : Prop where
  children : ∀ x y, y ∈ (s.block x).children ↔ (s.block y).parent = .hash x
  acyclic : ∀ h, ¬ Relation.TransGen (fun up h => (s.block h).parent = .hash up) h h
  holdings : ∀ w t h, h ∈ s.heldAt w t ↔ (s.maskOf h w t).isSome
  count : ∀ w, (s.worker w).componentPlacementCount = (s.placementsOf w).countP fun p => p.2.2 != 0
  pruned : ∀ h b, s.blocks.lookup h = some b → b.placements.entries.isEmpty = true → b.children ≠ []

lemma Kept.consistent (kept : s.Kept) (clean : ∀ x, ¬ s.Bare x) : s.Consistent where
  children := kept.wired.children
  acyclic h := (kept.grounded h).not_below_self
  holdings w t h := by
    rw [← (kept.tallied w).held t h]
    simp [heldAt]
  count w := (kept.tallied w).count_eq
  pruned h b found placements children := by
    have here : s.block h = b := by rw [block, found]; rfl
    exact clean h ⟨by simp [found], here ▸ placements, here ▸ children⟩

/-! ### Every run of calls -/

/-- A call; `pick` is the order in which it meets the members of sets. -/
inductive Call (ω η : Type)
  | apply (pick : List η → List η) (req : ApplyRequest ω η)
  | countHits (hashes : List η)

/-- The state under any calls. A call that returns an error leaves its state to the next one. -/
def callMachine (ω η : Type) [DecidableEq ω] [DecidableEq η] : Machine (State ω η) (Call ω η) where
  start s := s = {}
  allowed
    | _, .apply pick _ => ∀ l, (pick l).Perm l
    | _, .countHits _ => True
  step
    | s, .apply pick req => some (s.apply pick req).1
    | s, .countHits hashes => some (s.countHits hashes)

lemma Kept.countHits (kept : s.Kept) (hashes : List η) : (s.countHits hashes).Kept :=
  ⟨kept.wired.congr (fun _ => rfl) (fun _ => rfl) fun _ _ _ => id,
    fun w => (kept.tallied w).congr rfl fun _ _ => rfl, kept.grounded, kept.backed⟩

lemma callMachine_kept : (callMachine ω η).Inductive fun s => s.Kept ∧ ∀ x, ¬ s.Bare x where
  start s first := by
    cases first
    exact ⟨kept_empty, fun x bare => by simpa using bare.there⟩
  step s call s' kept _ ran := by
    cases call with
    | countHits hashes =>
      cases ran
      exact ⟨kept.1.countHits hashes, fun x bare => kept.2 x (bare.congr id rfl rfl)⟩
    | apply pick req =>
      cases ran
      exact kept.1.apply kept.2

/-- After any calls the graph is consistent, and a call that returns an error changes nothing. -/
theorem reachable_consistent {s : State ω η} (reached : (callMachine ω η).Reachable s) :
    s.Consistent ∧ ∀ pick req, (s.apply pick req).2 = false → (s.apply pick req).1 = s := by
  obtain ⟨kept, clean⟩ := callMachine_kept.reachable reached
  refine ⟨kept.consistent clean, fun pick req failed => ?_⟩
  rcases apply_cases pick s req with refused | ⟨-, applied⟩
  · rw [refused]
  · rw [applied] at failed
    cases failed

def requestOf (actions : List (Action Nat)) : ApplyRequest Nat Nat :=
  ⟨0, "worker-0", none, actions⟩

/-- Two chains that share a head are reported and the longer one is revoked again; then a request
would close a cycle, and another one names an unsupported type after a report. -/
theorem reachable_consistent_shared_head :
    ∃ s : State Nat Nat, (callMachine Nat Nat).Reachable s ∧
      s.Consistent ∧ s.heldAt 0 .hbm = [4] ∧ s.blocks.keys = [1, 4] ∧
      (s.apply id (requestOf [.report .hbm (some 4) [1] [] []])).1 = s ∧
      (s.apply id (requestOf [.report .hbm none [7] [] [], .unsupported])).1 = s := by
  let actions : List (Action Nat) := [.report .hbm none [1, 2, 3] [] [],
    .report .hbm (some 1) [4] [] [], .revoke .hbm [1, 2, 3]]
  have any_order : ∀ l : List Nat, (id l).Perm l := .refl
  have reached : (callMachine Nat Nat).Reachable (State.apply id {} (requestOf actions)).1 :=
    .step (a := .apply id (requestOf actions)) (.start rfl) any_order rfl
  obtain ⟨consistent, unchanged⟩ := reachable_consistent reached
  exact ⟨_, reached, consistent, by decide +kernel, by decide +kernel,
    unchanged id _ (by decide +kernel), unchanged id _ (by decide +kernel)⟩

end State

end Sglang.Indexer
