/-
# The KV indexer: the sets of complete workers, and pruning

Each block records the workers that can serve the whole way from the root to it. A batch repairs
these sets in two ways, chain by chain for what it reports and breadth first below what else is
dirty, and prunes the blocks that have nothing left in them.

* `State.Recorded` — all that a repair changes is the worker's own membership in the sets.
* `State.Repaired` — and it adds the worker only where it has a placement.
* `State.Removed` — what is left after a block is pruned.
-/

import Sglang.Indexer.Links

namespace Sglang.Indexer

open Sglang.Lib List Option AList

variable {ω η : Type} [DecidableEq ω] [DecidableEq η]

namespace State

variable {s s' mid start : State ω η} {w v : ω} {h h' : η} {t : Tier}

/-! ### Recording -/

/-- The worker is in the block's set. -/
def complete (s : State ω η) (w : ω) (h : η) : Bool :=
  decide (w ∈ (s.block h).prefixCompleteWorkers)

/-- Only the worker's own membership in the sets differs. -/
structure Recorded (w : ω) (s s' : State ω η) : Prop where
  workers : s'.workers = s.workers
  block : ∀ h, ∃ set, s'.block h = { s.block h with prefixCompleteWorkers := set }
  known : ∀ h, (s'.blocks.lookup h).isSome = (s.blocks.lookup h).isSome
  other : ∀ v, v ≠ w → ∀ h, s'.complete v h = s.complete v h

lemma Recorded.refl : Recorded w s s :=
  ⟨rfl, fun _ => ⟨_, rfl⟩, fun _ => rfl, fun _ _ _ => rfl⟩

lemma Recorded.trans (first : Recorded w s mid) (second : Recorded w mid s') : Recorded w s s' where
  workers := second.workers.trans first.workers
  block h := by
    obtain ⟨set, eq⟩ := second.block h
    obtain ⟨old, eq'⟩ := first.block h
    exact ⟨set, by rw [eq, eq']⟩
  known h := (second.known h).trans (first.known h)
  other v other h := (second.other v other h).trans (first.other v other h)

section

variable (recorded : Recorded w s s')
include recorded

lemma Recorded.parent (h : η) : (s'.block h).parent = (s.block h).parent := by
  obtain ⟨set, eq⟩ := recorded.block h
  rw [eq]

lemma Recorded.children (h : η) : (s'.block h).children = (s.block h).children := by
  obtain ⟨set, eq⟩ := recorded.block h
  rw [eq]

lemma Recorded.placements (h : η) : (s'.block h).placements = (s.block h).placements := by
  obtain ⟨set, eq⟩ := recorded.block h
  rw [eq]

lemma Recorded.maskOf (h : η) (v : ω) (t : Tier) : s'.maskOf h v t = s.maskOf h v t := by
  rw [State.maskOf, recorded.placements]
  rfl

lemma Recorded.worker (v : ω) : s'.worker v = s.worker v := by
  rw [State.worker, recorded.workers]
  rfl

lemma Recorded.wired (wired : s.Wired) : s'.Wired :=
  wired.congr recorded.children recorded.parent fun h v t => (recorded.maskOf h v t).trans

lemma Recorded.tallied (tallied : s.Tallied v) : s'.Tallied v :=
  tallied.congr (recorded.worker v) fun h => recorded.maskOf h v

end

section

variable {c : Bool}

lemma lookup_setComplete : (s.setComplete w h c).blocks.lookup h' =
    if h' = h then (s.blocks.lookup h).map fun b =>
      { b with prefixCompleteWorkers :=
          if c then b.prefixCompleteWorkers.insert w
          else b.prefixCompleteWorkers.filter fun v => decide (v ≠ w) }
    else s.blocks.lookup h' :=
  Table.lookup_modify s.blocks

lemma complete_setComplete (known : (s.blocks.lookup h).isSome) :
    (s.setComplete w h c).complete v h' = if h' = h ∧ v = w then c else s.complete v h' := by
  obtain ⟨b, found⟩ := isSome_iff_exists.mp known
  unfold complete block
  rw [lookup_setComplete]
  by_cases here : h' = h
  · subst here
    rw [found]
    cases c <;> by_cases self : v = w <;> simp [self]
  · rw [if_neg here, if_neg fun both => here both.1]

lemma recorded_setComplete : Recorded w s (s.setComplete w h c) where
  workers := rfl
  block h' := by
    unfold block
    rw [lookup_setComplete]
    split
    · rename_i here
      subst here
      cases s.blocks.lookup h' with
      | none => exact ⟨[], rfl⟩
      | some b => exact ⟨_, rfl⟩
    · exact ⟨_, rfl⟩
  known h' := by
    rw [lookup_setComplete]
    split
    · rename_i here
      rw [here, isSome_map]
    · rfl
  other v other h' := by
    cases found : s.blocks.lookup h with
    | some b =>
      rw [complete_setComplete (by simp [found])]
      exact if_neg fun both => other both.2
    | none =>
      unfold complete block
      rw [lookup_setComplete]
      split
      · rename_i here
        rw [here, found]
        rfl
      · rfl

end

/-! ### Repairing -/

/-- The worker has a placement of the block. -/
def Placed (s : State ω η) (w : ω) (h : η) : Prop := ∃ t, (s.maskOf h w t).isSome

lemma Recorded.placed (recorded : Recorded w s s') (v : ω) (h : η) :
    s'.Placed v h ↔ s.Placed v h := by
  simp only [Placed, recorded.maskOf]

/-- What a worker serves is placed. -/
lemma Tallied.placed_of_servable (tallied : s.Tallied w) {kind : FastPathKind}
    (served : s.blockServable h w kind = true) : s.Placed w h := by
  cases kind with
  | legacy =>
    obtain ⟨r, found, holds⟩ := (any_eq_true _ _).mp served
    obtain ⟨⟨t, x⟩, mem, same⟩ := List.any_eq_true.mp holds
    obtain rfl : x = h := by simpa using same
    have here : s.worker w = r := by rw [worker, found]; rfl
    exact ⟨t, (tallied.held t x).mp (here ▸ mem)⟩
  | fullOnly tierMask =>
    obtain ⟨b, found, placed⟩ := (any_eq_true _ _).mp served
    obtain ⟨⟨⟨x, t⟩, m⟩, mem, both⟩ := List.any_eq_true.mp placed
    simp only [Bool.and_eq_true, decide_eq_true_eq] at both
    obtain ⟨⟨rfl, -⟩, -⟩ := both
    have here : s.block h = b := by rw [block, found]; rfl
    exact ⟨t, by rw [maskOf, here, mem_lookup_iff.mpr mem]; rfl⟩

/-- A repair on the way from `start`: where the worker is complete afterwards it has a placement,
or it was complete before and the block was left alone. -/
structure Repaired (w : ω) (start s s' : State ω η) (touched : List η) : Prop where
  recorded : Recorded w start s'
  backed : ∀ x, s'.complete w x = true → start.Placed w x ∨ x ∉ touched ∧ s.complete w x = true

lemma Repaired.refl (recorded : Recorded w start s) : Repaired w start s s [] :=
  ⟨recorded, fun _ raised => .inr ⟨not_mem_nil, raised⟩⟩

lemma Repaired.trans {first second : List η} (one : Repaired w start s mid first)
    (two : Repaired w start mid s' second) : Repaired w start s s' (first ++ second) := by
  refine ⟨two.recorded, fun x raised => ?_⟩
  rcases two.backed x raised with placed | ⟨out, before⟩
  · exact .inl placed
  · refine (one.backed x before).imp_right (And.imp_left fun out' mem => ?_)
    exact (mem_append.mp mem).elim out' out

lemma Repaired.mono {first second : List η} (repaired : Repaired w start s s' first)
    (fewer : second ⊆ first) : Repaired w start s s' second :=
  ⟨repaired.recorded, fun x raised =>
    (repaired.backed x raised).imp_right (And.imp_left fun out mem => out (fewer mem))⟩

/-- A block at which the worker is not complete without a placement need not be touched. -/
lemma Repaired.skip (recorded : Recorded w start s)
    (placed : s.complete w h = true → start.Placed w h) : Repaired w start s s [h] := by
  refine ⟨recorded, fun x raised => or_iff_not_imp_left.mpr fun bare => ⟨fun mem => ?_, raised⟩⟩
  obtain rfl := mem_singleton.mp mem
  exact bare (placed raised)

lemma not_complete_of_missing (missing : s.blocks.lookup h = none) : s.complete w h = false := by
  simp [complete, block, missing, default]

section

variable (tallied : start.Tallied w) (recorded : Recorded w start s)
include tallied recorded

/-- A worker is recorded as complete only where it serves. -/
lemma repaired_setComplete {c : Bool} (there : (s.blocks.lookup h).isSome)
    (served : c = true → ∃ kind, s.blockServable h w kind = true) :
    Repaired w start s (s.setComplete w h c) [h] := by
  refine ⟨recorded.trans recorded_setComplete, fun x raised => ?_⟩
  rw [complete_setComplete there] at raised
  split at raised
  · rename_i here
    obtain ⟨kind, serves⟩ := served raised
    rw [here.1, ← recorded.placed]
    exact .inl ((recorded.tallied tallied).placed_of_servable serves)
  · rename_i other
    refine .inr ⟨fun mem => other ⟨mem_singleton.mp mem, rfl⟩, raised⟩

variable {pick : List η → List η}

/-- **Breadth first.** Each round takes one block off the queue. -/
lemma repaired_recomputeLoop (kind : Option FastPathKind) (fuel : Nat) (queue visited : List η)
    (done : ∀ x ∈ visited, s.complete w x = true → start.Placed w x) :
    Repaired w start s (recomputeLoop pick kind w fuel s queue visited) (queue.take fuel) := by
  induction fuel generalizing s queue visited with
  | zero => exact .refl recorded
  | succ fuel ih =>
    cases queue with
    | nil => exact .refl recorded
    | cons h queue =>
      unfold recomputeLoop
      by_cases seen : h ∈ visited
      · rw [if_pos seen]
        exact (Repaired.skip recorded (done h seen)).trans (ih recorded queue visited done)
      rw [if_neg seen]
      cases found : s.blocks.lookup h with
      | none =>
        have never : s.complete w h = true → start.Placed w h := fun raised => by
          rw [not_complete_of_missing found] at raised
          cases raised
        refine (Repaired.skip recorded never).trans (ih recorded queue _ fun x mem => ?_)
        exact (mem_cons.mp mem).elim (fun here => here ▸ never) (done x)
      | some b =>
        have set := repaired_setComplete tallied recorded (h := h)
          (c := kind.any fun kind => s.parentComplete w h && s.blockServable h w kind)
          (by simp [found]) fun raised => by
            obtain ⟨kind, -, both⟩ := (any_eq_true _ _).mp raised
            exact ⟨kind, (Bool.and_eq_true_iff.mp both).2⟩
        refine (set.trans (ih set.recorded (queue ++ pick b.children) (h :: visited)
          fun x mem raised => ?_)).mono ?_
        · rcases set.backed x raised with placed | ⟨other, before⟩
          · exact placed
          · exact done x ((mem_cons.mp mem).resolve_left fun here => other (mem_singleton.mpr here)) before
        · rw [take_succ_cons, take_append]
          exact cons_subset_cons h (subset_append_left _ _)

/-- The loop does not end before it has taken every root. -/
lemma repaired_recomputeWorkerSubtrees (roots : List η) :
    Repaired w start s (s.recomputeWorkerSubtrees pick w roots) roots := by
  have swept : Repaired w start s (s.recomputeWorkerSubtrees pick w roots) _ :=
    repaired_recomputeLoop tallied recorded _ _ roots [] (by simp)
  have enough : roots.length ≤ s.recomputeFuel roots := Nat.le_add_right _ _
  rwa [take_of_length_le enough] at swept

/-- **Chain by chain.** -/
lemma repaired_refreshLoop (kind : Option FastPathKind) (reportedHashes hashes : List η)
    (above : Bool) :
    Repaired w start s (refreshLoop pick kind w reportedHashes s above hashes).1 hashes := by
  induction hashes generalizing s above with
  | nil => exact .refl recorded
  | cons h rest ih =>
    unfold refreshLoop
    dsimp only
    split
    · rename_i there
      have set := repaired_setComplete tallied recorded
        (c := kind.any fun kind => above && s.blockServable h w kind) there fun raised => by
          obtain ⟨kind, -, both⟩ := (any_eq_true _ _).mp raised
          exact ⟨kind, (Bool.and_eq_true_iff.mp both).2⟩
      exact set.trans (ih set.recorded _)
    · rename_i missing
      refine (Repaired.skip recorded fun raised => ?_).trans (ih recorded above)
      rw [not_complete_of_missing (by simpa using missing)] at raised
      cases raised

lemma repaired_refreshAll (dirtyRoots : List η) (chains : List (List η)) :
    Repaired w start s (s.refreshAll pick w dirtyRoots chains).1 chains.flatten ∧
      dirtyRoots ⊆ (s.refreshAll pick w dirtyRoots chains).2 := by
  induction chains generalizing s dirtyRoots with
  | nil => exact ⟨.refl recorded, fun _ => id⟩
  | cons hashes chains ih =>
    have first : Repaired w start s (s.refreshLinearReportChain pick w hashes).1 hashes :=
      repaired_refreshLoop tallied recorded _ _ _ _
    obtain ⟨later, grown⟩ := ih first.recorded
      (dirtyRoots ++ (s.refreshLinearReportChain pick w hashes).2)
    exact ⟨first.trans later, fun x mem => grown (mem_append_left _ mem)⟩

end

lemma lookup_forgetComplete : (s.forgetComplete w).blocks.lookup h =
    (s.blocks.lookup h).map fun b =>
      { b with prefixCompleteWorkers := b.prefixCompleteWorkers.filter fun v => decide (v ≠ w) } :=
  Table.lookup_mapValues s.blocks

lemma complete_forgetComplete : (s.forgetComplete w).complete w h = false := by
  unfold complete block
  rw [lookup_forgetComplete]
  cases s.blocks.lookup h with
  | none => simp [default]
  | some b => simp

lemma recorded_forgetComplete : Recorded w s (s.forgetComplete w) := by
  refine ⟨rfl, fun h => ?_, fun h => by rw [lookup_forgetComplete, isSome_map], fun v other h => ?_⟩
  · unfold block
    rw [lookup_forgetComplete]
    cases s.blocks.lookup h with
    | none => exact ⟨[], rfl⟩
    | some b => exact ⟨_, rfl⟩
  · unfold complete block
    rw [lookup_forgetComplete]
    cases s.blocks.lookup h with
    | none => rfl
    | some b => simp [other]

/-! ### Pruning -/

/-- A block is gone, also from its parent's children. -/
structure Removed (h : η) (s s' : State ω η) : Prop where
  workers : s'.workers = s.workers
  known : ∀ h', (s'.blocks.lookup h').isSome → h' ≠ h ∧ (s.blocks.lookup h').isSome
  block : ∀ h', s'.block h' = if h' = h then default else
    { s.block h' with children := (s.block h').children.filter fun child => decide (child ≠ h) }

omit [DecidableEq ω] in
lemma block_erase : { s with blocks := s.blocks.erase h }.block h' =
    if h' = h then default else s.block h' := by
  unfold block
  split
  · rename_i here
    rw [here, lookup_erase]
    rfl
  · rename_i other
    rw [lookup_erase_ne other]

lemma Wired.removed (wired : s.Wired) : Removed h s (match (s.block h).parent with
    | .hash up => { s with blocks := Table.modify (s.blocks.erase h) up fun p =>
      { p with children := p.children.filter fun child => decide (child ≠ h) } }
    | _ => { s with blocks := s.blocks.erase h }) := by
  have keeps : ∀ h', (s.block h).parent ≠ .hash h' →
      (s.block h').children.filter (fun child => decide (child ≠ h)) = (s.block h').children := by
    intro h' other
    apply filter_eq_self.mpr
    intro child mem
    have apart : child ≠ h := fun same => other ((wired.children h' h).mp (same ▸ mem))
    simpa using apart
  have known : ∀ h', ((s.blocks.erase h).lookup h').isSome →
      h' ≠ h ∧ (s.blocks.lookup h').isSome := by
    intro h' there
    rw [Table.lookup_erase_eq] at there
    split at there
    · cases there
    · rename_i other
      exact ⟨other, there⟩
  cases link : (s.block h).parent with
  | unknown | root =>
    refine ⟨rfl, known, fun h' => ?_⟩
    rw [block_erase, keeps h' (by simp [link])]
  | hash up =>
    refine ⟨rfl, fun h' there => known h' ?_, fun h' => ?_⟩
    · rw [Table.lookup_modify] at there
      split at there
      · rename_i above
        rwa [above, ← isSome_map]
      · exact there
    rw [block_modify (s := { s with blocks := s.blocks.erase h }) rfl, block_erase, block_erase]
    by_cases above : h' = up
    · subst above
      rw [if_pos rfl]
      split <;> rfl
    · have other : (s.block h).parent ≠ .hash h' := by
        rw [link]
        exact fun same => above (ParentLink.hash.inj same).symm
      rw [if_neg above, keeps h' other]

/-- A block that is there without placements and without children. -/
structure Bare (s : State ω η) (h : η) : Prop where
  there : (s.blocks.lookup h).isSome
  placements : (s.block h).placements.entries.isEmpty = true
  children : (s.block h).children = []

/-- A block that is there with nothing in it at all. -/
structure Emptied (s : State ω η) (h : η) : Prop extends s.Bare h where
  alone : (s.block h).prefixCompleteWorkers = []

lemma Bare.maskOf (bare : s.Bare h) (v : ω) (t : Tier) : s.maskOf h v t = none :=
  (Table.isEmpty_iff _).mp bare.placements (v, t)

section

variable (removed : Removed h s s') (emptied : s.Emptied h)
include removed

omit [DecidableEq ω] in
lemma Removed.parent (h' : η) :
    (s'.block h').parent = if h' = h then .unknown else (s.block h').parent := by
  rw [removed.block]
  split <;> rfl

include emptied

lemma Removed.maskOf (h' : η) (v : ω) (t : Tier) : s'.maskOf h' v t = s.maskOf h' v t := by
  unfold State.maskOf
  rw [removed.block]
  split
  · rename_i here
    rw [here]
    exact (emptied.toBare.maskOf v t).symm
  · rfl

lemma Removed.complete (h' : η) (v : ω) : s'.complete v h' = s.complete v h' := by
  unfold State.complete
  rw [removed.block]
  split
  · rename_i here
    simp [here, emptied.alone, default]
  · rfl

lemma Removed.tallied (tallied : s.Tallied v) : s'.Tallied v :=
  tallied.congr (by rw [worker, removed.workers]; rfl) fun h' => removed.maskOf emptied h' v

lemma Removed.wired (wired : s.Wired) : s'.Wired := by
  refine ⟨fun x y => ?_, fun h' unknown v t => ?_⟩
  · rw [removed.parent, removed.block]
    by_cases gone : x = h
    · subst gone
      have childless : (s.block y).parent ≠ .hash x := fun link => by
        rw [← wired.children x y, emptied.children] at link
        simp at link
      rw [if_pos rfl]
      split <;> simp [default, childless]
    · rw [if_neg gone]
      rw [mem_filter, wired.children x y]
      by_cases here : y = h <;> simp [here]
  · rw [removed.maskOf emptied]
    rw [removed.parent] at unknown
    split at unknown
    · rename_i here
      exact here ▸ emptied.toBare.maskOf v t
    · exact wired.placed h' unknown v t

end

/-- One round of pruning: nothing happens, or a block goes and its parent is next. -/
lemma pruneEmptyLeaf_cases (wired : s.Wired) (fuel : Nat) (h : η) :
    ¬ s.Emptied h ∧ s.pruneEmptyLeaf (fuel + 1) h = s ∨
      s.Emptied h ∧ ∃ s', Removed h s s' ∧ s'.blocks.keys.length + 1 = s.blocks.keys.length ∧
        ((∀ up, (s.block h).parent ≠ .hash up) ∧ s.pruneEmptyLeaf (fuel + 1) h = s' ∨
          ∃ up, (s.block h).parent = .hash up ∧
            s.pruneEmptyLeaf (fuel + 1) h = s'.pruneEmptyLeaf fuel up) := by
  rw [pruneEmptyLeaf]
  cases found : s.blocks.lookup h with
  | none =>
    refine .inl ⟨fun emptied => ?_, rfl⟩
    have there := emptied.there
    rw [found] at there
    cases there
  | some b =>
    have here : s.block h = b := by rw [block, found]; rfl
    dsimp only [Option.elim]
    split
    · rename_i empty
      simp only [Bool.and_eq_true, List.isEmpty_iff, ← here] at empty
      obtain ⟨⟨placements, children⟩, alone⟩ := empty
      refine .inr ⟨⟨⟨by simp [found], isEmpty_iff.mpr placements, children⟩, alone⟩,
        _, wired.removed, ?_⟩
      have fewer : (s.blocks.erase h).keys.length + 1 = s.blocks.keys.length := by
        have mem : h ∈ s.blocks.keys :=
          mem_keys.mp (lookup_isSome.mp (by simp [found]))
        rw [keys_erase, length_erase_of_mem mem]
        have := length_pos_of_mem mem
        omega
      rw [here]
      cases b.parent with
      | unknown | root => exact ⟨fewer, .inl ⟨by simp, rfl⟩⟩
      | hash up =>
        refine ⟨?_, .inr ⟨up, rfl, rfl⟩⟩
        rw [Table.length_modify]
        exact fewer
    · rename_i busy
      refine .inl ⟨fun emptied => busy ?_, rfl⟩
      simp [← here, isEmpty_iff.mp emptied.placements, emptied.children, emptied.alone]

/-- What no removal of an empty block breaks, pruning does not break. -/
lemma pruneEmptyLeaf_rule {P : State ω η → Prop} (wired : ∀ s, P s → s.Wired)
    (step : ∀ s s' h, P s → s.Emptied h → Removed h s s' → P s') (fuel : Nat) (h : η)
    (start : P s) : P (s.pruneEmptyLeaf fuel h) := by
  induction fuel generalizing s h with
  | zero => exact start
  | succ fuel ih =>
    rcases pruneEmptyLeaf_cases (wired s start) fuel h with
      ⟨-, same⟩ | ⟨emptied, s', removed, -, ⟨-, same⟩ | ⟨up, -, same⟩⟩
    · rw [same]
      exact start
    · rw [same]
      exact step s s' h start emptied removed
    · rw [same]
      exact ih up (step s s' h start emptied removed)

end State

end Sglang.Indexer
