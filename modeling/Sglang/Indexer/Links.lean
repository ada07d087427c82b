/-
# The KV indexer: what a batch does to blocks and placements

The parent graph and the per-worker counters, apart from the derived sets of complete workers.

* `State.Wired` — children mirror parents, and nothing is placed on a block without a parent
  link; `State.Tallied` — a worker's holdings and its count of component placements are right.
* `Plan` — what an accepted batch is known to do to parent links: none that is known changes,
  every reported chain follows the plan, and the plan has no cycles.
* `State.Acts` — everything the actions of a batch leave alone.
-/

import Mathlib.Data.List.Count
import Mathlib.Order.WellFounded
import Sglang.Indexer.Backend

namespace Sglang.Indexer

open Sglang.Lib List AList

variable {ω η : Type} [DecidableEq ω] [DecidableEq η] {holdings : List (Tier × η)}

namespace State

variable {s s' : State ω η} {w v : ω} {h h' : η} {t : Tier}

/-- The components a worker has resident on a tier of a block. -/
def maskOf (s : State ω η) (h : η) (w : ω) (t : Tier) : Option Nat :=
  (s.block h).placements.lookup (w, t)

omit [DecidableEq ω] in
lemma block_updateBlock (f : Block ω η → Block ω η) :
    (s.updateBlock h f).block h' = if h' = h then f (s.block h) else s.block h' := by
  unfold block updateBlock
  rw [Table.lookup_update]
  split <;> rfl

omit [DecidableEq ω] in
@[simp] lemma workers_updateBlock (f : Block ω η → Block ω η) :
    (s.updateBlock h f).workers = s.workers := rfl

section

variable (f : WorkerRecord η → WorkerRecord η)

@[simp] lemma block_updateWorker : (s.updateWorker w f).block h = s.block h := rfl

omit [DecidableEq η] in
lemma lookup_updateWorker : (s.updateWorker w f).workers.lookup v =
      if v = w then some (f (s.worker w)) else s.workers.lookup v :=
  Table.lookup_update s.workers

omit [DecidableEq η] in
lemma worker_updateWorker :
    (s.updateWorker w f).worker v = if v = w then f (s.worker w) else s.worker v := by
  rw [worker, lookup_updateWorker]
  split <;> rfl

end

omit [DecidableEq ω] in
/-- A rewriting that leaves an empty block empty is the same through `get_mut`. -/
lemma block_modify {f : Block ω η → Block ω η} (bare : f default = default) :
    { s with blocks := s.blocks.modify h f }.block h' = if h' = h then f (s.block h) else s.block h' := by
  change ((s.blocks.modify h f).lookup h').getD default = _
  rw [Table.lookup_modify]
  split
  · cases found : s.blocks.lookup h with
    | none => simp [block, found, bare]
    | some b => simp [block, found]
  · rfl

/-! ### Wiring and tallies -/

structure Wired (s : State ω η) : Prop where
  children : ∀ x y, y ∈ (s.block x).children ↔ (s.block y).parent = .hash x
  placed : ∀ h, (s.block h).parent = .unknown → ∀ w t, s.maskOf h w t = none

/-- A placement carries components. -/
def carries (s : State ω η) (w : ω) (held : Tier × η) : Bool :=
  (s.maskOf held.2 w held.1).any (· != 0)

structure Tallied (s : State ω η) (w : ω) : Prop where
  nodup : (s.worker w).holdings.Nodup
  held : ∀ t h, (t, h) ∈ (s.worker w).holdings ↔ (s.maskOf h w t).isSome
  count : (s.worker w).componentPlacementCount = (s.worker w).holdings.countP (s.carries w)

lemma wired_empty : Wired ({} : State ω η) :=
  ⟨fun x y => by simp [block, default], fun _ _ _ _ => rfl⟩

lemma tallied_empty : Tallied ({} : State ω η) w :=
  ⟨nodup_nil, fun _ _ => by simp [worker, maskOf, block, default], rfl⟩

lemma Wired.congr (wired : s.Wired) (children : ∀ h, (s'.block h).children = (s.block h).children)
    (parent : ∀ h, (s'.block h).parent = (s.block h).parent)
    (mask : ∀ h w t, s.maskOf h w t = none → s'.maskOf h w t = none) : s'.Wired := by
  refine ⟨fun x y => ?_, fun h unknown w t => mask h w t (wired.placed h ?_ w t)⟩
  · rw [children, parent]
    exact wired.children x y
  · rw [← parent]
    exact unknown

lemma Tallied.congr (tallied : s.Tallied w) (worker : s'.worker w = s.worker w)
    (mask : ∀ h t, s'.maskOf h w t = s.maskOf h w t) : s'.Tallied w := by
  have carries : s'.carries w = s.carries w := by
    funext held
    rw [carries, mask]
    rfl
  refine ⟨?_, fun t h => ?_, ?_⟩
  · rw [worker]
    exact tallied.nodup
  · rw [worker, mask]
    exact tallied.held t h
  · rw [worker, carries]
    exact tallied.count

lemma countP_split {held : Tier × η} {p : Tier × η → Bool}
    (absent : held ∉ holdings → p held = false) :
    holdings.countP p = (holdings.erase held).countP p + if p held then 1 else 0 := by
  by_cases inside : held ∈ holdings
  · rw [(perm_cons_erase inside).countP_eq, countP_cons]
  · rw [erase_of_not_mem inside, absent inside]
    rfl

/-- The count without one placement, and that placement. -/
lemma Tallied.split (tallied : s.Tallied w) (t : Tier) (h : η) :
    (s.worker w).componentPlacementCount =
      ((s.worker w).holdings.erase (t, h)).countP (s.carries w) +
        if s.carries w (t, h) then 1 else 0 := by
  rw [tallied.count]
  apply countP_split
  intro out
  have free := mt (tallied.held t h).mpr out
  rw [Option.not_isSome_iff_eq_none] at free
  simp [carries, free]

/-- One placement of the worker is written or taken away. -/
lemma Tallied.write (tallied : s.Tallied w) (new : Option Nat) (holdings : List (Tier × η))
    (other : ∀ h' t', (t', h') ≠ (t, h) → s'.maskOf h' w t' = s.maskOf h' w t')
    (here : s'.maskOf h w t = new) (holds : (s'.worker w).holdings = holdings)
    (nodup : holdings.Nodup) (rest : holdings.erase (t, h) = (s.worker w).holdings.erase (t, h))
    (mem : (t, h) ∈ holdings ↔ new.isSome) (count : (s'.worker w).componentPlacementCount =
      adjustedCount (s.maskOf h w t) new (s.worker w).componentPlacementCount) :
    s'.Tallied w := by
  have before := tallied.split t h
  have same : ((s.worker w).holdings.erase (t, h)).countP (s'.carries w) =
      ((s.worker w).holdings.erase (t, h)).countP (s.carries w) := by
    apply countP_congr
    intro held inside
    obtain ⟨t', h'⟩ := held
    have apart : (t', h') ≠ (t, h) := fun same =>
      tallied.nodup.not_mem_erase (same ▸ inside)
    simp only [carries, other h' t' apart]
  refine ⟨holds ▸ nodup, fun t' h' => ?_, ?_⟩
  · rw [holds]
    by_cases at_ : (t', h') = (t, h)
    · cases at_
      rw [mem, here]
    · rw [other h' t' at_, ← tallied.held t' h', ← mem_erase_of_ne at_, rest,
        mem_erase_of_ne at_]
  · have carried : s'.carries w (t, h) = new.any (· != 0) := by rw [← here]; rfl
    have absent : (t, h) ∉ holdings → s'.carries w (t, h) = false := by
      intro out
      have erased : new = none := by simpa using mt mem.mpr out
      rw [carried, erased]
      rfl
    rw [holds, count, countP_split absent, rest, carried]
    have old : s.carries w (t, h) = (s.maskOf h w t).any (· != 0) := rfl
    rw [old] at before
    unfold adjustedCount
    dsimp only
    split at before <;> split <;> omega

/-! ### What the actions of a batch leave alone -/

/-- A worker's actions on some blocks. -/
structure Acts (w : ω) (touched : List η) (s s' : State ω η) : Prop where
  complete : ∀ h, (s'.block h).prefixCompleteWorkers = (s.block h).prefixCompleteWorkers
  mask : ∀ v, v ≠ w → ∀ h t, s'.maskOf h v t = s.maskOf h v t
  away : ∀ h, h ∉ touched → ∀ t, s'.maskOf h w t = s.maskOf h w t
  known : ∀ h, (s.block h).parent ≠ .unknown → (s'.block h).parent ≠ .unknown

variable {touched : List η} {mid : State ω η}

lemma Acts.refl : Acts w touched s s :=
  ⟨fun _ => rfl, fun _ _ _ _ => rfl, fun _ _ _ => rfl, fun _ => id⟩

lemma Acts.trans (first : Acts w touched s mid) (second : Acts w touched mid s') :
    Acts w touched s s' where
  complete h := (second.complete h).trans (first.complete h)
  mask v other h t := (second.mask v other h t).trans (first.mask v other h t)
  away h out t := (second.away h out t).trans (first.away h out t)
  known h := second.known h ∘ first.known h

/-! ### Linking -/

omit [DecidableEq ω] in
lemma block_linkBlock (parent : ParentLink η) : (s.linkBlock parent h).block h' =
    { s.block h' with
      children := if parent = .hash h' then (s.block h').children.insert h else (s.block h').children
      parent := if h' = h then parent else (s.block h').parent } := by
  unfold linkBlock
  rw [block_updateBlock]
  cases parent with
  | hash up =>
    rw [block_updateBlock, block_updateBlock]
    by_cases here : h' = h
    · subst here
      by_cases above : h' = up
      · subst above
        simp
      · simp [above, Ne.symm above]
    · by_cases above : h' = up
      · subst above
        simp [here]
      · simp [here, above, Ne.symm above]
  | unknown | root =>
    by_cases here : h' = h
    · subst here
      simp
    · simp [here]

omit [DecidableEq ω] in
@[simp] lemma workers_linkBlock (parent : ParentLink η) :
    (s.linkBlock parent h).workers = s.workers := by
  cases parent <;> rfl

@[simp] lemma maskOf_linkBlock (parent : ParentLink η) :
    (s.linkBlock parent h).maskOf h' v t = s.maskOf h' v t := by
  rw [maskOf, block_linkBlock]
  rfl

end State

/-- The parents that a state has, or will have after a batch. -/
def State.Fits (s : State ω η) (plan : η → ParentLink η) : Prop :=
  ∀ h, (s.block h).parent = .unknown ∨ (s.block h).parent = plan h

/-- A chain of blocks under a link, as planned. -/
def Follows (plan : η → ParentLink η) : ParentLink η → List η → Prop
  | _, [] => True
  | parent, h :: rest => plan h = parent ∧ Follows plan (.hash h) rest

/-- Walking up the planned parents from a block ends. -/
def Grounded (plan : η → ParentLink η) (h : η) : Prop := Acc (fun up h => plan h = .hash up) h

variable {hashes : List η} {plan plan' : η → ParentLink η}

omit [DecidableEq η] in
lemma Follows.mono {parent : ParentLink η} (start : parent ≠ .unknown)
    (same : ∀ h, plan h ≠ .unknown → plan' h = plan h) (follows : Follows plan parent hashes) :
    Follows plan' parent hashes := by
  induction hashes generalizing parent with
  | nil => trivial
  | cons h rest ih =>
    obtain ⟨here, below⟩ := follows
    exact ⟨(same h (here ▸ start)).trans here, ih (by simp) below⟩

omit [DecidableEq η] in
lemma Grounded.not_below_self {h : η} (grounded : Grounded plan h) :
    ¬ Relation.TransGen (fun up h => plan h = .hash up) h h := by
  have acc : Acc (Relation.TransGen fun up h => plan h = .hash up) h := grounded.transGen
  induction acc with
  | intro x _ ih => exact fun self => ih x self grounded self

namespace State

variable {s s' : State ω η} {w v : ω} {h h' : η} {t : Tier} {plan : η → ParentLink η}
  {parent : ParentLink η} {touched : List η}

/-- What holds of the parent graph and the counters. -/
structure Sound (s : State ω η) (plan : η → ParentLink η) : Prop where
  wired : s.Wired
  tallied : ∀ w, s.Tallied w
  fits : s.Fits plan

lemma Sound.linkBlock (sound : s.Sound plan) (known : parent ≠ .unknown) (planned : plan h = parent) :
    (s.linkBlock parent h).Sound plan := by
  have link : (s.block h).parent = .unknown ∨ (s.block h).parent = parent := planned ▸ sound.fits h
  refine ⟨⟨fun x y => ?_, fun h' unknown w t => ?_⟩, fun w => ?_, fun h' => ?_⟩
  · rw [block_linkBlock, block_linkBlock]
    dsimp only
    by_cases here : y = h
    · subst here
      rw [if_pos rfl]
      split
      · rename_i above
        simp [above]
      · rename_i other
        rw [sound.wired.children x y]
        refine iff_of_false (fun old => ?_) other
        rcases link with unknown | same
        · rw [unknown] at old
          cases old
        · exact other (same ▸ old)
    · rw [if_neg here, ← sound.wired.children x y]
      split
      · simp [here]
      · exact .rfl
  · rw [block_linkBlock] at unknown
    rw [maskOf_linkBlock]
    split at unknown
    · exact absurd unknown known
    · exact sound.wired.placed h' unknown w t
  · refine (sound.tallied w).congr ?_ fun h' t => maskOf_linkBlock parent
    rw [worker, workers_linkBlock]
    rfl
  · rw [block_linkBlock]
    split
    · rename_i here
      exact .inr (by rw [here, planned])
    · exact sound.fits h'

lemma acts_linkBlock (known : parent ≠ .unknown) : Acts w touched s (s.linkBlock parent h) where
  complete h' := by rw [block_linkBlock]
  mask v _ h' t := maskOf_linkBlock parent
  away h' _ t := maskOf_linkBlock parent
  known h' before := by
    rw [block_linkBlock]
    split
    · exact known
    · exact before

variable {hashes complete : List η} {mask tokenCount fuel size : Nat} {actions : List (Action η)}

/-- A chain is linked as planned. -/
lemma Sound.applyReportChain (sound : s.Sound plan) (known : parent ≠ .unknown)
    (follows : Follows plan parent hashes) (w : ω) :
    (s.applyReportChain parent hashes).Sound plan ∧
      Acts w touched s (s.applyReportChain parent hashes) ∧
      ∀ h ∈ hashes, ((s.applyReportChain parent hashes).block h).parent ≠ .unknown := by
  induction hashes generalizing s parent with
  | nil => exact ⟨sound, .refl, by simp⟩
  | cons h rest ih =>
    obtain ⟨planned, follows⟩ := follows
    have acts : Acts w touched s (s.linkBlock parent h) := acts_linkBlock known
    obtain ⟨sound', acts', rest'⟩ := ih (sound.linkBlock known planned) (by simp) follows
    refine ⟨sound', acts.trans acts', forall_mem_cons.mpr ⟨acts'.known h ?_, rest'⟩⟩
    rw [block_linkBlock]
    simpa using known

/-! ### Placing and revoking -/

lemma block_place : (place w t s h mask tokenCount).block h' =
    if h' = h then
      { s.block h with
        placements := (s.block h).placements.insert (w, t) mask
        tokenCount := if 0 < tokenCount then tokenCount else (s.block h).tokenCount }
    else s.block h' := by
  unfold place adjustComponentPlacementCount
  by_cases sized : 0 < tokenCount
  · simp only [sized, if_true, block_updateWorker, block_updateBlock]
    split <;> rfl
  · simp [sized, block_updateBlock]

lemma lookup_place : (place w t s h mask tokenCount).workers.lookup v =
    if v = w then
      some { s.worker w with
        holdings := (s.worker w).holdings.insert (t, h)
        componentPlacementCount := adjustedCount (s.maskOf h w t) (some mask)
          (s.worker w).componentPlacementCount }
    else s.workers.lookup v := by
  unfold place adjustComponentPlacementCount
  by_cases sized : 0 < tokenCount <;>
  · simp only [sized, if_true, if_false, lookup_updateWorker, workers_updateBlock]
    split
    · simp [worker, updateWorker, Table.lookup_update, maskOf]
    · rfl

/-- One placement of a worker is written or taken away. -/
structure Wrote (w : ω) (t : Tier) (h : η) (entry : Option Nat) (s s' : State ω η) : Prop where
  blocks : ∀ h', ∃ placements tokenCount, s'.block h' =
    { s.block h' with placements := placements, tokenCount := tokenCount }
  mask : ∀ h' v t', s'.maskOf h' v t' =
    if h' = h ∧ v = w ∧ t' = t then entry else s.maskOf h' v t'
  others : ∀ v, v ≠ w → s'.workers.lookup v = s.workers.lookup v
  count : (s'.worker w).componentPlacementCount =
    adjustedCount (s.maskOf h w t) entry (s.worker w).componentPlacementCount
  holdings : (s.worker w).holdings.Nodup → (s'.worker w).holdings.Nodup ∧
    (s'.worker w).holdings.erase (t, h) = (s.worker w).holdings.erase (t, h)
  held : (t, h) ∈ (s'.worker w).holdings ↔ entry.isSome

section

variable {entry : Option Nat} (wrote : Wrote w t h entry s s')
include wrote

lemma Wrote.links (h' : η) : (s'.block h').parent = (s.block h').parent := by
  obtain ⟨_, _, eq⟩ := wrote.blocks h'
  rw [eq]

lemma Wrote.acts (mem : h ∈ touched) : Acts w touched s s' where
  complete h' := by
    obtain ⟨_, _, eq⟩ := wrote.blocks h'
    rw [eq]
  mask v other h' t' := by rw [wrote.mask, if_neg fun same => other same.2.1]
  away h' out t' := by
    rw [wrote.mask, if_neg]
    exact fun same => out (same.1 ▸ mem)
  known h' := (wrote.links h').trans_ne

lemma Wrote.sound (sound : s.Sound plan) (known : entry.isSome → (s.block h).parent ≠ .unknown) :
    s'.Sound plan := by
  refine ⟨⟨fun x y => ?_, fun h' unknown v t' => ?_⟩, fun v => ?_, fun h' => ?_⟩
  · obtain ⟨_, _, eq⟩ := wrote.blocks x
    rw [wrote.links, eq]
    exact sound.wired.children x y
  · rw [wrote.links] at unknown
    rw [wrote.mask]
    split
    · rename_i same
      exact Option.not_isSome_iff_eq_none.mp fun placed => known placed (same.1 ▸ unknown)
    · exact sound.wired.placed h' unknown v t'
  · by_cases here : v = w
    · subst here
      have tallied := sound.tallied v
      obtain ⟨nodup, rest⟩ := wrote.holdings tallied.nodup
      refine tallied.write entry _ (fun h' t' apart => ?_) ?_ rfl nodup rest wrote.held wrote.count
      · rw [wrote.mask, if_neg fun same => apart (by rw [same.1, same.2.2])]
      · rw [wrote.mask, if_pos ⟨rfl, rfl, rfl⟩]
    · refine (sound.tallied v).congr ?_ fun h' t' => ?_
      · rw [worker, wrote.others v here]
        rfl
      · rw [wrote.mask, if_neg fun same => here same.2.1]
  · rw [wrote.links]
    exact sound.fits h'

end

/-- One entry of a block's placements is rewritten, and the worker's record of it. -/
lemma wrote_of {entry : Option Nat} {placements : Table (ω × Tier) Nat}
    (block : ∀ h', s'.block h' = if h' = h then
      { s.block h with placements := placements, tokenCount := size } else s.block h')
    (here : placements.lookup (w, t) = entry)
    (others : ∀ k, k ≠ (w, t) → placements.lookup k = (s.block h).placements.lookup k)
    (lookup : ∀ v, s'.workers.lookup v = if v = w then
      some { s.worker w with
        holdings := holdings
        componentPlacementCount := adjustedCount (s.maskOf h w t) entry
          (s.worker w).componentPlacementCount }
      else s.workers.lookup v)
    (rest : (s.worker w).holdings.Nodup →
      holdings.Nodup ∧ holdings.erase (t, h) = (s.worker w).holdings.erase (t, h))
    (held : (t, h) ∈ holdings ↔ entry.isSome) : Wrote w t h entry s s' := by
  have worker := congrArg (Option.getD · default) (lookup w)
  rw [if_pos rfl, Option.getD_some] at worker
  change s'.worker w = _ at worker
  refine ⟨fun h' => ?_, fun h' v t' => ?_, fun v other => ?_, ?_, ?_, ?_⟩
  · rw [block]
    split
    · rename_i here
      subst here
      exact ⟨_, _, rfl⟩
    · exact ⟨_, _, rfl⟩
  · rw [maskOf, block]
    by_cases same : h' = h
    · subst same
      rw [if_pos rfl]
      by_cases at_ : (v, t') = (w, t)
      · cases at_
        rw [if_pos ⟨rfl, rfl, rfl⟩, here]
      · rw [if_neg fun same => at_ (by rw [same.2.1, same.2.2]), others _ at_]
        rfl
    · rw [if_neg same, if_neg fun both => same both.1]
      rfl
  · rw [lookup, if_neg other]
  · rw [worker]
  · rwa [worker]
  · rwa [worker]

lemma wrote_place (mask tokenCount : Nat) :
    Wrote w t h (some mask) s (place w t s h mask tokenCount) := by
  refine wrote_of (fun _ => block_place) (lookup_insert _) (fun k => lookup_insert_ne)
    (fun _ => lookup_place) (fun nodup => ⟨nodup.insert, ?_⟩) (by simp)
  by_cases inside : (t, h) ∈ (s.worker w).holdings
  · rw [insert_of_mem inside]
  · rw [insert_of_not_mem inside, erase_cons_head, erase_of_not_mem inside]

lemma Sound.placeAll (masks sizes : List Nat) (sound : s.Sound plan)
    (known : ∀ h ∈ hashes, (s.block h).parent ≠ .unknown) (sub : hashes ⊆ touched) :
    (placeAll w t s hashes masks sizes).Sound plan ∧
      Acts w touched s (placeAll w t s hashes masks sizes) := by
  induction hashes generalizing s masks sizes with
  | nil => exact ⟨sound, .refl⟩
  | cons h rest ih =>
    have wrote := wrote_place (w := w) (t := t) (s := s) (h := h) (masks.headD 0) (sizes.headD 0)
    obtain ⟨sound', acts⟩ := ih masks.tail sizes.tail
      (wrote.sound sound fun _ => known h mem_cons_self)
      (fun x mem => (wrote.links x).trans_ne (known x (mem_cons_of_mem _ mem)))
      fun x mem => sub (mem_cons_of_mem _ mem)
    exact ⟨sound', (wrote.acts (sub mem_cons_self)).trans acts⟩

/-! Revoking -/

lemma block_revokeOne : (revokeOne w t s h).block h' =
    if h' = h then { s.block h with placements := (s.block h).placements.erase (w, t) }
    else s.block h' :=
  block_modify rfl

lemma lookup_revokeOne : (revokeOne w t s h).workers.lookup v =
    if v = w then
      some { s.worker w with
        holdings := (s.worker w).holdings.filter fun held => decide (held ≠ (t, h))
        componentPlacementCount := adjustedCount (s.maskOf h w t) none
          (s.worker w).componentPlacementCount }
    else s.workers.lookup v := by
  unfold revokeOne
  rw [Table.lookup_modify]
  unfold adjustComponentPlacementCount
  rw [lookup_updateWorker, if_pos rfl, lookup_updateWorker]
  split <;> rfl

lemma wrote_revokeOne : Wrote w t h none s (revokeOne w t s h) := by
  refine wrote_of (fun _ => block_revokeOne) (lookup_erase ..) (fun k => lookup_erase_ne)
    (fun _ => lookup_revokeOne) (fun nodup => ⟨nodup.filter _, ?_⟩) (by simp)
  rw [erase_of_not_mem (by simp), nodup.erase_eq_filter]
  exact filter_congr fun held _ => by by_cases here : held = (t, h) <;> simp [here]

/-! ### A whole batch -/

/-- The blocks that the actions of a batch report or revoke. -/
structure Noted (plan : η → ParentLink η) (s : State ω η) (w : ω) (pass : Pass ω η) : Prop where
  sound : pass.state.Sound plan
  acts : Acts w (pass.reportedChains.flatten ++ pass.dirtyRoots) s pass.state

variable {pass : Pass ω η}

lemma Acts.mono {more : List η} (acts : Acts w touched s s') (sub : touched ⊆ more) :
    Acts w more s s' :=
  ⟨acts.complete, acts.mask, fun h out => acts.away h fun mem => out (sub mem), acts.known⟩

omit [DecidableEq η] in
lemma reportParent_ne_unknown (parentBlockHash : Option η) :
    reportParent parentBlockHash ≠ .unknown := by
  cases parentBlockHash <;> simp [reportParent]

lemma Sound.revokes (sound : s.Sound plan) (sub : hashes ⊆ touched) :
    (hashes.foldl (State.revokeOne w t) s).Sound plan ∧
      Acts w touched s (hashes.foldl (State.revokeOne w t) s) := by
  apply foldlRecOn (motive := fun now => Sound now plan ∧ Acts w touched s now) hashes _
    ⟨sound, .refl⟩
  rintro now ⟨sound, acts⟩ h mem
  have wrote := wrote_revokeOne (w := w) (t := t) (s := now) (h := h)
  exact ⟨wrote.sound sound (by simp), acts.trans (wrote.acts (sub mem))⟩

lemma Noted.revokeAll (noted : Noted plan s w pass) (hashes : List η) :
    Noted plan s w (State.revokeAll w t pass hashes) := by
  have sub : hashes ⊆ pass.reportedChains.flatten ++ (pass.dirtyRoots ++ hashes) :=
    fun x mem => by simp [mem]
  obtain ⟨sound, acts⟩ := noted.sound.revokes sub
  refine ⟨sound, (noted.acts.mono fun x mem => ?_).trans acts⟩
  rcases mem_append.mp mem with chain | dirty
  · exact mem_append_left _ chain
  · exact mem_append_right _ (mem_append_left _ dirty)

lemma Noted.applyAction (noted : Noted plan s w pass) {action : Action η}
    (follows : ∀ tier parentBlockHash hashes masks sizes,
      action = .report tier parentBlockHash hashes masks sizes →
        Follows plan (reportParent parentBlockHash) hashes)
    (pick : List η → List η) :
    Noted plan s w (State.applyAction pick w pass action) := by
  cases action with
  | revoke tier hashes => exact noted.revokeAll hashes
  | clearAllAtTier tier => exact noted.revokeAll _
  | unsupported => exact ⟨noted.sound, noted.acts⟩
  | report tier parentBlockHash hashes masks sizes =>
    have start := reportParent_ne_unknown parentBlockHash
    have self : hashes ⊆ hashes := fun _ mem => mem
    obtain ⟨linked, acts, known⟩ := noted.sound.applyReportChain start (follows _ _ _ _ _ rfl) w
    obtain ⟨placed, acts'⟩ := linked.placeAll masks sizes known self
    have chains : (State.applyAction pick w pass
        (.report tier parentBlockHash hashes masks sizes)).reportedChains =
          if hashes.isEmpty then pass.reportedChains else pass.reportedChains ++ [hashes] := rfl
    refine ⟨placed, (noted.acts.mono ?_).trans ((acts.trans acts').mono ?_)⟩
    · intro x mem
      rcases mem_append.mp mem with old | dirty
      · obtain ⟨chain, among, inside⟩ := mem_flatten.mp old
        refine mem_append_left _ (mem_flatten.mpr ⟨chain, ?_, inside⟩)
        rw [chains]
        split
        · exact among
        · exact mem_append_left _ among
      · exact mem_append_right _ dirty
    · intro x mem
      rw [chains, if_neg (by simp [ne_nil_of_mem mem])]
      simp [mem]

/-! ### What validation establishes -/

/-- What an accepted batch plans. -/
structure Plan (s : State ω η) (actions : List (Action η)) (plan : η → ParentLink η) : Prop where
  supported : .unsupported ∉ actions
  keeps : ∀ h, (s.block h).parent ≠ .unknown → plan h = (s.block h).parent
  settled : ∀ h, plan h = (s.block h).parent ∨ Grounded plan h
  follows : ∀ tier parentBlockHash hashes masks sizes,
    Action.report tier parentBlockHash hashes masks sizes ∈ actions →
      Follows plan (reportParent parentBlockHash) hashes

variable {planned planned' mid : Table η (ParentLink η)}

/-- Plans grow: what is known stays. -/
def Extends (s : State ω η) (planned planned' : Table η (ParentLink η)) : Prop :=
  ∀ h, s.plannedParent planned h ≠ .unknown → s.plannedParent planned' h = s.plannedParent planned h

omit [DecidableEq ω] in
lemma Extends.trans (first : Extends s planned mid)
    (second : Extends s mid planned') : Extends s planned planned' := fun h known =>
  (second h (first h known ▸ known)).trans (first h known)

omit [DecidableEq ω] in
lemma plannedParent_insert (planned : Table η (ParentLink η)) :
    s.plannedParent (planned.insert h parent) h' =
      if h' = h then parent else s.plannedParent planned h' := by
  unfold plannedParent
  split
  · rename_i here
    rw [here, lookup_insert]
    rfl
  · rename_i other
    rw [lookup_insert_ne other]

omit [DecidableEq ω] in
lemma validateReportChain_spec (start : parent ≠ .unknown)
    (accepted : s.validateReportChain planned parent hashes = some planned') :
    Extends s planned planned' ∧ Follows (s.plannedParent planned') parent hashes := by
  induction hashes generalizing planned parent with
  | nil =>
    cases accepted
    exact ⟨fun _ _ => rfl, trivial⟩
  | cons h rest ih =>
    unfold validateReportChain at accepted
    split at accepted
    · cases accepted
    split at accepted
    · cases accepted
    rename_i free
    obtain ⟨extends_, follows⟩ := ih (by simp) accepted
    have here : s.plannedParent planned' h = parent := by
      rw [extends_ h (by rw [plannedParent_insert, if_pos rfl]; exact start),
        plannedParent_insert, if_pos rfl]
    have first : Extends s planned (planned.insert h parent) := by
      intro x known
      rw [plannedParent_insert]
      split
      · rename_i same
        subst same
        by_contra other
        exact free ⟨known, fun same => other same.symm⟩
      · rfl
    exact ⟨first.trans extends_, here, follows⟩

omit [DecidableEq ω] in
lemma planActions_spec (accepted : s.planActions planned actions = some planned') :
    .unsupported ∉ actions ∧ Extends s planned planned' ∧ ∀ tier parentBlockHash hashes masks sizes,
      Action.report tier parentBlockHash hashes masks sizes ∈ actions →
        Follows (s.plannedParent planned') (reportParent parentBlockHash) hashes := by
  induction actions generalizing planned with
  | nil =>
    cases accepted
    exact ⟨by simp, fun _ _ => rfl, by simp⟩
  | cons action rest ih =>
    cases action with
    | unsupported => cases accepted
    | revoke tier hashes | clearAllAtTier tier =>
      obtain ⟨supported, extends_, later⟩ := ih accepted
      exact ⟨by simpa using supported, extends_,
        fun _ _ _ _ _ mem => later _ _ _ _ _ (by simpa using mem)⟩
    | report tier parentBlockHash hashes masks sizes =>
      obtain ⟨mid, valid, accepted⟩ := Option.bind_eq_some_iff.mp accepted
      have start := reportParent_ne_unknown parentBlockHash
      obtain ⟨first, follows⟩ := validateReportChain_spec start valid
      obtain ⟨supported, extends_, later⟩ := ih accepted
      refine ⟨by simpa using supported, first.trans extends_, fun tier' parent' hashes' masks' sizes' mem => ?_⟩
      rcases mem_cons.mp mem with same | mem
      · cases same
        exact follows.mono start extends_
      · exact later _ _ _ _ _ mem

lemma walkUp_spec {path path' : List η} (grounded : ∀ h ∈ complete, Grounded plan h)
    (walked : walkUp plan complete fuel path h = some path') :
    Grounded plan h ∧ ∀ x ∈ path', x ∈ path ∨ Grounded plan x := by
  induction fuel generalizing path h with
  | zero => cases walked
  | succ fuel ih =>
    unfold walkUp at walked
    split at walked
    · rename_i known
      cases walked
      exact ⟨grounded h known, fun x => .inl⟩
    split at walked
    · cases walked
    split at walked
    · rename_i up above
      obtain ⟨higher, rest⟩ := ih walked
      have here : Grounded plan h := .intro h fun y link => by
        obtain rfl := ParentLink.hash.inj (above.symm.trans link)
        exact higher
      refine ⟨here, fun x mem => ?_⟩
      rcases rest x mem with inside | done
      · rcases mem_cons.mp inside with rfl | old
        · exact .inr here
        · exact .inl old
      · exact .inr done
    · rename_i top
      cases walked
      have here : Grounded plan h := .intro h fun y link => absurd link (top y)
      refine ⟨here, fun x mem => ?_⟩
      rcases mem_cons.mp mem with rfl | old
      · exact .inr here
      · exact .inl old

lemma grounded_of_walks {keys : List η}
    (grounded : ∀ h ∈ complete, Grounded plan h) (walked : (keys.foldlM (fun complete start =>
      (walkUp plan complete fuel [] start).map (· ++ complete)) complete).isSome) :
    ∀ h ∈ keys, Grounded plan h := by
  induction keys generalizing complete with
  | nil => simp
  | cons k keys ih =>
    rw [foldlM_cons] at walked
    cases first : walkUp plan complete fuel [] k with
    | none =>
      rw [first] at walked
      cases walked
    | some path =>
      rw [first] at walked
      obtain ⟨here, along⟩ := walkUp_spec grounded first
      refine forall_mem_cons.mpr ⟨here, ih (fun h mem => ?_) walked⟩
      rcases mem_append.mp mem with new | old
      · exact (along h new).resolve_left (by simp)
      · exact grounded h old

/-- The parents that blocks have after a batch, as its validation plans them. -/
def planOf (s : State ω η) (actions : List (Action η)) : η → ParentLink η :=
  s.plannedParent ((s.planActions ∅ actions).getD ∅)

omit [DecidableEq ω] in
/-- An accepted batch follows a plan without cycles. -/
lemma plan_of_validateActions (accepted : s.validateActions actions = true) :
    Plan s actions (s.planOf actions) := by
  unfold validateActions at accepted
  rw [Option.any_eq_true] at accepted
  obtain ⟨planned, plans, acyclic⟩ := accepted
  obtain ⟨supported, extends_, reports⟩ := planActions_spec plans
  have grounded := grounded_of_walks (by simp) acyclic
  rw [planOf, plans, Option.getD_some]
  refine ⟨supported, extends_, fun h => ?_, reports⟩
  by_cases inside : h ∈ planned
  · exact .inr (grounded h (mem_keys.mp inside))
  · refine .inl ?_
    rw [plannedParent, lookup_eq_none.mpr inside]
    rfl

lemma Noted.applyActions (noted : Noted plan s w pass)
    (follows : ∀ tier parentBlockHash hashes masks sizes,
      Action.report tier parentBlockHash hashes masks sizes ∈ actions →
        Follows plan (reportParent parentBlockHash) hashes)
    (pick : List η → List η) : Noted plan s w (actions.foldl (State.applyAction pick w) pass) :=
  foldlRecOn (motive := Noted plan s w) actions _ noted fun _ noted _ mem =>
    noted.applyAction (fun _ _ _ _ _ same => follows _ _ _ _ _ (same ▸ mem)) pick

/-- The worker's address and spec are noted before the actions. -/
lemma Plan.noted (planned : Plan s actions plan) (wired : s.Wired) (tallied : ∀ v, s.Tallied v)
    (address : String) (spec : Option WorkerCacheSpec) :
    Noted plan s w { state := s.updateWorker w fun r => { r with address := address, spec := spec } } where
  sound := by
    refine ⟨wired.congr (fun _ => rfl) (fun _ => rfl) fun _ _ _ free => free, fun v => ?_, fun h => ?_⟩
    · obtain ⟨nodup, held, count⟩ := tallied v
      by_cases here : v = w
      · subst here
        constructor <;> rw [worker_updateWorker, if_pos rfl]
        · exact nodup
        · exact held
        · exact count
      · refine (tallied v).congr ?_ fun _ _ => rfl
        rw [worker_updateWorker, if_neg here]
    · by_cases unknown : (s.block h).parent = .unknown
      · exact .inl unknown
      · exact .inr (planned.keeps h unknown).symm
  acts := ⟨fun _ => rfl, fun _ _ _ _ => rfl, fun _ _ _ => rfl, fun _ => id⟩

/-- The loop over supported actions comes to its end. -/
lemma runActions_eq (supported : .unsupported ∉ actions) (pick : List η → List η)
    (going : pass.ended = true) : runActions pick w pass actions =
      actions.foldl (State.applyAction pick w) pass ∧ (runActions pick w pass actions).ended = true := by
  induction actions generalizing pass with
  | nil => exact ⟨rfl, going⟩
  | cons action rest ih =>
    obtain ⟨first, rest⟩ := not_or.mp (mt mem_cons.mpr supported)
    have goes : (State.applyAction pick w pass action).ended = true := by
      cases action with
      | unsupported => exact absurd rfl first
      | report | revoke | clearAllAtTier => exact going
    rw [runActions, if_pos goes]
    exact ih rest goes

section

variable {req : ApplyRequest ω η} (plans : Plan s req.actions plan) (pick : List η → List η)
include plans

lemma Plan.applyActions_eq : (s.applyActions pick req).ended = true ∧ s.applyActions pick req =
      req.actions.foldl (State.applyAction pick req.workerId)
        { state := s.updateWorker req.workerId fun r =>
          { r with address := req.workerAddress, spec := req.cacheSpec } } :=
  (runActions_eq plans.supported pick rfl).symm

/-- The actions of an accepted batch. -/
lemma Plan.applyActions (wired : s.Wired) (tallied : ∀ v, s.Tallied v) :
    Noted plan s req.workerId (s.applyActions pick req) := by
  rw [(plans.applyActions_eq pick).2]
  exact (plans.noted wired tallied _ _).applyActions plans.follows pick

end

/-- A call is refused and changes nothing, or it is a planned batch that is applied. The return
from the middle of the loop is never taken. -/
lemma apply_cases (pick : List η → List η) (s : State ω η) (req : ApplyRequest ω η) :
    s.apply pick req = (s, false) ∨
      Plan s req.actions (s.planOf req.actions) ∧ s.apply pick req = (s.finish pick req, true) := by
  unfold State.apply
  split
  · rename_i accepted
    have planned := plan_of_validateActions accepted
    rw [if_pos (planned.applyActions_eq pick).1]
    exact .inr ⟨planned, rfl⟩
  · exact .inl rfl

end State

end Sglang.Indexer
