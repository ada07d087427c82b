/-
# The unified radix tree: taking and giving back receipts

* `Locks.inc`, `Locks.dec`, `Locks.decSwa` — the three lock operations keep the invariant of
  `Tree.Locks`, and a release meets no counter at zero.
* `lockMachine` — runs of matches, inserts and lock operations in any order.
-/

import Mathlib.Data.Finset.Lattice.Lemmas
import Sglang.Lib.Machine
import Sglang.Tree.Locks

namespace Sglang.Tree

open Sglang.Lib List Option Links

variable {π α : Type}

namespace Core

variable {c : Config} {core core' mid core₁ : Core π α} {d e : Node π α} {i : Nat} {ct : Component}
  {held rest : List Held} {h g : Held}

/-! ### Taking a receipt -/

variable {f : Node π α → Node π α} {covered u : Nat} {path seg : List (Node π α)}
  {ids ids' : Component → List Nat} {skip : List Component} {receipt : Receipt}

section

variable (key : ∀ d, (f d).key = d.key) (covered : Nat) (path : List (Node π α))
include key

lemma windowSegment_map :
    windowSegment c covered (path.map f) = (windowSegment c covered path).map f := by
  induction path generalizing covered with
  | nil => rfl
  | cons d up ih =>
    have len : (f d).len c = d.len c := by rw [Node.len, key]; rfl
    simp only [map_cons, windowSegment, len, ih]
    split <;> rfl

lemma windowBoundary_map :
    windowBoundary c covered (path.map f) = (windowBoundary c covered path).map f := by
  induction path generalizing covered with
  | nil => rfl
  | cons d up ih =>
    have len : (f d).len c = d.len c := by rw [Node.len, key]; rfl
    simp only [map_cons, windowBoundary, len, ih]
    split
    · split <;> rfl
    · rfl

end

/-- A walk that meets no boundary goes up to the root. -/
lemma windowSegment_of_unbounded (below : covered < c.slidingWindowSize)
    (unbounded : windowBoundary c covered path = none) : windowSegment c covered path = path := by
  induction path generalizing covered with
  | nil => rfl
  | cons d up ih =>
    simp only [windowBoundary, if_pos below] at unbounded
    split at unbounded
    · cases unbounded
    · simp only [windowSegment, if_pos below]
      rw [ih (by omega) unbounded]

section

variable (bounded : windowBoundary c covered path = some d)
include bounded

lemma windowBoundary_mem : d ∈ path := by
  induction path generalizing covered with
  | nil => cases bounded
  | cons e up ih =>
    unfold windowBoundary at bounded
    split at bounded
    · split at bounded
      · cases bounded
        exact mem_cons_self
      · exact mem_cons_of_mem _ (ih bounded)
    · cases bounded

/-- A release that looks for the boundary's mark walks the window again. -/
lemma markedSegment_window (nodup : (links.tags path).Nodup)
    (marked : ∀ e ∈ path, (e.data .swa).uuid = some u ↔ e.id = d.id) :
    markedSegment (some u) path = windowSegment c covered path := by
  induction path generalizing covered with
  | nil => cases bounded
  | cons e up ih =>
    obtain ⟨fresh, nodup⟩ := nodup_cons.mp nodup
    unfold windowBoundary at bounded
    split at bounded
    swap
    · cases bounded
    rename_i below
    split at bounded
    · rename_i full
      cases bounded
      have stop : (some u).isSome ∧ (d.data .swa).uuid = some u :=
        ⟨rfl, (marked d mem_cons_self).mpr rfl⟩
      have done : windowSegment c (covered + d.len c) up = [] := by
        cases up with
        | nil => rfl
        | cons _ _ => simp only [windowSegment, if_neg (not_lt.mpr full)]
      simp only [markedSegment, if_pos stop, windowSegment, if_pos below, done]
    · have go : ¬ ((some u).isSome ∧ (e.data .swa).uuid = some u) := by
        rintro ⟨-, here⟩
        have same := (marked e mem_cons_self).mp here
        exact fresh ((show links.tag d = links.tag e from same.symm) ▸
          mem_tags (windowBoundary_mem bounded))
      simp only [markedSegment, if_neg go, windowSegment, if_pos below]
      rw [ih bounded nodup fun x inside => marked x (mem_cons_of_mem _ inside)]

/-- The same after a rewriting that puts the mark on the boundary alone. -/
lemma tags_markedSegment_window (touches : Touches f) (nodup : (links.tags path).Nodup)
    (marked : ∀ e ∈ path, ((f e).data .swa).uuid = some u ↔ e.id = d.id) :
    links.tags (markedSegment (some u) (path.map f)) = links.tags (windowSegment c covered path) := by
  have bounded' : windowBoundary c covered (path.map f) = some (f d) := by
    rw [windowBoundary_map touches.key, bounded]
    rfl
  rw [markedSegment_window bounded' (by rwa [tags_map_id touches.id]), windowSegment_map touches.key,
    tags_map_id touches.id]
  intro e inside
  obtain ⟨x, old, rfl⟩ := mem_map.mp inside
  rw [touches.id, touches.id]
  exact marked x old

end

/-- Counters go up by one on some nodes of each component. -/
structure Raises (ids : Component → List Nat) (core core' : Core π α) : Prop where
  nodes : ∃ f : Node π α → Node π α, core'.nodes = core.nodes.map f ∧ Touches f ∧
    (∀ d ct, ((f d).data ct).lockRef = (d.data ct).lockRef + if d.id ∈ ids ct then 1 else 0) ∧
    ∀ d ∈ core.nodes, ∀ u ≤ core.nextUuid,
      (((f d).data .swa).uuid = some u ↔ (d.data .swa).uuid = some u)
  nextUuid : core.nextUuid ≤ core'.nextUuid
  nextId : core'.nextId = core.nextId
  marks : core.Marks → core'.Marks

lemma Raises.refl : Raises (fun _ => []) core core :=
  ⟨⟨id, by simp, ⟨fun _ => rfl, fun _ => rfl, fun _ => rfl, fun _ _ => rfl, fun _ _ => rfl⟩,
    by simp, fun _ _ _ _ => .rfl⟩, le_rfl, rfl, id⟩

lemma Raises.trans (first : Raises ids core mid)
    (second : Raises ids' mid core') (apart : ∀ ct, ids ct = [] ∨ ids' ct = []) :
    Raises (fun ct => ids ct ++ ids' ct) core core' := by
  obtain ⟨⟨f, nodes, touches, count, mark⟩, nextUuid, nextId, marks⟩ := first
  obtain ⟨⟨g, nodes', touches', count', mark'⟩, nextUuid', nextId', marks'⟩ := second
  refine ⟨⟨g ∘ f, ?_, touches'.comp touches, fun d ct => ?_, fun d mem u le => ?_⟩,
    nextUuid.trans nextUuid', nextId'.trans nextId, marks' ∘ marks⟩
  · rw [nodes', nodes, List.map_map]
  · simp only [Function.comp_apply]
    rw [count', count, touches.id]
    rcases apart ct with empty | empty <;> simp [empty]
  · exact (mark' (f d) (nodes ▸ mem_map_of_mem mem) u (le.trans nextUuid)).trans
      (mark d mem u le)

lemma Raises.leaves (raises : Raises ids core core') (device host : Finset Nat) :
    Raises ids core { core' with evictableDeviceLeaves := device, evictableHostLeaves := host } :=
  ⟨raises.nodes, raises.nextUuid, raises.nextId, fun marks =>
    (raises.marks marks).map (by simp) rfl fun _ => rfl⟩

lemma raises_acquireOn (core : Core π α) (ct : Component) (seg : List (Node π α)) :
    Raises (fun ct' => if ct' = ct then links.tags seg else []) core (core.acquireOn ct seg) := by
  refine ⟨⟨_, nodes_acquireOn .., touches_raise .., fun d ct' => ?_, fun d _ u _ => ?_⟩,
    le_rfl, rfl, fun marks => marks.map (nodes_acquireOn ..) rfl fun d => raise_uuid ..⟩
  · rw [raise_lockRef]
    by_cases same : ct' = ct <;> simp
  · rw [raise_uuid]

/-- Mark the nodes of one name. -/
def stamp (i u : Nat) (d : Node π α) : Node π α :=
  if d.id ∈ [i] then stampNode u d else d

lemma touches_stamp (i u : Nat) : Touches (π := π) (α := α) (stamp i u) :=
  .put [i] .swa _

lemma stamp_lockRef (i u : Nat) (d : Node π α) (ct : Component) :
    ((stamp i u d).data ct).lockRef = (d.data ct).lockRef := d.putIf_keeps (·.lockRef) (by rfl) ct _

lemma stamp_uuid (i u : Nat) (d : Node π α) :
    ((stamp i u d).data .swa).uuid = if d.id = i then some u else (d.data .swa).uuid := by
  unfold stamp
  by_cases here : d.id = i
  · simp [here, stampNode]
  · simp [here]

/-- A fresh mark on a node that has none. -/
lemma raises_stamp (shape : core.Shape c)
    (unmarked : ∀ d ∈ core.nodes, d.id = i → (d.data .swa).uuid = none) :
    Raises (fun _ => []) core { core.modify [i] (stampNode (core.nextUuid + 1)) with
      nextUuid := core.nextUuid + 1 } := by
  refine ⟨⟨stamp i (core.nextUuid + 1), rfl, touches_stamp .., fun d ct => ?_, fun d mem u le => ?_⟩,
    Nat.le_succ _, rfl, fun marks => ⟨?_, ?_⟩⟩
  · simp [stamp_lockRef]
  · rw [stamp_uuid]
    split
    · rename_i here
      rw [unmarked d mem here]
      simp
      omega
    · rfl
  · intro d new e new' u marked marked'
    obtain ⟨d, old, rfl⟩ := mem_map.mp new
    obtain ⟨e, old', rfl⟩ := mem_map.mp new'
    change ((stamp i (core.nextUuid + 1) d).data .swa).uuid = some u at marked
    change ((stamp i (core.nextUuid + 1) e).data .swa).uuid = some u at marked'
    have same : d = e := by
      rw [stamp_uuid] at marked marked'
      split at marked <;> split at marked'
      · rename_i here here'
        exact shape.eq_of_id old old' (here.trans here'.symm)
      · cases marked
        exact absurd (marks.bound e old' _ marked') (by omega)
      · cases marked'
        exact absurd (marks.bound d old _ marked) (by omega)
      · exact marks.distinct d old e old' u marked marked'
    rw [same]
  · intro d new u marked
    obtain ⟨d, old, rfl⟩ := mem_map.mp new
    change ((stamp i (core.nextUuid + 1) d).data .swa).uuid = some u at marked
    rw [stamp_uuid] at marked
    split at marked
    · cases marked
      exact le_rfl
    · exact (marks.bound d old u marked).trans (Nat.le_succ _)

/-- What an SWA acquire counts, and that its receipt finds it again. -/
lemma acquireSwa_raises (shape : core.Shape c) (marks : core.Marks) :
    Raises (fun ct => if ct = .swa then links.tags (windowSegment c 0 (core.spine i)) else [])
        core (core.acquireSwa c i).1 ∧
      links.tags (markedSegment (core.acquireSwa c i).2 ((core.acquireSwa c i).1.spine i)) =
        links.tags (windowSegment c 0 (core.spine i)) ∧
      ∀ u ∈ (core.acquireSwa c i).2, u ≤ (core.acquireSwa c i).1.nextUuid := by
  have locked := raises_acquireOn core .swa (windowSegment c 0 (core.spine i))
  have touches := touches_raise (π := π) (α := α) .swa
    (links.tags (windowSegment c 0 (core.spine i)))
  have spine := spine_map (nodes_acquireOn core .swa (windowSegment c 0 (core.spine i)))
    touches.id touches.parent i
  unfold acquireSwa
  dsimp only
  cases bounded : windowBoundary c 0 (core.spine i) with
  | none =>
    refine ⟨locked, ?_, by simp⟩
    have whole := windowSegment_of_unbounded c.window_pos bounded
    have all : ∀ path : List (Node π α), markedSegment none path = path := by
      intro path
      induction path with
      | nil => rfl
      | cons d up ih => simp [markedSegment, ih]
    rw [all, spine, tags_map_id touches.id, whole]
  | some d =>
    have inPath := windowBoundary_mem bounded
    have mem : d ∈ core.nodes := mem_of_mem_spine inPath
    dsimp only
    cases marked : (d.data .swa).uuid with
    | some u =>
      refine ⟨locked, ?_, ?_⟩
      · rw [spine]
        apply tags_markedSegment_window bounded touches (shape.rooted.nodup_spine i)
        intro e inside
        have inside := mem_of_mem_spine inside
        rw [raise_uuid]
        constructor
        · exact fun here => congrArg Node.id (marks.distinct e inside d mem u here marked)
        · intro same
          rw [shape.eq_of_id inside mem same]
          exact marked
      · rintro v ⟨⟩
        exact marks.bound d mem u marked
    | none =>
      have shape' := shape.touch touches (nodes_acquireOn core .swa _) rfl
      have stamped := raises_stamp shape' fun e inside same => by
        rw [nodes_acquireOn] at inside
        obtain ⟨x, old, rfl⟩ := mem_map.mp inside
        rw [touches.id] at same
        rw [raise_uuid, shape.eq_of_id old mem same]
        exact marked
      have both := locked.trans stamped (by simp)
      simp only [append_nil] at both
      refine ⟨both, ?_, ?_⟩
      · dsimp only
        rw [spine_map rfl (touches_stamp _ _).id
          (touches_stamp _ _).parent, spine, List.map_map]
        apply tags_markedSegment_window bounded ((touches_stamp _ _).comp touches)
          (shape.rooted.nodup_spine i)
        intro e inside
        have inside := mem_of_mem_spine inside
        rw [Function.comp_apply, stamp_uuid, touches.id, raise_uuid]
        split
        · rename_i same
          simp [same]
        · rename_i other
          -- no node carried the fresh mark before
          refine iff_of_false (fun here => ?_) other
          exact absurd (marks.bound e inside _ here) (by omega)
      · rintro v ⟨⟩
        exact le_rfl

lemma Raises.tags_spine (raises : Raises ids core core') (i : Nat) :
    links.tags (core'.spine i) = links.tags (core.spine i) := by
  obtain ⟨f, nodes, touches, -⟩ := raises.nodes
  rw [spine_map nodes touches.id touches.parent, tags_map_id touches.id]

lemma Raises.shape (raises : Raises ids core core') (shape : core.Shape c) : core'.Shape c := by
  obtain ⟨f, nodes, touches, -⟩ := raises.nodes
  exact shape.touch touches nodes raises.nextId

lemma lockFull_raises (ran : core.lockFull i skip = some core') :
    Raises (fun ct => if ct = .full ∧ .full ∉ skip then links.tags (core.spine i) else [])
      core core' := by
  unfold lockFull at ran
  split at ran
  · rename_i skipped
    cases ran
    simpa [skipped] using .refl
  · rename_i taken
    unfold acquireFull at ran
    dsimp only at ran
    split at ran
    · cases ran
      simp only [taken, not_false_eq_true, and_true]
      exact (raises_acquireOn core .full (core.spine i)).leaves _ _
    · cases ran

lemma lockMamba_raises (core : Core π α) (i : Nat) (skip : List Component) :
    Raises (fun ct => if ct = .mamba ∧ c.hasMamba = true ∧ .mamba ∉ skip then
      links.tags (core.anchorSegment i) else []) core (core.lockMamba c i skip) := by
  unfold lockMamba
  split
  · rename_i taken
    simp only [taken, not_false_eq_true, and_true]
    exact raises_acquireOn core .mamba (core.anchorSegment i)
  · rename_i skipped
    have skipped : ∀ ct : Component, ¬ (ct = .mamba ∧ c.hasMamba = true ∧ .mamba ∉ skip) :=
      fun _ both => skipped both.2
    simpa only [skipped, if_false] using .refl

lemma tags_walk_lockMamba (core : Core π α) (i : Nat) (skip : List Component)
    (receipt : Receipt) (ct : Component) :
    links.tags ((core.lockMamba c i skip).walk receipt ct) = links.tags (core.walk receipt ct) := by
  unfold lockMamba
  split
  · have touches := touches_raise (π := π) (α := α) .mamba (links.tags (core.anchorSegment i))
    rw [walk_map (nodes_acquireOn ..) touches.id touches.parent fun d _ u _ => by rw [raise_uuid],
      tags_map_id touches.id]
  · rfl

/-- The SWA part of a receipt: what it counted, and the walk that finds it again. -/
lemma lockSwa_raises (shape : core.Shape c) (marks : core.Marks) (i : Nat) (skip : List Component) :
    Raises (fun ct => if ct = .swa then links.tags
        ((core.lockSwa c i skip).1.walk ⟨i, skip, (core.lockSwa c i skip).2⟩ .swa) else [])
        core (core.lockSwa c i skip).1 ∧
      ((core.lockSwa c i skip).2.isSome ↔ c.hasSwa = true ∧ .swa ∉ skip) ∧
      ∀ u, (core.lockSwa c i skip).2 = some (some u) → u ≤ (core.lockSwa c i skip).1.nextUuid := by
  unfold lockSwa
  split
  · rename_i taken
    obtain ⟨raises, found, bound⟩ := acquireSwa_raises shape marks
    refine ⟨?_, iff_of_true rfl taken, fun u here => bound u ?_⟩
    · simp only [walk, Option.elim]
      rw [found]
      exact raises
    · simpa using here
  · rename_i skipped
    refine ⟨by simpa [walk, tags] using .refl, iff_of_false (by simp) skipped, by simp⟩

/-- An acquire counts each component on exactly the nodes its release will walk over. -/
lemma incLockRef_raises (shape : core.Shape c) (marks : core.Marks)
    (ran : core.incLockRef c i skip = some (core', receipt)) :
    Raises (fun ct => links.tags (core'.segmentOf c (take core core' receipt) ct)) core core' ∧
      core.known i = true ∧ receipt.nodeId = i ∧ receipt.skippedLockComponents = skip ∧
      (receipt.swaUuid.isSome ↔ c.hasSwa = true ∧ .swa ∉ skip) ∧
      ∀ u, receipt.swaUuid = some (some u) → u ≤ core'.nextUuid := by
  unfold incLockRef at ran
  split at ran
  swap
  · cases ran
  rename_i known
  obtain ⟨core₁, locked, out⟩ := map_eq_some_iff.mp ran
  have full := lockFull_raises locked
  obtain ⟨swa, taken, bound⟩ := lockSwa_raises (full.shape shape) (full.marks marks) i skip
  revert out swa taken bound
  obtain ⟨core₂, uuid⟩ := core₁.lockSwa c i skip
  intro out swa taken bound
  have mamba := lockMamba_raises (c := c) core₂ i skip
  cases out
  have all := ((full.trans swa fun ct => by cases ct <;> simp).trans mamba fun ct => by
    cases ct <;> simp).leaves
      ((core₂.lockMamba c i skip).updateEvictableLeafSets i).evictableDeviceLeaves
      ((core₂.lockMamba c i skip).updateEvictableLeafSets i).evictableHostLeaves
  refine ⟨?_, known, rfl, rfl, taken, fun u here => (bound u here).trans mamba.nextUuid⟩
  have walked := tags_walk_lockMamba (c := c) core₂ i skip ⟨i, skip, uuid⟩
  have ids : ∀ ct, links.tags (((core₂.lockMamba c i skip).updateEvictableLeafSets i).segmentOf c
      (take core ((core₂.lockMamba c i skip).updateEvictableLeafSets i) ⟨i, skip, uuid⟩) ct) =
      ((if ct = .full ∧ .full ∉ skip then links.tags (core.spine i) else []) ++
        (if ct = .swa then links.tags (core₂.walk ⟨i, skip, uuid⟩ .swa) else [])) ++
        if ct = .mamba ∧ c.hasMamba = true ∧ .mamba ∉ skip then links.tags (core₂.anchorSegment i)
        else [] := by
    intro ct
    unfold segmentOf
    rw [apply_ite links.tags]
    change (if _ then links.tags ((core₂.lockMamba c i skip).walk ⟨i, skip, uuid⟩ ct) else []) = _
    rw [walked]
    cases ct with
    | full =>
      have spine := (swa.tags_spine i).trans (full.tags_spine i)
      by_cases skipped : .full ∈ skip
      · simp [take, Held.takes, skipped]
      · simpa [take, Held.takes, walk, skipped] using spine
    | swa =>
      cases uuid with
      | none => simp [walk, tags]
      | some uuid =>
        have taken := taken.mp rfl
        simp [take, Held.takes, taken]
    | mamba =>
      by_cases taken : c.hasMamba = true ∧ .mamba ∉ skip
      · simp [take, Held.takes, taken, walk]
      · have skipped : ¬ ((take core ((core₂.lockMamba c i skip).updateEvictableLeafSets i)
            ⟨i, skip, uuid⟩).takes c .mamba = true) := by
          intro takes
          simp only [Held.takes, Bool.and_eq_true] at takes
          exact taken ⟨takes.1.1, of_decide_eq_true takes.1.2⟩
        rw [if_neg skipped]
        simp [taken]
  simp only [ids]
  exact all

/-- The ghost of a fresh receipt is what its release will walk over. -/
lemma Raises.raised_eq (raises : Raises ids core core') (shape : core.Shape c)
    (known : ∀ ct, ∀ m ∈ ids ct, m ∈ links.tags core.nodes) (ct : Component) :
    raised core core' ct = (ids ct).toFinset := by
  obtain ⟨f, nodes, touches, count, -⟩ := raises.nodes
  ext m
  rw [raised, List.mem_toFinset, List.mem_toFinset]
  have up : ∀ d ∈ core.nodes, ((core.find? (f d).id).elim 0 (fun e => (e.data ct).lockRef) <
      ((f d).data ct).lockRef ↔ d.id ∈ ids ct) := by
    intro d mem
    rw [touches.id, shape.find? mem, count]
    simp only [Option.elim]
    split
    · rename_i inside
      exact iff_of_true (by omega) inside
    · rename_i outside
      exact iff_of_false (by omega) outside
  constructor
  · intro inside
    obtain ⟨e, chosen, rfl⟩ := mem_map.mp inside
    obtain ⟨new, higher⟩ := mem_filter.mp chosen
    obtain ⟨d, old, rfl⟩ := mem_map.mp (nodes ▸ new)
    rw [show links.tag (f d) = d.id from touches.id d]
    exact (up d old).mp (of_decide_eq_true higher)
  · intro inside
    obtain ⟨d, old, rfl⟩ := mem_map.mp (known ct m inside)
    refine mem_map.mpr ⟨f d, mem_filter.mpr ⟨nodes ▸ mem_map_of_mem old, ?_⟩, touches.id d⟩
    exact decide_eq_true ((up d old).mpr inside)

/-- Taking a receipt. -/
theorem Locks.inc (locks : core.Locks c held) (shape : core.Shape c)
    (ran : core.incLockRef c i skip = some (core', receipt)) :
    core'.Locks c (take core core' receipt :: held) := by
  obtain ⟨raises, known, anchor, skips, taken, bound⟩ := incLockRef_raises shape locks.marks ran
  obtain ⟨f, nodes, touches, count, mark⟩ := raises.nodes
  have tags : links.tags core'.nodes = links.tags core.nodes := by
    rw [nodes, tags_map_id touches.id]
  have ghost := raises.raised_eq shape fun ct m inside => by
    obtain ⟨d, covered, rfl⟩ := mem_map.mp inside
    exact tags ▸ mem_tags (mem_of_mem_segmentOf covered)
  refine ⟨?_, ?_, raises.marks locks.marks⟩
  · intro e new ct
    obtain ⟨d, old, rfl⟩ := mem_map.mp (nodes ▸ new)
    rw [count, touches.id, locks.counts d old ct, countP_cons]
    have covered : d.id ∈ (take core core' receipt).segment ct ↔
        d.id ∈ links.tags (core'.segmentOf c (take core core' receipt) ct) := by
      change d.id ∈ raised core core' ct ↔ _
      rw [ghost, List.mem_toFinset]
    simp [covered]
  · intro h inside
    rcases mem_cons.mp inside with rfl | old
    · refine ⟨?_, ghost, fun hasSwa kept => ?_, bound⟩
      · rw [tags]
        change receipt.nodeId = 0 ∨ receipt.nodeId ∈ _
        rw [anchor]
        exact mem_tags_of_known known
      · exact isSome_iff_ne_none.mp (taken.mpr ⟨hasSwa, skips ▸ kept⟩)
    · exact (locks.covers h old).map nodes raises.nextUuid touches.id touches.parent mark

/-! ### Giving a receipt back -/

/-- Counters go down by one on the nodes of a segment, all of which were counted. -/
structure Lowers (seg : Component → Finset Nat) (core core' : Core π α) : Prop where
  nodes : ∃ f : Node π α → Node π α, core'.nodes = core.nodes.map f ∧
    (∀ d, (f d).id = d.id) ∧ ∀ d ∈ core.nodes, ∀ ct, (d.id ∈ seg ct → 0 < (d.data ct).lockRef) ∧
      ((f d).data ct).lockRef = (d.data ct).lockRef - if d.id ∈ seg ct then 1 else 0

lemma Lowers.refl : Lowers (fun _ => ∅) core core :=
  ⟨id, by simp, fun _ => rfl, by simp⟩

lemma Lowers.trans {seg seg' : Component → Finset Nat}
    (first : Lowers seg core mid) (second : Lowers seg' mid core')
    (apart : ∀ ct, seg ct = ∅ ∨ seg' ct = ∅) : Lowers (fun ct => seg ct ∪ seg' ct) core core' := by
  obtain ⟨f, nodes, id, count⟩ := first
  obtain ⟨g, nodes', id', count'⟩ := second
  refine ⟨g ∘ f, by rw [nodes', nodes, List.map_map], fun d => (id' _).trans (id d),
    fun d mem ct => ?_⟩
  obtain ⟨pos, lower⟩ := count d mem ct
  obtain ⟨pos', lower'⟩ := count' (f d) (nodes ▸ mem_map_of_mem mem) ct
  rw [id] at pos' lower'
  simp only [Function.comp_apply]
  rcases apart ct with empty | empty
  · simp only [empty, Finset.notMem_empty, if_false, Nat.sub_zero] at lower
    rw [empty, Finset.empty_union, lower', lower]
    exact ⟨lower ▸ pos', rfl⟩
  · simp only [empty] at lower'
    rw [empty, Finset.union_empty, lower', lower]
    exact ⟨pos, rfl⟩

lemma Lowers.unlinked (unlinked : Unlinked f) (nodes : core'.nodes = core.nodes.map f) :
    Lowers (fun _ => ∅) core core' :=
  ⟨f, nodes, unlinked.id, fun d _ ct => by simp [unlinked.lockRef]⟩

/-- One component of a receipt is released: no counter is at zero. -/
lemma Counts.release (counts : core.Counts (h :: rest))
    (inside : ∀ d ∈ seg, d ∈ core.nodes) (covered : h.segment ct = (links.tags seg).toFinset) :
    ∃ core', core.releaseOn ct seg = some core' ∧
      core'.nodes = core.nodes.map (lower ct (links.tags seg)) ∧ core'.nextUuid = core.nextUuid ∧
      core'.nextId = core.nextId ∧ core'.Counts (h.drop ct :: rest) ∧
      Lowers (fun ct' => if ct' = ct then h.segment ct else ∅) core core' := by
  have counted : ∀ d ∈ seg, 0 < (d.data ct).lockRef := by
    intro d mem
    apply counts.pos (inside d mem) mem_cons_self
    rw [covered, List.mem_toFinset]
    exact mem_tags mem
  obtain ⟨core', ran, nodes, nextUuid, nextId⟩ := releaseOn_some core counted
  refine ⟨core', ran, nodes, nextUuid, nextId, ?_, _, nodes, (touches_lower ct _).id, ?_⟩
  · intro e new ct'
    obtain ⟨d, old, rfl⟩ := mem_map.mp (nodes ▸ new)
    rw [lower_lockRef, (touches_lower ct _).id, counts d old ct', countP_cons, countP_cons]
    by_cases same : ct' = ct
    · subst same
      simp [Held.drop, covered]
    · simp [Held.drop, same]
  · intro d mem ct'
    rw [lower_lockRef]
    by_cases same : ct' = ct
    · subst same
      refine ⟨fun inside => counts.pos mem mem_cons_self (by simpa using inside), ?_⟩
      simp [covered]
    · simp [same]

lemma releaseSwa_eq (shape : core.Shape c) (window : receipt.swaUuid ≠ none) :
    core.releaseSwa receipt = core.releaseOn .swa (core.walk receipt .swa) := by
  obtain ⟨uuid, taken⟩ := ne_none_iff_exists'.mp window
  unfold releaseSwa walk
  rw [taken]
  split
  · rename_i root
    rw [root, show core.spine 0 = [] from shape.rooted.spine_root]
    exact (releaseOn_nil core .swa).symm
  · rfl

lemma Covers.known_eq (covers : core.Covers c h) : core.known h.receipt.nodeId = true := by
  simp only [Core.known, Bool.or_eq_true, decide_eq_true_eq]
  apply covers.known.imp_right
  intro inside
  obtain ⟨d, mem, named⟩ := mem_map.mp inside
  rw [find?, find?_isSome]
  exact ⟨d, mem, decide_eq_true named⟩

lemma Held.takes_mamba (c : Config) (h : Held) : h.takes c .mamba = true ↔ c.hasMamba = true ∧
    .mamba ∉ h.receipt.skippedLockComponents ∧ (!(h.swaReleased && c.hasSwa)) = true := by
  simp [Held.takes, and_assoc]

lemma Held.takes_swa (c : Config) (h : Held) : h.takes c .swa = true ↔ c.hasSwa = true ∧
    .swa ∉ h.receipt.skippedLockComponents ∧ (!(h.swaReleased && c.hasSwa)) = true := by
  cases hasSwa : c.hasSwa <;> simp [Held.takes, hasSwa]

/-- Releasing a segment that may have been skipped. -/
lemma releaseOn_segmentOf (core : Core π α) (h : Held) (ct : Component) :
    core.releaseOn ct (core.segmentOf c h ct) =
      if h.takes c ct then core.releaseOn ct (core.walk h.receipt ct) else some core := by
  unfold segmentOf
  split
  · rfl
  · exact releaseOn_nil core ct

/-- `dec_lock_ref` releases, component by component, what the receipt still covers. -/
lemma decLockRef_eq (known : core.known h.receipt.nodeId = true) :
    core.decLockRef c h.receipt h.swaReleased =
      (core.releaseOn .mamba (core.segmentOf c h .mamba)).bind fun core =>
        (if h.takes c .swa then core.releaseSwa h.receipt else some core).bind fun core =>
          (core.releaseOn .full (core.segmentOf c h .full)).bind fun core =>
            some (core.updateEvictableLeafSets h.receipt.nodeId) := by
  simp only [releaseOn_segmentOf, Held.takes_mamba, Held.takes_swa]
  unfold decLockRef
  simp only [Held.takes, decide_eq_true_eq]
  split_ifs <;> rfl

lemma Counts.forget (counts : core.Counts (h :: rest)) (empty : ∀ ct, h.segment ct = ∅) :
    core.Counts rest := by
  intro d mem ct
  rw [counts d mem ct]
  simp [empty]

/-- Unlocking rewrites neither links nor marks. -/
lemma Covers.lower (covers : core.Covers c h) {ids : List Nat}
    (nodes : core'.nodes = core.nodes.map (Core.lower ct ids))
    (next : core'.nextUuid = core.nextUuid) : core'.Covers c h :=
  covers.map nodes next.ge (touches_lower ct ids).id (touches_lower ct ids).parent
    fun d _ u _ => by rw [lower_uuid]

lemma Marks.lower (marks : core.Marks) {ids : List Nat}
    (nodes : core'.nodes = core.nodes.map (Core.lower ct ids))
    (next : core'.nextUuid = core.nextUuid) : core'.Marks :=
  marks.map nodes next fun _ => lower_uuid ..

/-- Releasing a receipt: no assertion fails, and what goes down is what its acquire counted. -/
theorem Locks.dec (locks : core.Locks c (h :: rest)) (shape : core.Shape c) :
    ∃ core', core.decLockRef c h.receipt h.swaReleased = some core' ∧ core'.Locks c rest ∧
      core'.Shape c ∧ Lowers h.segment core core' := by
  have covers := locks.covers h mem_cons_self
  obtain ⟨core₁, ran₁, nodes₁, uuid₁, id₁, counts₁, lowers₁⟩ :=
    locks.counts.release (fun _ => mem_of_mem_segmentOf) (covers.segment .mamba)
  have covers₁ := covers.lower nodes₁ uuid₁
  have shape₁ := shape.touch (touches_lower ..) nodes₁ id₁
  have segment₁ : (h.drop .mamba).segment .swa = (links.tags (core₁.segmentOf c h .swa)).toFinset :=
    covers₁.segment .swa
  obtain ⟨core₂, ran₂, nodes₂, uuid₂, id₂, counts₂, lowers₂⟩ :=
    counts₁.release (fun _ => mem_of_mem_segmentOf) segment₁
  have covers₂ := covers₁.lower nodes₂ uuid₂
  have segment₂ : ((h.drop .mamba).drop .swa).segment .full =
      (links.tags (core₂.segmentOf c h .full)).toFinset := covers₂.segment .full
  obtain ⟨core₃, ran₃, nodes₃, uuid₃, id₃, counts₃, lowers₃⟩ :=
    counts₂.release (fun _ => mem_of_mem_segmentOf) segment₂
  have swa : (if h.takes c .swa then core₁.releaseSwa h.receipt else some core₁) = some core₂ := by
    rw [← ran₂, releaseOn_segmentOf]
    split
    · rename_i taken
      obtain ⟨hasSwa, kept, -⟩ := (Held.takes_swa c h).mp taken
      exact releaseSwa_eq shape₁ (covers.window hasSwa kept)
    · rfl
  have spent : ∀ ct, (((h.drop .mamba).drop .swa).drop .full).segment ct = ∅ := by
    intro ct
    cases ct <;> rfl
  refine ⟨core₃.updateEvictableLeafSets h.receipt.nodeId, ?_, ?_, ?_, ?_⟩
  · rw [decLockRef_eq covers.known_eq, ran₁, bind_some, swa, bind_some, ran₃,
      bind_some]
  · refine ⟨counts₃.forget spent, fun g inside => ?_, ?_⟩
    · have before := locks.covers g (mem_cons_of_mem _ inside)
      exact ((before.lower nodes₁ uuid₁).lower nodes₂ uuid₂).lower nodes₃ uuid₃
    · exact ((locks.marks.lower nodes₁ uuid₁).lower nodes₂ uuid₂).lower nodes₃ uuid₃
  · exact ((shape₁.touch (touches_lower ..) nodes₂ id₂).touch (touches_lower ..) nodes₃ id₃).congr
      rfl rfl
  · have all := (lowers₁.trans lowers₂ fun ct => by cases ct <;> simp).trans lowers₃ fun ct => by
      cases ct <;> simp
    have segments : (fun ct => ((if ct = .mamba then h.segment .mamba else ∅) ∪
        (if ct = .swa then (h.drop .mamba).segment .swa else ∅)) ∪
        if ct = .full then ((h.drop .mamba).drop .swa).segment .full else ∅) = h.segment := by
      funext ct
      cases ct <;> simp [Held.drop]
    rw [segments] at all
    exact ⟨all.nodes⟩

/-! ### Giving the window back early -/

/-- `release_window_lock` counts down, then drops values of unlocked leaves. -/
lemma releaseWindow_eq (core : Core π α) (i : Nat) (uuid : Option Nat)
    (ran : core.releaseOn .swa (markedSegment uuid (core.spine i)) = some core₁) :
    ∃ leaves : List (Node π α), (∀ d ∈ leaves, d ∈ core₁.nodes ∧ (d.data .swa).lockRef = 0) ∧
      leaves.Sublist core₁.nodes ∧
      core.releaseWindow i uuid = some (core₁.evictValues .swa leaves) := by
  unfold releaseWindow
  dsimp only
  rw [ran]
  refine ⟨_, fun d chosen => ?_, filter_sublist, rfl⟩
  obtain ⟨mem, facts⟩ := mem_filter.mp chosen
  simp only [Bool.and_eq_true, decide_eq_true_eq] at facts
  exact ⟨mem, facts.1.1.2⟩

lemma unlinked_evictValues (leaves : List (Node π α)) (ct : Component) :
    Unlinked fun d : Node π α => if d.id ∈ links.tags leaves then dropValue ct d else d :=
  unlinked_put (links.tags leaves) ct (fun _ => rfl) fun _ => rfl

lemma Covers.releaseWindow (covers : core.Covers c h) : core.Covers c (h.releaseWindow c) where
  known := covers.known
  window := covers.window
  bound := covers.bound
  segment := by
    intro ct
    have before := covers.segment ct
    unfold segmentOf at before ⊢
    change (if ct = .full ∨ c.hasSwa = false then h.segment ct else ∅) =
      (links.tags (if (h.releaseWindow c).takes c ct then core.walk h.receipt ct else [])).toFinset
    cases hasSwa : c.hasSwa with
    | false =>
      have same : (h.releaseWindow c).takes c ct = h.takes c ct := by
        cases ct <;> simp [Held.takes, Held.releaseWindow, hasSwa]
      simpa [same] using before
    | true =>
      cases ct with
      | full => exact before
      | swa => simp [Held.takes, Held.releaseWindow, tags]
      | mamba => simp [Held.takes, Held.releaseWindow, hasSwa, tags]

lemma Counts.congr (counts : core.Counts (h :: rest))
    (same : ∀ ct, g.segment ct = h.segment ct) : core.Counts (g :: rest) := by
  intro d mem ct
  rw [counts d mem ct, countP_cons, countP_cons, same]

lemma Locks.releaseWindow (locks : core.Locks c (h :: rest))
    (empty : c.hasSwa = true → ∀ ct, ct ≠ .full → h.segment ct = ∅) :
    core.Locks c (h.releaseWindow c :: rest) := by
  refine ⟨locks.counts.congr fun ct => ?_, fun g inside => ?_, locks.marks⟩
  · simp only [Held.releaseWindow]
    split
    · rfl
    · rename_i window
      simp only [not_or, Bool.not_eq_false] at window
      exact (empty window.2 ct window.1).symm
  · rcases mem_cons.mp inside with rfl | old
    · exact (locks.covers h mem_cons_self).releaseWindow
    · exact locks.covers g (mem_cons_of_mem _ old)

/-- The window of a receipt is released early, with the state below it. -/
theorem Locks.decSwa (locks : core.Locks c (h :: rest)) (shape : core.Shape c)
    (unreleased : h.swaReleased = false) (kept : .swa ∉ h.receipt.skippedLockComponents) :
    ∃ core', core.decSwaLockOnly c h.receipt = some core' ∧
      core'.Locks c (h.releaseWindow c :: rest) ∧ core'.Shape c ∧
      Lowers (fun ct => if ct = .full ∨ c.hasSwa = false then ∅ else h.segment ct) core core' := by
  have covers := locks.covers h mem_cons_self
  unfold decSwaLockOnly
  rw [if_pos covers.known_eq]
  split
  · -- nothing was taken: the root, or a model without windows
    rename_i idle
    have empty : c.hasSwa = true → ∀ ct, ct ≠ .full → h.segment ct = ∅ := by
      intro hasSwa ct _
      rcases idle with root | without
      · have short := segmentOf_isPrefix c core h ct
        rw [root, show core.spine 0 = [] from shape.rooted.spine_root, prefix_nil] at short
        rw [covers.segment, short]
        rfl
      · rw [without] at hasSwa
        cases hasSwa
    refine ⟨core, rfl, locks.releaseWindow empty, shape, ?_⟩
    convert Lowers.refl with ct
    split
    · rfl
    · rename_i window
      simp only [not_or, Bool.not_eq_false] at window
      exact empty window.2 ct window.1
  · rename_i busy
    simp only [not_or, Bool.not_eq_false] at busy
    obtain ⟨-, hasSwa⟩ := busy
    obtain ⟨uuid, taken⟩ := ne_none_iff_exists'.mp (covers.window hasSwa kept)
    have takesSwa : h.takes c .swa = true := by simp [Held.takes, hasSwa, kept, unreleased]
    have segment : core.segmentOf c h .swa = markedSegment uuid (core.spine h.receipt.nodeId) := by
      simp only [segmentOf, takesSwa, if_true, walk, taken, Option.elim]
    obtain ⟨core₁, ran₁, nodes₁, uuid₁, id₁, counts₁, lowers₁⟩ :=
      locks.counts.release (fun _ => mem_of_mem_segmentOf) (covers.segment .swa)
    rw [segment] at ran₁
    obtain ⟨leaves, free, distinct, dropped⟩ := releaseWindow_eq core h.receipt.nodeId uuid ran₁
    have shape₁ := shape.touch (touches_lower ..) nodes₁ id₁
    have shape₂ := shape₁.sheds (evictValues_sheds shape₁ .swa (by decide) free
      (shape₁.rooted.nodup.sublist (distinct.map _)))
    have covers₁ : ∀ g ∈ h :: rest, core₁.Covers c g := fun g inside =>
      (locks.covers g inside).lower nodes₁ uuid₁
    have marks₁ := locks.marks.lower nodes₁ uuid₁
    have nodes₂ : (core₁.evictValues .swa leaves).nodes =
        core₁.nodes.map fun d => if d.id ∈ links.tags leaves then dropValue .swa d else d := rfl
    have unlinked := unlinked_evictValues leaves .swa
    have covers₂ : ∀ g ∈ h :: rest, (core₁.evictValues .swa leaves).Covers c g := fun g inside =>
      (covers₁ g inside).map nodes₂ le_rfl unlinked.id unlinked.parent
        fun d _ u _ => by rw [unlinked.uuid]
    have marks₂ := marks₁.map nodes₂ rfl unlinked.uuid
    have counts₂ := counts₁.map nodes₂ unlinked.id unlinked.lockRef
    have lowers₂ := lowers₁.trans (.unlinked unlinked nodes₂) (by simp)
    have segment₂ : (h.drop .swa).segment .mamba =
        (links.tags ((core₁.evictValues .swa leaves).segmentOf c h .mamba)).toFinset :=
      (covers₂ h mem_cons_self).segment .mamba
    obtain ⟨core₃, ran₃, nodes₃, uuid₃, id₃, counts₃, lowers₃⟩ :=
      counts₂.release (fun _ => mem_of_mem_segmentOf) segment₂
    have takesMamba : h.takes c .mamba = true ↔
        c.hasMamba = true ∧ .mamba ∉ h.receipt.skippedLockComponents := by
      simp [Held.takes_mamba, unreleased]
    refine ⟨core₃, ?_, ⟨counts₃.congr fun ct => ?_, fun g inside => ?_, ?_⟩,
      shape₂.touch (touches_lower ..) nodes₃ id₃, ?_⟩
    · rw [releaseOn_segmentOf] at ran₃
      simp only [takesMamba] at ran₃
      rw [taken]
      change (core.releaseWindow h.receipt.nodeId uuid).bind _ = _
      rw [dropped]
      exact ran₃
    · cases ct <;> simp [Held.releaseWindow, Held.drop, hasSwa]
    · rcases mem_cons.mp inside with rfl | old
      · exact ((covers₂ h mem_cons_self).lower nodes₃ uuid₃).releaseWindow
      · exact (covers₂ g (mem_cons_of_mem _ old)).lower nodes₃ uuid₃
    · exact marks₂.lower nodes₃ uuid₃
    · convert lowers₂.trans lowers₃ (by intro ct; cases ct <;> simp) using 1
      funext ct
      cases ct <;> simp [Held.drop, hasSwa]

end Core

/-! ### Runs -/

/-- A tree with the receipts handed out on it. -/
structure LockRun (π α : Type) where
  core : Core π α
  held : List Held

inductive LockOp (π α : Type)
  | matchPrefix (key : List π) (returnFullMatch : Bool)
  | insert (p : InsertParams π α)
  | incLockRef (node : Nat) (skip : List Component)
  | decLockRef (receipt : Nat)
  | decSwaLockOnly (receipt : Nat)

/-- Any interleaving of matches, inserts and lock operations. Callers bring a slot for every
token they insert, release a receipt they hold, and its window once, if they took one. -/
def lockMachine [DecidableEq π] (c : Config) : Machine (LockRun π α) (LockOp π α) where
  start s := s = ⟨.reset, []⟩
  allowed s
    | .insert p => p.key.length * c.pageSize ≤ p.value.length
    | .decSwaLockOnly k => ∀ h ∈ s.held[k]?, h.swaReleased = false ∧
        .swa ∉ h.receipt.skippedLockComponents
    | _ => True
  step s
    | .matchPrefix key full =>
      let w := s.core.matchWalk c key full
      some ⟨w.core, s.held.map (Held.splitAll w.splits)⟩
    | .insert p => (s.core.insert c p).map fun (w, _) =>
      ⟨w.core, s.held.map (Held.splitAll w.splits)⟩
    | .incLockRef i skip => (s.core.incLockRef c i skip).map fun (core, receipt) =>
      ⟨core, Core.take s.core core receipt :: s.held⟩
    | .decLockRef k => s.held[k]?.bind fun h =>
      (s.core.decLockRef c h.receipt h.swaReleased).map fun core => ⟨core, s.held.eraseIdx k⟩
    | .decSwaLockOnly k => s.held[k]?.bind fun h =>
      (s.core.decSwaLockOnly c h.receipt).map fun core =>
        ⟨core, s.held.set k (h.releaseWindow c)⟩

/-- What holds between the operations of a run. -/
structure LockRun.Kept (c : Config) (s : LockRun π α) : Prop where
  shape : s.core.Shape c
  locks : s.core.Locks c s.held

/-- The receipt at a position, in front of the others. -/
lemma perm_of_getElem? {held : List Held} {k : Nat} {h : Held} (found : held[k]? = some h) :
    held.Perm (h :: held.eraseIdx k) := by
  obtain ⟨lt, rfl⟩ := List.getElem?_eq_some_iff.mp found
  exact (getElem_cons_eraseIdx_perm lt).symm

section

variable [DecidableEq π] {c : Config}

lemma lockMachine_kept : (lockMachine (π := π) (α := α) c).Inductive (LockRun.Kept c) where
  start := by
    rintro s rfl
    exact ⟨Core.shape_reset c, Core.locks_reset⟩
  step := by
    intro s op s' kept ok ran
    obtain ⟨shape, locks⟩ := kept
    cases op with
    | matchPrefix key full =>
      cases ran
      have edits := Core.matchWalk_grows full shape key
      exact ⟨shape.grows edits, locks.grows shape edits⟩
    | insert p =>
      obtain ⟨⟨w, result⟩, inserted, rfl⟩ := map_eq_some_iff.mp ran
      have edits := Core.insert_grows shape ok inserted
      exact ⟨shape.grows edits, locks.grows shape edits⟩
    | incLockRef i skip =>
      obtain ⟨⟨core, receipt⟩, taken, rfl⟩ := map_eq_some_iff.mp ran
      obtain ⟨raises, -⟩ := Core.incLockRef_raises shape locks.marks taken
      exact ⟨raises.shape shape, locks.inc shape taken⟩
    | decLockRef k =>
      obtain ⟨h, found, ran⟩ := bind_eq_some_iff.mp ran
      obtain ⟨core', released, locks', shape', -⟩ :=
        (locks.perm (perm_of_getElem? found)).dec shape
      rw [released] at ran
      cases ran
      exact ⟨shape', locks'⟩
    | decSwaLockOnly k =>
      obtain ⟨h, found, ran⟩ := bind_eq_some_iff.mp ran
      obtain ⟨unreleased, kept⟩ := ok h found
      obtain ⟨core', released, locks', shape', -⟩ :=
        (locks.perm (perm_of_getElem? found)).decSwa shape unreleased kept
      rw [released] at ran
      cases ran
      obtain ⟨lt, -⟩ := List.getElem?_eq_some_iff.mp found
      exact ⟨shape', locks'.perm (set_perm_cons_eraseIdx lt _).symm⟩

/-- In every run each receipt that is still held can be released, no counter on its way is at
zero, and what goes down is, per component, what its own acquire counted, halves of later
splits included; the same holds of an early release of its window. Once every receipt is
back, no node below the root is locked. -/
theorem receipts_pair {s : LockRun π α} (reached : (lockMachine c).Reachable s) :
    (∀ h ∈ s.held, ∃ core', s.core.decLockRef c h.receipt h.swaReleased = some core' ∧
      Core.Lowers h.segment s.core core') ∧
    (∀ h ∈ s.held, h.swaReleased = false → .swa ∉ h.receipt.skippedLockComponents →
      ∃ core', s.core.decSwaLockOnly c h.receipt = some core' ∧
        Core.Lowers (fun ct => if ct = .full ∨ c.hasSwa = false then ∅ else h.segment ct)
          s.core core') ∧
    (s.held = [] → ∀ d ∈ s.core.nodes, ∀ ct, (d.data ct).lockRef = 0) := by
  obtain ⟨shape, locks⟩ := lockMachine_kept.reachable reached
  refine ⟨?_, ?_, ?_⟩
  · intro h inside
    obtain ⟨k, found⟩ := getElem?_of_mem inside
    obtain ⟨core', released, -, -, lowers⟩ := (locks.perm (perm_of_getElem? found)).dec shape
    exact ⟨core', released, lowers⟩
  · intro h inside unreleased kept
    obtain ⟨k, found⟩ := getElem?_of_mem inside
    obtain ⟨core', released, -, -, lowers⟩ :=
      (locks.perm (perm_of_getElem? found)).decSwa shape unreleased kept
    exact ⟨core', released, lowers⟩
  · intro noReceipt d mem ct
    rw [locks.counts d mem ct, noReceipt]
    rfl

end

/-- A tree of single-token pages with a window of one token. -/
def narrowConfig : Config where
  pageSize := 1
  pageSize_pos := Nat.one_pos
  hasSwa := true
  hasMamba := true
  slidingWindowSize := 1
  window_pos := Nat.one_pos
  gatesPrefixMatch := true
  enableHicache := true
  isWriteBack := true
  hasSwaHostPool := true
  writeThroughThreshold := 1
  mambaCheckpointGrid := 1
  mambaMaxStatesPerPath := none

/-- The tokens of `key` with a state. -/
def stateInsert (key : List Nat) : InsertParams Nat Nat where
  key
  value := key.map (10 * ·)
  prevPrefixLen := 0
  swaEvictedSeqlen := 0
  mambaValue := some [20]
  rotationBase := none
  insertedLen := 0
  fullToSwa := id

/-- Receipts on the lower and the upper half of a leaf that its insert split at the window; a later
insert splits the upper half, which both of them count. -/
theorem receipts_pair_split : ∃ s : LockRun Nat Nat, (lockMachine narrowConfig).Reachable s ∧
    (s.held.map fun h => h.receipt.nodeId) = [2, 1] ∧
    (s.core.nodes.map fun d => (d.id, (d.data .full).lockRef, (d.data .swa).lockRef)) =
      [(4, 0, 0), (1, 1, 1), (2, 2, 1), (3, 2, 1)] ∧
    ∀ h ∈ s.held, ∃ core', s.core.decLockRef narrowConfig h.receipt h.swaReleased = some core' ∧
      Core.Lowers h.segment s.core core' := by
  have inserted : (lockMachine narrowConfig).Reachable _ :=
    .step (.start rfl) (show (stateInsert [1, 2, 3]).key.length * 1 ≤ _ by decide)
      (a := .insert (stateInsert [1, 2, 3])) rfl
  have lower := inserted.step trivial (a := LockOp.incLockRef 1 []) rfl
  have both := lower.step trivial (a := LockOp.incLockRef 2 []) rfl
  have cut := both.step (show (stateInsert [1, 7]).key.length * 1 ≤ _ by decide)
      (a := LockOp.insert (stateInsert [1, 7])) rfl
  exact ⟨_, cut, rfl, rfl, (receipts_pair cut).1⟩

/-- The root is locked for good, also while no receipt is held. -/
theorem root_stays_locked : ∃ s : LockRun Nat Nat, (lockMachine narrowConfig).Reachable s ∧
    s.held = [] ∧ (s.core.root.data .full).lockRef ≠ 0 :=
  ⟨⟨.reset, []⟩, .start rfl, rfl, by decide⟩

end Sglang.Tree
