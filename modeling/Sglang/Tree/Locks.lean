/-
# The unified radix tree: lock receipts

A receipt names the node it was taken on and, for SWA, the mark of the node where its window
ended; the segments it covers are found again by walking up. `Held` pairs a receipt with the
nodes its acquire counted, carried along every split, and `Locks` is the invariant: each
counter is the number of receipts that cover the node, and each walk finds its own nodes.

* `Locks.grows` — splits, new leaves and new values keep it; what the lock operations do to
  it is in `Tree.Receipts`.
-/

import Sglang.Tree.Residency

namespace Sglang.Tree

open Sglang.Lib List Links

variable {π α : Type}

/-- A receipt that is still to be released. -/
structure Held where
  receipt : Core.Receipt
  /-- `dec_swa_lock_only` was called for it. -/
  swaReleased : Bool
  /-- The nodes its acquire counted and no release has given back. -/
  segment : Component → Finset Nat

namespace Held

/-- A split below `new` copies Full and SWA locks to the new parent. -/
def split (h : Held) (child new : Nat) : Held :=
  { h with segment := fun ct =>
      if ct ≠ .mamba ∧ child ∈ h.segment ct then insert new (h.segment ct) else h.segment ct }

def splitAll (log : List (Nat × Nat)) (h : Held) : Held :=
  log.foldl (fun h s => h.split s.1 s.2) h

/-- After `dec_swa_lock_only`: the window and the state below it are given back. -/
def releaseWindow (c : Config) (h : Held) : Held :=
  { h with
    swaReleased := true
    segment := fun ct => if ct = .full ∨ c.hasSwa = false then h.segment ct else ∅ }

/-- Whether the receipt still covers a component. -/
def takes (c : Config) (h : Held) : Component → Bool
  | .full => decide (.full ∉ h.receipt.skippedLockComponents)
  | .swa => c.hasSwa && decide (.swa ∉ h.receipt.skippedLockComponents) && !h.swaReleased
  | .mamba => c.hasMamba && decide (.mamba ∉ h.receipt.skippedLockComponents) &&
      !(h.swaReleased && c.hasSwa)

/-- One component's segment is given back. -/
def drop (ct : Component) (h : Held) : Held :=
  { h with segment := Function.update h.segment ct ∅ }

@[simp] lemma receipt_splitAll (log : List (Nat × Nat)) (h : Held) :
    (h.splitAll log).receipt = h.receipt := by
  induction log generalizing h with
  | nil => rfl
  | cons s log ih => exact ih (h.split s.1 s.2)

lemma splitAll_append (log log' : List (Nat × Nat)) (h : Held) :
    h.splitAll (log ++ log') = (h.splitAll log).splitAll log' :=
  foldl_append

end Held

namespace Core

variable {c : Config} {core core' : Core π α} {d e : Node π α} {i : Nat} {ct : Component}
  {held rest : List Held} {h : Held}

/-- The nodes whose counter of `ct` an operation raised. -/
def raised (before after : Core π α) (ct : Component) : Finset Nat :=
  (links.tags (after.nodes.filter fun d =>
    decide ((before.find? d.id).elim 0 (fun e => (e.data ct).lockRef) < (d.data ct).lockRef))).toFinset

/-- A fresh receipt, with the nodes its acquire counted. -/
def take (before after : Core π α) (receipt : Receipt) : Held :=
  ⟨receipt, false, raised before after⟩

/-! ### Counting up and down -/

/-- Count a lock on the named nodes. -/
def raise (ct : Component) (ids : List Nat) (d : Node π α) : Node π α :=
  if d.id ∈ ids then lockNode ct d else d

/-- Take a lock from the named nodes. -/
def lower (ct : Component) (ids : List Nat) (d : Node π α) : Node π α :=
  if d.id ∈ ids then unlockNode ct d else d

lemma touches_raise (ct : Component) (ids : List Nat) : Touches (π := π) (α := α) (raise ct ids) :=
  .put ids ct _

lemma touches_lower (ct : Component) (ids : List Nat) : Touches (π := π) (α := α) (lower ct ids) :=
  .put ids ct _

lemma raise_lockRef (ct ct' : Component) (ids : List Nat) (d : Node π α) :
    ((raise ct ids d).data ct').lockRef =
      (d.data ct').lockRef + if ct' = ct ∧ d.id ∈ ids then 1 else 0 := by
  unfold raise
  by_cases here : d.id ∈ ids
  · rw [if_pos here, lockNode, Node.put_data]
    by_cases same : ct' = ct
    · subst same
      simp [here]
    · simp [same]
  · simp [here]

lemma lower_lockRef (ct ct' : Component) (ids : List Nat) (d : Node π α) :
    ((lower ct ids d).data ct').lockRef =
      (d.data ct').lockRef - if ct' = ct ∧ d.id ∈ ids then 1 else 0 := by
  unfold lower
  by_cases here : d.id ∈ ids
  · rw [if_pos here, unlockNode, Node.put_data]
    by_cases same : ct' = ct
    · subst same
      simp [here]
    · simp [same]
  · simp [here]

lemma raise_uuid (ct ct' : Component) (ids : List Nat) (d : Node π α) :
    ((raise ct ids d).data ct').uuid = (d.data ct').uuid := d.putIf_keeps (·.uuid) (by rfl) ct' _

lemma lower_uuid (ct ct' : Component) (ids : List Nat) (d : Node π α) :
    ((lower ct ids d).data ct').uuid = (d.data ct').uuid := d.putIf_keeps (·.uuid) (by rfl) ct' _

section

variable (core)

@[simp] lemma nodes_acquireOn (ct : Component) (seg : List (Node π α)) :
    (core.acquireOn ct seg).nodes = core.nodes.map (raise ct (links.tags seg)) := rfl

lemma releaseOn_nil (ct : Component) : core.releaseOn ct [] = some core := by
  unfold releaseOn
  simp [tokensAt, tags, modify, addEvictable, addProtected, updateAll]

/-- A release whose counters are all positive. -/
lemma releaseOn_some {seg : List (Node π α)} (counted : ∀ d ∈ seg, 0 < (d.data ct).lockRef) :
    ∃ core', core.releaseOn ct seg = some core' ∧
      core'.nodes = core.nodes.map (lower ct (links.tags seg)) ∧ core'.nextUuid = core.nextUuid ∧
      core'.nextId = core.nextId := by
  unfold releaseOn
  rw [if_pos (all_eq_true.mpr fun d inside => decide_eq_true (counted d inside))]
  refine ⟨_, rfl, ?_, ?_, ?_⟩
  · rw [nodes_updateAll]
    rfl
  · rw [nextUuid_updateAll]
    rfl
  · rw [nextId_updateAll]
    rfl

end

/-! ### Segments are found again -/

/-- The nodes the release of one component walks over. -/
def walk (core : Core π α) (receipt : Receipt) : Component → List (Node π α)
  | .full => core.spine receipt.nodeId
  | .swa => receipt.swaUuid.elim [] fun uuid => markedSegment uuid (core.spine receipt.nodeId)
  | .mamba => core.anchorSegment receipt.nodeId

/-- The nodes a receipt still covers. -/
def segmentOf (c : Config) (core : Core π α) (h : Held) (ct : Component) : List (Node π α) :=
  if h.takes c ct then core.walk h.receipt ct else []

lemma markedSegment_isPrefix (uuid : Option Nat) (path : List (Node π α)) :
    markedSegment uuid path <+: path := by
  induction path with
  | nil => exact prefix_rfl
  | cons d up ih =>
    unfold markedSegment
    split
    · exact prefix_cons_inj d |>.mpr nil_prefix
    · exact prefix_cons_inj d |>.mpr ih

lemma walk_isPrefix (core : Core π α) (receipt : Receipt) (ct : Component) :
    core.walk receipt ct <+: core.spine receipt.nodeId := by
  cases ct with
  | full => exact prefix_rfl
  | swa =>
    unfold walk
    cases receipt.swaUuid with
    | none => exact nil_prefix
    | some uuid => exact markedSegment_isPrefix uuid _
  | mamba => exact take_prefix 1 _

lemma segmentOf_isPrefix (c : Config) (core : Core π α) (h : Held) (ct : Component) :
    core.segmentOf c h ct <+: core.spine h.receipt.nodeId := by
  unfold segmentOf
  split
  · exact walk_isPrefix core h.receipt ct
  · exact nil_prefix

lemma mem_of_mem_segmentOf (inside : d ∈ core.segmentOf c h ct) : d ∈ core.nodes :=
  mem_of_mem_spine ((segmentOf_isPrefix c core h ct).subset inside)

variable {f : Node π α → Node π α} {receipt : Receipt} {child : Node π α} {n new m : Nat}
  {log : List (Nat × Nat)} {path : List (Node π α)} {uuid : Option Nat}

/-- A rewriting that keeps the marks a walk can look for. -/
lemma markedSegment_map
    (mark : ∀ d ∈ path, uuid.isSome → (((f d).data .swa).uuid = uuid ↔ (d.data .swa).uuid = uuid)) :
    markedSegment uuid (path.map f) = (markedSegment uuid path).map f := by
  induction path with
  | nil => rfl
  | cons d up ih =>
    have ih := ih fun e inside => mark e (mem_cons_of_mem _ inside)
    by_cases stop : uuid.isSome ∧ (d.data .swa).uuid = uuid
    · have stop' : uuid.isSome ∧ ((f d).data .swa).uuid = uuid :=
        ⟨stop.1, (mark d mem_cons_self stop.1).mpr stop.2⟩
      simp [markedSegment, if_pos stop, if_pos stop']
    · have stop' : ¬ (uuid.isSome ∧ ((f d).data .swa).uuid = uuid) := fun both =>
        stop ⟨both.1, (mark d mem_cons_self both.1).mp both.2⟩
      simp only [map_cons, markedSegment, if_neg stop, if_neg stop', ih]

section

variable (nodes : core'.nodes = core.nodes.map f)
  (id : ∀ d, (f d).id = d.id) (parent : ∀ d, (f d).parent = d.parent)
include nodes id parent

lemma spine_map (i : Nat) : core'.spine i = (core.spine i).map f := by
  rw [spine, nodes]
  exact Links.spine_map id parent

lemma walk_map (mark : ∀ d ∈ core.nodes, ∀ u, receipt.swaUuid = some (some u) →
      (((f d).data .swa).uuid = some u ↔ (d.data .swa).uuid = some u)) (ct : Component) :
    core'.walk receipt ct = (core.walk receipt ct).map f := by
  have spine := spine_map nodes id parent receipt.nodeId
  cases ct with
  | full => exact spine
  | swa =>
    simp only [walk]
    cases taken : receipt.swaUuid with
    | none => rfl
    | some uuid =>
      rw [spine]
      refine markedSegment_map fun d inside present => ?_
      obtain ⟨u, rfl⟩ := Option.isSome_iff_exists.mp present
      exact mark d (mem_of_mem_spine inside) u taken
  | mamba =>
    simp only [walk, anchorSegment]
    rw [spine, map_take]

end

lemma tags_map_id (id : ∀ d, (f d).id = d.id) (ds : List (Node π α)) :
    links.tags (ds.map f) = links.tags ds :=
  tags_map id

/-! ### The invariant -/

/-- Each counter is the number of receipts that cover the node. -/
def Counts (core : Core π α) (held : List Held) : Prop :=
  ∀ d ∈ core.nodes, ∀ ct, (d.data ct).lockRef = held.countP fun h => decide (d.id ∈ h.segment ct)

/-- A mark is on one node, and not younger than the counter of marks. -/
structure Marks (core : Core π α) : Prop where
  distinct : ∀ d ∈ core.nodes, ∀ e ∈ core.nodes, ∀ u, (d.data .swa).uuid = some u →
    (e.data .swa).uuid = some u → d = e
  bound : ∀ d ∈ core.nodes, ∀ u, (d.data .swa).uuid = some u → u ≤ core.nextUuid

/-- What holds of one receipt. -/
structure Covers (c : Config) (core : Core π α) (h : Held) : Prop where
  known : h.receipt.nodeId = 0 ∨ h.receipt.nodeId ∈ links.tags core.nodes
  segment : ∀ ct, h.segment ct = (links.tags (core.segmentOf c h ct)).toFinset
  window : c.hasSwa = true → .swa ∉ h.receipt.skippedLockComponents → h.receipt.swaUuid ≠ none
  bound : ∀ u, h.receipt.swaUuid = some (some u) → u ≤ core.nextUuid

structure Locks (c : Config) (core : Core π α) (held : List Held) : Prop where
  counts : core.Counts held
  covers : ∀ h ∈ held, core.Covers c h
  marks : core.Marks

lemma locks_reset : Locks c (reset : Core π α) [] :=
  ⟨by simp [Counts, reset], by simp, by simp [reset], by simp [reset]⟩

lemma Counts.perm (counts : core.Counts held) (perm : held.Perm rest) : core.Counts rest :=
  fun d mem ct => (counts d mem ct).trans (perm.countP_eq _)

lemma Locks.perm (locks : core.Locks c held) (perm : held.Perm rest) : core.Locks c rest :=
  ⟨locks.counts.perm perm, fun h inside => locks.covers h (perm.mem_iff.mpr inside), locks.marks⟩

/-- A covered node is counted. -/
lemma Counts.pos (counts : core.Counts held) (mem : d ∈ core.nodes) (inside : h ∈ held)
    (covered : d.id ∈ h.segment ct) : 0 < (d.data ct).lockRef := by
  rw [counts d mem ct]
  exact countP_pos_iff.mpr ⟨h, inside, decide_eq_true covered⟩

/-! ### Edits that leave links and counters alone -/

/-- The receipt walks the same nodes after a rewriting that keeps older marks. -/
lemma Covers.map (covers : core.Covers c h) (nodes : core'.nodes = core.nodes.map f)
    (later : core.nextUuid ≤ core'.nextUuid) (id : ∀ d, (f d).id = d.id)
    (parent : ∀ d, (f d).parent = d.parent) (mark : ∀ d ∈ core.nodes, ∀ u ≤ core.nextUuid,
      (((f d).data .swa).uuid = some u ↔ (d.data .swa).uuid = some u)) : core'.Covers c h where
  known := by
    rw [nodes, tags_map_id id]
    exact covers.known
  segment ct := by
    rw [covers.segment ct, segmentOf, segmentOf]
    split
    · rw [walk_map nodes id parent fun d mem u taken => mark d mem u (covers.bound u taken),
        tags_map_id id]
    · rfl
  window := covers.window
  bound u taken := (covers.bound u taken).trans later

lemma Marks.map (marks : core.Marks) (nodes : core'.nodes = core.nodes.map f)
    (next : core'.nextUuid = core.nextUuid)
    (mark : ∀ d, ((f d).data .swa).uuid = (d.data .swa).uuid) : core'.Marks where
  distinct := by
    intro d mem e mem' u marked marked'
    obtain ⟨d, old, rfl⟩ := mem_map.mp (nodes ▸ mem)
    obtain ⟨e, old', rfl⟩ := mem_map.mp (nodes ▸ mem')
    rw [mark] at marked marked'
    rw [marks.distinct d old e old' u marked marked']
  bound := by
    intro d mem u marked
    obtain ⟨d, old, rfl⟩ := mem_map.mp (nodes ▸ mem)
    rw [mark] at marked
    exact next ▸ marks.bound d old u marked

lemma Counts.map (counts : core.Counts held) (nodes : core'.nodes = core.nodes.map f)
    (id : ∀ d, (f d).id = d.id) (lockRef : ∀ d ct, ((f d).data ct).lockRef = (d.data ct).lockRef) :
    core'.Counts held := by
  intro d mem ct
  obtain ⟨d, old, rfl⟩ := mem_map.mp (nodes ▸ mem)
  rw [lockRef, id]
  exact counts d old ct

/-- A rewriting that touches neither links nor counters nor marks. -/
structure Unlinked (f : Node π α → Node π α) : Prop where
  id : ∀ d, (f d).id = d.id
  parent : ∀ d, (f d).parent = d.parent
  lockRef : ∀ d ct, ((f d).data ct).lockRef = (d.data ct).lockRef
  uuid : ∀ d, ((f d).data .swa).uuid = (d.data .swa).uuid

lemma Locks.map (locks : core.Locks c held) (unlinked : Unlinked f)
    (nodes : core'.nodes = core.nodes.map f) (next : core'.nextUuid = core.nextUuid) :
    core'.Locks c held where
  counts := locks.counts.map nodes unlinked.id unlinked.lockRef
  covers h inside := (locks.covers h inside).map nodes next.ge unlinked.id unlinked.parent
    fun d _ u _ => by rw [unlinked.uuid]
  marks := locks.marks.map nodes next unlinked.uuid

/-- Storing into one component of some nodes, counters and marks kept. -/
lemma unlinked_put (ids : List Nat) (ct : Component) {cd : Node π α → ComponentData α}
    (lockRef : ∀ d, (cd d).lockRef = (d.data ct).lockRef) (uuid : ∀ d, (cd d).uuid = (d.data ct).uuid) :
    Unlinked fun d : Node π α => if d.id ∈ ids then d.put ct (cd d) else d := by
  refine ⟨?_, ?_, fun d ct' => d.putIf_keeps (·.lockRef) (lockRef d) ct' _,
    fun d => d.putIf_keeps (·.uuid) (uuid d) .swa _⟩
  all_goals intro d; split <;> rfl

lemma Locks.put (locks : core.Locks c held) {ids : List Nat}
    (cd : Node π α → ComponentData α)
    (nodes : core'.nodes = (core.modify ids fun d => d.put ct (cd d)).nodes := by rfl)
    (next : core'.nextUuid = core.nextUuid := by rfl)
    (lockRef : ∀ d, (cd d).lockRef = (d.data ct).lockRef := by intro; rfl)
    (uuid : ∀ d, (cd d).uuid = (d.data ct).uuid := by intro; rfl) : core'.Locks c held :=
  locks.map (unlinked_put ids ct lockRef uuid) (nodes.trans (nodes_modify ..)) next

lemma Locks.congr (locks : core.Locks c held) (nodes : core'.nodes = core.nodes)
    (next : core'.nextUuid = core.nextUuid) : core'.Locks c held :=
  locks.map ⟨fun _ => rfl, fun _ => rfl, fun _ _ => rfl, fun _ => rfl⟩
    (by simp [nodes]) next

/-! ### Splits -/

lemma markedSegment_expand (here : ∀ d ∈ path, d.id = child.id → d = child) :
    markedSegment uuid (links.expand child.id (Node.lower c n new) (Node.upper c n new) path) =
      links.expand child.id (Node.lower c n new) (Node.upper c n new) (markedSegment uuid path) := by
  induction path with
  | nil => rfl
  | cons d up ih =>
    have ih := ih fun e inside => here e (mem_cons_of_mem _ inside)
    by_cases named : d.id = child.id
    · -- the mark moves to the upper half, so the walk takes both halves before it stops
      rw [expand_cons_self named]
      have moved : ((d.upper c n new).data .swa).uuid = (d.data .swa).uuid := rfl
      have first : ¬ (uuid.isSome ∧ ((d.lower c n new).data .swa).uuid = uuid) := by
        rintro ⟨present, marked⟩
        rw [← marked] at present
        cases present
      by_cases stop : uuid.isSome ∧ (d.data .swa).uuid = uuid
      · simp only [markedSegment, if_neg first, moved, if_pos stop]
        rw [expand_cons_self named]
        rfl
      · simp only [markedSegment, if_neg first, moved, if_neg stop]
        rw [expand_cons_self named, ih]
    · rw [expand_cons_ne named]
      by_cases stop : uuid.isSome ∧ (d.data .swa).uuid = uuid
      · simp only [markedSegment, if_pos stop]
        rw [expand_cons_ne named]
        rfl
      · simp only [markedSegment, if_neg stop]
        rw [expand_cons_ne named, ih]

lemma tags_expand_toFinset (ds : List (Node π α)) :
    (links.tags (links.expand child.id (Node.lower c n new) (Node.upper c n new) ds)).toFinset =
      if child.id ∈ links.tags ds then Insert.insert new (links.tags ds).toFinset
      else (links.tags ds).toFinset := by
  ext m
  rw [mem_toFinset, mem_tags_expand (between c n child.id new)]
  split
  · rename_i inside
    simp [inside, or_comm]
  · rename_i absent
    simp [absent]

lemma Shape.spine_splitNode (shape : core.Shape c) (child : Node π α) (n : Nat)
    (known : i = 0 ∨ i ∈ links.tags core.nodes) :
    (core.splitNode c child n).1.spine i =
      links.expand child.id (Node.lower c n core.nextId) (Node.upper c n core.nextId)
        (core.spine i) := by
  apply spine_expand (between c n child.id core.nextId)
    (fun d mem => (shape.parent_lt mem).ne)
  rcases known with rfl | inside
  · exact shape.next_pos.ne
  · exact fun same => shape.fresh_next (same ▸ inside)

lemma Shape.walk_splitNode (shape : core.Shape c) (mem : child ∈ core.nodes)
    (known : receipt.nodeId = 0 ∨ receipt.nodeId ∈ links.tags core.nodes) (other : ct ≠ .mamba) :
    (core.splitNode c child n).1.walk receipt ct =
      links.expand child.id (Node.lower c n core.nextId) (Node.upper c n core.nextId)
        (core.walk receipt ct) := by
  have spine := shape.spine_splitNode child n known
  cases ct with
  | mamba => exact absurd rfl other
  | full => exact spine
  | swa =>
    simp only [walk]
    cases receipt.swaUuid with
    | none => rfl
    | some uuid =>
      rw [spine]
      exact markedSegment_expand fun d inside named =>
        shape.eq_of_id (mem_of_mem_spine inside) mem named

/-- The lower half keeps the name, and the new parent holds no state. -/
lemma Shape.anchor_splitNode (shape : core.Shape c)
    (known : receipt.nodeId = 0 ∨ receipt.nodeId ∈ links.tags core.nodes) :
    links.tags ((core.splitNode c child n).1.walk receipt .mamba) =
      links.tags (core.walk receipt .mamba) := by
  simp only [walk, anchorSegment]
  rw [shape.spine_splitNode child n known]
  cases core.spine receipt.nodeId with
  | nil => rfl
  | cons d up =>
    by_cases here : d.id = child.id
    · rw [expand_cons_self here]
      rfl
    · rw [expand_cons_ne here]
      rfl

lemma Covers.split (covers : core.Covers c h) (shape : core.Shape c) (mem : child ∈ core.nodes) :
    (core.splitNode c child n).1.Covers c (h.split child.id core.nextId) where
  known := by
    apply covers.known.imp_right
    intro inside
    rw [nodes_splitNode, mem_tags_expand (between c n child.id core.nextId)]
    exact .inl inside
  segment := by
    intro ct
    have before := covers.segment ct
    change (if ct ≠ .mamba ∧ child.id ∈ h.segment ct then _ else _) =
      (links.tags (if h.takes c ct then (core.splitNode c child n).1.walk h.receipt ct
        else [])).toFinset
    unfold segmentOf at before
    by_cases taken : h.takes c ct = true
    · rw [if_pos taken] at before ⊢
      by_cases state : ct = .mamba
      · subst state
        rw [shape.anchor_splitNode covers.known, ← before, if_neg (by simp)]
      · rw [shape.walk_splitNode mem covers.known state, tags_expand_toFinset, before]
        simp [state]
    · rw [if_neg taken] at before ⊢
      rw [before]
      simp [tags]
  window := covers.window
  bound := covers.bound

/-- The segments of a receipt name known nodes. -/
lemma Covers.mem_tags (covers : core.Covers c h) (inside : m ∈ h.segment ct) :
    m ∈ links.tags core.nodes := by
  rw [covers.segment ct, mem_toFinset] at inside
  obtain ⟨d, covered, rfl⟩ := mem_map.mp inside
  exact Links.mem_tags (mem_of_mem_segmentOf covered)

section

variable (locks : core.Locks c held)
include locks

lemma Locks.split (shape : core.Shape c) (mem : child ∈ core.nodes) :
    (core.splitNode c child n).1.Locks c (held.map fun h => h.split child.id core.nextId) where
  covers := by
    intro h inside
    obtain ⟨h, old, rfl⟩ := mem_map.mp inside
    exact (locks.covers h old).split shape mem
  counts := by
    have fresh : ∀ h ∈ held, ∀ ct, core.nextId ∉ h.segment ct := fun h inside ct covered =>
      shape.fresh_next ((locks.covers h inside).mem_tags covered)
    have others : ∀ m ct, m ≠ core.nextId →
        (held.map fun h => h.split child.id core.nextId).countP (fun h => decide (m ∈ h.segment ct)) =
          held.countP fun h => decide (m ∈ h.segment ct) := by
      intro m ct other
      rw [countP_map]
      refine countP_congr fun h _ => ?_
      simp only [Function.comp_apply, Held.split]
      split
      · simp [other]
      · rfl
    intro e new ct
    rcases (shape.mem_splitNode mem).mp new with ⟨old, _⟩ | rfl | rfl
    · rw [others e.id ct (shape.bound e old).ne]
      exact locks.counts e old ct
    · rw [Node.lower_id, others child.id ct (shape.bound child mem).ne]
      rw [← locks.counts child mem ct]
      cases ct <;> rfl
    · rw [countP_map]
      by_cases state : ct = .mamba
      · subst state
        refine (countP_eq_zero.mpr fun h inside => ?_).symm
        simpa [Held.split] using fresh h inside .mamba
      · have copied : ((child.upper c n core.nextId).data ct).lockRef = (child.data ct).lockRef := by
          simp [Node.upper, state, ComponentData.upper]
        rw [copied, locks.counts child mem ct]
        refine countP_congr fun h inside => ?_
        by_cases covered : child.id ∈ h.segment ct
        · simp [Held.split, state, covered]
        · simp [Held.split, covered, fresh h inside ct]
  marks := by
    -- a mark stays on its node, or moves to the upper half
    have back : ∀ d ∈ (core.splitNode c child n).1.nodes, ∀ u, (d.data .swa).uuid = some u →
        ∃ x ∈ core.nodes, (x.data .swa).uuid = some u ∧
          d = if x.id = child.id then child.upper c n core.nextId else x := by
      intro d new u marked
      rcases (shape.mem_splitNode mem).mp new with ⟨old, away⟩ | rfl | rfl
      · exact ⟨d, old, marked, (if_neg away).symm⟩
      · cases marked
      · exact ⟨child, mem, marked, (if_pos rfl).symm⟩
    constructor
    · intro d new e new' u marked marked'
      obtain ⟨x, old, here, rfl⟩ := back d new u marked
      obtain ⟨y, old', here', rfl⟩ := back e new' u marked'
      rw [locks.marks.distinct x old y old' u here here']
    · intro d new u marked
      obtain ⟨x, old, here, -⟩ := back d new u marked
      exact locks.marks.bound x old u here

/-! ### New leaves -/

lemma Locks.cons (shape : core.Shape c)
    (nodes : core'.nodes = d :: core.nodes) (next : core'.nextUuid = core.nextUuid)
    (named : d.id = core.nextId) (unlocked : ∀ ct, (d.data ct).lockRef = 0)
    (unmarked : (d.data .swa).uuid = none) : core'.Locks c held where
  counts := by
    intro e new ct
    rcases mem_cons.mp (nodes ▸ new) with rfl | old
    · rw [unlocked ct, eq_comm, countP_eq_zero]
      intro h inside covered
      rw [decide_eq_true_eq, named] at covered
      exact shape.fresh_next ((locks.covers h inside).mem_tags covered)
    · exact locks.counts e old ct
  covers := by
    intro h inside
    have covers := locks.covers h inside
    have spine : core'.spine h.receipt.nodeId = core.spine h.receipt.nodeId := by
      rw [spine, nodes]
      refine spine_cons_of_ne fun same => ?_
      rcases covers.known with zero | known
      · exact shape.next_pos.ne' (named.symm.trans (same.trans zero))
      · exact shape.fresh_next (named ▸ (show d.id = h.receipt.nodeId from same) ▸ known)
    have segment : ∀ ct, core'.segmentOf c h ct = core.segmentOf c h ct := by
      intro ct
      cases ct <;> simp only [segmentOf, walk, anchorSegment, spine]
    refine ⟨covers.known.imp_right fun known => ?_, fun ct => ?_, covers.window, ?_⟩
    · rw [nodes]
      exact mem_cons_of_mem _ known
    · rw [segment]
      exact covers.segment ct
    · rw [next]
      exact covers.bound
  marks := by
    have back : ∀ e ∈ core'.nodes, ∀ u, (e.data .swa).uuid = some u → e ∈ core.nodes := by
      intro e new u marked
      rcases mem_cons.mp (nodes ▸ new) with rfl | old
      · rw [unmarked] at marked
        cases marked
      · exact old
    constructor
    · intro e new e' new' u marked marked'
      exact locks.marks.distinct e (back e new u marked) e' (back e' new' u marked') u marked marked'
    · intro e new u marked
      exact next ▸ locks.marks.bound e (back e new u marked) u marked

lemma Locks.grow (shape : core.Shape c)
    (edit : Grow c core log core') : core'.Locks c (held.map (Held.splitAll log)) := by
  have still : held.map (.splitAll []) = held := map_id _
  cases edit with
  | split mem => exact locks.split shape mem
  | leaf =>
    rw [still]
    exact locks.cons shape rfl rfl rfl (fun _ => rfl) rfl
  | unevict =>
    rw [still]
    exact locks.put _ (nodes_unevictNodeOnInsert ..) (counters_unevictNodeOnInsert ..).2
  | store =>
    rw [still]
    exact locks.put _ (nodes_setComponentDeviceValue ..) (counters_setComponentDeviceValue ..).2
  | adopt =>
    rw [still]
    exact locks.put _ rfl
  | @note ids f bare =>
    rw [still]
    refine locks.map ?_ (nodes_modify ..) rfl
    refine ⟨?_, ?_, ?_, ?_⟩ <;> intro d <;> split <;> simp [bare]

theorem Locks.grows (shape : core.Shape c)
    (edits : Grows c core log core') : core'.Locks c (held.map (Held.splitAll log)) := by
  induction edits with
  | refl =>
    rw [show held.map (.splitAll []) = held from map_id _]
    exact locks
  | tail before edit ih =>
    have both := ih.grow (shape.grows before) edit
    rw [map_map] at both
    simpa only [Function.comp_def, ← Held.splitAll_append] using both

end

/-! ### Evictions and load-backs -/

/-- A path that is wholly kept: the filtered tree walks the same way. -/
lemma walk_filter (core' : Core π α) {keep : Node π α → Bool}
    (nodes : core'.nodes = core.nodes.filter keep)
    (kept : ∀ d ∈ core.spine receipt.nodeId, keep d = true) (ct : Component) :
    core'.walk receipt ct = core.walk receipt ct := by
  have spine : core'.spine receipt.nodeId = core.spine receipt.nodeId := by
    rw [spine, nodes]
    exact spine_filter kept
  cases ct with
  | full => exact spine
  | swa => simp only [walk, spine]
  | mamba => simp only [walk, anchorSegment, spine]

section

variable (locks : core.Locks c held)
include locks

/-- The path of a receipt that took Full is locked. -/
lemma Locks.spine_locked (inside : h ∈ held) (whole : .full ∉ h.receipt.skippedLockComponents)
    (on : d ∈ core.spine h.receipt.nodeId) : 0 < (d.data .full).lockRef := by
  apply locks.counts.pos (mem_of_mem_spine on) inside
  rw [(locks.covers h inside).segment .full, mem_toFinset, segmentOf,
    if_pos (show h.takes c .full = true from decide_eq_true whole)]
  exact mem_tags on

lemma Locks.remove (shape : core.Shape c) (mem : d ∈ core.nodes) (unlocked : d.locked = false)
    (whole : ∀ h ∈ held, .full ∉ h.receipt.skippedLockComponents) :
    (core.removeNode d).Locks c held where
  counts e new := locks.counts e (mem_of_mem_filter new)
  covers := by
    intro h inside
    have covers := locks.covers h inside
    have kept : ∀ e ∈ core.spine h.receipt.nodeId, decide (e.id ≠ d.id) = true := by
      refine fun e on => decide_eq_true fun same => ?_
      obtain rfl := shape.eq_of_id (mem_of_mem_spine on) mem same
      exact absurd (Node.locked_eq_false_iff.mp unlocked .full)
        (locks.spine_locked inside (whole h inside) on).ne'
    refine ⟨covers.known.imp_right fun tagged => ?_, fun ct => ?_, covers.window, covers.bound⟩
    · obtain ⟨e, old, named⟩ := mem_map.mp tagged
      refine mem_map.mpr ⟨e, mem_filter.mpr ⟨old, kept e ?_⟩, named⟩
      rw [spine, ← named, shape.rooted.spine_tag old]
      exact mem_cons_self
    · rw [covers.segment ct]
      unfold segmentOf
      rw [walk_filter (core.removeNode d) rfl kept]
  marks :=
    ⟨fun e new e' new' => locks.marks.distinct e (mem_of_mem_filter new) e'
        (mem_of_mem_filter new'),
      fun e new => locks.marks.bound e (mem_of_mem_filter new)⟩

variable (shape : core.Shape c) (whole : ∀ h ∈ held, .full ∉ h.receipt.skippedLockComponents)
include shape whole

lemma Locks.shed (edit : Shed c core core') : core'.Locks c held := by
  cases edit with
  | @aux d ct =>
    exact locks.put fun d => { d.data ct with value := none }
  | @full d =>
    exact locks.put fun d => { d.data .full with value := none }
  | remove mem unlocked => exact locks.remove shape mem unlocked whole
  | leaves => exact locks.congr rfl rfl
  | @putHost d ct v =>
    exact locks.put fun d => { d.data ct with hostValue := some v }
  | @dropHost d ct =>
    exact locks.put fun d => { d.data ct with hostValue := none }

lemma Locks.sheds (edits : Sheds c core core') : core'.Locks c held := by
  induction edits with
  | refl => exact locks
  | tail before edit ih => exact ih.shed (shape.sheds before) whole edit

end

lemma Locks.load (locks : core.Locks c held) (shape : core.Shape c)
    (edit : Load c core core') : core'.Locks c held := by
  cases edit with
  | @full d v =>
    exact locks.put (fun d => { d.data .full with value := some v })
      ((nodes_loadFull ..).trans (nodes_setComponentDeviceValue ..)) (counters_loadFull ..).2
  | leaves => exact locks.congr rfl rfl
  | grow edit =>
    have grown := locks.grow shape edit
    rwa [show held.map (.splitAll []) = held from map_id _] at grown

lemma Locks.loads (locks : core.Locks c held) (shape : core.Shape c)
    (edits : Loads c core core') : core'.Locks c held := by
  induction edits with
  | refl => exact locks
  | tail before edit ih => exact ih.load (shape.loads before) edit

end Core

end Sglang.Tree
