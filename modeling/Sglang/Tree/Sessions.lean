/-
# The unified radix tree: session references

A session marks the frontier of what it has cached: per component a set of nodes, its
leaves, from which the nodes it relies on are counted as referenced. Full counts the whole
path up to the root, SWA the nodes of a window, whose length it records, and Mamba the leaf.
Leaves move forward when a longer path is registered and back when their node is deleted.

* `SessionIndex` — one component's counts and leaves.
* `SessionIndex.registerSessionLeaf`, `.releaseSession`, `.discardDeletedSessionLeaf` — the
  operations of a component.
* `Exact` — every count is the number of leaves whose coverage holds the node.
* `session_refs_exact` — counts are exact in every run, releases undo what registering
  counted, and nothing is left once every session is released.
-/

import Sglang.Tree.Match

namespace Sglang.Tree

open Sglang.Lib List Option Tree.Core

open Function (update update_self update_of_ne)

open Links (expand_cons_ne expand_cons_self mem_of_mem_spine tags)

variable {π α σ : Type} {i old : Nat} {f : Node π α → Node π α}

/-! ### The component's data -/

/-- The session data of one component. The leaves a session indexes and the session names a
node carries are two views of one relation, which only `mark` and `unmark` write. -/
structure SessionIndex (σ : Type) where
  /-- `session_ref`, by node. -/
  sessionRef : Nat → Nat
  sessionLeaves : List (σ × Nat)
  /-- `_session_leaf_covered_len`, which SWA alone keeps. -/
  coveredLen : σ × Nat → Option Nat
  /-- The nodes an SWA walk has counted for a leaf, halves of later splits included. Nothing
  reads this. -/
  raised : σ × Nat → Finset Nat

namespace SessionIndex

/-- `reset_session_state`. -/
def reset : SessionIndex σ := ⟨fun _ => 0, [], fun _ => none, fun _ => ∅⟩

/-- Count one reference more on each of the nodes. -/
def raise (idx : SessionIndex σ) (ids : List Nat) : SessionIndex σ :=
  { idx with sessionRef := fun i => if i ∈ ids then idx.sessionRef i + 1 else idx.sessionRef i }

/-- Count one reference less; every count on the way is asserted to be positive. -/
def lower (idx : SessionIndex σ) (ids : List Nat) : Option (SessionIndex σ) :=
  if ids.all fun i => decide (0 < idx.sessionRef i) then
    some { idx with
      sessionRef := fun i => if i ∈ ids then idx.sessionRef i - 1 else idx.sessionRef i }
  else
    none

variable [DecidableEq σ]

def mark (idx : SessionIndex σ) (p : σ × Nat) : SessionIndex σ :=
  { idx with sessionLeaves := idx.sessionLeaves.insert p }

def unmark (idx : SessionIndex σ) (p : σ × Nat) : Option (SessionIndex σ) :=
  if p ∈ idx.sessionLeaves then some { idx with sessionLeaves := idx.sessionLeaves.erase p }
  else none

end SessionIndex

/-! ### Coverage -/

/-- The nodes a coverage walk visits: up until `span` tokens are covered. -/
def coverSegment (c : Config) (span : Nat) : Nat → List (Node π α) → List (Node π α)
  | _, [] => []
  | covered, d :: up =>
    if covered < span then d :: coverSegment c span (covered + d.len c) up else []

/-- What one validator of `_find_reusable_session_leaf` says of a node; SWA's keeps its
running length on the way up. -/
def reusableValid (c : Config) (ct : Component) (run : Option Nat) (d : Node π α) :
    Bool × Option Nat :=
  if ct = .swa then swaValid c false run d else ((d.data ct).present false, run)

/-- The first node of a path that is valid. -/
def firstReusable (c : Config) (ct : Component) : Option Nat → List (Node π α) → Option Nat
  | _, [] => none
  | run, d :: up =>
    if (reusableValid c ct run d).1 then some d.id
    else firstReusable c ct (reusableValid c ct run d).2 up

def Core.findReusableSessionLeaf (c : Config) (core : Core π α) (ct : Component) (i : Nat) :
    Option Nat :=
  firstReusable c ct none (core.spine i)

namespace SessionIndex

variable [DecidableEq σ]

/-- The nodes from `leaf` up to `stop`, which is left out, or to the root. -/
def upTo (core : Core π α) (leaf : Nat) (stop : Option Nat) : List Nat :=
  links.tags ((core.spine leaf).takeWhile fun d => decide (some d.id ≠ stop))

/-- SWA's `_inc_session_coverage`. -/
def incWindow (c : Config) (core : Core π α) (idx : SessionIndex σ) (p : σ × Nat) :
    Option (SessionIndex σ) :=
  let seg := coverSegment c (c.slidingWindowSize + c.pageSize) 0 (core.spine p.2)
  if idx.coveredLen p = none ∧ 0 < tokens c seg then
    some { idx.raise (links.tags seg) with
      coveredLen := update idx.coveredLen p (some (tokens c seg))
      raised := update idx.raised p (links.tags seg).toFinset }
  else
    none

/-- SWA's `_dec_session_coverage`: the recorded length is walked again. -/
def decWindow (c : Config) (core : Core π α) (idx : SessionIndex σ) (p : σ × Nat) :
    Option (SessionIndex σ) :=
  (idx.coveredLen p).bind fun len =>
    let seg := coverSegment c len 0 (core.spine p.2)
    if tokens c seg = len then
      ({ idx with coveredLen := update idx.coveredLen p none }).lower (links.tags seg)
    else
      none

/-- `_dec_session_coverage`. -/
def decSessionCoverage (c : Config) (core : Core π α) (idx : SessionIndex σ) (p : σ × Nat) :
    Component → Option (SessionIndex σ)
  | .full => idx.lower (links.tags (core.spine p.2))
  | .swa => idx.decWindow c core p
  | .mamba => idx.lower [p.2]

/-- `_advance_session_coverage`. -/
def advanceSessionCoverage (c : Config) (core : Core π α) (idx : SessionIndex σ) (p : σ × Nat)
    (oldAncestor : Option Nat) : Component → Option (SessionIndex σ)
  | .full => some (idx.raise (upTo core p.2 oldAncestor))
  | .swa => (idx.incWindow c core p).bind fun idx =>
    oldAncestor.elim (some idx) fun old => idx.decWindow c core (p.1, old)
  | .mamba => oldAncestor.elim (some (idx.raise [p.2])) fun old => (idx.raise [p.2]).lower [old]

/-- `_recede_session_coverage`. -/
def recedeSessionCoverage (c : Config) (core : Core π α) (idx : SessionIndex σ) (p : σ × Nat)
    (fallback : Option Nat) : Component → Option (SessionIndex σ)
  | .full => idx.lower (upTo core p.2 fallback)
  | .swa => (idx.decWindow c core p).bind fun idx =>
    fallback.elim (some idx) fun back => idx.incWindow c core (p.1, back)
  | .mamba => (idx.lower [p.2]).map fun idx => fallback.elim idx fun back => idx.raise [back]

/-! ### The operations -/

/-- The deepest leaf of the session above a node. -/
def nearestSessionAncestor (core : Core π α) (idx : SessionIndex σ) (p : σ × Nat) : Option Nat :=
  ((core.spine p.2).tail.find? fun d => decide ((p.1, d.id) ∈ idx.sessionLeaves)).map Node.id

/-- `register_session_leaf` where session references are enabled. -/
def registerSessionLeaf (c : Config) (core : Core π α) (ct : Component) (idx : SessionIndex σ)
    (s : σ) (leaf : Option Nat) : Option (SessionIndex σ) :=
  leaf.elim (some idx) fun leaf =>
    if leaf = 0 ∨ (s, leaf) ∈ idx.sessionLeaves then some idx
    else
      let old := idx.nearestSessionAncestor core (s, leaf)
      (idx.advanceSessionCoverage c core (s, leaf) old ct).bind fun idx =>
        old.elim (some (idx.mark (s, leaf))) fun old => (idx.mark (s, leaf)).unmark (s, old)

/-- Release one leaf of a session. -/
def releaseLeaf (c : Config) (core : Core π α) (ct : Component) (idx : SessionIndex σ)
    (p : σ × Nat) : Option (SessionIndex σ) :=
  (idx.decSessionCoverage c core p ct).bind fun idx => idx.unmark p

/-- `release_session`. -/
def releaseSession (c : Config) (core : Core π α) (ct : Component) (idx : SessionIndex σ)
    (s : σ) : Option (SessionIndex σ) :=
  (idx.sessionLeaves.filter fun p => decide (p.1 = s)).foldlM (releaseLeaf c core ct) idx

/-- Move a leaf whose node goes away to the first reusable node above, unless that one is a
leaf of the session already. -/
def discardLeaf (c : Config) (core : Core π α) (ct : Component) (above : Nat)
    (idx : SessionIndex σ) (p : σ × Nat) : Option (SessionIndex σ) :=
  let fallback := (core.findReusableSessionLeaf c ct above).filter fun back =>
    decide ((p.1, back) ∉ idx.sessionLeaves)
  (idx.recedeSessionCoverage c core p fallback ct).bind fun idx =>
    (idx.unmark p).map fun idx => fallback.elim idx fun back => idx.mark (p.1, back)

/-- `discard_deleted_session_leaf`. -/
def discardDeletedSessionLeaf (c : Config) (core : Core π α) (ct : Component)
    (idx : SessionIndex σ) (d : Node π α) : Option (SessionIndex σ) :=
  (idx.sessionLeaves.filter fun p => decide (p.2 = d.id)).foldlM
    (discardLeaf c core ct d.parent) idx

/-- A split's part: the new parent takes over the count, except Mamba's. -/
def redistribute (ct : Component) (idx : SessionIndex σ) (split : Nat × Nat) : SessionIndex σ :=
  { idx with
    sessionRef := update idx.sessionRef split.2
      (if ct = .mamba then 0 else idx.sessionRef split.1)
    raised := fun p =>
      if split.1 ∈ idx.raised p then insert split.2 (idx.raised p) else idx.raised p }

end SessionIndex

/-! ### Counting -/

/-- Every count is the number of leaves whose coverage holds the node. -/
def Counts {P : Type} (ref : Nat → Nat) (leaves : List P) (ids : P → List Nat) : Prop :=
  ∀ i, ref i = leaves.countP fun p => decide (i ∈ ids p)

section

variable {P : Type} {ref ref' : Nat → Nat} {leaves : List P} {ids ids' : P → List Nat} {p : P}

variable (counts : Counts ref leaves ids)
include counts

lemma Counts.pos (inside : p ∈ leaves) (covered : i ∈ ids p) : 0 < ref i := by
  rw [counts i]
  exact countP_pos_iff.mpr ⟨p, inside, by simpa using covered⟩

lemma Counts.congr (same : ∀ p ∈ leaves, ids' p = ids p) : Counts ref leaves ids' := by
  intro i
  rw [counts i]
  exact countP_congr fun p inside => by rw [same p inside]

lemma Counts.cons
    (more : ∀ i, ref' i = ref i + if i ∈ ids p then 1 else 0) : Counts ref' (p :: leaves) ids := by
  intro i
  rw [more i, counts i, countP_cons]
  simp

lemma Counts.erase [BEq P] [LawfulBEq P] (inside : p ∈ leaves)
    (less : ∀ i, ref i = ref' i + if i ∈ ids p then 1 else 0) :
    Counts ref' (leaves.erase p) ids := by
  intro i
  have split := (perm_cons_erase inside).countP_eq fun p => decide (i ∈ ids p)
  rw [countP_cons, ← counts i, less i] at split
  simpa using split

/-- A new name is covered where `old` is, or nowhere. -/
lemma Counts.extend {new : Nat} (moves : Prop) [Decidable moves] (fresh : ∀ p ∈ leaves, new ∉ ids p)
    (covered : ∀ p ∈ leaves, ∀ i, i ∈ ids' p ↔ i ∈ ids p ∨ (moves ∧ i = new ∧ old ∈ ids p)) :
    Counts (update ref new (if moves then ref old else 0)) leaves ids' := by
  intro i
  by_cases here : i = new
  · subst here
    rw [update_self]
    split
    · rename_i moved
      rw [counts old]
      refine countP_congr fun p inside => ?_
      simp [covered p inside, fresh p inside, moved]
    · rename_i stays
      refine (countP_eq_zero.mpr fun p inside => ?_).symm
      simp [covered p inside, fresh p inside, stays]
  · rw [update_of_ne here, counts i]
    apply countP_congr
    intro p inside
    simp [covered p inside, here]

end

/-! ### Coverage walks -/

section

variable {c : Config} {span covered n new : Nat} {path : List (Node π α)} {child : Node π α}

/-- Walking a recorded length again visits the nodes it was recorded for. -/
lemma coverSegment_again (span covered : Nat) (filled : ∀ d ∈ path, 0 < d.len c) :
    coverSegment c (covered + tokens c (coverSegment c span covered path)) covered path =
      coverSegment c span covered path := by
  induction path generalizing covered with
  | nil => rfl
  | cons d up ih =>
    have pos := filled d mem_cons_self
    simp only [coverSegment]
    by_cases more : covered < span
    · simp only [if_pos more, tokens_cons]
      rw [if_pos (by omega), ← add_assoc, ih _ fun e mem => filled e (mem_cons_of_mem _ mem)]
    · simp [if_neg more]

lemma coverSegment_map (len : ∀ d, (f d).len c = d.len c) :
    coverSegment c span covered (path.map f) = (coverSegment c span covered path).map f := by
  induction path generalizing covered with
  | nil => rfl
  | cons d up ih =>
    simp only [map_cons, coverSegment, len]
    split
    · rw [ih, map_cons]
    · rfl

lemma coverSegment_isPrefix : coverSegment c span covered path <+: path := by
  induction path generalizing covered with
  | nil => exact prefix_rfl
  | cons d up ih =>
    simp only [coverSegment]
    split
    · exact (cons_prefix_cons).mpr ⟨rfl, ih⟩
    · exact nil_prefix

lemma tokens_expand (inside : n ≤ child.key.length)
    (alone : ∀ d ∈ path, d.id = child.id → d = child) :
    tokens c (links.expand child.id (Node.lower c n new) (Node.upper c n new) path) =
      tokens c path := by
  induction path with
  | nil => rfl
  | cons d up ih =>
    have rest := ih fun e mem => alone e (mem_cons_of_mem _ mem)
    by_cases here : d.id = child.id
    · obtain rfl := alone d mem_cons_self here
      have named : links.tag d = d.id := rfl
      have halves : (d.lower c n new).len c + (d.upper c n new).len c = d.len c := by
        rw [Node.len_lower, Node.len_upper c new d inside]
        exact Nat.sub_add_cancel (Nat.mul_le_mul_right _ inside)
      rw [expand_cons_self named, tokens_cons, tokens_cons, rest, tokens_cons,
        ← add_assoc, halves]
    · rw [expand_cons_ne here, tokens_cons, tokens_cons, rest]

/-- Splitting a node does not move the end of a recorded length, so the halves of covered
nodes are covered and no others. -/
lemma coverSegment_expand (pos : 0 < n)
    (inside : n < child.key.length) (alone : ∀ d ∈ path, d.id = child.id → d = child)
    (filled : covered + tokens c (coverSegment c span covered path) = span) :
    coverSegment c span covered
        (links.expand child.id (Node.lower c n new) (Node.upper c n new) path) =
      links.expand child.id (Node.lower c n new) (Node.upper c n new)
        (coverSegment c span covered path) := by
  induction path generalizing covered with
  | nil => rfl
  | cons d up ih =>
    have rest : ∀ e ∈ up, e.id = child.id → e = child := fun e mem =>
      alone e (mem_cons_of_mem _ mem)
    simp only [coverSegment] at filled ⊢
    by_cases more : covered < span
    · rw [if_pos more, tokens_cons, ← add_assoc] at filled
      rw [if_pos more]
      by_cases here : d.id = child.id
      · obtain rfl := alone d mem_cons_self here
        have upper : (d.upper c n new).len c = n * c.pageSize := Node.len_upper c new d inside.le
        have lower : (d.lower c n new).len c + n * c.pageSize = d.len c := by
          rw [Node.len_lower]
          exact Nat.sub_add_cancel (Nat.mul_le_mul_right _ inside.le)
        have positive := Nat.mul_pos pos c.pageSize_pos
        have named : links.tag d = d.id := rfl
        rw [expand_cons_self named, expand_cons_self named, coverSegment, if_pos more,
          coverSegment, if_pos (by omega), upper, add_assoc, lower, ih rest filled]
      · rw [expand_cons_ne here, expand_cons_ne here, coverSegment, if_pos more,
          ih rest filled]
    · rw [if_neg more]
      by_cases here : d.id = child.id
      · rw [expand_cons_self here, coverSegment, if_neg more]
        rfl
      · rw [expand_cons_ne here, coverSegment, if_neg more]
        rfl

end

/-! ### Exact counts -/

namespace SessionIndex

/-- The nodes counted for a leaf. -/
def cover (c : Config) (core : Core π α) (idx : SessionIndex σ) (ct : Component) (p : σ × Nat) :
    List (Node π α) :=
  match ct with
  | .full => core.spine p.2
  | .swa => coverSegment c ((idx.coveredLen p).getD 0) 0 (core.spine p.2)
  | .mamba => (core.spine p.2).take 1

/-- What SWA keeps of a leaf: a length that is the length of whole nodes, and the nodes
it counted. -/
structure Recorded (c : Config) (core : Core π α) (idx : SessionIndex σ) (p : σ × Nat)
    (len : Nat) : Prop where
  length : idx.coveredLen p = some len
  whole : tokens c (coverSegment c len 0 (core.spine p.2)) = len
  raised : idx.raised p = (links.tags (coverSegment c len 0 (core.spine p.2))).toFinset

/-- The index of a component fits the tree. -/
structure Exact (c : Config) (core : Core π α) (ct : Component) (idx : SessionIndex σ) : Prop where
  known : ∀ p ∈ idx.sessionLeaves, p.2 ∈ links.tags core.nodes
  nodup : idx.sessionLeaves.Nodup
  counts : Counts idx.sessionRef idx.sessionLeaves fun p => links.tags (idx.cover c core ct p)
  recorded : ct = .swa → ∀ p ∈ idx.sessionLeaves, ∃ len, idx.Recorded c core p len
  unrecorded : ∀ p, ct ≠ .swa ∨ p ∉ idx.sessionLeaves → idx.coveredLen p = none

variable {c : Config} {core core' : Core π α} {ct : Component} {idx idx' : SessionIndex σ}
  {p q : σ × Nat} {d child : Node π α} {leaf n : Nat}

lemma exact_reset : (reset : SessionIndex σ).Exact c core ct where
  known := by simp [reset]
  nodup := nodup_nil
  counts := fun _ => rfl
  recorded := by simp [reset]
  unrecorded _ _ := rfl

lemma raise_sessionRef (idx : SessionIndex σ) (ids : List Nat) (i : Nat) :
    (idx.raise ids).sessionRef i = idx.sessionRef i + if i ∈ ids then 1 else 0 := by
  unfold raise
  split <;> rename_i covered <;> simp [covered]

/-- What a successful `lower` leaves. -/
lemma lower_eq_some (idx : SessionIndex σ) (ids : List Nat) (pos : ∀ i ∈ ids, 0 < idx.sessionRef i) :
    ∃ idx', idx.lower ids = some idx' ∧ idx'.sessionLeaves = idx.sessionLeaves ∧
      idx'.coveredLen = idx.coveredLen ∧ idx'.raised = idx.raised ∧
      ∀ i, idx.sessionRef i = idx'.sessionRef i + if i ∈ ids then 1 else 0 := by
  refine ⟨_, if_pos (by simpa using pos), rfl, rfl, rfl, fun i => ?_⟩
  by_cases covered : i ∈ ids
  · simp only [if_pos covered]
    have := pos i covered
    omega
  · simp [covered]

lemma cover_isPrefix : idx.cover c core ct p <+: core.spine p.2 := by
  cases ct with
  | full => exact prefix_rfl
  | swa => exact coverSegment_isPrefix
  | mamba => exact take_prefix _ _

/-- Coverage depends on the tree through the path and on the index through the record. -/
lemma cover_congr (path : core'.spine p.2 = core.spine p.2)
    (len : idx'.coveredLen p = idx.coveredLen p) :
    idx'.cover c core' ct p = idx.cover c core ct p := by
  cases ct with
  | full => exact path
  | swa => simp only [cover, path, len]
  | mamba => simp only [cover, path]

/-! ### What edits of the tree keep -/

/-- The tree changed, but not the paths of the leaves. -/
lemma Exact.paths (tracked : idx.Exact c core ct)
    (known : ∀ p ∈ idx.sessionLeaves, p.2 ∈ links.tags core'.nodes)
    (path : ∀ p ∈ idx.sessionLeaves, core'.spine p.2 = core.spine p.2) : idx.Exact c core' ct where
  known := known
  nodup := tracked.nodup
  counts := tracked.counts.congr fun p inside => by rw [cover_congr (path p inside) rfl]
  recorded swa p inside := by
    obtain ⟨len, same, whole, raised⟩ := tracked.recorded swa p inside
    exact ⟨len, same, by rw [path p inside, whole], by rw [path p inside, raised]⟩
  unrecorded := tracked.unrecorded

/-- The data of nodes changed, but not their names, parents and keys. -/
lemma Exact.map (tracked : idx.Exact c core ct) (nodes : core'.nodes = core.nodes.map f)
    (id : ∀ d, (f d).id = d.id) (parent : ∀ d, (f d).parent = d.parent)
    (key : ∀ d, (f d).key = d.key) : idx.Exact c core' ct := by
  have len : ∀ d, (f d).len c = d.len c := fun d => by simp only [Node.len, key]
  have tags : ∀ ds, links.tags (ds.map f) = links.tags ds :=
    fun ds => Links.tags_map id
  have spine := spine_map nodes id parent
  have toks : ∀ ds, tokens c (ds.map f) = tokens c ds := fun ds => by
    simp [tokens, Function.comp_def, len]
  refine ⟨fun p inside => ?_, tracked.nodup, ?_, ?_, tracked.unrecorded⟩
  · rw [nodes, tags]
    exact tracked.known p inside
  · apply tracked.counts.congr
    intro p _
    rw [← tags (idx.cover c core ct p)]
    congr 1
    cases ct with
    | full => exact spine p.2
    | swa => simp only [cover, spine, coverSegment_map len]
    | mamba => simp [cover, spine]
  · intro swa p inside
    obtain ⟨len', same, whole, raised⟩ := tracked.recorded swa p inside
    refine ⟨len', same, ?_, ?_⟩
    · rw [spine, coverSegment_map len, toks, whole]
    · rw [spine, coverSegment_map len, tags, raised]

/-- The path of a known node begins with it. -/
lemma spine_known (shape : core.Shape c) (known : i ∈ links.tags core.nodes) :
    ∃ d ∈ core.nodes, d.id = i ∧ core.spine i = d :: core.spine d.parent := by
  obtain ⟨d, mem, rfl⟩ := mem_map.mp known
  exact ⟨d, mem, rfl, shape.spine_id mem⟩

section

variable (tracked : idx.Exact c core ct) (shape : core.Shape c) {log : List (Nat × Nat)}
include tracked shape

/-- The coverage of a leaf after a split: the halves of covered nodes, where Mamba stays on
the lower one. -/
lemma mem_tags_cover_split (mem : child ∈ core.nodes) (pos : 0 < n)
    (inside : n < child.key.length) (leaf : p ∈ idx.sessionLeaves) (i : Nat) :
    i ∈ links.tags (idx.cover c (core.splitNode c child n).1 ct p) ↔
      i ∈ links.tags (idx.cover c core ct p) ∨
        (ct ≠ .mamba ∧ i = core.nextId ∧ child.id ∈ links.tags (idx.cover c core ct p)) := by
  have spine := shape.spine_splitNode child n (.inr (tracked.known p leaf))
  have expanded : ∀ ds : List (Node π α),
      i ∈ links.tags (links.expand child.id (.lower c n core.nextId)
        (.upper c n core.nextId) ds) ↔
      i ∈ links.tags ds ∨ (child.id ∈ links.tags ds ∧ i = core.nextId) :=
    fun ds => Links.mem_tags_expand (between c n child.id core.nextId)
  cases ct with
  | full => rw [cover, cover, spine, expanded]; simp [and_comm]
  | swa =>
    obtain ⟨len, same, whole, -⟩ := tracked.recorded rfl p leaf
    have alone : ∀ d ∈ core.spine p.2, d.id = child.id → d = child := fun d on =>
      shape.eq_of_id (mem_of_mem_spine on) mem
    rw [cover, cover, spine, same, getD_some, coverSegment_expand pos inside alone
      (by rw [zero_add, whole]), expanded]
    simp [and_comm]
  | mamba =>
    obtain ⟨e, -, -, path⟩ := spine_known shape (tracked.known p leaf)
    rw [cover, cover, spine, path]
    by_cases here : e.id = child.id
    · rw [expand_cons_self here]
      simp [tags, links]
    · rw [expand_cons_ne here]
      simp

lemma Exact.split (mem : child ∈ core.nodes) (pos : 0 < n) (inside : n < child.key.length) :
    (idx.redistribute ct (child.id, core.nextId)).Exact c (core.splitNode c child n).1 ct := by
  have fresh : ∀ p, core.nextId ∉ links.tags (idx.cover c core ct p) := by
    intro p covered
    obtain ⟨d, on, named⟩ := mem_map.mp covered
    exact shape.fresh_next (mem_map.mpr ⟨d, mem_of_mem_spine (cover_isPrefix.subset on), named⟩)
  refine ⟨fun p leaf => ?_, tracked.nodup, ?_, ?_, tracked.unrecorded⟩
  · exact (Links.mem_tags_expand (between c n child.id core.nextId)).mpr
      (.inl (tracked.known p leaf))
  · have extended := tracked.counts.extend (ct ≠ .mamba) (fun p _ => fresh p)
      fun p => mem_tags_cover_split tracked shape mem pos inside
    rw [ite_not] at extended
    exact extended
  · rintro rfl p leaf
    obtain ⟨len, same, whole, raised⟩ := tracked.recorded rfl p leaf
    have spine := shape.spine_splitNode child n (.inr (tracked.known p leaf))
    have alone : ∀ d ∈ core.spine p.2, d.id = child.id → d = child := fun d on =>
      shape.eq_of_id (mem_of_mem_spine on) mem
    have cover : coverSegment c len 0 ((core.splitNode c child n).1.spine p.2) = _ :=
      spine ▸ coverSegment_expand pos inside alone (by rw [zero_add, whole])
    refine ⟨len, same, ?_, ?_⟩
    · rw [cover, tokens_expand inside.le fun d on => alone d (coverSegment_isPrefix.subset on), whole]
    · rw [cover, tags_expand_toFinset]
      simp [redistribute, raised]

lemma Exact.cons (nodes : core'.nodes = d :: core.nodes) (named : d.id = core.nextId) :
    idx.Exact c core' ct := by
  refine tracked.paths (fun p leaf => ?_) fun p leaf => ?_
  · rw [nodes]
    exact mem_cons_of_mem _ (tracked.known p leaf)
  · rw [spine, nodes]
    apply Links.spine_cons_of_ne
    intro same
    exact shape.fresh_next (named ▸ (show d.id = p.2 from same) ▸ tracked.known p leaf)

/-- Deleting a childless node that is no leaf of a session. -/
lemma Exact.removeNode (childless : core.children d.id = [])
    (unmarked : ∀ p ∈ idx.sessionLeaves, p.2 ≠ d.id) : idx.Exact c (core.removeNode d) ct := by
  have kept : ∀ p ∈ idx.sessionLeaves, ∀ e ∈ core.spine p.2, decide (e.id ≠ d.id) = true := by
    intro p leaf e on
    apply decide_eq_true
    intro same
    obtain ⟨child, mem, below⟩ := shape.exists_child on (same ▸ (unmarked p leaf).symm)
    exact children_eq_nil.mp childless child mem (below.trans same)
  refine tracked.paths (fun p leaf => ?_) fun p leaf => Links.spine_filter (kept p leaf)
  obtain ⟨e, old, named⟩ := mem_map.mp (tracked.known p leaf)
  have away : e.id ≠ d.id := fun same => unmarked p leaf (named.symm.trans same)
  exact mem_map.mpr ⟨e, mem_filter.mpr ⟨old, decide_eq_true away⟩, named⟩

lemma Exact.grow [DecidableEq σ] (edit : Grow c core log core') :
    (log.foldl (redistribute ct) idx).Exact c core' ct := by
  have put : ∀ {i : Nat} {ct' : Component} (cd : Node π α → ComponentData α) {core' : Core π α},
      core'.nodes = (core.modify [i] fun d => d.put ct' (cd d)).nodes → idx.Exact c core' ct := by
    intro i ct' cd core' nodes
    refine tracked.map nodes (fun d => ?_) (fun d => ?_) fun d => ?_ <;> split <;> rfl
  cases edit with
  | split mem pos inside => exact tracked.split shape mem pos inside
  | leaf => exact tracked.cons shape rfl rfl
  | @unevict d v =>
    exact put (fun d => { d.data .full with value := some v })
      (nodes_unevictNodeOnInsert core d v)
  | @store d ct' v =>
    exact put (fun d => { d.data ct' with value := some v })
      (nodes_setComponentDeviceValue core d.id ct' v)
  | @adopt d v => exact put (fun d => { d.data .full with value := some v }) rfl
  | note bare =>
    refine tracked.map rfl (fun d => ?_) (fun d => ?_) fun d => ?_ <;> split <;>
      simp [bare]

lemma Exact.grows [DecidableEq σ] (edits : Grows c core log core') :
    (log.foldl (redistribute ct) idx).Exact c core' ct := by
  induction edits with
  | refl => exact tracked
  | tail before edit ih =>
    rw [foldl_append]
    exact ih.grow (shape.grows before) edit

end

/-! ### One leaf more, one leaf less -/

/-- The index with other leaves. The walks neither read nor write them. -/
def withLeaves (idx : SessionIndex σ) (leaves : List (σ × Nat)) : SessionIndex σ :=
  { idx with sessionLeaves := leaves }

lemma lower_withLeaves (idx : SessionIndex σ) (leaves : List (σ × Nat)) (ids : List Nat) :
    (idx.withLeaves leaves).lower ids = (idx.lower ids).map (withLeaves · leaves) := by
  have same : (idx.withLeaves leaves).sessionRef = idx.sessionRef := rfl
  simp only [lower, same]
  split <;> rfl

lemma upTo_none (leaf : Nat) : upTo core leaf none = links.tags (core.spine leaf) := by
  have all : (core.spine leaf).takeWhile (fun d => decide (some d.id ≠ none)) = core.spine leaf :=
    takeWhile_eq_self_iff.mpr fun d _ => by simp
  rw [upTo, all]

lemma tags_take_one (shape : core.Shape c) (known : i ∈ links.tags core.nodes) :
    links.tags ((core.spine i).take 1) = [i] := by
  obtain ⟨d, -, named, path⟩ := spine_known shape known
  simp [path, tags, links, named]

/-- The nodes below a stop on the path, and those from it up. -/
lemma upTo_append (shape : core.Shape c) (on : d ∈ core.spine leaf) :
    upTo core leaf (some d.id) ++ links.tags (core.spine d.id) = links.tags (core.spine leaf) := by
  obtain ⟨below, path⟩ := shape.rooted.spine_suffix on
  have top : links.spine core.nodes (links.tag d) = d :: core.spine d.parent :=
    shape.spine_id (mem_of_mem_spine on)
  have apart := shape.rooted.nodup_spine leaf
  rw [← path, top, tags, map_append] at apart
  have others : ∀ e ∈ below, decide (some e.id ≠ some d.id) = true := fun e inside => by
    have away := disjoint_of_nodup_append apart (mem_map_of_mem inside)
    refine decide_eq_true fun same => away (mem_cons.mpr (.inl ?_))
    exact some.inj same
  have stops : (core.spine leaf).takeWhile (fun e => decide (some e.id ≠ some d.id)) = below := by
    rw [spine, ← path, top, takeWhile_append_of_pos others, takeWhile_cons_of_neg, append_nil]
    simp
  rw [upTo, stops, show core.spine leaf = _ from path.symm, tags, tags, tags,
    map_append]
  rfl

/-- Counting one more on a path and one less from a stop up is counting one more below it. -/
lemma lower_raise (ids ids' : List Nat) (apart : ids.Disjoint ids') :
    (idx.raise (ids ++ ids')).lower ids' = some (idx.raise ids) := by
  have pos : ∀ i ∈ ids', 0 < (idx.raise (ids ++ ids')).sessionRef i := fun i inside => by
    simp [raise, inside]
  rw [lower, if_pos (by simpa using pos)]
  simp only [raise, some.injEq, SessionIndex.mk.injEq, and_true]
  funext i
  by_cases low : i ∈ ids
  · simpa [low] using apart low
  · by_cases high : i ∈ ids' <;> simp [low, high]

/-- Counting one less on a path and one more from a stop up is counting one less below it. -/
lemma raise_lower (ids ids' : List Nat) (apart : ids.Disjoint ids')
    (pos : ∀ i ∈ ids ++ ids', 0 < idx.sessionRef i) :
    (idx.lower (ids ++ ids')).map (raise · ids') = idx.lower ids := by
  have low : ∀ i ∈ ids, 0 < idx.sessionRef i := fun i inside => pos i (mem_append_left _ inside)
  have whole : (ids ++ ids').all fun i => decide (0 < idx.sessionRef i) :=
    all_eq_true.mpr fun i inside => decide_eq_true (pos i inside)
  rw [lower, if_pos whole, lower, if_pos (by simpa using low)]
  simp only [raise, map_some, some.injEq, SessionIndex.mk.injEq, and_true]
  funext i
  by_cases below : i ∈ ids
  · simpa [below] using apart below
  · by_cases above : i ∈ ids'
    · have := pos i (mem_append_right _ above)
      simp [below, above]
      omega
    · simp [above]

lemma upTo_disjoint (shape : core.Shape c) (on : d ∈ core.spine leaf) :
    (upTo core leaf (some d.id)).Disjoint (links.tags (core.spine d.id)) := by
  apply disjoint_of_nodup_append
  rw [upTo_append shape on]
  exact shape.rooted.nodup_spine leaf

variable [DecidableEq σ]

lemma mark_eq (fresh : p ∉ idx.sessionLeaves) :
    idx.mark p = idx.withLeaves (p :: idx.sessionLeaves) := by
  simp [mark, withLeaves, fresh]

lemma unmark_eq (leaf : p ∈ idx.sessionLeaves) :
    idx.unmark p = some (idx.withLeaves (idx.sessionLeaves.erase p)) := if_pos leaf

lemma dec_withLeaves (leaves : List (σ × Nat)) :
    (idx.withLeaves leaves).decSessionCoverage c core p ct =
      (idx.decSessionCoverage c core p ct).map (withLeaves · leaves) := by
  cases ct with
  | full | mamba => exact lower_withLeaves ..
  | swa =>
    have same : (idx.withLeaves leaves).coveredLen = idx.coveredLen := rfl
    simp only [decSessionCoverage, decWindow, same]
    cases idx.coveredLen p with
    | none => rfl
    | some len =>
      simp only [bind_some]
      split
      · exact lower_withLeaves { idx with coveredLen := _ } ..
      · rfl

lemma advance_withLeaves (leaves : List (σ × Nat)) :
    (idx.withLeaves leaves).advanceSessionCoverage c core p none ct =
      (idx.advanceSessionCoverage c core p none ct).map (withLeaves · leaves) := by
  cases ct with
  | full => rfl
  | mamba => rfl
  | swa =>
    have same : (idx.withLeaves leaves).coveredLen = idx.coveredLen := rfl
    simp only [advanceSessionCoverage, incWindow, same]
    split <;> rfl

omit [DecidableEq σ] in
/-- A walk that commutes with replacing the leaves leaves them alone. -/
lemma sessionLeaves_walk {walked : Option (SessionIndex σ)}
    (blind : walked = walked.map (withLeaves · idx.sessionLeaves)) (ran : walked = some idx') :
    idx'.sessionLeaves = idx.sessionLeaves := by
  rw [ran] at blind
  rw [some.inj blind]
  rfl

section

variable (tracked : idx.Exact c core ct)
include tracked

lemma Exact.enter_of (fresh : p ∉ idx.sessionLeaves)
    (known : p.2 ∈ links.tags core.nodes) (leaves : idx'.sessionLeaves = idx.sessionLeaves)
    (others : ∀ q, q ≠ p → idx'.coveredLen q = idx.coveredLen q ∧ idx'.raised q = idx.raised q)
    (more : ∀ i, idx'.sessionRef i =
      idx.sessionRef i + if i ∈ links.tags (idx'.cover c core ct p) then 1 else 0)
    (recorded : ct = .swa → ∃ len, idx'.Recorded c core p len)
    (unrecorded : ct ≠ .swa → idx'.coveredLen p = none) : (idx'.mark p).Exact c core ct := by
  have away : ∀ q ∈ idx.sessionLeaves, q ≠ p := fun q leaf same => fresh (same ▸ leaf)
  rw [mark_eq (leaves ▸ fresh), leaves]
  refine ⟨?_, nodup_cons.mpr ⟨fresh, tracked.nodup⟩, ?_, ?_, ?_⟩
  · exact forall_mem_cons.mpr ⟨known, tracked.known⟩
  · refine .cons (tracked.counts.congr fun q leaf => ?_) more
    exact congrArg links.tags (cover_congr rfl (others q (away q leaf)).1)
  · intro swa
    obtain ⟨len, new⟩ := recorded swa
    refine forall_mem_cons.mpr ⟨⟨len, new.length, new.whole, new.raised⟩, fun q leaf => ?_⟩
    obtain ⟨len, same, whole, raised⟩ := tracked.recorded swa q leaf
    obtain ⟨len', raised'⟩ := others q (away q leaf)
    exact ⟨len, len'.trans same, whole, raised'.trans raised⟩
  · intro q outside
    by_cases here : q = p
    · subst here
      exact unrecorded (outside.resolve_right fun absent => absent mem_cons_self)
    · refine (others q here).1.trans (tracked.unrecorded q (outside.imp_right fun absent leaf => ?_))
      exact absent (mem_cons_of_mem _ leaf)

lemma Exact.leave_of (leaf : p ∈ idx.sessionLeaves)
    (others : ∀ q, q ≠ p → idx'.coveredLen q = idx.coveredLen q ∧ idx'.raised q = idx.raised q)
    (less : ∀ i, idx.sessionRef i =
      idx'.sessionRef i + if i ∈ links.tags (idx.cover c core ct p) then 1 else 0)
    (gone : idx'.coveredLen p = none) :
    (idx'.withLeaves (idx.sessionLeaves.erase p)).Exact c core ct := by
  have away : ∀ q ∈ idx.sessionLeaves.erase p, q ≠ p ∧ q ∈ idx.sessionLeaves := fun q left =>
    tracked.nodup.mem_erase_iff.mp left
  refine ⟨fun q left => tracked.known q (away q left).2, tracked.nodup.erase p, ?_, ?_, ?_⟩
  · apply Counts.congr (show Counts idx'.sessionRef (idx.sessionLeaves.erase p) _ from
      tracked.counts.erase leaf less)
    intro q left
    exact congrArg links.tags (cover_congr rfl (others q (away q left).1).1)
  · intro swa q left
    obtain ⟨other, leaf⟩ := away q left
    obtain ⟨len, same, whole, raised⟩ := tracked.recorded swa q leaf
    obtain ⟨len', raised'⟩ := others q other
    exact ⟨len, len'.trans same, whole, raised'.trans raised⟩
  · intro q outside
    by_cases here : q = p
    · exact here ▸ gone
    · refine (others q here).1.trans (tracked.unrecorded q (outside.imp_right fun absent leaf => ?_))
      exact absent (tracked.nodup.mem_erase_iff.mpr ⟨here, leaf⟩)

/-- Counting a new leaf succeeds and keeps the index exact. -/
lemma Exact.enter (shape : core.Shape c)
    (fresh : p ∉ idx.sessionLeaves) (known : p.2 ∈ links.tags core.nodes) :
    ∃ idx', idx.advanceSessionCoverage c core p none ct = some idx' ∧
      idx'.sessionLeaves = idx.sessionLeaves ∧ (idx'.mark p).Exact c core ct := by
  cases ct with
  | full | mamba =>
    refine ⟨_, rfl, rfl, tracked.enter_of fresh known rfl (fun _ _ => ⟨rfl, rfl⟩) (fun i => ?_)
      nofun fun aux => tracked.unrecorded p (.inl aux)⟩
    simp only [raise_sessionRef, upTo_none, cover, tags_take_one shape known] <;> rfl
  | swa =>
    obtain ⟨d, mem, -, path⟩ := spine_known shape known
    have filled : ∀ e ∈ core.spine p.2, 0 < e.len c := fun e on =>
      shape.len_pos (mem_of_mem_spine on)
    have pos : 0 < tokens c (coverSegment c (c.slidingWindowSize + c.pageSize) 0 (core.spine p.2)) := by
      rw [path, coverSegment, if_pos (Nat.add_pos_left c.window_pos _)]
      exact Nat.add_pos_left (shape.len_pos mem) _
    have again := coverSegment_again (c.slidingWindowSize + c.pageSize) 0 filled
    rw [zero_add] at again
    refine ⟨_, congrArg (bind · some) (if_pos ⟨tracked.unrecorded p (.inr fresh), pos⟩), rfl, ?_⟩
    refine tracked.enter_of fresh known rfl (fun q other => ?_) (fun i => ?_)
      (fun _ => ⟨tokens c (coverSegment c (c.slidingWindowSize + c.pageSize) 0 (core.spine p.2)),
        ?_, ?_, ?_⟩) (absurd rfl)
    · exact ⟨update_of_ne other .., update_of_ne other ..⟩
    · apply (raise_sessionRef idx _ i).trans
      simp [cover, again]
    · exact update_self ..
    · rw [again]
    · rw [again]
      exact update_self ..

/-- Taking a leaf back succeeds and keeps the index exact. -/
lemma Exact.leave (shape : core.Shape c) (leaf : p ∈ idx.sessionLeaves) :
    ∃ idx', idx.decSessionCoverage c core p ct = some idx' ∧
      idx'.sessionLeaves = idx.sessionLeaves ∧
      (∀ i, idx.sessionRef i =
        idx'.sessionRef i + if i ∈ links.tags (idx.cover c core ct p) then 1 else 0) ∧
      (idx'.withLeaves (idx.sessionLeaves.erase p)).Exact c core ct := by
  have pos : ∀ i ∈ links.tags (idx.cover c core ct p), 0 < idx.sessionRef i :=
    fun i => tracked.counts.pos leaf
  cases ct with
  | full | mamba =>
    obtain ⟨idx', lowered, leaves, len, raised, less⟩ := lower_eq_some _ _ pos
    simp only [cover, tags_take_one shape (tracked.known p leaf)] at lowered
    refine ⟨idx', lowered, leaves, less, tracked.leave_of leaf (fun q _ => ?_) less ?_⟩
    · rw [len, raised]
      exact ⟨rfl, rfl⟩
    · rw [len]
      exact tracked.unrecorded p (.inl nofun)
  | swa =>
    obtain ⟨len, same, whole, -⟩ := tracked.recorded rfl p leaf
    have segment : coverSegment c len 0 (core.spine p.2) = idx.cover c core .swa p := by
      rw [cover, same, getD_some]
    obtain ⟨idx', lowered, leaves, len', raised, less⟩ := lower_eq_some
      { idx with coveredLen := update idx.coveredLen p none } _ pos
    refine ⟨idx', ?_, leaves, less, tracked.leave_of leaf (fun q other => ?_) less ?_⟩
    · rw [segment] at whole
      simp only [decSessionCoverage, decWindow, same, bind_some, segment, if_pos whole]
      exact lowered
    · rw [len', raised]
      exact ⟨update_of_ne other .., rfl⟩
    · rw [len']
      exact update_self ..

end

/-! ### Moving a leaf -/

/-- Moving forward is counting the new leaf and taking the old one back. -/
lemma advance_some (shape : core.Shape c) (on : d ∈ core.spine p.2) :
    idx.advanceSessionCoverage c core p (some d.id) ct =
      (idx.advanceSessionCoverage c core p none ct).bind fun idx =>
        idx.decSessionCoverage c core (p.1, d.id) ct := by
  cases ct with
  | swa => simp [advanceSessionCoverage, decSessionCoverage]
  | mamba => rfl
  | full =>
    simp only [advanceSessionCoverage, decSessionCoverage, bind_some, upTo_none]
    rw [← upTo_append shape on, lower_raise _ _ (upTo_disjoint shape on)]

/-- Moving back is taking the leaf back and counting the other one. -/
lemma recede_some (tracked : idx.Exact c core ct) (shape : core.Shape c)
    (leaf : p ∈ idx.sessionLeaves) (on : d ∈ core.spine p.2) :
    idx.recedeSessionCoverage c core p (some d.id) ct =
      (idx.decSessionCoverage c core p ct).bind fun idx =>
        idx.advanceSessionCoverage c core (p.1, d.id) none ct := by
  cases ct with
  | swa => simp [advanceSessionCoverage, decSessionCoverage, recedeSessionCoverage]
  | mamba =>
    simp [advanceSessionCoverage, decSessionCoverage, recedeSessionCoverage, map_eq_bind]
  | full =>
    simp only [advanceSessionCoverage, recedeSessionCoverage, upTo_none]
    rw [← raise_lower _ _ (upTo_disjoint shape on), upTo_append shape on, map_eq_bind]
    · rfl
    · rw [upTo_append shape on]
      exact fun i => tracked.counts.pos leaf

lemma recede_none : idx.recedeSessionCoverage c core p none ct =
    idx.decSessionCoverage c core p ct := by
  cases ct with
  | full => simp only [recedeSessionCoverage, upTo_none, decSessionCoverage]
  | swa | mamba => simp [recedeSessionCoverage, decSessionCoverage]

/-! ### The operations keep the index exact -/

omit [DecidableEq σ] in
/-- A fold over the leaves with a property, each step of which takes one of them out. -/
lemma exists_emptied {f : SessionIndex σ → σ × Nat → Option (SessionIndex σ)}
    {P : σ × Nat → Prop} [DecidablePred P] {K : SessionIndex σ → Prop}
    (step : ∀ idx p, K idx → P p → p ∈ idx.sessionLeaves → ∃ idx', f idx p = some idx' ∧ K idx' ∧
      ∀ q, P q → (q ∈ idx'.sessionLeaves ↔ q ∈ idx.sessionLeaves ∧ q ≠ p))
    (start : K idx) (nodup : idx.sessionLeaves.Nodup) :
    ∃ idx', (idx.sessionLeaves.filter fun p => decide (P p)).foldlM f idx = some idx' ∧ K idx' ∧
      ∀ p ∈ idx'.sessionLeaves, ¬ P p := by
  -- what is left of the list are the leaves still to take out
  have all : ∀ p, p ∈ idx.sessionLeaves.filter (fun p => decide (P p)) ↔
      p ∈ idx.sessionLeaves ∧ P p := by simp
  replace nodup := nodup.filter fun p => decide (P p)
  generalize idx.sessionLeaves.filter (fun p => decide (P p)) = ps at *
  induction ps generalizing idx with
  | nil => exact ⟨idx, rfl, start, fun p leaf here => not_mem_nil ((all p).mpr ⟨leaf, here⟩)⟩
  | cons q ps ih =>
    obtain ⟨apart, nodup⟩ := nodup_cons.mp nodup
    obtain ⟨leaf, here⟩ := (all q).mp mem_cons_self
    obtain ⟨mid, moved, kept, only⟩ := step idx q start here leaf
    rw [foldlM_cons, moved]
    refine ih kept (fun p => ?_) nodup
    constructor
    · intro inside
      obtain ⟨leaf, here⟩ := (all p).mp (mem_cons_of_mem _ inside)
      exact ⟨(only p here).mpr ⟨leaf, fun same => apart (same ▸ inside)⟩, here⟩
    · rintro ⟨leaf, here⟩
      obtain ⟨leaf, other⟩ := (only p here).mp leaf
      exact (mem_cons.mp ((all p).mpr ⟨leaf, here⟩)).resolve_left other

section

variable (tracked : idx.Exact c core ct) (shape : core.Shape c)
include tracked shape

/-- Counting a new leaf, and marking it. -/
lemma Exact.register (s : σ) (leaf : Option Nat)
    (known : ∀ i ∈ leaf, i = 0 ∨ i ∈ links.tags core.nodes) :
    ∃ idx', idx.registerSessionLeaf c core ct s leaf = some idx' ∧ idx'.Exact c core ct := by
  cases leaf with
  | none => exact ⟨idx, rfl, tracked⟩
  | some i =>
    simp only [registerSessionLeaf, elim_some]
    split
    · exact ⟨idx, rfl, tracked⟩
    rename_i new
    obtain ⟨below, fresh⟩ := not_or.mp new
    obtain ⟨mid, entered, leaves, exact'⟩ := tracked.enter shape fresh ((known i rfl).resolve_left below)
    cases nearest : idx.nearestSessionAncestor core (s, i) with
    | none =>
      simp only [entered]
      exact ⟨_, rfl, exact'⟩
    | some old =>
      obtain ⟨d, found, rfl⟩ := map_eq_some_iff.mp nearest
      have on := mem_of_mem_tail (mem_of_find?_eq_some found)
      have marked : (s, d.id) ∈ idx.sessionLeaves := by simpa using find?_some found
      rw [advance_some shape on, entered, bind_some]
      -- the walks do not see the marks, so the old leaf can be taken back before or after
      have both : (s, d.id) ∈ (mid.mark (s, i)).sessionLeaves := by
        simp [mark, leaves, marked]
      obtain ⟨out, left, -, -, exact''⟩ := exact'.leave shape both
      rw [mark_eq (leaves ▸ fresh), dec_withLeaves] at left
      obtain ⟨out, ran, rfl⟩ := map_eq_some_iff.mp left
      have same := (sessionLeaves_walk (dec_withLeaves _) ran).trans leaves
      rw [ran, bind_some, mark_eq (same ▸ fresh)]
      rw [mark_eq (leaves ▸ fresh), leaves] at both exact''
      rw [same]
      exact ⟨_, unmark_eq both, exact''⟩

/-- `release_session` succeeds and leaves the other sessions' leaves. -/
lemma Exact.release (s : σ) : ∃ idx', idx.releaseSession c core ct s = some idx' ∧
    (idx'.Exact c core ct ∧ idx'.sessionLeaves ⊆ idx.sessionLeaves) ∧
      ∀ p ∈ idx'.sessionLeaves, p.1 ≠ s := by
  refine exists_emptied (fun now p kept _ leaf => ?_) ⟨tracked, fun _ leaf => leaf⟩ tracked.nodup
  obtain ⟨tracked, old⟩ := kept
  obtain ⟨mid, ran, same, -, exact'⟩ := tracked.leave shape leaf
  have left : ∀ q, q ∈ now.sessionLeaves.erase p ↔ q ∈ now.sessionLeaves ∧ q ≠ p := fun q =>
    tracked.nodup.mem_erase_iff.trans and_comm
  refine ⟨_, ?_, ⟨exact', fun q leaf => old ((left q).mp leaf).1⟩, fun q _ => left q⟩
  rw [releaseLeaf, ran, bind_some, unmark_eq (same ▸ leaf), same]

end

/-- A reusable node lies on the path it is searched on. -/
lemma firstReusable_mem {run : Option Nat} {path : List (Node π α)}
    (found : firstReusable c ct run path = some i) : ∃ d ∈ path, d.id = i := by
  induction path generalizing run with
  | nil => cases found
  | cons d up ih =>
    rw [firstReusable] at found
    split at found
    · exact ⟨d, mem_cons_self, some.inj found⟩
    · obtain ⟨e, inside, named⟩ := ih found
      exact ⟨e, mem_cons_of_mem _ inside, named⟩

variable (tracked : idx.Exact c core ct) (shape : core.Shape c) (mem : d ∈ core.nodes)
include tracked shape mem

/-- Moving one leaf off a node that goes away. -/
lemma Exact.discardLeaf (named : p.2 = d.id) (leaf : p ∈ idx.sessionLeaves) :
    ∃ idx', discardLeaf c core ct d.parent idx p = some idx' ∧ idx'.Exact c core ct ∧
      ∀ q, q.2 = d.id → (q ∈ idx'.sessionLeaves ↔ q ∈ idx.sessionLeaves ∧ q ≠ p) := by
  obtain ⟨mid, ran, same, -, exact'⟩ := tracked.leave shape leaf
  have left : ∀ q, q ∈ idx.sessionLeaves.erase p ↔ q ∈ idx.sessionLeaves ∧ q ≠ p := fun q =>
    tracked.nodup.mem_erase_iff.trans and_comm
  simp only [SessionIndex.discardLeaf]
  cases fallback : (core.findReusableSessionLeaf c ct d.parent).filter fun back =>
      decide ((p.1, back) ∉ idx.sessionLeaves) with
  | none =>
    rw [recede_none, ran, bind_some, unmark_eq (same ▸ leaf), same]
    exact ⟨_, rfl, exact', fun q _ => left q⟩
  | some back =>
    obtain ⟨found, fresh⟩ := filter_eq_some_iff.mp fallback
    obtain ⟨e, above, rfl⟩ := firstReusable_mem found
    have path := shape.spine_id mem
    have on : e ∈ core.spine p.2 := by
      rw [named, path]
      exact mem_cons_of_mem _ above
    have away : e.id ≠ d.id := by
      have apart := shape.rooted.nodup_spine d.id
      rw [show links.spine core.nodes d.id = _ from path] at apart
      exact fun here => (nodup_cons.mp apart).1 (mem_map.mpr ⟨e, above, here⟩)
    have fresh : (p.1, e.id) ∉ idx.sessionLeaves := by simpa using fresh
    obtain ⟨out, entered, -, exact''⟩ := exact'.enter shape (p := (p.1, e.id))
      (fun leaf => fresh ((left _).mp leaf).1) (Links.mem_tags (mem_of_mem_spine on))
    rw [advance_withLeaves] at entered
    obtain ⟨out, ran', rfl⟩ := map_eq_some_iff.mp entered
    have kept := (sessionLeaves_walk (advance_withLeaves _) ran').trans same
    rw [recede_some tracked shape leaf on, ran, bind_some, ran', bind_some,
      unmark_eq (kept ▸ leaf), kept]
    refine ⟨_, rfl, exact'', fun q here => ?_⟩
    have other : q ≠ (p.1, e.id) := fun back => away ((congrArg Prod.snd back).symm.trans here)
    simpa [mark, withLeaves, other] using left q

/-- `discard_deleted_session_leaf` succeeds and leaves no leaf on the node. -/
lemma Exact.discard :
    ∃ idx', idx.discardDeletedSessionLeaf c core ct d = some idx' ∧ idx'.Exact c core ct ∧
      ∀ p ∈ idx'.sessionLeaves, p.2 ≠ d.id := by
  exact exists_emptied (P := fun p => p.2 = d.id) (fun _ _ tracked => tracked.discardLeaf shape mem)
    tracked tracked.nodup

end SessionIndex

/-! ### Runs -/

/-- `_remove_leaf_from_parent`: every component moves its sessions off the node first. -/
def removeLeafFromParent [DecidableEq σ] (c : Config) (core : Core π α)
    (index : Component → SessionIndex σ) (d : Node π α) :
    Option (Core π α × (Component → SessionIndex σ)) := do
  let full ← (index .full).discardDeletedSessionLeaf c core .full d
  let swa ← (index .swa).discardDeletedSessionLeaf c core .swa d
  let mamba ← (index .mamba).discardDeletedSessionLeaf c core .mamba d
  some (core.removeNode d, fun
    | .full => full
    | .swa => swa
    | .mamba => mamba)

structure SessionRun (π α σ : Type) where
  core : Core π α
  index : Component → SessionIndex σ

inductive SessionOp (π α σ : Type)
  | registerSessionLeaf (ct : Component) (s : σ) (leaf : Option Nat)
  | releaseSession (ct : Component) (s : σ)
  | splitNode (child : Nat) (pages : Nat)
  | insert (p : InsertParams π α)
  | removeLeafFromParent (node : Nat)
  /-- Whatever another operation writes into the data of nodes. -/
  | write (f : Node π α → Node π α)

/-- Sessions over a tree that splits, grows, loses leaves and has its data rewritten. Callers
register nodes of the tree, split inside a node, bring a slot for every token they insert,
and delete childless nodes. -/
def sessionMachine [DecidableEq π] [DecidableEq σ] (c : Config) :
    Machine (SessionRun π α σ) (SessionOp π α σ) where
  start r := r = ⟨.reset, fun _ => .reset⟩
  allowed r
    | .registerSessionLeaf _ _ leaf => ∀ i ∈ leaf, r.core.known i = true
    | .splitNode i n => ∀ d ∈ r.core.find? i, 0 < n ∧ n < d.key.length
    | .insert p => p.key.length * c.pageSize ≤ p.value.length
    | .removeLeafFromParent i => r.core.children i = []
    | .write f => ∀ d, (f d).id = d.id ∧ (f d).parent = d.parent ∧ (f d).key = d.key ∧
        ∀ ct, ct ≠ .mamba → ∀ v, ((f d).data ct).value = some v ∨
          ((f d).data ct).hostValue = some v → v.length = d.len c
    | _ => True
  step r
    | .registerSessionLeaf ct s leaf =>
      ((r.index ct).registerSessionLeaf c r.core ct s leaf).map fun idx =>
        { r with index := update r.index ct idx }
    | .releaseSession ct s => ((r.index ct).releaseSession c r.core ct s).map fun idx =>
      { r with index := update r.index ct idx }
    | .splitNode i n => (r.core.find? i).map fun d =>
      let (core, new, _) := r.core.splitNode c d n
      ⟨core, fun ct => (r.index ct).redistribute ct (d.id, new.id)⟩
    | .insert p => (r.core.insert c p).map fun (w, _) =>
      ⟨w.core, fun ct => w.splits.foldl (SessionIndex.redistribute ct) (r.index ct)⟩
    | .removeLeafFromParent i => (r.core.find? i).bind fun d =>
      (removeLeafFromParent c r.core r.index d).map fun (core, index) => ⟨core, index⟩
    | .write f => some { r with core := { r.core with nodes := r.core.nodes.map f } }

/-- What holds between the operations of a run. -/
structure SessionRun.Kept (c : Config) (r : SessionRun π α σ) : Prop where
  shape : r.core.Shape c
  tracked : ∀ ct, (r.index ct).Exact c r.core ct

section

variable {c : Config} {r : SessionRun π α σ} {idx : SessionIndex σ} {core : Core π α}
  {ct : Component}

lemma SessionRun.Kept.update (kept : r.Kept c) (tracked : idx.Exact c r.core ct) :
    SessionRun.Kept c { r with index := update r.index ct idx } := by
  refine ⟨kept.shape, fun ct' => ?_⟩
  dsimp only
  by_cases here : ct' = ct
  · subst here
    rw [update_self]
    exact tracked
  · rw [update_of_ne here]
    exact kept.tracked ct'

/-- SWA's counts, in terms of what its walks have counted. -/
lemma SessionIndex.Exact.raised
    (tracked : idx.Exact c core .swa) {p : σ × Nat} (leaf : p ∈ idx.sessionLeaves) (i : Nat) :
    i ∈ idx.raised p ↔ i ∈ links.tags (idx.cover c core .swa p) := by
  obtain ⟨len, same, -, raised⟩ := tracked.recorded rfl p leaf
  rw [raised, List.mem_toFinset, SessionIndex.cover, same, getD_some]

variable [DecidableEq σ]

/-- Releasing sessions one after the other. -/
lemma SessionIndex.Exact.releaseAll (tracked : idx.Exact c core ct)
    (shape : core.Shape c) (ss : List σ) (all : ∀ p ∈ idx.sessionLeaves, p.1 ∈ ss) :
    ∃ idx', ss.foldlM (SessionIndex.releaseSession c core ct) idx = some idx' ∧
      ∀ i, idx'.sessionRef i = 0 := by
  induction ss generalizing idx with
  | nil =>
    refine ⟨idx, rfl, fun i => ?_⟩
    rw [tracked.counts i, eq_nil_iff_forall_not_mem.mpr fun p leaf => not_mem_nil (all p leaf)]
    rfl
  | cons s ss ih =>
    obtain ⟨mid, released, ⟨exact', old⟩, others⟩ := tracked.release shape s
    obtain ⟨idx', rest, zero⟩ := ih exact' fun p leaf =>
      (mem_cons.mp (all p (old leaf))).resolve_left (others p leaf)
    refine ⟨idx', ?_, zero⟩
    rw [foldlM_cons, released]
    exact rest

lemma SessionRun.Kept.removed (kept : r.Kept c) {d : Node π α} (mem : d ∈ r.core.nodes)
    (childless : r.core.children d.id = []) {index : Component → SessionIndex σ}
    (ran : removeLeafFromParent c r.core r.index d = some (core, index)) :
    SessionRun.Kept c ⟨core, index⟩ := by
  obtain ⟨full, moved₁, exact₁, gone₁⟩ := (kept.tracked .full).discard kept.shape mem
  obtain ⟨swa, moved₂, exact₂, gone₂⟩ := (kept.tracked .swa).discard kept.shape mem
  obtain ⟨mamba, moved₃, exact₃, gone₃⟩ := (kept.tracked .mamba).discard kept.shape mem
  simp only [removeLeafFromParent, moved₁, moved₂, moved₃] at ran
  cases ran
  refine ⟨kept.shape.removeNode childless, fun ct => ?_⟩
  cases ct with
  | full => exact exact₁.removeNode kept.shape childless gone₁
  | swa => exact exact₂.removeNode kept.shape childless gone₂
  | mamba => exact exact₃.removeNode kept.shape childless gone₃

variable [DecidableEq π]

lemma sessionMachine_kept :
    (sessionMachine (π := π) (α := α) (σ := σ) c).Inductive (SessionRun.Kept c) where
  start := by
    rintro r rfl
    exact ⟨shape_reset c, fun _ => SessionIndex.exact_reset⟩
  step := by
    intro r op r' kept ok ran
    cases op with
    | registerSessionLeaf ct s leaf =>
      obtain ⟨idx, registered, tracked⟩ := (kept.tracked ct).register kept.shape s leaf
        fun i named => mem_tags_of_known (ok i named)
      obtain ⟨_, same, rfl⟩ := map_eq_some_iff.mp ran
      cases registered.symm.trans same
      exact kept.update tracked
    | releaseSession ct s =>
      obtain ⟨idx, released, ⟨tracked, -⟩, -⟩ := (kept.tracked ct).release kept.shape s
      obtain ⟨_, same, rfl⟩ := map_eq_some_iff.mp ran
      cases released.symm.trans same
      exact kept.update tracked
    | splitNode i n =>
      obtain ⟨d, found, rfl⟩ := map_eq_some_iff.mp ran
      obtain ⟨mem, -⟩ := mem_of_find? found
      obtain ⟨pos, inside⟩ := ok d found
      exact ⟨kept.shape.splitNode mem pos inside,
        fun ct => (kept.tracked ct).split kept.shape mem pos inside⟩
    | insert p =>
      obtain ⟨⟨w, result⟩, inserted, rfl⟩ := map_eq_some_iff.mp ran
      have edits := insert_grows kept.shape ok inserted
      exact ⟨kept.shape.grows edits, fun ct => (kept.tracked ct).grows kept.shape edits⟩
    | removeLeafFromParent i =>
      obtain ⟨d, found, ran⟩ := bind_eq_some_iff.mp ran
      obtain ⟨⟨core, index⟩, removed, rfl⟩ := map_eq_some_iff.mp ran
      exact kept.removed (mem_of_find? found).1 (mem_of_find? found |>.2 ▸ ok) removed
    | write f =>
      cases ran
      refine ⟨kept.shape.map rfl rfl (fun d => (ok d).1) (fun d => (ok d).2.1)
        (fun d => (ok d).2.2.1) fun d _ => (ok d).2.2.2, fun ct => ?_⟩
      exact (kept.tracked ct).map rfl (fun d => (ok d).1) (fun d => (ok d).2.1)
        fun d => (ok d).2.2.1

/-- In every run Full's count of a node is the number of session leaves below it, SWA's is
the number of leaves whose registration counted it (a split's halves share what the node
had), taking an SWA leaf back succeeds and lowers just those counts, and once every session
is released no count is left. -/
theorem session_refs_exact (reached : (sessionMachine c).Reachable r) :
    (∀ d ∈ r.core.nodes, (r.index .full).sessionRef d.id =
      ((r.index .full).sessionLeaves.filter fun p =>
        decide (d.id ∈ links.tags (r.core.spine p.2))).length) ∧
    (∀ d ∈ r.core.nodes, (r.index .swa).sessionRef d.id =
      ((r.index .swa).sessionLeaves.filter fun p => decide (d.id ∈ (r.index .swa).raised p)).length) ∧
    (∀ p ∈ (r.index .swa).sessionLeaves, ∃ idx,
      (r.index .swa).decSessionCoverage c r.core p .swa = some idx ∧
        ∀ i, (r.index .swa).sessionRef i =
          idx.sessionRef i + if i ∈ (r.index .swa).raised p then 1 else 0) ∧
    ∀ ct (ss : List σ), (∀ p ∈ (r.index ct).sessionLeaves, p.1 ∈ ss) →
      ∃ idx, ss.foldlM (SessionIndex.releaseSession c r.core ct) (r.index ct) = some idx ∧
        ∀ i, idx.sessionRef i = 0 := by
  obtain ⟨shape, tracked⟩ := sessionMachine_kept.reachable reached
  refine ⟨fun d _ => ?_, fun d _ => ?_, fun p leaf => ?_, fun ct ss all => ?_⟩
  · rw [(tracked .full).counts d.id, countP_eq_length_filter]
    rfl
  · rw [(tracked .swa).counts d.id, ← countP_eq_length_filter]
    exact countP_congr fun p leaf => by simp [(tracked .swa).raised leaf]
  · obtain ⟨idx, ran, -, less, -⟩ := (tracked .swa).leave shape leaf
    exact ⟨idx, ran, fun i => by rw [less i]; simp only [(tracked .swa).raised leaf]⟩
  · exact (tracked ct).releaseAll shape ss all

end

/-- A window registered on a leaf, whose upper node is split afterwards. -/
theorem session_refs_exact_split : ∃ r : SessionRun Nat Nat Nat,
    (r.core.nodes.map fun d => (d.id, (r.index .swa).sessionRef d.id)) = [(1, 1), (2, 1), (3, 1)] ∧
    ∃ idx, [7].foldlM (SessionIndex.releaseSession (windowConfig true) r.core .swa) (r.index .swa) =
      some idx ∧ ∀ i, idx.sessionRef i = 0 := by
  have inserted : (sessionMachine (σ := Nat) (windowConfig true)).Reachable _ :=
    .step (.start rfl) (by decide : 3 * 1 ≤ 3) (a := .insert (plainInsert [1, 2, 3] [10, 11, 12] 0)) rfl
  have registered := inserted.step (by rintro i ⟨⟩; rfl)
    (a := SessionOp.registerSessionLeaf .swa 7 (some 1)) rfl
  have split := registered.step (by rintro d ⟨⟩; decide) (a := SessionOp.splitNode 2 1) rfl
  refine ⟨_, ?_, (session_refs_exact split).2.2.2 .swa [7] ?_⟩
  · decide
  · decide

end Sglang.Tree
