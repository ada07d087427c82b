/-
# The unified radix tree: a match through the Rust core

`RustUnifiedTreeCore.match_prefix` hands a key to the Rust core. Its walk keeps a cursor into
the key where the Python walk drops what it has matched, and counts the tokens since the last
SWA gap in a saturating word. `MatchParamsBinding` has no `return_full_match`.

* `Walk.matchPrefixHelper_mirror` — the two walks go hand in hand on one tree.
* `adapter_match_eq` — a match that does not ask for the Full match alone is the same on both
  cores: the tree it leaves, the result and the action. One that does finds the same device match
  exactly when SWA accepts the end of the device path.
-/

import Sglang.Tree.Match

namespace Sglang.Tree

variable {π α : Type}

structure MatchPrefixParams (π : Type) where
  /-- Page-aligned. -/
  key : List π
  returnFullMatch : Bool

namespace RustUnifiedTreeCore

def usizeMax : Nat := 2 ^ 64 - 1

variable (c : Config)

/-- SWA's validator and its `contiguous_len`; `swa_req_ring` is set when gaps do not gate. -/
def swaValidator (matchDeviceOnly : Bool) (contiguousLen : Nat) (d : Node π α) : Bool × Nat :=
  if (d.data .swa).value.isNone && (matchDeviceOnly || (d.data .swa).hostValue.isNone) then
    (!c.gatesPrefixMatch && (d.backuped || !d.evicted), 0)
  else
    let contiguousLen := min (contiguousLen + d.len c) usizeMax
    (decide (c.slidingWindowSize ≤ contiguousLen), contiguousLen)

/-- The validators of a tree with Full and SWA, each of which sees every node. -/
def validators (matchDeviceOnly : Bool) (contiguousLen : Nat) (d : Node π α) : Bool × Nat :=
  let full := (d.data .full).value.isSome ||
    (!matchDeviceOnly && (d.data .full).hostValue.isSome)
  let swa := swaValidator c matchDeviceOnly contiguousLen d
  (swa.1 && full, swa.2)

/-- The state of `match_prefix_helper_`. -/
structure Walk (π α : Type) where
  core : Core π α
  nodeId : Nat := 0
  /-- The pages of the key already matched. -/
  offset : Nat := 0
  value : List (List α) := []
  bestMatchNodeId : Nat := 0
  bestMatchDeviceNodeId : Nat := 0
  bestMatchDeviceValueLen : Nat := 0
  fullKvHitLength : Nat := 0
  contiguousLen : Nat := usizeMax
  deviceContiguousLen : Nat := usizeMax
  action : Option (Action α) := none

namespace Walk

def updateBestIfValid (w : Walk π α) (d : Node π α) : Walk π α :=
  let matched := validators c (!c.enableHicache) w.contiguousLen d
  let w := { w with
    contiguousLen := matched.2
    bestMatchNodeId := if matched.1 then d.id else w.bestMatchNodeId }
  let best := fun (w : Walk π α) (valid : Bool) => if valid then
    { w with bestMatchDeviceValueLen := w.value.length, bestMatchDeviceNodeId := d.id } else w
  if c.enableHicache then
    let device := validators c true w.deviceContiguousLen d
    best { w with deviceContiguousLen := device.2 } device.1
  else best w matched.1

/-- Step onto a node that shares `n` pages with the key. -/
def enter (w : Walk π α) (d : Node π α) (n : Nat) : Walk π α :=
  updateBestIfValid c { w with
    nodeId := d.id
    fullKvHitLength := w.fullKvHitLength + n * c.pageSize
    value := if d.evicted then w.value else w.value ++ [(d.data .full).value.getD []] } d

variable [DecidableEq π]

/-- The walk, one node of the path a step. -/
def matchPrefixHelper (c : Config) (key : List π) : Nat → Walk π α → Walk π α
  | 0, w => w
  | fuel + 1, w =>
    match key[w.offset]?.bind fun page => w.core.child? w.nodeId [page] with
    | none => w
    | some child =>
      if child.evicted && !child.backuped then w
      else
        let n := matchLen (key.drop w.offset) child.key
        if n < child.key.length then
          let (core, new, action) := w.core.splitNode c child n
          enter c { w with core := core, action := action } new n
        else
          let w := enter c w child n
          matchPrefixHelper c key fuel { w with offset := w.offset + n }

/-- `match_post_processor_` without its recency updates. -/
def matchPostProcessor (c : Config) (w : Walk π α) : MatchResult :=
  let devicePrefixLen := ((w.value.take w.bestMatchDeviceValueLen).map List.length).sum
  let hostHitLength := fullHostHit w.core w.bestMatchNodeId w.bestMatchDeviceNodeId
  { devicePrefixLen := devicePrefixLen
    lastDeviceNode := w.bestMatchDeviceNodeId
    lastHostNode := if c.enableHicache then w.bestMatchNodeId else w.bestMatchDeviceNodeId
    bestMatchNode := w.bestMatchNodeId
    hostHitLength := hostHitLength
    fullKvHitLength := w.fullKvHitLength
    swaHostHitLength := swaHostHit c 0 (w.core.spine w.bestMatchNodeId)
    swaBranchingSeqlen :=
      branchingSeqlen c.pageSize w.fullKvHitLength (devicePrefixLen + hostHitLength)
    mambaHostHitLength := 0
    mambaBranchingSeqlen := none }

end Walk

/-- The adapter's `match_prefix`: of the parameters only the key reaches the Rust core. -/
def matchPrefix [DecidableEq π] (core : Core π α) (params : MatchPrefixParams π) :
    Core π α × MatchResult × Option (Action α) :=
  let w := Walk.matchPrefixHelper c params.key params.key.length { core := core }
  (w.core, w.matchPostProcessor c, w.action)

/-! ### The walks mirror each other -/

/-- The word that stands for a running length. -/
def word (run : Option Nat) : Nat := run.elim usizeMax (min · usizeMax)

/-- The Rust walk that has come as far as a Python walk. -/
def Walk.mirror (offset : Nat) (w : MatchWalk π α) : Walk π α :=
  ⟨w.core, w.node, offset, w.value, w.bestMatchNode, w.bestMatchDeviceNode,
    w.bestMatchDeviceValueLen, w.fullKvHitLength, word w.run, word w.deviceRun, w.action⟩

/-- A tree with Full and SWA whose window is a machine word. -/
structure FullSwa : Prop where
  swa : c.hasSwa = true
  noMamba : c.hasMamba = false
  fits : c.slidingWindowSize ≤ usizeMax

variable {c} (tree : FullSwa c)
include tree

lemma swaValidator_word (only : Bool) (run : Option Nat) (d : Node π α) :
    swaValidator c only (word run) d =
      ((swaValid c only run d).1, word (swaValid c only run d).2) := by
  have fits := tree.fits
  have gap : ((d.data .swa).value.isNone && (only || (d.data .swa).hostValue.isNone)) =
      !(d.data .swa).present only := by
    unfold ComponentData.present
    cases (d.data .swa).value <;> cases (d.data .swa).hostValue <;> cases only <;> rfl
  unfold swaValidator swaValid
  rw [gap]
  cases (d.data .swa).present only with
  | false => rfl
  | true =>
    cases run with
    | none => simp [word, fits]
    | some n =>
      have sat : min (min n usizeMax + d.len c) usizeMax = min (n + d.len c) usizeMax := by omega
      simp [word, sat, fits]

lemma validators_word (only : Bool) (run : Option Nat) (d : Node π α) :
    validators c only (word run) d =
      ((allValid c false only run d).1, word (allValid c false only run d).2) := by
  simp [validators, allValid, swaValidator_word tree, tree.swa, tree.noMamba,
    ComponentData.present, Bool.and_comm]

namespace Walk

lemma enter_mirror (offset : Nat) (w : MatchWalk π α) (d : Node π α) (n : Nat) :
    (mirror offset w).enter c d n = mirror offset (w.visit c false d n) := by
  unfold enter updateBestIfValid MatchWalk.visit
  simp only [mirror, validators_word tree]
  cases c.enableHicache <;> simp <;> split <;> simp_all

variable [DecidableEq π]

omit tree in
lemma matchLen_comm (a b : List π) : matchLen a b = matchLen b a := by
  induction a generalizing b with
  | nil => cases b <;> rfl
  | cons x a ih =>
    cases b with
    | nil => rfl
    | cons y b => simp [matchLen, ih b, eq_comm]

/-- Both walks take the same steps; a split ends them, before the cursor moves. -/
lemma matchPrefixHelper_mirror (key : List π) (fuel : Nat) {offset : Nat} {w : MatchWalk π α}
    (rest : w.key = key.drop offset) : ∃ offset',
      matchPrefixHelper c key fuel (mirror offset w) = mirror offset' (w.walk c false fuel) := by
  induction fuel generalizing offset w with
  | zero => exact ⟨offset, rfl⟩
  | succ fuel ih =>
    have page : (key[offset]?.bind fun page => w.core.child? w.node [page]) =
        w.core.child? w.node w.key := by
      simp [Core.child?, rest]
    unfold matchPrefixHelper MatchWalk.walk
    simp only [mirror, page]
    cases w.core.child? w.node w.key with
    | none => exact ⟨offset, rfl⟩
    | some child =>
      simp only [← rest, matchLen_comm w.key]
      split
      · exact ⟨offset, rfl⟩
      · split
        · exact ⟨offset, enter_mirror tree offset { w with core := _, action := _, splits := _ } _ _⟩
        · have next := enter_mirror tree offset w child (matchLen child.key w.key)
          simp only [mirror] at next
          rw [next]
          refine ih ?_
          simp [MatchWalk.visit, rest]

end Walk

/-! ### Asked for the Full match -/

/-- The device match is the same. -/
structure Agrees (res res' : MatchResult) : Prop where
  devicePrefixLen : res.devicePrefixLen = res'.devicePrefixLen
  fullKvHitLength : res.fullKvHitLength = res'.fullKvHitLength
  lastDeviceNode : res.lastDeviceNode = res'.lastDeviceNode

variable [DecidableEq π]

omit tree in
/-- The walk itself does not ask the validators. -/
lemma walk_alike {fullOnly fullOnly' : Bool} (fuel : Nat) {w w' : MatchWalk π α}
    (core : w.core = w'.core) (node : w.node = w'.node) (key : w.key = w'.key)
    (hit : w.fullKvHitLength = w'.fullKvHitLength) :
    (w.walk c fullOnly fuel).core = (w'.walk c fullOnly' fuel).core ∧
      (w.walk c fullOnly fuel).fullKvHitLength = (w'.walk c fullOnly' fuel).fullKvHitLength := by
  induction fuel generalizing w w' with
  | zero => exact ⟨core, hit⟩
  | succ fuel ih =>
    unfold MatchWalk.walk
    rw [← core, ← node, ← key]
    cases w.core.child? w.node w.key with
    | none => exact ⟨core, hit⟩
    | some child =>
      dsimp only
      split
      · exact ⟨core, hit⟩
      split
      · exact ⟨rfl, congrArg (· + _) hit⟩
      · refine ih core rfl ?_ (congrArg (· + _) hit)
        rw [MatchWalk.visit, MatchWalk.visit, key]

/-- Asking for the Full match makes no difference exactly if SWA accepts the end of the path. -/
lemma matchPrefix_agrees_iff {core : Core π α} (shape : core.Shape c) (residency : core.Residency c)
    (key : List π) :
    Agrees (core.matchPrefix c key false).2.1 (core.matchPrefix c key true).2.1 ↔
      EndAccepted c (core.devicePath c key.length 0 key) := by
  have hit : (core.matchPrefix c key false).2.1.fullKvHitLength =
      (core.matchPrefix c key true).2.1.fullKvHitLength := (walk_alike _ rfl rfl rfl rfl).2
  obtain ⟨-, -, -, -, -, shape', longest⟩ := Core.matchWalk_visits shape residency key true
  obtain ⟨m, asked, length, node⟩ :=
    Core.matchWalk_best tree.swa tree.noMamba shape residency key true
  obtain ⟨n, ⟨⟨low, may⟩, top⟩, length', node'⟩ :=
    Core.matchWalk_best tree.swa tree.noMamba shape residency key false
  generalize core.devicePath c key.length 0 key = path at *
  -- Full alone lets a match end anywhere
  have whole : m = path.length :=
    asked.unique ⟨⟨le_rfl, .inl rfl⟩, fun _ inside => inside.1⟩
  rw [whole, List.take_length] at length node
  constructor
  · intro agrees
    have all : n = path.length := by
      by_contra short
      have shorter := tokens_take_lt c (fun d inside => (longest.chain.fitted shape' d inside).1)
        (lt_of_le_of_ne low short)
      rw [← length', ← length, agrees.devicePrefixLen] at shorter
      exact shorter.false
    rw [all, List.take_length] at may
    exact may.resolve_left (by decide)
  · intro accepted
    have all : n = path.length :=
      le_antisymm low (top ⟨le_rfl, .inr (List.take_length.symm ▸ accepted)⟩)
    rw [all, List.take_length] at length' node'
    exact ⟨length'.trans length.symm, hit, node'.trans node.symm⟩

/-- **A match that does not ask for Full alone** leaves the same tree on both cores, with the same
result and the same action. One that does leaves the same tree, and in a state the tree can be
in finds the same device match if and only if SWA accepts the end of the device path. -/
theorem adapter_match_eq (params : MatchPrefixParams π) :
    (∀ core : Core π α, params.returnFullMatch = false →
      matchPrefix c core params = core.matchPrefix c params.key params.returnFullMatch) ∧
    ∀ r : Run π α, (treeMachine c).Reachable r →
      (matchPrefix c r.core params).1 = (r.core.matchPrefix c params.key params.returnFullMatch).1 ∧
      (Agrees (matchPrefix c r.core params).2.1
          (r.core.matchPrefix c params.key params.returnFullMatch).2.1 ↔
        params.returnFullMatch = false ∨
          EndAccepted c (r.core.devicePath c params.key.length 0 params.key)) := by
  have gated (core : Core π α) : matchPrefix c core params = core.matchPrefix c params.key false := by
    obtain ⟨offset, same⟩ := Walk.matchPrefixHelper_mirror tree params.key params.key.length
      (w := { core := core, node := 0, key := params.key }) List.drop_zero.symm
    have walked : Walk.matchPrefixHelper c params.key params.key.length { core := core } = _ := same
    unfold matchPrefix Core.matchPrefix
    rw [walked]
    simp [Walk.matchPostProcessor, MatchWalk.result, Walk.mirror, Core.matchWalk, tree.swa,
      tree.noMamba]
  refine ⟨fun core off => off ▸ gated core, fun r reached => ?_⟩
  have kept := treeMachine_kept.reachable reached
  rw [gated]
  refine ⟨(walk_alike _ rfl rfl rfl rfl).1, ?_⟩
  cases params.returnFullMatch with
  | false => exact iff_of_true ⟨rfl, rfl, rfl⟩ (.inl rfl)
  | true =>
    rw [matchPrefix_agrees_iff tree kept.shape kept.residency]
    simp

omit tree in
/-- The window of the second token is complete, so that asking for Full makes no difference. -/
theorem adapter_match_eq_late :
    matchPrefix (windowConfig true) (lateTree true).core ⟨[1, 2, 3], false⟩ =
        (lateTree true).core.matchPrefix (windowConfig true) [1, 2, 3] false ∧
      Agrees (matchPrefix (windowConfig true) (lateTree true).core ⟨[1, 2, 3], true⟩).2.1
        ((lateTree true).core.matchPrefix (windowConfig true) [1, 2, 3] true).2.1 ∧
      EndAccepted (windowConfig true)
        ((lateTree true).core.devicePath (windowConfig true) 3 0 [1, 2, 3]) := by
  have asked := ((adapter_match_eq (c := windowConfig true) ⟨rfl, rfl, by decide⟩
    ⟨[1, 2, 3], true⟩).2 _ (lateTree_reached true)).2
  have agrees : Agrees (matchPrefix (windowConfig true) (lateTree true).core ⟨[1, 2, 3], true⟩).2.1
      ((lateTree true).core.matchPrefix (windowConfig true) [1, 2, 3] true).2.1 :=
    ⟨by decide, by decide, by decide⟩
  exact ⟨(adapter_match_eq ⟨rfl, rfl, by decide⟩ ⟨[1, 2, 3], false⟩).1 _ rfl, agrees,
    (asked.mp agrees).resolve_left (by decide)⟩

omit tree in
/-- Asked for the Full match alone, the Python core ends on the first token, whose window is
gone; the Rust core is not told and matches nothing. -/
theorem adapter_drops_full_match :
    (treeMachine (windowConfig true)).Reachable (lateTree true) ∧
    ((lateTree true).core.matchPrefix (windowConfig true) [1] true).2.1.devicePrefixLen = 1 ∧
    (matchPrefix (windowConfig true) (lateTree true).core ⟨[1], true⟩).2.1.devicePrefixLen = 0 :=
  ⟨lateTree_reached true, by decide, by decide⟩

end RustUnifiedTreeCore

end Sglang.Tree
