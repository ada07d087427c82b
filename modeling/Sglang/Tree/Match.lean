/-
# The unified radix tree: what a match finds

`match_prefix` walks the tree along a key and keeps, on the way, the deepest node that all
components accept. SWA accepts a node when the tokens since the last gap in its values fill
a window, or when there was no gap since the root.

* `Core.devicePath` — the device nodes along a key, read off the tree before the match.
* `MatchWalk.walk_ends` — a walk visits the nodes of one path of the tree it leaves, the
  longest one along the key.
* `swaValid_iff` — SWA's running length accepts a node exactly when every token of the
  window that ends there has a slot.
* `match_swa_window` — the device match is the longest prefix of that path whose trailing
  window is complete.
-/

import Mathlib.Data.List.TakeWhile
import Sglang.Tree.Runs

namespace Sglang.Tree

open Sglang.Lib List

variable {π α : Type}

/-! ### Paths -/

/-- The pages along a list of nodes. -/
def pages (path : List (Node π α)) : List π := path.flatMap Node.key

/-- The tokens along a list of nodes. -/
def tokens (c : Config) (path : List (Node π α)) : Nat := (path.map (Node.len c)).sum

/-- The node a path from `i` ends in. -/
def endOf (i : Nat) (path : List (Node π α)) : Nat := (path.getLast?.map Node.id).getD i

@[simp] lemma pages_nil : pages ([] : List (Node π α)) = [] := rfl

@[simp] lemma pages_cons (d : Node π α) (path : List (Node π α)) :
    pages (d :: path) = d.key ++ pages path := rfl

@[simp] lemma tokens_nil (c : Config) : tokens c ([] : List (Node π α)) = 0 := rfl

@[simp] lemma tokens_cons (c : Config) (d : Node π α) (path : List (Node π α)) :
    tokens c (d :: path) = d.len c + tokens c path := by
  simp [tokens]

@[simp] lemma tokens_append (c : Config) (path path' : List (Node π α)) :
    tokens c (path ++ path') = tokens c path + tokens c path' := by
  simp [tokens]

lemma tokens_take_mono (c : Config) (path : List (Node π α)) {m n : Nat} (le : m ≤ n) :
    tokens c (path.take m) ≤ tokens c (path.take n) := by
  have split := take_append_drop m (path.take n)
  rw [take_take, min_eq_left le] at split
  rw [← split, tokens_append]
  exact Nat.le_add_right _ _

/-- A path of nodes that are not empty is longer than its proper prefixes. -/
lemma tokens_take_lt (c : Config) {path : List (Node π α)} (pos : ∀ d ∈ path, 0 < d.len c) {n : Nat}
    (short : n < path.length) : tokens c (path.take n) < tokens c path := by
  have split := congrArg (tokens c) (take_append_drop n path)
  rw [drop_eq_getElem_cons short, tokens_append, tokens_cons] at split
  have := pos path[n] (getElem_mem short)
  omega

@[simp] lemma endOf_nil (i : Nat) : endOf i ([] : List (Node π α)) = i := rfl

@[simp] lemma endOf_cons (i : Nat) (d : Node π α) (path : List (Node π α)) :
    endOf i (d :: path) = endOf d.id path := by
  cases path with
  | nil => rfl
  | cons e path => simp [endOf, getLast?_cons]

namespace Core

/-- The nodes of `path` hang below `i`, each below the one before. -/
def Chain (core : Core π α) : Nat → List (Node π α) → Prop
  | _, [] => True
  | i, d :: path => d ∈ core.nodes ∧ d.parent = i ∧ core.Chain d.id path

/-- The path from `i` along `key` over nodes that satisfy `on`, as far as it goes: below its
end no such node begins with the next page. -/
structure Longest (core : Core π α) (on : Node π α → Prop) (i : Nat) (key : List π)
    (path : List (Node π α)) : Prop where
  chain : core.Chain i path
  all : ∀ d ∈ path, on d
  along : pages path <+: key
  stuck : ∀ e ∈ core.nodes, e.parent = endOf i path → on e →
    e.key.head? ≠ (key.drop (pages path).length).head?

variable {core : Core π α} {i : Nat} {path path' : List (Node π α)}

lemma Chain.append : core.Chain i (path ++ path') ↔
    core.Chain i path ∧ core.Chain (endOf i path) path' := by
  induction path generalizing i with
  | nil => simp [Chain]
  | cons d path ih => simp [Chain, ih, and_assoc]

lemma Chain.mem (chain : core.Chain i path) {d : Node π α} (inside : d ∈ path) :
    d ∈ core.nodes := by
  induction path generalizing i with
  | nil => simp at inside
  | cons e path ih =>
    rcases mem_cons.mp inside with rfl | inside
    · exact chain.1
    · exact ih chain.2.2 inside

end Core

/-! ### Shared pages -/

section

variable [DecidableEq π]

lemma take_matchLen (a b : List π) : a.take (matchLen a b) = b.take (matchLen a b) := by
  induction a generalizing b with
  | nil => simp [matchLen]
  | cons x a ih =>
    cases b with
    | nil => simp [matchLen]
    | cons y b =>
      by_cases same : x = y
      · simp [matchLen, same, ih b]
      · simp [matchLen, same]

/-- After the shared pages the keys part, unless the first is used up. -/
lemma head?_drop_matchLen {a b : List π} (inside : matchLen a b < a.length) :
    (a.drop (matchLen a b)).head? ≠ (b.drop (matchLen a b)).head? := by
  induction a generalizing b with
  | nil => simp at inside
  | cons x a ih =>
    cases b with
    | nil => simp [matchLen]
    | cons y b =>
      by_cases same : x = y
      · simp only [matchLen, same] at inside ⊢
        exact ih (Nat.lt_of_succ_lt_succ inside)
      · simp [matchLen, same]

/-- The nodes on the device along a key, the last one cut after the pages it shares with it. -/
def Core.devicePath (c : Config) (core : Core π α) : Nat → Nat → List π → List (Node π α)
  | 0, _, _ => []
  | fuel + 1, i, key =>
    match core.child? i key with
    | none => []
    | some d =>
      if d.evicted then []
      else if matchLen d.key key < d.key.length then [d.upper c (matchLen d.key key) core.nextId]
      else d :: devicePath c core fuel d.id (key.drop (matchLen d.key key))

end

/-! ### The walk visits a path -/

namespace MatchWalk

section

variable {c : Config} {fullOnly : Bool} {w : MatchWalk π α}

/-- Step onto every node of a path. -/
def visits (c : Config) (fullOnly : Bool) (w : MatchWalk π α) (path : List (Node π α)) :
    MatchWalk π α :=
  path.foldl (fun w d => w.visit c fullOnly d d.key.length) w

@[simp] lemma visits_cons (d : Node π α) (path : List (Node π α)) :
    w.visits c fullOnly (d :: path) = (w.visit c fullOnly d d.key.length).visits c fullOnly path :=
  rfl

lemma visits_append (path path' : List (Node π α)) :
    w.visits c fullOnly (path ++ path') = (w.visits c fullOnly path).visits c fullOnly path' :=
  foldl_append

/-- The walk over the tree a split left. -/
def on (w : MatchWalk π α) (core : Core π α) (action : Option (Action α))
    (splits : List (Nat × Nat)) : MatchWalk π α :=
  { w with core := core, action := action, splits := splits }

/-- How a walk ends: on the nodes of a path of the tree it leaves. What it had walked
over before, the nodes up from where it stood, is untouched. -/
structure Ends (c : Config) (fullOnly : Bool) (w w' : MatchWalk π α) (path : List (Node π α)) :
    Prop where
  visited : ∃ action splits, w' = (w.on w'.core action splits).visits c fullOnly path
  longest : w'.core.Longest (fun _ => True) w.node w.key path
  above : ∀ e ∈ w.core.spine w.node, e ∈ w'.core.nodes

/-- A walk that has nowhere to go. -/
lemma Ends.stay (stuck : ∀ e ∈ w.core.nodes, e.parent = w.node → e.key.head? ≠ w.key.head?) :
    Ends c fullOnly w w [] where
  visited := ⟨w.action, w.splits, rfl⟩
  longest := ⟨trivial, by simp, nil_prefix, fun e mem below _ => stuck e mem below⟩
  above e on := Links.mem_of_mem_spine on

end

variable [DecidableEq π] {c : Config} {fullOnly : Bool} {w w' : MatchWalk π α} {d : Node π α}
  {n fuel : Nat} {path : List (Node π α)}

section

variable (shape : w.core.Shape c) (mem : d ∈ w.core.nodes)
include shape mem

/-- A walk that ends inside a node, which it splits. -/
lemma Ends.split (below : d.parent = w.node) (shared : n = matchLen d.key w.key)
    (inside : n < d.key.length) : Ends c fullOnly w
      ((w.on (w.core.splitNode c d n).1 (w.core.splitNode c d n).2.2
        [(d.id, w.core.nextId)]).visit c fullOnly (d.upper c n w.core.nextId) n)
      [d.upper c n w.core.nextId] where
  visited := by
    refine ⟨(w.core.splitNode c d n).2.2, [(d.id, w.core.nextId)], ?_⟩
    have pages : (d.upper c n w.core.nextId).key.length = n := by simp [Node.upper, inside.le]
    rw [visits_cons, pages]
    rfl
  longest := by
    have taken : d.key.take n = w.key.take n := shared ▸ take_matchLen d.key w.key
    have key : pages [d.upper c n w.core.nextId] = w.key.take n := by
      simpa [Node.upper] using taken
    refine ⟨⟨Core.upper_mem_splitNode mem n, below, trivial⟩, by simp, ?_, fun e there under _ => ?_⟩
    · rw [key]
      exact take_prefix _ _
    · have length : (w.key.take n).length = n := by
        rw [← taken]
        simp [inside.le]
      rw [key, length]
      rcases (shape.mem_splitNode mem).mp there with ⟨old, -⟩ | rfl | rfl
      · -- the name of the upper half is new
        exact absurd under (shape.parent_lt old).ne
      · subst shared
        exact head?_drop_matchLen inside
      · exact absurd (show d.parent = w.core.nextId from under) (shape.parent_lt mem).ne
  above e on := by
    refine Core.mem_splitNode_of_ne (Links.mem_of_mem_spine on) (fun same => ?_) n
    have apart := shape.rooted.nodup_spine d.id
    rw [show links.spine w.core.nodes d.id = _ from shape.spine_id mem, below] at apart
    exact (nodup_cons.mp apart).1 (mem_map.mpr ⟨e, on, same⟩)

omit [DecidableEq π] in
lemma spine_visit : (w.visit c fullOnly d n).core.spine (w.visit c fullOnly d n).node =
      d :: w.core.spine d.parent :=
  shape.spine_id mem

/-- A walk that goes on from a node it has matched whole. -/
lemma Ends.cons (below : d.parent = w.node) (whole : matchLen d.key w.key = d.key.length)
    (ends : Ends c fullOnly (w.visit c fullOnly d d.key.length) w' path) :
    Ends c fullOnly w w' (d :: path) where
  visited := by
    obtain ⟨action, splits, same⟩ := ends.visited
    exact ⟨action, splits, same⟩
  longest := by
    have taken := take_matchLen d.key w.key
    rw [whole, take_length] at taken
    obtain ⟨chain, -, along, stuck⟩ := ends.longest
    have here : d ∈ w'.core.nodes := by
      apply ends.above d
      rw [spine_visit shape mem]
      exact mem_cons_self
    refine ⟨⟨here, below, chain⟩, by simp, ?_, fun e there under _ => ?_⟩
    · rw [← take_append_drop d.key.length w.key, ← taken]
      exact (prefix_append_right_inj _).mpr along
    · rw [pages_cons, length_append, ← drop_drop]
      rw [endOf_cons] at under
      exact stuck e there under trivial
  above e on := by
    apply ends.above e
    rw [spine_visit shape mem, below]
    exact mem_cons_of_mem _ on

end

/-- Every walk with enough steps left ends on the longest path along its key, whose device part
can be told from the tree before. -/
lemma walk_ends (fullOnly : Bool) (shape : w.core.Shape c)
    (live : ∀ d ∈ w.core.nodes, d.evicted = false ∨ d.backuped = true)
    (enough : w.key.length ≤ fuel) : ∃ path, Ends c fullOnly w (w.walk c fullOnly fuel) path ∧
      path.takeWhile (fun d => !d.evicted) = w.core.devicePath c fuel w.node w.key := by
  induction fuel generalizing w with
  | zero =>
    have used : w.key = [] := eq_nil_of_length_eq_zero (Nat.le_zero.mp enough)
    refine ⟨[], .stay fun e mem _ => ?_, rfl⟩
    rw [used]
    simpa using shape.keyed e mem
  | succ fuel ih =>
    unfold walk Core.devicePath
    cases found : w.core.child? w.node w.key with
    | none =>
      refine ⟨[], .stay fun e mem below => ?_, rfl⟩
      exact Core.head?_ne_of_child? found mem below (shape.keyed e mem)
    | some child =>
      obtain ⟨mem, below, page, rest, rest', keyed, keyed'⟩ := Core.mem_of_child? found
      have dead : (child.evicted && !child.backuped) = false := by
        rcases live child mem with resident | backuped
        · simp [resident]
        · simp [backuped]
      simp only [dead, Bool.false_eq_true, if_false]
      split
      · rename_i inside
        refine ⟨_, .split shape mem below rfl inside, ?_⟩
        have same : (child.upper c (matchLen child.key w.key) w.core.nextId).evicted =
            child.evicted := by simp [Node.evicted, Node.upper, ComponentData.upper]
        rw [takeWhile_cons, same]
        cases child.evicted <;> rfl
      · rename_i outside
        have whole : matchLen child.key w.key = child.key.length :=
          le_antisymm (matchLen_le _ _).1 (not_lt.mp outside)
        rw [whole]
        obtain ⟨path, ends, device⟩ := ih (w := w.visit c fullOnly child child.key.length) shape live
          (by
            have pos : 0 < child.key.length := by simp [keyed']
            simp only [visit, length_drop]
            omega)
        refine ⟨child :: path, ends.cons shape mem below whole, ?_⟩
        rw [takeWhile_cons, device]
        cases child.evicted <;> rfl

end MatchWalk

/-! ### The window -/

/-- The SWA device slots of a node, token by token. -/
def swaSlots (c : Config) (d : Node π α) : List (Option α) :=
  match (d.data .swa).value with
  | some slots => slots.map some
  | none => List.replicate (d.len c) none

/-- Every token of the window that ends with the path has an SWA device slot. -/
def Windowed (c : Config) (path : List (Node π α)) : Prop :=
  ∀ p, tokens c path - c.slidingWindowSize ≤ p → p < tokens c path →
    ∃ slot, (path.flatMap (swaSlots c))[p]? = some (some slot)

/-- SWA lets a match end with a path: the window there is complete, or the path ends in a gap and
gaps do not gate. -/
def EndAccepted (c : Config) (path : List (Node π α)) : Prop :=
  Windowed c path ∨
    c.gatesPrefixMatch = false ∧ ∀ d ∈ path.getLast?, (d.data .swa).value = none

section

variable {c : Config} {d g : Node π α} {path pre post : List (Node π α)}

lemma EndAccepted.nil : EndAccepted c ([] : List (Node π α)) :=
  .inl fun _ _ inside => absurd inside (Nat.not_lt_zero _)

lemma endAccepted_gated (gates : c.gatesPrefixMatch = true) :
    EndAccepted c path ↔ Windowed c path := by
  simp [EndAccepted, gates]

/-- SWA values are as long as their nodes, which are not empty. -/
def Fitted (c : Config) (path : List (Node π α)) : Prop :=
  ∀ d ∈ path, 0 < d.len c ∧ ∀ v, (d.data .swa).value = some v → v.length = d.len c

lemma length_swaSlots (fitted : Fitted c path) (mem : d ∈ path) :
    (swaSlots c d).length = d.len c := by
  unfold swaSlots
  cases value : (d.data .swa).value with
  | none => simp
  | some slots => simpa using (fitted d mem).2 slots value

lemma length_slots (fitted : Fitted c path) :
    (path.flatMap (swaSlots c)).length = tokens c path := by
  rw [length_flatMap]
  exact congrArg sum (map_congr_left fun d => length_swaSlots fitted)

lemma slots_present {slot : Option α} (present : ∀ d ∈ path, (d.data .swa).value ≠ none)
    (inside : slot ∈ path.flatMap (swaSlots c)) : ∃ s, slot = some s := by
  obtain ⟨d, mem, inside⟩ := mem_flatMap.mp inside
  unfold swaSlots at inside
  cases value : (d.data .swa).value with
  | none => exact absurd value (present d mem)
  | some slots =>
    simp only [value, mem_map] at inside
    obtain ⟨s, -, rfl⟩ := inside
    exact ⟨s, rfl⟩

/-- A path without a gap has every window. -/
lemma Windowed.of_present (fitted : Fitted c path)
    (present : ∀ d ∈ path, (d.data .swa).value ≠ none) : Windowed c path := by
  intro p _ inside
  rw [← length_slots fitted] at inside
  obtain ⟨slot, same⟩ := slots_present present (getElem_mem inside)
  exact ⟨slot, by rw [getElem?_eq_getElem inside, same]⟩

/-- A path has its window exactly when the tokens since the last gap fill one. -/
lemma windowed_iff (fitted : Fitted c (pre ++ g :: post)) (gap : (g.data .swa).value = none)
    (present : ∀ d ∈ post, (d.data .swa).value ≠ none) :
    Windowed c (pre ++ g :: post) ↔ c.slidingWindowSize ≤ tokens c post := by
  have fittedPre : Fitted c pre := fun d mem => fitted d (by simp [mem])
  have fittedPost : Fitted c post := fun d mem => fitted d (by simp [mem])
  have slots : (pre ++ g :: post).flatMap (swaSlots c) =
      pre.flatMap (swaSlots c) ++ (replicate (g.len c) none ++ post.flatMap (swaSlots c)) := by
    simp [swaSlots, gap]
  have pos : 0 < g.len c := (fitted g (by simp)).1
  have before := length_slots fittedPre
  have after := length_slots fittedPost
  constructor
  · intro windowed
    by_contra short
    -- the last token of the gap is inside the window
    obtain ⟨slot, found⟩ := windowed (tokens c pre + (g.len c - 1))
      (by simp only [tokens_append, tokens_cons]; omega)
      (by simp only [tokens_append, tokens_cons]; omega)
    rw [slots, getElem?_append_right (by omega), before,
      getElem?_append_left (by simp; omega)] at found
    cases (mem_replicate.mp (mem_of_getElem? found)).2
  · intro filled p low high
    simp only [tokens_append, tokens_cons] at low high
    have inside : p - tokens c pre - g.len c < (post.flatMap (swaSlots c)).length := by omega
    obtain ⟨slot, same⟩ := slots_present present (getElem_mem inside)
    refine ⟨slot, ?_⟩
    rw [slots, getElem?_append_right (by omega), before,
      getElem?_append_right (by simp; omega), length_replicate,
      getElem?_eq_getElem inside, same]

/-- What SWA's running length says about the nodes it has seen. -/
def RunOf (c : Config) (path : List (Node π α)) : Option Nat → Prop
  | none => ∀ d ∈ path, (d.data .swa).value ≠ none
  | some n => ∃ pre g post, path = pre ++ g :: post ∧ (g.data .swa).value = none ∧
      (∀ d ∈ post, (d.data .swa).value ≠ none) ∧ n = tokens c post

variable {run : Option Nat}

lemma RunOf.snoc (runs : RunOf c path run) (d : Node π α) :
    RunOf c (path ++ [d]) (swaValid c true run d).2 := by
  unfold swaValid ComponentData.present
  cases value : (d.data .swa).value with
  | none =>
    exact ⟨path, d, [], rfl, value, by simp, rfl⟩
  | some slots =>
    cases run with
    | none =>
      intro e mem
      rcases mem_append.mp mem with mem | mem
      · exact runs e mem
      · rw [mem_singleton.mp mem, value]
        simp
    | some n =>
      obtain ⟨pre, g, post, rfl, gap, present, rfl⟩ := runs
      refine ⟨pre, g, post ++ [d], by simp, gap, fun e mem => ?_, by simp⟩
      rcases mem_append.mp mem with mem | mem
      · exact present e mem
      · rw [mem_singleton.mp mem, value]
        simp

/-- SWA accepts a node on the device when the window that ends there is complete, and a gap too
if gaps do not gate. -/
lemma swaValid_iff (fitted : Fitted c (path ++ [d])) (runs : RunOf c path run)
    (resident : d.evicted = false) :
    (swaValid c true run d).1 = true ↔ EndAccepted c (path ++ [d]) := by
  simp only [EndAccepted, getLast?_concat, Option.mem_some_iff, forall_eq']
  cases value : (d.data .swa).value with
  | none =>
    have short : ¬ Windowed c (path ++ [d]) := by
      rw [windowed_iff fitted value (by simp)]
      exact not_le.mpr c.window_pos
    simp [swaValid, ComponentData.present, value, resident, short]
  | some slots =>
    have next := runs.snoc d
    have counts : (swaValid c true run d).1 =
        (swaValid c true run d).2.all fun n => decide (c.slidingWindowSize ≤ n) := by
      simp [swaValid, ComponentData.present, value]
    rw [counts, or_iff_left (by simp)]
    cases after : (swaValid c true run d).2 with
    | none =>
      rw [after] at next
      exact iff_of_true rfl (.of_present fitted next)
    | some n =>
      rw [after] at next
      obtain ⟨pre, g, post, same, gap, present, rfl⟩ := next
      rw [same] at fitted ⊢
      rw [windowed_iff fitted gap present]
      simp

end

/-! ### The device match -/

namespace MatchWalk

variable {c : Config} {w : MatchWalk π α} {d : Node π α} {path device host : List (Node π α)}

/-- The running length of the validators that decide the device match. -/
def deviceState (c : Config) (w : MatchWalk π α) : Option Nat :=
  if c.enableHicache then w.deviceRun else w.run

/-- A tree with SWA beside Full whose gaps end a match. -/
structure SwaOnly (c : Config) : Prop where
  swa : c.hasSwa = true
  mamba : c.hasMamba = false
  gates : c.gatesPrefixMatch = true

/-- May the device match end with a path? -/
def MayEnd (c : Config) (fullOnly : Bool) (path : List (Node π α)) : Prop :=
  fullOnly = true ∨ EndAccepted c path

/-- The device part of a walk over the nodes of `device`: their slots are collected, SWA's
state has seen them, and the best match so far is their longest prefix a match may end with. -/
structure Matched (c : Config) (fullOnly : Bool) (w : MatchWalk π α) (device : List (Node π α)) :
    Prop where
  collected : w.value = device.map fun d => (d.data .full).value.getD []
  runs : fullOnly = false → RunOf c device (w.deviceState c)
  best : IsGreatest {n | n ≤ device.length ∧ MayEnd c fullOnly (device.take n)}
    w.bestMatchDeviceValueLen
  node : w.bestMatchDeviceNode = endOf 0 (device.take w.bestMatchDeviceValueLen)

lemma deviceState_visit (swa : c.hasSwa = true) (n : Nat) :
    (w.visit c false d n).deviceState c = (swaValid c true (w.deviceState c) d).2 := by
  unfold deviceState visit allValid
  cases c.enableHicache <;> simp [swa]

/-- Does the device match move to a node? -/
def accepts (c : Config) (fullOnly : Bool) (w : MatchWalk π α) (d : Node π α) : Bool :=
  !d.evicted && (fullOnly || (swaValid c true (w.deviceState c) d).1)

section

variable (swa : c.hasSwa = true) (mamba : c.hasMamba = false)
include swa mamba

lemma best_visit (fullOnly : Bool) (n : Nat) :
    (w.visit c fullOnly d n).bestMatchDeviceValueLen =
        (if w.accepts c fullOnly d then (w.visit c fullOnly d n).value.length
        else w.bestMatchDeviceValueLen) ∧
      (w.visit c fullOnly d n).bestMatchDeviceNode =
        if w.accepts c fullOnly d then d.id else w.bestMatchDeviceNode := by
  unfold accepts deviceState visit allValid ComponentData.present Node.evicted
  cases c.enableHicache <;> cases fullOnly <;> simp [swa, mamba]

/-- Nodes without Full on the device change nothing of the device match. -/
lemma visits_host (fullOnly : Bool) (gone : ∀ d ∈ host, d.evicted = true) :
    (w.visits c fullOnly host).value = w.value ∧
      (w.visits c fullOnly host).bestMatchDeviceValueLen = w.bestMatchDeviceValueLen ∧
      (w.visits c fullOnly host).bestMatchDeviceNode = w.bestMatchDeviceNode := by
  induction host generalizing w with
  | nil => exact ⟨rfl, rfl, rfl⟩
  | cons d host ih =>
    have here := gone d (by simp)
    have best := best_visit swa mamba (w := w) (d := d) fullOnly d.key.length
    have next := ih (w := w.visit c fullOnly d d.key.length) fun e mem => gone e (by simp [mem])
    simp only [accepts, here, Bool.not_true, Bool.false_and, Bool.false_eq_true, if_false] at best
    rw [best.1, best.2] at next
    exact ⟨next.1.trans (by simp [MatchWalk.visit, here]), next.2⟩

end

lemma Matched.start {core core' : Core π α} {key : List π} {action : Option (Action α)}
    {splits : List (Nat × Nat)} {fullOnly : Bool} :
    Matched c fullOnly (on { core := core, node := 0, key := key } core' action splits) [] where
  collected := rfl
  runs _ := by
    unfold deviceState
    cases c.enableHicache <;> exact fun d mem => by simp at mem
  best := ⟨⟨Nat.zero_le _, .inr .nil⟩, fun n inside => inside.1⟩
  node := rfl

lemma Matched.accepts_iff {fullOnly : Bool} (matched : Matched c fullOnly w path)
    (resident : d.evicted = false) (fitted : Fitted c (path ++ [d])) :
    w.accepts c fullOnly d = true ↔ MayEnd c fullOnly (path ++ [d]) := by
  rw [accepts, resident, Bool.not_false, Bool.true_and, Bool.or_eq_true]
  cases fullOnly with
  | true => simp [MayEnd]
  | false => simp [MayEnd, swaValid_iff fitted (matched.runs rfl) resident]

section

variable (swa : c.hasSwa = true) (mamba : c.hasMamba = false) {fullOnly : Bool}
include swa mamba

/-- Stepping onto a node on the device. -/
lemma Matched.visit (matched : Matched c fullOnly w path) (resident : d.evicted = false)
    (fitted : Fitted c (path ++ [d])) (n : Nat) :
    Matched c fullOnly (w.visit c fullOnly d n) (path ++ [d]) := by
  have value : (w.visit c fullOnly d n).value =
      (path ++ [d]).map fun d => (d.data .full).value.getD [] := by
    simp [MatchWalk.visit, resident, matched.collected]
  have best := best_visit swa mamba (w := w) (d := d) fullOnly n
  have accepts := matched.accepts_iff resident fitted
  rw [value, length_map] at best
  obtain ⟨⟨low, may⟩, top⟩ := matched.best
  have runs : fullOnly = false → RunOf c (path ++ [d]) ((w.visit c fullOnly d n).deviceState c) := by
    rintro rfl
    rw [deviceState_visit swa]
    exact (matched.runs rfl).snoc d
  by_cases accepted : w.accepts c fullOnly d = true
  · rw [if_pos accepted, if_pos accepted] at best
    refine ⟨value, runs, ⟨⟨best.1.le, ?_⟩, fun m inside => best.1 ▸ inside.1⟩, ?_⟩
    · rw [best.1, take_length]
      exact accepts.mp accepted
    · rw [best.1, best.2, take_length]
      simp [endOf]
  · rw [if_neg accepted, if_neg accepted] at best
    refine ⟨value, runs, ⟨⟨?_, ?_⟩, fun m inside => best.1 ▸ top ?_⟩, ?_⟩
    · rw [best.1]
      exact low.trans (by simp)
    · rwa [best.1, take_append_of_le_length low]
    · obtain ⟨short, may'⟩ := inside
      -- the whole path is no candidate, so a candidate is one of the shorter ones
      have ne : m ≠ (path ++ [d]).length := by
        rintro rfl
        rw [take_length] at may'
        exact accepted (accepts.mpr may')
      have le : m ≤ path.length := by
        simp only [length_append, length_singleton] at short ne
        omega
      rw [take_append_of_le_length le] at may'
      exact ⟨le, may'⟩
    · rw [best.1, best.2, take_append_of_le_length low]
      exact matched.node

lemma Matched.visits (matched : Matched c fullOnly w path)
    (resident : ∀ d ∈ device, d.evicted = false) (fitted : Fitted c (path ++ device)) :
    Matched c fullOnly (w.visits c fullOnly device) (path ++ device) := by
  induction device generalizing w path with
  | nil => simpa [MatchWalk.visits] using matched
  | cons d device ih =>
    have first : Fitted c (path ++ [d]) := fun e mem => fitted e (by
      rcases mem_append.mp mem with mem | mem
      · simp [mem]
      · simp [mem_singleton.mp mem])
    have next := ih (matched.visit swa mamba (resident d (by simp)) first d.key.length)
      (fun e mem => resident e (by simp [mem])) (by simpa using fitted)
    simpa using next

end

end MatchWalk

namespace Core

variable {c : Config} {core : Core π α} {key : List π} {path : List (Node π α)}

/-- Below a node without Full on the device there is none with it. -/
lemma Residency.chain_evicted (residency : core.Residency c) (shape : core.Shape c)
    {d : Node π α} (chain : core.Chain d.id path) (mem : d ∈ core.nodes)
    (gone : d.evicted = true) : ∀ e ∈ path, e.evicted = true := by
  induction path generalizing d with
  | nil => simp
  | cons e path ih =>
    obtain ⟨there, below, chain⟩ := chain
    have goneToo := residency.evicted_child shape mem gone there below
    intro f inside
    rcases mem_cons.mp inside with rfl | inside
    · exact goneToo
    · exact ih chain there goneToo f inside

/-- The longest path over device nodes is the part of the longest path that is on the
device. -/
lemma Longest.device (residency : core.Residency c) (shape : core.Shape c)
    (longest : core.Longest (fun _ => True) 0 key path) :
    ∃ host, path = path.takeWhile (fun d => !d.evicted) ++ host ∧ (∀ d ∈ host, d.evicted = true) ∧
      core.Longest (fun d => d.evicted = false) 0 key (path.takeWhile fun d => !d.evicted) := by
  have split := takeWhile_append_dropWhile (p := fun d => !d.evicted) (l := path)
  have on : ∀ d ∈ path.takeWhile fun d => !d.evicted, d.evicted = false := fun d mem => by
    simpa using mem_takeWhile_imp mem
  generalize path.takeWhile (fun d => !d.evicted) = device at split on
  cases rest : path.dropWhile (fun d => !d.evicted) with
  | nil =>
    rw [rest, append_nil] at split
    subst split
    exact ⟨[], by simp, by simp, longest.chain, on, longest.along,
      fun e mem below _ => longest.stuck e mem below trivial⟩
  | cons h host =>
    have gone : h.evicted = true := by
      have head := head_dropWhile_not (fun d => !d.evicted) (l := path) (by simp [rest])
      simpa [rest] using head
    rw [rest] at split
    subst split
    obtain ⟨chain, mem, below, chain'⟩ := Chain.append.mp longest.chain
    refine ⟨h :: host, rfl, ?_, chain, on, ?_, fun e there under resident same => ?_⟩
    · exact forall_mem_cons.mpr ⟨gone, residency.chain_evicted shape chain' mem gone⟩
    · refine .trans ?_ longest.along
      simp [pages]
    · -- only the node the walk went on to begins with that page
      have next : (key.drop (pages device).length).head? = h.key.head? := by
        obtain ⟨rest, whole⟩ := longest.along
        rw [← whole]
        obtain ⟨page, tail, keyed⟩ := exists_cons_of_ne_nil (shape.keyed h mem)
        simp [pages, keyed]
      have here := shape.apart e there h mem (under.trans below.symm) (same.trans next)
      rw [shape.eq_of_id there mem here, gone] at resident
      cases resident

end Core

/-! ### The result -/

variable {c : Config} {path : List (Node π α)}

variable {core : Core π α}

lemma Core.Shape.len_pos (shape : core.Shape c) {d : Node π α} (mem : d ∈ core.nodes) :
    0 < d.len c :=
  Nat.mul_pos (length_pos_iff.mpr (shape.keyed d mem)) c.pageSize_pos

lemma Core.Chain.fitted {i : Nat} (chain : core.Chain i path) (shape : core.Shape c) :
    Fitted c path := by
  intro d inside
  have mem := chain.mem inside
  refine ⟨shape.len_pos mem, fun v value => ?_⟩
  exact shape.sized d mem .swa (by simp) v (.inl value)

/-- The collected slots of device nodes are as many as their tokens. -/
lemma Core.Chain.slots {i : Nat} (chain : core.Chain i path) (shape : core.Shape c)
    (resident : ∀ d ∈ path, d.evicted = false) (n : Nat) :
    (((path.map fun d => (d.data .full).value.getD []).take n).map length).sum =
      tokens c (path.take n) := by
  rw [← map_take, map_map]
  refine congrArg sum (map_congr_left fun d inside => ?_)
  have on := mem_of_mem_take inside
  obtain ⟨v, value⟩ := Node.exists_value (resident d on)
  simpa [value] using shape.sized d (chain.mem on) .full (by simp) v (.inl value)

variable [DecidableEq π]

/-- A match visits the device path of the tree before it, and then host nodes only. -/
lemma Core.matchWalk_visits (shape : core.Shape c) (residency : core.Residency c) (key : List π)
    (fullOnly : Bool) : ∃ action splits host, core.matchWalk c key fullOnly =
        (MatchWalk.on { core := core, node := 0, key := key } (core.matchWalk c key fullOnly).core
          action splits).visits c fullOnly (core.devicePath c key.length 0 key ++ host) ∧
      (∀ d ∈ host, d.evicted = true) ∧ (core.matchWalk c key fullOnly).core.Shape c ∧
      (core.matchWalk c key fullOnly).core.Longest (fun d => d.evicted = false) 0 key
        (core.devicePath c key.length 0 key) := by
  have grown := Core.matchWalk_grows fullOnly shape key
  obtain ⟨walked, ends, told⟩ := MatchWalk.walk_ends fullOnly
    (w := { core := core, node := 0, key := key }) shape residency.live le_rfl
  obtain ⟨action, splits, same⟩ := ends.visited
  obtain ⟨host, whole, gone, longest⟩ :=
    Core.Longest.device (residency.grows shape grown) (shape.grows grown) ends.longest
  rw [told] at whole longest
  rw [whole] at same
  exact ⟨action, splits, host, same, gone, shape.grows grown, longest⟩

/-- The device match is the longest prefix of the device path that a match may end with. -/
lemma Core.matchWalk_best (swa : c.hasSwa = true) (mamba : c.hasMamba = false)
    (shape : core.Shape c) (residency : core.Residency c) (key : List π) (fullOnly : Bool) :
    ∃ n, IsGreatest {n | n ≤ (core.devicePath c key.length 0 key).length ∧
        MatchWalk.MayEnd c fullOnly ((core.devicePath c key.length 0 key).take n)} n ∧
      (core.matchPrefix c key fullOnly).2.1.devicePrefixLen =
        tokens c ((core.devicePath c key.length 0 key).take n) ∧
      (core.matchPrefix c key fullOnly).2.1.lastDeviceNode =
        endOf 0 ((core.devicePath c key.length 0 key).take n) := by
  obtain ⟨action, splits, host, walk, gone, shape', longest⟩ :=
    Core.matchWalk_visits shape residency key fullOnly
  generalize core.devicePath c key.length 0 key = path at *
  generalize started : MatchWalk.on _ _ action splits = start at walk
  have fresh : MatchWalk.Matched c fullOnly start [] := started ▸ .start
  have matched := fresh.visits swa mamba longest.all (by simpa using longest.chain.fitted shape')
  rw [MatchWalk.visits_append] at walk
  obtain ⟨value, length, node⟩ := MatchWalk.visits_host swa mamba fullOnly gone
    (w := start.visits c fullOnly path)
  rw [← walk] at value length node
  rw [nil_append] at matched
  refine ⟨_, length ▸ matched.best, ?_, node.trans (length ▸ matched.node)⟩
  rw [← longest.chain.slots shape' longest.all, ← value.trans matched.collected]
  rfl

/-- The device match of a tree with Full and SWA whose gaps end a match: of all boundaries of the
device path along the key it is the last one at which the trailing window has all its SWA slots.
The path is that of the tree before the match, cut at the divergence, and in the tree the match
leaves it is the longest one. -/
theorem match_swa_window {r : Run π α} (reached : (treeMachine c).Reachable r)
    (only : MatchWalk.SwaOnly c) (key : List π) :
    ∃ path, path = r.core.devicePath c key.length 0 key ∧
      (r.core.matchPrefix c key false).1.Longest (fun d => d.evicted = false) 0 key path ∧
      IsGreatest {n | ∃ m ≤ path.length, n = tokens c (path.take m) ∧ Windowed c (path.take m)}
        (r.core.matchPrefix c key false).2.1.devicePrefixLen := by
  have kept := treeMachine_kept.reachable reached
  obtain ⟨-, -, -, -, -, -, longest⟩ := Core.matchWalk_visits kept.shape kept.residency key false
  obtain ⟨n, ⟨⟨low, may⟩, top⟩, length, -⟩ :=
    Core.matchWalk_best only.swa only.mamba kept.shape kept.residency key false
  refine ⟨_, rfl, longest, ?_⟩
  generalize r.core.devicePath c key.length 0 key = path at *
  have ends (path : List (Node π α)) : MatchWalk.MayEnd c false path ↔ Windowed c path := by
    simp [MatchWalk.MayEnd, endAccepted_gated only.gates]
  rw [length]
  refine ⟨⟨_, low, rfl, (ends _).mp may⟩, ?_⟩
  rintro _ ⟨m, le, rfl, windowed⟩
  exact tokens_take_mono c path (top ⟨le, (ends _).mpr windowed⟩)

/-- Single-token pages with a window of one token, whose gaps end a match or not. -/
def windowConfig (gates : Bool) : Config where
  pageSize := 1
  pageSize_pos := Nat.one_pos
  hasSwa := true
  hasMamba := false
  slidingWindowSize := 1
  window_pos := Nat.one_pos
  gatesPrefixMatch := gates
  enableHicache := false
  isWriteBack := false
  hasSwaHostPool := false
  writeThroughThreshold := 1
  mambaCheckpointGrid := 1
  mambaMaxStatesPerPath := none

/-- Two tokens, the first of them past its window. -/
def lateInsert : InsertParams Nat Nat := { plainInsert [1, 2] [10, 11] 0 with swaEvictedSeqlen := 1 }

/-- The tree a late insert leaves: the first token has no SWA slot, the second has one. -/
def lateTree (gates : Bool) : Run Nat Nat :=
  ((Run.step (windowConfig gates) ⟨.reset, [], [], none⟩ (.insert lateInsert)).getD
    ⟨.reset, [], [], none⟩)

lemma lateTree_reached (gates : Bool) :
    (treeMachine (windowConfig gates)).Reachable (lateTree gates) :=
  .step (.start rfl) ⟨rfl, (by decide : 2 * 1 ≤ 2)⟩ (a := .insert lateInsert) (by cases gates <;> rfl)

theorem match_swa_window_late :
    ((lateTree true).core.matchPrefix (windowConfig true) [1, 2, 3] false).2.1.devicePrefixLen = 2 ∧
    ∃ path, path = (lateTree true).core.devicePath (windowConfig true) 3 0 [1, 2, 3] ∧
      ((lateTree true).core.matchPrefix (windowConfig true) [1, 2, 3] false).1.Longest
        (fun d => d.evicted = false) 0 [1, 2, 3] path ∧
      IsGreatest {n | ∃ m ≤ path.length, n = tokens (windowConfig true) (path.take m) ∧
          Windowed (windowConfig true) (path.take m)}
        ((lateTree true).core.matchPrefix (windowConfig true) [1, 2, 3] false).2.1.devicePrefixLen :=
  ⟨by decide, match_swa_window (lateTree_reached true) ⟨rfl, rfl, rfl⟩ [1, 2, 3]⟩

/-- A match that asks Full alone, and one in a tree whose SWA does not gate matching, end on
the first token, which has no SWA slot. -/
theorem ungated_match_ends_in_gap : ((treeMachine (windowConfig true)).Reachable (lateTree true) ∧
      ((lateTree true).core.matchPrefix (windowConfig true) [1] true).2.1.devicePrefixLen = 1 ∧
      ((lateTree true).core.matchPrefix (windowConfig true) [1] true).1.nodes.all fun d =>
        decide (d.parent = 0 → swaSlots (windowConfig true) d = [none])) ∧
    (treeMachine (windowConfig false)).Reachable (lateTree false) ∧
      ((lateTree false).core.matchPrefix (windowConfig false) [1] false).2.1.devicePrefixLen = 1 ∧
      ((lateTree false).core.matchPrefix (windowConfig false) [1] false).1.nodes.all fun d =>
        decide (d.parent = 0 → swaSlots (windowConfig false) d = [none]) :=
  ⟨⟨lateTree_reached true, by decide, by decide⟩, lateTree_reached false, by decide, by decide⟩

end Sglang.Tree
