/-
# The radix cache refines a map from words to slots

What a radix cache is for: a partial map from page-aligned words of a namespace to the slots
of their last page (`Words`). An insert keeps slots for the prefixes that have none, an
eviction drops some, a match reads the longest prefix that has slots on every page and changes
nothing, and neither do locks.

* `Cache.Walk` — where a walk stands: what it has spelled and what is left of the key.
* `Shape.matchPrefix`, `Shape.insert`, `Shape.evict` — one operation each.
* `radixMachine` — the cache beside the map it stands for.
* `match_reads_longest` — in every reachable state a match answers from that map.
-/

import Mathlib.Data.Finset.Max
import Sglang.Lib.Machine
import Sglang.Radix.Shape

namespace Sglang.Radix

open Sglang.Lib List Option RadixKey

open RadixKey (atomAt getElem?_atoms len len_slice length_pages namespace_slice pages)

namespace Cache

variable {c : Config} {cache₀ cache cache' : Cache} {word pre : List Page} {node : Nat}
  {key : RadixKey} {child d new : TreeNode}

/-! ### Pages decide namespace and mode -/

variable {page : Page} {m fuel i : Nat}

lemma namespace_of_mem (mem : page ∈ key.pages c.pageSize) : page.1 = key.namespace_ := by
  obtain ⟨atoms, -, rfl⟩ := mem_map.mp mem
  rfl

section

variable (head : (key.pages c.pageSize).head? = some page)
include head

lemma namespace_of_head : page.1 = key.namespace_ := namespace_of_mem (mem_of_mem_head? head)

lemma atom_of_head : page.2[0]? = key.atoms[0]? ∧ 0 < key.len := by
  rw [pages, head?_map, head?_eq_getElem?] at head
  obtain ⟨chunk, first, rfl⟩ := map_eq_some_iff.mp head
  have count := (List.getElem?_eq_some_iff.mp first).1
  rw [length_chunks] at count
  rw [getElem?_chunks count, zero_mul] at first
  cases first
  refine ⟨getElem?_take_of_lt c.pageSize_pos, ?_⟩
  rw [length_atoms] at count
  exact Nat.pos_of_ne_zero fun zero => by rw [zero, Nat.zero_div] at count; omega

lemma mode_of_head : key.isBigram = true ↔ ∃ a b, page.2[0]? = some (.two a b) := by
  obtain ⟨first, pos⟩ := atom_of_head head
  have bound := key.rawLen_le
  rw [first, getElem?_atoms, if_pos pos, atomAt]
  unfold len at pos
  cases mode : key.isBigram
  · simp
  · rw [mode, if_pos rfl] at pos
    simp [getElem?_eq_getElem (by omega : 0 < key.tokenIds.length),
      getElem?_eq_getElem (by omega : 1 < key.tokenIds.length)]

end

/-! ### Walks -/

/-- A walk for `word` that has come to `node`; `key` is what is left of the key. -/
structure Walk (c : Config) (cache₀ : Cache) (word : List Page) (cache : Cache) (node : Nat)
    (key : RadixKey) : Prop where
  shape : cache.Shape c
  known : (trie c).Known cache.nodes node
  route : cache.route c node ++ key.pages c.pageSize = word
  aligned : c.pageSize ∣ key.len
  space : ∀ e ∈ cache.nodes, e.id = node → e.key.namespace_ = key.namespace_
  holds : ∀ word slots, cache.Holds c word slots ↔ cache₀.Holds c word slots
  /-- All that has happened to the tree is that nodes were split. -/
  cuts : Relation.ReflTransGen (Cut c) cache₀ cache

/-- No child of the node goes on as the key does. -/
def Stops (c : Config) (cache : Cache) (node : Nat) (key : RadixKey) : Prop :=
  key.len = 0 ∨ ∀ e ∈ cache.nodes, e.parent = node →
    (e.key.pages c.pageSize).head? ≠ (key.pages c.pageSize).head?

section

variable (walk : Walk c cache₀ word cache node key)
include walk

lemma Walk.first (left : key.len ≠ 0) : ∃ page, (key.pages c.pageSize).head? = some page ∧
      key.childKey c.pageSize = some (ChildKey.of page) := by
  have count : 0 < (key.pages c.pageSize).length := by
    rw [length_pages]
    exact Nat.div_pos (Nat.le_of_dvd (Nat.pos_of_ne_zero left) walk.aligned) c.pageSize_pos
  have head := head?_eq_some_head (ne_nil_of_length_pos count)
  exact ⟨_, head, by rw [childKey_eq c.pageSize_pos, head]; rfl⟩

/-- The walk ends: the tree has nothing for longer prefixes of the word. -/
lemma Walk.ends (stops : Stops c cache node key) (within : pre <+: word)
    (longer : (cache.route c node).length < pre.length) (slots : List Int) :
    ¬ cache.Holds c pre slots := by
  intro holds
  have prefix_ : cache.route c node <+: word := ⟨_, walk.route⟩
  have ahead := prefix_of_prefix_length_le prefix_ within longer.le
  obtain ⟨e, mem, up, head⟩ := walk.shape.tree.descend walk.known ahead longer holds
  have next : pre[(cache.route c node).length]? = (key.pages c.pageSize).head? := by
    obtain ⟨more, eq⟩ := within
    have before : (pre ++ more)[(cache.route c node).length]? = _ := getElem?_append_left longer
    rw [head?_eq_getElem?, ← before, eq, ← walk.route,
      getElem?_append_right (le_refl _), Nat.sub_self]
  rcases stops with done | apart
  · have length := within.length_le
    rw [← walk.route, length_append, length_pages, done, Nat.zero_div] at length
    omega
  · exact apart e mem up (head.trans next)

/-- The node's dictionary has nothing under the key's child key. -/
lemma Walk.stuck (head : (key.pages c.pageSize).head? = some page)
    (absent : cache.child? node (ChildKey.of page) = none) : Stops c cache node key := by
  refine .inr fun e mem parent heads => ?_
  obtain ⟨page', head', of⟩ := walk.shape.toForm.head mem
  apply edge_ne_of_child? absent mem parent
  rw [head', head] at heads
  rw [of, some.inj heads]

end

/-- The step of a walk onto a child, `m` pages of which the key shares. -/
structure Steps (c : Config) (cache : Cache) (node : Nat) (key : RadixKey) (child : TreeNode)
    (m : Nat) : Prop where
  mem : child ∈ cache.nodes
  parent : child.parent = node
  space : child.key.namespace_ = key.namespace_
  matched : child.key.match_ key c.pageSize = some (m * c.pageSize)
  pos : 0 < m
  right : m ≤ (key.pages c.pageSize).length
  same : (child.key.pages c.pageSize).take m = (key.pages c.pageSize).take m
  apart : m < (child.key.pages c.pageSize).length → m < (key.pages c.pageSize).length →
    (child.key.pages c.pageSize)[m]? ≠ (key.pages c.pageSize)[m]?

lemma Walk.steps (walk : Walk c cache₀ word cache node key)
    (head : (key.pages c.pageSize).head? = some page)
    (found : cache.child? node (ChildKey.of page) = some child) :
    ∃ m, Steps c cache node key child m := by
  obtain ⟨mem, parent, edge⟩ := mem_of_child? found
  obtain ⟨page', head', of⟩ := walk.shape.toForm.head mem
  obtain rfl : page' = page := ChildKey.of_injective (of.symm.trans edge)
  have space := (namespace_of_head head').symm.trans (namespace_of_head head)
  obtain ⟨m, matched, -, right, same, apart⟩ := matched_pages c.pageSize_pos space
    (Bool.eq_iff_iff.mpr ((mode_of_head head').trans (mode_of_head head).symm))
  refine ⟨m, mem, parent, space, matched, Nat.pos_of_ne_zero ?_, right, same, apart⟩
  rintro rfl
  rw [head?_eq_getElem?] at head head'
  exact apart (List.getElem?_eq_some_iff.mp head').1 (List.getElem?_eq_some_iff.mp head).1
    (head'.trans head.symm)

/-- What is left of the key after a step. -/
lemma Steps.rest (steps : Steps c cache node key child m)
    (walk : Walk c cache₀ word cache node key) :
    (key.slice (m * c.pageSize) key.len).pages c.pageSize = (key.pages c.pageSize).drop m ∧
      c.pageSize ∣ (key.slice (m * c.pageSize) key.len).len ∧
      (key.slice (m * c.pageSize) key.len).len < key.len := by
  have fits : m * c.pageSize ≤ key.len := by
    have right := steps.right
    rw [length_pages] at right
    exact (Nat.le_div_iff_mul_le c.pageSize_pos).mp right
  have pos : 0 < m * c.pageSize := Nat.mul_pos steps.pos c.pageSize_pos
  refine ⟨pages_slice_right .., ?_, ?_⟩
  · rw [len_slice, min_self]
    exact Nat.dvd_sub walk.aligned (Nat.dvd_mul_left _ _)
  · rw [len_slice]
    omega

section

variable (walk : Walk c cache₀ word cache node key) (steps : Steps c cache node key child m)
include walk steps

/-- The whole child is matched. -/
lemma Walk.step_whole (whole : ¬ m * c.pageSize < child.key.len) :
    Walk c cache₀ word cache child.id (key.slice (m * c.pageSize) key.len) := by
  obtain ⟨pages, aligned, -⟩ := steps.rest walk
  have all : (child.key.pages c.pageSize).take m = child.key.pages c.pageSize := by
    apply take_of_length_le
    rw [length_pages]
    exact Nat.div_le_of_le_mul (by rw [mul_comm]; omega)
  refine ⟨walk.shape, .tag steps.mem, ?_, aligned, ?_, walk.holds, walk.cuts⟩
  · have path := walk.shape.tree.route_tag steps.mem
    rw [show cache.route c child.id = _ from path, pages, ← walk.route]
    change cache.route c child.parent ++ child.key.pages c.pageSize ++ _ = _
    rw [steps.parent, ← all, steps.same, append_assoc, take_append_drop]
  · intro e mem named
    rw [walk.shape.tree.rooted.eq_of_tag mem steps.mem named, namespace_slice]
    exact steps.space

/-- Only a part of the child is matched, and becomes a node of its own. -/
lemma Walk.step_split (splits : Splits c cache child m cache' new)
    (inside : m < (child.key.pages c.pageSize).length) :
    Walk c cache₀ word cache' new.id (key.slice (m * c.pageSize) key.len) ∧
      Stops c cache' new.id (key.slice (m * c.pageSize) key.len) := by
  obtain ⟨pages, aligned, -⟩ := steps.rest walk
  refine ⟨⟨splits.shape, .tag splits.mem, ?_, aligned, ?_, ?_, walk.cuts.tail splits.cut⟩, ?_⟩
  · rw [splits.route, pages, steps.parent, steps.same, append_assoc, take_append_drop,
      walk.route]
  · intro e mem named
    rw [splits.shape.tree.rooted.eq_of_tag mem splits.mem named, splits.space,
      namespace_slice]
    exact steps.space
  · exact fun word slots => (splits.holds word slots).trans (walk.holds word slots)
  · by_cases more : m < (key.pages c.pageSize).length
    · refine .inr fun e mem parent => ?_
      rw [splits.below e mem parent, pages, head?_drop]
      exact steps.apart inside more
    · left
      rw [len_slice, min_self]
      obtain ⟨n, whole⟩ := walk.aligned
      have right := steps.right
      rw [length_pages, whole, Nat.mul_div_cancel_left _ c.pageSize_pos] at right more
      have same : m = n := by omega
      rw [whole, same, mul_comm, Nat.sub_self]

end

lemma Steps.split_inside (steps : Steps c cache node key child m) (shape : cache.Shape c)
    (cut : m * c.pageSize < child.key.len) : m < (child.key.pages c.pageSize).length := by
  obtain ⟨n, whole⟩ := shape.aligned child steps.mem
  rw [length_pages, whole, Nat.mul_div_cancel_left _ c.pageSize_pos]
  rw [whole, mul_comm c.pageSize] at cut
  exact Nat.lt_of_mul_lt_mul_right cut

/-! ### Matching -/

/-- The slots on the path of a node are those its pages stand for. -/
lemma Shape.pathDeviceIndices (shape : cache.Shape c) (i : Nat) :
    cache.pathDeviceIndices i = ((trie c).line cache.nodes i).flatten := by
  unfold Cache.pathDeviceIndices Trie.line
  rw [flatten_eq_flatMap, flatMap_assoc]
  apply flatMap_congr
  intro d on
  have mem := Links.mem_of_mem_spine (mem_reverse.mp on)
  change d.value = (chunks c.pageSize d.value).flatMap id
  rw [← flatten_eq_flatMap, flatten_chunks]
  rw [shape.valued d mem]
  exact shape.aligned d mem

lemma Shape.pathDeviceIndices_id (shape : cache.Shape c) (mem : d ∈ cache.nodes) :
    cache.pathDeviceIndices d.id = cache.pathDeviceIndices d.parent ++ d.value := by
  unfold Cache.pathDeviceIndices
  rw [show cache.spine d.id = d :: cache.spine d.parent from shape.tree.rooted.spine_tag mem]
  simp

/-- A match walk to its end. -/
lemma Walk.matchPrefixHelper (value : List (List Int)) (walk : Walk c cache₀ word cache node key)
    (enough : key.len ≤ fuel) (collected : value.flatten = cache.pathDeviceIndices node) :
    ∃ cache' value' node' key',
      cache.matchPrefixHelper c fuel node key value = some (cache', value', node') ∧
      Walk c cache₀ word cache' node' key' ∧ Stops c cache' node' key' ∧
      value'.flatten = cache'.pathDeviceIndices node' := by
  induction fuel generalizing cache node key value with
  | zero =>
    exact ⟨cache, value, node, key, rfl, walk, .inl (Nat.le_zero.mp enough), collected⟩
  | succ fuel ih =>
    unfold Cache.matchPrefixHelper
    by_cases done : key.len = 0
    · rw [if_pos done]
      exact ⟨cache, value, node, key, rfl, walk, .inl done, collected⟩
    rw [if_neg done]
    obtain ⟨page, head, childKey⟩ := walk.first done
    rw [childKey, bind_eq_bind, bind_some]
    cases found : cache.child? node (.of page) with
    | none => exact ⟨cache, value, node, key, rfl, walk, walk.stuck head found, collected⟩
    | some child =>
      obtain ⟨m, steps⟩ := walk.steps head found
      obtain ⟨-, -, shorter⟩ := steps.rest walk
      dsimp only
      rw [steps.matched, bind_eq_bind, bind_some]
      by_cases cut : m * c.pageSize < child.key.len
      · rw [if_pos cut]
        have inside := steps.split_inside walk.shape cut
        obtain ⟨cache', new, ran, splits⟩ :=
          walk.shape.splitNode steps.mem steps.pos inside
        obtain ⟨walk', stops⟩ := walk.step_split steps splits inside
        rw [ran]
        refine ⟨cache', value ++ [new.value], new.id, _, rfl, walk', stops, ?_⟩
        rw [flatten_append, collected, flatten_singleton,
          splits.shape.pathDeviceIndices_id splits.mem, splits.parent, splits.path, steps.parent]
      · rw [if_neg cut]
        apply ih _ (walk.step_whole steps cut) (by omega)
        rw [flatten_append, collected, flatten_singleton,
          walk.shape.pathDeviceIndices_id steps.mem, steps.parent]

/-- The words a key stands for in a cache. -/
def wordOf (c : Config) (key : RadixKey) : List Page := (viewOf c key).pages c.pageSize

lemma namespace_viewOf (c : Config) (key : RadixKey) :
    (viewOf c key).namespace_ = key.namespace_ := by
  unfold viewOf
  rw [namespace_pageAligned]
  unfold maybeToBigramView
  split <;> rfl

lemma aligned_viewOf (c : Config) (key : RadixKey) : c.pageSize ∣ (viewOf c key).len := by
  rw [viewOf, len_pageAligned]
  exact Nat.dvd_mul_left _ _

lemma Shape.start (shape : cache.Shape c) (key : RadixKey) :
    Walk c cache (wordOf c key) cache 0 (viewOf c key) where
  shape := shape
  known := .inl rfl
  route := by rw [show cache.route c 0 = [] from shape.tree.route_root]; rfl
  aligned := aligned_viewOf c key
  space e mem zero := absurd zero (shape.tree.rooted.tag_ne_root mem)
  holds _ _ := .rfl
  cuts := .refl

/-- What a match returns and leaves behind. -/
structure Matched (c : Config) (cache : Cache) (key : RadixKey) (cache' : Cache)
    (result : MatchResult) : Prop where
  shape : cache'.Shape c
  holds : ∀ word slots, cache'.Holds c word slots ↔ cache.Holds c word slots
  known : (trie c).Known cache'.nodes result.lastDeviceNode
  route : cache'.route c result.lastDeviceNode <+: wordOf c key
  length : result.devicePrefixLen = (cache'.pathDeviceIndices result.lastDeviceNode).length
  ends : ∀ pre, pre <+: wordOf c key →
    (cache'.route c result.lastDeviceNode).length < pre.length → ∀ slots, ¬ cache'.Holds c pre slots
  cuts : Relation.ReflTransGen (Cut c) cache cache'

/-- A match that does not look at the tree. -/
lemma Shape.matched_root (shape : cache.Shape c)
    (fresh : ∀ pre, pre <+: wordOf c key → pre ≠ [] → ∀ slots, ¬ cache.Holds c pre slots) :
    Matched c cache key cache ⟨0, 0⟩ where
  shape := shape
  holds _ _ := .rfl
  known := .inl rfl
  route := by
    rw [show cache.route c 0 = [] from shape.tree.route_root]
    exact nil_prefix
  length := by
    rw [shape.pathDeviceIndices, show (trie c).line cache.nodes 0 = [] from shape.tree.line_root]
    rfl
  ends pre within longer := fresh pre within (ne_nil_of_length_pos (Nat.zero_lt_of_lt longer))
  cuts := .refl

theorem Shape.matchPrefix (shape : cache.Shape c) (empty : c.disable = true → cache.nodes = [])
    (key : RadixKey) :
    ∃ cache' result, cache.matchPrefix c key = some (cache', result) ∧
      Matched c cache key cache' result := by
  unfold Cache.matchPrefix
  by_cases off : (c.disable || decide ((key.maybeToBigramView c.isEagle).len = 0)) = true
  · rw [if_pos off]
    refine ⟨cache, ⟨0, 0⟩, rfl, shape.matched_root fun pre within nonempty slots holds => ?_⟩
    rcases Bool.or_eq_true_iff.mp off with disabled | nothing
    · obtain ⟨d, mem, -⟩ := holds
      rw [empty disabled] at mem
      simp at mem
    · have length := within.length_le
      rw [wordOf, viewOf, pages_pageAligned c.pageSize_pos, length_pages,
        of_decide_eq_true nothing, Nat.zero_div] at length
      exact nonempty (eq_nil_of_length_eq_zero (Nat.le_zero.mp length))
  rw [if_neg off]
  change ∃ cache' result, (if (viewOf c key).len = 0 then _ else _) = _ ∧ _
  by_cases short : (viewOf c key).len = 0
  · rw [if_pos short]
    refine ⟨cache, ⟨0, 0⟩, rfl, shape.matched_root fun pre within nonempty _ _ => ?_⟩
    have length := within.length_le
    rw [wordOf, length_pages, short, Nat.zero_div] at length
    exact nonempty (eq_nil_of_length_eq_zero (Nat.le_zero.mp length))
  rw [if_neg short]
  obtain ⟨cache', value, node, rest, ran, walk, stops, collected⟩ :=
    (shape.start key).matchPrefixHelper [] (le_refl _) (by
      rw [shape.pathDeviceIndices,
        show (trie c).line cache.nodes 0 = [] from shape.tree.line_root])
  refine ⟨cache', _, congrArg (Option.map _) ran, walk.shape, walk.holds, walk.known,
    ⟨_, walk.route⟩, ?_, fun pre => walk.ends stops, walk.cuts⟩
  rw [← collected, length_flatten]

/-! ### Inserting -/

/-- An insert walk to its end: what is left of the slots belongs to what is left of the key. -/
lemma Walk.insertWalk (slots : List Int) (total : Nat) (walk : Walk c cache₀ word cache node key)
    (enough : key.len ≤ fuel) (spelled : total = (cache.route c node).length * c.pageSize) :
    ∃ cache' node' key' total', cache.insertWalk c fuel node key (slots.drop total) total =
        some (cache', node', key', slots.drop total', total') ∧
      Walk c cache₀ word cache' node' key' ∧ Stops c cache' node' key' ∧
      total' = (cache'.route c node').length * c.pageSize := by
  induction fuel generalizing cache node key total with
  | zero => exact ⟨cache, node, key, total, rfl, walk, .inl (Nat.le_zero.mp enough), spelled⟩
  | succ fuel ih =>
    unfold Cache.insertWalk
    by_cases done : key.len = 0
    · rw [if_pos done]
      exact ⟨cache, node, key, total, rfl, walk, .inl done, spelled⟩
    rw [if_neg done]
    obtain ⟨page, head, childKey⟩ := walk.first done
    rw [childKey, bind_eq_bind, bind_some]
    cases found : cache.child? node (.of page) with
    | none => exact ⟨cache, node, key, total, rfl, walk, walk.stuck head found, spelled⟩
    | some child =>
      obtain ⟨m, steps⟩ := walk.steps head found
      obtain ⟨pages, -, shorter⟩ := steps.rest walk
      -- the step spells the `m` pages it takes off the key
      have further : ∀ {cache' : Cache} {node' : Nat},
          Walk c cache₀ word cache' node' (key.slice (m * c.pageSize) key.len) →
          total + m * c.pageSize = (cache'.route c node').length * c.pageSize := by
        intro cache' node' walk'
        have lengths := congrArg length (walk.route.trans walk'.route.symm)
        rw [length_append, length_append, pages, length_drop] at lengths
        have right := steps.right
        rw [spelled, ← add_mul]
        congr 1
        omega
      dsimp only
      rw [steps.matched, bind_eq_bind, bind_some, drop_drop]
      by_cases cut : m * c.pageSize < child.key.len
      · rw [if_pos cut]
        have inside := steps.split_inside walk.shape cut
        obtain ⟨cache', new, ran, splits⟩ :=
          walk.shape.splitNode steps.mem steps.pos inside
        obtain ⟨walk', -⟩ := walk.step_split steps splits inside
        rw [ran]
        exact ih _ walk' (by omega) (further walk')
      · rw [if_neg cut]
        have walk' := walk.step_whole steps cut
        exact ih _ walk' (by omega) (further walk')

/-- The tree keeps what the map says. -/
def Refines (c : Config) (cache : Cache) (M : Words Page (List Int)) : Prop :=
  ∀ word slots, M word = some slots ↔ cache.Holds c word slots

variable {M : Words Page (List Int)} {pop : Finset Nat → Nat} {heap : Finset Nat}

lemma Refines.none (refines : Refines c cache M)
    (unheld : ∀ slots, ¬ cache.Holds c word slots) : M word = none :=
  eq_none_iff_forall_not_mem.mpr fun slots has => unheld slots ((refines word slots).mp has)

/-- The tree has slots on every page of what a node spells. -/
lemma Walk.held (walk : Walk c cache₀ word cache node key) (refines : Refines c cache M)
    (within : pre <+: word) (nonempty : pre ≠ [])
    (short : pre.length ≤ (cache.route c node).length) : M pre ≠ none := by
  have path : pre <+: cache.route c node :=
    prefix_of_prefix_length_le within ⟨_, walk.route⟩ short
  have pos := length_pos_iff.mpr nonempty
  obtain ⟨slots, -, holds⟩ := walk.shape.tree.holds_route walk.known
    (show pre.length - 1 < ((trie c).route cache.nodes node).length by
      change _ < (cache.route c node).length
      omega)
  have same : ((trie c).route cache.nodes node).take (pre.length - 1 + 1) = pre := by
    rw [Nat.sub_add_cancel pos]
    exact (prefix_iff_eq_take.mp path).symm
  rw [same] at holds
  rw [(refines pre slots).mpr holds]
  exact some_ne_none _

/-- The walk's end and the slots left: an insert keeps them for the prefixes without any. -/
lemma Walk.insert_map {vals : List (List Int)} (walk : Walk c cache₀ word cache node key)
    (stops : Stops c cache node key) (refines : Refines c cache M) {slots : List Int} :
    (M.insert word vals) pre = some slots ↔ cache.Holds c pre slots ∨
      ∃ j, pre = cache.route c node ++ (key.pages c.pageSize).take (j + 1) ∧
        j < (key.pages c.pageSize).length ∧
        (vals.drop (cache.route c node).length)[j]? = some slots := by
  have length := congrArg length walk.route
  rw [length_append] at length
  by_cases new : pre <+: word ∧ (cache.route c node).length < pre.length
  · obtain ⟨within, longer⟩ := new
    have missing := refines.none (walk.ends stops within longer)
    have nonempty : pre ≠ [] := ne_nil_of_length_pos (Nat.zero_lt_of_lt longer)
    have le := within.length_le
    have spelled : ∀ j, pre = cache.route c node ++ (key.pages c.pageSize).take (j + 1) ∧
        j < (key.pages c.pageSize).length ↔ j = pre.length - 1 - (cache.route c node).length := by
      intro j
      constructor
      · rintro ⟨eq, lt⟩
        have lengths := congrArg List.length eq
        rw [length_append, length_take] at lengths
        omega
      · intro eq
        refine ⟨?_, by omega⟩
        rw [prefix_iff_eq_take.mp within, ← walk.route, take_append, take_of_length_le longer.le]
        congr 2
        omega
    rw [Words.insert, if_pos ⟨nonempty, within, missing⟩]
    constructor
    · intro at_
      refine .inr ⟨_, ((spelled _).mpr rfl).1, ((spelled _).mpr rfl).2, ?_⟩
      rw [getElem?_drop, ← at_]
      congr 1
      omega
    · rintro (holds | ⟨j, eq, lt, at_⟩)
      · exact absurd holds (walk.ends stops within longer slots)
      · rw [getElem?_drop] at at_
        rw [← at_]
        congr 1
        have same := (spelled j).mp ⟨eq, lt⟩
        omega
  · rw [Words.insert, if_neg, refines pre slots]
    · refine ⟨.inl, ?_⟩
      rintro (holds | ⟨j, rfl, lt, -⟩)
      · exact holds
      · refine absurd ⟨?_, ?_⟩ new
        · rw [← walk.route]
          exact (prefix_append_right_inj _).mpr <| take_prefix _ _
        · rw [length_append, length_take]
          omega
    · rintro ⟨nonempty, within, missing⟩
      refine walk.held refines within nonempty ?_ missing
      exact Nat.le_of_not_lt fun longer => new ⟨within, longer⟩

/-- The slots of an insert cover the key it works with. -/
def Covers (c : Config) (key : RadixKey) (value : Option (List Int)) : Prop :=
  (slotsOf c key value).length = (viewOf c key).len

/-- What an insert does to the tree: some nodes are split, and there may be a new leaf. -/
def Inserts (c : Config) (cache cache' : Cache) : Prop :=
  ∃ mid, Relation.ReflTransGen (Cut c) cache mid ∧ (cache' = mid ∨
    ∃ node key value new, Fits c mid node key value ∧
      mid.addLeaf c node key value = some (cache', new))

theorem Shape.insert {value : Option (List Int)} (shape : cache.Shape c)
    (refines : Refines c cache M) (covers : Covers c key value) (on : c.disable = false) :
    ∃ cache' result, cache.insert c key value = some (cache', result) ∧ cache'.Shape c ∧
      Refines c cache' (M.insert (wordOf c key) (chunks c.pageSize (slotsOf c key value))) ∧
      Inserts c cache cache' := by
  obtain ⟨cache₁, node, rest, total, ran, walk, stops, spelled⟩ :=
    (shape.start key).insertWalk (slotsOf c key value) 0 (le_refl _) (by
      rw [show cache.route c 0 = [] from shape.tree.route_root]
      simp)
  have refines' : Refines c cache₁ M := fun word slots =>
    (refines word slots).trans (walk.holds word slots).symm
  rw [Cache.insert, on, insertHelper]
  rw [drop_zero] at ran
  rw [ran, bind_eq_bind, bind_some]
  dsimp only
  have length := congrArg length walk.route
  rw [length_append] at length
  by_cases done : rest.len = 0
  · rw [if_pos done]
    refine ⟨cache₁, _, rfl, walk.shape,
      fun word slots => (walk.insert_map stops refines').trans ?_, cache₁, walk.cuts, .inl rfl⟩
    refine ⟨?_, .inl⟩
    rintro (holds | ⟨j, -, lt, -⟩)
    · exact holds
    · rw [length_pages, done, Nat.zero_div] at lt
      exact absurd lt (Nat.not_lt_zero j)
  · rw [if_neg done]
    obtain ⟨page, head, -⟩ := walk.first done
    have pages : rest.pages c.pageSize ≠ [] := fun nil => by simp [nil] at head
    have whole : (viewOf c key).len = (wordOf c key).length * c.pageSize := by
      rw [wordOf, length_pages, Nat.div_mul_cancel (aligned_viewOf c key)]
    have left : rest.len = (rest.pages c.pageSize).length * c.pageSize := by
      rw [length_pages, Nat.div_mul_cancel walk.aligned]
    have fits : Fits c cache₁ node rest ((slotsOf c key value).drop total) := by
      refine ⟨walk.known, pages, walk.aligned, ?_, ?_, walk.space⟩
      · rw [length_drop, covers, whole, ← length, add_mul, spelled, left,
          Nat.add_sub_cancel_left]
      · exact stops.resolve_left done
    obtain ⟨cache', new, added, grown⟩ := walk.shape.addLeaf fits
    rw [added]
    refine ⟨cache', _, rfl, grown.shape, fun word slots => ?_,
      cache₁, walk.cuts, .inr ⟨node, rest, _, new, fits, added⟩⟩
    rw [grown.holds, walk.insert_map stops refines', spelled, chunks_drop]
    refine or_congr .rfl (exists_congr fun j => and_congr_right fun _ => ?_)
    apply and_iff_right_of_imp
    intro at_
    have bound := (List.getElem?_eq_some_iff.mp at_).1
    rw [length_drop, length_chunks, covers, whole, Nat.mul_div_cancel _ c.pageSize_pos] at bound
    omega

/-! ### Evicting -/

/-- Nodes without children, ready to be deleted. -/
def Ready (cache : Cache) (heap : Finset Nat) : Prop :=
  ∀ i ∈ heap, i ∈ links.tags cache.nodes ∧ ∀ e ∈ cache.nodes, e.parent ≠ i

/-- The heap after a node is deleted, its parent pushed or not. -/
lemma Ready.pushed (ready : Ready cache heap)
    (nodes : cache'.nodes = cache.nodes.filter fun e => decide (e.id ≠ d.id)) :
    Ready cache' (if !cache'.hasChildren d.parent &&
      (cache'.find? d.parent).any fun p => decide (p.lockRef = 0)
      then Insert.insert d.parent (heap.erase d.id) else heap.erase d.id) := by
  have old : Ready cache' (heap.erase d.id) := by
    intro i inside
    obtain ⟨other, mem⟩ := Finset.mem_erase.mp inside
    obtain ⟨named, childless⟩ := ready i mem
    obtain ⟨e, stored, tag⟩ := mem_map.mp named
    rw [nodes]
    refine ⟨mem_map.mpr ⟨e, mem_filter.mpr ⟨stored, decide_eq_true ?_⟩, tag⟩,
      fun x kept => childless x (mem_of_mem_filter kept)⟩
    exact fun same => other (tag.symm.trans same)
  split
  · rename_i leaf
    rw [Bool.and_eq_true, Bool.not_eq_true'] at leaf
    intro i inside
    rcases Finset.mem_insert.mp inside with rfl | mem
    · cases found : cache'.find? d.parent with
      | none => simp [found] at leaf
      | some p =>
        obtain ⟨stored, named⟩ := mem_of_find? found
        exact ⟨named ▸ Links.mem_tags stored, not_hasChildren leaf.1⟩
    · exact old i mem
  · exact old

lemma Shape.evictLoop (numTokens fuel : Nat)
    {e : Evicted} (pops : ∀ heap : Finset Nat, heap.Nonempty → pop heap ∈ heap)
    (shape : e.cache.Shape c) (ready : Ready e.cache heap) :
    ∃ e' more, Cache.evictLoop c pop numTokens fuel heap e = some e' ∧ e'.cache.Shape c ∧
      e'.gone = e.gone ++ more ∧
      ∀ word slots, e'.cache.Holds c word slots ↔ e.cache.Holds c word slots ∧ word ∉ more := by
  induction fuel generalizing heap e with
  | zero => exact ⟨e, [], rfl, shape, by simp, by simp⟩
  | succ fuel ih =>
    unfold Cache.evictLoop
    by_cases busy : e.freed.length < numTokens ∧ heap.Nonempty
    · rw [if_pos busy]
      obtain ⟨named, childless⟩ := ready _ (pops heap busy.2)
      obtain ⟨d, mem, tag⟩ := mem_map.mp named
      have same : d.id = pop heap := tag
      rw [← same] at childless ⊢
      rw [shape.toForm.find? mem, bind_eq_bind, bind_some]
      obtain ⟨cache', ran, shape', nodes, holds⟩ := shape.deleteLeaf mem childless
      rw [ran]
      obtain ⟨e', more, rest, final, gone, holds'⟩ :=
        ih (e := ⟨cache', e.freed ++ d.value, e.gone ++ e.cache.words c d⟩) shape'
          (ready.pushed nodes)
      refine ⟨e', e.cache.words c d ++ more, rest, final, ?_, fun word slots => ?_⟩
      · rw [gone, append_assoc]
      · rw [holds', holds, mem_append, not_or, and_assoc]
    · rw [if_neg busy]
      exact ⟨e, [], rfl, shape, by simp, by simp⟩

theorem Shape.evict (numTokens : Nat) (shape : cache.Shape c)
    (refines : Refines c cache M) (pops : ∀ heap : Finset Nat, heap.Nonempty → pop heap ∈ heap) :
    ∃ e, cache.evict c numTokens pop = some e ∧ e.cache.Shape c ∧
      Refines c e.cache (M.forget e.gone) ∧ (c.disable = true → e.cache = cache) := by
  have forget : ∀ {cache' : Cache} {gone : List (List Page)},
      (∀ word slots, cache'.Holds c word slots ↔ cache.Holds c word slots ∧ word ∉ gone) →
      Refines c cache' (M.forget gone) := by
    intro cache' gone holds word slots
    rw [holds, ← refines word slots, Words.forget]
    by_cases dropped : word ∈ gone <;> simp [dropped]
  unfold Cache.evict
  by_cases off : c.disable = true
  · rw [if_pos off]
    exact ⟨⟨cache, [], []⟩, rfl, shape, forget (by simp), fun _ => rfl⟩
  · rw [if_neg off]
    obtain ⟨e, more, ran, final, gone, holds⟩ :=
      Shape.evictLoop numTokens cache.nodes.length (e := ⟨cache, [], []⟩)
        pops shape shape.leaves
    exact ⟨e, ran, final, forget (gone ▸ holds), fun on => absurd on off⟩

/-! ### What a key matches -/

/-- What a match tells its caller: a length, and the slots on the path of the node returned. -/
def answer (c : Config) (cache : Cache) (key : RadixKey) : Option (Nat × List Int) :=
  (cache.matchPrefix c key).map fun (cache', result) =>
    (result.devicePrefixLen, cache'.pathDeviceIndices result.lastDeviceNode)

lemma Shape.length_pathDeviceIndices (shape : cache.Shape c)
    (known : (trie c).Known cache.nodes i) :
    (cache.pathDeviceIndices i).length = (cache.route c i).length * c.pageSize := by
  refine shape.tree.rooted.induct (motive := fun i =>
    (cache.pathDeviceIndices i).length = (cache.route c i).length * c.pageSize) ?_ ?_ known
  · rw [shape.pathDeviceIndices, shape.tree.line_root, route, shape.tree.route_root]
    simp
  · intro d mem above
    have path : cache.pathDeviceIndices ((trie c).tag d) = _ := shape.pathDeviceIndices_id mem
    have spelled : cache.route c ((trie c).tag d) = _ := shape.tree.route_tag mem
    rw [path, spelled, length_append, length_append, shape.valued d mem, add_mul]
    congr 1
    change _ = (d.key.pages c.pageSize).length * _
    rw [length_pages, Nat.div_mul_cancel (shape.aligned d mem)]

lemma Matched.line {result : MatchResult} (matched : Matched c cache key cache' result)
    (refines : Refines c cache M) :
    M.read [] (wordOf c key) = (trie c).line cache'.nodes result.lastDeviceNode := by
  have refines' : Refines c cache' M := fun word slots =>
    (refines word slots).trans (matched.holds word slots).symm
  have tree := matched.shape.tree
  apply Words.read_eq matched.route.length_le (tree.length_line matched.known)
  · intro j lt
    obtain ⟨slots, at_, holds⟩ := tree.holds_route matched.known lt
    rw [at_]
    have same : (wordOf c key).take (j + 1) =
        ((trie c).route cache'.nodes result.lastDeviceNode).take (j + 1) := by
      obtain ⟨more, eq⟩ := matched.route
      rw [← eq, take_append_of_le_length lt]
      rfl
    rw [same]
    exact (refines' _ slots).mpr holds
  · intro lt
    rw [nil_append]
    refine refines'.none (matched.ends _ (List.take_prefix _ _) ?_)
    rw [length_take]
    omega

/-- A match reads the map. -/
lemma Shape.answer (shape : cache.Shape c) (empty : c.disable = true → cache.nodes = [])
    (refines : Refines c cache M) (key : RadixKey) :
    Cache.answer c cache key = some ((M.read [] (wordOf c key)).length * c.pageSize,
      (M.read [] (wordOf c key)).flatten) := by
  obtain ⟨cache', result, ran, matched⟩ := shape.matchPrefix empty key
  rw [Cache.answer, ran, map_some, matched.line refines]
  dsimp only
  rw [matched.length, matched.shape.length_pathDeviceIndices matched.known,
    matched.shape.pathDeviceIndices, matched.shape.tree.length_line matched.known]
  rfl

/-- A node that a key's word reaches has the key's namespace. -/
lemma Shape.namespace_of_reached (shape : cache.Shape c) (mem : d ∈ cache.nodes)
    (reached : cache.route c d.parent ++ (d.key.pages c.pageSize).take 1 <+: wordOf c key) :
    d.key.namespace_ = key.namespace_ := by
  obtain ⟨page, head, -⟩ := shape.toForm.head mem
  have inside : page ∈ (d.key.pages c.pageSize).take 1 := by
    cases pages : d.key.pages c.pageSize with
    | nil => simp [pages] at head
    | cons first rest =>
      rw [pages] at head
      simpa using head.symm
  have spelled := reached.subset (mem_append_right _ inside)
  rw [← namespace_of_head head, namespace_of_mem spelled, namespace_viewOf]

end Cache

/-! ### Runs -/

/-- The cache, and the map it stands for. -/
structure Stored where
  cache : Cache
  map : Words Page (List Int)

inductive Op where
  | insert (key : RadixKey) (value : Option (List Int))
  | matchPrefix (key : RadixKey)
  | evict (numTokens : Nat) (pop : Finset Nat → Nat)
  | incLockRef (node : Nat)
  | decLockRef (node : Nat)

/-- What callers promise: a slot for every token, a heap that yields what it holds, and locks
on nodes of the tree. -/
def Op.Allowed (c : Config) (s : Stored) : Op → Prop
  | .insert key value => Cache.Covers c key value
  | .matchPrefix _ => True
  | .evict _ pop => ∀ heap : Finset Nat, heap.Nonempty → pop heap ∈ heap
  | .incLockRef node => (trie c).Known s.cache.nodes node
  | .decLockRef node => (trie c).Known s.cache.nodes node

/-- An operation on the cache, and on the map: an insert keeps slots for the prefixes that have
none, an eviction drops those it reports, everything else changes nothing. -/
def Op.run (c : Config) (s : Stored) : Op → Option Stored
  | .insert key value => (s.cache.insert c key value).map fun (cache, _) =>
    ⟨cache, if c.disable then s.map
      else s.map.insert (Cache.wordOf c key) (chunks c.pageSize (Cache.slotsOf c key value))⟩
  | .matchPrefix key => (s.cache.matchPrefix c key).map fun (cache, _) => ⟨cache, s.map⟩
  | .evict numTokens pop => (s.cache.evict c numTokens pop).map fun e =>
    ⟨e.cache, s.map.forget e.gone⟩
  | .incLockRef node => some ⟨s.cache.incLockRef c node, s.map⟩
  | .decLockRef node => some ⟨s.cache.decLockRef c node, s.map⟩

def radixMachine (c : Config) : Machine Stored Op where
  start s := s = ⟨.reset, .empty⟩
  allowed := Op.Allowed c
  step := Op.run c

structure Faithful (c : Config) (s : Stored) : Prop where
  shape : s.cache.Shape c
  refines : Cache.Refines c s.cache s.map
  off : c.disable = true → s.cache.nodes = []

lemma faithful_reset (c : Config) : Faithful c ⟨.reset, .empty⟩ where
  shape := Cache.shape_reset c
  refines word slots := by
    constructor
    · intro absent
      cases absent
    · rintro ⟨d, mem, -⟩
      cases mem
  off _ := rfl

lemma Faithful.addLocks {c : Config} {s : Stored} (faithful : Faithful c s) (delta : Int)
    (path : List TreeNode) :
    Faithful c ⟨if c.disable then s.cache else path.foldl (Cache.addLock delta) s.cache, s.map⟩ := by
  by_cases disabled : c.disable = true
  · rw [if_pos disabled]
    exact faithful
  · rw [if_neg disabled]
    obtain ⟨shape, same⟩ := faithful.shape.addLocks delta path
    exact ⟨shape, fun word slots => (faithful.refines word slots).trans (same word slots).symm,
      fun on => absurd on disabled⟩

/-- No operation raises, and each does to the cache what it does to the map. -/
lemma Faithful.step {c : Config} {s : Stored} (op : Op) (faithful : Faithful c s)
    (ok : op.Allowed c s) : ∃ s', op.run c s = some s' ∧ Faithful c s' := by
  have ⟨shape, refines, off⟩ := faithful
  cases op with
  | insert key value =>
    cases on : c.disable with
    | true =>
      refine ⟨s, ?_, shape, refines, fun _ => off on⟩
      simp [Op.run, Cache.insert, on]
    | false =>
      obtain ⟨cache', result, ran, shape', refines', -⟩ := shape.insert refines ok on
      refine ⟨_, congrArg (Option.map _) ran, shape', ?_, fun disabled => ?_⟩
      · simpa [on] using refines'
      · exact absurd disabled (by simp [on])
  | matchPrefix key =>
    obtain ⟨cache', result, ran, matched⟩ := shape.matchPrefix off key
    refine ⟨_, congrArg (Option.map _) ran, matched.shape,
      fun word slots => (refines word slots).trans (matched.holds word slots).symm, fun on => ?_⟩
    have same : s.cache.matchPrefix c key = some (s.cache, ⟨0, 0⟩) := by
      simp [Cache.matchPrefix, on]
    rw [same] at ran
    cases ran
    exact off on
  | evict numTokens pop =>
    obtain ⟨e, ran, shape', refines', same⟩ :=
      shape.evict numTokens refines ok
    exact ⟨_, congrArg (Option.map _) ran, shape', refines', fun on =>
      (congrArg Cache.nodes (same on)).trans (off on)⟩
  | incLockRef node => exact ⟨_, rfl, faithful.addLocks 1 (s.cache.spine node)⟩
  | decLockRef node => exact ⟨_, rfl, faithful.addLocks (-1) (s.cache.spine node)⟩

lemma radix_faithful (c : Config) : (radixMachine c).Inductive (Faithful c) where
  start s first := by
    obtain rfl : s = ⟨.reset, .empty⟩ := first
    exact faithful_reset c
  step s op s' faithful ok ran := by
    obtain ⟨t, ran', faithful'⟩ := faithful.step op ok
    cases ran'.symm.trans ran
    exact faithful'

/-- After any run, a match returns the slots the map keeps for the longest prefix of the key all
of whose pages have some; it changes no answer, and no node is on the words of two namespaces. -/
theorem match_reads_longest {c : Config} {s : Stored} (reached : (radixMachine c).Reachable s)
    (key : RadixKey) :
    let word := Cache.wordOf c key
    let kept := s.map.read [] word
    Cache.answer c s.cache key = some (kept.length * c.pageSize, kept.flatten) ∧
    IsGreatest {n | n ≤ word.length ∧ ∀ j < n, (s.map (word.take (j + 1))).isSome = true}
      kept.length ∧
    (∀ j < kept.length, s.map (word.take (j + 1)) = kept[j]?) ∧
    (∃ cache' result, s.cache.matchPrefix c key = some (cache', result) ∧
      ∀ other, Cache.answer c cache' other = Cache.answer c s.cache other) ∧
    ∀ d ∈ s.cache.nodes, s.cache.route c d.parent ++ (d.key.pages c.pageSize).take 1 <+: word →
        d.key.namespace_ = key.namespace_ := by
  have faithful := (radix_faithful c).reachable reached
  refine ⟨faithful.shape.answer faithful.off faithful.refines key, Words.read_greatest_from _ [] _,
    fun j => Words.read_getElem?_from, ?_,
    fun d => faithful.shape.namespace_of_reached⟩
  obtain ⟨s', ran, faithful'⟩ := faithful.step (.matchPrefix key) trivial
  obtain ⟨⟨cache', result⟩, matched, rfl⟩ := map_eq_some_iff.mp ran
  refine ⟨cache', result, matched, fun other => ?_⟩
  rw [faithful.shape.answer faithful.off faithful.refines other]
  exact faithful'.shape.answer faithful'.off faithful'.refines other

/-- Pages of two tokens. -/
def pairs : Config := ⟨2, by decide, false, false⟩

/-- A key of the namespace `a`. -/
def spaceKey (tokens : List Int) : RadixKey := ⟨tokens, some "a", false, none, none, by decide⟩

/-- Pop the smallest node. -/
def popMin (heap : Finset Nat) : Nat := (heap.min).untopD 0

lemma popMin_mem (heap : Finset Nat) (nonempty : heap.Nonempty) : popMin heap ∈ heap := by
  obtain ⟨i, least⟩ := Finset.min_of_nonempty nonempty
  rw [popMin, least]
  exact Finset.mem_of_min least

/-- The slots `n`, `n + 1`, `n + 2` and `n + 3` for a key of two pages. -/
def insertAt (tokens : List Int) (n : Int) : Op :=
  .insert (spaceKey tokens) (some [n, n + 1, n + 2, n + 3])

/-- Two keys that share their first page. -/
def forked : Stored :=
  (((insertAt [1, 2, 3, 4] 10).run pairs ⟨.reset, .empty⟩).bind
    ((insertAt [1, 2, 5, 6] 20).run pairs)).getD ⟨.reset, .empty⟩

lemma reachable_forked : (radixMachine pairs).Reachable forked := by
  have covers : Cache.Covers pairs (spaceKey [1, 2, 3, 4]) (some [10, 11, 12, 13]) := rfl
  have covers' : Cache.Covers pairs (spaceKey [1, 2, 5, 6]) (some [20, 21, 22, 23]) := rfl
  have first : (radixMachine pairs).Reachable ⟨.reset, .empty⟩ := .start rfl
  have long := first.step (a := insertAt [1, 2, 3, 4] 10) covers rfl
  exact long.step (a := insertAt [1, 2, 5, 6] 20) covers' rfl

theorem match_reads_longest_forks : ∃ s, (radixMachine pairs).Reachable s ∧
    Cache.answer pairs s.cache (spaceKey [1, 2, 3, 4, 7]) = some (2, [10, 11]) := by
  have fewer := reachable_forked.step (a := Op.evict 1 popMin) popMin_mem rfl
  exact ⟨_, fewer, (match_reads_longest fewer (spaceKey [1, 2, 3, 4, 7])).1.trans rfl⟩

/-- After any run, no operation that its caller may ask for raises, and each leaves the shape. -/
theorem operations_complete {c : Config} {s : Stored} {op : Op}
    (reached : (radixMachine c).Reachable s) (ok : op.Allowed c s) :
    ∃ s', op.run c s = some s' ∧ s'.cache.Shape c := by
  obtain ⟨s', ran, faithful⟩ := ((radix_faithful c).reachable reached).step op ok
  exact ⟨s', ran, faithful.shape⟩

/-- One of the two leaves is locked; an eviction takes the other. -/
theorem operations_complete_evict : ∃ s s', (radixMachine pairs).Reachable s ∧
    s.cache.nodes.map TreeNode.lockRef = [0, 1, 1] ∧ (Op.evict 1 popMin).run pairs s = some s' ∧
    s'.cache.Shape pairs := by
  have known : (trie pairs).Known forked.cache.nodes 1 := .inr (by decide)
  have locked := reachable_forked.step (a := Op.incLockRef 1) known rfl
  obtain ⟨s', ran, shape⟩ :=
    operations_complete locked (show Op.Allowed pairs _ (.evict 1 popMin) from popMin_mem)
  exact ⟨_, s', locked, by decide, ran, shape⟩

end Sglang.Radix
