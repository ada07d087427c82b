/-
# Radix trees over parent links

The nodes of a `Links` arena that spell runs of letters and keep one value per letter. What
such a tree means is a partial map from words to values: `Trie.Holds` says which value it
keeps for the last letter of a word.

* `Trie.Shape` — runs are never empty and siblings differ in their first letter.
* `Shape.holds_unique`, `Shape.descend` — one value a word, and a word that goes on below a
  node goes on in a child of it.
* `holds_map`, `Shape.holds_expand`, `Shape.holds_cons`, `Shape.holds_remove` — what edits of
  the tree do to the map.
* `Words` — the map itself, and reading it along a word.
-/

import Mathlib.Order.Bounds.Basic
import Sglang.Lib.Arena

namespace Sglang.Lib

open List Nat

open Links (mem_expand mem_of_mem_spine mem_tags)

/-- How a stored node spells a run of letters, and what it keeps for each. -/
structure Trie (δ ι P β : Type*) extends Links δ ι where
  key : δ → List P
  vals : δ → List β

namespace Trie

variable {δ ι P β : Type*} (k : Trie δ ι P β)

/-- A name the tree knows. -/
def Known (ds : List δ) (n : ι) : Prop := n = k.root ∨ n ∈ k.tags ds

structure Shape (ds : List δ) : Prop where
  rooted : k.Rooted ds
  keyed : ∀ d ∈ ds, k.key d ≠ []
  sized : ∀ d ∈ ds, (k.vals d).length = (k.key d).length
  apart : ∀ d ∈ ds, ∀ e ∈ ds, k.up d = k.up e → (k.key d).head? = (k.key e).head? → k.tag d = k.tag e

section

variable {k} {ds : List δ} {d : δ}

lemma Known.tag (mem : d ∈ ds) : k.Known ds (k.tag d) := .inr (mem_tags mem)

lemma Shape.up_known (shape : k.Shape ds) (mem : d ∈ ds) : k.Known ds (k.up d) :=
  shape.rooted.up_mem mem

end

variable [DecidableEq ι]

/-- The word from the root down to a node. -/
def route (ds : List δ) (n : ι) : List P := (k.spine ds n).reverse.flatMap k.key

/-- The values from the root down to a node. -/
def line (ds : List δ) (n : ι) : List β := (k.spine ds n).reverse.flatMap k.vals

/-- The tree keeps `b` for the last letter of `word`. -/
def Holds (ds : List δ) (word : List P) (b : β) : Prop :=
  ∃ d ∈ ds, ∃ j, word = k.route ds (k.up d) ++ (k.key d).take (j + 1) ∧ (k.vals d)[j]? = some b

variable {k} {ds : List δ} {d e : δ} {n m : ι} {word : List P} {b b' : β} {f : δ → δ}

namespace Shape

variable (shape : k.Shape ds)
include shape

lemma route_root : k.route ds k.root = [] := by
  rw [route, shape.rooted.spine_root]
  rfl

lemma line_root : k.line ds k.root = [] := by
  rw [line, shape.rooted.spine_root]
  rfl

lemma route_tag (mem : d ∈ ds) : k.route ds (k.tag d) = k.route ds (k.up d) ++ k.key d := by
  simp [route, shape.rooted.spine_tag mem]

lemma line_tag (mem : d ∈ ds) : k.line ds (k.tag d) = k.line ds (k.up d) ++ k.vals d := by
  simp [line, shape.rooted.spine_tag mem]

lemma length_line (known : k.Known ds n) : (k.line ds n).length = (k.route ds n).length := by
  refine shape.rooted.induct (motive := fun n => (k.line ds n).length = (k.route ds n).length)
    ?_ ?_ known
  · rw [shape.line_root, shape.route_root]
    rfl
  · intro d mem above
    rw [shape.line_tag mem, shape.route_tag mem, length_append, length_append, above,
      shape.sized d mem]

/-! ### Words and paths -/

/-- A node above another spells a prefix of what the other spells. -/
lemma route_isPrefix (on : e ∈ k.spine ds n) : k.route ds (k.tag e) <+: k.route ds n := by
  obtain ⟨low, eq⟩ := shape.rooted.spine_suffix on
  rw [route, route, ← eq, reverse_append, flatMap_append]
  exact prefix_append _ _

/-- The child through which a path leaves a node continues the node's word. -/
lemma child_head (on : e ∈ k.spine ds n) :
    (k.key e).head? = (k.route ds n)[(k.route ds (k.up e)).length]? := by
  have mem := mem_of_mem_spine on
  obtain ⟨more, eq⟩ := shape.route_isPrefix on
  rw [← eq, shape.route_tag mem, append_assoc, getElem?_append_right le_rfl,
    Nat.sub_self, head?_eq_getElem?]
  have pos := length_pos_iff.mpr (shape.keyed e mem)
  rw [getElem?_append_left pos]

/-- A word on from the parent of a node, and on into the node's own key, passes through it. -/
lemma tag_on_spine (mem : d ∈ ds) (known : k.Known ds m)
    (above : k.up d = k.root ∨ k.up d ∈ k.tags (k.spine ds m))
    (pre : k.route ds (k.up d) ++ (k.key d).take 1 <+: k.route ds m) :
    k.tag d ∈ k.tags (k.spine ds m) := by
  have pos := length_pos_iff.mpr (shape.keyed d mem)
  have length := pre.length_le
  rw [length_append, length_take] at length
  have other : k.up d ≠ m := fun same => by
    rw [same] at length
    omega
  -- the path leaves the parent through a child that starts as `d` does
  obtain ⟨e, on, up⟩ := shape.rooted.child_on_spine known above other
  have head := shape.child_head on
  obtain ⟨more, eq⟩ := pre
  rw [up, ← eq, append_assoc, getElem?_append_right le_rfl, Nat.sub_self,
    getElem?_append_left (by rw [length_take]; omega),
    getElem?_take_of_lt one_pos, ← head?_eq_getElem?] at head
  have same := shape.apart d mem e (mem_of_mem_spine on) up.symm head.symm
  exact same ▸ mem_tags on

/-- Two nodes on one word are on one path. -/
lemma on_spine (known : k.Known ds n) (known' : k.Known ds m)
    (pre : k.route ds n <+: k.route ds m) : n = k.root ∨ n ∈ k.tags (k.spine ds m) := by
  refine shape.rooted.induct (motive := fun n => k.route ds n <+: k.route ds m →
    n = k.root ∨ n ∈ k.tags (k.spine ds m)) (fun _ => .inl rfl) ?_ known pre
  intro d mem above pre
  rw [shape.route_tag mem] at pre
  refine .inr (shape.tag_on_spine mem known' (above ((prefix_append _ _).trans pre)) ?_)
  exact ((prefix_append_right_inj _).mpr <| take_prefix _ _).trans pre

/-- A word the tree holds below a node goes on in a child of that node. -/
lemma descend (known : k.Known ds n) (pre : k.route ds n <+: word)
    (longer : (k.route ds n).length < word.length) (holds : k.Holds ds word b) :
    ∃ e ∈ ds, k.up e = n ∧ (k.key e).head? = word[(k.route ds n).length]? := by
  obtain ⟨d, mem, j, rfl, -⟩ := holds
  have within : k.route ds (k.up d) ++ (k.key d).take (j + 1) <+: k.route ds (k.tag d) := by
    rw [shape.route_tag mem]
    exact (prefix_append_right_inj _).mpr <| take_prefix _ _
  have other : n ≠ k.tag d := fun same => by
    have le := within.length_le
    rw [← same] at le
    omega
  obtain ⟨e, on, up⟩ := shape.rooted.child_on_spine (.inr (mem_tags mem))
    (shape.on_spine known (.tag mem) (pre.trans within)) other
  refine ⟨e, mem_of_mem_spine on, up, ?_⟩
  rw [shape.child_head on, up]
  obtain ⟨more, eq⟩ := within
  rw [← eq, getElem?_append_left longer]

section

variable (mem : d ∈ ds) (mem' : e ∈ ds)
include mem mem'

/-- The word of a node passes through every node whose run it ends in. -/
lemma holder_on_spine (pre : k.route ds (k.up d) ++ (k.key d).take 1 <+: k.route ds (k.tag e)) :
    k.tag d ∈ k.tags (k.spine ds (k.tag e)) :=
  shape.tag_on_spine mem (.tag mem')
    (shape.on_spine (shape.up_known mem) (.tag mem') ((prefix_append _ _).trans pre)) pre

/-- Nodes above each other are the same. -/
lemma eq_of_spines (above : k.tag d ∈ k.tags (k.spine ds (k.tag e)))
    (below : k.tag e ∈ k.tags (k.spine ds (k.tag d))) : d = e := by
  obtain ⟨x, on, same⟩ := mem_map.mp above
  obtain rfl := shape.rooted.eq_of_tag (mem_of_mem_spine on) mem same
  obtain ⟨y, on', same'⟩ := mem_map.mp below
  obtain rfl := shape.rooted.eq_of_tag (mem_of_mem_spine on') mem' same'
  have suffix := shape.rooted.spine_suffix on
  have suffix' := shape.rooted.spine_suffix on'
  have spines := suffix.eq_of_length (le_antisymm suffix.length_le suffix'.length_le)
  rw [shape.rooted.spine_tag mem, shape.rooted.spine_tag mem'] at spines
  exact (cons.inj spines).1

/-- A word ends in the run of one node. -/
lemma holder_unique {j j' : Nat} (eq : k.route ds (k.up d) ++ (k.key d).take (j + 1) =
      k.route ds (k.up e) ++ (k.key e).take (j' + 1)) : d = e := by
  have first : ∀ (x : δ) (i : Nat), k.route ds (k.up x) ++ (k.key x).take 1 <+:
      k.route ds (k.up x) ++ (k.key x).take (i + 1) := fun x i => by
    apply (prefix_append_right_inj _).mpr
    rw [show 1 = min 1 (i + 1) by omega, ← take_take]
    exact take_prefix _ _
  have within : ∀ x ∈ ds, ∀ i : Nat, k.route ds (k.up x) ++ (k.key x).take (i + 1) <+:
      k.route ds (k.tag x) := fun x mem i => by
    rw [shape.route_tag mem]
    exact (prefix_append_right_inj _).mpr <| take_prefix _ _
  exact shape.eq_of_spines mem mem'
    (shape.holder_on_spine mem mem' ((first d j).trans (eq ▸ within e mem' j')))
    (shape.holder_on_spine mem' mem ((first e j').trans (eq ▸ within d mem j)))

end

/-- The tree keeps one value a word. -/
lemma holds_unique (holds : k.Holds ds word b) (holds' : k.Holds ds word b') : b = b' := by
  obtain ⟨d, mem, j, rfl, at_⟩ := holds
  obtain ⟨e, mem', j', eq, at_'⟩ := holds'
  have bound := (List.getElem?_eq_some_iff.mp at_).1
  have bound' := (List.getElem?_eq_some_iff.mp at_').1
  rw [shape.sized d mem] at bound
  rw [shape.sized e mem'] at bound'
  obtain rfl := shape.holder_unique mem mem' eq
  have lengths := congrArg length (append_cancel_left eq)
  rw [length_take, length_take] at lengths
  obtain rfl : j = j' := by omega
  exact Option.some.inj (at_.symm.trans at_')

/-- What a node's path keeps, letter by letter. -/
lemma holds_route (known : k.Known ds n) {j : Nat} (lt : j < (k.route ds n).length) :
    ∃ b, (k.line ds n)[j]? = some b ∧ k.Holds ds ((k.route ds n).take (j + 1)) b := by
  refine shape.rooted.induct (motive := fun n => ∀ j < (k.route ds n).length,
    ∃ b, (k.line ds n)[j]? = some b ∧ k.Holds ds ((k.route ds n).take (j + 1)) b)
    ?_ ?_ known j lt
  · intro j lt
    rw [shape.route_root] at lt
    exact absurd lt (not_lt_zero j)
  · intro d mem above j lt
    have size := shape.length_line (shape.up_known mem)
    rw [shape.route_tag mem, length_append] at lt
    rw [shape.line_tag mem, shape.route_tag mem]
    by_cases before : j < (k.route ds (k.up d)).length
    · obtain ⟨b, at_, holds⟩ := above j before
      refine ⟨b, ?_, ?_⟩
      · rw [getElem?_append_left (by omega), at_]
      · rwa [take_append_of_le_length (by omega)]
    · have bound : j - (k.line ds (k.up d)).length < (k.vals d).length := by
        rw [shape.sized d mem]
        omega
      refine ⟨(k.vals d).get ⟨_, bound⟩, ?_, d, mem, j - (k.line ds (k.up d)).length, ?_, ?_⟩
      · rw [getElem?_append_right (by omega)]
        exact getElem?_eq_getElem bound
      · rw [take_append, take_of_length_le (by omega)]
        congr 2
        omega
      · exact getElem?_eq_getElem bound

end Shape

/-! ### Edits -/

omit [DecidableEq ι] in
lemma Shape.map (shape : k.Shape ds) (tag : ∀ d, k.tag (f d) = k.tag d)
    (up : ∀ d, k.up (f d) = k.up d) (key : ∀ d, k.key (f d) = k.key d)
    (vals : ∀ d, k.vals (f d) = k.vals d) : k.Shape (ds.map f) where
  rooted := shape.rooted.map tag up
  keyed := by
    simp only [forall_mem_map, key]
    exact shape.keyed
  sized := by
    simp only [forall_mem_map, key, vals]
    exact shape.sized
  apart := by
    simp only [forall_mem_map, tag, up, key]
    exact shape.apart

/-- Nodes are rewritten in nothing that matters here. -/
theorem holds_map (tag : ∀ d, k.tag (f d) = k.tag d) (up : ∀ d, k.up (f d) = k.up d)
    (key : ∀ d, k.key (f d) = k.key d) (vals : ∀ d, k.vals (f d) = k.vals d) :
    k.Holds (ds.map f) word b ↔ k.Holds ds word b := by
  have route : ∀ n, k.route (ds.map f) n = k.route ds n := fun n => by
    rw [route, Links.spine_map tag up, ← map_reverse, flatMap_map]
    exact flatMap_congr fun d _ => key d
  constructor
  · rintro ⟨e, mem, j, rfl, at_⟩
    obtain ⟨d, old, rfl⟩ := mem_map.mp mem
    exact ⟨d, old, j, by rw [route, up, key], by rwa [vals] at at_⟩
  · rintro ⟨d, mem, j, rfl, at_⟩
    exact ⟨f d, mem_map_of_mem mem, j, by rw [route, up, key], by rwa [vals]⟩

section

variable {lower upper : δ → δ} {t : ι}

variable (shape : k.Shape ds) (mem : d ∈ ds) (between : k.Between (k.tag d) t lower upper)
  (fresh : ¬ k.Known ds t) (keys : k.key (upper d) ++ k.key (lower d) = k.key d)
include shape mem between fresh keys

lemma Shape.route_expand (known : k.Known ds n) :
    k.route (k.expand (k.tag d) lower upper ds) n = k.route ds n := by
  have other : n ≠ t := fun same => fresh (same ▸ known)
  have apart : ∀ e ∈ ds, k.up e ≠ t := fun e mem same => fresh (same ▸ shape.up_known mem)
  rw [route, Links.spine_expand between apart other]
  exact Links.flatMap_expand keys fun e on =>
    shape.rooted.eq_of_tag (mem_of_mem_spine on) mem

lemma Shape.expand (keyed : k.key (upper d) ≠ [] ∧ k.key (lower d) ≠ [])
    (sized : (k.vals (upper d)).length = (k.key (upper d)).length ∧
      (k.vals (lower d)).length = (k.key (lower d)).length) :
    k.Shape (k.expand (k.tag d) lower upper ds) := by
  have head : (k.key (upper d)).head? = (k.key d).head? := by
    rw [← keys, head?_append_of_ne_nil _ keyed.1]
  have apart : ∀ e ∈ ds, k.up e ≠ t := fun e mem same => fresh (same ▸ shape.up_known mem)
  refine ⟨shape.rooted.expand between (fun inside => fresh (.inr inside))
    (fun root => fresh (.inl root)), ?_, ?_, ?_⟩
  · exact shape.rooted.forall_mem_expand mem shape.keyed keyed.2 keyed.1
  · exact shape.rooted.forall_mem_expand mem shape.sized sized.2 sized.1
  · -- below the new node there is one child, and the new node starts as the old one did
    intro e inside x inside' ups heads
    rcases (shape.rooted.mem_expand mem).mp inside with ⟨old, other⟩ | rfl | rfl <;>
      rcases (shape.rooted.mem_expand mem).mp inside' with ⟨old', other'⟩ | rfl | rfl
    · exact shape.apart e old x old' ups heads
    · exact absurd (ups.trans (between.up_lower d)) (apart e old)
    · rw [between.up_upper] at ups
      exact absurd (shape.apart e old d mem ups (heads.trans head)) other
    · exact absurd (ups.symm.trans (between.up_lower d)) (apart x old')
    · rfl
    · rw [between.up_lower, between.up_upper] at ups
      exact absurd ups.symm (apart d mem)
    · rw [between.up_upper] at ups
      exact absurd (shape.apart x old' d mem ups.symm (heads.symm.trans head)) other'
    · rw [between.up_lower, between.up_upper] at ups
      exact absurd ups (apart d mem)
    · rfl

/-- A node is cut in two. -/
theorem Shape.holds_expand (vals : k.vals (upper d) ++ k.vals (lower d) = k.vals d)
    (size : (k.vals (upper d)).length = (k.key (upper d)).length) :
    k.Holds (k.expand (k.tag d) lower upper ds) word b ↔ k.Holds ds word b := by
  have same := fun {n} => shape.route_expand (n := n) mem between fresh keys
  have rooted := shape.rooted.expand between (fun inside => fresh (.inr inside))
    (fun root => fresh (.inl root))
  have upper_mem : upper d ∈ k.expand (k.tag d) lower upper ds := Links.upper_mem_expand mem rfl
  have cut : k.route (k.expand (k.tag d) lower upper ds) t =
      k.route ds (k.up d) ++ k.key (upper d) := by
    have path := rooted.spine_tag upper_mem
    rw [between.tag_upper, between.up_upper] at path
    rw [route, path, reverse_cons, flatMap_append, flatMap_singleton,
      ← same (shape.up_known mem), route]
  have low : ∀ j, k.route ds (k.up d) ++ k.key (upper d) ++ (k.key (lower d)).take (j + 1) =
      k.route ds (k.up d) ++ (k.key d).take ((k.vals (upper d)).length + j + 1) := fun j => by
    rw [← keys, append_assoc, size, Nat.add_assoc, take_append,
      take_of_length_le (Nat.le_add_right _ _), Nat.add_sub_cancel_left]
  constructor
  · rintro ⟨e, inside, j, rfl, at_⟩
    rcases (shape.rooted.mem_expand mem).mp inside with ⟨old, -⟩ | rfl | rfl
    · exact ⟨e, old, j, by rw [same (shape.up_known old)], at_⟩
    · refine ⟨d, mem, (k.vals (upper d)).length + j, ?_, ?_⟩
      · rw [between.up_lower, cut, low]
      · rw [← vals, getElem?_append_right (Nat.le_add_right _ _), Nat.add_sub_cancel_left, at_]
    · have bound := (List.getElem?_eq_some_iff.mp at_).1
      refine ⟨d, mem, j, ?_, ?_⟩
      · rw [between.up_upper, same (shape.up_known mem), ← keys,
          take_append_of_le_length (by omega)]
      · rw [← vals, getElem?_append_left bound, at_]
  · rintro ⟨e, old, j, rfl, at_⟩
    by_cases here : k.tag e = k.tag d
    · obtain rfl := shape.rooted.eq_of_tag old mem here
      by_cases first : j < (k.vals (upper e)).length
      · refine ⟨upper e, upper_mem, j, ?_, ?_⟩
        · rw [between.up_upper, same (shape.up_known mem), ← keys,
            take_append_of_le_length (by omega)]
        · rwa [← vals, getElem?_append_left first] at at_
      · refine ⟨lower e, Links.lower_mem_expand mem rfl, j - (k.vals (upper e)).length, ?_, ?_⟩
        · rw [between.up_lower, cut, low]
          congr 3
          omega
        · rwa [← vals, getElem?_append_right (by omega)] at at_
    · exact ⟨e, mem_expand.mpr (.inl ⟨old, here⟩), j,
        by rw [same (shape.up_known old)], at_⟩

end

omit [DecidableEq ι] in
lemma Shape.cons (shape : k.Shape ds) (parent : k.Known ds (k.up d))
    (fresh : ¬ k.Known ds (k.tag d)) (keyed : k.key d ≠ [])
    (sized : (k.vals d).length = (k.key d).length)
    (first : ∀ e ∈ ds, k.up e = k.up d → (k.key e).head? ≠ (k.key d).head?) :
    k.Shape (d :: ds) where
  rooted := .cons parent (fun root => fresh (.inl root)) (fun inside => fresh (.inr inside))
    shape.rooted
  keyed := forall_mem_cons.mpr ⟨keyed, shape.keyed⟩
  sized := forall_mem_cons.mpr ⟨sized, shape.sized⟩
  apart := by
    intro e mem x mem' ups heads
    rcases mem_cons.mp mem with rfl | old <;> rcases mem_cons.mp mem' with rfl | old'
    · rfl
    · exact absurd heads.symm (first x old' ups.symm)
    · exact absurd heads (first e old ups)
    · exact shape.apart e old x old' ups heads

variable (shape : k.Shape ds)
include shape

/-- A leaf is added. -/
theorem Shape.holds_cons (parent : k.Known ds (k.up d)) (fresh : ¬ k.Known ds (k.tag d)) :
    k.Holds (d :: ds) word b ↔ k.Holds ds word b ∨
      ∃ j, word = k.route ds (k.up d) ++ (k.key d).take (j + 1) ∧ (k.vals d)[j]? = some b := by
  have same : ∀ n, k.Known ds n → k.route (d :: ds) n = k.route ds n := fun n known => by
    rw [route, Links.spine_cons_of_ne fun clash => fresh (clash ▸ known), route]
  constructor
  · rintro ⟨e, mem, j, rfl, at_⟩
    rcases mem_cons.mp mem with rfl | old
    · exact .inr ⟨j, by rw [same _ parent], at_⟩
    · exact .inl ⟨e, old, j, by rw [same _ (shape.up_known old)], at_⟩
  · rintro (⟨e, old, j, rfl, at_⟩ | ⟨j, rfl, at_⟩)
    · exact ⟨e, mem_cons_of_mem _ old, j, by rw [same _ (shape.up_known old)], at_⟩
    · exact ⟨d, mem_cons_self, j, by rw [same _ parent], at_⟩

lemma Shape.remove (childless : ∀ e ∈ ds, k.up e ≠ k.tag d) :
    k.Shape (ds.filter fun e => decide (k.tag e ≠ k.tag d)) where
  rooted := shape.rooted.filter fun e mem _ _ _ tag =>
    decide_eq_true (tag ▸ childless e mem)
  keyed e kept := shape.keyed e (mem_of_mem_filter kept)
  sized e kept := shape.sized e (mem_of_mem_filter kept)
  apart e kept x kept' :=
    shape.apart e (mem_of_mem_filter kept) x (mem_of_mem_filter kept')

/-- A leaf is removed. -/
theorem Shape.holds_remove (mem : d ∈ ds) (childless : ∀ e ∈ ds, k.up e ≠ k.tag d) :
    k.Holds (ds.filter fun e => decide (k.tag e ≠ k.tag d)) word b ↔
      k.Holds ds word b ∧
        ¬ ∃ j < (k.key d).length, word = k.route ds (k.up d) ++ (k.key d).take (j + 1) := by
  have same : ∀ e ∈ ds, k.route (ds.filter fun e => decide (k.tag e ≠ k.tag d)) (k.up e) =
      k.route ds (k.up e) := fun e old => by
    -- no path goes through a leaf to another node
    rw [route, route, Links.spine_filter]
    refine fun x on => decide_eq_true fun clash => ?_
    obtain ⟨y, between, up⟩ := shape.rooted.child_on_spine (shape.up_known old)
      (.inr (clash ▸ mem_tags on)) (childless e old).symm
    exact childless y (mem_of_mem_spine between) up
  constructor
  · rintro ⟨e, kept, j, rfl, at_⟩
    obtain ⟨old, apart⟩ := mem_filter.mp kept
    have holds : k.Holds ds (k.route ds (k.up e) ++ (k.key e).take (j + 1)) b := ⟨e, old, j, rfl, at_⟩
    rw [same e old]
    refine ⟨holds, ?_⟩
    rintro ⟨i, -, eq⟩
    exact of_decide_eq_true apart (congrArg k.tag (shape.holder_unique old mem eq))
  · rintro ⟨⟨e, old, j, rfl, at_⟩, out⟩
    have apart : k.tag e ≠ k.tag d := fun clash => by
      obtain rfl := shape.rooted.eq_of_tag old mem clash
      refine out ⟨j, ?_, rfl⟩
      rw [← shape.sized e mem]
      exact (List.getElem?_eq_some_iff.mp at_).1
    exact ⟨e, mem_filter.mpr ⟨old, decide_eq_true apart⟩, j, by rw [same e old], at_⟩

end Trie

/-! ### The map a tree stands for -/

/-- A partial map from words to values. -/
def Words (P β : Type*) := List P → Option β

namespace Words

variable {P β : Type*}

/-- The map that keeps nothing. -/
def empty : Words P β := fun _ => none

/-- Keep a value for every prefix of a word that has none yet. -/
def insert [DecidableEq P] (M : Words P β) (word : List P) (vals : List β) : Words P β := fun pre =>
  if pre ≠ [] ∧ pre <+: word ∧ M pre = none then vals[pre.length - 1]? else M pre

/-- Drop the values of some words. -/
def forget [DecidableEq P] (M : Words P β) (gone : List (List P)) : Words P β := fun pre =>
  if pre ∈ gone then none else M pre

/-- The values along the longest prefix of `seen ++ word` that has one at every letter of
`word`. -/
def read (M : Words P β) (seen : List P) : List P → List β
  | [] => []
  | x :: word => (M (seen ++ [x])).elim [] fun b => b :: read M (seen ++ [x]) word

variable {M : Words P β} {word seen : List P}

lemma read_eq {vals : List β} {n : Nat} (le : n ≤ word.length)
    (size : vals.length = n) (held : ∀ j < n, M (seen ++ word.take (j + 1)) = vals[j]?)
    (ends : n < word.length → M (seen ++ word.take (n + 1)) = none) : M.read seen word = vals := by
  induction word generalizing seen vals n with
  | nil =>
    obtain rfl : n = 0 := le_zero.mp le
    rw [eq_nil_of_length_eq_zero size]
    rfl
  | cons x word ih =>
    cases vals with
    | nil =>
      obtain rfl : 0 = n := size
      have stops := ends (succ_pos _)
      rw [take_succ_cons, take_zero] at stops
      simp [read, stops]
    | cons b vals =>
      obtain rfl : vals.length + 1 = n := size
      have first := held 0 (succ_pos _)
      rw [take_succ_cons, take_zero, getElem?_cons_zero] at first
      rw [read, first, Option.elim_some]
      congr 1
      refine ih (le_of_succ_le_succ le) rfl (fun j lt => ?_) fun lt => ?_
      · have next := held (j + 1) (succ_lt_succ lt)
        rwa [take_succ_cons, getElem?_cons_succ, append_cons] at next
      · have last := ends (succ_lt_succ lt)
        rwa [take_succ_cons, append_cons] at last

lemma read_greatest_from (M : Words P β) (seen word : List P) :
    IsGreatest {n | n ≤ word.length ∧ ∀ j < n, (M (seen ++ word.take (j + 1))).isSome = true}
      (M.read seen word).length := by
  induction word generalizing seen with
  | nil =>
    refine ⟨⟨le_rfl, fun j lt => absurd lt (Nat.not_lt_zero j)⟩, ?_⟩
    rintro n ⟨le, -⟩
    exact le
  | cons x word ih =>
    have single : seen ++ (x :: word).take 1 = seen ++ [x] := rfl
    cases first : M (seen ++ [x]) with
    | none =>
      rw [read, first]
      refine ⟨⟨Nat.zero_le _, fun j lt => absurd lt (Nat.not_lt_zero j)⟩, ?_⟩
      rintro n ⟨-, all⟩
      refine Nat.le_of_not_lt fun pos => ?_
      have given := all 0 pos
      rw [single, first] at given
      cases given
    | some b =>
      obtain ⟨⟨le, all⟩, top⟩ := ih (seen ++ [x])
      rw [read, first]
      refine ⟨⟨Nat.succ_le_succ le, fun j lt => ?_⟩, ?_⟩
      · cases j with
        | zero => rw [single, first, Option.isSome_some]
        | succ j =>
          rw [take_succ_cons, append_cons]
          exact all j (Nat.lt_of_succ_lt_succ lt)
      · rintro n ⟨bound, given⟩
        cases n with
        | zero => exact Nat.zero_le _
        | succ n =>
          refine Nat.succ_le_succ (top ⟨Nat.le_of_succ_le_succ bound, fun j lt => ?_⟩)
          have next := given (j + 1) (Nat.succ_lt_succ lt)
          rwa [take_succ_cons, append_cons] at next

lemma read_getElem?_from {j : Nat} (lt : j < (M.read seen word).length) :
    M (seen ++ word.take (j + 1)) = (M.read seen word)[j]? := by
  induction word generalizing seen j with
  | nil => exact absurd lt (not_lt_zero j)
  | cons x word ih =>
    have single : seen ++ (x :: word).take 1 = seen ++ [x] := rfl
    cases first : M (seen ++ [x]) with
    | none =>
      rw [read, first] at lt
      exact absurd lt (not_lt_zero j)
    | some b =>
      rw [read, first, Option.elim_some] at lt ⊢
      cases j with
      | zero => rw [single, first, getElem?_cons_zero]
      | succ j =>
        rw [take_succ_cons, append_cons]
        exact ih (lt_of_succ_lt_succ lt)

end Words

end Sglang.Lib
