/-
# The radix cache: the shape of the tree

`Cache.Shape` is what every operation relies on without checking: the nodes form a radix tree
of pages, runs are whole pages with one slot per token, dictionaries hold nodes under their
child keys, a child has its parent's namespace, and the evictable leaves are leaves. Each edit
keeps it; `Cache.Holds` says for which words the tree has slots, and what edits do to that.
-/

import Sglang.Radix.Cache

namespace Sglang.Radix

open Sglang.Lib List Nat

open RadixKey (childKey_eq len_slice length_pages namespace_slice pages pages_slice_left
  pages_slice_right)

/-- The tree of pages, with the slots of each page. -/
def trie (c : Config) : Trie TreeNode Nat Page (List Int) where
  toLinks := links
  key d := d.key.pages c.pageSize
  vals d := chunks c.pageSize d.value

namespace Cache

/-- The tree has `slots` for the last page of `word`. -/
def Holds (c : Config) (cache : Cache) (word : List Page) (slots : List Int) : Prop :=
  (trie c).Holds cache.nodes word slots

/-- The pages from the root down to a node. -/
def route (c : Config) (cache : Cache) (i : Nat) : List Page := (trie c).route cache.nodes i

/-- The shape of the tree, apart from the leaf set. -/
structure Form (c : Config) (cache : Cache) : Prop where
  tree : (trie c).Shape cache.nodes
  bound : ∀ d ∈ cache.nodes, d.id < cache.nextId
  next_pos : 0 < cache.nextId
  aligned : ∀ d ∈ cache.nodes, c.pageSize ∣ d.key.len
  valued : ∀ d ∈ cache.nodes, d.value.length = d.key.len
  edged : ∀ d ∈ cache.nodes, d.key.childKey c.pageSize = some d.edge
  spaced : ∀ d ∈ cache.nodes, ∀ e ∈ cache.nodes, e.id = d.parent →
    e.key.namespace_ = d.key.namespace_

structure Shape (c : Config) (cache : Cache) : Prop extends Form c cache where
  leaves : ∀ i ∈ cache.evictableLeaves, i ∈ links.tags cache.nodes ∧ ∀ e ∈ cache.nodes, e.parent ≠ i

variable {c : Config} {cache cache' : Cache} {d : TreeNode} {i : Nat} {childKey : ChildKey}
  {edge : ChildKey}

lemma shape_reset (c : Config) : reset.Shape c where
  tree := ⟨.nil, by simp [reset], by simp [reset], by simp [reset]⟩
  bound := by simp [reset]
  next_pos := one_pos
  aligned := by simp [reset]
  valued := by simp [reset]
  edged := by simp [reset]
  spaced := by simp [reset]
  leaves := by simp [reset]

lemma mem_of_find? (found : cache.find? i = some d) : d ∈ cache.nodes ∧ d.id = i :=
  ⟨mem_of_find?_eq_some found, by simpa using find?_some found⟩

lemma mem_of_child? (found : cache.child? i childKey = some d) :
    d ∈ cache.nodes ∧ d.parent = i ∧ d.edge = childKey :=
  ⟨mem_of_find?_eq_some found, by simpa using find?_some found⟩

lemma edge_ne_of_child? (bare : cache.child? i childKey = none)
    (mem : d ∈ cache.nodes) (parent : d.parent = i) : d.edge ≠ childKey := by
  have absent := find?_eq_none.mp bare d mem
  simpa [parent] using absent

namespace Form

variable (form : cache.Form c)
include form

lemma find? (mem : d ∈ cache.nodes) : cache.find? d.id = some d := by
  cases found : cache.find? d.id with
  | none => exact absurd (find?_eq_none.mp found d mem) (by simp)
  | some e =>
    obtain ⟨mem', same⟩ := mem_of_find? found
    rw [form.tree.rooted.eq_of_tag mem' mem same]

/-- The first page of a node, and the child key it is found under. -/
lemma head (mem : d ∈ cache.nodes) :
    ∃ page, (d.key.pages c.pageSize).head? = some page ∧ d.edge = ChildKey.of page := by
  have edge := form.edged d mem
  rw [childKey_eq c.pageSize_pos] at edge
  obtain ⟨page, first, of⟩ := Option.map_eq_some_iff.mp edge
  exact ⟨page, first, of.symm⟩

lemma fresh : ¬ (trie c).Known cache.nodes cache.nextId := by
  rintro (root | inside)
  · exact absurd root form.next_pos.ne'
  · obtain ⟨d, mem, same⟩ := mem_map.mp inside
    exact absurd same (form.bound d mem).ne

variable (nodes : cache'.nodes = cache.nodes) (next : cache'.nextId = cache.nextId)
include nodes next

/-- Sizes and leaf sets are not part of the form. -/
lemma congr : cache'.Form c := by
  constructor
  · rw [nodes]; exact form.tree
  · rw [nodes, next]; exact form.bound
  · rw [next]; exact form.next_pos
  · rw [nodes]; exact form.aligned
  · rw [nodes]; exact form.valued
  · rw [nodes]; exact form.edged
  · rw [nodes]; exact form.spaced

lemma shape (leaves : ∀ i ∈ cache'.evictableLeaves, i ∈ links.tags cache'.nodes ∧
      ∀ e ∈ cache'.nodes, e.parent ≠ i) : cache'.Shape c := ⟨form.congr nodes next, leaves⟩

end Form

lemma not_hasChildren (bare : cache.hasChildren i = false) :
    ∀ e ∈ cache.nodes, e.parent ≠ i := fun e mem => by
  simpa using any_eq_false.mp bare e mem

lemma Shape.updateLeafStatus (shape : cache.Shape c) (i : Nat) :
    (cache.updateLeafStatus i).Shape c := by
  refine ⟨shape.toForm.congr rfl rfl, fun j mem => ?_⟩
  change j ∈ (if _ then _ else _ : Finset Nat) at mem
  split at mem
  · rename_i leaf
    rcases Finset.mem_insert.mp mem with rfl | old
    · cases found : cache.find? j with
      | none => simp [found] at leaf
      | some d =>
        rw [found, Option.any_some, Bool.and_eq_true, Bool.not_eq_true'] at leaf
        obtain ⟨inside, named⟩ := mem_of_find? found
        exact ⟨named ▸ Links.mem_tags inside, not_hasChildren leaf.2⟩
    · exact shape.leaves j old
  · exact shape.leaves j (Finset.mem_of_mem_erase mem)

/-! ### Splitting -/

section

variable {n : Nat}

lemma between (edge edge' : ChildKey) (splitLen i new : Nat) :
    links.Between i new (lower edge splitLen new) (upper edge' splitLen new) where
  tag_lower _ here := here
  up_lower _ := rfl
  tag_upper _ := rfl
  up_upper _ := rfl

/-- The two halves of a node cut after `n` pages. -/
structure Halves (c : Config) (d up low : TreeNode) : Prop where
  keys : up.key.pages c.pageSize ++ low.key.pages c.pageSize = d.key.pages c.pageSize
  vals : chunks c.pageSize up.value ++ chunks c.pageSize low.value = chunks c.pageSize d.value
  aligned : c.pageSize ∣ up.key.len ∧ c.pageSize ∣ low.key.len
  valued : up.value.length = up.key.len ∧ low.value.length = low.key.len
  spaces : up.key.namespace_ = d.key.namespace_ ∧ low.key.namespace_ = d.key.namespace_

lemma Form.halves (form : cache.Form c) (mem : d ∈ cache.nodes)
    (le : n ≤ (d.key.pages c.pageSize).length) (edge edge' : ChildKey) (new : Nat) :
    Halves c d (upper edge' (n * c.pageSize) new d) (lower edge (n * c.pageSize) new d) := by
  have pos := c.pageSize_pos
  have fits : n * c.pageSize ≤ d.key.len := by
    rw [length_pages] at le
    exact (Nat.le_div_iff_mul_le pos).mp le
  have valued := form.valued d mem
  refine ⟨?_, ?_, ⟨?_, ?_⟩, ⟨?_, ?_⟩, namespace_slice .., namespace_slice ..⟩
  · change (d.key.slice 0 _).pages _ ++ (d.key.slice _ _).pages _ = _
    rw [pages_slice_left pos fits, pages_slice_right, take_append_drop]
  · change chunks _ (d.value.take _) ++ chunks _ (d.value.drop _) = _
    rw [chunks_take pos (by omega), chunks_drop, take_append_drop]
  · change _ ∣ (d.key.slice 0 _).len
    rw [len_slice, min_eq_left fits]
    exact Nat.dvd_mul_left _ _
  · change _ ∣ (d.key.slice _ _).len
    rw [len_slice, min_self]
    exact Nat.dvd_sub (form.aligned d mem) (Nat.dvd_mul_left _ _)
  · change (d.value.take _).length = (d.key.slice 0 _).len
    rw [len_slice, length_take]
    omega
  · change (d.value.drop _).length = (d.key.slice _ _).len
    rw [len_slice, length_drop, min_self, valued]

lemma chunks_pages {d : TreeNode} (valued : d.value.length = d.key.len) :
    (chunks c.pageSize d.value).length = (d.key.pages c.pageSize).length := by
  rw [length_chunks, length_pages, valued]

/-- A node is replaced by two halves, the upper one new. -/
lemma Form.expand (form : cache.Form c) (mem : d ∈ cache.nodes) (pos : 0 < n)
    (lt : n < (d.key.pages c.pageSize).length)
    (below : (d.key.slice (n * c.pageSize) d.key.len).childKey c.pageSize = some edge) :
    Form c { cache with
      nodes := links.expand d.id (lower edge (n * c.pageSize) cache.nextId)
        (upper d.edge (n * c.pageSize) cache.nextId) cache.nodes
      nextId := cache.nextId + 1 } := by
  have fits : n * c.pageSize ≤ d.key.len := by
    rw [length_pages] at lt
    exact (le_div_iff_mul_le c.pageSize_pos).mp lt.le
  have halves := form.halves mem lt.le edge d.edge cache.nextId
  have upper_pages : (upper d.edge (n * c.pageSize) cache.nextId d).key.pages c.pageSize =
      (d.key.pages c.pageSize).take n := pages_slice_left c.pageSize_pos fits
  have lower_pages : (lower edge (n * c.pageSize) cache.nextId d).key.pages c.pageSize =
      (d.key.pages c.pageSize).drop n := pages_slice_right ..
  have known : ∀ e ∈ cache.nodes, e.parent ≠ cache.nextId := fun e old same =>
    form.fresh (same ▸ form.tree.up_known old)
  refine ⟨?_, ?_, succ_pos _, ?_, ?_, ?_, ?_⟩
  · refine form.tree.expand mem (between ..) form.fresh halves.keys ⟨?_, ?_⟩
      ⟨chunks_pages halves.valued.1, chunks_pages halves.valued.2⟩
    · change (upper d.edge (n * c.pageSize) cache.nextId d).key.pages c.pageSize ≠ []
      rw [upper_pages]
      exact ne_nil_of_length_pos (by rw [length_take]; omega)
    · change (lower edge (n * c.pageSize) cache.nextId d).key.pages c.pageSize ≠ []
      rw [lower_pages]
      exact ne_nil_of_length_pos (by rw [length_drop]; omega)
  · refine form.tree.rooted.forall_mem_expand mem (fun e old => ?_) ?_ (lt_succ_self _)
    · exact (form.bound e old).trans (lt_succ_self _)
    · exact (form.bound d mem).trans (lt_succ_self _)
  · exact form.tree.rooted.forall_mem_expand mem form.aligned halves.aligned.2 halves.aligned.1
  · exact form.tree.rooted.forall_mem_expand mem form.valued halves.valued.2 halves.valued.1
  · apply form.tree.rooted.forall_mem_expand mem form.edged below
    have edge := form.edged d mem
    rw [childKey_eq c.pageSize_pos] at edge ⊢
    rw [upper_pages, head?_take, if_neg (by omega)]
    exact edge
  · intro e inside x inside' parent
    rcases (form.tree.rooted.mem_expand mem).mp inside with ⟨old, -⟩ | rfl | rfl <;>
      rcases (form.tree.rooted.mem_expand mem).mp inside' with ⟨old', -⟩ | rfl | rfl
    · exact form.spaced e old x old' parent
    · exact halves.spaces.2.trans (form.spaced e old d mem parent)
    · exact absurd parent.symm (known e old)
    · exact absurd parent (form.bound x old').ne
    · rfl
    · exact halves.spaces.1.trans halves.spaces.2.symm
    · exact (form.spaced d mem x old' parent).trans halves.spaces.1.symm
    · exact halves.spaces.2.trans halves.spaces.1.symm
    · rfl

/-- One call of `_split_node`, inside a node and between pages. -/
def Cut (c : Config) (cache cache' : Cache) : Prop :=
  ∃ d ∈ cache.nodes, ∃ n new, 0 < n ∧ n < (d.key.pages c.pageSize).length ∧
    cache.splitNode c d (n * c.pageSize) = some (cache', new)

/-- What `_split_node` does inside a node. -/
structure Splits (c : Config) (cache : Cache) (child : TreeNode) (n : Nat) (cache' : Cache)
    (new : TreeNode) : Prop where
  cut : Cut c cache cache'
  shape : cache'.Shape c
  holds : ∀ word slots, cache'.Holds c word slots ↔ cache.Holds c word slots
  mem : new ∈ cache'.nodes
  space : new.key.namespace_ = child.key.namespace_
  parent : new.parent = child.parent
  route : cache'.route c new.id = cache.route c child.parent ++ (child.key.pages c.pageSize).take n
  path : cache'.pathDeviceIndices child.parent = cache.pathDeviceIndices child.parent
  /-- The rest of the child is all there is below the new node. -/
  below : ∀ e ∈ cache'.nodes, e.parent = new.id →
    (e.key.pages c.pageSize).head? = (child.key.pages c.pageSize)[n]?

lemma Shape.splitNode (shape : cache.Shape c) (mem : d ∈ cache.nodes) (pos : 0 < n)
    (lt : n < (d.key.pages c.pageSize).length) :
    ∃ cache' new, cache.splitNode c d (n * c.pageSize) = some (cache', new) ∧
      Splits c cache d n cache' new := by
  have fits : n * c.pageSize ≤ d.key.len := by
    rw [length_pages] at lt
    exact (le_div_iff_mul_le c.pageSize_pos).mp lt.le
  obtain ⟨edge, below⟩ : ∃ edge, (d.key.slice (n * c.pageSize) d.key.len).childKey c.pageSize =
      some edge := by
    rw [childKey_eq c.pageSize_pos, pages_slice_right, head?_drop,
      getElem?_eq_getElem lt]
    exact ⟨_, rfl⟩
  have above := shape.edged d mem
  have halves := shape.toForm.halves mem lt.le edge d.edge cache.nextId
  have form := shape.toForm.expand mem pos lt below
  have known : ∀ e ∈ cache.nodes, e.parent ≠ cache.nextId := fun e old same =>
    shape.fresh (same ▸ shape.tree.up_known old)
  have top : upper d.edge (n * c.pageSize) cache.nextId d ∈ links.expand d.id
      (lower edge (n * c.pageSize) cache.nextId) (upper d.edge (n * c.pageSize) cache.nextId)
      cache.nodes := Links.upper_mem_expand mem rfl
  have ran : cache.splitNode c d (n * c.pageSize) = some ({ cache with
      nodes := links.expand d.id (lower edge (n * c.pageSize) cache.nextId)
        (upper d.edge (n * c.pageSize) cache.nextId) cache.nodes
      nextId := cache.nextId + 1 }, upper d.edge (n * c.pageSize) cache.nextId d) := by
    rw [Cache.splitNode, below, above]
    rfl
  refine ⟨_, _, ran, ⟨d, mem, n, _, pos, lt, ran⟩, ⟨form, ?_⟩, ?_, top, halves.spaces.1, rfl, ?_, ?_, ?_⟩
  · -- a leaf is not the new node's parent, and the old node's rest is below the new node
    intro i leaf
    obtain ⟨named, childless⟩ := shape.leaves i leaf
    refine ⟨(Links.mem_tags_expand (between ..)).mpr (.inl named), fun e inside => ?_⟩
    rcases (shape.tree.rooted.mem_expand mem).mp inside with ⟨old, -⟩ | rfl | rfl
    · exact childless e old
    · intro same
      have new : cache.nextId = i := same
      exact shape.fresh (.inr (new ▸ named))
    · exact childless d mem
  · intro word slots
    exact shape.tree.holds_expand mem (between ..) shape.fresh halves.keys halves.vals
      (chunks_pages halves.valued.1)
  · have path := form.tree.route_tag top
    have same := shape.tree.route_expand mem (between edge d.edge (n * c.pageSize) d.id cache.nextId)
      shape.fresh halves.keys (shape.tree.up_known mem)
    apply path.trans
    exact congrArg₂ (· ++ ·) same (pages_slice_left c.pageSize_pos fits)
  · have other : d.parent ≠ cache.nextId := known d mem
    unfold pathDeviceIndices spine
    rw [Links.spine_expand (between edge d.edge (n * c.pageSize) d.id cache.nextId) known other]
    refine Links.flatMap_expand (d := d) ?_ fun e on =>
      shape.tree.rooted.eq_of_tag (Links.mem_of_mem_spine on) mem
    exact take_append_drop _ _
  · intro e inside parent
    rcases (shape.tree.rooted.mem_expand mem).mp inside with ⟨old, -⟩ | rfl | rfl
    · exact absurd parent (known e old)
    · change ((d.key.slice _ _).pages _).head? = _
      rw [pages_slice_right, head?_drop]
    · exact absurd parent (known d mem)

end

/-! ### A new leaf -/

section

variable {node : Nat} {key : RadixKey} {value : List Int}

/-- What is left of an insert fits below a node. -/
structure Fits (c : Config) (cache : Cache) (node : Nat) (key : RadixKey) (value : List Int) :
    Prop where
  known : (trie c).Known cache.nodes node
  pages : key.pages c.pageSize ≠ []
  aligned : c.pageSize ∣ key.len
  valued : value.length = key.len
  first : ∀ e ∈ cache.nodes, e.parent = node →
    (e.key.pages c.pageSize).head? ≠ (key.pages c.pageSize).head?
  spaced : ∀ e ∈ cache.nodes, e.id = node → e.key.namespace_ = key.namespace_

lemma Form.cons (form : cache.Form c) (fits : Fits c cache node key value)
    (edged : key.childKey c.pageSize = some edge) :
    Form c { cache with nodes := ⟨cache.nextId, node, edge, key, value, 0⟩ :: cache.nodes
                        nextId := cache.nextId + 1 } where
  tree := by
    refine form.tree.cons fits.known form.fresh fits.pages ?_ fits.first
    change (chunks c.pageSize value).length = (key.pages c.pageSize).length
    rw [length_chunks, fits.valued, length_pages]
  bound := forall_mem_cons.mpr ⟨lt_succ_self _, fun e old =>
    (form.bound e old).trans (lt_succ_self _)⟩
  next_pos := succ_pos _
  aligned := forall_mem_cons.mpr ⟨fits.aligned, form.aligned⟩
  valued := forall_mem_cons.mpr ⟨fits.valued, form.valued⟩
  edged := forall_mem_cons.mpr ⟨edged, form.edged⟩
  spaced := by
    intro d mem e mem' parent
    rcases mem_cons.mp mem with rfl | old <;> rcases mem_cons.mp mem' with rfl | old'
    · rfl
    · exact fits.spaced e old' parent
    · have same : cache.nextId = (trie c).up d := parent
      exact absurd (same ▸ form.tree.up_known old) form.fresh
    · exact form.spaced d old e old' parent

/-- The cache with a new leaf. -/
structure Grown (c : Config) (cache : Cache) (node : Nat) (key : RadixKey) (value : List Int)
    (cache' : Cache) : Prop where
  shape : cache'.Shape c
  holds : ∀ word slots, cache'.Holds c word slots ↔ cache.Holds c word slots ∨
    ∃ j, word = cache.route c node ++ (key.pages c.pageSize).take (j + 1) ∧
      (chunks c.pageSize value)[j]? = some slots

lemma Shape.addLeaf (shape : cache.Shape c) (fits : Fits c cache node key value) :
    ∃ cache' new, cache.addLeaf c node key value = some (cache', new) ∧
      Grown c cache node key value cache' := by
  obtain ⟨edge, edged⟩ : ∃ edge, key.childKey c.pageSize = some edge := by
    rw [childKey_eq c.pageSize_pos, head?_eq_some_head fits.pages]
    exact ⟨_, rfl⟩
  have form := shape.toForm.cons fits edged
  refine ⟨_, _, by rw [Cache.addLeaf, edged]; rfl, ?_, ?_⟩
  · refine .updateLeafStatus ?_ _
    refine form.shape rfl rfl fun i leaf => ?_
    -- the parent has a child now, so it is no leaf
    have busy : hasChildren { cache with
        nodes := ⟨cache.nextId, node, edge, key, value, 0⟩ :: cache.nodes
        nextId := cache.nextId + 1
        evictableSize := cache.evictableSize + key.len } node = true := by
      simp [hasChildren]
    have erased : i ∈ cache.evictableLeaves.erase node := by
      change i ∈ (if _ then _ else _ : Finset Nat) at leaf
      rw [if_neg] at leaf
      · exact leaf
      · rw [busy]
        simp
    obtain ⟨other, old⟩ := Finset.mem_erase.mp erased
    obtain ⟨named, childless⟩ := shape.leaves i old
    exact ⟨mem_cons_of_mem _ named, forall_mem_cons.mpr ⟨other.symm, childless⟩⟩
  · intro word slots
    have parent : (trie c).Known cache.nodes
      ((trie c).up ⟨cache.nextId, node, edge, key, value, 0⟩) := fits.known
    exact shape.tree.holds_cons parent shape.fresh

end

/-! ### Deleting a leaf -/

lemma Shape.child?_edge (shape : cache.Shape c) (mem : d ∈ cache.nodes) :
    cache.child? d.parent d.edge = some d := by
  cases found : cache.child? d.parent d.edge with
  | none => exact absurd rfl (edge_ne_of_child? found mem rfl)
  | some e =>
    obtain ⟨mem', parent, edge⟩ := mem_of_child? found
    obtain ⟨page, head, of⟩ := shape.toForm.head mem
    obtain ⟨page', head', of'⟩ := shape.toForm.head mem'
    have same : page' = page := ChildKey.of_injective (by rw [← of, ← of', edge])
    have tags := shape.tree.apart e mem' d mem parent (by
      change (e.key.pages c.pageSize).head? = (d.key.pages c.pageSize).head?
      rw [head, head', same])
    rw [shape.tree.rooted.eq_of_tag mem' mem tags]

lemma mem_words {word : List Page} : word ∈ cache.words c d ↔
    ∃ j < (d.key.pages c.pageSize).length,
      word = cache.route c d.parent ++ (d.key.pages c.pageSize).take (j + 1) := by
  simp only [words, mem_map, mem_range]
  exact ⟨fun ⟨j, lt, eq⟩ => ⟨j, lt, eq.symm⟩, fun ⟨j, lt, eq⟩ => ⟨j, lt, eq.symm⟩⟩

lemma Form.remove (form : cache.Form c) (childless : ∀ e ∈ cache.nodes, e.parent ≠ d.id) :
    Form c { cache with nodes := cache.nodes.filter fun e => decide (e.id ≠ d.id) } where
  tree := form.tree.remove childless
  bound e kept := form.bound e (mem_of_mem_filter kept)
  next_pos := form.next_pos
  aligned e kept := form.aligned e (mem_of_mem_filter kept)
  valued e kept := form.valued e (mem_of_mem_filter kept)
  edged e kept := form.edged e (mem_of_mem_filter kept)
  spaced e kept x kept' :=
    form.spaced e (mem_of_mem_filter kept) x (mem_of_mem_filter kept')

variable (shape : cache.Shape c)
include shape

/-- The assertion of `_delete_leaf` holds. -/
lemma Shape.deleteLeaf_eq (mem : d ∈ cache.nodes) :
    cache.deleteLeaf c d = some (Cache.updateLeafStatus { cache with
      nodes := cache.nodes.filter fun e => decide (e.id ≠ d.id)
      evictableSize := cache.evictableSize - d.key.len
      evictableLeaves := cache.evictableLeaves.erase d.id } d.parent) := by
  rw [Cache.deleteLeaf, shape.edged d mem, Option.bind_eq_bind, Option.bind_some,
    shape.child?_edge mem]
  exact if_pos rfl

lemma Shape.deleteLeaf (mem : d ∈ cache.nodes) (childless : ∀ e ∈ cache.nodes, e.parent ≠ d.id) :
    ∃ cache', cache.deleteLeaf c d = some cache' ∧ cache'.Shape c ∧
      cache'.nodes = cache.nodes.filter (fun e => decide (e.id ≠ d.id)) ∧
      ∀ word slots, cache'.Holds c word slots ↔
        cache.Holds c word slots ∧ word ∉ cache.words c d := by
  refine ⟨_, shape.deleteLeaf_eq mem, ?_, rfl, ?_⟩
  · refine .updateLeafStatus ?_ _
    refine (shape.toForm.remove childless).shape rfl rfl fun i leaf => ?_
    obtain ⟨other, old⟩ := Finset.mem_erase.mp leaf
    obtain ⟨named, free⟩ := shape.leaves i old
    obtain ⟨e, inside, tag⟩ := mem_map.mp named
    refine ⟨mem_map.mpr ⟨e, mem_filter.mpr ⟨inside, decide_eq_true ?_⟩, tag⟩,
      fun x kept => free x (mem_of_mem_filter kept)⟩
    exact fun same => other (tag.symm.trans same)
  · intro word slots
    rw [mem_words]
    exact shape.tree.holds_remove mem childless

/-! ### Locks -/

omit shape in
lemma Form.map {f : TreeNode → TreeNode} (form : cache.Form c) (id : ∀ d, (f d).id = d.id)
    (parent : ∀ d, (f d).parent = d.parent) (edge : ∀ d, (f d).edge = d.edge)
    (key : ∀ d, (f d).key = d.key) (value : ∀ d, (f d).value = d.value) :
    Form c { cache with nodes := cache.nodes.map f } where
  tree := form.tree.map id parent (fun d => by change (f d).key.pages _ = _; rw [key]; rfl)
    (fun d => by change chunks _ (f d).value = _; rw [value]; rfl)
  bound := by simpa only [forall_mem_map, id] using form.bound
  next_pos := form.next_pos
  aligned := by simpa only [forall_mem_map, key] using form.aligned
  valued := by simpa only [forall_mem_map, key, value] using form.valued
  edged := by simpa only [forall_mem_map, key, edge] using form.edged
  spaced := by simpa only [forall_mem_map, key, id, parent] using form.spaced

lemma Shape.addLock (delta : Int) (d : TreeNode) :
    (cache.addLock delta d).Shape c ∧
      ∀ word slots, (cache.addLock delta d).Holds c word slots ↔ cache.Holds c word slots := by
  have kept : ∀ {β : Type} (read : TreeNode → β)
      (_ : ∀ e : TreeNode, read { e with lockRef := e.lockRef + delta } = read e) (e : TreeNode),
      read (if e.id = d.id then { e with lockRef := e.lockRef + delta } else e) = read e := by
    intro β read same e
    split
    · exact same e
    · rfl
  have id := kept TreeNode.id fun _ => rfl
  have parent := kept TreeNode.parent fun _ => rfl
  have key := kept TreeNode.key fun _ => rfl
  have value := kept TreeNode.value fun _ => rfl
  have form := shape.toForm.map id parent (kept TreeNode.edge fun _ => rfl) key value
  refine ⟨?_, fun word slots => ?_⟩
  · refine .updateLeafStatus ?_ _
    refine form.shape rfl rfl fun i leaf => ?_
    obtain ⟨named, childless⟩ := shape.leaves i leaf
    refine ⟨?_, forall_mem_map.mpr fun e mem => ?_⟩
    · rwa [show links.tags (cache.nodes.map _) = _ from Links.tags_map id]
    · rw [parent]
      exact childless e mem
  · exact Trie.holds_map id parent (fun e => by change pages _ _ = _; rw [key]; rfl)
      (fun e => by change chunks _ _ = _; rw [value]; rfl)

lemma Shape.addLocks (delta : Int) (path : List TreeNode) :
    (path.foldl (Cache.addLock delta) cache).Shape c ∧
      ∀ word slots, (path.foldl (Cache.addLock delta) cache).Holds c word slots ↔
        cache.Holds c word slots := by
  apply foldlRecOn (motive := fun now => Shape c now ∧ ∀ word slots, now.Holds c word slots ↔
    cache.Holds c word slots) path _ ⟨shape, fun _ _ => .rfl⟩
  intro now before d _
  obtain ⟨once, same⟩ := before.1.addLock delta d
  exact ⟨once, fun word slots => (same word slots).trans (before.2 word slots)⟩

end Cache

end Sglang.Radix
