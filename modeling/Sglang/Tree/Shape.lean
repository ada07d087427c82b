/-
# The unified radix tree: the shape of the tree

`Core.Shape` is what every operation relies on without checking: links lead to the root,
names are fresh, keys are never empty, siblings differ in their first page, and Full and
SWA slots cover exactly the tokens of the key. `Grow` lists the edits that matching and
inserting are made of, `Shed` those of eviction and of backups, `Load` those of load-backs,
each with the facts it is made under; `Shape.grow`, `Shape.shed` and `Shape.load` say that
the shape survives them.
-/

import Sglang.Lib.Trie
import Sglang.Tree.Evict

namespace Sglang.Tree

open Sglang.Lib List Option Node

variable {π α : Type}

namespace Core

/-! ### What each primitive leaves alone -/

section

variable (core : Core π α) (ids : List Nat)
  (f : Node π α → Node π α)

@[simp] lemma nodes_modify :
    (core.modify ids f).nodes = core.nodes.map fun d => if d.id ∈ ids then f d else d := rfl

@[simp] lemma nodes_updateAll : (core.updateAll ids).nodes = core.nodes :=
  foldlRecOn (motive := fun core' => nodes core' = core.nodes) ids updateEvictableLeafSets rfl
    fun _ same _ _ => same

@[simp] lemma nextId_updateAll : (core.updateAll ids).nextId = core.nextId :=
  foldlRecOn (motive := fun core' => nextId core' = core.nextId) ids updateEvictableLeafSets rfl
    fun _ same _ _ => same

@[simp] lemma nextUuid_updateAll : (core.updateAll ids).nextUuid = core.nextUuid :=
  foldlRecOn (motive := fun core' => nextUuid core' = core.nextUuid) ids updateEvictableLeafSets rfl
    fun _ same _ _ => same

end

/-! ### Looking nodes up -/

variable {core : Core π α} {d e child : Node π α} {i n : Nat} {key : List π}

lemma mem_of_find? (found : core.find? i = some d) : d ∈ core.nodes ∧ d.id = i := by
  refine ⟨mem_of_find?_eq_some found, ?_⟩
  simpa using find?_some found

/-- A call on a node, which looks it up and asserts something of it. -/
lemma find?_guarded {β : Type} {p : Node π α → Prop} {_ : DecidablePred p}
    {f : Node π α → Option β} {out : β}
    (ran : ((core.find? i).bind fun d => if p d then f d else none) = some out) :
    ∃ d, core.find? i = some d ∧ d ∈ core.nodes ∧ d.id = i ∧ p d ∧ f d = some out := by
  obtain ⟨d, found, ran⟩ := Option.bind_eq_some_iff.mp ran
  obtain ⟨mem, named⟩ := mem_of_find? found
  exact ⟨d, found, mem, named, Option.ite_none_right_eq_some.mp ran⟩

lemma mem_tags_of_known (known : core.known i = true) : i = 0 ∨ i ∈ links.tags core.nodes := by
  simp only [Core.known, Bool.or_eq_true, decide_eq_true_eq] at known
  apply known.imp_right
  intro found
  obtain ⟨d, found⟩ := isSome_iff_exists.mp found
  obtain ⟨mem, rfl⟩ := mem_of_find? found
  exact Links.mem_tags mem

lemma mem_children : d ∈ core.children i ↔ d ∈ core.nodes ∧ d.parent = i := by
  simp [children]

lemma children_eq_nil : core.children i = [] ↔ ∀ e ∈ core.nodes, e.parent ≠ i := by
  simp [children]

lemma mem_of_child? [DecidableEq π] (found : core.child? i key = some d) :
    d ∈ core.nodes ∧ d.parent = i ∧ ∃ page rest rest', key = page :: rest ∧ d.key = page :: rest' := by
  obtain ⟨page, head, found⟩ := bind_eq_some_iff.mp found
  have named := find?_some found
  simp only [Bool.and_eq_true, decide_eq_true_eq] at named
  refine ⟨mem_of_find?_eq_some found, named.1, page, ?_⟩
  obtain ⟨rest, rfl⟩ := head?_eq_some_iff.mp head
  obtain ⟨rest', keyed⟩ := head?_eq_some_iff.mp named.2
  exact ⟨rest, rest', rfl, keyed⟩

lemma head?_ne_of_child? [DecidableEq π] (missing : core.child? i key = none) (mem : d ∈ core.nodes)
    (below : d.parent = i) (keyed : d.key ≠ []) : d.key.head? ≠ key.head? := by
  cases key with
  | nil => simpa using keyed
  | cons page rest =>
    rw [child?, head?_cons, bind_some, find?_eq_none] at missing
    simpa [below] using missing d mem

/-! ### The shape -/

/-- What every operation relies on without checking it. -/
structure Shape (c : Config) (core : Core π α) : Prop where
  rooted : links.Rooted core.nodes
  bound : ∀ d ∈ core.nodes, d.id < core.nextId
  next_pos : 0 < core.nextId
  keyed : ∀ d ∈ core.nodes, d.key ≠ []
  apart : ∀ d ∈ core.nodes, ∀ e ∈ core.nodes, d.parent = e.parent →
    d.key.head? = e.key.head? → d.id = e.id
  sized : ∀ d ∈ core.nodes, ∀ ct, ct ≠ .mamba → ∀ v,
    (d.data ct).value = some v ∨ (d.data ct).hostValue = some v → v.length = d.len c

/-- The tree of pages, without what its nodes hold. -/
def trie : Trie (Node π α) Nat π π where
  toLinks := links
  key := Node.key
  vals := Node.key

/-- The root, or a node with Full on the device. -/
def Resident (core : Core π α) (i : Nat) : Prop :=
  i = 0 ∨ ∃ d ∈ core.nodes, d.id = i ∧ d.evicted = false

lemma shape_reset (c : Config) : Shape c (reset : Core π α) where
  rooted := .nil
  bound := by simp [reset]
  next_pos := one_pos
  keyed := by simp [reset]
  apart := by simp [reset]
  sized := by simp [reset]

variable {c : Config} {core core' : Core π α} {f : Node π α → Node π α}

section

variable (shape : core.Shape c)
include shape

section

variable (mem : d ∈ core.nodes)
include mem

lemma Shape.eq_of_id (mem' : e ∈ core.nodes) (same : d.id = e.id) : d = e :=
  shape.rooted.eq_of_tag mem mem' same

lemma Shape.find? : core.find? d.id = some d := by
  have known : (core.find? d.id).isSome := by
    rw [Core.find?, find?_isSome]
    exact ⟨d, mem, by simp⟩
  obtain ⟨e, found⟩ := isSome_iff_exists.mp known
  obtain ⟨mem', same⟩ := mem_of_find? found
  rw [found, shape.eq_of_id mem' mem same]

lemma Shape.ne_zero : d.id ≠ 0 :=
  shape.rooted.tag_ne_root mem

lemma Shape.parent_lt : d.parent < core.nextId := by
  rcases shape.rooted.up_mem mem with top | inside
  · exact (show d.parent = 0 from top) ▸ shape.next_pos
  · obtain ⟨p, mem', named⟩ := mem_map.mp inside
    exact (show p.id = d.parent from named) ▸ shape.bound p mem'

end

lemma Shape.tree : trie.Shape core.nodes :=
  ⟨shape.rooted, shape.keyed, fun _ _ => rfl, shape.apart⟩

/-- Equal nodes and counters: the shape does not read the bookkeeping. -/
lemma Shape.congr (nodes : core'.nodes = core.nodes)
    (nextId : core'.nextId = core.nextId) : core'.Shape c where
  rooted := nodes ▸ shape.rooted
  bound := by rw [nodes, nextId]; exact shape.bound
  next_pos := nextId ▸ shape.next_pos
  keyed := nodes ▸ shape.keyed
  apart := nodes ▸ shape.apart
  sized := nodes ▸ shape.sized

/-- Rewriting node data in place. -/
lemma Shape.map (nodes : core'.nodes = core.nodes.map f)
    (nextId : core'.nextId = core.nextId) (id : ∀ d, (f d).id = d.id)
    (parent : ∀ d, (f d).parent = d.parent) (key : ∀ d, (f d).key = d.key)
    (sized : ∀ d ∈ core.nodes, ∀ ct, ct ≠ .mamba → ∀ v,
      ((f d).data ct).value = some v ∨ ((f d).data ct).hostValue = some v →
        v.length = d.len c) : core'.Shape c where
  rooted := nodes ▸ shape.rooted.map id parent
  bound := by
    simp only [nodes, nextId, List.forall_mem_map, id]
    exact shape.bound
  next_pos := nextId ▸ shape.next_pos
  keyed := nodes ▸ (shape.tree.map id parent key key).keyed
  apart := nodes ▸ (shape.tree.map id parent key key).apart
  sized := by
    simp only [nodes, List.forall_mem_map, len, key]
    exact sized

end

/-! ### Splitting -/

lemma between (c : Config) (n i new : Nat) :
    links.Between (δ := Node π α) i new (Node.lower c n new) (Node.upper c n new) where
  tag_lower _ named := named
  up_lower _ := rfl
  tag_upper _ := rfl
  up_upper _ := rfl

lemma nodes_splitNode (c : Config) (core : Core π α) (child : Node π α) (n : Nat) :
    (core.splitNode c child n).1.nodes = links.expand child.id (Node.lower c n core.nextId)
      (Node.upper c n core.nextId) core.nodes := rfl

section

variable (shape : core.Shape c)
include shape

/-- After a split a node is an old one, or one of the halves. -/
lemma Shape.mem_splitNode (mem : child ∈ core.nodes) :
    e ∈ (core.splitNode c child n).1.nodes ↔ (e ∈ core.nodes ∧ e.id ≠ child.id) ∨
        e = child.lower c n core.nextId ∨ e = child.upper c n core.nextId := by
  exact shape.rooted.mem_expand mem

lemma Shape.fresh_next : core.nextId ∉ links.tags core.nodes := by
  intro inside
  obtain ⟨d, mem, named⟩ := mem_map.mp inside
  exact absurd (shape.bound d mem) ((show d.id = core.nextId from named) ▸ lt_irrefl _)

lemma Shape.fresh : ¬ trie.Known core.nodes core.nextId :=
  not_or.mpr ⟨shape.next_pos.ne', shape.fresh_next⟩

lemma Shape.splitNode (mem : child ∈ core.nodes) (pos : 0 < n)
    (inside : n < child.key.length) : (core.splitNode c child n).1.Shape c := by
  have tree := shape.tree.expand mem (between c n child.id core.nextId) shape.fresh
    (take_append_drop n child.key) ⟨?_, ?_⟩ ⟨rfl, rfl⟩
  · refine ⟨tree.rooted, ?_, Nat.succ_pos _, tree.keyed, tree.apart, ?_⟩
    · refine shape.rooted.forall_mem_expand mem (fun e old => ?_) ?_ (Nat.lt_succ_self _)
      · exact Nat.lt_succ_of_lt (shape.bound e old)
      · exact Nat.lt_succ_of_lt (shape.bound child mem)
    intro e new ct other v stored
    have whole : ∀ w, (child.data ct).value = some w ∨ (child.data ct).hostValue = some w →
      w.length = child.len c := shape.sized child mem ct other
    rcases (shape.mem_splitNode mem).mp new with ⟨old, _⟩ | rfl | rfl
    · exact shape.sized e old ct other v stored
    · simp only [lower, other, if_false, ComponentData.lower, map_eq_some_iff] at stored
      rcases stored with ⟨w, held, rfl⟩ | ⟨w, held, rfl⟩
      · simp [whole w (.inl held), len, lower, Nat.sub_mul]
      · simp [whole w (.inr held), len, lower, Nat.sub_mul]
    · simp only [upper, other, if_false, ComponentData.upper, map_eq_some_iff] at stored
      rcases stored with ⟨w, held, rfl⟩ | ⟨w, held, rfl⟩
      · simp [whole w (.inl held), len, upper]
      · simp [whole w (.inr held), len, upper]
  · exact ne_nil_of_length_pos (by simp [trie, upper]; omega)
  · exact ne_nil_of_length_pos (by simp [trie, lower]; omega)

/-! ### Growing and removing -/

lemma Shape.cons (nodes : core'.nodes = d :: core.nodes)
    (nextId : core'.nextId = core.nextId + 1) (named : d.id = core.nextId)
    (under : d.parent = 0 ∨ d.parent ∈ links.tags core.nodes) (keyed : d.key ≠ [])
    (first : ∀ e ∈ core.nodes, e.parent = d.parent → e.key.head? ≠ d.key.head?)
    (sized : ∀ ct, ct ≠ .mamba → ∀ v,
      (d.data ct).value = some v ∨ (d.data ct).hostValue = some v → v.length = d.len c) :
    core'.Shape c := by
  have tree : trie.Shape core'.nodes :=
    nodes ▸ shape.tree.cons under (fun known => shape.fresh (named ▸ known)) keyed rfl first
  refine ⟨tree.rooted, ?_, nextId ▸ Nat.succ_pos _, tree.keyed, tree.apart,
    nodes ▸ forall_mem_cons.mpr ⟨sized, shape.sized⟩⟩
  rw [nodes, nextId]
  exact forall_mem_cons.mpr ⟨named ▸ Nat.lt_succ_self _, fun e old =>
    Nat.lt_succ_of_lt (shape.bound e old)⟩

lemma Shape.filter {keep : Node π α → Bool}
    (nodes : core'.nodes = core.nodes.filter keep) (nextId : core'.nextId = core.nextId)
    (closed : ∀ d ∈ core.nodes, keep d = true → ∀ p ∈ core.nodes, p.id = d.parent → keep p = true) :
    core'.Shape c where
  rooted := nodes ▸ shape.rooted.filter closed
  bound := by
    rw [nodes, nextId]
    exact fun e kept => shape.bound e (mem_of_mem_filter kept)
  next_pos := nextId ▸ shape.next_pos
  keyed := nodes ▸ fun e kept => shape.keyed e (mem_of_mem_filter kept)
  apart := nodes ▸ fun e kept x kept' =>
    shape.apart e (mem_of_mem_filter kept) x (mem_of_mem_filter kept')
  sized := nodes ▸ fun e kept => shape.sized e (mem_of_mem_filter kept)

/-! ### One node rewritten -/

/-- After rewriting one node, a node is an old one or the rewritten one. -/
lemma Shape.mem_modify (mem : d ∈ core.nodes) :
    e ∈ (core.modify [d.id] f).nodes ↔ (e ∈ core.nodes ∧ e.id ≠ d.id) ∨ e = f d := by
  rw [nodes_modify, List.mem_map]
  constructor
  · rintro ⟨e', old, rfl⟩
    by_cases here : e'.id = d.id
    · obtain rfl := shape.eq_of_id old mem here
      exact .inr (by simp)
    · exact .inl (by simp [here, old])
  · rintro (⟨old, away⟩ | rfl)
    · exact ⟨e, old, by simp [away]⟩
    · exact ⟨d, mem, by simp⟩

/-- Storing slots of the right number in one component. -/
lemma Shape.put (mem : d ∈ core.nodes) (ct : Component)
    (cd : Node π α → ComponentData α)
    (nodes : core'.nodes = (core.modify [d.id] fun d => d.put ct (cd d)).nodes)
    (nextId : core'.nextId = core.nextId)
    (sized : ct ≠ .mamba → ∀ v, (cd d).value = some v ∨ (cd d).hostValue = some v →
      v.length = d.len c) : core'.Shape c := by
  refine shape.map (nodes.trans (nodes_modify ..)) nextId ?_ ?_ ?_ fun e old ct' other v stored => ?_
  · intro e; split <;> rfl
  · intro e; split <;> rfl
  · intro e; split <;> rfl
  by_cases here : e.id = d.id
  · obtain rfl := shape.eq_of_id old mem here
    rw [if_pos (mem_singleton_self _)] at stored
    by_cases same : ct' = ct
    · subst same
      rw [put_data_self] at stored
      exact sized other v stored
    · rw [put_data_of_ne e _ same] at stored
      exact shape.sized e mem ct' other v stored
  · rw [if_neg (by simpa using here)] at stored
    exact shape.sized e old ct' other v stored

end

variable (core)

lemma nodes_unevictNodeOnInsert (d : Node π α) (v : List α) : (core.unevictNodeOnInsert d v).nodes =
      (core.modify [d.id] fun d => d.put .full { d.data .full with value := some v }).nodes := by
  unfold unevictNodeOnInsert
  split <;> rfl

lemma counters_unevictNodeOnInsert (d : Node π α) (v : List α) :
    (core.unevictNodeOnInsert d v).nextId = core.nextId ∧
      (core.unevictNodeOnInsert d v).nextUuid = core.nextUuid := by
  unfold unevictNodeOnInsert
  split <;> exact ⟨rfl, rfl⟩

lemma nodes_setComponentDeviceValue (i : Nat) (ct : Component) (v : List α) :
    (core.setComponentDeviceValue i ct v).nodes =
      (core.modify [i] fun d => d.put ct { d.data ct with value := some v }).nodes := by
  unfold setComponentDeviceValue
  cases found : core.find? i with
  | none =>
    have absent : ∀ d ∈ core.nodes, d.id ≠ i := by
      intro d mem
      have := find?_eq_none.mp found d mem
      simpa using this
    refine ((map_congr_left fun d mem => ?_).trans (map_id _)).symm
    simp [absent d mem]
  | some d =>
    dsimp only [Option.elim]
    split <;> rfl

lemma counters_setComponentDeviceValue (i : Nat) (ct : Component) (v : List α) :
    (core.setComponentDeviceValue i ct v).nextId = core.nextId ∧
      (core.setComponentDeviceValue i ct v).nextUuid = core.nextUuid := by
  unfold setComponentDeviceValue
  cases core.find? i with
  | none => exact ⟨rfl, rfl⟩
  | some d =>
    dsimp only [Option.elim]
    split <;> exact ⟨rfl, rfl⟩

lemma nodes_loadFull (i : Nat) (v : List α) :
    (core.loadFull i v).nodes = (core.setComponentDeviceValue i .full v).nodes := by
  unfold loadFull setComponentDeviceValue
  cases core.find? i with
  | none => rfl
  | some d => rfl

lemma counters_loadFull (i : Nat) (v : List α) : (core.loadFull i v).nextId = core.nextId ∧
    (core.loadFull i v).nextUuid = core.nextUuid := by
  unfold loadFull
  cases core.find? i with
  | none => exact ⟨rfl, rfl⟩
  | some d =>
    dsimp only [Option.elim]
    split <;> exact ⟨rfl, rfl⟩

end Core

/-! ### The edits of matching and inserting -/

/-- One edit of a match or an insert, with the split it makes: a child and its new
parent. -/
inductive Grow (c : Config) : Core π α → List (Nat × Nat) → Core π α → Prop
  | split {core : Core π α} {child : Node π α} {n : Nat} (mem : child ∈ core.nodes)
      (pos : 0 < n) (inside : n < child.key.length) :
      Grow c core [(child.id, core.nextId)] (core.splitNode c child n).1
  | leaf {core : Core π α} {parent : Nat} {key : List π} {value : List α}
      {rotationBase : Option Nat} (under : core.Resident parent) (keyed : key ≠ [])
      (sized : value.length = key.length * c.pageSize)
      (first : ∀ d ∈ core.nodes, d.parent = parent → d.key.head? ≠ key.head?) :
      Grow c core [] (core.addNewNode parent key value rotationBase).1
  | unevict {core : Core π α} {d : Node π α} {v : List α} (mem : d ∈ core.nodes)
      (evicted : d.evicted = true) (under : core.Resident d.parent)
      (sized : v.length = d.len c) : Grow c core [] (core.unevictNodeOnInsert d v)
  | store {core : Core π α} {d : Node π α} {ct : Component} {v : List α}
      (mem : d ∈ core.nodes) (aux : ct ≠ .full) (resident : d.evicted = false)
      (empty : (d.data ct).value = none) (sized : ct = .swa → v.length = d.len c) :
      Grow c core [] (core.setComponentDeviceValue d.id ct v)
  | adopt {core : Core π α} {d : Node π α} {v : List α} (mem : d ∈ core.nodes)
      (resident : d.evicted = false) (sized : v.length = d.len c) :
      Grow c core [] (core.modify [d.id] fun d =>
        d.put .full { d.data .full with value := some v })
  | note {core : Core π α} {ids : List Nat} {f : Node π α → Node π α}
      (bare : ∀ d, (f d).id = d.id ∧ (f d).parent = d.parent ∧ (f d).key = d.key ∧
        (f d).data = d.data) : Grow c core [] (core.modify ids f)

/-- A sequence of such edits. -/
inductive Grows (c : Config) : Core π α → List (Nat × Nat) → Core π α → Prop
  | refl {core : Core π α} : Grows c core [] core
  | tail {core mid core' : Core π α} {log log' : List (Nat × Nat)}
      (before : Grows c core log mid) (edit : Grow c mid log' core') :
      Grows c core (log ++ log') core'

/-! ### The edits of eviction and of the host tier -/

/-- One edit of an eviction or a backup. -/
inductive Shed (c : Config) : Core π α → Core π α → Prop
  | aux {core : Core π α} {d : Node π α} {ct : Component} (mem : d ∈ core.nodes)
      (aux : ct ≠ .full) (unlocked : (d.data ct).lockRef = 0) :
      Shed c core (core.evictValues ct [d])
  | full {core : Core π α} {d : Node π α} (mem : d ∈ core.nodes) (unlocked : d.locked = false)
      (backuped : d.backuped = true) (bare : ∀ ct, ct ≠ .full → (d.data ct).value = none)
      (childless : ∀ e ∈ core.children d.id, e.evicted = true) :
      Shed c core (core.evictValues .full [d])
  | remove {core : Core π α} {d : Node π α} (mem : d ∈ core.nodes)
      (unlocked : d.locked = false) (childless : core.children d.id = []) :
      Shed c core (core.removeNode d)
  | leaves {core : Core π α} {device host : Finset Nat} :
      Shed c core { core with evictableDeviceLeaves := device, evictableHostLeaves := host }
  | putHost {core : Core π α} {d : Node π α} {ct : Component} {v : List α}
      (mem : d ∈ core.nodes) (sized : ct ≠ .mamba → v.length = d.len c)
      (above : ct = .full → c.isWriteBack = false → d.parent = 0 ∨
        ∃ p ∈ core.nodes, p.id = d.parent ∧ p.backuped = true) :
      Shed c core (core.modify [d.id] (Core.putHost ct v))
  | dropHost {core : Core π α} {d : Node π α} {ct : Component} (mem : d ∈ core.nodes)
      (spare : ct = .full → c.isWriteBack = true ∧ d.evicted = false) :
      Shed c core (core.modify [d.id] (Core.dropHost ct))

/-- One edit of a load-back. -/
inductive Load (c : Config) : Core π α → Core π α → Prop
  | full {core : Core π α} {d : Node π α} {v : List α} (mem : d ∈ core.nodes)
      (evicted : d.evicted = true) (under : core.Resident d.parent)
      (sized : v.length = d.len c) : Load c core (core.loadFull d.id v)
  | leaves {core : Core π α} {device host : Finset Nat} :
      Load c core { core with evictableDeviceLeaves := device, evictableHostLeaves := host }
  | grow {core core' : Core π α} (edit : Grow c core [] core') : Load c core core'

namespace Core

variable {c : Config} {core core' : Core π α} {log : List (Nat × Nat)}

lemma Resident.tag_mem {i : Nat} (resident : core.Resident i) :
    i = 0 ∨ i ∈ links.tags core.nodes := by
  rcases resident with rfl | ⟨d, mem, rfl, _⟩
  · exact .inl rfl
  · exact .inr (Links.mem_tags mem)

/-- Noting something on some nodes keeps names, links, keys and data. -/
lemma bare_ite (ids : List Nat) {f : Node π α → Node π α}
    (bare : ∀ d, (f d).id = d.id ∧ (f d).parent = d.parent ∧ (f d).key = d.key ∧
      (f d).data = d.data) (d : Node π α) :
    (if d.id ∈ ids then f d else d).id = d.id ∧ (if d.id ∈ ids then f d else d).parent = d.parent ∧
      (if d.id ∈ ids then f d else d).key = d.key ∧
      (if d.id ∈ ids then f d else d).data = d.data := by
  split
  · exact bare d
  · exact ⟨rfl, rfl, rfl, rfl⟩

variable (shape : core.Shape c) {d : Node π α}
include shape

theorem Shape.grow (edit : Grow c core log core') : core'.Shape c := by
  cases edit with
  | split mem pos inside => exact shape.splitNode mem pos inside
  | leaf under keyed sized first =>
    apply shape.cons rfl rfl rfl under.tag_mem keyed first
    intro ct other v stored
    cases ct with
    | full =>
      simp only [if_true, some.injEq, reduceCtorEq, or_false] at stored
      exact stored ▸ sized
    | swa => simp at stored
    | mamba => exact absurd rfl other
  | unevict mem _ _ sized =>
    apply shape.put mem .full _ (nodes_unevictNodeOnInsert ..) (counters_unevictNodeOnInsert ..).1
    rintro other w (stored | stored)
    · exact some.inj stored ▸ sized
    · exact shape.sized _ mem .full other w (.inr stored)
  | @store d ct v mem aux _ _ sized =>
    apply shape.put mem ct _ (nodes_setComponentDeviceValue ..)
      (counters_setComponentDeviceValue ..).1
    rintro other w (stored | stored)
    · have swa : ct = .swa := by
        cases ct with
        | full => exact absurd rfl aux
        | swa => rfl
        | mamba => exact absurd rfl other
      exact some.inj stored ▸ sized swa
    · exact shape.sized d mem ct other w (.inr stored)
  | adopt mem _ sized =>
    apply shape.put mem .full _ rfl rfl
    rintro other w (stored | stored)
    · exact some.inj stored ▸ sized
    · exact shape.sized _ mem .full other w (.inr stored)
  | @note ids f bare =>
    have bare := bare_ite ids bare
    apply shape.map (nodes_modify ..) rfl (fun d => (bare d).1) (fun d => (bare d).2.1)
      (fun d => (bare d).2.2.1)
    intro d mem
    rw [(bare d).2.2.2]
    exact shape.sized d mem

lemma Shape.grows (edits : Grows c core log core') : core'.Shape c := by
  induction edits with
  | refl => exact shape
  | tail _ edit ih => exact ih.grow edit

lemma Shape.dropValue (mem : d ∈ core.nodes)
    (ct : Component) : (core.evictValues ct [d]).Shape c := by
  refine shape.put mem ct (fun d => { d.data ct with value := none }) rfl rfl ?_
  rintro other w (stored | stored)
  · simp at stored
  · exact shape.sized d mem ct other w (.inr stored)

lemma Shape.removeNode (childless : core.children d.id = []) : (core.removeNode d).Shape c := by
  refine shape.filter rfl rfl ?_
  intro e old _ p _ named
  exact decide_eq_true fun gone => children_eq_nil.mp childless e old (named ▸ gone)

theorem Shape.shed (edit : Shed c core core') : core'.Shape c := by
  cases edit with
  | aux mem | full mem => exact shape.dropValue mem _
  | remove _ _ childless => exact shape.removeNode childless
  | leaves => exact shape.congr rfl rfl
  | @putHost d ct v mem sized _ =>
    apply shape.put mem ct (fun d => { d.data ct with hostValue := some v }) rfl rfl
    rintro other w (stored | stored)
    · exact shape.sized d mem ct other w (.inl stored)
    · exact some.inj stored ▸ sized other
  | @dropHost d ct mem _ =>
    apply shape.put mem ct (fun d => { d.data ct with hostValue := none }) rfl rfl
    rintro other w (stored | stored)
    · exact shape.sized d mem ct other w (.inl stored)
    · simp at stored

theorem Shape.load (edit : Load c core core') : core'.Shape c := by
  cases edit with
  | full mem _ _ sized =>
    apply shape.put mem .full _ ((nodes_loadFull ..).trans (nodes_setComponentDeviceValue ..))
      (counters_loadFull ..).1
    rintro other w (stored | stored)
    · exact some.inj stored ▸ sized
    · exact shape.sized _ mem .full other w (.inr stored)
  | leaves => exact shape.congr rfl rfl
  | grow edit => exact shape.grow edit

end Core

end Sglang.Tree
