/-
# The unified radix tree: Full slots under an insert

Every edit an insert makes either leaves all Full slots where they are (`Still`: splits,
windows, Mamba states, hit counts) or settles the slots of one node against those of the
request (`Settled`): they duplicate the node's and are freed, replace them, or fill a node
that has none.

* `Core.slots`, `Core.line` — the Full slots of the tree, and those along a path.
* `InsertWalk.adopt_settled` — what one step of the walk does with them.
-/

import Sglang.Tree.Match

namespace Sglang.Tree

open Sglang.Lib List

open Links (mem_tags weigh)

variable {π α : Type} {v : List α}

/-- The Full device slots of a node. -/
def Node.slots (d : Node π α) : List α := (d.data .full).value.getD []

namespace Core

/-- The Full device slots of the tree. -/
def slots (core : Core π α) : List α := core.nodes.flatMap Node.slots

/-- The Full device slots from the root down to a node. -/
def line (core : Core π α) (i : Nat) : List α := (core.spine i).reverse.flatMap Node.slots

/-- The pages from the root down to a node. -/
def route (core : Core π α) (i : Nat) : List π := pages (core.spine i).reverse

end Core

namespace Core

variable {c : Config} {core core' : Core π α} {d child : Node π α} {i : Nat}
  {f : Node π α → Node π α}

/-! ### Lines and routes under edits -/

section

variable (shape : core.Shape c)
include shape

lemma Shape.line_id (mem : d ∈ core.nodes) : core.line d.id = core.line d.parent ++ d.slots := by
  simp [line, shape.spine_id mem]

lemma Shape.route_id (mem : d ∈ core.nodes) : core.route d.id = core.route d.parent ++ d.key := by
  simp [route, shape.spine_id mem, pages]

lemma Shape.length_slots (mem : d ∈ core.nodes)
    (resident : d.evicted = false) : d.slots.length = d.len c := by
  obtain ⟨v, held⟩ := Node.exists_value resident
  rw [Node.slots, held]
  exact shape.sized d mem .full (by decide) v (.inl held)

lemma Shape.line_root : core.line 0 = [] := by
  simp [line, spine, show links.spine core.nodes 0 = [] from shape.rooted.spine_root]

lemma Shape.route_root : core.route 0 = [] := by
  simp [route, spine, show links.spine core.nodes 0 = [] from shape.rooted.spine_root]

end

lemma route_map (nodes : core'.nodes = core.nodes.map f)
    (id : ∀ d, (f d).id = d.id) (parent : ∀ d, (f d).parent = d.parent)
    (key : ∀ d, (f d).key = d.key) (i : Nat) : core'.route i = core.route i := by
  rw [route, spine_map nodes id parent, pages, ← map_reverse, flatMap_map]
  exact flatMap_congr fun d _ => key d

lemma line_map (nodes : core'.nodes = core.nodes.map f)
    (id : ∀ d, (f d).id = d.id) (parent : ∀ d, (f d).parent = d.parent)
    (same : ∀ d ∈ core.spine i, (f d).slots = d.slots) : core'.line i = core.line i := by
  rw [line, spine_map nodes id parent, ← map_reverse, flatMap_map]
  exact flatMap_congr fun d on => same d (mem_reverse.mp on)

lemma slots_halves (c : Config) (d : Node π α) (n new : Nat) :
    (d.upper c n new).slots ++ (d.lower c n new).slots = d.slots := by
  unfold Node.slots Node.upper Node.lower ComponentData.upper ComponentData.lower
  cases held : (d.data .full).value with
  | none => simp [held]
  | some v => simp [held]

/-- A split changes neither what a path holds nor what it spells. -/
lemma Shape.line_splitNode (shape : core.Shape c) (mem : child ∈ core.nodes)
    (n : Nat) (known : i = 0 ∨ i ∈ links.tags core.nodes) :
    (core.splitNode c child n).1.line i = core.line i ∧
      (core.splitNode c child n).1.route i = core.route i := by
  have alone : ∀ d ∈ core.spine i, d.id = child.id → d = child := fun d on =>
    shape.eq_of_id (Links.mem_of_mem_spine on) mem
  rw [line, route, shape.spine_splitNode child n known]
  exact ⟨Links.flatMap_expand (slots_halves c child n core.nextId) alone,
    Links.flatMap_expand (take_append_drop n child.key) alone⟩

lemma mem_slots_of_line {s : α} (on : s ∈ core.line i) : s ∈ core.slots := by
  obtain ⟨d, path, held⟩ := mem_flatMap.mp on
  exact mem_flatMap.mpr ⟨d, Links.mem_of_mem_spine (mem_reverse.mp path), held⟩

/-- Only the paths through a node change when its slots are replaced. -/
lemma Shape.line_put (shape : core.Shape c) (mem : d ∈ core.nodes)
    (nodes : core'.nodes =
      (core.modify [d.id] fun d => d.put .full { d.data .full with value := some v }).nodes) :
    core'.route d.id = core.route d.id ∧ core'.line d.id = core.line d.parent ++ v := by
  have id : ∀ e : Node π α, (if e.id ∈ [d.id] then
      e.put .full { e.data .full with value := some v } else e).id = e.id := by
    intro e; split <;> rfl
  have parent : ∀ e : Node π α, (if e.id ∈ [d.id] then
      e.put .full { e.data .full with value := some v } else e).parent = e.parent := by
    intro e; split <;> rfl
  refine ⟨route_map nodes id parent (fun e => by split <;> rfl) d.id, ?_⟩
  have apart := shape.rooted.nodup_spine d.id
  rw [show links.spine core.nodes d.id = d :: core.spine d.parent from shape.spine_id mem] at apart
  have above : ∀ e ∈ (core.spine d.parent).reverse, e.id ∉ [d.id] := by
    intro e on same
    have named : links.tag e = links.tag d := mem_singleton.mp same
    exact (nodup_cons.mp apart).1 (named ▸ mem_tags (mem_reverse.mp on))
  rw [line, spine_map nodes id parent, shape.spine_id mem, map_cons, reverse_cons,
    flatMap_append, ← map_reverse, flatMap_map]
  congr 1
  · exact flatMap_congr fun e on => by rw [if_neg (above e on)]
  · simp [Node.slots]

/-! ### Counting slots -/

variable [DecidableEq α]

/-- The weight of a node in the count of one slot. -/
def weight (s : α) (d : Node π α) : Int := d.slots.count s

lemma count_slots (core : Core π α) (s : α) :
    (core.slots.count s : Int) = weigh (weight s) core.nodes := by
  unfold slots weigh
  induction core.nodes with
  | nil => rfl
  | cons d ds ih =>
    rw [map_cons, sum_cons, ← ih]
    simp [weight]

lemma count_map (nodes : core'.nodes = core.nodes.map f)
    (same : ∀ d, (f d).slots = d.slots) (s : α) : core'.slots.count s = core.slots.count s := by
  rw [slots, nodes, flatMap_map]
  exact congrArg (count s) (flatMap_congr fun d _ => same d)

lemma Shape.count_splitNode (shape : core.Shape c) (mem : child ∈ core.nodes) (n : Nat) (s : α) :
    (core.splitNode c child n).1.slots.count s = core.slots.count s := by
  have halves := congrArg (count s) (slots_halves c child n core.nextId)
  rw [count_append] at halves
  have after := count_slots (core.splitNode c child n).1 s
  have before := count_slots core s
  rw [nodes_splitNode, show child.id = links.tag child from rfl,
    Links.weigh_expand shape.rooted.nodup mem] at after
  simp only [weight] at after
  omega

/-- One node's slots are replaced. -/
lemma Shape.count_put (shape : core.Shape c) (mem : d ∈ core.nodes)
    (nodes : core'.nodes =
      (core.modify [d.id] fun d => d.put .full { d.data .full with value := some v }).nodes)
    (s : α) : core'.slots.count s + d.slots.count s = core.slots.count s + v.count s := by
  have weighed := shape.weigh_modify mem (f := fun d =>
    d.put .full { d.data .full with value := some v }) (weight s)
  rw [← nodes] at weighed
  have stored : weight s (d.put .full { d.data .full with value := some v }) = v.count s := by
    simp [weight, Node.slots]
  rw [stored, ← count_slots, ← count_slots] at weighed
  simp only [weight] at weighed
  omega

end Core

/-! ### Edits that leave every slot where it is -/

namespace InsertWalk

variable {c : Config} {p : InsertParams π α} {w w' w'' w₁ clipped : InsertWalk π α} {d e : Node π α}

variable [DecidableEq α]

/-- `w'` is `w` after edits that move no Full slot. -/
structure Still (c : Config) (w w' : InsertWalk π α) : Prop where
  extends_ : Extends c w w'
  known : ∀ i, i = 0 ∨ i ∈ links.tags w.core.nodes → i = 0 ∨ i ∈ links.tags w'.core.nodes
  line : ∀ i, i = 0 ∨ i ∈ links.tags w.core.nodes → w'.core.line i = w.core.line i
  route : ∀ i, i = 0 ∨ i ∈ links.tags w.core.nodes → w'.core.route i = w.core.route i
  stored : ∀ s, w'.core.slots.count s = w.core.slots.count s
  freed : freed w'.actions = freed w.actions

lemma Still.refl : Still c w w :=
  ⟨.refl, fun _ known => known, fun _ _ => rfl, fun _ _ => rfl, fun _ => rfl, rfl⟩

lemma Still.trans (first : Still c w w') (second : Still c w' w'') : Still c w w'' where
  extends_ := first.extends_.trans second.extends_
  known i known := second.known i (first.known i known)
  line i known := (second.line i (first.known i known)).trans (first.line i known)
  route i known := (second.route i (first.known i known)).trans (first.route i known)
  stored s := (second.stored s).trans (first.stored s)
  freed := second.freed.trans first.freed

lemma Still.emit (still : Still c w w') {actions : List (Action α)}
    (keeps : Tree.freed actions = []) : Still c w (w'.emit actions) := by
  refine { still with extends_ := still.extends_.emit actions, freed := ?_ }
  change Tree.freed (w'.actions ++ actions) = _
  rw [freed_append, keeps, append_nil, still.freed]

/-- Nodes are rewritten in place, and none of them changes its Full slots. -/
lemma Still.of_map {core' : Core π α} {f : Node π α → Node π α}
    (extends_ : Extends c w { w with core := core' }) (nodes : core'.nodes = w.core.nodes.map f)
    (id : ∀ d, (f d).id = d.id) (parent : ∀ d, (f d).parent = d.parent)
    (key : ∀ d, (f d).key = d.key) (slots : ∀ d, (f d).slots = d.slots) :
    Still c w { w with core := core' } where
  extends_ := extends_
  known i known := by rwa [show links.tags core'.nodes = links.tags w.core.nodes by
    rw [nodes, Links.tags_map id]]
  line _ _ := Core.line_map nodes id parent fun d _ => slots d
  route i _ := Core.route_map nodes id parent key i
  stored := Core.count_map nodes slots
  freed := rfl

omit [DecidableEq α] in
lemma freed_splitNode (core : Core π α) (child : Node π α) (n : Nat) :
    freed (core.splitNode c child n).2.2.toList = [] := by
  unfold Core.splitNode
  cases child.writeThroughPendingId with
  | none => rfl
  | some ackId => rfl

lemma split_still (shape : w.core.Shape c) (mem : d ∈ w.core.nodes) {n : Nat} (pos : 0 < n)
    (inside : n < d.key.length) : Still c w (w.split c d n).1 where
  extends_ := split_extends mem pos inside
  known i known := known.imp_right fun tag =>
    (Links.mem_tags_expand (Core.between c n d.id w.core.nextId)).mpr (.inl tag)
  line _ known := (shape.line_splitNode mem n known).1
  route _ known := (shape.line_splitNode mem n known).2
  stored := shape.count_splitNode mem n
  freed := by
    change freed (w.actions ++ (w.core.splitNode c d n).2.2.toList) = _
    rw [freed_append, freed_splitNode, append_nil]

/-- A component other than Full takes a value. -/
lemma store_still (ct : Component) (v : List α) (i : Nat) (aux : ct ≠ .full)
    (extends_ : Extends c w { w with core := w.core.setComponentDeviceValue i ct v }) :
    Still c w { w with core := w.core.setComponentDeviceValue i ct v } := by
  refine .of_map extends_ (Core.nodes_setComponentDeviceValue ..) ?_ ?_ ?_ ?_
  all_goals intro d; dsimp only; split
  all_goals first
    | rfl
    | exact congrArg (fun cd => cd.value.getD [])
        (Node.put_data_of_ne d _ aux.symm)

lemma Edits.still (edits : Edits c w w') (shape : w.core.Shape c) : Still c w w' := by
  induction edits with
  | refl => exact .refl
  | tail before edit ih =>
    apply ih.trans
    cases edit with
    | split mem pos inside => exact split_still (ih.extends_.shape shape) mem pos inside
    | store aux grow => exact store_still _ _ _ aux (.of_grow grow)
    | note bare =>
      refine .of_map (.of_grow (.note bare)) (Core.nodes_modify ..) ?_ ?_ ?_ ?_
      all_goals intro d; split <;> simp [Node.slots, bare]
    | emit quiet => exact Still.refl.emit quiet

/-! ### One step of the walk -/

/-- What becomes of the slots that overlap a node: `kept` are the node's afterwards. -/
structure Settled (c : Config) (prev : Nat) (d : Node π α) (slice kept : List α)
    (w w' : InsertWalk π α) : Prop where
  extends_ : Extends c w w'
  known : d.id ∈ links.tags w'.core.nodes
  route : w'.core.route d.id = w.core.route d.id
  line : w'.core.line d.id = w.core.line d.parent ++ kept
  sized : kept.length = slice.length
  place : ∀ k, kept[k]? = slice[k]? ∨ (prev ≤ w.total + k ∧ ∀ s ∈ slice[k]?, s ∈ freed w'.actions)
  more : ∀ s ∈ freed w.actions, s ∈ freed w'.actions
  balance : ∀ s, w'.core.slots.count s + (freed w'.actions).count s =
    w.core.slots.count s + (freed w.actions).count s + (slice.drop (prev - w.total)).count s

omit [DecidableEq α] in
lemma freed_freeDuplicates (slice : List α) (m : Nat) (short : m ≤ slice.length) :
    freed (w.freeDuplicates p slice m).actions =
      freed w.actions ++ (slice.take m).drop (p.prevPrefixLen - w.total) := by
  have size : ((slice.take m).drop (p.prevPrefixLen - w.total)).length =
      m - (p.prevPrefixLen - w.total) := by simp [short]
  unfold freeDuplicates
  dsimp only
  generalize (slice.take m).drop (p.prevPrefixLen - w.total) = dup at size
  split
  · change freed (w.actions ++ _) = _
    -- the two frees split the duplicates at the request's floor
    generalize min (p.swaEvictedSeqlen - (w.total + (p.prevPrefixLen - w.total))) dup.length = n
    rcases Nat.eq_zero_or_pos n with rfl | pos
    · cases dup <;> simp [freed, Action.freed]
    · rw [if_pos pos]
      split
      · simp [freed, Action.freed]
      · rename_i all
        simp [freed, Action.freed, take_of_length_le (Nat.le_of_not_lt all)]
  · rw [eq_nil_of_length_eq_zero (by omega : dup.length = 0), append_nil]

/-- A node gives up its slots for those of the request; what follows moves none. -/
lemma put_settled {prev : Nat} (shape : w.core.Shape c)
    (mem : d ∈ w.core.nodes) (extends_ : Extends c w w') (nodes : w₁.core.nodes =
      (w.core.modify [d.id] fun d => d.put .full { d.data .full with value := some v }).nodes)
    (gone : freed w₁.actions = freed w.actions ++ d.slots) (still : Still c w₁ w')
    (handed : prev ≤ w.total) : Settled c prev d v v w w' := by
  have inside := (shape.mem_modify mem (f := fun d => d.put .full
    { d.data .full with value := some v })).mpr (.inr rfl)
  have named := mem_tags (k := links) (nodes ▸ inside)
  obtain ⟨route, line⟩ := shape.line_put mem nodes
  refine ⟨extends_, ?_, (still.route _ (.inr named)).trans route,
    (still.line _ (.inr named)).trans line, rfl, fun _ => .inl rfl, ?_, ?_⟩
  · exact (still.known d.id (.inr named)).resolve_left (shape.ne_zero mem)
  · intro s out
    rw [still.freed, gone]
    exact mem_append_left _ out
  · intro s
    have swapped := shape.count_put mem nodes s
    rw [still.freed, still.stored, gone, count_append, Nat.sub_eq_zero_of_le handed, drop_zero]
    omega

/-- The window of a node is recovered: the request's slots replace the node's, or, under a
lock, only lend it their window. -/
lemma recoverFromIncoming_settled (shape : w.core.Shape c) (mem : d ∈ w.core.nodes)
    (resident : d.evicted = false) (empty : (d.data .swa).value = none) (incoming : List α)
    (sized : incoming.length = d.len c) :
    ∃ kept, Settled c w.total d incoming kept w (w.recoverFromIncoming p d incoming) := by
  have extends_ := recoverFromIncoming_extends (p := p) shape mem resident empty sized
  unfold recoverFromIncoming at extends_ ⊢
  split at extends_
  · rename_i locked
    rw [if_pos locked]
    have still := store_still (w := w) .swa (incoming.map p.fullToSwa) d.id (by decide)
      { extends_ with }
    have lent : freed (w.actions ++ [.recoverSwaWithLockedFull d.id
        ((d.data .full).value.getD []) incoming]) = freed w.actions ++ incoming := by
      simp [freed, Action.freed]
    refine ⟨d.slots, extends_, ?_, still.route _ (.inr (mem_tags mem)), ?_, ?_, ?_, ?_, ?_⟩
    · exact (still.known d.id (.inr (mem_tags mem))).resolve_left (shape.ne_zero mem)
    · exact (still.line _ (.inr (mem_tags mem))).trans (shape.line_id mem)
    · rw [sized, shape.length_slots mem resident]
    · refine fun k => .inr ⟨Nat.le_add_right _ _, fun s there => ?_⟩
      change s ∈ freed (w.actions ++ _)
      rw [lent]
      exact mem_append_right _ (mem_of_getElem? there)
    · intro s out
      change s ∈ freed (w.actions ++ _)
      rw [lent]
      exact mem_append_left _ out
    · intro s
      have same : (w.core.setComponentDeviceValue d.id .swa (incoming.map p.fullToSwa)).slots.count
        s = _ := still.stored s
      change (w.core.setComponentDeviceValue d.id .swa _).slots.count s +
        (freed (w.actions ++ _)).count s = _
      rw [lent, count_append, Nat.sub_self, drop_zero]
      omega
  · rename_i unlocked
    rw [if_neg unlocked]
    have adopted := Extends.of_grow (.adopt mem resident sized)
    have shape' := adopted.shape shape
    have inside := (shape.mem_modify mem (f := fun d => d.put .full
      { d.data .full with value := some incoming })).mpr (.inr rfl)
    have edits := publishWindow_edits (p := p) (w := { w with core := (w.core.modify [d.id]
      fun d => d.put .full { d.data .full with value := some incoming }) }.emit
        [.freeDeviceKVFullOnly ((d.data .full).value.getD [])]) shape' inside
      (by simp [Node.evicted]) (by rwa [Node.put_data_of_ne d _ (by decide)])
    refine ⟨incoming, put_settled shape mem extends_ rfl ?_ (edits.still shape') le_rfl⟩
    change freed (w.actions ++ _) = _
    simp [freed, Action.freed, Node.slots]

omit [DecidableEq α] in
lemma freeDuplicates_core (slice : List α) (m : Nat) :
    (w.freeDuplicates p slice m).core = w.core := by
  unfold freeDuplicates
  dsimp only
  split <;> rfl

variable {slice : List α}

omit [DecidableEq α] in
/-- A node keeps its first `m` slots; of the request's, those from `q` on are freed there. -/
lemma place_append {slots : List α} (kept out : List α) {q : Nat} (m : Nat)
    (own : slots.take q = slice.take q) (size : slots.length = slice.length)
    (dup : ∀ s ∈ (slice.take m).drop q, s ∈ out) (rest : ∀ j : Nat, kept[j]? = (slice.drop m)[j]? ∨
      (q ≤ m ∧ ∀ s ∈ (slice.drop m)[j]?, s ∈ out)) (short : m ≤ slice.length) (k : Nat) :
    (slots.take m ++ kept)[k]? = slice[k]? ∨ (q ≤ k ∧ ∀ s ∈ slice[k]?, s ∈ out) := by
  have cut : (slots.take m).length = m := by simp [size, short]
  by_cases early : k < m
  · rw [getElem?_append_left (by omega), getElem?_take_of_lt early]
    by_cases owned : k < q
    · left
      rw [← getElem?_take_of_lt owned, own, getElem?_take_of_lt owned]
    · refine .inr ⟨Nat.le_of_not_lt owned, fun s there => dup s ?_⟩
      apply mem_of_getElem?
      rw [getElem?_drop, show q + (k - q) = k by omega, getElem?_take_of_lt early]
      exact there
  · have shifted : (slice.drop m)[k - m]? = slice[k]? := by
      rw [getElem?_drop, show m + (k - m) = k by omega]
    rw [getElem?_append_right (by omega), cut, ← shifted]
    exact (rest (k - m)).imp_right fun ⟨le, gone⟩ => ⟨by omega, gone⟩

variable (shape : w.core.Shape c)
include shape

section

variable (mem : d ∈ w.core.nodes)
  (size : d.slots.length = slice.length)
  (own : d.slots.take (p.prevPrefixLen - w.total) = slice.take (p.prevPrefixLen - w.total))
include mem size own

/-- A node on the device that keeps its slots: the request's duplicates are freed. -/
lemma untouched_settled :
    Settled c p.prevPrefixLen d slice d.slots w (w.freeDuplicates p slice slice.length) := by
  have gone := freed_freeDuplicates (w := w) (p := p) slice slice.length le_rfl
  rw [take_length] at gone
  refine ⟨freeDuplicates_extends slice slice.length, ?_, ?_, ?_, size, ?_, ?_, ?_⟩
  · rw [freeDuplicates_core]
    exact mem_tags mem
  · rw [freeDuplicates_core]
  · rw [freeDuplicates_core, shape.line_id mem]
  · intro k
    have placed := place_append [] (freed (w.freeDuplicates p slice slice.length).actions)
      slice.length own size
      (fun s there => by
        rw [gone]
        exact mem_append_right _ (by rwa [take_length] at there))
      (fun j => .inl (by rw [drop_length])) le_rfl k
    rw [append_nil, take_of_length_le size.le] at placed
    exact placed.imp_right fun ⟨le, out⟩ => ⟨by omega, out⟩
  · intro s out
    rw [gone]
    exact mem_append_left _ out
  · intro s
    rw [freeDuplicates_core, gone, count_append]
    omega

/-- A node whose window is recovered from its `m`-th token on; before it the request's
duplicates are freed. -/
lemma recovered_settled {m : Nat} (still : Still c w clipped) (inside : e ∈ clipped.core.nodes)
    (same : e.id = d.id) (resident : e.evicted = false) (empty : (e.data .swa).value = none)
    (span : m + e.len c = slice.length) (beyond : p.prevPrefixLen - w.total ≤ m) :
    ∃ kept, Settled c p.prevPrefixLen d slice kept w
      ((clipped.recoverFromIncoming p e (slice.drop m)).freeDuplicates p slice m) := by
  have shape' := still.extends_.shape shape
  have named : d.id = 0 ∨ d.id ∈ links.tags w.core.nodes := .inr (mem_tags mem)
  obtain ⟨kept, settled⟩ := recoverFromIncoming_settled shape' inside resident empty
    (slice.drop m) (by rw [length_drop]; omega)
  have total : (clipped.recoverFromIncoming p e (slice.drop m)).total = w.total :=
    settled.extends_.total.trans still.extends_.total
  have gone := freed_freeDuplicates (w := clipped.recoverFromIncoming p e (slice.drop m)) (p := p)
    slice m (by omega)
  rw [total] at gone
  -- what the node held before the cut is on its parent now
  have above : clipped.core.line e.parent = w.core.line d.parent ++ d.slots.take m := by
    have path := still.line d.id named
    rw [← same, shape'.line_id inside, same, shape.line_id mem,
      ← take_append_drop m d.slots, ← append_assoc] at path
    apply append_inj_left' path
    rw [shape'.length_slots inside resident, length_drop]
    omega
  refine ⟨d.slots.take m ++ kept, ?_, ?_, ?_, ?_, ?_, ?_, ?_, ?_⟩
  · exact (still.extends_.trans settled.extends_).trans (freeDuplicates_extends slice m)
  · rw [freeDuplicates_core, ← same]
    exact settled.known
  · rw [freeDuplicates_core, ← same, settled.route, same, still.route d.id named]
  · rw [freeDuplicates_core, ← same, settled.line, above, append_assoc]
  · have kept_size := settled.sized
    rw [length_drop] at kept_size
    rw [length_append, length_take]
    omega
  · intro k
    have placed := place_append kept (freed ((clipped.recoverFromIncoming p e
      (slice.drop m)).freeDuplicates p slice m).actions) m own size
      (fun s => by rw [gone]; exact mem_append_right _)
      (fun j => (settled.place j).imp_right fun ⟨_, out⟩ => ⟨beyond, fun s there => by
        rw [gone]; exact mem_append_left _ (out s there)⟩) (by omega) k
    exact placed.imp_right fun ⟨le, out⟩ => ⟨by omega, out⟩
  · intro s out
    rw [← still.freed] at out
    rw [gone]
    exact mem_append_left _ (settled.more s out)
  · intro s
    have balance := settled.balance s
    have parts : (slice.drop (p.prevPrefixLen - w.total)).count s =
        ((slice.take m).drop (p.prevPrefixLen - w.total)).count s + (slice.drop m).count s := by
      rw [← count_append, ← drop_append_of_le_length (by simp; omega), take_append_drop]
    rw [Nat.sub_self, drop_zero, still.stored s, still.freed] at balance
    rw [freeDuplicates_core, gone, count_append]
    omega

end

variable (mem : d ∈ w.core.nodes)
include mem

/-- A node on the device. -/
lemma overlap_settled (resident : d.evicted = false) (aligned : w.total % c.pageSize = 0)
    (whole : d.len c = slice.length)
    (own : d.slots.take (p.prevPrefixLen - w.total) = slice.take (p.prevPrefixLen - w.total))
    (cut : c.hasSwa = true → w.total < p.prevPrefixLen → p.prevPrefixLen < w.total + slice.length →
      (d.data .swa).value.isSome = true ∨ p.prevPrefixLen ≤ p.swaEvictedSeqlen) {m : Nat}
    (ran : w.updateOnOverlap c p d slice.length slice = some (w', m)) :
    ∃ kept, Settled c p.prevPrefixLen d slice kept w (w'.freeDuplicates p slice m) := by
  have size : d.slots.length = slice.length := by rw [shape.length_slots mem resident, whole]
  unfold updateOnOverlap at ran
  split at ran
  swap
  · cases ran
    exact ⟨_, untouched_settled shape mem size own⟩
  rename_i reach
  obtain ⟨⟨clipped, window⟩, clip, result⟩ := Option.map_eq_some_iff.mp ran
  have still := (clipToWindow_edits mem aligned clip).still shape
  have spec := clipToWindow_clipped mem aligned clip
  have cases_ := clipToWindow_cases aligned clip
  cases window with
  | none =>
    cases result
    rcases cases_ with ⟨rfl, -⟩ | ⟨_, _, _, _, _, _, clash⟩
    · exact ⟨_, untouched_settled shape mem size own⟩
    · cases clash
  | some part =>
    obtain ⟨e, live⟩ := part
    obtain ⟨inside, same, device, empty, after, span⟩ := spec.inside e live rfl
    cases result
    have lost : (d.data .swa).value = none ∧ p.swaEvictedSeqlen ≤ live := by
      rcases cases_ with ⟨rfl, part⟩ | ⟨_, _, _, _, lost, floor, part⟩
      · obtain ⟨-, rfl, floor, lost⟩ := part e live rfl
        exact ⟨lost, floor⟩
      · cases part
        exact ⟨lost, floor.le⟩
    have beyond : p.prevPrefixLen - w.total ≤ live - w.total := by
      by_cases ahead : w.total < p.prevPrefixLen
      · rcases cut reach.1 ahead reach.2 with present | floor
        · simp [lost.1] at present
        · omega
      · omega
    exact recovered_settled shape mem size own still inside same (device.trans resident) empty
      (by omega) beyond

/-- A node without device slots takes the request's. -/
lemma unevict_settled (evicted : d.evicted = true) (under : w.core.Resident d.parent)
    (aligned : w.total % c.pageSize = 0) (whole : d.len c = slice.length)
    (handed : p.prevPrefixLen ≤ w.total)
    (ran : recoverAfterUnevict c p { w with core := w.core.unevictNodeOnInsert d slice }
      (d.put .full { d.data .full with value := some slice }) = some w') :
    Settled c p.prevPrefixLen d slice slice w w' := by
  have restored := Extends.of_grow (.unevict mem evicted under whole.symm)
  have shape' := restored.shape shape
  have nodes := Core.nodes_unevictNodeOnInsert w.core d slice
  have inside : d.put .full { d.data .full with value := some slice } ∈
      (w.core.unevictNodeOnInsert d slice).nodes := by
    rw [nodes]
    exact (shape.mem_modify mem).mpr (.inr rfl)
  have edits := recoverAfterUnevict_edits shape' inside (by simp [Node.evicted]) aligned ran
  refine put_settled shape mem (restored.trans edits.extends_) nodes ?_ (edits.still shape') handed
  simp [Node.slots, Option.isNone_iff_eq_none.mp evicted]

/-- What a walk step does with the slots that overlap a node. -/
lemma adopt_settled (under : w.core.Resident d.parent) (aligned : w.total % c.pageSize = 0)
    {n : Nat} (whole : d.len c = n) (sized : (w.value.take n).length = n)
    (held : w.total < p.prevPrefixLen → d.evicted = false)
    (own : w.total < p.prevPrefixLen → d.slots.take (p.prevPrefixLen - w.total) =
      (w.value.take n).take (p.prevPrefixLen - w.total))
    (cut : c.hasSwa = true → w.total < p.prevPrefixLen → p.prevPrefixLen < w.total + n →
      (d.data .swa).value.isSome = true ∨ p.prevPrefixLen ≤ p.swaEvictedSeqlen)
    (ran : w.adopt c p d n = some w') :
    ∃ kept, Settled c p.prevPrefixLen d (w.value.take n) kept w w' := by
  unfold adopt at ran
  split at ran
  · rename_i evicted
    refine ⟨_, unevict_settled shape mem evicted under aligned (whole.trans sized.symm) ?_ ran⟩
    exact Nat.le_of_not_lt fun ahead => by simp [held ahead] at evicted
  · rename_i resident
    obtain ⟨⟨mid, m⟩, overlap, rfl⟩ := Option.map_eq_some_iff.mp ran
    have owned : d.slots.take (p.prevPrefixLen - w.total) =
        (w.value.take n).take (p.prevPrefixLen - w.total) := by
      by_cases ahead : w.total < p.prevPrefixLen
      · exact own ahead
      · rw [Nat.sub_eq_zero_of_le (Nat.le_of_not_lt ahead), take_zero, take_zero]
    apply overlap_settled shape mem (by simpa using resident) aligned (whole.trans sized.symm)
      owned
    · rwa [sized]
    · rwa [sized]

end InsertWalk

end Sglang.Tree
