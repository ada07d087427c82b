/-
# The unified radix tree: who owns a slot after an insert

A request inserts a key with one Full slot per token. The first of them, up to
`prevPrefixLen`, are the tree's own; the others the request hands over. Each is stored on
one node at its position or freed once, and the tree frees what it gives up.

* `Core.devicePrefix` — the slots the tree holds for a key.
* `InsertParams.Owned` — the tree holds the protected slots of an insert.
* `insert_slots` — where every slot is after an insert.
-/

import Sglang.Tree.Slots

namespace Sglang.Tree

open Sglang.Lib List Option Tree.Core

variable {π α : Type} {key : List π}

/-! ### The prefix the tree owns -/

namespace Core

variable {c : Config} {core core' : Core π α} {d : Node π α} {i fuel : Nat}

/-- Nodes changed in what no walk looks at. -/
structure Notes (core core' : Core π α) (f : Node π α → Node π α) : Prop where
  nodes : core'.nodes = core.nodes.map f
  id : ∀ d, (f d).id = d.id
  parent : ∀ d, (f d).parent = d.parent
  key : ∀ d, (f d).key = d.key
  data : ∀ d, (f d).data = d.data

lemma Notes.refl (core : Core π α) : Notes core core fun d => d :=
  ⟨(map_id' _).symm, fun _ => rfl, fun _ => rfl, fun _ => rfl, fun _ => rfl⟩

lemma incHitCountAndCheck_notes (core : Core π α) (d : Node π α) :
    ∃ f, Notes core (core.incHitCountAndCheck c d).1 f := by
  unfold incHitCountAndCheck
  split
  · exact ⟨_, .refl core⟩
  · refine ⟨fun e => if e.id ∈ [d.id] then { e with hitCount := e.hitCount + 1 } else e,
      rfl, ?_, ?_, ?_, ?_⟩
    all_goals intro e; split <;> rfl

variable {f : Node π α → Node π α}

section

variable (notes : Notes core core' f)
include notes

lemma Notes.route (i : Nat) :
    core'.route i = core.route i := route_map notes.nodes notes.id notes.parent notes.key i

lemma Notes.slots (d : Node π α) :
    (f d).slots = d.slots := by rw [Node.slots, notes.data, Node.slots]

lemma Notes.line (i : Nat) : core'.line i = core.line i :=
  line_map notes.nodes notes.id notes.parent fun d _ => notes.slots d

lemma Notes.tags : links.tags core'.nodes = links.tags core.nodes := by
  rw [notes.nodes, Links.tags_map notes.id]

end

variable [DecidableEq π]

/-- The device slots the tree holds for a key below `i`, up to the first page without
any. -/
def devicePrefix (c : Config) (core : Core π α) : Nat → Nat → List π → List α
  | 0, _, _ => []
  | fuel + 1, i, key =>
    (core.child? i key).elim [] fun d =>
      if d.evicted then []
      else
        let n := matchLen d.key key
        d.slots.take (n * c.pageSize) ++
          if n < d.key.length then [] else devicePrefix c core fuel d.id (key.drop n)

lemma mem_slots_of_devicePrefix {s : α}
    (held : s ∈ core.devicePrefix c fuel i key) : s ∈ core.slots := by
  induction fuel generalizing i key with
  | zero => simp [devicePrefix] at held
  | succ fuel ih =>
    unfold devicePrefix at held
    cases found : core.child? i key with
    | none => simp [found] at held
    | some d =>
      rw [found, elim_some] at held
      split at held
      · simp at held
      rcases mem_append.mp held with here | below
      · exact mem_flatMap.mpr ⟨d, (mem_of_child? found).1, mem_of_mem_take here⟩
      · split at below
        · simp at below
        · exact ih below

/-- The node in whose matched part the first `left` tokens of a key below `i` end, unless
they end at a node boundary. -/
def cutNode (c : Config) (core : Core π α) : Nat → Nat → List π → Nat → Option (Node π α)
  | 0, _, _, _ => none
  | fuel + 1, i, key, left =>
    (core.child? i key).bind fun d =>
      let n := matchLen d.key key
      if left = 0 then none
      else if left < n * c.pageSize then some d
      else if n < d.key.length then none
      else cutNode c core fuel d.id (key.drop n) (left - n * c.pageSize)

variable (notes : Notes core core' f)
include notes

lemma Notes.child? (i : Nat) (key : List π) : core'.child? i key = (core.child? i key).map f := by
  unfold Core.child?
  rw [notes.nodes]
  cases key.head? with
  | none => rfl
  | some page =>
    simp only [bind_some, find?_map]
    congr 2
    funext d
    simp [notes.parent d, notes.key d]

lemma Notes.devicePrefix (fuel i : Nat) (key : List π) :
    core'.devicePrefix c fuel i key = core.devicePrefix c fuel i key := by
  induction fuel generalizing i key with
  | zero => rfl
  | succ fuel ih =>
    unfold Core.devicePrefix
    rw [notes.child?]
    cases core.child? i key with
    | none => rfl
    | some d =>
      have evicted : (f d).evicted = d.evicted := by rw [Node.evicted, notes.data, Node.evicted]
      simp only [map_some, elim_some, evicted, notes.slots d, notes.key d, notes.id d, ih]

lemma Notes.cutNode (fuel i : Nat) (key : List π) (left : Nat) :
    core'.cutNode c fuel i key left = (core.cutNode c fuel i key left).map f := by
  induction fuel generalizing i key left with
  | zero => rfl
  | succ fuel ih =>
    unfold Core.cutNode
    rw [notes.child?]
    cases core.child? i key with
    | none => rfl
    | some d =>
      simp only [map_some, bind_some, notes.key d, notes.id d, ih]
      split
      · rfl
      split
      · rfl
      split
      · rfl
      · rfl

end Core

/-- The tree holds the first `prevPrefixLen` slots of an insert, and they do not end inside a
node that the insert may take back: one without a window that reaches past the floor. -/
structure InsertParams.Owned [DecidableEq π] (c : Config) (core : Core π α)
    (p : InsertParams π α) : Prop where
  held : (p.value.take (p.key.length * c.pageSize)).take p.prevPrefixLen <+:
    core.devicePrefix c p.key.length 0 p.key
  cut : c.hasSwa = true → ∀ d ∈ core.cutNode c p.key.length 0 p.key p.prevPrefixLen,
    (d.data .swa).value.isSome = true ∨ p.prevPrefixLen ≤ p.swaEvictedSeqlen

namespace InsertWalk

variable {c : Config} {p : InsertParams π α} {w w' w₁ w₂ : InsertWalk π α} {core : Core π α}

lemma advance_notes (i n : Nat) : (∃ f, Core.Notes w.core (w.advance c p i n).core f) ∧
      freed (w.advance c p i n).actions = freed w.actions := by
  unfold advance
  cases w.core.find? i with
  | none => exact ⟨⟨_, .refl w.core⟩, by simp⟩
  | some d =>
    dsimp only [Option.elim]
    split
    · refine ⟨incHitCountAndCheck_notes w.core d, ?_⟩
      split <;> simp [freed, Action.freed]
    · exact ⟨⟨_, .refl w.core⟩, by simp⟩

variable [DecidableEq π] [DecidableEq α]

/-- Where the slots `v` of an insert are between two steps of its walk. -/
structure Placing (c : Config) (p : InsertParams π α) (core : Core π α) (v : List α) (fuel : Nat)
    (w : InsertWalk π α) : Prop where
  walking : Walking c core w
  known : w.node = 0 ∨ w.node ∈ links.tags w.core.nodes
  value : w.value = v.drop w.total
  reach : w.total + w.key.length * c.pageSize = v.length
  route : w.core.route w.node ++ w.key = p.key
  sized : (w.core.line w.node).length = w.total
  place : ∀ k < w.total, (w.core.line w.node)[k]? = v[k]? ∨
    (p.prevPrefixLen ≤ k ∧ ∀ s ∈ v[k]?, s ∈ freed w.actions)
  balance : ∀ s, w.core.slots.count s + (freed w.actions).count s =
    core.slots.count s + ((v.take w.total).drop p.prevPrefixLen).count s
  /-- What the tree owns ahead of the walk has not been touched. -/
  held : w.total < p.prevPrefixLen → (v.take p.prevPrefixLen).drop w.total <+:
    w.core.devicePrefix c fuel w.node w.key
  cut : c.hasSwa = true → w.total < p.prevPrefixLen →
    ∀ d ∈ w.core.cutNode c fuel w.node w.key (p.prevPrefixLen - w.total),
      (d.data .swa).value.isSome = true ∨ p.prevPrefixLen ≤ p.swaEvictedSeqlen

/-- The node a step enters: the matched part of the child. -/
structure Entered (c : Config) (w : InsertWalk π α) (child : Node π α) (n : Nat)
    (w' : InsertWalk π α) (d : Node π α) : Prop where
  still : Still c w w'
  key : d.key = child.key.take n
  slots : d.slots = child.slots.take (n * c.pageSize)
  evicted : d.evicted = child.evicted
  window : (d.data .swa).value.isSome = (child.data .swa).value.isSome

variable {child d : Node π α} {fuel n q prev target : Nat} {v x first rest : List α}

omit [DecidableEq π] in
lemma enter_entered (shape : w.core.Shape c) (mem : child ∈ w.core.nodes) (pos : 0 < n)
    (le : n ≤ child.key.length) :
    Entered c w child n (w.enter c child n).1 (w.enter c child n).2 := by
  unfold enter
  split
  · rename_i inside
    refine ⟨split_still shape mem pos inside, rfl, ?_, Node.evicted_upper .., ?_⟩
    · change ((child.data .full).value.map (take (n * c.pageSize))).getD [] = _
      rw [Node.slots]
      cases (child.data .full).value <;> simp
    · change ((child.data .swa).value.map (take (n * c.pageSize))).isSome = _
      rw [Option.isSome_map]
  · have all : n = child.key.length := by omega
    refine ⟨.refl, ?_, ?_, rfl, rfl⟩
    · rw [all, take_length]
    · rw [take_of_length_le]
      cases held : child.evicted with
      | true =>
        rw [Node.slots, isNone_iff_eq_none.mp held]
        exact Nat.zero_le _
      | false => rw [shape.length_slots mem held, all, Node.len]

omit [DecidableEq π] [DecidableEq α] in
/-- Nothing happens to a node whose tokens are the tree's own. -/
lemma adopt_ahead (resident : d.evicted = false) (ahead : w.total + n ≤ p.prevPrefixLen)
    : w.adopt c p d n = some w := by
  unfold adopt
  rw [resident, if_neg (by decide)]
  unfold updateOnOverlap
  rw [if_neg (by omega)]
  change some (w.freeDuplicates p _ n) = _
  unfold freeDuplicates
  rw [if_neg (by omega)]

omit [DecidableEq π] [DecidableEq α] in
lemma take_eq_of_prefix (enough : first.length ≤ x.length)
    (pre : x.take q <+: first ++ rest) : first.take q = (x.take first.length).take q := by
  obtain ⟨more, eq⟩ := pre
  rcases le_total q first.length with le | ge
  · have same := congrArg (take q) eq
    rw [take_append_of_le_length (by simp; omega), take_append_of_le_length le,
      take_take, min_self] at same
    rw [← same, take_take, min_eq_left le]
  · have same := congrArg (take first.length) eq
    rw [take_append_of_le_length (by simp; omega), take_left, take_take,
      min_eq_left ge] at same
    rw [same]

/-- The slots the tree owns ahead of the walk, as the walk still carries them. -/
lemma Placing.owned_eq (placing : Placing c p core v fuel w) :
    (v.take p.prevPrefixLen).drop w.total = w.value.take (p.prevPrefixLen - w.total) := by
  rw [placing.value, drop_take]

/-- Where the tree's own part is not over, the next node is on the device. -/
lemma Placing.ahead (placing : Placing c p core v (fuel + 1) w)
    (found : w.core.child? w.node w.key = some child) (left : w.value ≠ [])
    (ahead : w.total < p.prevPrefixLen) :
    child.evicted = false ∧ w.value.take (p.prevPrefixLen - w.total) <+:
      child.slots.take (matchLen child.key w.key * c.pageSize) ++
        if matchLen child.key w.key < child.key.length then []
        else w.core.devicePrefix c fuel child.id (w.key.drop (matchLen child.key w.key)) := by
  have held := placing.held ahead
  rw [placing.owned_eq] at held
  unfold devicePrefix at held
  rw [found, elim_some] at held
  cases evicted : child.evicted with
  | true =>
    rw [evicted, if_pos rfl, prefix_nil, take_eq_nil_iff] at held
    rcases held with zero | empty
    · omega
    · exact absurd empty left
  | false =>
    rw [evicted] at held
    exact ⟨rfl, held⟩

section

variable (placing : Placing c p core v (fuel + 1) w)
  (found : w.core.child? w.node w.key = some child)
include placing found

/-- A step that does not reach the end of the tree's own part leaves the rest of it as it
was. -/
lemma Placing.step_ahead (here : n = matchLen child.key w.key)
    (stepped : Stepped c p w child n w₁ d w₂) (ahead : w.total + n * c.pageSize < p.prevPrefixLen) :
    (v.take p.prevPrefixLen).drop (w.total + n * c.pageSize) <+:
      (w₂.advance c p d.id n).core.devicePrefix c fuel d.id (w.key.drop n) ∧
    (c.hasSwa = true → ∀ e ∈ (w₂.advance c p d.id n).core.cutNode c fuel d.id (w.key.drop n)
        (p.prevPrefixLen - (w.total + n * c.pageSize)),
      (e.data .swa).value.isSome = true ∨ p.prevPrefixLen ≤ p.swaEvictedSeqlen) := by
  have reach := placing.reach
  have length := placing.walking.sized
  have room : n * c.pageSize ≤ w.key.length * c.pageSize := Nat.mul_le_mul_right _ stepped.right
  have page : 0 < n * c.pageSize := Nat.mul_pos stepped.pos c.pageSize_pos
  obtain ⟨resident, held⟩ := placing.ahead found
    (fun empty => by rw [empty, length_nil] at length; omega) (by omega)
  rw [← here] at held
  by_cases split : n < child.key.length
  · -- the node goes on without the key: the key ends with it
    rw [if_pos split, append_nil] at held
    have le := held.length_le
    rw [length_take, length_take] at le
    have all : w.key.length * c.pageSize ≤ n * c.pageSize := by omega
    have done : w.key.drop n = [] :=
      drop_eq_nil_of_le (Nat.le_of_mul_le_mul_right all c.pageSize_pos)
    rw [done, drop_eq_nil_of_le (by rw [length_take]; omega)]
    refine ⟨List.nil_prefix, fun _ e inside => ?_⟩
    cases fuel <;> cases inside
  · rw [if_neg split] at held
    have entered : w.enter c child n = (w, child) := by
      unfold enter
      rw [if_neg split]
    cases entered.symm.trans stepped.enter
    have same : w₂ = w :=
      some.inj (stepped.adopt.symm.trans (adopt_ahead resident ahead.le))
    subst same
    obtain ⟨⟨f, notes⟩, -⟩ := advance_notes child.id n
    have cover : (child.slots.take (n * c.pageSize)).length = n * c.pageSize := by
      rw [length_take, placing.walking.shape.length_slots stepped.mem resident, stepped.whole,
        min_self]
    rw [notes.devicePrefix, notes.cutNode]
    refine ⟨?_, fun swa e cut => ?_⟩
    · have owned := placing.owned_eq
      obtain ⟨more, eq⟩ := held
      refine ⟨more, ?_⟩
      have tail := congrArg (drop (n * c.pageSize)) eq
      rw [drop_append_of_le_length (by rw [length_take]; omega), ← owned, drop_drop,
        drop_append_of_le_length cover.ge, drop_eq_nil_of_le cover.le] at tail
      exact tail
    · obtain ⟨e', ends, rfl⟩ := map_eq_some_iff.mp cut
      rw [notes.data]
      apply placing.cut swa (by omega) e'
      unfold cutNode
      rw [found, bind_some, ← here, if_neg (by omega), if_neg (by omega), if_neg split, Nat.sub_sub]
      exact ends

/-- The walk takes one step. -/
lemma Placing.step (ran : w.step c p child = some w') : Placing c p core v fuel w' := by
  have walked := (placing.walking.step found ran).1
  obtain ⟨w₁, d, w₂, stepped, rfl⟩ := placing.walking.stepped found ran
  have matched := take_matchLen child.key w.key
  obtain ⟨n, here⟩ : ∃ n, n = matchLen child.key w.key := ⟨_, rfl⟩
  rw [← here] at stepped walked matched ⊢
  have ahead' := placing.step_ahead found here stepped
  have shape := placing.walking.shape
  have reach := placing.reach
  have length := placing.walking.sized
  have room : n * c.pageSize ≤ w.key.length * c.pageSize := Nat.mul_le_mul_right _ stepped.right
  have page : 0 < n * c.pageSize := Nat.mul_pos stepped.pos c.pageSize_pos
  have enter : Entered c w child n w₁ d := by
    have entered := enter_entered shape stepped.mem stepped.pos stepped.left
    rwa [stepped.enter] at entered
  have total : w₁.total = w.total := stepped.entered.total
  have value : w₁.value = w.value := stepped.entered.value
  have left : w.value ≠ [] := fun empty => by rw [empty, length_nil] at length; omega
  have own : w₁.total < p.prevPrefixLen → d.slots.take (p.prevPrefixLen - w₁.total) =
      (w₁.value.take (n * c.pageSize)).take (p.prevPrefixLen - w₁.total) := by
    intro ahead
    rw [total] at ahead ⊢
    obtain ⟨resident, held⟩ := placing.ahead found left ahead
    rw [← here, ← enter.slots] at held
    have cover : d.slots.length = n * c.pageSize := by
      rw [(stepped.entered.shape shape).length_slots stepped.inside
        (enter.evicted.trans resident), stepped.whole]
    have same := take_eq_of_prefix (by omega) held
    rw [cover] at same
    rw [same, value]
  have cut : c.hasSwa = true → w₁.total < p.prevPrefixLen →
      p.prevPrefixLen < w₁.total + n * c.pageSize →
      (d.data .swa).value.isSome = true ∨ p.prevPrefixLen ≤ p.swaEvictedSeqlen := by
    intro swa ahead short
    rw [total] at ahead short
    rw [enter.window]
    apply placing.cut swa ahead child
    unfold cutNode
    rw [found, bind_some, ← here, if_neg (by omega), if_pos (by omega)]
    rfl
  obtain ⟨kept, settled⟩ := adopt_settled (stepped.entered.shape shape) stepped.inside
    stepped.under (total ▸ placing.walking.aligned) stepped.whole stepped.sized
    (fun ahead => enter.evicted.trans (placing.ahead found left (total ▸ ahead)).1) own cut
    stepped.adopt
  obtain ⟨⟨f, notes⟩, out⟩ := advance_notes d.id n
  have total₂ : w₂.total = w.total := stepped.adopted.total.trans total
  have key₂ : w₂.key = w.key := stepped.adopted.key.trans stepped.entered.key
  have value₂ : w₂.value = w.value := stepped.adopted.value.trans value
  have slice : w₁.value.take (n * c.pageSize) = (v.drop w.total).take (n * c.pageSize) := by
    rw [value, placing.value]
  have above : w₁.core.line d.parent = w.core.line w.node := by
    rw [stepped.parent, enter.still.line _ placing.known]
  have line : (w₂.advance c p d.id n).core.line d.id = w.core.line w.node ++ kept := by
    rw [notes.line, settled.line, above]
  have more : ∀ s ∈ freed w.actions, s ∈ freed (w₂.advance c p d.id n).actions := by
    intro s there
    rw [out]
    rw [← enter.still.freed] at there
    exact settled.more s there
  have size : kept.length = n * c.pageSize := settled.sized.trans stepped.sized
  refine ⟨walked, .inr ?_, ?_, ?_, ?_, ?_, ?_, ?_, ?_, ?_⟩
  · rw [notes.tags]
    exact settled.known
  · change w₂.value.drop _ = v.drop (w₂.total + _)
    rw [value₂, total₂, placing.value, drop_drop]
  · change w₂.total + n * c.pageSize + (w₂.key.drop n).length * c.pageSize = _
    rw [key₂, length_drop, Nat.sub_mul]
    omega
  · change (w₂.advance c p d.id n).core.route d.id ++ w₂.key.drop n = _
    rw [notes.route, settled.route, (stepped.entered.shape shape).route_id stepped.inside,
      stepped.parent, enter.still.route _ placing.known, enter.key, matched, key₂,
      append_assoc, take_append_drop, placing.route]
  · change ((w₂.advance c p d.id n).core.line d.id).length = w₂.total + _
    rw [line, length_append, placing.sized, size, total₂]
  · intro k lt
    change k < w₂.total + _ at lt
    change ((w₂.advance c p d.id n).core.line d.id)[k]? = _ ∨ _
    rw [line]
    by_cases before : k < w.total
    · rw [getElem?_append_left (by rw [placing.sized]; exact before)]
      exact (placing.place k before).imp_right fun ⟨le, gone⟩ =>
        ⟨le, fun s there => more s (gone s there)⟩
    · have shifted : (w₁.value.take (n * c.pageSize))[k - w.total]? = v[k]? := by
        rw [slice, getElem?_take_of_lt (by omega), getElem?_drop,
          show w.total + (k - w.total) = k by omega]
      rw [getElem?_append_right (by rw [placing.sized]; omega), placing.sized, ← shifted, out]
      exact (settled.place (k - w.total)).imp_right fun ⟨le, gone⟩ => ⟨by omega, gone⟩
  · intro s
    have balance := settled.balance s
    have before := placing.balance s
    have parts : ((v.take (w.total + n * c.pageSize)).drop p.prevPrefixLen).count s =
        ((v.take w.total).drop p.prevPrefixLen).count s +
          ((w₁.value.take (n * c.pageSize)).drop (p.prevPrefixLen - w.total)).count s := by
      rw [slice, take_add, drop_append, count_append, length_take, min_eq_left (by omega)]
    change _ = core.slots.count s + ((v.take (w₂.total + n * c.pageSize)).drop _).count s
    rw [total₂, out, count_map notes.nodes notes.slots]
    rw [enter.still.stored s, enter.still.freed, total] at balance
    omega
  · intro ahead
    change w₂.total + _ < _ at ahead
    change (v.take _).drop (w₂.total + _) <+: devicePrefix c _ fuel d.id (w₂.key.drop n)
    rw [total₂] at ahead ⊢
    rw [key₂]
    exact (ahead' ahead).1
  · intro swa ahead
    change w₂.total + _ < _ at ahead
    change ∀ e ∈ cutNode c _ fuel d.id (w₂.key.drop n) (_ - (w₂.total + _)), _
    rw [total₂] at ahead ⊢
    rw [key₂]
    exact (ahead' ahead).2 swa

end

/-- The whole walk. -/
lemma Placing.walk (placing : Placing c p core v fuel w) (ran : w.walk c p fuel = some w') :
    ∃ fuel', Placing c p core v fuel' w' := by
  induction fuel generalizing w with
  | zero =>
    cases ran
    exact ⟨0, placing⟩
  | succ fuel ih =>
    unfold InsertWalk.walk at ran
    cases found : w.core.child? w.node w.key with
    | none =>
      rw [found] at ran
      cases ran
      exact ⟨fuel + 1, placing⟩
    | some child =>
      rw [found] at ran
      obtain ⟨mid, stepped, rest⟩ := bind_eq_some_iff.mp ran
      exact ih (placing.step found stepped) rest

/-! ### The commit -/

/-- Where the slots `v` of an insert are after it: along the path to `target`, or freed. -/
structure Placed (prev : Nat) (key : List π) (core : Core π α) (v : List α) (target : Nat)
    (w : InsertWalk π α) : Prop where
  route : w.core.route target = key
  place : ∀ k < v.length, (w.core.line target)[k]? = v[k]? ∨
    (prev ≤ k ∧ ∀ s ∈ v[k]?, s ∈ freed w.actions)
  balance : ∀ s, w.core.slots.count s + (freed w.actions).count s =
    core.slots.count s + (v.drop prev).count s

omit [DecidableEq π] in
lemma Placed.still (placed : Placed prev key core v target w) (still : Still c w w')
    (known : target = 0 ∨ target ∈ links.tags w.core.nodes) : Placed prev key core v target w' where
  route := (still.route target known).trans placed.route
  place k lt := by
    rw [still.line target known, still.freed]
    exact placed.place k lt
  balance s := by
    rw [still.stored, still.freed]
    exact placed.balance s

variable (placing : Placing c p core v fuel w)
include placing

/-- A walk that used the whole key has placed every slot. -/
lemma Placing.placed (done : w.key = []) : Placed p.prevPrefixLen p.key core v w.node w := by
  have reach := placing.reach
  rw [done, length_nil, zero_mul, add_zero] at reach
  refine ⟨?_, ?_, ?_⟩
  · rw [← placing.route, done, append_nil]
  · intro k lt
    exact placing.place k (by omega)
  · intro s
    have balance := placing.balance s
    rwa [reach, take_length] at balance

section

variable (left : w.key ≠ []) (ended : w.core.child? w.node w.key = none)
include left ended

/-- At the end of the walk nothing the tree owns is ahead. -/
lemma Placing.passed : p.prevPrefixLen ≤ w.total := by
  apply Nat.le_of_not_lt
  intro ahead
  have held := placing.held ahead
  have nothing : w.core.devicePrefix c fuel w.node w.key = [] := by
    cases fuel with
    | zero => rfl
    | succ fuel =>
      unfold devicePrefix
      rw [ended, elim_none]
  have sized := placing.walking.sized
  have page : 0 < w.key.length * c.pageSize :=
    Nat.mul_pos (length_pos_iff.mpr left) c.pageSize_pos
  rw [nothing, prefix_nil, placing.owned_eq, take_eq_nil_iff] at held
  rcases held with zero | empty
  · omega
  · rw [empty, length_nil] at sized
    omega

/-- The rest of the key becomes a leaf. -/
lemma Placing.leaf : Placed p.prevPrefixLen p.key core v w.core.nextId
      { w with core := (w.core.addNewNode w.node w.key w.value p.rotationBase).1 } := by
  have passed := placing.passed left ended
  have reach := placing.reach
  have shape := placing.walking.shape
  have shape' := shape.grow (placing.walking.addNewNode (p := p) left ended)
  obtain ⟨grown, leaf, new, nodes, named, parent, slots, key⟩ : ∃ grown leaf,
      w.core.addNewNode w.node w.key w.value p.rotationBase = (grown, leaf) ∧
        grown.nodes = leaf :: w.core.nodes ∧ leaf.id = w.core.nextId ∧ leaf.parent = w.node ∧
        leaf.slots = w.value ∧ leaf.key = w.key := ⟨_, _, rfl, rfl, rfl, rfl, rfl, rfl⟩
  rw [new] at shape' ⊢
  have mem : leaf ∈ grown.nodes := nodes ▸ mem_cons_self
  have other : links.tag leaf ≠ w.node := by
    change leaf.id ≠ w.node
    rw [named]
    rcases placing.known with root | tag
    · rw [root]
      exact shape.next_pos.ne'
    · exact fun same => shape.fresh_next (same ▸ tag)
  have above : grown.spine w.node = w.core.spine w.node := by
    rw [Core.spine, nodes, Links.spine_cons_of_ne other, Core.spine]
  refine ⟨?_, ?_, ?_⟩
  · rw [← named, shape'.route_id mem, parent, Core.route, above, key, ← Core.route, placing.route]
  · intro k lt
    rw [← named, shape'.line_id mem, parent, Core.line, above, slots, ← Core.line]
    by_cases before : k < w.total
    · rw [getElem?_append_left (by rw [placing.sized]; exact before)]
      exact placing.place k before
    · left
      rw [getElem?_append_right (by rw [placing.sized]; omega), placing.sized, placing.value,
        getElem?_drop, show w.total + (k - w.total) = k by omega]
  · intro s
    have balance := placing.balance s
    have parts : (v.drop p.prevPrefixLen).count s =
        ((v.take w.total).drop p.prevPrefixLen).count s + w.value.count s := by
      rw [placing.value, ← count_append, ← drop_append_of_le_length
        (by rw [length_take]; omega), take_append_drop]
    have stored : grown.slots.count s = w.value.count s + w.core.slots.count s := by
      rw [Core.slots, nodes, flatMap_cons, count_append, slots, Core.slots]
    change grown.slots.count s + (freed w.actions).count s = _
    omega

end

lemma Placing.commit (ended : w.core.child? w.node w.key = none) {result : InsertResult}
    (ran : Core.commitInsert c p w = some (w', result)) :
    Placed p.prevPrefixLen p.key core v result.lastDeviceNode w' := by
  have shape := placing.walking.shape
  rcases placing.walking.commits ended ran with ⟨done, target, edits⟩ | ⟨left, target, edits⟩
  · rw [target]
    exact (placing.placed done).still (edits.still shape) placing.known
  · rw [target]
    have shape' := shape.grow (placing.walking.addNewNode (p := p) left ended)
    exact (placing.leaf left ended).still (edits.still shape') (.inr (Links.mem_tags mem_cons_self))

end InsertWalk

section

variable {c : Config} {p : InsertParams π α} {core : Core π α} {w : InsertWalk π α}
  {result : InsertResult}

variable [DecidableEq π]

/-- An insert that declines its tail does nothing at all. -/
lemma Core.insert_declined (ran : core.insert c p = some (w, result))
    (declined : result.rotationTailDeclined = true) : w.core = core ∧ w.actions = [] := by
  unfold insert at ran
  split at ran
  · cases ran
    exact ⟨rfl, rfl⟩
  split at ran
  · cases ran
    exact ⟨rfl, rfl⟩
  obtain ⟨mid, -, committed⟩ := bind_eq_some_iff.mp ran
  unfold commitInsert at committed
  split at committed
  · obtain ⟨⟨_, _⟩, _, out⟩ := map_eq_some_iff.mp committed
    cases out
    cases declined
  · obtain ⟨_, _, rest⟩ := bind_eq_some_iff.mp committed
    obtain ⟨⟨_, _⟩, _, out⟩ := map_eq_some_iff.mp rest
    cases out
    cases declined

variable [DecidableEq α]

/-- An insert that runs to its end has placed or freed every slot. -/
lemma Core.insert_placed (shape : core.Shape c)
    (enough : p.key.length * c.pageSize ≤ p.value.length) (owned : p.Owned c core)
    (ran : core.insert c p = some (w, result)) (whole : result.rotationTailDeclined = false) :
    InsertWalk.Placed p.prevPrefixLen p.key core (p.value.take (p.key.length * c.pageSize))
      result.lastDeviceNode w := by
  have length : (p.value.take (p.key.length * c.pageSize)).length = p.key.length * c.pageSize := by
    rw [length_take, min_eq_left enough]
  have start : InsertWalk.Placing c p core (p.value.take (p.key.length * c.pageSize)) p.key.length
      ⟨core, 0, 0, p.key, p.value.take (p.key.length * c.pageSize), [], []⟩ :=
    { walking := ⟨.refl, shape, .inl rfl, Nat.zero_mod _, length⟩
      known := .inl rfl
      value := rfl
      reach := by rw [length, zero_add]
      route := by rw [shape.route_root, nil_append]
      sized := by rw [shape.line_root, length_nil]
      place := fun k lt => absurd lt (Nat.not_lt_zero k)
      balance := by simp [freed]
      held := fun _ => owned.held
      cut := fun swa _ => owned.cut swa }
  unfold insert at ran
  split at ran
  · rename_i empty
    cases ran
    exact start.placed empty
  split at ran
  · cases ran
    cases whole
  obtain ⟨mid, walked, committed⟩ := bind_eq_some_iff.mp ran
  obtain ⟨_, placing⟩ := start.walk walked
  exact placing.commit (start.walking.walk le_rfl walked).2 committed

/-- Where every slot is after an insert, given that the tree holds the protected ones and the
request hands over slots of its own. -/
theorem insert_slots (shape : core.Shape c) (alone : core.slots.Nodup)
    (enough : p.key.length * c.pageSize ≤ p.value.length) (owned : p.Owned c core)
    (distinct : ((p.value.take (p.key.length * c.pageSize)).drop p.prevPrefixLen).Nodup)
    (fresh : ∀ s ∈ (p.value.take (p.key.length * c.pageSize)).drop p.prevPrefixLen, s ∉ core.slots)
    (ran : core.insert c p = some (w, result)) :
    (result.rotationTailDeclined = true → w.core = core ∧ w.actions = []) ∧
    (result.rotationTailDeclined = false → w.core.route result.lastDeviceNode = p.key ∧
      (∀ i s, p.prevPrefixLen ≤ i → i < p.key.length * c.pageSize → p.value[i]? = some s →
        (w.core.slots.count s = 1 ∧ (w.core.line result.lastDeviceNode)[i]? = some s ∧
          s ∉ freed w.actions) ∨
        (s ∉ w.core.slots ∧ (freed w.actions).count s = 1)) ∧
      (∀ i s, i < p.prevPrefixLen → i < p.key.length * c.pageSize → p.value[i]? = some s →
        s ∉ freed w.actions) ∧
      ∀ s ∈ core.slots, s ∉ w.core.slots → (freed w.actions).count s = 1) := by
  refine ⟨insert_declined ran, fun whole => ?_⟩
  have placed := insert_placed shape enough owned ran whole
  have length : (p.value.take (p.key.length * c.pageSize)).length = p.key.length * c.pageSize := by
    rw [length_take, min_eq_left enough]
  have at_ : ∀ i s, i < p.key.length * c.pageSize → p.value[i]? = some s →
      (p.value.take (p.key.length * c.pageSize))[i]? = some s := fun i s lt there => by
    rw [getElem?_take_of_lt lt, there]
  -- a slot of the tree was there once, and is not one of those handed over
  have kept : ∀ s ∈ core.slots, w.core.slots.count s + (freed w.actions).count s = 1 := by
    intro s old
    have balance := placed.balance s
    rwa [count_eq_one_of_mem alone old,
      count_eq_zero_of_not_mem fun new => fresh s new old] at balance
  refine ⟨placed.route, ?_, ?_, ?_⟩
  · intro i s from_ lt there
    have new : s ∈ (p.value.take (p.key.length * c.pageSize)).drop p.prevPrefixLen := by
      apply mem_of_getElem?
      rw [getElem?_drop, show p.prevPrefixLen + (i - p.prevPrefixLen) = i by omega]
      exact at_ i s lt there
    have balance := placed.balance s
    rw [count_eq_zero_of_not_mem (fresh s new), count_eq_one_of_mem distinct new] at balance
    by_cases out : s ∈ freed w.actions
    · have once := count_pos_iff.mpr out
      exact .inr ⟨count_eq_zero.mp (by omega), by omega⟩
    · refine .inl ⟨by rw [count_eq_zero_of_not_mem out] at balance; omega, ?_, out⟩
      rcases placed.place i (by omega) with same | ⟨-, gone⟩
      · rw [same, at_ i s lt there]
      · exact absurd (gone s (at_ i s lt there)) out
  · intro i s before lt there out
    have held := at_ i s lt there
    have old : s ∈ core.slots := by
      refine mem_slots_of_devicePrefix (owned.held.subset ?_)
      apply mem_of_getElem?
      rw [getElem?_take_of_lt before, held]
    have once := count_pos_iff.mpr out
    have balance := kept s old
    have gone : s ∉ w.core.slots := count_eq_zero.mp (by omega)
    rcases placed.place i (by omega) with same | ⟨after, -⟩
    · rw [held] at same
      exact gone (mem_slots_of_line (mem_of_getElem? same))
    · omega
  · intro s old gone
    have balance := kept s old
    rw [count_eq_zero_of_not_mem gone] at balance
    omega

end

/-- A request that holds the first token of the late tree and brings two slots of its own. -/
def handOver : InsertParams Nat Nat := plainInsert [1, 2, 3] [10, 21, 30] 1

/-- The duplicate of the second token is freed, the third token is stored. -/
theorem insert_slots_late :
    ∃ w result, (lateTree true).core.insert (windowConfig true) handOver = some (w, result) ∧
      w.core.slots = [30, 11, 10] ∧ freed w.actions = [21] ∧
      (result.rotationTailDeclined = false → ∀ i s, 1 ≤ i → i < 3 * 1 → [10, 21, 30][i]? = some s →
          (w.core.slots.count s = 1 ∧ (w.core.line result.lastDeviceNode)[i]? = some s ∧
            s ∉ freed w.actions) ∨ (s ∉ w.core.slots ∧ (freed w.actions).count s = 1)) :=
  ⟨_, _, rfl, rfl, rfl, fun whole =>
    ((insert_slots (treeMachine_kept.reachable (lateTree_reached true)).shape (by decide)
      (p := handOver) (by decide) ⟨by decide, by decide⟩ (by decide) (by decide) rfl).2 whole).2.1⟩

/-- Three tokens, the first two of them past their window. -/
def laterInsert : InsertParams Nat Nat :=
  { plainInsert [1, 2, 3] [10, 11, 12] 0 with swaEvictedSeqlen := 2 }

def laterTree : Run Nat Nat :=
  ((Run.step (windowConfig true) ⟨.reset, [], [], none⟩ (.insert laterInsert)).getD
    ⟨.reset, [], [], none⟩)

/-- A protected length inside a node without a window: the tree takes the request's slots for
the whole node, the protected one among them, and frees its own, which is the same slot. -/
theorem insert_frees_protected_slot :
    (treeMachine (windowConfig true)).Reachable laterTree ∧ laterTree.core.slots.Nodup ∧
    [10, 20].take 1 <+: laterTree.core.devicePrefix (windowConfig true) 2 0 [1, 2] ∧
    20 ∉ laterTree.core.slots ∧
    ∃ w result, laterTree.core.insert (windowConfig true) (plainInsert [1, 2] [10, 20] 1) =
        some (w, result) ∧ result.rotationTailDeclined = false ∧
      10 ∈ w.core.slots ∧ 10 ∈ freed w.actions :=
  ⟨.step (.start rfl) ⟨rfl, (by decide)⟩ (a := .insert laterInsert) rfl, by decide,
    by decide, by decide, _, _, rfl, rfl, by decide, by decide⟩

end Sglang.Tree
