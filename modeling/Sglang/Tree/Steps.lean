/-
# The unified radix tree: matching and inserting as edits

A match is at most one split. An insert is a sequence of `Grow` edits: `Extends` says so of
every piece of a walk step that stays on its node, `Walking` is what holds between steps,
and `insert_grows` puts the walk and its commit together.
-/

import Sglang.Tree.Shape

namespace Sglang.Tree

open Sglang.Lib List Option Node Tree.Core Nat

variable {π α : Type} {result : InsertResult} {i : Nat} {e : Node π α}

/-! ### Shared pages -/

section

variable [DecidableEq π]

lemma matchLen_le (a b : List π) : matchLen a b ≤ a.length ∧ matchLen a b ≤ b.length := by
  induction a generalizing b with
  | nil => simp [matchLen]
  | cons x a ih =>
    cases b with
    | nil => simp [matchLen]
    | cons y b =>
      simp only [matchLen]
      split
      · exact (ih b).imp succ_le_succ succ_le_succ
      · exact ⟨zero_le _, zero_le _⟩

/-- A child that a key names shares a page with it. -/
lemma matchLen_pos {core : Core π α} {key : List π} (found : core.child? i key = some e) :
    0 < matchLen e.key key := by
  obtain ⟨-, -, page, rest, rest', keyed, keyed'⟩ := mem_of_child? found
  simp [keyed, keyed', matchLen]

end

/-! ### The halves of a split -/

namespace Node

variable (c : Config) (n new : Nat) (d : Node π α)

@[simp] lemma upper_id : (d.upper c n new).id = new := rfl

@[simp] lemma lower_id : (d.lower c n new).id = d.id := rfl

@[simp] lemma evicted_upper : (d.upper c n new).evicted = d.evicted := by
  simp [evicted, upper, ComponentData.upper]

@[simp] lemma evicted_lower : (d.lower c n new).evicted = d.evicted := by
  simp [evicted, lower, ComponentData.lower]

@[simp] lemma backuped_upper : (d.upper c n new).backuped = d.backuped := by
  simp [backuped, upper, ComponentData.upper]

@[simp] lemma backuped_lower : (d.lower c n new).backuped = d.backuped := by
  simp [backuped, lower, ComponentData.lower]

lemma len_upper {n : Nat} (le : n ≤ d.key.length) : (d.upper c n new).len c = n * c.pageSize := by
  simp [len, upper, le]

lemma len_lower : (d.lower c n new).len c = d.len c - n * c.pageSize := by
  simp [len, lower, Nat.sub_mul]

end Node

section

variable {c : Config} {core core' mid : Core π α} {log log' : List (Nat × Nat)}

lemma Grows.single (edit : Grow c core log core') : Grows c core log core' := by
  simpa using .tail .refl edit

lemma Grows.trans (first : Grows c core log mid)
    (second : Grows c mid log' core') : Grows c core (log ++ log') core' := by
  induction second with
  | refl => simpa using first
  | tail _ edit ih =>
    rw [← append_assoc]
    exact ih.tail edit

end

namespace Core

variable {c : Config} {core core' : Core π α} {log : List (Nat × Nat)} {child : Node π α}

lemma upper_mem_splitNode (mem : child ∈ core.nodes) (n : Nat) :
    child.upper c n core.nextId ∈ (core.splitNode c child n).1.nodes :=
  Links.upper_mem_expand mem rfl

lemma lower_mem_splitNode (mem : child ∈ core.nodes) (n : Nat) :
    child.lower c n core.nextId ∈ (core.splitNode c child n).1.nodes :=
  Links.lower_mem_expand mem rfl

lemma mem_splitNode_of_ne (old : e ∈ core.nodes)
    (away : e.id ≠ child.id) (n : Nat) : e ∈ (core.splitNode c child n).1.nodes :=
  Links.mem_expand.mpr (.inl ⟨old, away⟩)

/-! ### What edits keep -/

/-- A node with a device value keeps it under growing edits. -/
lemma Resident.grow (resident : core.Resident i) (shape : core.Shape c)
    (edit : Grow c core log core') : core'.Resident i := by
  rcases resident with rfl | ⟨d, mem, rfl, device⟩
  · exact .inl rfl
  refine .inr ?_
  cases edit with
  | @split child n mem' _ _ =>
    by_cases here : d.id = child.id
    · obtain rfl := shape.eq_of_id mem mem' here
      exact ⟨_, lower_mem_splitNode mem n, rfl, by simpa using device⟩
    · exact ⟨d, mem_splitNode_of_ne mem here n, rfl, device⟩
  | leaf => exact ⟨d, mem_cons_of_mem _ mem, rfl, device⟩
  | @unevict e v mem' _ _ _ =>
    by_cases here : d.id = e.id
    · refine ⟨e.put .full { e.data .full with value := some v }, ?_, here.symm, ?_⟩
      · rw [nodes_unevictNodeOnInsert]
        exact (shape.mem_modify mem').mpr (.inr rfl)
      · simp [evicted]
    · refine ⟨d, ?_, rfl, device⟩
      rw [nodes_unevictNodeOnInsert]
      exact (shape.mem_modify mem').mpr (.inl ⟨mem, here⟩)
  | @store e ct v mem' aux _ _ _ =>
    by_cases here : d.id = e.id
    · obtain rfl := shape.eq_of_id mem mem' here
      refine ⟨d.put ct { d.data ct with value := some v }, ?_, rfl, ?_⟩
      · rw [nodes_setComponentDeviceValue]
        exact (shape.mem_modify mem').mpr (.inr rfl)
      · rw [evicted, put_data_of_ne d _ (.symm aux)]
        exact device
    · refine ⟨d, ?_, rfl, device⟩
      rw [nodes_setComponentDeviceValue]
      exact (shape.mem_modify mem').mpr (.inl ⟨mem, here⟩)
  | @adopt e v mem' _ _ =>
    by_cases here : d.id = e.id
    · refine ⟨e.put .full { e.data .full with value := some v }, ?_, here.symm, ?_⟩
      · exact (shape.mem_modify mem').mpr (.inr rfl)
      · simp [evicted]
    · exact ⟨d, (shape.mem_modify mem').mpr (.inl ⟨mem, here⟩), rfl, device⟩
  | @note ids f bare =>
    refine ⟨if d.id ∈ ids then f d else d, mem_map_of_mem mem, ?_, ?_⟩
    · split <;> simp [bare]
    · unfold evicted
      have same : (if d.id ∈ ids then f d else d).data = d.data := by split <;> simp [bare]
      rw [same]
      exact device

lemma Resident.grows (resident : core.Resident i) (shape : core.Shape c)
    (edits : Grows c core log core') : core'.Resident i := by
  induction edits with
  | refl => exact resident
  | tail before edit ih => exact ih.grow (shape.grows before) edit

end Core

/-! ### A match is at most one split -/

section

variable [DecidableEq π] {c : Config} {fullOnly : Bool}

lemma MatchWalk.walk_grows (fuel : Nat) (w : MatchWalk π α) (shape : w.core.Shape c)
    (unsplit : w.splits = []) :
    Grows c w.core (w.walk c fullOnly fuel).splits (w.walk c fullOnly fuel).core := by
  have stay : ∀ w : MatchWalk π α, w.splits = [] → Grows c w.core w.splits w.core := by
    intro w unsplit
    rw [unsplit]
    exact .refl
  induction fuel generalizing w with
  | zero => exact stay w unsplit
  | succ fuel ih =>
    unfold walk
    cases found : w.core.child? w.node w.key with
    | none => exact stay w unsplit
    | some child =>
      dsimp only
      split
      · exact stay w unsplit
      split
      · rename_i inside
        exact .single (.split (mem_of_child? found).1 (matchLen_pos found) inside)
      · exact ih (w.visit c fullOnly child (matchLen child.key w.key)) shape unsplit

lemma Core.matchWalk_grows {core : Core π α} (fullOnly : Bool) (shape : core.Shape c)
    (key : List π) :
    Grows c core (core.matchWalk c key fullOnly).splits (core.matchWalk c key fullOnly).core :=
  MatchWalk.walk_grows key.length { core := core, node := 0, key := key } shape rfl

end

/-! ### The pieces of an insert step -/

/-- The Full slots an action frees. Recovering a window under a lock keeps the node's slots
and frees the request's. -/
def Action.freed : Action α → List α
  | .freeDeviceKV slots => slots
  | .freeDeviceKVFullOnly slots => slots
  | .recoverSwaWithLockedFull _ _ incoming => incoming
  | _ => []

/-- The Full slots a list of actions frees. -/
def freed (actions : List (Action α)) : List α := actions.flatMap Action.freed

@[simp] lemma freed_append (actions actions' : List (Action α)) :
    freed (actions ++ actions') = freed actions ++ freed actions' := by
  simp [freed]

lemma Node.exists_value {d : Node π α} (resident : d.evicted = false) :
    ∃ v, (d.data .full).value = some v := by
  unfold evicted at resident
  exact isSome_iff_exists.mp (by simpa using resident)

namespace InsertWalk

variable {c : Config} {p : InsertParams π α} {w w' w'' : InsertWalk π α} {d child : Node π α}
  {window : Option (Node π α × Nat)} {start : Nat} {n fuel : Nat}

/-- `w'` is `w` after edits of the tree; the walk itself stays where it is. -/
structure Extends (c : Config) (w w' : InsertWalk π α) : Prop where
  edits : ∃ log, w'.splits = w.splits ++ log ∧ Grows c w.core log w'.core
  node : w'.node = w.node
  total : w'.total = w.total
  key : w'.key = w.key
  value : w'.value = w.value

lemma Extends.refl : Extends c w w := ⟨⟨[], by simp, .refl⟩, rfl, rfl, rfl, rfl⟩

lemma Extends.trans (first : Extends c w w') (second : Extends c w' w'') : Extends c w w'' := by
  obtain ⟨⟨log, splits, edits⟩, node, total, key, value⟩ := first
  obtain ⟨⟨log', splits', edits'⟩, node', total', key', value'⟩ := second
  refine ⟨⟨log ++ log', ?_, edits.trans edits'⟩, node'.trans node, total'.trans total,
    key'.trans key, value'.trans value⟩
  rw [splits', splits, append_assoc]

section

variable (extends_ : Extends c w w')
include extends_

lemma Extends.shape (shape : w.core.Shape c) : w'.core.Shape c := by
  obtain ⟨⟨_, _, edits⟩, _⟩ := extends_
  exact shape.grows edits

lemma Extends.resident (shape : w.core.Shape c) (resident : w.core.Resident i) :
    w'.core.Resident i := by
  obtain ⟨⟨_, _, edits⟩, _⟩ := extends_
  exact resident.grows shape edits

lemma Extends.emit (actions : List (Action α)) : Extends c w (w'.emit actions) := { extends_ with }

end

lemma Extends.of_grow {core' : Core π α} (edit : Grow c w.core [] core') :
    Extends c w { w with core := core' } :=
  ⟨⟨[], by simp, .single edit⟩, rfl, rfl, rfl, rfl⟩

lemma split_extends (mem : d ∈ w.core.nodes) (pos : 0 < n)
    (inside : n < d.key.length) : Extends c w (w.split c d n).1 :=
  ⟨⟨[(d.id, w.core.nextId)], rfl, .single (.split mem pos inside)⟩, rfl, rfl, rfl, rfl⟩

/-- An edit of an insert that moves no Full slot, or actions that free none. -/
inductive Edit (c : Config) : InsertWalk π α → InsertWalk π α → Prop
  | split {w : InsertWalk π α} {d : Node π α} {n : Nat} (mem : d ∈ w.core.nodes) (pos : 0 < n)
      (inside : n < d.key.length) : Edit c w (w.split c d n).1
  | store {w : InsertWalk π α} {i : Nat} {ct : Component} {v : List α} (aux : ct ≠ .full)
      (grow : Grow c w.core [] (w.core.setComponentDeviceValue i ct v)) :
      Edit c w { w with core := w.core.setComponentDeviceValue i ct v }
  | note {w : InsertWalk π α} {ids : List Nat} {f : Node π α → Node π α}
      (bare : ∀ d, (f d).id = d.id ∧ (f d).parent = d.parent ∧ (f d).key = d.key ∧
        (f d).data = d.data) : Edit c w { w with core := w.core.modify ids f }
  | emit {w : InsertWalk π α} {actions : List (Action α)} (quiet : freed actions = []) :
      Edit c w (w.emit actions)

/-- A sequence of such edits. -/
abbrev Edits (c : Config) : InsertWalk π α → InsertWalk π α → Prop :=
  Relation.ReflTransGen (Edit c)

lemma Edits.extends_ (edits : Edits c w w') : Extends c w w' := by
  induction edits with
  | refl => exact .refl
  | tail _ edit ih =>
    apply ih.trans
    cases edit with
    | split mem pos inside => exact split_extends mem pos inside
    | store _ grow => exact .of_grow grow
    | note bare => exact .of_grow (.note bare)
    | emit => exact Extends.refl.emit _

section

variable (shape : w.core.Shape c) (mem : d ∈ w.core.nodes) (resident : d.evicted = false)
include shape mem resident

lemma publishWindow_edits (empty : (d.data .swa).value = none) :
    Edits c w (w.publishWindow p d) := by
  obtain ⟨full, held⟩ := exists_value resident
  refine .tail (.single (.store (by decide) ?_)) (.emit rfl)
  refine .store mem (by decide) resident empty fun _ => ?_
  rw [length_map, held]
  exact shape.sized d mem .full (by decide) full (.inl held)

lemma recoverFromIncoming_extends (empty : (d.data .swa).value = none) {incoming : List α}
    (sized : incoming.length = d.len c) : Extends c w (w.recoverFromIncoming p d incoming) := by
  unfold recoverFromIncoming
  split
  · refine (Extends.of_grow (.store mem (by decide) resident empty fun _ => ?_)).emit _
    rwa [length_map]
  · have adopted := Extends.of_grow (.adopt mem resident sized)
    refine (adopted.emit _).trans (publishWindow_edits ?_ ?_ ?_ ?_).extends_
    · exact adopted.shape shape
    · exact (shape.mem_modify mem).mpr (.inr rfl)
    · simp [evicted]
    · rwa [put_data_of_ne d _ (by decide)]

end

/-- What `clipToWindow` leaves: the walk, and the part of the node inside the window. -/
structure Clipped (c : Config) (d : Node π α) (start : Nat) (w w' : InsertWalk π α)
    (window : Option (Node π α × Nat)) : Prop where
  extends_ : Extends c w w'
  inside : ∀ e live, window = some (e, live) → e ∈ w'.core.nodes ∧ e.id = d.id ∧
    e.evicted = d.evicted ∧ (e.data .swa).value = none ∧ start ≤ live ∧
    live + e.len c = start + d.len c

/-- The node is inside the window as it stands, not inside at all, or cut at the floor. -/
lemma clipToWindow_cases (aligned : start % c.pageSize = 0)
    (ran : w.clipToWindow c p d start = some (w', window)) :
    (w' = w ∧ ∀ e live, window = some (e, live) → e = d ∧ live = start ∧
      p.swaEvictedSeqlen ≤ start ∧ (d.data .swa).value = none) ∨
    ∃ n, 0 < n ∧ n < d.key.length ∧ w' = (w.split c d n).1 ∧ (d.data .swa).value = none ∧
      p.swaEvictedSeqlen = start + n * c.pageSize ∧
      window = some (d.lower c n w.core.nextId, start + n * c.pageSize) := by
  unfold clipToWindow at ran
  split at ran
  · cases ran
    exact .inl ⟨rfl, by simp⟩
  rename_i empty
  have empty : (d.data .swa).value = none := by simpa using empty
  split at ran
  swap
  · cases ran
  rename_i floor
  dsimp only at ran
  split at ran
  · cases ran
    exact .inl ⟨rfl, by simp⟩
  rename_i reaches
  split at ran
  · rename_i later
    cases ran
    -- both ends are page-aligned, so the dead part is a whole number of pages
    have max_eq : max start p.swaEvictedSeqlen = p.swaEvictedSeqlen := by omega
    rw [max_eq] at later reaches ⊢
    obtain ⟨pages, gap⟩ : ∃ n, p.swaEvictedSeqlen - start = n * c.pageSize :=
      ⟨_, (Nat.div_mul_cancel ((Nat.dvd_sub_iff_left later.le (Nat.dvd_of_mod_eq_zero aligned)).mpr
        (Nat.dvd_of_mod_eq_zero floor))).symm⟩
    have count : (p.swaEvictedSeqlen - start) / c.pageSize = pages := by
      rw [gap, Nat.mul_div_cancel _ c.pageSize_pos]
    have floored : p.swaEvictedSeqlen = start + pages * c.pageSize := by omega
    have pos : 0 < pages := by
      rcases Nat.eq_zero_or_pos pages with rfl | pos
      · omega
      · exact pos
    have short : pages < d.key.length := by
      have : pages * c.pageSize < d.key.length * c.pageSize := by
        rw [← gap]; unfold len at reaches; omega
      exact Nat.lt_of_mul_lt_mul_right this
    rw [count]
    exact .inr ⟨pages, pos, short, rfl, empty, floored, by rw [floored]; rfl⟩
  · cases ran
    refine .inl ⟨rfl, ?_⟩
    rintro e live ⟨⟩
    exact ⟨rfl, by omega, by omega, empty⟩

lemma clipToWindow_clipped (mem : d ∈ w.core.nodes) (aligned : start % c.pageSize = 0)
    (ran : w.clipToWindow c p d start = some (w', window)) : Clipped c d start w w' window := by
  rcases clipToWindow_cases aligned ran with ⟨rfl, same⟩ | ⟨n, pos, short, rfl, empty, -, rfl⟩
  · refine ⟨.refl, fun e live inside => ?_⟩
    obtain ⟨rfl, rfl, -, empty⟩ := same e live inside
    exact ⟨mem, rfl, rfl, empty, le_rfl, rfl⟩
  · refine ⟨split_extends mem pos short, ?_⟩
    rintro e live ⟨⟩
    refine ⟨lower_mem_splitNode mem n, rfl, evicted_lower .., ?_, by omega, ?_⟩
    · change ((d.data .swa).value.map _) = none
      rw [empty]
      rfl
    · have bound : n * c.pageSize ≤ d.key.length * c.pageSize := mul_le_mul_right _ short.le
      rw [len_lower]
      unfold len
      omega

lemma clipToWindow_edits (mem : d ∈ w.core.nodes) (aligned : start % c.pageSize = 0)
    (ran : w.clipToWindow c p d start = some (w', window)) : Edits c w w' := by
  rcases clipToWindow_cases aligned ran with ⟨rfl, -⟩ | ⟨n, pos, short, rfl, -⟩
  · exact .refl
  · exact .single (.split mem pos short)

lemma freeDuplicates_extends (slice : List α) (consumedFrom : Nat) :
    Extends c w (w.freeDuplicates p slice consumedFrom) := by
  unfold freeDuplicates
  dsimp only
  split
  · exact Extends.refl.emit _
  · exact .refl

section

variable (shape : w.core.Shape c) (mem : d ∈ w.core.nodes) {prefixLen consumedFrom : Nat}
include shape mem

section

variable (resident : d.evicted = false) (aligned : w.total % c.pageSize = 0)
include resident aligned

lemma updateOnOverlap_extends (whole : d.len c = prefixLen) {slice : List α}
    (sized : slice.length = prefixLen)
    (ran : w.updateOnOverlap c p d prefixLen slice = some (w', consumedFrom)) : Extends c w w' := by
  unfold updateOnOverlap at ran
  split at ran
  · obtain ⟨⟨clipped, window⟩, cut, result⟩ := map_eq_some_iff.mp ran
    have spec := clipToWindow_clipped mem aligned cut
    cases window with
    | none =>
      cases result
      exact spec.extends_
    | some part =>
      obtain ⟨e, live⟩ := part
      obtain ⟨inside, -, same, empty, after, span⟩ := spec.inside e live rfl
      cases result
      refine spec.extends_.trans (recoverFromIncoming_extends (spec.extends_.shape shape) inside
        (same.trans resident) empty ?_)
      rw [length_drop]
      omega
  · cases ran
    exact .refl

lemma recoverAfterUnevict_edits (ran : w.recoverAfterUnevict c p d = some w') : Edits c w w' := by
  unfold recoverAfterUnevict at ran
  split at ran
  swap
  · cases ran
    exact .refl
  obtain ⟨⟨clipped, window⟩, cut, rfl⟩ := map_eq_some_iff.mp ran
  have spec := clipToWindow_clipped mem aligned cut
  have edits := clipToWindow_edits mem aligned cut
  cases window with
  | none => exact edits
  | some part =>
    obtain ⟨e, live⟩ := part
    obtain ⟨inside, -, same, empty, -⟩ := spec.inside e live rfl
    exact edits.trans (publishWindow_edits (spec.extends_.shape shape) inside
      (same.trans resident) empty)

end

/-- A walk step on a node leaves that node on the device. -/
lemma adopt_extends (under : w.core.Resident d.parent) (aligned : w.total % c.pageSize = 0)
    (whole : d.len c = prefixLen) (sized : (w.value.take prefixLen).length = prefixLen)
    (ran : w.adopt c p d prefixLen = some w') : Extends c w w' ∧ w'.core.Resident d.id := by
  unfold adopt at ran
  split at ran
  · rename_i evicted
    have restored := Extends.of_grow (.unevict mem evicted under (sized.trans whole.symm))
    have inside : d.put .full { d.data .full with value := some (w.value.take prefixLen) } ∈
        (w.core.unevictNodeOnInsert d (w.value.take prefixLen)).nodes := by
      rw [nodes_unevictNodeOnInsert]
      exact (shape.mem_modify mem).mpr (.inr rfl)
    have device : (d.put .full { d.data .full with
        value := some (w.value.take prefixLen) }).evicted = false := by
      simp [Node.evicted]
    have rest := (recoverAfterUnevict_edits (restored.shape shape) inside device aligned
      ran).extends_
    refine ⟨restored.trans rest, rest.resident (restored.shape shape) (.inr ?_)⟩
    exact ⟨_, inside, rfl, device⟩
  · rename_i resident
    have resident : d.evicted = false := by simpa using resident
    obtain ⟨⟨mid, consumedFrom⟩, overlap, rfl⟩ := map_eq_some_iff.mp ran
    have changed := updateOnOverlap_extends shape mem resident aligned whole sized overlap
    have all := changed.trans (freeDuplicates_extends (p := p) (w.value.take prefixLen) consumedFrom)
    exact ⟨all, all.resident shape (.inr ⟨d, mem, rfl, resident⟩)⟩

end

/-- The hit counter is not part of the tree's shape. -/
lemma incHitCountAndCheck_grows (core : Core π α) (d : Node π α) :
    Grows c core [] (core.incHitCountAndCheck c d).1 := by
  unfold incHitCountAndCheck
  split
  · exact .refl
  · exact .single (.note fun _ => ⟨rfl, rfl, rfl, rfl⟩)

lemma advance_grows (i n : Nat) :
    (w.advance c p i n).splits = w.splits ∧ Grows c w.core [] (w.advance c p i n).core := by
  refine ⟨rfl, ?_⟩
  unfold advance
  cases w.core.find? i with
  | none => exact .refl
  | some d =>
    dsimp only
    split
    · exact incHitCountAndCheck_grows w.core d
    · exact .refl

/-! ### The walk -/

/-- What holds of an insert between two steps of its walk. -/
structure Walking (c : Config) (core : Core π α) (w : InsertWalk π α) : Prop where
  edits : Grows c core w.splits w.core
  shape : w.core.Shape c
  under : w.core.Resident w.node
  aligned : w.total % c.pageSize = 0
  sized : w.value.length = w.key.length * c.pageSize

variable {core : Core π α}

lemma Walking.extend (walking : Walking c core w) (extends_ : Extends c w w') :
    Walking c core w' where
  edits := by
    obtain ⟨⟨log, splits, edits⟩, _⟩ := extends_
    rw [splits]
    exact walking.edits.trans edits
  shape := extends_.shape walking.shape
  under := by
    rw [extends_.node]
    exact extends_.resident walking.shape walking.under
  aligned := extends_.total ▸ walking.aligned
  sized := by rw [extends_.value, extends_.key, walking.sized]

lemma Walking.advance (walking : Walking c core w) (here : w.core.Resident i) :
    Walking c core (w.advance c p i n) where
  edits := by
    obtain ⟨splits, edits⟩ := advance_grows i n
    rw [splits, ← append_nil w.splits]
    exact walking.edits.trans edits
  shape := walking.shape.grows (advance_grows i n).2
  under := here.grows walking.shape (advance_grows i n).2
  aligned := by
    change (w.total + n * c.pageSize) % c.pageSize = 0
    rw [Nat.add_mul_mod_self_right]
    exact walking.aligned
  sized := by
    change (w.value.drop (n * c.pageSize)).length = (w.key.drop n).length * c.pageSize
    rw [length_drop, length_drop, walking.sized, Nat.sub_mul]

/-- Entering a child leaves the other nodes alone. -/
lemma mem_enter_of_ne (old : e ∈ w.core.nodes) (away : e.id ≠ child.id) :
    e ∈ (w.enter c child n).1.core.nodes := by
  unfold enter
  split
  · exact mem_splitNode_of_ne old away n
  · exact old

/-- The node a step enters: below the walk's node, and as long as the match. -/
lemma enter_extends (mem : child ∈ w.core.nodes) (pos : 0 < n) (le : n ≤ child.key.length) :
    Extends c w (w.enter c child n).1 ∧ (w.enter c child n).2 ∈ (w.enter c child n).1.core.nodes ∧
      (w.enter c child n).2.parent = child.parent ∧
      (w.enter c child n).2.len c = n * c.pageSize := by
  unfold enter
  split
  · rename_i inside
    exact ⟨split_extends mem pos inside, upper_mem_splitNode mem n, rfl,
      len_upper c w.core.nextId child le⟩
  · have same : n = child.key.length := by omega
    exact ⟨.refl, mem, rfl, by rw [same]; rfl⟩

section

variable [DecidableEq π]

/-- A step onto `child`: it enters the first `n` pages of it as `d`, and adopts. -/
structure Stepped (c : Config) (p : InsertParams π α) (w : InsertWalk π α) (child : Node π α)
    (n : Nat) (w₁ : InsertWalk π α) (d : Node π α) (w₂ : InsertWalk π α) : Prop where
  pos : 0 < n
  left : n ≤ child.key.length
  right : n ≤ w.key.length
  mem : child ∈ w.core.nodes
  enter : w.enter c child n = (w₁, d)
  entered : Extends c w w₁
  inside : d ∈ w₁.core.nodes
  parent : d.parent = w.node
  whole : d.len c = n * c.pageSize
  sized : (w₁.value.take (n * c.pageSize)).length = n * c.pageSize
  under : w₁.core.Resident d.parent
  adopt : w₁.adopt c p d (n * c.pageSize) = some w₂
  adopted : Extends c w₁ w₂
  resident : w₂.core.Resident d.id

variable (walking : Walking c core w)
include walking

lemma Walking.stepped (found : w.core.child? w.node w.key = some child)
    (ran : w.step c p child = some w') :
    ∃ w₁ d w₂, Stepped c p w child (matchLen child.key w.key) w₁ d w₂ ∧
      w' = w₂.advance c p d.id (matchLen child.key w.key) := by
  obtain ⟨mem, parent, -⟩ := mem_of_child? found
  have pos := matchLen_pos found
  obtain ⟨left, right⟩ := matchLen_le child.key w.key
  obtain ⟨mid, adopted, rfl⟩ := map_eq_some_iff.mp ran
  obtain ⟨entered, inside, above, whole⟩ := enter_extends mem pos left
  have walking' := walking.extend entered
  have under : (w.enter c child (matchLen child.key w.key)).1.core.Resident
      (w.enter c child (matchLen child.key w.key)).2.parent := by
    rw [above, parent, ← entered.node]
    exact walking'.under
  have enough : ((w.enter c child (matchLen child.key w.key)).1.value.take
      (matchLen child.key w.key * c.pageSize)).length = matchLen child.key w.key * c.pageSize := by
    rw [length_take, walking'.sized, entered.key]
    exact min_eq_left (mul_le_mul_right _ right)
  obtain ⟨adopts, resident⟩ := adopt_extends walking'.shape inside under walking'.aligned whole
    enough adopted
  exact ⟨_, _, mid, ⟨pos, left, right, mem, rfl, entered, inside, above.trans parent, whole, enough,
    under, adopted, adopts, resident⟩, rfl⟩

lemma Walking.step (found : w.core.child? w.node w.key = some child)
    (ran : w.step c p child = some w') : Walking c core w' ∧ w'.key.length < w.key.length := by
  obtain ⟨w₁, d, w₂, stepped, rfl⟩ := walking.stepped found ran
  have key : w₂.key = w.key := stepped.adopted.key.trans stepped.entered.key
  have pos := stepped.pos
  have right := stepped.right
  refine ⟨((walking.extend stepped.entered).extend stepped.adopted).advance stepped.resident, ?_⟩
  change (w₂.key.drop _).length < _
  rw [key, length_drop]
  omega

/-- The walk ends where no child is named by the rest of the key. -/
lemma Walking.walk (enough : w.key.length ≤ fuel) (ran : w.walk c p fuel = some w') :
    Walking c core w' ∧ w'.core.child? w'.node w'.key = none := by
  induction fuel generalizing w with
  | zero =>
    have done : w.key = [] := eq_nil_of_length_eq_zero (le_zero.mp enough)
    cases ran
    exact ⟨walking, by rw [done]; rfl⟩
  | succ fuel ih =>
    unfold InsertWalk.walk at ran
    cases found : w.core.child? w.node w.key with
    | none =>
      rw [found] at ran
      cases ran
      exact ⟨walking, found⟩
    | some child =>
      rw [found] at ran
      obtain ⟨mid, stepped, rest⟩ := bind_eq_some_iff.mp ran
      obtain ⟨walking', shorter⟩ := walking.step found stepped
      exact ih walking' (by omega) rest

end

/-! ### The commit of an insert -/

/-- Publishing one node's window leaves the other nodes alone. -/
lemma mem_publishWindow (shape : w.core.Shape c) (mem : d ∈ w.core.nodes)
    (old : e ∈ w.core.nodes) (away : e.id ≠ d.id) : e ∈ (w.publishWindow p d).core.nodes := by
  change e ∈ (w.core.setComponentDeviceValue d.id .swa _).nodes
  rw [nodes_setComponentDeviceValue]
  exact (shape.mem_modify mem).mpr (.inl ⟨old, away⟩)

/-- What `maybeSplitLeaf` leaves: one or two windows still to be published. -/
structure Windows (c : Config) (d : Node π α) (w w' : InsertWalk π α) (older : Option (Node π α))
    (leaf : Node π α) : Prop where
  extends_ : Extends c w w'
  leaf_mem : leaf ∈ w'.core.nodes
  leaf_evicted : leaf.evicted = d.evicted
  leaf_empty : (leaf.data .swa).value = none
  older_mem : ∀ e ∈ older, e ∈ w'.core.nodes ∧ e.id ≠ leaf.id ∧ e.evicted = d.evicted ∧
    (e.data .swa).value = none

lemma maybeSplitLeaf_edits (mem : d ∈ w.core.nodes) : Edits c w (w.maybeSplitLeaf c d).1 := by
  unfold maybeSplitLeaf
  dsimp only
  split
  · have tail_pos : 0 < (c.slidingWindowSize + c.pageSize - 1) / c.pageSize := by
      have window := c.window_pos
      have page := c.pageSize_pos
      exact div_pos (by omega) page
    exact .single (.split mem (by omega) (by omega))
  · exact .refl

lemma maybeSplitLeaf_windows (shape : w.core.Shape c) (mem : d ∈ w.core.nodes)
    (empty : (d.data .swa).value = none) :
    Windows c d w (w.maybeSplitLeaf c d).1 (w.maybeSplitLeaf c d).2.1 (w.maybeSplitLeaf c d).2.2 := by
  have extends_ := (maybeSplitLeaf_edits (c := c) mem).extends_
  unfold maybeSplitLeaf at extends_ ⊢
  dsimp only at extends_ ⊢
  split at extends_
  · rename_i long
    rw [if_pos long]
    refine ⟨extends_, lower_mem_splitNode mem _, evicted_lower ..,
      by simp [split, lower, ComponentData.lower, empty], ?_⟩
    rintro e ⟨⟩
    refine ⟨upper_mem_splitNode mem _, (shape.bound d mem).ne', evicted_upper .., ?_⟩
    simp [split, splitNode, upper, ComponentData.upper, empty]
  · rename_i short
    rw [if_neg short]
    exact ⟨extends_, mem, rfl, empty, by simp⟩

lemma commitSwa_edits (shape : w.core.Shape c) (mem : d ∈ w.core.nodes)
    (resident : d.evicted = false) (aligned : w.total % c.pageSize = 0)
    (ran : w.commitSwa c p d = some w') : Edits c w w' := by
  unfold commitSwa at ran
  split at ran
  swap
  · cases ran
    exact .refl
  obtain ⟨⟨clipped, window⟩, cut, rfl⟩ := map_eq_some_iff.mp ran
  have spec := clipToWindow_clipped mem aligned cut
  have clip := clipToWindow_edits mem aligned cut
  cases window with
  | none => exact clip
  | some part =>
    obtain ⟨e, live⟩ := part
    obtain ⟨inside, -, same, empty, -⟩ := spec.inside e live rfl
    have shape' := spec.extends_.shape shape
    have windows := maybeSplitLeaf_windows shape' inside empty
    have device : e.evicted = false := same.trans resident
    dsimp only [Option.elim]
    have shape'' := windows.extends_.shape shape'
    refine clip.trans ((maybeSplitLeaf_edits inside).trans ?_)
    revert windows shape''
    obtain ⟨split, older, leaf⟩ := clipped.maybeSplitLeaf c e
    intro windows shape''
    cases older with
    | none =>
      exact publishWindow_edits shape'' windows.leaf_mem (windows.leaf_evicted.trans device)
        windows.leaf_empty
    | some half =>
      obtain ⟨half_mem, apart, half_evicted, half_empty⟩ := windows.older_mem half rfl
      have first := publishWindow_edits (p := p) shape'' half_mem
        (half_evicted.trans device) half_empty
      exact first.trans (publishWindow_edits (first.extends_.shape shape'')
        (mem_publishWindow shape'' half_mem windows.leaf_mem apart.symm)
        (windows.leaf_evicted.trans device) windows.leaf_empty)

lemma commitMamba_edits {existed : Bool} (shape : w.core.Shape c) (here : w.core.Resident i)
    (ran : w.commitMamba c p i = some (w', existed)) : Edits c w w' := by
  unfold commitMamba at ran
  split at ran
  swap
  · cases ran
    exact .refl
  obtain ⟨state, -, stored⟩ := map_eq_some_iff.mp ran
  split at stored
  · cases stored
    exact .refl
  rename_i empty
  cases stored
  refine .tail ?_ (.emit (by split <;> rfl))
  rcases here with rfl | ⟨d, mem, rfl, resident⟩
  · -- the root is not stored, so there is nothing to write
    have absent : w.core.find? 0 = none := by
      rcases found : w.core.find? 0 with _ | d
      · rfl
      · obtain ⟨mem, zero⟩ := mem_of_find? found
        exact absurd zero (shape.ne_zero mem)
    have same : w.core.setComponentDeviceValue 0 .mamba state = w.core := by
      simp [setComponentDeviceValue, absent]
    rw [same]
  · refine .single (.store (by decide) (.store mem (by decide) resident ?_ (by simp)))
    rw [shape.find? mem] at empty
    simpa using empty

lemma backupTarget_edits (target : Nat) (isNewLeaf : Bool) :
    Edits c w (w.backupTarget c p target isNewLeaf) := by
  unfold backupTarget
  cases w.core.find? target with
  | none => exact .refl
  | some d =>
    dsimp only [Option.elim]
    split
    · exact .refl
    split
    · split
      · refine .tail ?_
          (.emit (by split <;> rfl))
        unfold incHitCountAndCheck
        split
        · exact .refl
        · exact .single (.note fun _ => ⟨rfl, rfl, rfl, rfl⟩)
      · exact .refl
    · split
      · exact .single (.emit rfl)
      · exact .refl

variable (walking : Walking c core w)
include walking

lemma Walking.addNewNode [DecidableEq π] (left : w.key ≠ [])
    (ended : w.core.child? w.node w.key = none) :
    Grow c w.core [] (w.core.addNewNode w.node w.key w.value p.rotationBase).1 := by
  refine .leaf walking.under left walking.sized ?_
  intro d mem parent heads
  exact head?_ne_of_child? ended mem parent (walking.shape.keyed d mem) heads

/-- The commit works below the walk's node, or on the leaf it adds there. -/
lemma Walking.commits [DecidableEq π] (ended : w.core.child? w.node w.key = none)
    (ran : Core.commitInsert c p w = some (w', result)) :
    (w.key = [] ∧ result.lastDeviceNode = w.node ∧ Edits c w w') ∨
    (w.key ≠ [] ∧ result.lastDeviceNode = w.core.nextId ∧
      Edits c { w with core := (w.core.addNewNode w.node w.key w.value p.rotationBase).1 } w') := by
  unfold commitInsert at ran
  split at ran
  · rename_i done
    obtain ⟨⟨mid, existed⟩, stored, out⟩ := map_eq_some_iff.mp ran
    cases out
    exact .inl ⟨done, rfl, (commitMamba_edits walking.shape walking.under stored).trans
      (backupTarget_edits w.node false)⟩
  · rename_i left
    obtain ⟨windows, published, rest⟩ := bind_eq_some_iff.mp ran
    obtain ⟨⟨mid, existed⟩, stored, out⟩ := map_eq_some_iff.mp rest
    cases out
    have grown := Extends.of_grow (walking.addNewNode (p := p) left ended)
    have shape := grown.shape walking.shape
    have leaf : (w.core.addNewNode w.node w.key w.value p.rotationBase).2 ∈
        (w.core.addNewNode w.node w.key w.value p.rotationBase).1.nodes := mem_cons_self
    have device : (w.core.addNewNode w.node w.key w.value p.rotationBase).2.evicted = false := rfl
    have swa := commitSwa_edits shape leaf device walking.aligned published
    have here := swa.extends_.resident shape (.inr ⟨_, leaf, rfl, device⟩)
    have mamba := commitMamba_edits (swa.extends_.shape shape) here stored
    exact .inr ⟨left, rfl, (swa.trans mamba).trans (backupTarget_edits _ true)⟩

lemma Walking.commit [DecidableEq π] (ended : w.core.child? w.node w.key = none)
    (ran : Core.commitInsert c p w = some (w', result)) : Extends c w w' := by
  rcases walking.commits ended ran with ⟨-, -, edits⟩ | ⟨left, -, edits⟩
  · exact edits.extends_
  · exact (Extends.of_grow (walking.addNewNode left ended)).trans edits.extends_

end InsertWalk

/-- An insert is a sequence of growing edits, whose splits it records. -/
lemma Core.insert_grows [DecidableEq π] {c : Config} {core : Core π α} (shape : core.Shape c)
    {p : InsertParams π α} (enough : p.key.length * c.pageSize ≤ p.value.length)
    {w : InsertWalk π α} (ran : core.insert c p = some (w, result)) :
    Grows c core w.splits w.core := by
  unfold insert at ran
  split at ran
  · cases ran
    exact .refl
  split at ran
  · cases ran
    exact .refl
  obtain ⟨mid, walked, committed⟩ := bind_eq_some_iff.mp ran
  have start : InsertWalk.Walking c core
      ⟨core, 0, 0, p.key, p.value.take (p.key.length * c.pageSize), [], []⟩ :=
    ⟨.refl, shape, .inl rfl, zero_mod _, by simpa using enough⟩
  obtain ⟨walking, ended⟩ := start.walk le_rfl walked
  exact (walking.extend (walking.commit ended committed)).edits

end Sglang.Tree
