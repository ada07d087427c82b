/-
# The unified radix tree: the size ledgers

Per component the core counts the device tokens that may be evicted and those under a lock.
`Core.Ledger` says that both counters are sums over the nodes; every edit and every lock
operation moves them by exactly what it changes.
-/

import Sglang.Lib.Weigh
import Sglang.Tree.Receipts

namespace Sglang.Tree

open Sglang.Lib Option List ComponentData

open Links (tags weigh weigh_congr weigh_cons weigh_map)

open Function (update update_of_ne update_self)

variable {π α : Type}

namespace Node

/-- The device tokens of `ct` on the node, if it is not locked. -/
def evictableTokens (ct : Component) (d : Node π α) : Int :=
  if (d.data ct).lockRef = 0 then (d.data ct).valueLen else 0

/-- The device tokens of `ct` on the node, if it is locked. -/
def protectedTokens (ct : Component) (d : Node π α) : Int :=
  if (d.data ct).lockRef = 0 then 0 else (d.data ct).valueLen

end Node

open Node (evictableTokens protectedTokens)

namespace Core

/-- Both counters of every component are sums over the nodes below the root. -/
structure Ledger (core : Core π α) : Prop where
  evictable : ∀ ct, core.componentEvictableSize ct = weigh (evictableTokens ct) core.nodes
  protectedSize : ∀ ct,
    core.componentProtectedSize ct = weigh (protectedTokens ct) core.nodes

variable {c : Config} {core core' : Core π α} {d e child : Node π α} {i : Nat} {ct : Component}
  {held : List Held}

lemma ledger_reset : Ledger (reset : Core π α) := ⟨fun _ => rfl, fun _ => rfl⟩

/-! ### One node rewritten -/

variable {f : Node π α → Node π α}

lemma Shape.weigh_modify (shape : core.Shape c) (mem : d ∈ core.nodes) (w : Node π α → Int) :
    weigh w (core.modify [d.id] f).nodes = weigh w core.nodes + (w (f d) - w d) := by
  have rewritten := Links.weigh_rewrite shape.rooted.nodup [d]
    (by simpa using mem) (by simp [tags]) f w
  simpa [tags, links] using rewritten

section

variable (ledger : core.Ledger)
include ledger

/-- One node is rewritten, and the counters follow. -/
lemma Ledger.rewrite (shape : core.Shape c) (mem : d ∈ core.nodes)
    (nodes : core'.nodes = (core.modify [d.id] f).nodes)
    (evictable : ∀ ct, core'.componentEvictableSize ct = core.componentEvictableSize ct +
      ((f d).evictableTokens ct - d.evictableTokens ct))
    (protected_ : ∀ ct, core'.componentProtectedSize ct = core.componentProtectedSize ct +
      ((f d).protectedTokens ct - d.protectedTokens ct)) : core'.Ledger where
  evictable ct := by rw [evictable, ledger.evictable, nodes, shape.weigh_modify mem]
  protectedSize ct := by rw [protected_, ledger.protectedSize, nodes, shape.weigh_modify mem]

/-- Rewriting that keeps values and locks. -/
lemma Ledger.map (nodes : core'.nodes = core.nodes.map f)
    (same : ∀ d ∈ core.nodes, ∀ ct, ((f d).data ct).valueLen = (d.data ct).valueLen ∧
      ((f d).data ct).lockRef = (d.data ct).lockRef)
    (evictable : core'.componentEvictableSize = core.componentEvictableSize)
    (protected_ : core'.componentProtectedSize = core.componentProtectedSize) :
    core'.Ledger where
  evictable ct := by
    rw [evictable, ledger.evictable, nodes, weigh_map]
    apply weigh_congr
    intro d mem
    simp [evictableTokens, same d mem ct]
  protectedSize ct := by
    rw [protected_, ledger.protectedSize, nodes, weigh_map]
    apply weigh_congr
    intro d mem
    simp [protectedTokens, same d mem ct]

lemma Ledger.congr (nodes : core'.nodes = core.nodes)
    (evictable : core'.componentEvictableSize = core.componentEvictableSize)
    (protected_ : core'.componentProtectedSize = core.componentProtectedSize) : core'.Ledger :=
  ledger.map (by simp [nodes]) (fun _ _ _ => ⟨rfl, rfl⟩) evictable protected_

/-- Storing a value where there was none: the tokens go to the side the lock decides. -/
lemma Ledger.store (shape : core.Shape c) (mem : d ∈ core.nodes) {v : List α}
    (empty : (d.data ct).value = none) (nodes : core'.nodes =
      (core.modify [d.id] fun d => d.put ct { d.data ct with value := some v }).nodes)
    (evictable : core'.componentEvictableSize = update core.componentEvictableSize ct
      (core.componentEvictableSize ct + if 0 < (d.data ct).lockRef then 0 else v.length))
    (protected_ : core'.componentProtectedSize = update core.componentProtectedSize ct
      (core.componentProtectedSize ct + if 0 < (d.data ct).lockRef then v.length else 0)) :
    core'.Ledger := by
  refine ledger.rewrite shape mem nodes (fun ct' => ?_) (fun ct' => ?_)
  all_goals
    first | rw [evictable] | rw [protected_]
    by_cases same : ct' = ct
    · simp only [evictableTokens, protectedTokens, valueLen]
      split <;> split <;> simp_all
    · simp [update_of_ne same, evictableTokens, protectedTokens, Node.put_data_of_ne _ _ same]

end

lemma sizes_setComponentDeviceValue (ct : Component) (found : core.find? i = some d) (v : List α) :
    (core.setComponentDeviceValue i ct v).componentEvictableSize =
        update core.componentEvictableSize ct
          (core.componentEvictableSize ct + if 0 < (d.data ct).lockRef then 0 else v.length) ∧
      (core.setComponentDeviceValue i ct v).componentProtectedSize =
        update core.componentProtectedSize ct
          (core.componentProtectedSize ct + if 0 < (d.data ct).lockRef then v.length else 0) := by
  unfold setComponentDeviceValue
  rw [found]
  dsimp only [Option.elim]
  split <;> simp [addProtected, addEvictable, modify]

/-! ### Splits, new leaves and removals -/

lemma valueLen_halves (n : Nat) (cd : ComponentData α) :
    (cd.lower n).valueLen + (cd.upper n).valueLen = cd.valueLen := by
  cases held : cd.value with
  | none => simp [ComponentData.valueLen, ComponentData.lower, ComponentData.upper, held]
  | some v =>
    simp only [ComponentData.valueLen, ComponentData.lower, ComponentData.upper, held,
      map_some, getD_some, length_drop, length_take]
    omega

section

variable (ledger : core.Ledger)
include ledger

lemma Ledger.splitNode (shape : core.Shape c)
    (mem : child ∈ core.nodes) (n : Nat) : (core.splitNode c child n).1.Ledger := by
  have halves : ∀ ct, ((child.lower c n core.nextId).data ct).valueLen +
      ((child.upper c n core.nextId).data ct).valueLen = (child.data ct).valueLen := by
    intro ct
    by_cases state : ct = .mamba
    · simp [Node.lower, Node.upper, state, ComponentData.valueLen]
    · simpa [Node.lower, Node.upper, state] using valueLen_halves _ (child.data ct)
  have locks : ∀ ct, ((child.lower c n core.nextId).data ct).lockRef = (child.data ct).lockRef ∧
      (((child.upper c n core.nextId).data ct).lockRef = (child.data ct).lockRef ∨
        ((child.upper c n core.nextId).data ct).valueLen = 0) := by
    intro ct
    cases ct <;> simp [Node.lower, Node.upper, ComponentData.lower, ComponentData.upper,
      ComponentData.valueLen]
  constructor <;> intro ct
  case' evictable => refine (ledger.evictable ct).trans ?_
  case' protectedSize => refine (ledger.protectedSize ct).trans ?_
  all_goals
    rw [nodes_splitNode, show child.id = links.tag child from rfl,
      Links.weigh_expand shape.rooted.nodup mem]
    have sum := halves ct
    obtain ⟨low, up⟩ := locks ct
    simp only [evictableTokens, protectedTokens]
    rcases up with up | up
    · split <;> omega
    · split <;> split <;> omega

lemma Ledger.addNewNode (parent : Nat) (key : List π) (value : List α)
    (rotationBase : Option Nat) : (core.addNewNode parent key value rotationBase).1.Ledger := by
  refine ⟨fun ct => ?_, fun ct => ?_⟩
  · have before := ledger.evictable ct
    change update core.componentEvictableSize .full _ ct =
      weigh (evictableTokens ct) (_ :: core.nodes)
    rw [weigh_cons, ← before]
    by_cases full : ct = .full
    · subst full
      simp [evictableTokens, valueLen, add_comm]
    · simp [full, evictableTokens, valueLen]
  · have before := ledger.protectedSize ct
    change core.componentProtectedSize ct = weigh (protectedTokens ct) (_ :: core.nodes)
    rw [weigh_cons, ← before]
    simp [protectedTokens]

lemma Ledger.addHostNode (parent : Nat) (key : List π) (v : List α) :
    (core.addHostNode parent key v).Ledger := by
  refine ⟨fun ct => ?_, fun ct => ?_⟩
  · change core.componentEvictableSize ct = weigh (evictableTokens ct) (_ :: core.nodes)
    rw [weigh_cons, ledger.evictable ct]
    simp [evictableTokens, valueLen]
  · change core.componentProtectedSize ct = weigh (protectedTokens ct) (_ :: core.nodes)
    rw [weigh_cons, ledger.protectedSize ct]
    simp [protectedTokens]

lemma Ledger.removeNode (shape : core.Shape c) (mem : d ∈ core.nodes)
    (unlocked : d.locked = false) : (core.removeNode d).Ledger := by
  have free := Node.locked_eq_false_iff.mp unlocked
  refine ⟨fun ct => ?_, fun ct => ?_⟩
  · have removed := Links.weigh_remove shape.rooted.nodup mem (evictableTokens ct)
    change core.componentEvictableSize ct - _ = weigh (evictableTokens ct)
      (core.nodes.filter fun e => decide (e.id ≠ d.id))
    rw [show (core.nodes.filter fun e => decide (e.id ≠ d.id)) =
      core.nodes.filter fun e => decide (links.tag e ≠ links.tag d) from rfl, removed,
      ledger.evictable ct]
    simp [evictableTokens, free ct]
  · have removed := Links.weigh_remove shape.rooted.nodup mem (protectedTokens ct)
    change core.componentProtectedSize ct = weigh (protectedTokens ct)
      (core.nodes.filter fun e => decide (links.tag e ≠ links.tag d))
    rw [removed, ledger.protectedSize ct]
    simp [protectedTokens, free ct]

/-- Dropping an unlocked value. -/
lemma Ledger.evictValues (shape : core.Shape c) (mem : d ∈ core.nodes)
    (unlocked : (d.data ct).lockRef = 0) : (core.evictValues ct [d]).Ledger := by
  refine ledger.rewrite shape mem rfl (fun ct' => ?_) (fun ct' => ?_)
  all_goals
    by_cases same : ct' = ct
    · subst same
      simp [Core.evictValues, addEvictable, modify, evictableTokens, protectedTokens, dropValue,
        unlocked, valueLen]
    · simp [Core.evictValues, addEvictable, modify, same, evictableTokens, protectedTokens,
        dropValue_data]

end

/-! ### Every edit -/

section

variable (ledger : core.Ledger) (shape : core.Shape c) {log : List (Nat × Nat)}
include ledger shape

/-- Rewriting one component without touching its device value or its lock. -/
lemma Ledger.put (mem : d ∈ core.nodes) {cd : Node π α → ComponentData α}
    (value : (cd d).valueLen = (d.data ct).valueLen)
    (lockRef : (cd d).lockRef = (d.data ct).lockRef) :
    (core.modify [d.id] fun d => d.put ct (cd d)).Ledger := by
  have same : ∀ ct', ((d.put ct (cd d)).data ct').valueLen = (d.data ct').valueLen ∧
      ((d.put ct (cd d)).data ct').lockRef = (d.data ct').lockRef := fun ct' =>
    ⟨d.put_keeps (·.valueLen) value ct', d.put_keeps (·.lockRef) lockRef ct'⟩
  refine ledger.rewrite shape mem rfl (fun ct' => ?_) (fun ct' => ?_)
  · simp [evictableTokens, same ct', modify]
  · simp [protectedTokens, same ct', modify]

lemma Ledger.grow (edit : Grow c core log core') : core'.Ledger := by
  cases edit with
  | split mem => exact ledger.splitNode shape mem _
  | leaf => exact ledger.addNewNode ..
  | @unevict d v mem evicted _ _ =>
    have empty : (d.data .full).value = none := by simpa [Node.evicted] using evicted
    obtain ⟨up, down⟩ := sizes_setComponentDeviceValue .full (shape.find? mem) v
    refine ledger.store shape mem empty (nodes_unevictNodeOnInsert ..) (.trans ?_ up)
      (.trans ?_ down)
    all_goals
      unfold unevictNodeOnInsert setComponentDeviceValue
      rw [shape.find? mem]
      rfl
  | @store d ct v mem _ _ empty _ =>
    obtain ⟨up, down⟩ := sizes_setComponentDeviceValue ct (shape.find? mem) v
    exact ledger.store shape mem empty (nodes_setComponentDeviceValue ..) up down
  | @adopt d v mem resident sized =>
    refine ledger.put shape mem ?_ rfl
    rw [Node.valueLen_full shape mem resident]
    exact sized
  | @note ids f bare =>
    refine ledger.map (nodes_modify ..) (fun d _ ct => ?_) rfl rfl
    split <;> simp [bare]

lemma Ledger.grows (edits : Grows c core log core') : core'.Ledger := by
  induction edits with
  | refl => exact ledger
  | tail before edit ih => exact ih.grow (shape.grows before) edit

lemma Ledger.shed (edit : Shed c core core') : core'.Ledger := by
  cases edit with
  | aux mem _ unlocked => exact ledger.evictValues shape mem unlocked
  | full mem unlocked =>
    exact ledger.evictValues shape mem (Node.locked_eq_false_iff.mp unlocked .full)
  | remove mem unlocked => exact ledger.removeNode shape mem unlocked
  | leaves => exact ledger.congr rfl rfl rfl
  | putHost mem | dropHost mem => exact ledger.put shape mem rfl rfl

lemma Ledger.sheds (edits : Sheds c core core') : core'.Ledger := by
  induction edits with
  | refl => exact ledger
  | tail before edit ih => exact ih.shed (shape.sheds before) edit

lemma Ledger.load (edit : Load c core core') : core'.Ledger := by
  cases edit with
  | @full d v mem evicted _ _ =>
    have empty : (d.data .full).value = none := by simpa [Node.evicted] using evicted
    obtain ⟨up, down⟩ := sizes_setComponentDeviceValue .full (shape.find? mem) v
    refine ledger.store shape mem empty ((nodes_loadFull ..).trans
      (nodes_setComponentDeviceValue ..)) (.trans ?_ up) (.trans ?_ down)
    all_goals
      unfold loadFull setComponentDeviceValue
      rw [shape.find? mem]
      rfl
  | leaves => exact ledger.congr rfl rfl rfl
  | grow edit => exact ledger.grow shape edit

lemma Ledger.loads (edits : Loads c core core') : core'.Ledger := by
  induction edits with
  | refl => exact ledger
  | tail before edit ih => exact ih.load (shape.loads before) edit

end

/-! ### Lock operations -/

lemma lockNode_data (ct ct' : Component) (d : Node π α) : (lockNode ct d).data ct' =
    if ct' = ct then { d.data ct with lockRef := (d.data ct).lockRef + 1 } else d.data ct' := by
  rw [lockNode, Node.put_data]

lemma unlockNode_data (ct ct' : Component) (d : Node π α) : (unlockNode ct d).data ct' =
    if ct' = ct then { d.data ct with lockRef := (d.data ct).lockRef - 1 } else d.data ct' := by
  rw [unlockNode, Node.put_data]

lemma weigh_zero {w : Node π α → Int} {seg : List (Node π α)} (zero : ∀ d ∈ seg, w d = 0) :
    weigh w seg = 0 := by
  rw [weigh_congr zero]
  simp [weigh]

lemma weigh_neg (w : Node π α → Int) (seg : List (Node π α)) :
    weigh (fun d => -w d) seg = -weigh w seg := by
  induction seg with
  | nil => rfl
  | cons d seg ih =>
    rw [weigh_cons, weigh_cons]
    omega

lemma sizes_updateAll (core : Core π α) (ids : List Nat) :
    (core.updateAll ids).componentEvictableSize = core.componentEvictableSize ∧
      (core.updateAll ids).componentProtectedSize = core.componentProtectedSize := by
  induction ids generalizing core with
  | nil => exact ⟨rfl, rfl⟩
  | cons i ids ih => exact ih (core.updateEvictableLeafSets i)

variable (ledger : core.Ledger) (shape : core.Shape c) {seg : List (Node π α)}
  (inside : seg ⊆ core.nodes) (nodup : (links.tags seg).Nodup)
include ledger shape inside nodup

/-- Locks of one component on a segment change: what one side gains the other loses. -/
lemma Ledger.moves (ct : Component)
    (nodes : core'.nodes = (core.modify (links.tags seg) f).nodes)
    (others : ∀ d, ∀ ct' ≠ ct, (f d).data ct' = d.data ct')
    (valueLen : ∀ d, ((f d).data ct).valueLen = (d.data ct).valueLen) (moved : Node π α → Int)
    (change : ∀ d ∈ seg, (f d).evictableTokens ct - d.evictableTokens ct = moved d)
    (evictable : core'.componentEvictableSize = update core.componentEvictableSize ct
      (core.componentEvictableSize ct + weigh moved seg))
    (protected_ : core'.componentProtectedSize = update core.componentProtectedSize ct
      (core.componentProtectedSize ct - weigh moved seg)) : core'.Ledger := by
  have counter : ∀ d ∈ seg, (f d).protectedTokens ct - d.protectedTokens ct = -moved d := by
    intro d mem
    rw [← change d mem]
    simp only [protectedTokens, evictableTokens, valueLen]
    split <;> split <;> omega
  have rewritten := Links.weigh_rewrite shape.rooted.nodup seg inside nodup f
  constructor
  · intro ct'
    rw [nodes, evictable]
    refine .trans ?_ (rewritten _).symm
    rw [← ledger.evictable]
    by_cases same : ct' = ct
    · rw [same, update_self, weigh_congr change]
    · rw [update_of_ne same, weigh_zero fun d _ => ?_, add_zero]
      rw [evictableTokens, evictableTokens, others d ct' same, sub_self]
  · intro ct'
    rw [nodes, protected_]
    refine .trans ?_ (rewritten _).symm
    rw [← ledger.protectedSize]
    by_cases same : ct' = ct
    · rw [same, update_self, weigh_congr counter, weigh_neg, ← sub_eq_add_neg]
    · rw [update_of_ne same, weigh_zero fun d _ => ?_, add_zero]
      rw [protectedTokens, protectedTokens, others d ct' same, sub_self]

/-- First locks move tokens to the protected side. -/
lemma Ledger.acquireOn (ct : Component) : (core.acquireOn ct seg).Ledger := by
  refine ledger.moves shape inside nodup ct rfl (fun d ct' other => ?_)
    (fun d => ?_) (fun d => -(if (d.data ct).lockRef = 0 then ((d.data ct).valueLen : Int) else 0))
    (fun d _ => ?_) ?_ ?_
  · rw [lockNode_data, if_neg other]
  · rw [lockNode_data, if_pos rfl]
    rfl
  · simp [evictableTokens, lockNode_data]
  · rw [weigh_neg]
    rfl
  · rw [weigh_neg, sub_neg_eq_add]
    rfl

/-- Last releases move tokens back. -/
lemma Ledger.releaseOn (ran : core.releaseOn ct seg = some core') : core'.Ledger := by
  unfold Core.releaseOn at ran
  split at ran
  swap
  · cases ran
  rename_i counted
  cases ran
  refine .congr ?_ (nodes_updateAll ..) (sizes_updateAll ..).1 (sizes_updateAll ..).2
  refine ledger.moves shape inside nodup ct rfl (fun d ct' other => ?_)
    (fun d => ?_) (fun d => if (d.data ct).lockRef = 1 then ((d.data ct).valueLen) else 0)
    (fun d mem => ?_) ?_ ?_
  · rw [unlockNode_data, if_neg other]
  · rw [unlockNode_data, if_pos rfl]
    rfl
  · simp only [evictableTokens, unlockNode_data, if_true, valueLen]
    split <;> split <;> split <;> omega
  · rfl
  · rfl

end Core

/-! ### Lock operations as edits -/

/-- One edit of a lock operation. -/
inductive Relock (c : Config) : Core π α → Core π α → Prop
  | acquire {core : Core π α} {ct : Component} {seg : List (Node π α)} (inside : seg ⊆ core.nodes)
      (nodup : (links.tags seg).Nodup) : Relock c core (core.acquireOn ct seg)
  | release {core core' : Core π α} {ct : Component} {seg : List (Node π α)}
      (inside : seg ⊆ core.nodes) (nodup : (links.tags seg).Nodup)
      (ran : core.releaseOn ct seg = some core') : Relock c core core'
  | stamp {core : Core π α} {i u : Nat} :
      Relock c core { core.modify [i] (Core.stampNode u) with nextUuid := u }
  | leaves {core : Core π α} {device host : Finset Nat} :
      Relock c core { core with evictableDeviceLeaves := device, evictableHostLeaves := host }
  | shed {core core' : Core π α} (edit : Shed c core core') : Relock c core core'

/-- A sequence of such edits. -/
abbrev Relocks (c : Config) : Core π α → Core π α → Prop := Relation.ReflTransGen (Relock c)

namespace Core

variable {c : Config} {core core' : Core π α} {d : Node π α} {i : Nat} {ct : Component}
  {h : Held}

variable {seg : List (Node π α)} {receipt : Receipt}

lemma releaseOn_nodes (ran : core.releaseOn ct seg = some core') :
    core'.nodes = core.nodes.map (lower ct (links.tags seg)) ∧ core'.nextId = core.nextId := by
  unfold releaseOn at ran
  split at ran
  · cases ran
    rw [nodes_updateAll, nextId_updateAll]
    exact ⟨rfl, rfl⟩
  · cases ran

section

variable (shape : core.Shape c)
include shape

lemma Shape.relock (edit : Relock c core core') : core'.Shape c := by
  cases edit with
  | acquire => exact shape.touch (touches_raise ..) (nodes_acquireOn ..) rfl
  | release _ _ ran =>
    obtain ⟨nodes, nextId⟩ := releaseOn_nodes ran
    exact shape.touch (touches_lower ..) nodes nextId
  | @stamp i u => exact shape.touch (touches_stamp i u) rfl rfl
  | leaves => exact shape.congr rfl rfl
  | shed edit => exact shape.shed edit

lemma Shape.relocks (edits : Relocks c core core') : core'.Shape c := by
  induction edits with
  | refl => exact shape
  | tail _ edit ih => exact ih.relock edit

lemma Residency.relock (residency : core.Residency c)
    (edit : Relock c core core') : core'.Residency c := by
  cases edit with
  | acquire => exact residency.map (touches_raise ..) (nodes_acquireOn ..)
  | release _ _ ran => exact residency.map (touches_lower ..) (releaseOn_nodes ran).1
  | @stamp i u => exact residency.map (touches_stamp i u) rfl
  | leaves => exact residency.congr rfl
  | shed edit => exact residency.shed shape edit

lemma Residency.relocks (residency : core.Residency c)
    (edits : Relocks c core core') : core'.Residency c := by
  induction edits with
  | refl => exact residency
  | tail before edit ih => exact ih.relock (shape.relocks before) edit

lemma Ledger.relock (ledger : core.Ledger) (edit : Relock c core core') : core'.Ledger := by
  cases edit with
  | acquire inside nodup => exact ledger.acquireOn shape inside nodup _
  | release inside nodup ran => exact ledger.releaseOn shape inside nodup ran
  | @stamp i u =>
    refine ledger.map (f := stamp i u) rfl (fun d _ ct => ⟨?_, stamp_lockRef ..⟩) rfl rfl
    rw [valueLen, (touches_stamp i u).value]
    rfl
  | leaves => exact ledger.congr rfl rfl rfl
  | shed edit => exact ledger.shed shape edit

lemma Ledger.relocks (ledger : core.Ledger) (edits : Relocks c core core') : core'.Ledger := by
  induction edits with
  | refl => exact ledger
  | tail before edit ih => exact ih.relock (shape.relocks before) edit

/-- A part of a path. -/
lemma Shape.segment (part : seg.Sublist (core.spine i)) :
    seg ⊆ core.nodes ∧ (links.tags seg).Nodup :=
  ⟨fun _ mem => Links.mem_of_mem_spine (part.subset mem),
    (shape.rooted.nodup_spine i).sublist (part.map _)⟩

end

lemma windowSegment_isPrefix (covered : Nat) (path : List (Node π α)) :
    windowSegment c covered path <+: path := by
  induction path generalizing covered with
  | nil => exact prefix_rfl
  | cons d up ih =>
    unfold windowSegment
    split
    · exact (prefix_cons_inj d).mpr (ih _)
    · exact nil_prefix

lemma acquire_relock (shape : core.Shape c) (part : seg.Sublist (core.spine i)) (ct : Component) :
    Relock c core (core.acquireOn ct seg) :=
  .acquire (shape.segment part).1 (shape.segment part).2

lemma lockSwa_relocks (shape : core.Shape c) (i : Nat) (skip : List Component) :
    Relocks c core (core.lockSwa c i skip).1 := by
  unfold lockSwa
  split
  · have window := acquire_relock shape (windowSegment_isPrefix (c := c) 0 (core.spine i)).sublist .swa
    unfold acquireSwa
    dsimp only
    cases windowBoundary c 0 (core.spine i) with
    | none => exact .single window
    | some boundary =>
      dsimp only
      cases (boundary.data .swa).uuid with
      | some u => exact .single window
      | none => exact (Relation.ReflTransGen.single window).tail .stamp
  · exact .refl

lemma incLockRef_relocks (shape : core.Shape c) {skip : List Component}
    (ran : core.incLockRef c i skip = some (core', receipt)) : Relocks c core core' := by
  unfold incLockRef at ran
  split at ran
  swap
  · cases ran
  obtain ⟨core₁, locked, out⟩ := map_eq_some_iff.mp ran
  have full : Relocks c core core₁ := by
    unfold lockFull at locked
    split at locked
    · cases locked
      exact .refl
    · unfold acquireFull at locked
      dsimp only at locked
      split at locked
      · cases locked
        exact (Relation.ReflTransGen.single
          (acquire_relock shape (.refl _) .full)).tail .leaves
      · cases locked
  have shape₁ := shape.relocks full
  have swa := lockSwa_relocks shape₁ i skip
  have shape₂ := shape₁.relocks swa
  have mamba : Relocks c (core₁.lockSwa c i skip).1
      ((core₁.lockSwa c i skip).1.lockMamba c i skip) := by
    unfold lockMamba
    split
    · exact .single (acquire_relock shape₂ (take_sublist 1 _) .mamba)
    · exact .refl
  cases out
  exact ((full.trans swa).trans mamba).tail .leaves

/-! ### Releases -/

/-- One edit of a release: locks given back, a node refreshed, or unlocked windows dropped. -/
inductive Release (c : Config) : Core π α → Core π α → Prop
  | release {core core' : Core π α} {ct : Component} {seg : List (Node π α)}
      (inside : seg ⊆ core.nodes) (nodup : (links.tags seg).Nodup)
      (ran : core.releaseOn ct seg = some core') : Release c core core'
  | update {core : Core π α} {i : Nat} : Release c core (core.updateEvictableLeafSets i)
  | drop {core : Core π α} {ds : List (Node π α)}
      (free : ∀ d ∈ ds, d ∈ core.nodes ∧ (d.data .swa).lockRef = 0)
      (nodup : (links.tags ds).Nodup) : Release c core (core.evictValues .swa ds)

/-- A sequence of such edits. -/
abbrev Releases (c : Config) : Core π α → Core π α → Prop := Relation.ReflTransGen (Release c)

variable (shape : core.Shape c)
include shape

lemma Releases.relocks (edits : Releases c core core') : Relocks c core core' := by
  induction edits with
  | refl => exact .refl
  | tail before edit ih =>
    apply ih.trans
    cases edit with
    | release inside nodup ran => exact .single (.release inside nodup ran)
    | update => exact .single .leaves
    | drop free nodup =>
      exact (evictValues_sheds (shape.relocks ih) .swa (by decide) free nodup).lift id
        fun _ _ => .shed

lemma release_part (part : seg.Sublist (core.spine i)) (ran : core.releaseOn ct seg = some core') :
    Release c core core' :=
  .release (shape.segment part).1 (shape.segment part).2 ran

lemma releaseSwa_releases (ran : core.releaseSwa receipt = some core') : Releases c core core' := by
  unfold releaseSwa at ran
  split at ran
  · cases ran
    exact .refl
  · obtain ⟨uuid, -, ran⟩ := bind_eq_some_iff.mp ran
    exact .single (release_part shape (markedSegment_isPrefix uuid _).sublist ran)

lemma decLockRef_releases {skipSwa : Bool}
    (ran : core.decLockRef c receipt skipSwa = some core') : Releases c core core' := by
  have known : core.known receipt.nodeId = true := by
    unfold decLockRef at ran
    split at ran
    · assumption
    · cases ran
  rw [decLockRef_eq (h := ⟨receipt, skipSwa, fun _ => ∅⟩) known] at ran
  obtain ⟨core₁, released, ran⟩ := bind_eq_some_iff.mp ran
  obtain ⟨core₂, window, ran⟩ := bind_eq_some_iff.mp ran
  obtain ⟨core₃, path, ran⟩ := bind_eq_some_iff.mp ran
  cases ran
  have mamba := release_part shape (segmentOf_isPrefix c core _ .mamba).sublist released
  have shape₁ := shape.relocks (Releases.relocks shape (.single mamba))
  have swa : Releases c core₁ core₂ := by
    split at window
    · exact releaseSwa_releases shape₁ window
    · cases window
      exact .refl
  have full := release_part (shape₁.relocks (swa.relocks shape₁))
    (segmentOf_isPrefix c core₂ _ .full).sublist path
  exact ((Relation.ReflTransGen.head mamba swa).tail full).tail .update

lemma decSwaLockOnly_releases
    (ran : core.decSwaLockOnly c receipt = some core') : Releases c core core' := by
  unfold decSwaLockOnly at ran
  split at ran
  swap
  · cases ran
  split at ran
  · cases ran
    exact .refl
  obtain ⟨uuid, -, ran⟩ := bind_eq_some_iff.mp ran
  obtain ⟨core₂, window, ran⟩ := bind_eq_some_iff.mp ran
  have edits : Releases c core core₂ := by
    obtain ⟨core₁, released, -⟩ := map_eq_some_iff.mp window
    have opened := release_part shape (markedSegment_isPrefix uuid _).sublist released
    have shape₁ := shape.relocks (Releases.relocks shape (.single opened))
    obtain ⟨leaves, free, distinct, dropped⟩ := releaseWindow_eq core receipt.nodeId uuid released
    rw [dropped] at window
    cases window
    exact (Relation.ReflTransGen.single opened).tail
      (.drop free (shape₁.rooted.nodup.sublist (distinct.map _)))
  split at ran
  · exact edits.tail (release_part (shape.relocks (edits.relocks shape)) (take_sublist 1 _) ran)
  · cases ran
    exact edits

end Core

end Sglang.Tree
