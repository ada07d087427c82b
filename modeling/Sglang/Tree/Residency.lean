/-
# The unified radix tree: where a node's data lives

`Core.Residency`: every node has Full data on some tier, Full data on the device is closed
under parents, auxiliary device values need a Full one beside them, and outside write-back
host copies are closed under parents as well. Every edit keeps it (`Residency.grow`,
`Residency.shed`, `Residency.load`), as do lock operations (`Residency.map`).
-/

import Sglang.Tree.Tiers

namespace Sglang.Tree

open Sglang.Lib List Node

variable {π α : Type}

/-- The parent of a node is the root or has a host copy. -/
def Core.Backed (core : Core π α) (i : Nat) : Prop :=
  i = 0 ∨ ∃ p ∈ core.nodes, p.id = i ∧ p.backuped = true

/-- A rewriting of lock counters, window marks and notes: names, links, keys and slots
stay. -/
structure Touches (f : Node π α → Node π α) : Prop where
  id : ∀ d, (f d).id = d.id
  parent : ∀ d, (f d).parent = d.parent
  key : ∀ d, (f d).key = d.key
  value : ∀ d ct, ((f d).data ct).value = (d.data ct).value
  hostValue : ∀ d ct, ((f d).data ct).hostValue = (d.data ct).hostValue

namespace Touches

variable {f g : Node π α → Node π α}

lemma evicted (touches : Touches f) (d : Node π α) : (f d).evicted = d.evicted := by
  rw [Node.evicted, touches.value]
  rfl

lemma backuped (touches : Touches f) (d : Node π α) : (f d).backuped = d.backuped := by
  rw [Node.backuped, touches.hostValue]
  rfl

/-- Storing into one component of some nodes, values kept. -/
lemma put (ids : List Nat) (ct : Component) (cd : Node π α → ComponentData α)
    (value : ∀ d, (cd d).value = (d.data ct).value := by intro; rfl)
    (hostValue : ∀ d, (cd d).hostValue = (d.data ct).hostValue := by intro; rfl) :
    Touches fun d => if d.id ∈ ids then d.put ct (cd d) else d := by
  refine ⟨?_, ?_, ?_, fun d ct' => d.putIf_keeps (·.value) (value d) ct' _,
    fun d ct' => d.putIf_keeps (·.hostValue) (hostValue d) ct' _⟩
  all_goals intro d; split <;> rfl

lemma comp (touches : Touches f) (touches' : Touches g) : Touches (f ∘ g) where
  id d := (touches.id _).trans (touches'.id d)
  parent d := (touches.parent _).trans (touches'.parent d)
  key d := (touches.key _).trans (touches'.key d)
  value d ct := (touches.value _ ct).trans (touches'.value d ct)
  hostValue d ct := (touches.hostValue _ ct).trans (touches'.hostValue d ct)

end Touches

namespace Core

structure Residency (c : Config) (core : Core π α) : Prop where
  live : ∀ d ∈ core.nodes, d.evicted = false ∨ d.backuped = true
  closed : ∀ d ∈ core.nodes, d.evicted = false → core.Resident d.parent
  aux : ∀ d ∈ core.nodes, ∀ ct, ct ≠ .full → (d.data ct).value ≠ none → d.evicted = false
  through : c.isWriteBack = false → ∀ d ∈ core.nodes, d.backuped = true → core.Backed d.parent

variable {c : Config} {core core' : Core π α} {d d' e child : Node π α} {i n : Nat} {ct : Component}
  {f : Node π α → Node π α}

lemma residency_reset : Residency c (reset : Core π α) where
  live := by simp [reset]
  closed := by simp [reset]
  aux := by simp [reset]
  through := by simp [reset]

/-! ### Rewriting -/

lemma exists_rewrite {p : Node π α → Prop} (old : i = 0 ∨ ∃ x ∈ core.nodes, x.id = i ∧ p x)
    (nodes : ∀ e, e ∈ core'.nodes ↔ (e ∈ core.nodes ∧ e.id ≠ d.id) ∨ e = d') (named : d'.id = d.id)
    (new : i = d.id → p d') : i = 0 ∨ ∃ x ∈ core'.nodes, x.id = i ∧ p x := by
  rcases old with zero | ⟨x, old, rfl, holds⟩
  · exact .inl zero
  · by_cases here : x.id = d.id
    · exact .inr ⟨d', (nodes d').mpr (.inr rfl), named.trans here.symm, new here⟩
    · exact .inr ⟨x, (nodes x).mpr (.inl ⟨old, here⟩), rfl, holds⟩

/-- One node is rewritten: what has to be checked of it. -/
structure Rewrite (c : Config) (core : Core π α) (d d' : Node π α) : Prop where
  id : d'.id = d.id
  parent : d'.parent = d.parent
  live : d'.evicted = false ∨ d'.backuped = true
  device : d'.evicted = false ∨ ∀ e ∈ core.nodes, e.parent = d.id → e.evicted = true
  closed : d'.evicted = false → core.Resident d.parent
  aux : ∀ ct, ct ≠ .full → (d'.data ct).value ≠ none → d'.evicted = false
  host : c.isWriteBack = false → d.backuped = true → d'.backuped = true
  through : c.isWriteBack = false → d'.backuped = true → core.Backed d.parent

section

variable (residency : core.Residency c)
include residency

lemma Residency.rewrite (shape : core.Shape c)
    (mem : d ∈ core.nodes) (d' : Node π α) (rewrite : Rewrite c core d d')
    (nodes : ∀ e, e ∈ core'.nodes ↔ (e ∈ core.nodes ∧ e.id ≠ d.id) ∨ e = d') :
    core'.Residency c where
  live := by
    intro e new
    rcases (nodes e).mp new with ⟨old, _⟩ | rfl
    · exact residency.live e old
    · exact rewrite.live
  closed := by
    intro e new resident
    rcases (nodes e).mp new with ⟨old, _⟩ | rfl
    · refine exists_rewrite (residency.closed e old resident) nodes rewrite.id fun parent => ?_
      rcases rewrite.device with device | childless
      · exact device
      · rw [childless e old parent] at resident
        cases resident
    · rw [rewrite.parent]
      refine exists_rewrite (rewrite.closed resident) nodes rewrite.id fun loop => ?_
      exact absurd loop (shape.rooted.up_ne_tag mem)
  aux := by
    intro e new
    rcases (nodes e).mp new with ⟨old, _⟩ | rfl
    · exact residency.aux e old
    · exact rewrite.aux
  through := by
    intro mode e new backuped
    rcases (nodes e).mp new with ⟨old, _⟩ | rfl
    · refine exists_rewrite (residency.through mode e old backuped) nodes rewrite.id fun parent => ?_
      rcases residency.through mode e old backuped with zero | ⟨p, old', named, host⟩
      · exact absurd (parent.symm.trans zero) (shape.ne_zero mem)
      · rw [shape.eq_of_id old' mem (named.trans parent)] at host
        exact rewrite.host mode host
    · rw [rewrite.parent]
      refine exists_rewrite (rewrite.through mode backuped) nodes rewrite.id fun loop => ?_
      exact absurd loop (shape.rooted.up_ne_tag mem)

/-- A node without a Full device value has no child with one. -/
lemma Residency.evicted_child (shape : core.Shape c)
    (mem : d ∈ core.nodes) (gone : d.evicted = true) (old : e ∈ core.nodes)
    (parent : e.parent = d.id) : e.evicted = true := by
  by_contra resident
  rcases residency.closed e old (by simpa using resident) with zero | ⟨p, old', named, device⟩
  · exact shape.ne_zero mem (parent.symm.trans zero)
  · rw [shape.eq_of_id old' mem (named.trans parent), gone] at device
    cases device

theorem Residency.map
    (touches : Touches f) (nodes : core'.nodes = core.nodes.map f) : core'.Residency c := by
  refine ⟨?_, ?_, ?_, ?_⟩
  · intro e new
    obtain ⟨d, old, rfl⟩ := mem_map.mp (nodes ▸ new)
    rw [touches.evicted, touches.backuped]
    exact residency.live d old
  · intro e new resident
    obtain ⟨d, old, rfl⟩ := mem_map.mp (nodes ▸ new)
    rw [touches.evicted] at resident
    rw [touches.parent]
    rcases residency.closed d old resident with zero | ⟨p, old', named, device⟩
    · exact .inl zero
    · exact .inr ⟨f p, nodes ▸ mem_map_of_mem old', (touches.id p).trans named,
        (touches.evicted p).trans device⟩
  · intro e new ct other held
    obtain ⟨d, old, rfl⟩ := mem_map.mp (nodes ▸ new)
    rw [touches.value] at held
    rw [touches.evicted]
    exact residency.aux d old ct other held
  · intro mode e new host
    obtain ⟨d, old, rfl⟩ := mem_map.mp (nodes ▸ new)
    rw [touches.backuped] at host
    rw [touches.parent]
    rcases residency.through mode d old host with zero | ⟨p, old', named, above⟩
    · exact .inl zero
    · exact .inr ⟨f p, nodes ▸ mem_map_of_mem old', (touches.id p).trans named,
        (touches.backuped p).trans above⟩

lemma Residency.congr (nodes : core'.nodes = core.nodes) : core'.Residency c :=
  residency.map ⟨fun _ => rfl, fun _ => rfl, fun _ => rfl, fun _ _ => rfl, fun _ _ => rfl⟩
    (by simp [nodes])

end

/-- Lock operations rewrite counters and marks only. -/
lemma Shape.touch (shape : core.Shape c) (touches : Touches f)
    (nodes : core'.nodes = core.nodes.map f) (nextId : core'.nextId = core.nextId) :
    core'.Shape c := by
  apply shape.map nodes nextId touches.id touches.parent touches.key
  intro d mem ct other v
  rw [touches.value, touches.hostValue]
  exact shape.sized d mem ct other v

lemma touches_note {ids : List Nat}
    (bare : ∀ d, (f d).id = d.id ∧ (f d).parent = d.parent ∧ (f d).key = d.key ∧
      (f d).data = d.data) : Touches fun d => if d.id ∈ ids then f d else d := by
  refine ⟨?_, ?_, ?_, ?_, ?_⟩ <;> intro d <;> split <;> simp [bare]

/-! ### Splitting, growing and removing -/

section

variable (residency : core.Residency c)
include residency

lemma Residency.splitNode (shape : core.Shape c) (mem : child ∈ core.nodes) (pos : 0 < n)
    (inside : n < child.key.length) : (core.splitNode c child n).1.Residency c := by
  have kept : ∀ {i}, core.Resident i → (core.splitNode c child n).1.Resident i :=
    fun resident => resident.grow shape (.split mem pos inside)
  have backed : ∀ {i}, core.Backed i → (core.splitNode c child n).1.Backed i := by
    rintro i (zero | ⟨p, old, rfl, host⟩)
    · exact .inl zero
    · by_cases here : p.id = child.id
      · obtain rfl := shape.eq_of_id old mem here
        exact .inr ⟨_, lower_mem_splitNode mem n, rfl, by simpa using host⟩
      · exact .inr ⟨p, mem_splitNode_of_ne old here n, rfl, host⟩
  refine ⟨?_, ?_, ?_, ?_⟩
  · apply shape.rooted.forall_mem_expand mem residency.live
    all_goals simpa using residency.live child mem
  · intro e new resident
    rcases (shape.mem_splitNode mem).mp new with ⟨old, _⟩ | rfl | rfl
    · exact kept (residency.closed e old resident)
    · exact .inr ⟨_, upper_mem_splitNode mem n, rfl, by simpa using resident⟩
    · exact kept (residency.closed child mem (by simpa using resident))
  · intro e new ct other held
    rcases (shape.mem_splitNode mem).mp new with ⟨old, _⟩ | rfl | rfl
    · exact residency.aux e old ct other held
    · rw [evicted_lower]
      apply residency.aux child mem ct other
      cases ct <;> simpa [lower, ComponentData.lower] using held
    · rw [evicted_upper]
      apply residency.aux child mem ct other
      cases ct with
      | mamba => simp [upper] at held
      | full => exact absurd rfl other
      | swa => simpa [upper, ComponentData.upper] using held
  · intro mode e new host
    rcases (shape.mem_splitNode mem).mp new with ⟨old, _⟩ | rfl | rfl
    · exact backed (residency.through mode e old host)
    · exact .inr ⟨_, upper_mem_splitNode mem n, rfl, by simpa using host⟩
    · exact backed (residency.through mode child mem (by simpa using host))

/-- A new leaf on one tier or both, without auxiliary values. -/
lemma Residency.cons (nodes : core'.nodes = d :: core.nodes)
    (live : d.evicted = false ∨ d.backuped = true)
    (under : d.evicted = false → core.Resident d.parent)
    (bare : ∀ ct, ct ≠ .full → (d.data ct).value = none)
    (above : c.isWriteBack = false → d.backuped = true → core.Backed d.parent) :
    core'.Residency c := by
  have kept : ∀ {i : Nat} {p : Node π α → Prop}, i = 0 ∨ (∃ e ∈ core.nodes, p e) →
      i = 0 ∨ ∃ e ∈ core'.nodes, p e := fun known =>
    known.imp_right fun ⟨e, inside, facts⟩ => ⟨e, nodes ▸ mem_cons_of_mem _ inside, facts⟩
  refine ⟨?_, ?_, ?_, ?_⟩ <;> intro e
  · intro new
    rcases mem_cons.mp (nodes ▸ new) with rfl | inside
    · exact live
    · exact residency.live e inside
  · intro new device
    rcases mem_cons.mp (nodes ▸ new) with rfl | inside
    · exact kept (under device)
    · exact kept (residency.closed e inside device)
  · intro new ct other held
    rcases mem_cons.mp (nodes ▸ new) with rfl | inside
    · exact absurd (bare ct other) held
    · exact residency.aux e inside ct other held
  · intro d' new host
    rcases mem_cons.mp (nodes ▸ new) with rfl | inside
    · exact kept (above e host)
    · exact kept (residency.through e d' inside host)

/-- A node without children leaves. -/
lemma Residency.remove (childless : core.children d.id = [])
    (nodes : ∀ e, e ∈ core'.nodes ↔ e ∈ core.nodes ∧ e.id ≠ d.id) : core'.Residency c := by
  have old : ∀ {e}, e ∈ core'.nodes → e ∈ core.nodes := fun kept => ((nodes _).mp kept).1
  -- the node that leaves is nobody's parent
  have above : ∀ {e} {p : Node π α → Prop}, e ∈ core.nodes →
      e.parent = 0 ∨ (∃ x ∈ core.nodes, x.id = e.parent ∧ p x) →
      e.parent = 0 ∨ ∃ x ∈ core'.nodes, x.id = e.parent ∧ p x := by
    rintro e p inside (zero | ⟨x, old, named, holds⟩)
    · exact .inl zero
    · refine .inr ⟨x, (nodes x).mpr ⟨old, fun same => ?_⟩, named, holds⟩
      exact children_eq_nil.mp childless e inside (named.symm.trans same)
  refine ⟨?_, ?_, ?_, ?_⟩
  · exact fun e kept => residency.live e (old kept)
  · exact fun e kept device => above (old kept) (residency.closed e (old kept) device)
  · exact fun e kept => residency.aux e (old kept)
  · exact fun mode e kept host => above (old kept) (residency.through mode e (old kept) host)

end

/-! ### Every edit -/

variable (residency : core.Residency c) (shape : core.Shape c) {log : List (Nat × Nat)}
include residency shape

/-- Storing a Full value below a resident parent. -/
lemma Residency.storeFull (mem : d ∈ core.nodes) {v : List α} (under : core.Resident d.parent)
    (nodes : core'.nodes =
      (core.modify [d.id] fun d => d.put .full { d.data .full with value := some v }).nodes) :
    core'.Residency c := by
  refine residency.rewrite shape mem (d.put .full { d.data .full with value := some v }) ?_
    fun e => nodes ▸ shape.mem_modify mem
  have device : (d.put .full { d.data .full with value := some v }).evicted = false := by
    simp [evicted]
  have host : (d.put .full { d.data .full with value := some v }).backuped = d.backuped := by
    simp [backuped]
  exact ⟨rfl, rfl, .inl device, .inl device, fun _ => under, fun _ _ _ => device,
    fun _ => host.trans,
    fun mode backuped => residency.through mode d mem (host ▸ backuped)⟩

/-- Rewriting an auxiliary component's data. -/
lemma Residency.putAux (mem : d ∈ core.nodes) (aux : ct ≠ .full) (cd : Node π α → ComponentData α)
    (beside : (cd d).value ≠ none → d.evicted = false)
    (nodes : core'.nodes = (core.modify [d.id] fun d => d.put ct (cd d)).nodes) :
    core'.Residency c := by
  refine residency.rewrite shape mem (d.put ct (cd d)) ?_ fun e => nodes ▸ shape.mem_modify mem
  have full : (d.put ct (cd d)).data .full = d.data .full := put_data_of_ne d _ (.symm aux)
  have evicted : (d.put ct (cd d)).evicted = d.evicted := by rw [evicted, full]; rfl
  have backuped : (d.put ct (cd d)).backuped = d.backuped := by rw [backuped, full]; rfl
  refine ⟨rfl, rfl, ?_, ?_, ?_, ?_, ?_, ?_⟩
  · rw [evicted, backuped]
    exact residency.live d mem
  · cases gone : d.evicted with
    | false => exact .inl (evicted.trans gone)
    | true => exact .inr fun e => residency.evicted_child shape mem gone
  · rw [evicted]
    exact residency.closed d mem
  · intro ct' other held
    rw [evicted]
    rw [put_data] at held
    split at held
    · exact beside held
    · exact residency.aux d mem ct' other held
  · rw [backuped]
    exact fun _ host => host
  · rw [backuped]
    exact fun mode => residency.through mode d mem

theorem Residency.grow (edit : Grow c core log core') : core'.Residency c := by
  cases edit with
  | split mem pos inside => exact residency.splitNode shape mem pos inside
  | leaf under =>
    exact residency.cons rfl (.inl rfl) (fun _ => under) (fun _ other => if_neg other)
      fun _ host => absurd host Bool.false_ne_true
  | unevict mem _ under =>
    exact residency.storeFull shape mem under (nodes_unevictNodeOnInsert ..)
  | store mem aux resident =>
    exact residency.putAux shape mem aux _ (fun _ => resident) (nodes_setComponentDeviceValue ..)
  | adopt mem resident =>
    exact residency.storeFull shape mem (residency.closed _ mem resident) rfl
  | note bare => exact residency.map (touches_note bare) (nodes_modify ..)

lemma Residency.grows (edits : Grows c core log core') : core'.Residency c := by
  induction edits with
  | refl => exact residency
  | tail before edit ih => exact ih.grow (shape.grows before) edit

/-- A demoted node keeps its host copy and has nothing on the device below it. -/
lemma Residency.demote (mem : d ∈ core.nodes) (backuped : d.backuped = true)
    (bare : ∀ ct, ct ≠ .full → (d.data ct).value = none)
    (childless : ∀ e ∈ core.children d.id, e.evicted = true) :
    (core.evictValues .full [d]).Residency c := by
  refine residency.rewrite shape mem (dropValue .full d) ?_ fun e => shape.mem_evictValues mem
  have evicted : (dropValue .full d).evicted = true := by simp [Node.evicted, dropValue]
  have host : (dropValue .full d).backuped = true := by
    simpa [Node.backuped, dropValue] using backuped
  refine ⟨rfl, rfl, .inr host, .inr fun e old parent => childless e (mem_children.mpr ⟨old, parent⟩),
    ?_, ?_, fun _ _ => host, fun mode _ => residency.through mode d mem backuped⟩
  · rw [evicted]
    exact fun clash => absurd clash (by decide)
  · intro ct other held
    rw [dropValue_data, if_neg other] at held
    exact absurd (bare ct other) held

theorem Residency.shed (edit : Shed c core core') : core'.Residency c := by
  cases edit with
  | @aux d ct mem aux _ =>
    exact residency.putAux shape mem aux (fun d => { d.data ct with value := none })
      (absurd rfl) rfl
  | full mem _ backuped bare childless => exact residency.demote shape mem backuped bare childless
  | remove mem _ childless =>
    exact residency.remove childless fun e => by simp [removeNode]
  | leaves => exact residency.congr rfl
  | @putHost d ct v mem _ above =>
    by_cases full : ct = .full
    · subst full
      refine residency.rewrite shape mem (putHost .full v d) ?_
        fun e => shape.mem_modify mem
      have host : (putHost .full v d).backuped = true := by
        simp [backuped, putHost]
      have evicted : (putHost .full v d).evicted = d.evicted := by
        simp [evicted, putHost]
      refine ⟨rfl, rfl, .inr host, ?_, ?_, ?_, fun _ _ => host, fun mode _ => above rfl mode⟩
      · cases gone : d.evicted with
        | false => exact .inl (evicted.trans gone)
        | true => exact .inr fun e => residency.evicted_child shape mem gone
      · exact residency.closed d mem
      · intro ct other held
        rw [putHost, put_data_of_ne d _ other] at held
        exact residency.aux d mem ct other held
    · exact residency.putAux shape mem full
        (fun d => { d.data ct with hostValue := some v })
        (residency.aux d mem ct full) rfl
  | @dropHost d ct mem spare =>
    by_cases full : ct = .full
    · obtain ⟨mode, resident⟩ := spare full
      subst full
      refine residency.rewrite shape mem (dropHost .full d) ?_
        fun e => shape.mem_modify mem
      have evicted : (dropHost .full d).evicted = false := by
        simpa [evicted, dropHost] using resident
      refine ⟨rfl, rfl, .inl evicted, .inl evicted, fun _ => residency.closed d mem resident,
        fun _ _ _ => evicted, ?_, ?_⟩
      · rw [mode]
        exact fun clash => absurd clash (by decide)
      · rw [mode]
        exact fun clash => absurd clash (by decide)
    · exact residency.putAux shape mem full
        (fun d => { d.data ct with hostValue := none })
        (residency.aux d mem ct full) rfl

lemma Residency.sheds (edits : Sheds c core core') : core'.Residency c := by
  induction edits with
  | refl => exact residency
  | tail before edit ih => exact ih.shed (shape.sheds before) edit

theorem Residency.load (edit : Load c core core') : core'.Residency c := by
  cases edit with
  | full mem _ under =>
    exact residency.storeFull shape mem under
      ((nodes_loadFull ..).trans (nodes_setComponentDeviceValue ..))
  | leaves => exact residency.congr rfl
  | grow edit => exact residency.grow shape edit

lemma Residency.loads (edits : Loads c core core') : core'.Residency c := by
  induction edits with
  | refl => exact residency
  | tail before edit ih => exact ih.load (shape.loads before) edit

/-- Outside write-back a device leaf without a host copy has no children: a child would be
on the host only, and its parent with it. -/
lemma Residency.childless (mode : c.isWriteBack = false) (mem : d ∈ core.nodes)
    (leaf : core.isDeviceLeaf d = true) (unbacked : d.backuped = false) :
    core.children d.id = [] := by
  apply eq_nil_iff_forall_not_mem.mpr
  intro e child
  obtain ⟨-, -, evicted⟩ := isDeviceLeaf_iff.mp leaf
  obtain ⟨old, parent⟩ := mem_children.mp child
  have host : e.backuped = true := by
    rcases residency.live e old with device | host
    · rw [evicted e child] at device
      cases device
    · exact host
  rcases residency.through mode e old host with zero | ⟨p, old', named, above⟩
  · exact shape.ne_zero mem (parent.symm.trans zero)
  · rw [shape.eq_of_id old' mem (named.trans parent), unbacked] at above
    cases above

end Core

end Sglang.Tree
