/-
# The unified radix tree: whole runs

`treeMachine` interleaves every operation of the core as its cache issues them: matches,
inserts on both tiers, locks of both, device evictions one step at a time, backups, load-backs
and host evictions. A device eviction is a walk with a cursor; while one is under way the cache
takes no lock and adds nothing to the tree.

* `reachable_resident` — Full data is prefix-closed and every node has some.
* `reachable_ledger` — the size counters are the sums they stand for.
* `evictions_guard_locks` — no eviction touches what is locked.
* `reachable_leaves` — the evictable-leaf sets are exact.
-/

import Sglang.Tree.HostLocks

namespace Sglang.Tree

open Sglang.Lib List Option Tree.Core

variable {π α : Type} {f : Node π α → Node π α} {ids lru : List Nat}

/-- Full's step of an eviction walk: the next victim that is still an evictable leaf. -/
def Core.evictFullNextNode (core : Core π α) (order : List Nat) (satisfied : Bool) : Option Nat :=
  if satisfied then none else order.find? fun i => decide (i ∈ core.evictableDeviceLeaves)

/-- A device eviction of one component, between two of its steps. -/
structure EvictWalk where
  component : Component
  cursor : Option Nat
  /-- The internal victim whose backup is attempted first. -/
  internal : Option Nat := none
  /-- The leaf handed to the cache. -/
  leaf : Option Nat := none
  /-- The leaf that is demoted once its backup is through, or dropped when that fails. -/
  backup : Option Nat := none

/-- What a step reports, noted in the walk. -/
def EvictWalk.report (w : EvictWalk) : Core.WalkStep → EvictWalk
  | .leaf i => { w with leaf := some i }
  | .internalStateBackup i => { w with internal := some i }
  | .stop | .tombstoned => w

/-- A tree, the receipts handed out on it and the eviction under way. -/
structure Run (π α : Type) where
  core : Core π α
  held : List Held
  hostHeld : List Core.HostReceipt
  walk : Option EvictWalk

inductive Op (π α : Type)
  | matchPrefix (key : List π) (returnFullMatch : Bool)
  | insert (p : InsertParams π α)
  | incLockRef (node : Nat) (skip : List Component)
  | decLockRef (receipt : Nat)
  | decSwaLockOnly (receipt : Nat)
  | incHostLockRef (node : Nat)
  | decHostLockRef (receipt : Nat)
  | evictDeviceStart (ct : Component) (lru : List Nat)
  | evictDeviceNextNode (lru : List Nat) (satisfied : Bool)
  | finishInternalEviction (lru : List Nat)
  | evictDeviceLeaf
  | demote
  | dropSubtreeNoHost
  | evictDeviceEnd
  | evictExcessPathStates (tail : Nat)
  | commitBackup (node : Nat) (backup : Core.Backup α)
  | evictHostLeaf (node : Nat)
  | tombstoneHost (ct : Component) (node : Nat)
  | releaseFullHostDuplicate (node : Nat)
  | commitLoadBack (anchor : Nat) (load : Core.LoadBack α)
  | insertHost (node : Nat) (key : List π) (hostValue : List α)

/-- The operations a device eviction is made of, the backups and host evictions that it
triggers included. -/
def Op.evicts : Op π α → Bool
  | .evictDeviceStart .. | .evictDeviceNextNode .. | .finishInternalEviction .. | .evictDeviceLeaf
  | .demote | .dropSubtreeNoHost | .evictDeviceEnd | .evictExcessPathStates .. | .commitBackup ..
  | .evictHostLeaf .. | .tombstoneHost .. | .releaseFullHostDuplicate .. => true
  | _ => false

namespace Run

def setCore (r : Run π α) (core : Core π α) : Run π α := { r with core := core }

/-- What the callers of the core promise: the cache runs an eviction to its end before it
matches, inserts, locks or loads again, brings a slot for every token, locks Full with
whatever else it locks, releases what it holds, follows a walk's reports, and fetches below
the root or below a node whose host copy it has locked. -/
def Allowed (c : Config) (r : Run π α) : Op π α → Prop
  | .matchPrefix .. | .evictDeviceStart .. | .evictExcessPathStates .. => r.walk = none
  | .insert p => r.walk = none ∧ p.key.length * c.pageSize ≤ p.value.length
  | .incLockRef _ skip => r.walk = none ∧ .full ∉ skip
  | .decSwaLockOnly k => ∀ h ∈ r.held[k]?, h.swaReleased = false ∧
      .swa ∉ h.receipt.skippedLockComponents
  | .evictDeviceNextNode .. => ∀ w ∈ r.walk, w.leaf = none ∧ w.backup = none
  | .commitBackup i backup => backup.Fits c r.core i
  | .releaseFullHostDuplicate _ => c.isWriteBack = true
  | .commitLoadBack anchor load => r.walk = none ∧ load.Fits c r.core anchor
  | .insertHost i key v => r.walk = none ∧ v.length = key.length * c.pageSize ∧
      (c.isWriteBack = false → r.core.Backed i)
  | _ => True

/-- One step of a walk. -/
def evictNext (c : Config) (r : Run π α) (lru : List Nat) (satisfied : Bool) (w : EvictWalk) :
    Option (Run π α) :=
  if w.internal.isSome then none
  else if w.component = .full then
    some { r with walk := some { w with leaf := r.core.evictFullNextNode lru satisfied } }
  else
    (r.core.evictDeviceNextNode c w.component lru satisfied w.cursor).map
      fun (core, cursor, report) =>
        { r with core := core, walk := some ({ w with cursor := cursor }.report report) }

def step [DecidableEq π] (c : Config) (r : Run π α) : Op π α → Option (Run π α)
  | .matchPrefix key full =>
    let w := r.core.matchWalk c key full
    some { r with core := w.core, held := r.held.map (Held.splitAll w.splits) }
  | .insert p => (r.core.insert c p).map fun (w, _) =>
    { r with core := w.core, held := r.held.map (Held.splitAll w.splits) }
  | .incLockRef i skip => (r.core.incLockRef c i skip).map fun (core, receipt) =>
    { r with core := core, held := Core.take r.core core receipt :: r.held }
  | .decLockRef k => r.held[k]?.bind fun h =>
    (r.core.decLockRef c h.receipt h.swaReleased).map fun core =>
      { r with core := core, held := r.held.eraseIdx k }
  | .decSwaLockOnly k => r.held[k]?.bind fun h =>
    (r.core.decSwaLockOnly c h.receipt).map fun core =>
      { r with core := core, held := r.held.set k (h.releaseWindow c) }
  | .incHostLockRef i => (r.core.incHostLockRef c i).map fun (core, receipt) =>
    { r with core := core, hostHeld := receipt :: r.hostHeld }
  | .decHostLockRef k => r.hostHeld[k]?.bind fun receipt =>
    (r.core.decHostLockRef c receipt).map fun core =>
      { r with core := core, hostHeld := r.hostHeld.eraseIdx k }
  | .evictDeviceStart ct lru =>
    some { r with walk := some { component := ct, cursor := r.core.firstUnlocked ct lru } }
  | .evictDeviceNextNode lru satisfied => r.walk.bind (r.evictNext c lru satisfied)
  | .finishInternalEviction lru => r.walk.bind fun w => w.internal.bind fun i =>
    if w.component = .full then none
    else (r.core.finishInternalComponentEviction w.component lru i w.cursor).map
      fun (core, cursor) =>
        { r with core := core, walk := some { w with cursor := cursor, internal := none } }
  | .evictDeviceLeaf => r.walk.bind fun w => w.leaf.bind fun i =>
    (r.core.evictDeviceLeaf i c.isWriteBack).map fun (core, action) =>
      { r with
        core := core
        walk := some { w with leaf := none, backup := action.map fun _ => i } }
  | .demote => r.walk.bind fun w => w.backup.bind fun i =>
    (r.core.demote i).map fun core =>
      { r with core := core, walk := some { w with backup := none } }
  | .dropSubtreeNoHost => r.walk.bind fun w => w.backup.bind fun i =>
    (r.core.dropSubtreeNoHost i).map fun (core, _) =>
      { r with core := core, walk := some { w with backup := none } }
  | .evictDeviceEnd => some { r with walk := none }
  | .evictExcessPathStates tail => (r.core.evictExcessPathStates c tail).map r.setCore
  | .commitBackup i backup => (r.core.commitBackup i backup).map r.setCore
  | .evictHostLeaf i => (r.core.evictHostLeaf i).map r.setCore
  | .tombstoneHost ct i => (r.core.tombstoneHost ct i).map r.setCore
  | .releaseFullHostDuplicate i => (r.core.releaseFullHostDuplicate i).map r.setCore
  | .commitLoadBack anchor load => (r.core.commitLoadBack c anchor load).map r.setCore
  | .insertHost i key v => (r.core.insertHost c i key v).map fun (w, _) =>
    { r with core := w.core, held := r.held.map (Held.splitAll w.splits) }

end Run

/-- Every interleaving of the operations of one tree. -/
def treeMachine [DecidableEq π] (c : Config) : Machine (Run π α) (Op π α) where
  start r := r = ⟨.reset, [], [], none⟩
  allowed := Run.Allowed c
  step := Run.step c

namespace Core

variable {c : Config} {core core' mid : Core π α} {d e : Node π α} {i : Nat} {ct : Component}

/-! ### What evictions and releases never add -/

/-- Every node was there, with the same link, no device value less and no lock fewer. -/
def Fades (core core' : Core π α) : Prop :=
  ∀ e ∈ core'.nodes, ∃ d ∈ core.nodes, d.id = e.id ∧ d.parent = e.parent ∧
    (e.evicted = false → d.evicted = false) ∧ ∀ ct, (e.data ct).lockRef ≤ (d.data ct).lockRef

lemma Fades.refl : Fades core core :=
  fun e mem => ⟨e, mem, rfl, rfl, id, fun _ => le_rfl⟩

lemma Fades.trans (first : Fades core mid) (second : Fades mid core') : Fades core core' := by
  intro e mem
  obtain ⟨d, mem', id, parent, evicted, locks⟩ := second e mem
  obtain ⟨x, old, id', parent', evicted', locks'⟩ := first d mem'
  exact ⟨x, old, id'.trans id, parent'.trans parent, evicted' ∘ evicted,
    fun ct => (locks ct).trans (locks' ct)⟩

lemma fades_map (nodes : core'.nodes = core.nodes.map f)
    (id : ∀ d, (f d).id = d.id) (parent : ∀ d, (f d).parent = d.parent)
    (evicted : ∀ d, (f d).evicted = false → d.evicted = false)
    (locks : ∀ d ct, ((f d).data ct).lockRef ≤ (d.data ct).lockRef) : Fades core core' := by
  intro e mem
  obtain ⟨d, old, rfl⟩ := mem_map.mp (nodes ▸ mem)
  exact ⟨d, old, (id d).symm, (parent d).symm, evicted d, locks d⟩

/-- Rewriting one component without storing a device value. -/
lemma fades_put (ct : Component) (cd : Node π α → ComponentData α)
    (nodes : core'.nodes = (core.modify ids fun d => d.put ct (cd d)).nodes)
    (value : ∀ d, (cd d).value = none ∨ (cd d).value = (d.data ct).value)
    (locks : ∀ d, (cd d).lockRef = (d.data ct).lockRef) : Fades core core' := by
  apply fades_map (nodes.trans (nodes_modify ..))
  · intro d; split <;> rfl
  · intro d; split <;> rfl
  · intro d resident
    split at resident
    swap
    · exact resident
    rw [Node.evicted, Node.put_data] at resident
    split at resident
    · rename_i here
      subst here
      rcases value d with gone | same
      · rw [gone] at resident
        cases resident
      · rw [same] at resident
        exact resident
    · exact resident
  · exact fun d ct' => (d.putIf_keeps (·.lockRef) (locks d) ct' _).le

lemma Shed.fades (edit : Shed c core core') : Fades core core' := by
  cases edit with
  | @aux d ct =>
    exact fades_put ct (fun d => { d.data ct with value := none }) rfl (fun _ => .inl rfl)
      fun _ => rfl
  | full =>
    exact fades_put .full (fun d => { d.data .full with value := none }) rfl (fun _ => .inl rfl)
      fun _ => rfl
  | remove =>
    intro e new
    exact ⟨e, mem_of_mem_filter new, rfl, rfl, id, fun _ => le_rfl⟩
  | leaves => exact fun e mem => ⟨e, mem, rfl, rfl, id, fun _ => le_rfl⟩
  | @putHost d ct v =>
    exact fades_put ct (fun d => { d.data ct with hostValue := some v }) rfl (fun _ => .inr rfl)
      fun _ => rfl
  | @dropHost d ct =>
    exact fades_put ct (fun d => { d.data ct with hostValue := none }) rfl (fun _ => .inr rfl)
      fun _ => rfl

lemma Sheds.fades (edits : Sheds c core core') : Fades core core' := by
  induction edits with
  | refl => exact .refl
  | tail _ edit ih => exact ih.trans (Shed.fades edit)

lemma Releases.fades (edits : Releases c core core') : Fades core core' := by
  induction edits with
  | refl => exact .refl
  | tail _ edit ih =>
    apply ih.trans
    cases edit with
    | @release _ ct seg _ _ ran =>
      have touches := touches_lower (π := π) (α := α) ct (links.tags seg)
      refine fades_map (releaseOn_nodes ran).1 touches.id touches.parent
        (fun d => (touches.evicted d) ▸ id) fun d ct' => ?_
      rw [lower_lockRef]
      exact Nat.sub_le _ _
    | update => exact fun e mem => ⟨e, mem, rfl, rfl, id, fun _ => le_rfl⟩
    | drop =>
      exact fades_put .swa (fun d => { d.data .swa with value := none }) rfl (fun _ => .inl rfl)
        fun _ => rfl

lemma HostTouch.fades (touch : HostTouch core core') : Fades core core' := by
  obtain ⟨f, only, nodes⟩ := touch.nodes
  exact fades_map nodes only.touches.id only.touches.parent (fun d => (only.touches.evicted d) ▸ id)
    fun d ct => (only.lockRef d ct).le

lemma Unlocked.fades (free : core.Unlocked ct i) (fades : Fades core core') :
    core'.Unlocked ct i := by
  intro e mem named
  obtain ⟨d, old, id, -, -, locks⟩ := fades e mem
  exact Nat.le_zero.mp ((locks ct).trans_eq (free d old (id.trans named)))

/-- A leaf that waits for its backup is still one, or no longer on the device. -/
def Pending (core : Core π α) (i : Nat) : Prop :=
  ∀ d ∈ core.nodes, d.id = i → d.evicted = false → core.isDeviceLeaf d = true

lemma Pending.fades (pending : core.Pending i) (fades : Fades core core') : core'.Pending i := by
  intro e mem named resident
  obtain ⟨d, old, id, -, evicted, locks⟩ := fades e mem
  obtain ⟨-, free, childless⟩ := isDeviceLeaf_iff.mp (pending d old (id.trans named) (evicted resident))
  refine isDeviceLeaf_iff.mpr ⟨resident, ?_, fun x child => ?_⟩
  · rw [Node.locked_eq_false_iff] at free ⊢
    exact fun ct => Nat.le_zero.mp ((locks ct).trans_eq (free ct))
  · obtain ⟨inside, under⟩ := mem_children.mp child
    obtain ⟨y, old', -, parent, evicted', -⟩ := fades x inside
    have gone := childless y (mem_children.mpr ⟨old', parent.trans (under.trans id.symm)⟩)
    cases device : x.evicted with
    | true => rfl
    | false => exact absurd gone (by rw [evicted' device]; decide)

end Core

/-- The load-backs after which no parent is left behind in the device leaves. -/
def Op.Refreshes (r : Run π α) : Op π α → Prop
  | .commitLoadBack _ load => Core.LoadBack.Covered r.core load.full
  | _ => True

namespace Run

variable {c : Config} {r r' : Run π α}

/-- What an eviction under way relies on. -/
structure WalkKept (core : Core π α) (w : EvictWalk) : Prop where
  cursor : w.component ≠ .full → ∀ i ∈ w.cursor, core.Unlocked w.component i
  backup : ∀ i ∈ w.backup, core.Pending i

/-- What holds between the operations of a run. -/
structure Kept (c : Config) (r : Run π α) : Prop where
  shape : r.core.Shape c
  residency : r.core.Residency c
  locks : r.core.Locks c r.held
  whole : ∀ h ∈ r.held, .full ∉ h.receipt.skippedLockComponents
  ledger : r.core.Ledger
  walk : ∀ w ∈ r.walk, WalkKept r.core w

variable {core core' : Core π α} {w : EvictWalk}

lemma WalkKept.fades (kept : WalkKept core w) (fades : core.Fades core') : WalkKept core' w :=
  ⟨fun aux i at_ => (kept.cursor aux i at_).fades fades, fun i at_ => (kept.backup i at_).fades fades⟩

section

variable (kept : r.Kept c) {op : Op π α}
include kept

/-- An eviction, a backup or a host eviction. -/
lemma Kept.sheds (edits : Sheds c r.core core) {walk : Option EvictWalk}
    (walked : ∀ w ∈ walk, WalkKept core w) : Kept c { r with core := core, walk := walk } where
  shape := kept.shape.sheds edits
  residency := kept.residency.sheds kept.shape edits
  locks := kept.locks.sheds kept.shape kept.whole edits
  whole := kept.whole
  ledger := kept.ledger.sheds kept.shape edits
  walk := walked

lemma Kept.setCore (edits : Sheds c r.core core) : (r.setCore core).Kept c :=
  kept.sheds edits fun w on => (kept.walk w on).fades (Core.Sheds.fades edits)

lemma Kept.cleans (cleans : Cleans c r.core core) :
    (r.setCore core).Kept c ∧ Cleans c r.core core :=
  ⟨kept.setCore cleans.sheds, cleans⟩

/-- The leaf that waited for its backup is settled. -/
lemma Kept.settled (on : r.walk = some w) (cleans : Cleans c r.core core) :
    Kept c { r with core := core, walk := some { w with backup := none } } ∧
      Cleans c r.core core := by
  refine ⟨kept.sheds cleans.sheds ?_, cleans⟩
  rintro _ ⟨⟩
  exact ⟨fun aux j at_ => ((kept.walk w on).cursor aux j at_).fades (Core.Sheds.fades cleans.sheds),
    by simp⟩

/-- A match or an insert. -/
lemma Kept.grows (idle : r.walk = none) {log : List (Nat × Nat)} (edits : Grows c r.core log core) :
    Kept c { r with core := core, held := r.held.map (Held.splitAll log) } where
  shape := kept.shape.grows edits
  residency := kept.residency.grows kept.shape edits
  locks := kept.locks.grows kept.shape edits
  whole := by
    intro h inside
    obtain ⟨g, old, rfl⟩ := mem_map.mp inside
    rw [Held.receipt_splitAll]
    exact kept.whole g old
  ledger := kept.ledger.grows kept.shape edits
  walk := by simp [idle]

lemma Kept.relocks {held : List Held} (edits : Relocks c r.core core)
    (locks : core.Locks c held) (whole : ∀ h ∈ held, .full ∉ h.receipt.skippedLockComponents)
    (walked : ∀ w ∈ r.walk, WalkKept core w) : Kept c { r with core := core, held := held } where
  shape := kept.shape.relocks edits
  residency := kept.residency.relocks kept.shape edits
  locks := locks
  whole := whole
  ledger := kept.ledger.relocks kept.shape edits
  walk := walked

lemma Kept.host (touch : Core.HostTouch r.core core) (hostHeld : List Core.HostReceipt) :
    Kept c { r with core := core, hostHeld := hostHeld } where
  shape := kept.shape.host touch
  residency := kept.residency.host touch
  locks := kept.locks.host touch
  whole := kept.whole
  ledger := kept.ledger.host touch
  walk := fun w on => (kept.walk w on).fades touch.fades

lemma Kept.loads (idle : r.walk = none) (edits : Loads c r.core core) :
    (r.setCore core).Kept c where
  shape := kept.shape.loads edits
  residency := kept.residency.loads kept.shape edits
  locks := kept.locks.loads kept.shape edits
  whole := kept.whole
  ledger := kept.ledger.loads kept.shape edits
  walk := by simp [Run.setCore, idle]

lemma Kept.evictNext (on : r.walk = some w)
    {satisfied : Bool} (free : w.backup = none) (ran : r.evictNext c lru satisfied w = some r') :
    r'.Kept c ∧ Core.Tombstones r.core r'.core := by
  unfold Run.evictNext at ran
  split at ran
  · cases ran
  split at ran
  · rename_i full
    cases ran
    refine ⟨kept.sheds .refl ?_, .refl⟩
    rintro _ ⟨⟩
    exact ⟨absurd full, by simp [free]⟩
  · rename_i aux
    obtain ⟨⟨core, cursor, report⟩, stepped, rfl⟩ := map_eq_some_iff.mp ran
    obtain ⟨gone, next⟩ :=
      evictDeviceNextNode_tombstones kept.shape aux ((kept.walk w on).cursor aux) stepped
    have edits := Core.Tombstones.sheds kept.shape gone
    refine ⟨kept.sheds edits ?_, gone⟩
    rintro _ ⟨⟩
    have same : ({ w with cursor := cursor }.report report).component = w.component ∧
        ({ w with cursor := cursor }.report report).cursor = cursor ∧
        ({ w with cursor := cursor }.report report).backup = none := by
      cases report <;> exact ⟨rfl, rfl, free⟩
    refine ⟨fun _ i at_ => ?_, fun i at_ => ?_⟩
    · rw [same.2.1] at at_
      rw [same.1]
      exact (next i at_).fades (Core.Sheds.fades edits)
    · rw [same.2.2] at at_
      cases at_

/-- A leaf that waits for its backup can be demoted. -/
lemma Kept.demote (on : r.walk = some w) {i : Nat} (waits : w.backup = some i)
    (ran : r.core.demote i = some core) : (r.core.find? i).all r.core.isDeviceLeaf = true := by
  obtain ⟨d, found, mem, named, both, demoted⟩ := find?_guarded ran
  simp only [Bool.and_eq_true, Bool.not_eq_true'] at both
  rw [found]
  exact (kept.walk w on).backup i waits d mem named both.1

/-- Outside write-back nothing hangs below a device leaf without a host copy. -/
lemma Kept.childless : ∀ d ∈ r.core.nodes, d.backuped = false → c.isWriteBack = false →
    r.core.isDeviceLeaf d = true → r.core.children d.id = [] :=
  fun _ mem unbacked through leaf => kept.residency.childless kept.shape through mem leaf unbacked

/-- The evictions of a run are edits that only take away. -/
lemma Kept.evicts [DecidableEq π] (evicts : op.evicts = true)
    (ok : r.Allowed c op) (ran : r.step c op = some r') :
    r'.Kept c ∧ Cleans c r.core r'.core := by
  have shape := kept.shape
  cases op with
  | matchPrefix | insert | incLockRef | decLockRef | decSwaLockOnly | incHostLockRef
  | decHostLockRef | commitLoadBack | insertHost => cases evicts
  | evictDeviceStart ct lru =>
    cases ran
    refine ⟨kept.sheds .refl ?_, .refl⟩
    rintro _ ⟨⟩
    exact ⟨fun _ i => shape.unlocked_firstUnlocked, by simp⟩
  | evictDeviceNextNode lru satisfied =>
    obtain ⟨w, on, ran⟩ := bind_eq_some_iff.mp ran
    obtain ⟨kept', gone⟩ := kept.evictNext on (ok w on).2 ran
    exact ⟨kept', gone.cleans shape⟩
  | finishInternalEviction lru =>
    obtain ⟨w, on, ran⟩ := bind_eq_some_iff.mp ran
    obtain ⟨i, -, ran⟩ := bind_eq_some_iff.mp ran
    split at ran
    · cases ran
    rename_i aux
    obtain ⟨⟨core, cursor⟩, finished, rfl⟩ := map_eq_some_iff.mp ran
    obtain ⟨gone, next⟩ := finishInternalComponentEviction_tombstones shape aux
      ((kept.walk w on).cursor aux) finished
    have cleans := gone.cleans shape
    have fades := Core.Sheds.fades cleans.sheds
    refine ⟨kept.sheds cleans.sheds ?_, cleans⟩
    rintro _ ⟨⟩
    exact ⟨fun _ i at_ => (next i at_).fades fades,
      fun i at_ => ((kept.walk w on).backup i at_).fades fades⟩
  | evictDeviceLeaf =>
    obtain ⟨w, on, ran⟩ := bind_eq_some_iff.mp ran
    obtain ⟨i, -, ran⟩ := bind_eq_some_iff.mp ran
    obtain ⟨⟨core, action⟩, evicted, rfl⟩ := map_eq_some_iff.mp ran
    have cleans := evictDeviceLeaf_cleans shape kept.childless evicted
    refine ⟨kept.sheds cleans.sheds ?_, cleans⟩
    rintro _ ⟨⟩
    refine ⟨fun aux j at_ =>
      ((kept.walk w on).cursor aux j at_).fades (Core.Sheds.fades cleans.sheds), ?_⟩
    intro j at_
    obtain ⟨requested, asked, rfl⟩ := map_eq_some_iff.mp at_
    obtain ⟨d, mem, named, leaf, -, ⟨-, unasked⟩ | rfl | ⟨-, -, -, unasked⟩⟩ :=
      evictDeviceLeaf_cases evicted
    · exact absurd (asked.symm.trans unasked) (by simp)
    · intro e mem' same _
      rwa [shape.eq_of_id mem' mem (same.trans named.symm)]
    · exact absurd (asked.symm.trans unasked) (by simp)
  | demote =>
    obtain ⟨w, on, ran⟩ := bind_eq_some_iff.mp ran
    obtain ⟨i, waits, ran⟩ := bind_eq_some_iff.mp ran
    obtain ⟨core, demoted, rfl⟩ := map_eq_some_iff.mp ran
    exact kept.settled on (demote_cleans shape (kept.demote on waits demoted) demoted)
  | dropSubtreeNoHost =>
    obtain ⟨w, on, ran⟩ := bind_eq_some_iff.mp ran
    obtain ⟨i, waits, ran⟩ := bind_eq_some_iff.mp ran
    obtain ⟨⟨core, dropped⟩, ran', rfl⟩ := map_eq_some_iff.mp ran
    exact kept.settled on (dropSubtreeNoHost_cleans shape ran')
  | evictDeviceEnd =>
    cases ran
    exact ⟨kept.sheds .refl (by simp), .refl⟩
  | evictExcessPathStates tail =>
    obtain ⟨core, ran', rfl⟩ := map_eq_some_iff.mp ran
    exact kept.cleans ((evictExcessPathStates_tombstones shape ran').cleans shape)
  | commitBackup i backup =>
    obtain ⟨core, ran', rfl⟩ := map_eq_some_iff.mp ran
    exact kept.cleans (commitBackup_cleans shape kept.residency.live ok ran')
  | evictHostLeaf i =>
    obtain ⟨core, ran', rfl⟩ := map_eq_some_iff.mp ran
    exact kept.cleans (evictHostLeaf_cleans shape ran')
  | tombstoneHost ct i =>
    obtain ⟨core, ran', rfl⟩ := map_eq_some_iff.mp ran
    exact kept.cleans (tombstoneHost_cleans shape ran')
  | releaseFullHostDuplicate i =>
    obtain ⟨core, ran', rfl⟩ := map_eq_some_iff.mp ran
    exact kept.cleans (releaseFullHostDuplicate_cleans shape ok ran')

end

/-! ### Host inserts -/

/-- The root, or a node that outside write-back has a Full host copy. -/
def Anchored (c : Config) (core : Core π α) (i : Nat) : Prop :=
  i = 0 ∨ ∃ d ∈ core.nodes, d.id = i ∧ (c.isWriteBack = false → d.backuped = true)

/-- What holds of a host insert between two steps of its walk. -/
structure Fetch (c : Config) (r : Run π α) (w : HostWalk π α) : Prop where
  kept : Kept c { r with core := w.core, held := r.held.map (Held.splitAll w.splits) }
  leaves : r.core.Exact ∅ → w.core.Exact ∅
  under : Anchored c w.core w.node
  sized : w.value.length = w.key.length * c.pageSize

variable {w w' : HostWalk π α} {d child : Node π α} {i n fuel : Nat} {core' : Core π α}

lemma Anchored.mono (anchored : Anchored c core i)
    (kept : ∀ d ∈ core.nodes, d.id = i → d ∈ core'.nodes) : Anchored c core' i :=
  anchored.imp_right fun ⟨d, old, named, host⟩ => ⟨d, kept d old named, named, host⟩

/-- Growing edits of the walk's tree. -/
lemma Fetch.extend {grown : InsertWalk π α} (fetching : Fetch c r w) (idle : r.walk = none)
    (extends_ : InsertWalk.Extends c w.toInsertWalk grown)
    (under : Anchored c grown.core grown.node) : Fetch c r { w with toInsertWalk := grown } := by
  obtain ⟨⟨log, splits, edits⟩, -, -, key, value⟩ := extends_
  have kept := fetching.kept.grows idle edits
  refine ⟨?_, fun sets => (fetching.leaves sets).grows fetching.kept.shape edits, under, ?_⟩
  · simpa only [List.map_map, Function.comp_def, ← Held.splitAll_append, ← splits] using kept
  · rw [value, key]
    exact fetching.sized

/-- A matched node below the walk's has a Full host copy afterwards, outside write-back. -/
lemma Fetch.refill (fetching : Fetch c r w) (inside : d ∈ w.core.nodes)
    (parent : d.parent = w.node) (whole : d.len c = n) (le : n ≤ w.value.length)
    (ran : w.refill c d n = some w') :
    Fetch c r { w' with node := d.id } ∧ w'.key = w.key := by
  obtain ⟨kept, leaves, under, sized⟩ := fetching
  have shape : w.core.Shape c := kept.shape
  unfold HostWalk.refill at ran
  split at ran
  · rename_i mode
    cases ran
    exact ⟨⟨kept, leaves, .inr ⟨d, inside, rfl, by simp [mode]⟩, sized⟩, rfl⟩
  split at ran
  · rename_i backed
    split at ran
    · cases ran
    · cases ran
      exact ⟨⟨kept, leaves, .inr ⟨d, inside, rfl, fun _ => backed⟩, sized⟩, rfl⟩
  · rename_i unbacked
    cases ran
    have put : Shed c w.core (w.core.modify [d.id] (putHost .full (w.value.take n))) := by
      refine .putHost inside (fun _ => ?_) fun _ mode => ?_
      · rw [length_take, whole]
        exact min_eq_left le
      · rw [parent]
        exact under.imp_right fun ⟨p, old, named, host⟩ => ⟨p, old, named, host mode⟩
    have shape' := shape.shed put
    refine ⟨⟨kept.setCore (((Relation.ReflTransGen.single put).tail .leaves).tail .leaves),
      fun sets => ?_, .inr ⟨_, (shape.mem_modify inside).mpr (.inr rfl), rfl,
        fun _ => by simp [putHost, Node.backuped]⟩, sized⟩, rfl⟩
    -- a node without a host copy is on the device, where no leaf's status reads the copy
    have stored := (leaves sets).putFullHost shape inside (some (w.value.take n))
      fun gone => by simp [(kept.residency.live d inside).resolve_right unbacked] at gone
    exact (stored.refresh shape' d.id).refresh (shape'.congr rfl rfl) d.parent

variable [DecidableEq π]

lemma Fetch.step (fetching : Fetch c r w) (idle : r.walk = none)
    (found : w.core.child? w.node w.key = some child) (ran : w.step c child = some w') :
    Fetch c r w' ∧ w'.key.length < w.key.length := by
  obtain ⟨mem, parent, -⟩ := mem_of_child? found
  have pos := matchLen_pos found
  obtain ⟨left, right⟩ := matchLen_le child.key w.key
  obtain ⟨w₁, refilled, rfl⟩ := map_eq_some_iff.mp ran
  obtain ⟨entered, inside, above, whole⟩ := InsertWalk.enter_extends (c := c) mem pos left
  have away : w.node ≠ child.id := parent ▸ fetching.kept.shape.rooted.up_ne_tag mem
  have under : Anchored c _ w.node := fetching.under.mono fun p old named =>
    InsertWalk.mem_enter_of_ne (c := c) (n := matchLen child.key w.key) old (named ▸ away)
  have fetching₁ := fetching.extend idle entered (entered.node ▸ under)
  have le : matchLen child.key w.key * c.pageSize ≤
      (w.enter c child (matchLen child.key w.key)).1.value.length := by
    rw [entered.value, fetching.sized]
    exact Nat.mul_le_mul_right _ right
  obtain ⟨fetching₂, key⟩ :=
    fetching₁.refill inside (above.trans (parent.trans entered.node.symm)) whole le refilled
  refine ⟨⟨fetching₂.kept, fetching₂.leaves, fetching₂.under, ?_⟩, ?_⟩
  · change (w₁.value.drop _).length = (w₁.key.drop _).length * _
    rw [length_drop, length_drop, fetching₂.sized, Nat.sub_mul]
  · change (w₁.key.drop _).length < _
    rw [length_drop, key, entered.key]
    omega

/-- The walk ends where no child is named by the rest of the key. -/
lemma Fetch.walk (fetching : Fetch c r w) (idle : r.walk = none) (enough : w.key.length ≤ fuel)
    (ran : w.walk c fuel = some w') :
    Fetch c r w' ∧ w'.core.child? w'.node w'.key = none := by
  induction fuel generalizing w with
  | zero =>
    have done : w.key = [] := eq_nil_of_length_eq_zero (Nat.le_zero.mp enough)
    cases ran
    exact ⟨fetching, by rw [done]; rfl⟩
  | succ fuel ih =>
    unfold HostWalk.walk at ran
    cases found : w.core.child? w.node w.key with
    | none =>
      rw [found] at ran
      cases ran
      exact ⟨fetching, found⟩
    | some child =>
      rw [found] at ran
      obtain ⟨mid, stepped, rest⟩ := bind_eq_some_iff.mp ran
      obtain ⟨fetching', shorter⟩ := fetching.step idle found stepped
      exact ih fetching' (by omega) rest

/-- The leaf for the rest of the path. -/
lemma Fetch.addHostNode (fetching : Fetch c r w) (idle : r.walk = none) (left : w.key ≠ [])
    (ended : w.core.child? w.node w.key = none) :
    Kept c { r with
        core := w.core.addHostNode w.node w.key w.value
        held := r.held.map (Held.splitAll w.splits) } ∧
      (r.core.Exact ∅ → (w.core.addHostNode w.node w.key w.value).Exact ∅) := by
  obtain ⟨kept, leaves, under, sized⟩ := fetching
  have shape : (w.core.addHostNode w.node w.key w.value).Shape c := by
    refine kept.shape.cons rfl rfl rfl ?_ left (fun d mem parent =>
      head?_ne_of_child? ended mem parent (kept.shape.keyed d mem)) fun ct _ v stored => ?_
    · exact under.imp_right fun ⟨p, old, named, _⟩ => named ▸ Links.mem_tags old
    · rcases stored with empty | stored
      · cases empty
      · obtain ⟨-, same⟩ := ite_none_right_eq_some.mp stored
        exact some.inj same ▸ sized
  refine ⟨⟨shape, ?_, ?_, kept.whole, kept.ledger.addHostNode .., by simp [idle]⟩, fun sets => ?_⟩
  · refine kept.residency.cons rfl (.inr rfl) (fun device => ?_) (fun _ _ => rfl) fun mode _ => ?_
    · cases device
    · exact under.imp_right fun ⟨p, old, named, host⟩ => ⟨p, old, named, host mode⟩
  · exact kept.locks.cons kept.shape rfl rfl rfl (fun _ => rfl) rfl
  · exact .clean₂ ((leaves sets).cons rfl rfl) (shape.congr rfl rfl)

lemma Kept.insertHost {result : HostInsertResult} {key : List π} {v : List α} (kept : r.Kept c)
    (ok : r.Allowed c (.insertHost i key v))
    (ran : r.core.insertHost c i key v = some (w, result)) :
    Kept c { r with core := w.core, held := r.held.map (Held.splitAll w.splits) } ∧
      (r.core.Exact ∅ → w.core.Exact ∅) := by
  obtain ⟨idle, sized, backed⟩ := ok
  unfold Core.insertHost at ran
  split at ran
  swap
  · cases ran
  rename_i known
  have anchored : Anchored c r.core i := by
    rcases mem_tags_of_known known with zero | named
    · exact .inl zero
    cases mode : c.isWriteBack with
    | false => exact (backed mode).imp_right fun ⟨d, mem, named, host⟩ => ⟨d, mem, named, fun _ => host⟩
    | true =>
      obtain ⟨d, mem, named⟩ := mem_map.mp named
      exact .inr ⟨d, mem, named, by simp [mode]⟩
  have start : Fetch c r
      { core := r.core, node := i, total := 0, key, value := v, actions := [], splits := [] } := by
    refine ⟨?_, id, anchored, sized⟩
    rw [show r.held.map (Held.splitAll []) = r.held from List.map_id _]
    exact kept
  split at ran
  · cases ran
    exact ⟨start.kept, start.leaves⟩
  · obtain ⟨w₁, walked, out⟩ := map_eq_some_iff.mp ran
    obtain ⟨fetched, ended⟩ := start.walk idle le_rfl walked
    split at out
    · cases out
      exact ⟨fetched.kept, fetched.leaves⟩
    · rename_i left
      split at out
      · cases out
        exact ⟨fetched.kept, fetched.leaves⟩
      · cases out
        exact fetched.addHostNode idle left ended

lemma Kept.step {op : Op π α} (kept : r.Kept c) (ok : r.Allowed c op) (ran : r.step c op = some r') :
    r'.Kept c ∧ (r.core.Exact ∅ → op.Refreshes r → r'.core.Exact ∅) := by
  have shape := kept.shape
  cases op with
  | matchPrefix key full =>
    cases ran
    have edits := Core.matchWalk_grows full shape key
    exact ⟨kept.grows ok edits, fun leaves _ => leaves.grows shape edits⟩
  | insert p =>
    obtain ⟨⟨w, result⟩, inserted, rfl⟩ := map_eq_some_iff.mp ran
    have edits := Core.insert_grows shape ok.2 inserted
    exact ⟨kept.grows ok.1 edits, fun leaves _ => leaves.grows shape edits⟩
  | incLockRef i skip =>
    obtain ⟨⟨core, receipt⟩, taken, rfl⟩ := map_eq_some_iff.mp ran
    refine ⟨kept.relocks (Core.incLockRef_relocks shape taken) (kept.locks.inc shape taken) ?_
      (by simp [ok.1]), fun leaves _ => leaves.incLockRef shape ok.2 taken⟩
    obtain ⟨-, -, -, skips, -⟩ := Core.incLockRef_raises shape kept.locks.marks taken
    refine forall_mem_cons.mpr ⟨?_, kept.whole⟩
    rw [Core.take, skips]
    exact ok.2
  | decLockRef k =>
    obtain ⟨h, found, ran⟩ := bind_eq_some_iff.mp ran
    obtain ⟨core, released, rfl⟩ := map_eq_some_iff.mp ran
    have edits := Core.decLockRef_releases shape released
    obtain ⟨core', released', locks, -⟩ := (kept.locks.perm (perm_of_getElem? found)).dec shape
    cases released.symm.trans released'
    exact ⟨kept.relocks (Core.Releases.relocks shape edits) locks
      (fun g inside => kept.whole g (mem_of_mem_eraseIdx inside))
      fun w on => (kept.walk w on).fades (Core.Releases.fades edits),
      fun leaves _ => leaves.releases shape edits⟩
  | decSwaLockOnly k =>
    obtain ⟨h, found, ran⟩ := bind_eq_some_iff.mp ran
    obtain ⟨core, released, rfl⟩ := map_eq_some_iff.mp ran
    obtain ⟨unreleased, taken⟩ := ok h found
    have edits := Core.decSwaLockOnly_releases shape released
    obtain ⟨core', released', locks, -⟩ :=
      (kept.locks.perm (perm_of_getElem? found)).decSwa shape unreleased taken
    cases released.symm.trans released'
    obtain ⟨lt, rfl⟩ := List.getElem?_eq_some_iff.mp found
    refine ⟨kept.relocks (Core.Releases.relocks shape edits)
      (locks.perm (set_perm_cons_eraseIdx lt _).symm) (fun g inside => ?_)
      fun w on => (kept.walk w on).fades (Core.Releases.fades edits),
      fun leaves _ => leaves.releases shape edits⟩
    rcases mem_or_eq_of_mem_set inside with old | rfl
    · exact kept.whole g old
    · exact kept.whole r.held[k] (getElem_mem lt)
  | incHostLockRef i =>
    obtain ⟨⟨core, receipt⟩, taken, rfl⟩ := map_eq_some_iff.mp ran
    have cleans := incHostLockRef_cleans shape taken
    exact ⟨kept.host cleans.touch _, fun leaves _ => cleans.leaves leaves⟩
  | decHostLockRef k =>
    obtain ⟨receipt, -, ran⟩ := bind_eq_some_iff.mp ran
    obtain ⟨core, released, rfl⟩ := map_eq_some_iff.mp ran
    have cleans := decHostLockRef_cleans shape released
    exact ⟨kept.host cleans.touch _, fun leaves _ => cleans.leaves leaves⟩
  | commitLoadBack anchor load =>
    obtain ⟨core, loaded, rfl⟩ := map_eq_some_iff.mp ran
    exact (Core.commitLoadBack_loads shape ok.2 loaded).imp_left (kept.loads ok.1)
  | insertHost i key v =>
    obtain ⟨⟨w, result⟩, inserted, rfl⟩ := map_eq_some_iff.mp ran
    exact (kept.insertHost ok inserted).imp_right fun leaves sets _ => leaves sets
  | evictDeviceStart | evictDeviceNextNode | finishInternalEviction | evictDeviceLeaf | demote
  | dropSubtreeNoHost | evictDeviceEnd | evictExcessPathStates | commitBackup | evictHostLeaf
  | tombstoneHost | releaseFullHostDuplicate =>
    obtain ⟨kept', cleans⟩ := kept.evicts rfl ok ran
    exact ⟨kept', fun sets _ => cleans.leaves sets⟩

end Run

namespace Core

variable {c : Config} {core core' mid : Core π α} {d e : Node π α} {i : Nat} {ct : Component}
  {held : List Held}

/-- What is locked on a node is covered by a Full lock there. -/
lemma Locks.le_full (locks : core.Locks c held)
    (whole : ∀ h ∈ held, .full ∉ h.receipt.skippedLockComponents) (mem : d ∈ core.nodes)
    (ct : Component) : (d.data ct).lockRef ≤ (d.data .full).lockRef := by
  rw [locks.counts d mem ct, locks.counts d mem .full]
  apply countP_mono_left
  intro h inside covered
  have covers := locks.covers h inside
  have taken : h.takes c .full = true := decide_eq_true (whole h inside)
  have part := of_decide_eq_true covered
  rw [covers.segment ct, List.mem_toFinset] at part
  apply decide_eq_true
  rw [covers.segment .full, List.mem_toFinset, segmentOf, if_pos taken]
  exact ((segmentOf_isPrefix c core h ct).sublist.map _).subset part

/-! ### What is locked stays -/

/-- Every locked node is still there, with its locks, its Full value and the values of the
components that are locked on it. -/
def Guarded (core core' : Core π α) : Prop :=
  ∀ d ∈ core.nodes, d.locked = true → ∃ e ∈ core'.nodes, e.id = d.id ∧
    (e.data .full).value = (d.data .full).value ∧ ∀ ct, (e.data ct).lockRef = (d.data ct).lockRef ∧
        (0 < (d.data ct).lockRef → (e.data ct).value = (d.data ct).value)

lemma Guarded.refl : Guarded core core := fun d mem _ => ⟨d, mem, rfl, rfl, fun _ => ⟨rfl, fun _ => rfl⟩⟩

lemma Guarded.trans (first : Guarded core mid) (second : Guarded mid core') :
    Guarded core core' := by
  intro d mem locked
  obtain ⟨e, mem', id, full, same⟩ := first d mem locked
  have locked' : e.locked = true := by
    rw [← locked]
    simp only [Node.locked, (same _).1]
  obtain ⟨x, mem'', id', full', same'⟩ := second e mem' locked'
  refine ⟨x, mem'', id'.trans id, full'.trans full, fun ct => ⟨?_, fun pos => ?_⟩⟩
  · exact (same' ct).1.trans (same ct).1
  · exact ((same' ct).2 ((same ct).1 ▸ pos)).trans ((same ct).2 pos)

lemma guarded_map (nodes : core'.nodes = core.nodes.map f)
    (kept : ∀ d ∈ core.nodes, d.locked = true → (f d).id = d.id ∧
      ((f d).data .full).value = (d.data .full).value ∧ ∀ ct,
        ((f d).data ct).lockRef = (d.data ct).lockRef ∧
          (0 < (d.data ct).lockRef → ((f d).data ct).value = (d.data ct).value)) :
    Guarded core core' :=
  fun d mem locked => ⟨f d, nodes ▸ mem_map_of_mem mem, kept d mem locked⟩

/-- One node's device value of an unlocked component goes. -/
lemma guarded_evictValues (shape : core.Shape c) (mem : d ∈ core.nodes)
    (free : (d.data ct).lockRef = 0) (full : ct = .full → d.locked = false) :
    Guarded core (core.evictValues ct [d]) := by
  apply guarded_map rfl
  intro e old locked
  by_cases here : e.id = d.id
  swap
  · simp [Links.tags, links, here]
  obtain rfl := shape.eq_of_id old mem here
  have aux : ct ≠ .full := fun same => by
    rw [full same] at locked
    cases locked
  rw [if_pos (show e.id ∈ links.tags [e] from mem_singleton.mpr rfl)]
  refine ⟨rfl, ?_, fun ct' => ?_⟩
  · rw [dropValue, Node.put_data_of_ne _ _ (.symm aux)]
  · rw [dropValue, Node.put_data]
    split
    · rename_i same
      subst same
      exact ⟨rfl, fun pos => absurd free pos.ne'⟩
    · exact ⟨rfl, fun _ => rfl⟩

/-- The host side of one component changes. -/
lemma guarded_putHost (ct : Component) (v : Option (List α)) :
    Guarded core (core.modify ids fun d => d.put ct { d.data ct with hostValue := v }) := by
  refine guarded_map (nodes_modify ..) fun d _ _ => ⟨?_, d.putIf_keeps (·.value) (by rfl) .full _,
    fun ct' => ⟨d.putIf_keeps (·.lockRef) (by rfl) ct' _,
      fun _ => d.putIf_keeps (·.value) (by rfl) ct' _⟩⟩
  split <;> rfl

lemma Shed.guarded (shape : core.Shape c) (edit : Shed c core core') : Guarded core core' := by
  cases edit with
  | aux mem aux unlocked => exact guarded_evictValues shape mem unlocked fun full => absurd full aux
  | full mem unlocked =>
    exact guarded_evictValues shape mem (Node.locked_eq_false_iff.mp unlocked .full)
      fun _ => unlocked
  | @remove d mem unlocked =>
    intro e old locked
    refine ⟨e, mem_filter.mpr ⟨old, decide_eq_true fun same => ?_⟩, rfl, rfl,
      fun _ => ⟨rfl, fun _ => rfl⟩⟩
    obtain rfl := shape.eq_of_id old mem same
    rw [unlocked] at locked
    cases locked
  | leaves => exact fun d mem _ => ⟨d, mem, rfl, rfl, fun _ => ⟨rfl, fun _ => rfl⟩⟩
  | @putHost d ct v => exact guarded_putHost ct (some v)
  | @dropHost d ct => exact guarded_putHost ct none

lemma Sheds.guarded (shape : core.Shape c) (edits : Sheds c core core') : Guarded core core' := by
  induction edits with
  | refl => exact .refl
  | tail before edit ih => exact ih.trans (Shed.guarded (shape.sheds before) edit)

end Core

/-! ### What holds in every run -/

section

variable [DecidableEq π] {c : Config} {r r' : Run π α}
lemma treeMachine_kept : (treeMachine (π := π) (α := α) c).Inductive (Run.Kept c) where
  start := by
    rintro r rfl
    exact ⟨shape_reset c, residency_reset, locks_reset, by simp,
      ledger_reset, by simp⟩
  step _ _ _ kept ok ran := (kept.step ok ran).1

/-! ### The leaf sets -/

/-- The runs whose load-backs are all such. -/
def leafMachine (c : Config) : Machine (Run π α) (Op π α) :=
  { treeMachine c with allowed := fun r op => r.Allowed c op ∧ op.Refreshes r }

lemma leafMachine_reachable (reached : (leafMachine c).Reachable r) :
    (treeMachine c).Reachable r := by
  induction reached with
  | start first => exact .start first
  | step _ ok ran ih => exact .step ih ok.1 ran

lemma leafMachine_kept : (leafMachine (π := π) (α := α) c).Inductive
    (fun r => r.Kept c ∧ r.core.Exact ∅) where
  start r first := ⟨treeMachine_kept.start r first, by rw [first]; exact exact_reset⟩
  step _ _ _ both ok ran :=
    (both.1.step ok.1 ran).imp_right fun leaves => leaves both.2 ok.2

end

/-! ### Results, each with a run it applies to -/

/-- Full attention alone with a write-back host tier. -/
def tieredConfig : Config where
  pageSize := 1
  pageSize_pos := Nat.one_pos
  hasSwa := false
  hasMamba := false
  slidingWindowSize := 1
  window_pos := Nat.one_pos
  gatesPrefixMatch := true
  enableHicache := true
  isWriteBack := true
  hasSwaHostPool := false
  writeThroughThreshold := 1
  mambaCheckpointGrid := 1
  mambaMaxStatesPerPath := none

/-- An insert of single-token pages. -/
def plainInsert (key value : List Nat) (prevPrefixLen : Nat) : InsertParams Nat Nat where
  key := key
  value := value
  prevPrefixLen := prevPrefixLen
  swaEvictedSeqlen := 0
  mambaValue := none
  rotationBase := none
  insertedLen := 0
  fullToSwa := id

/-- Operations on a fresh tree. -/
def runOps (ops : List (Op Nat Nat)) : Run Nat Nat :=
  (ops.foldlM (Run.step tieredConfig) ⟨.reset, [], [], none⟩).getD ⟨.reset, [], [], none⟩

/-- Two nodes, the lower one written back and demoted. -/
def demoteOps : List (Op Nat Nat) :=
  [.insert (plainInsert [1] [10] 0), .insert (plainInsert [1, 2] [10, 11] 1),
    .evictDeviceStart .full [], .evictDeviceNextNode [2] false, .evictDeviceLeaf,
    .commitBackup 2 ⟨some [50], [], none⟩, .demote, .evictDeviceEnd]

/-- The upper node is locked and the lower one loaded back. -/
def reloadOps : List (Op Nat Nat) :=
  demoteOps ++ [.incLockRef 1 [], .commitLoadBack 2 ⟨[(2, [60])], [], none⟩]

lemma demoted_reached : (leafMachine tieredConfig).Reachable (runOps demoteOps) := by
  have s₁ : (leafMachine tieredConfig).Reachable _ :=
    .step (.start rfl) ⟨⟨rfl, by decide⟩, trivial⟩ (a := .insert (plainInsert [1] [10] 0)) rfl
  have s₂ := s₁.step ⟨⟨rfl, by decide⟩, trivial⟩ (a := Op.insert (plainInsert [1, 2] [10, 11] 1)) rfl
  have s₃ := s₂.step ⟨rfl, trivial⟩ (a := Op.evictDeviceStart .full []) rfl
  have s₄ := s₃.step ⟨by rintro w ⟨⟩; exact ⟨rfl, rfl⟩, trivial⟩
    (a := Op.evictDeviceNextNode [2] false) rfl
  have s₅ := s₄.step ⟨trivial, trivial⟩ (a := Op.evictDeviceLeaf) rfl
  have s₆ := s₅.step ⟨⟨by
      rintro v ⟨⟩ d mem named
      revert d
      decide, by simp⟩, trivial⟩ (a := Op.commitBackup 2 ⟨some [50], [], none⟩) rfl
  have s₇ := s₆.step ⟨trivial, trivial⟩ (a := Op.demote) rfl
  exact .step s₇ ⟨trivial, trivial⟩ (a := .evictDeviceEnd) rfl

lemma reloaded_reached : (leafMachine tieredConfig).Reachable (runOps reloadOps) := by
  have locked := demoted_reached.step ⟨⟨rfl, by decide⟩, trivial⟩ (a := Op.incLockRef 1 []) rfl
  refine .step locked (a := .commitLoadBack 2 ⟨[(2, [60])], [], none⟩) ⟨⟨rfl, ?_⟩, ?_⟩ rfl
  · exact ⟨⟨1, .inr (by decide), by decide, trivial⟩, by decide, by simp, by decide, by simp⟩
  · rintro w inside d mem named
    obtain rfl := mem_singleton.mp inside
    revert d
    decide

variable [DecidableEq π] {c : Config} {r r' : Run π α}

/-- Full data is closed under parents on the device and on some tier for every node;
auxiliary data lies on Full data, and so do auxiliary locks on Full locks. -/
theorem reachable_resident (reached : (treeMachine c).Reachable r) :
    (∀ d ∈ r.core.nodes, d.evicted = false ∨ d.backuped = true) ∧
    (∀ d ∈ r.core.nodes, d.evicted = false →
      d.parent = 0 ∨ ∃ p ∈ r.core.nodes, p.id = d.parent ∧ p.evicted = false) ∧
    (∀ d ∈ r.core.nodes, ∀ ct, ct ≠ .full → (d.data ct).value ≠ none → d.evicted = false) ∧
    (∀ d ∈ r.core.nodes, ∀ ct, ct ≠ .full → (d.data ct).hostValue ≠ none →
      d.evicted = false ∨ d.backuped = true) ∧
    ∀ d ∈ r.core.nodes, ∀ ct, (d.data ct).lockRef ≤ (d.data .full).lockRef := by
  have kept := treeMachine_kept.reachable reached
  exact ⟨kept.residency.live, kept.residency.closed, kept.residency.aux,
    fun d mem _ _ _ => kept.residency.live d mem, fun d => kept.locks.le_full kept.whole⟩

theorem reachable_resident_demoted :
    ((runOps demoteOps).core.nodes.map fun d => (d.id, d.evicted)) = [(2, true), (1, false)] ∧
      ∀ d ∈ (runOps demoteOps).core.nodes, d.evicted = false ∨ d.backuped = true :=
  ⟨by decide, (reachable_resident (leafMachine_reachable demoted_reached)).1⟩

/-- The tree has the shape its operations rely on, and stores no prefix twice: the pages up to
a place in a run lead to one node. -/
theorem reachable_shape (reached : (treeMachine c).Reachable r) : r.core.Shape c ∧
    ∀ d ∈ r.core.nodes, ∀ e ∈ r.core.nodes, ∀ m n,
      trie.route r.core.nodes d.parent ++ d.key.take (m + 1) =
        trie.route r.core.nodes e.parent ++ e.key.take (n + 1) → d = e := by
  have shape := (treeMachine_kept.reachable reached).shape
  exact ⟨shape, fun _ mem _ mem' _ _ => shape.tree.holder_unique mem mem'⟩

theorem reachable_shape_reloaded : (runOps reloadOps).core.nodes.map Node.key = [[2], [1]] ∧
    (runOps reloadOps).core.Shape tieredConfig :=
  ⟨by decide, (reachable_shape (leafMachine_reachable reloaded_reached)).1⟩

/-- The counters are the device tokens of unlocked and of locked nodes. -/
theorem reachable_ledger (reached : (treeMachine c).Reachable r) (ct : Component) :
    r.core.componentEvictableSize ct = (r.core.nodes.map fun d =>
      if (d.data ct).lockRef = 0 then ((d.data ct).valueLen : Int) else 0).sum ∧
    r.core.componentProtectedSize ct = (r.core.nodes.map fun d =>
      if 0 < (d.data ct).lockRef then ((d.data ct).valueLen : Int) else 0).sum := by
  have ledger := (treeMachine_kept.reachable reached).ledger
  refine ⟨ledger.evictable ct, (ledger.protectedSize ct).trans ?_⟩
  apply Links.weigh_congr
  intro d _
  simp [Node.protectedTokens, Nat.pos_iff_ne_zero]

theorem reachable_ledger_reloaded : (runOps reloadOps).core.componentEvictableSize .full = 1 ∧
    (runOps reloadOps).core.componentProtectedSize .full =
      ((runOps reloadOps).core.nodes.map fun d =>
        if 0 < (d.data .full).lockRef then ((d.data .full).valueLen : Int) else 0).sum :=
  ⟨by decide, (reachable_ledger (leafMachine_reachable reloaded_reached) .full).2⟩

/-- Whatever a device eviction does, with the backups and host evictions it triggers, locked
nodes stay, on the device, with every value whose component is locked. -/
theorem evictions_guard_locks (reached : (treeMachine c).Reachable r)
    (evicted : (treeMachine c).Path (fun op => op.evicts = true) r r') :
    Core.Guarded r.core r'.core := by
  have kept := treeMachine_kept.reachable reached
  have both : r'.Kept c ∧ Core.Guarded r.core r'.core := by
    induction evicted with
    | refl => exact ⟨kept, .refl⟩
    | tail _ is ok ran ih =>
      obtain ⟨kept', cleans⟩ := ih.1.evicts is ok ran
      exact ⟨kept', ih.2.trans (Core.Sheds.guarded ih.1.shape cleans.sheds)⟩
  exact both.2

theorem evictions_guard_locks_reloaded : ∃ r : Run Nat Nat,
    (r.core.nodes.map fun d => (d.id, d.evicted, d.locked)) =
      [(2, true, false), (1, false, true)] ∧ Core.Guarded (runOps reloadOps).core r.core := by
  have started : (treeMachine tieredConfig).Path (fun op => op.evicts = true) (runOps reloadOps) _ :=
    .tail .refl rfl rfl (a := .evictDeviceStart .full []) rfl
  have chosen := started.tail rfl (by rintro w ⟨⟩; exact ⟨rfl, rfl⟩)
    (a := Op.evictDeviceNextNode [2] false) rfl
  have gone := chosen.tail rfl trivial (a := Op.evictDeviceLeaf) rfl
  exact ⟨_, by decide, evictions_guard_locks (leafMachine_reachable reloaded_reached) gone⟩

/-- After every operation the two sets hold exactly the nodes that are leaves of their tier,
and no node is in both. -/
theorem reachable_leaves (reached : (leafMachine c).Reachable r) :
    (∀ i, i ∈ r.core.evictableDeviceLeaves ↔
      ∃ d ∈ r.core.nodes, d.id = i ∧ r.core.isDeviceLeaf d = true) ∧
    (∀ i, i ∈ r.core.evictableHostLeaves ↔
      ∃ d ∈ r.core.nodes, d.id = i ∧ r.core.isHostLeaf d = true) ∧
    Disjoint r.core.evictableDeviceLeaves r.core.evictableHostLeaves := by
  obtain ⟨kept, sets⟩ := leafMachine_kept.reachable reached
  have device := fun i => sets.device i (Set.notMem_empty i)
  have host := fun i => sets.host i (Set.notMem_empty i)
  refine ⟨device, host, Finset.disjoint_left.mpr fun i inDevice inHost => ?_⟩
  obtain ⟨d, mem, rfl, leaf⟩ := (device i).mp inDevice
  obtain ⟨e, mem', same, leaf'⟩ := (host d.id).mp inHost
  obtain rfl := kept.shape.eq_of_id mem' mem same
  have resident := (isDeviceLeaf_iff.mp leaf).1
  rw [(isHostLeaf_iff.mp leaf').1] at resident
  cases resident

/-- The lower node of a reloaded tree is a device leaf, a path fetched below it a host leaf. -/
theorem reachable_leaves_fetched : ∃ r : Run Nat Nat, (leafMachine tieredConfig).Reachable r ∧
    r.core.evictableDeviceLeaves = {2} ∧ r.core.evictableHostLeaves = {3} ∧
      Disjoint r.core.evictableDeviceLeaves r.core.evictableHostLeaves := by
  have fetched := reloaded_reached.step ⟨⟨rfl, rfl, by simp [tieredConfig]⟩, trivial⟩
    (a := Op.insertHost 2 [3, 4] [70, 71]) rfl
  exact ⟨_, fetched, by decide, by decide, (reachable_leaves fetched).2.2⟩

/-- Loading the lower node while the upper one is an unlocked leaf leaves the upper one among
the device leaves, with a child on the device. -/
theorem load_leaves_parent_behind : ∃ r : Run Nat Nat, (treeMachine tieredConfig).Reachable r ∧
    1 ∈ r.core.evictableDeviceLeaves ∧
      ∀ d ∈ r.core.nodes, d.id = 1 → r.core.isDeviceLeaf d = false := by
  have fits : Core.LoadBack.Fits tieredConfig (runOps demoteOps).core 2 ⟨[(2, [60])], [], none⟩ :=
    ⟨⟨1, .inr (by decide), by decide, trivial⟩, by decide, by simp, by decide, by simp⟩
  have loaded := (leafMachine_reachable demoted_reached).step ⟨rfl, fits⟩
    (a := Op.commitLoadBack 2 ⟨[(2, [60])], [], none⟩) rfl
  exact ⟨_, loaded, by decide, by decide⟩

end Sglang.Tree
