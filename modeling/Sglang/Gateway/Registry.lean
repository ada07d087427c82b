/-
# The worker registry

`WorkerRegistry` stores workers by id and keeps five indexes of them: by model, as a hash ring for
each model, by type, by connection mode and by URL.

* `Lists` — an index lists what is stored, each entry once under its key.
* `reachable_indexes_agree` — they do in every run that registers a worker only for a URL without
  one; `reregistered_listed_twice` has an update of a worker in place.

The hash of a virtual node is a parameter. Health, metrics and the mesh are left out.
-/

import Mathlib.Data.List.Nodup
import Mathlib.Data.List.Perm.Basic
import Sglang.Lib.Machine

namespace Sglang.Gateway

open Sglang.Lib List Function

/-! ### Indexes -/

section

variable {κ β : Type} [DecidableEq κ]

/-- What an index lists under a key. -/
def listed (index : κ → Option (List β)) (k : κ) : List β := (index k).getD []

def push (index : κ → Option (List β)) (k : κ) (x : β) : κ → Option (List β) :=
  update index k (some (listed index k ++ [x]))

def retain (index : κ → Option (List β)) (k : κ) (keep : β → Bool) : κ → Option (List β) :=
  update index k ((index k).map (filter keep))

lemma listed_push (index : κ → Option (List β)) (k k' : κ) (x : β) :
    listed (push index k x) k' = listed index k' ++ if k' = k then [x] else [] := by
  by_cases same : k' = k
  · subst same
    simp [push, listed]
  · simp [push, listed, same]

lemma listed_retain (index : κ → Option (List β)) (k k' : κ) (keep : β → Bool) :
    listed (retain index k keep) k' =
      if k' = k then (listed index k').filter keep else listed index k' := by
  by_cases same : k' = k
  · subst same
    cases entry : index k' <;> simp [retain, listed, entry]
  · simp [retain, listed, same]

variable {ι ω : Type} {stored : List (ι × ω)} {key : ω → κ} {entry : ι × ω → β}
  {index : κ → Option (List β)}

/-- The index lists the stored entries, each under its key. -/
def Lists (stored : List (ι × ω)) (key : ω → κ) (entry : ι × ω → β)
    (index : κ → Option (List β)) : Prop :=
  ∀ k, listed index k = (stored.filter fun p => key p.2 = k).map entry

lemma Lists.push (lists : Lists stored key entry index) (p : ι × ω) :
    Lists (stored ++ [p]) key entry (push index (key p.2) (entry p)) := by
  intro k
  rw [listed_push, lists k, filter_append, map_append]
  by_cases here : key p.2 = k
  · simp [here]
  · simp [here, Ne.symm here]

lemma Lists.retain [DecidableEq ι] {keep : β → Bool} {i : ι} {k : κ} (lists : Lists stored key entry index)
    (here : ∀ p ∈ stored, p.1 = i → key p.2 = k)
    (others : ∀ p ∈ stored, keep (entry p) = decide (p.1 ≠ i)) :
    Lists (stored.filter fun p => p.1 ≠ i) key entry (retain index k keep) := by
  intro k'
  rw [listed_retain, lists k', filter_comm]
  split
  · rw [filter_map]
    exact congrArg _ (filter_congr fun p mem => others p (mem_filter.mp mem).1)
  · rename_i elsewhere
    refine congrArg _ (filter_eq_self.mpr fun p mem => decide_eq_true ?_).symm
    obtain ⟨mem, under⟩ := mem_filter.mp mem
    intro same
    exact elsewhere ((of_decide_eq_true under).symm.trans (here p mem same))

end

/-! ### The registry -/

structure Worker (υ μ τ κ : Type) where
  url : υ
  modelId : μ
  workerType : τ
  connectionMode : κ
  deriving DecidableEq

structure WorkerRegistry (ι υ μ τ κ : Type) where
  /-- By id; the order means nothing. -/
  workers : List (ι × Worker υ μ τ κ) := []
  modelIndex : μ → Option (List (Worker υ μ τ κ)) := fun _ => none
  hashRings : μ → Option (List (Nat × υ)) := fun _ => none
  typeWorkers : τ → Option (List ι) := fun _ => none
  connectionWorkers : κ → Option (List ι) := fun _ => none
  urlToId : υ → Option ι := fun _ => none

variable {ι υ μ τ κ : Type}

def virtualNodesPerWorker : Nat := 150

def virtualNodes (pos : υ → Nat → Nat) (w : Worker υ μ τ κ) : List (Nat × υ) :=
  (range virtualNodesPerWorker).map fun vnode => (pos w.url vnode, w.url)

/-- `HashRing::new`. -/
def hashRing (pos : υ → Nat → Nat) (workers : List (Worker υ μ τ κ)) : List (Nat × υ) :=
  (workers.flatMap (virtualNodes pos)).mergeSort fun a b => a.1 ≤ b.1

namespace WorkerRegistry

def getByModel (r : WorkerRegistry ι υ μ τ κ) (modelId : μ) : List (Worker υ μ τ κ) :=
  listed r.modelIndex modelId

/-- The indexes agree with the stored workers. -/
structure Agrees [DecidableEq μ] [DecidableEq τ] [DecidableEq κ]
    (r : WorkerRegistry ι υ μ τ κ) : Prop where
  ids : (r.workers.map Prod.fst).Nodup
  models : Lists r.workers Worker.modelId Prod.snd r.modelIndex
  types : Lists r.workers Worker.workerType Prod.fst r.typeWorkers
  connections : Lists r.workers Worker.connectionMode Prod.fst r.connectionWorkers

/-- No index mentions the worker with this id and URL. -/
structure Gone (id : ι) (url : υ) (r : WorkerRegistry ι υ μ τ κ) : Prop where
  stored : ∀ p ∈ r.workers, p.1 ≠ id ∧ p.2.url ≠ url
  models : ∀ m, ∀ w ∈ r.getByModel m, w.url ≠ url
  rings : ∀ m, ∀ entry ∈ listed r.hashRings m, entry.2 ≠ url
  types : ∀ t, id ∉ listed r.typeWorkers t
  connections : ∀ k, id ∉ listed r.connectionWorkers k
  urls : ∀ url' id', r.urlToId url' = some id' → url' ≠ url ∧ id' ≠ id

variable [DecidableEq ι] [DecidableEq υ] [DecidableEq μ] [DecidableEq τ] [DecidableEq κ]

section

variable (pos : υ → Nat → Nat) (r : WorkerRegistry ι υ μ τ κ)

def rebuildHashRing (modelId : μ) : WorkerRegistry ι υ μ τ κ :=
  { r with hashRings := update r.hashRings modelId ((r.modelIndex modelId).map (hashRing pos)) }

/-- `register`; `newId` is the id drawn for a URL that has none. -/
def register (worker : Worker υ μ τ κ) (newId : ι) : WorkerRegistry ι υ μ τ κ × ι :=
  let workerId := (r.urlToId worker.url).getD newId
  let r := { r with
    workers := (r.workers.filter fun p : ι × _ => p.1 ≠ workerId) ++ [(workerId, worker)]
    urlToId := update r.urlToId worker.url (some workerId)
    modelIndex := push r.modelIndex worker.modelId worker }
  let r := r.rebuildHashRing pos worker.modelId
  ({ r with
    typeWorkers := push r.typeWorkers worker.workerType workerId
    connectionWorkers := push r.connectionWorkers worker.connectionMode workerId }, workerId)

def reserveIdForUrl (url : υ) (newId : ι) : WorkerRegistry ι υ μ τ κ × ι :=
  let id := (r.urlToId url).getD newId
  ({ r with urlToId := update r.urlToId url (some id) }, id)

def remove (workerId : ι) : WorkerRegistry ι υ μ τ κ × Option (Worker υ μ τ κ) :=
  match r.workers.find? fun p : ι × _ => p.1 = workerId with
  | none => (r, none)
  | some (_, worker) =>
    let r := { r with
      workers := r.workers.filter fun p => p.1 ≠ workerId
      urlToId := update r.urlToId worker.url none
      modelIndex := retain r.modelIndex worker.modelId fun w => w.url ≠ worker.url }
    let r := r.rebuildHashRing pos worker.modelId
    ({ r with
      typeWorkers := retain r.typeWorkers worker.workerType fun id => id ≠ workerId
      connectionWorkers := retain r.connectionWorkers worker.connectionMode fun id =>
        id ≠ workerId }, some worker)

def removeByUrl (url : υ) : WorkerRegistry ι υ μ τ κ × Option (Worker υ μ τ κ) :=
  match r.urlToId url with
  | none => (r, none)
  | some workerId => { r with urlToId := update r.urlToId url none }.remove pos workerId

inductive Op (ι υ μ τ κ : Type) where
  | register (worker : Worker υ μ τ κ) (newId : ι)
  | reserveIdForUrl (url : υ) (newId : ι)
  | remove (workerId : ι)
  | removeByUrl (url : υ)

def step : Op ι υ μ τ κ → WorkerRegistry ι υ μ τ κ
  | .register worker newId => (r.register pos worker newId).1
  | .reserveIdForUrl url newId => (r.reserveIdForUrl url newId).1
  | .remove workerId => (r.remove pos workerId).1
  | .removeByUrl url => (r.removeByUrl pos url).1

/-- A drawn id is no other URL's. -/
def Allowed : Op ι υ μ τ κ → Prop
  | .register _ newId | .reserveIdForUrl _ newId => ∀ url, r.urlToId url ≠ some newId
  | _ => True

/-- A worker is registered only for a URL without one. -/
def New : Op ι υ μ τ κ → Prop
  | .register worker _ => ∀ p ∈ r.workers, p.2.url ≠ worker.url
  | _ => True

end

/-- The calls that are `only` of some kind, one at a time. -/
def registryMachine (pos : υ → Nat → Nat) (only : WorkerRegistry ι υ μ τ κ → Op ι υ μ τ κ → Prop) :
    Machine (WorkerRegistry ι υ μ τ κ) (Op ι υ μ τ κ) where
  start r := r = {}
  allowed r op := r.Allowed op ∧ only r op
  step r op := some (r.step pos op)

structure Inv (pos : υ → Nat → Nat) (r : WorkerRegistry ι υ μ τ κ) : Prop extends Agrees r where
  url : ∀ p ∈ r.workers, r.urlToId p.2.url = some p.1
  owner : ∀ url url' id, r.urlToId url = some id → r.urlToId url' = some id → url = url'
  rings : ∀ m, r.hashRings m = (r.modelIndex m).map (hashRing pos)

variable {pos : υ → Nat → Nat} {r : WorkerRegistry ι υ μ τ κ} {id newId : ι} {url : υ}
  {w : Worker υ μ τ κ}

omit [DecidableEq υ] [DecidableEq τ] [DecidableEq κ] in
lemma rings_rebuild {model : μ} {rings : μ → Option (List (Nat × υ))}
    {index index' : μ → Option (List (Worker υ μ τ κ))}
    (built : ∀ m, rings m = (index m).map (hashRing pos))
    (frame : ∀ m, m ≠ model → index' m = index m) (m : μ) :
    update rings model ((index' model).map (hashRing pos)) m = (index' m).map (hashRing pos) := by
  by_cases same : m = model
  · subst same
    exact update_self ..
  · rw [update_of_ne same, built, frame m same]

namespace Inv

variable (inv : Inv pos r)
include inv

omit [DecidableEq ι] [DecidableEq υ] in
lemma ring_perm (m : μ) :
    (listed r.hashRings m).Perm ((r.getByModel m).flatMap (virtualNodes pos)) := by
  rw [listed, inv.rings, getByModel, listed]
  cases r.modelIndex m with
  | none => exact .refl _
  | some workers => exact mergeSort_perm ..

omit [DecidableEq ι] [DecidableEq υ] in
/-- A URL names the worker as its id does. -/
lemma url_iff (here : (id, w) ∈ r.workers) {p : ι × Worker υ μ τ κ} (mem : p ∈ r.workers) :
    p.2.url = w.url ↔ p.1 = id := by
  have known := inv.url p mem
  constructor
  · intro same
    rw [same, inv.url _ here] at known
    exact (Option.some.inj known).symm
  · intro same
    rw [same] at known
    exact inv.owner _ _ _ known (inv.url _ here)

omit [DecidableEq ι] in
lemma reserve (fresh : ∀ url, r.urlToId url ≠ some newId) :
    Inv pos (r.reserveIdForUrl url newId).1 := by
  cases known : r.urlToId url with
  | some id =>
    have same : update r.urlToId url (some id) = r.urlToId := by rw [← known, update_eq_self]
    simpa [reserveIdForUrl, known, same] using inv
  | none =>
    simp only [reserveIdForUrl, known]
    refine { inv with url := ?_, owner := ?_ }
    · intro p mem
      change update r.urlToId url (some newId) p.2.url = some p.1
      rw [update_of_ne, inv.url p mem]
      rintro rfl
      rw [inv.url p mem] at known
      cases known
    · intro u u' id at_u at_u'
      simp only [update_apply] at at_u at_u'
      split at at_u <;> split at at_u'
      · simp_all
      · cases at_u
        exact absurd at_u' (fresh u')
      · cases at_u'
        exact absurd at_u (fresh u)
      · exact inv.owner _ _ _ at_u at_u'

lemma register_known (known : r.urlToId w.url = some id)
    (new : ∀ p ∈ r.workers, p.2.url ≠ w.url) : Inv pos (r.register pos w newId).1 := by
  have free : ∀ p ∈ r.workers, p.1 ≠ id := by
    rintro p mem rfl
    exact new p mem (inv.owner _ _ _ (inv.url p mem) known)
  have urls : update r.urlToId w.url (some id) = r.urlToId := by rw [← known, update_eq_self]
  have others : (r.workers.filter fun p => p.1 ≠ id) = r.workers :=
    filter_eq_self.mpr fun p mem => decide_eq_true (free p mem)
  simp only [register, known, Option.getD_some, urls, others, rebuildHashRing]
  refine { inv with
    ids := ?_
    url := fun p mem => ?_
    models := inv.models.push (id, w)
    rings := rings_rebuild inv.rings fun m other => update_of_ne other ..
    types := inv.types.push (id, w)
    connections := inv.connections.push (id, w) }
  · rw [map_append, nodup_append]
    refine ⟨inv.ids, by simp, ?_⟩
    simpa using fun i w => free (i, w)
  · rcases mem_append.mp mem with old | new
    · exact inv.url p old
    · cases mem_singleton.mp new
      exact known

/-- Registering draws the id as a reservation does. -/
lemma registered (fresh : ∀ url, r.urlToId url ≠ some newId)
    (new : ∀ p ∈ r.workers, p.2.url ≠ w.url) : Inv pos (r.register pos w newId).1 := by
  have drawn : r.register pos w newId = (r.reserveIdForUrl w.url newId).1.register pos w newId := by
    simp [register, reserveIdForUrl]
  rw [drawn]
  exact (inv.reserve fresh).register_known (update_self ..) new

omit [DecidableEq ι] in
lemma forget (unused : ∀ p ∈ r.workers, p.2.url ≠ url) :
    Inv pos { r with urlToId := update r.urlToId url none } := by
  refine { inv with url := ?_, owner := ?_ }
  · intro p mem
    change update r.urlToId url none p.2.url = some p.1
    rw [update_of_ne (unused p mem), inv.url p mem]
  · intro u u' id at_u at_u'
    simp only [update_apply] at at_u at_u'
    split at at_u
    · cases at_u
    · split at at_u'
      · cases at_u'
      · exact inv.owner _ _ _ at_u at_u'

lemma removed (id : ι) : Inv pos (r.remove pos id).1 := by
  cases found : r.workers.find? fun p => p.1 = id with
  | none => rwa [remove, found]
  | some p =>
    obtain ⟨i, w⟩ := p
    obtain rfl : i = id := by simpa using find?_some found
    have here := mem_of_find?_eq_some found
    have entry : ∀ p ∈ r.workers, p.1 = i → p = (i, w) := fun p mem same =>
      inj_on_of_nodup_map inv.ids mem here same
    have dropped : Inv pos { (r.remove pos i).1 with urlToId := r.urlToId } := by
      simp only [remove, found]
      exact { inv with
        ids := inv.ids.sublist (filter_sublist.map _)
        url := fun p mem => inv.url p (mem_filter.mp mem).1
        models := inv.models.retain (fun p mem same => by rw [entry p mem same]) fun p mem =>
          decide_eq_decide.mpr (not_congr (inv.url_iff here mem))
        rings := rings_rebuild inv.rings fun m other => update_of_ne other ..
        types := inv.types.retain (fun p mem same => by rw [entry p mem same]) fun _ _ => rfl
        connections :=
          inv.connections.retain (fun p mem same => by rw [entry p mem same]) fun _ _ => rfl }
    simp only [remove, found] at dropped ⊢
    apply dropped.forget
    intro p mem
    obtain ⟨mem, other⟩ := mem_filter.mp mem
    exact (inv.url_iff here mem).not.mpr (of_decide_eq_true other)

omit [DecidableEq υ] in
lemma find (here : (id, w) ∈ r.workers) : r.workers.find? (fun p => p.1 = id) = some (id, w) := by
  cases found : r.workers.find? fun p => p.1 = id with
  | none => simpa using find?_eq_none.mp found _ here
  | some p =>
    have same : p.1 = id := by simpa using find?_some found
    rw [inj_on_of_nodup_map inv.ids (mem_of_find?_eq_some found) here same]

/-- Dropping the URL first changes nothing for a stored worker. -/
lemma removeByUrl_eq (known : r.urlToId url = some id) (here : (id, w) ∈ r.workers) :
    r.removeByUrl pos url = r.remove pos id := by
  cases inv.owner _ _ _ known (inv.url _ here)
  simp [removeByUrl, remove, known, inv.find here]

lemma removedByUrl : Inv pos (r.removeByUrl pos url).1 := by
  cases known : r.urlToId url with
  | none => rwa [removeByUrl, known]
  | some id =>
    by_cases stored : ∃ w, (id, w) ∈ r.workers
    · obtain ⟨w, here⟩ := stored
      rw [inv.removeByUrl_eq known here]
      exact inv.removed id
    · -- the URL was only reserved
      have unused : ∀ p ∈ r.workers, p.1 ≠ id := by
        rintro p mem rfl
        exact stored ⟨p.2, mem⟩
      have absent : r.workers.find? (fun p => p.1 = id) = none := by simpa using unused
      simp only [removeByUrl, known, remove, absent]
      refine inv.forget fun p mem => ?_
      rintro rfl
      rw [inv.url p mem] at known
      exact unused p mem (Option.some.inj known)

/-- A removed worker is in no index. -/
lemma gone (here : (id, w) ∈ r.workers) : Gone id w.url (r.remove pos id).1 := by
  have after := inv.removed id
  have stored : ∀ p ∈ (r.remove pos id).1.workers, p.1 ≠ id ∧ p.2.url ≠ w.url := by
    intro p mem
    simp only [remove, inv.find here] at mem
    obtain ⟨mem, other⟩ := mem_filter.mp mem
    have other := of_decide_eq_true other
    exact ⟨other, (inv.url_iff here mem).not.mpr other⟩
  have models : ∀ m, ∀ v ∈ (r.remove pos id).1.getByModel m, v.url ≠ w.url := by
    intro m v mem
    rw [getByModel, after.models m] at mem
    obtain ⟨p, under, rfl⟩ := mem_map.mp mem
    exact (stored p (mem_filter.mp under).1).2
  constructor
  · exact stored
  · exact models
  · intro m entry mem
    obtain ⟨v, listed, node⟩ := mem_flatMap.mp ((after.ring_perm m).mem_iff.mp mem)
    obtain ⟨vnode, -, rfl⟩ := mem_map.mp node
    exact models m v listed
  · intro t mem
    rw [after.types t] at mem
    obtain ⟨p, under, rfl⟩ := mem_map.mp mem
    exact (stored p (mem_filter.mp under).1).1 rfl
  · intro k mem
    rw [after.connections k] at mem
    obtain ⟨p, under, rfl⟩ := mem_map.mp mem
    exact (stored p (mem_filter.mp under).1).1 rfl
  · intro u i known
    simp only [remove, inv.find here, rebuildHashRing, update_apply] at known
    split at known
    · cases known
    · rename_i other
      refine ⟨other, ?_⟩
      rintro rfl
      exact other (inv.owner _ _ _ known (inv.url _ here))

end Inv

lemma inductive_inv :
    (registryMachine pos New).Inductive fun r : WorkerRegistry ι υ μ τ κ => Inv pos r where
  start := by
    rintro r rfl
    constructor
    · constructor <;> simp [Lists, listed]
    all_goals simp
  step := by
    rintro r op r' inv ⟨fresh, new⟩ ran
    cases ran
    cases op with
    | register w newId => exact inv.registered fresh new
    | reserveIdForUrl url newId => exact inv.reserve fresh
    | remove id => exact inv.removed id
    | removeByUrl url => exact inv.removedByUrl

/-- While workers are registered only for URLs without one, the indexes agree with what is stored
and a removed worker leaves them all. -/
theorem reachable_indexes_agree (reached : (registryMachine pos New).Reachable r) :
    Agrees r ∧
    (∀ m, (listed r.hashRings m).Perm ((r.getByModel m).flatMap (virtualNodes pos))) ∧
    ∀ id w, (id, w) ∈ r.workers →
      Gone id w.url (r.remove pos id).1 ∧ Gone id w.url (r.removeByUrl pos w.url).1 := by
  have inv := inductive_inv.reachable reached
  refine ⟨inv.toAgrees, inv.ring_perm, fun id w here => ⟨inv.gone here, ?_⟩⟩
  rw [inv.removeByUrl_eq (inv.url _ here) here]
  exact inv.gone here

/-- The nodes of the workers 0 and 1 alternate on the ring. -/
def alternate (url vnode : Nat) : Nat := url + 2 * vnode

/-- Two workers of one model; removing one leaves the other. -/
theorem reachable_indexes_agree_removed : ∃ r : WorkerRegistry Nat Nat Nat Nat Nat,
    (registryMachine alternate New).Reachable r ∧ r.getByModel 7 = [⟨0, 7, 0, 0⟩, ⟨1, 7, 0, 1⟩] ∧
    Agrees r ∧ (listed r.hashRings 7).length = 300 ∧
    Gone 0 0 (r.remove alternate 0).1 ∧ Agrees (r.remove alternate 0).1 ∧
    (r.remove alternate 0).1.getByModel 7 = [⟨1, 7, 0, 1⟩] := by
  have one := Machine.Reachable.step (M := registryMachine alternate New)
    (a := .register (⟨0, 7, 0, 0⟩ : Worker Nat Nat Nat Nat) 0) (.start rfl)
    ⟨by simp [Allowed], by simp [New]⟩ rfl
  have two := one.step (a := Op.register ⟨1, 7, 0, 1⟩ 1)
    ⟨fun url => by simp [step, register, rebuildHashRing, update_apply],
      by simp [New, step, register, rebuildHashRing]⟩ rfl
  have fewer := two.step (a := Op.remove 0) ⟨trivial, trivial⟩ rfl
  obtain ⟨agrees, rings, gone⟩ := reachable_indexes_agree two
  have size := (rings 7).length_eq.trans length_flatMap
  refine ⟨_, two, rfl, agrees, size.trans ?_, (gone 0 ⟨0, 7, 0, 0⟩ (by decide)).1,
    (reachable_indexes_agree fewer).1, rfl⟩
  simp only [virtualNodes, length_map, length_range]
  rfl

/-- A rebuilt worker joins the one it replaces: it is listed twice, and a change of its model
leaves an entry that its removal does not find. -/
theorem reregistered_listed_twice :
    ∃ r r' : WorkerRegistry Nat Nat Nat Nat Nat,
      (registryMachine (fun _ _ => 0) fun _ _ => True).Reachable r ∧
      (registryMachine (fun _ _ => 0) fun _ _ => True).Reachable r' ∧
      r.getByModel 0 = [⟨0, 0, 0, 0⟩, ⟨0, 0, 0, 0⟩] ∧ ¬Agrees r ∧
      ¬Gone 0 0 (r'.remove (fun _ _ => 0) 0).1 := by
  have once := Machine.Reachable.step (M := registryMachine (fun _ _ => 0) fun _ _ => True)
    (a := .register (⟨0, 0, 0, 0⟩ : Worker Nat Nat Nat Nat) 0) (.start rfl)
    ⟨by simp [Allowed], trivial⟩ rfl
  have again := fun model => once.step (a := Op.register ⟨0, model, 0, 0⟩ 1) ⟨fun url => by
    simp [step, register, rebuildHashRing, update_apply], trivial⟩ rfl
  refine ⟨_, _, again 0, again 1, rfl, ?_, ?_⟩
  · intro agrees
    exact absurd (agrees.models 0) (by decide)
  · intro gone
    exact gone.models 0 ⟨0, 0, 0, 0⟩ (by decide) rfl

end WorkerRegistry

end Sglang.Gateway
