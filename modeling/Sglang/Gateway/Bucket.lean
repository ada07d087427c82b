/-
# Bucket routing

`Bucket` routes a prompt by its length: every prefill worker has an interval of character counts.
Intervals start equal and are then adjusted to the load of the requests in a time window.

* `Tiles` — intervals that follow one another up to `usize::MAX`.
* `reachable_routes` — they do in every run that does not remove the last worker;
  `last_worker_kept` has what that leaves behind.
* `reachable_balanced` — the loads per worker and in total are those of the window, in runs that
  change the workers only while the window holds nothing of theirs; `load_forgotten` has a worker
  added while another has requests.

`none` is a `usize` overflow. `bucket_cnt` is always the number of workers when it is read.
-/

import Mathlib.Algebra.Ring.Nat
import Mathlib.Data.List.Sort
import Sglang.Lib.Machine

namespace Sglang.Gateway

open Sglang.Lib List Option

def usizeMax : Nat := 2 ^ 64 - 1

structure SequencerRequest (υ : Type) where
  id : Nat
  charCnt : Nat
  timestamp : Nat
  prefillWorkerUrl : υ

structure Boundary (υ : Type) where
  url : υ
  lo : Nat
  hi : Nat

structure Bucket (υ : Type) where
  lMax : Nat := 4096
  prefillWorkerUrls : List υ := []
  loadTotal : Nat := 0
  period : Nat
  bucketLoad : Nat := 0
  boundary : List (Boundary υ) := []
  requestList : List (SequencerRequest υ) := []
  tReqLoads : List (Nat × Nat) := []
  charsPerUrl : υ → Option Nat := fun _ => none

/-- The initial intervals from the `i`-th worker on. -/
def initBoundary {υ : Type} (gap : Nat) : Nat → List υ → Option (List (Boundary υ))
  | _, [] => some []
  | i, [url] => some [⟨url, i * gap, usizeMax⟩]
  | i, url :: rest =>
    if (i + 1) * gap = 0 then none
    else (initBoundary gap (i + 1) rest).map (⟨url, i * gap, (i + 1) * gap - 1⟩ :: ·)

/-- The loads up to the one that fills a bucket: that one, if any, and what is left. -/
def fillBucket (single : Nat) : Nat → List Nat → Option (Option Nat × List Nat)
  | _, [] => some (none, [])
  | acc, load :: rest =>
    if usizeMax < acc + load then none
    else if single ≤ acc + load then some (some load, rest)
    else fillBucket single (acc + load) rest

/-- Where an interval from `lo` on ends, by the load that filled its bucket. -/
def upperBound (single lo : Nat) : Option Nat → Nat
  | some load => if load ≤ lo then lo + single else load
  | none => lo + single

/-- The adjusted intervals from `lo` on; the last worker takes the rest. -/
def newBoundary {υ : Type} (single : Nat) : List υ → Nat → List Nat → Option (List (Boundary υ))
  | [], _, _ => some []
  | [url], lo, [] => some [⟨url, lo, usizeMax⟩]
  | [url], lo, loads => (fillBucket single 0 loads).bind fun filled =>
    if filled.1 = none ∧ usizeMax < lo + single then none else some [⟨url, lo, usizeMax⟩]
  | url :: rest, lo, loads => (fillBucket single 0 loads).bind fun filled =>
    let hi := upperBound single lo filled.1
    if usizeMax < lo + single ∨ usizeMax < hi + 1 then none
    else (newBoundary single rest (hi + 1) filled.2).map (⟨url, lo, hi⟩ :: ·)

/-- The binary search of `find_boundary` on the positions from `left` to before `right`. -/
def findLoop {υ : Type} (bs : List (Boundary υ)) (n : Nat) : Nat → Nat → Nat → Option υ
  | 0, _, _ => none
  | fuel + 1, left, right =>
    if left < right then
      bs[left + (right - left) / 2]?.bind fun b =>
        if n < b.lo then findLoop bs n fuel left (left + (right - left) / 2)
        else if b.hi < n then findLoop bs n fuel (left + (right - left) / 2 + 1) right
        else some b.url
    else none

namespace Bucket

variable {υ : Type} [DecidableEq υ] (b : Bucket υ)

def findBoundary (n : Nat) : Option υ := findLoop b.boundary n b.boundary.length 0 b.boundary.length

def initPrefillWorkerUrls (urls : List υ) : Option (Bucket υ) :=
  let b := { b with
    prefillWorkerUrls := urls, charsPerUrl := fun u => if u ∈ urls then some 0 else none }
  if urls = [] then some { b with boundary := [] }
  else (initBoundary (b.lMax / urls.length) 0 urls).map fun boundary =>
    { b with boundary := boundary, lMax := usizeMax }

def addPrefillUrl (url : υ) : Option (Bucket υ) :=
  b.initPrefillWorkerUrls
    (if url ∈ b.prefillWorkerUrls then b.prefillWorkerUrls else b.prefillWorkerUrls ++ [url])

def removePrefillUrl (url : υ) : Option (Bucket υ) :=
  let urls := b.prefillWorkerUrls.filter (· ≠ url)
  let b := { b with
    prefillWorkerUrls := urls, charsPerUrl := Function.update b.charsPerUrl url none }
  if urls = [] then some b else b.initPrefillWorkerUrls urls

/-- A request is out of the window, or from the future. -/
def expired (now : Nat) (r : SequencerRequest υ) : Bool :=
  decide (b.period < now - r.timestamp ∨ now < r.timestamp)

/-- An expired request is taken off its worker's load. -/
def discharge (chars : υ → Option Nat) (r : SequencerRequest υ) : υ → Option Nat :=
  Function.update chars r.prefillWorkerUrl
    ((chars r.prefillWorkerUrl).map (· - r.charCnt))

def loadOf (rs : List (SequencerRequest υ)) : Nat := (rs.map (·.charCnt)).sum

def postProcessRequest (r : SequencerRequest υ) : Option (Bucket υ) :=
  let count := (b.charsPerUrl r.prefillWorkerUrl).getD 0 + r.charCnt
  let removed := b.requestList.takeWhile (b.expired r.timestamp)
  if usizeMax < count ∨ usizeMax < loadOf removed then none
  else some { b with
    charsPerUrl :=
      removed.foldl discharge (Function.update b.charsPerUrl r.prefillWorkerUrl (some count))
    loadTotal := min (b.loadTotal - loadOf removed + r.charCnt) usizeMax
    tReqLoads := b.tReqLoads.filter (fun t => t.1 ∉ removed.map (·.id) ∧ t.1 ≠ r.id) ++
      [(r.id, r.charCnt)]
    requestList := b.requestList.dropWhile (b.expired r.timestamp) ++ [r] }

def updateWorkersCnt : Bucket υ :=
  { b with charsPerUrl := fun u => match b.charsPerUrl u with
      | none => if u ∈ b.prefillWorkerUrls then some 0 else none
      | some k => if k ≠ 0 ∨ u ∈ b.prefillWorkerUrls then some k else none }

def adjustBoundary : Option (Bucket υ) :=
  let urls := b.prefillWorkerUrls
  if b.tReqLoads = [] then some b
  else if urls = [] then some b.updateWorkersCnt
  else
    let single := b.loadTotal / urls.length
    if usizeMax < 2 * b.bucketLoad ∨ (single ≤ 2 * b.bucketLoad ∧ usizeMax < 2 * single) then none
    else if single ≤ 2 * b.bucketLoad ∧ b.bucketLoad ≤ 2 * single ∧ b.bucketLoad ≠ 0 then
      some b.updateWorkersCnt
    else
      (newBoundary single urls 0 ((b.tReqLoads.map Prod.snd).insertionSort (· ≤ ·))).map
        fun boundary => { b.updateWorkersCnt with bucketLoad := single, boundary := boundary }

inductive Op (υ : Type) where
  | init (urls : List υ)
  | add (url : υ)
  | remove (url : υ)
  | request (r : SequencerRequest υ)
  | adjust

def step : Op υ → Option (Bucket υ)
  | .init urls => b.initPrefillWorkerUrls urls
  | .add url => b.addPrefillUrl url
  | .remove url => b.removePrefillUrl url
  | .request r => b.postProcessRequest r
  | .adjust => b.adjustBoundary

/-- The last worker is not removed. -/
def Op.LeavesOne : Op υ → Prop
  | .remove url => b.prefillWorkerUrls = [] ∨ ∃ u ∈ b.prefillWorkerUrls, u ≠ url
  | _ => True

variable (υ) in
def machine : Machine (Bucket υ) (Op υ) where
  start b := ∃ period, b = { period := period }
  allowed _ _ := True
  step := step

variable (υ) in
def manned : Machine (Bucket υ) (Op υ) :=
  { machine υ with allowed := fun b op => op.LeavesOne b }

end Bucket

/-! ### Intervals -/

/-- Non-empty intervals that follow one another from a count to `usize::MAX`. -/
inductive Tiles {υ : Type} : Nat → List (Boundary υ) → Prop
  | last {lo : Nat} (url : υ) (le : lo ≤ usizeMax) : Tiles lo [⟨url, lo, usizeMax⟩]
  | cons {lo hi : Nat} {rest : List (Boundary υ)} (url : υ) (le : lo ≤ hi)
      (later : Tiles (hi + 1) rest) : Tiles lo (⟨url, lo, hi⟩ :: rest)

variable {υ : Type} {urls : List υ} {bs : List (Boundary υ)} {lo n k fuel left right gap i : Nat}

section

variable (tiles : Tiles lo bs)
include tiles

lemma Tiles.lo_le : ∀ b ∈ bs, lo ≤ b.lo ∧ b.lo ≤ b.hi := by
  induction tiles with
  | last url le => simpa using le
  | cons url le _ ih =>
    simp only [forall_mem_cons, le_refl, le, true_and]
    exact fun b mem => ⟨by have := (ih b mem).1; omega, (ih b mem).2⟩

lemma Tiles.pairwise : bs.Pairwise fun a b => a.hi < b.lo := by
  induction tiles with
  | last => exact pairwise_singleton ..
  | cons url le later ih =>
    exact pairwise_cons.mpr ⟨fun b mem => (later.lo_le b mem).1, ih⟩

lemma Tiles.covers (ge : lo ≤ n) (le : n ≤ usizeMax) : ∃ b ∈ bs, b.lo ≤ n ∧ n ≤ b.hi := by
  induction tiles with
  | last url _ => exact ⟨_, mem_singleton_self _, ge, le⟩
  | @cons lo hi rest url _ later ih =>
    by_cases here : n ≤ hi
    · exact ⟨_, mem_cons_self, ge, here⟩
    · obtain ⟨b, mem, covers⟩ := ih (by omega)
      exact ⟨b, mem_cons_of_mem _ mem, covers⟩

/-- The search finds the interval that covers a count. -/
lemma findLoop_eq {b : Boundary υ} (at_ : bs[k]? = some b)
    (covers : b.lo ≤ n ∧ n ≤ b.hi) (ge : left ≤ k) (lt : k < right) (le : right ≤ bs.length)
    (enough : right - left ≤ fuel) : findLoop bs n fuel left right = some b.url := by
  induction fuel generalizing left right with
  | zero => omega
  | succ fuel ih =>
    have mid : left + (right - left) / 2 < bs.length := by omega
    have order : ∀ i j hi (hj : j < bs.length), i < j →
        bs[i].hi < bs[j].lo := pairwise_iff_getElem.mp tiles.pairwise
    have whole := (tiles.lo_le _ (getElem_mem mid)).2
    obtain ⟨lt', rfl⟩ := List.getElem?_eq_some_iff.mp at_
    rw [findLoop, if_pos (by omega), getElem?_eq_getElem mid, bind_some]
    split
    · rename_i before
      refine ih ge (Nat.lt_of_not_le fun past => ?_) (by omega) (by omega)
      rcases Nat.lt_or_eq_of_le past with past | same
      · have := order _ k mid lt' past
        omega
      · simp only [same] at before
        omega
    · split
      · rename_i after
        refine ih (Nat.lt_of_not_le fun before => ?_) lt le (by omega)
        rcases Nat.lt_or_eq_of_le before with before | same
        · have := order k _ lt' mid before
          omega
        · simp only [← same] at after
          omega
      · rcases Nat.lt_trichotomy k (left + (right - left) / 2) with before | same | after
        · have := order k _ lt' mid before
          omega
        · simp only [← same]
        · have := order _ k mid lt' after
          omega

end

lemma initBoundary_tiles (fits : (i + urls.length) * gap ≤ usizeMax) (nonempty : urls ≠ [])
    (ran : initBoundary gap i urls = some bs) : bs.map (·.url) = urls ∧ Tiles (i * gap) bs := by
  induction urls generalizing i bs with
  | nil => exact absurd rfl nonempty
  | cons url rest ih =>
    have le : i * gap ≤ usizeMax := le_trans (Nat.mul_le_mul_right gap (by simp)) fits
    cases rest with
    | nil =>
      cases ran
      exact ⟨rfl, .last url le⟩
    | cons url' rest =>
      obtain ⟨pos, ran⟩ := ite_none_left_eq_some.mp ran
      obtain ⟨bs', ran', rfl⟩ := map_eq_some_iff.mp ran
      obtain ⟨names, tiles⟩ := ih (Nat.add_right_comm .. ▸ fits)
        (cons_ne_nil _ _) ran'
      refine ⟨by simp [names], .cons url ?_ ?_⟩
      · rw [add_mul] at pos ⊢
        have : gap ≠ 0 := by rintro rfl; simp at pos
        omega
      · rwa [Nat.sub_add_cancel (by omega)]

lemma le_upperBound (single lo : Nat) (filled : Option Nat) : lo ≤ upperBound single lo filled := by
  cases filled with
  | none => exact Nat.le_add_right ..
  | some load =>
    rw [upperBound]
    split <;> omega

lemma newBoundary_tiles {single : Nat} {loads : List Nat} (le : lo ≤ usizeMax) (nonempty : urls ≠ [])
    (ran : newBoundary single urls lo loads = some bs) : bs.map (·.url) = urls ∧ Tiles lo bs := by
  induction urls generalizing lo loads bs with
  | nil => exact absurd rfl nonempty
  | cons url rest ih =>
    cases rest with
    | nil =>
      cases loads with
      | nil =>
        cases ran
        exact ⟨rfl, .last url le⟩
      | cons load loads =>
        obtain ⟨filled, -, ran⟩ := bind_eq_some_iff.mp ran
        obtain ⟨-, ran⟩ := ite_none_left_eq_some.mp ran
        cases ran
        exact ⟨rfl, .last url le⟩
    | cons url' rest =>
      obtain ⟨filled, -, ran⟩ := bind_eq_some_iff.mp ran
      obtain ⟨fits, ran⟩ := ite_none_left_eq_some.mp ran
      obtain ⟨bs', ran', rfl⟩ := map_eq_some_iff.mp ran
      obtain ⟨names, tiles⟩ := ih (by omega) (cons_ne_nil _ _) ran'
      exact ⟨by simp [names], .cons url (le_upperBound ..) tiles⟩

namespace Bucket

variable [DecidableEq υ] {b b' : Bucket υ} {op : Op υ}

/-! ### Routing -/

/-- One interval for each worker, and the intervals tile all counts. -/
structure Routed (b : Bucket υ) : Prop where
  lMax : b.lMax ≤ usizeMax
  names : b.boundary.map (·.url) = b.prefillWorkerUrls
  tiles : b.boundary ≠ [] → Tiles 0 b.boundary

lemma Routed.init (le : b.lMax ≤ usizeMax)
    (ran : b.initPrefillWorkerUrls urls = some b') : b'.Routed := by
  dsimp only [initPrefillWorkerUrls] at ran
  split at ran
  · rename_i noUrls
    cases ran
    exact ⟨le, noUrls.symm, absurd rfl⟩
  · rename_i nonempty
    obtain ⟨boundary, built, rfl⟩ := map_eq_some_iff.mp ran
    have fits : (0 + urls.length) * (b.lMax / urls.length) ≤ usizeMax := by
      rw [zero_add]
      exact (Nat.mul_div_le ..).trans le
    obtain ⟨names, tiles⟩ := initBoundary_tiles fits nonempty built
    rw [zero_mul] at tiles
    exact ⟨le_refl _, names, fun _ => tiles⟩

lemma Routed.step (routed : b.Routed) (leaves : op.LeavesOne b)
    (ran : b.step op = some b') : b'.Routed := by
  cases op with
  | init urls | add url => exact .init routed.lMax ran
  | remove url =>
    replace ran : b.removePrefillUrl url = some b' := ran
    dsimp only [removePrefillUrl] at ran
    split at ran
    · rename_i emptied
      cases ran
      have noWorker : b.prefillWorkerUrls = [] := by
        rcases leaves with empty | ⟨u, mem, other⟩
        · exact empty
        · exact absurd (mem_filter.mpr ⟨mem, decide_eq_true other⟩) (emptied ▸ not_mem_nil)
      have names := routed.names
      rw [noWorker, ← emptied] at names
      exact ⟨routed.lMax, names, routed.tiles⟩
    · exact .init routed.lMax ran
  | request r =>
    obtain ⟨-, rfl⟩ := (ite_none_left_eq_some.mp ran).imp_right some.inj
    exact ⟨routed.lMax, routed.names, routed.tiles⟩
  | adjust =>
    have same : b.updateWorkersCnt.Routed := ⟨routed.lMax, routed.names, routed.tiles⟩
    replace ran : b.adjustBoundary = some b' := ran
    dsimp only [adjustBoundary] at ran
    split at ran
    · exact some.inj ran ▸ routed
    split at ran
    · exact some.inj ran ▸ same
    rename_i workers
    obtain ⟨-, ran⟩ := ite_none_left_eq_some.mp ran
    split at ran
    · exact some.inj ran ▸ same
    · obtain ⟨boundary, built, rfl⟩ := map_eq_some_iff.mp ran
      obtain ⟨names, tiles⟩ := newBoundary_tiles (Nat.zero_le _) workers built
      exact ⟨routed.lMax, names, fun _ => tiles⟩

lemma manned_routed : (manned υ).Inductive Routed where
  start := by
    rintro b ⟨period, rfl⟩
    exact ⟨(by decide : 4096 ≤ usizeMax), rfl, absurd rfl⟩
  step := fun _ _ _ routed => routed.step

/-- Every count is routed to a registered worker, as long as there is one. -/
theorem reachable_routes (b : Bucket υ) (reached : (manned υ).Reachable b) :
    b.boundary.map (·.url) = b.prefillWorkerUrls ∧
    (b.prefillWorkerUrls ≠ [] → Tiles 0 b.boundary ∧
      ∀ n ≤ usizeMax, ∃ u ∈ b.prefillWorkerUrls, b.findBoundary n = some u) ∧
    (b.prefillWorkerUrls = [] → ∀ n, b.findBoundary n = none) := by
  have routed := manned_routed.reachable reached
  refine ⟨routed.names, fun workers => ?_, fun noWorkers n => ?_⟩
  · rw [← routed.names, ne_eq, map_eq_nil_iff] at workers
    have tiles := routed.tiles workers
    refine ⟨tiles, fun n le => ?_⟩
    obtain ⟨i, mem, covers⟩ := tiles.covers (Nat.zero_le n) le
    obtain ⟨k, lt, rfl⟩ := getElem_of_mem mem
    refine ⟨_, routed.names ▸ mem_map_of_mem mem, findLoop_eq tiles (getElem?_eq_getElem lt) covers
      (Nat.zero_le k) lt (Nat.le_refl _) (Nat.sub_le ..)⟩
  · rw [← routed.names, map_eq_nil_iff] at noWorkers
    rw [findBoundary, noWorkers]
    rfl

/-- Two workers are added and one of them is removed. -/
theorem reachable_routes_one : ∃ b, (manned Nat).Reachable b ∧ b.prefillWorkerUrls = [8] ∧
    ∃ u ∈ b.prefillWorkerUrls, b.findBoundary 5000 = some u := by
  have first : (manned Nat).Reachable { period := 10 } := .start ⟨10, rfl⟩
  have one := first.step (a := Op.add 7) trivial rfl
  have two := one.step (a := Op.add 8) trivial rfl
  have left := two.step (a := Op.remove 7) (.inr ⟨8, by decide, by decide⟩) rfl
  exact ⟨_, left, rfl, ((reachable_routes _ left).2.1 (by decide)).2 5000 (by decide)⟩

/-- The last worker is gone, and everything is still routed to it. -/
theorem last_worker_kept : ∃ b, (machine Nat).Reachable b ∧ b.prefillWorkerUrls = [] ∧
    b.boundary.length = 1 ∧ b.findBoundary 0 = some 7 := by
  have first : (machine Nat).Reachable { period := 10 } := .start ⟨10, rfl⟩
  have one := first.step (a := Op.add 7) trivial rfl
  have removed := one.step (a := Op.remove 7) trivial rfl
  exact ⟨_, removed, rfl, rfl, rfl⟩

/-! ### Loads -/

/-- The workers after a call that changes them. -/
def Op.workers (b : Bucket υ) : Op υ → List υ
  | .init urls => urls
  | .add url => url :: b.prefillWorkerUrls
  | .remove url => b.prefillWorkerUrls.filter (· ≠ url)
  | .request _ | .adjust => []

/-- The window holds nothing of the workers a change leaves registered, and its load is a
`usize`. -/
def Op.Quiet (b : Bucket υ) : Op υ → Prop
  | .request r => loadOf (b.requestList.dropWhile (b.expired r.timestamp)) + r.charCnt ≤ usizeMax
  | op => ∀ r ∈ b.requestList, r.prefillWorkerUrl ∈ op.workers b → r.charCnt = 0

variable (υ) in
def settled : Machine (Bucket υ) (Op υ) :=
  { machine υ with allowed := fun b op => op.Quiet b }

/-- The load of one worker. -/
def loadAt (rs : List (SequencerRequest υ)) (u : υ) : Nat :=
  loadOf (rs.filter (·.prefillWorkerUrl = u))

/-- The loads kept are those of the requests in the window. -/
structure Balanced (b : Bucket υ) : Prop where
  chars : ∀ u ∈ b.prefillWorkerUrls, b.charsPerUrl u = some (loadAt b.requestList u)
  total : b.loadTotal = loadOf b.requestList

variable {u : υ} {rs rs' : List (SequencerRequest υ)}

omit [DecidableEq υ] in
lemma loadOf_append : loadOf (rs ++ rs') = loadOf rs + loadOf rs' := by
  simp [loadOf]

lemma loadAt_append : loadAt (rs ++ rs') u = loadAt rs u + loadAt rs' u := by
  rw [loadAt, filter_append, loadOf_append]
  rfl

lemma loadAt_singleton (r : SequencerRequest υ) :
    loadAt [r] u = if r.prefillWorkerUrl = u then r.charCnt else 0 := by
  simp only [loadAt, loadOf]
  split <;> simp_all

lemma foldl_discharge (rs : List (SequencerRequest υ)) (chars : υ → Option Nat) :
    rs.foldl discharge chars u = (chars u).map (· - loadAt rs u) := by
  induction rs generalizing chars with
  | nil => simp [loadAt, loadOf]
  | cons r rs ih =>
    rw [foldl_cons, ih, ← singleton_append, loadAt_append, loadAt_singleton, discharge]
    by_cases here : r.prefillWorkerUrl = u
    · subst here
      rw [Function.update_self, if_pos rfl, Option.map_map]
      congr 1
      funext k
      exact Nat.sub_sub ..
    · rw [Function.update_of_ne (Ne.symm here), if_neg here, zero_add]

lemma loadAt_eq_zero (free : ∀ r ∈ rs, r.prefillWorkerUrl = u → r.charCnt = 0) :
    loadAt rs u = 0 := by
  apply List.sum_eq_zero_iff_forall_eq_nat.mpr
  intro n mem
  obtain ⟨r, kept, rfl⟩ := mem_map.mp mem
  exact free r (mem_of_mem_filter kept) (of_decide_eq_true (mem_filter.mp kept).2)

lemma Balanced.init (total : b.loadTotal = loadOf b.requestList)
    (free : ∀ r ∈ b.requestList, r.prefillWorkerUrl ∈ urls → r.charCnt = 0)
    (ran : b.initPrefillWorkerUrls urls = some b') : b'.Balanced := by
  have chars : ∀ u ∈ urls, (if u ∈ urls then some 0 else Option.none)
      = some (loadAt b.requestList u) := fun u mem => by
    rw [if_pos mem, loadAt_eq_zero fun r inWindow here => free r inWindow (here ▸ mem)]
  dsimp only [initPrefillWorkerUrls] at ran
  split at ran
  · cases ran
    exact ⟨chars, total⟩
  · obtain ⟨boundary, -, rfl⟩ := map_eq_some_iff.mp ran
    exact ⟨chars, total⟩

lemma Balanced.request {r : SequencerRequest υ} (balanced : b.Balanced)
    (quiet : (Op.request r).Quiet b) (ran : b.postProcessRequest r = some b') : b'.Balanced := by
  obtain ⟨-, rfl⟩ := (ite_none_left_eq_some.mp ran).imp_right some.inj
  have window := takeWhile_append_dropWhile (p := b.expired r.timestamp) (l := b.requestList)
  refine ⟨fun u mem => ?_, ?_⟩
  · have held := balanced.chars u mem
    rw [← window, loadAt_append] at held
    simp only [foldl_discharge, loadAt_append, loadAt_singleton]
    by_cases here : r.prefillWorkerUrl = u
    · subst here
      rw [Function.update_self, held, map_some, if_pos rfl, getD_some]
      congr 1
      omega
    · rw [Function.update_of_ne (Ne.symm here), held, map_some, if_neg here]
      congr 1
      omega
  · have total := balanced.total
    rw [← window] at total
    have one : loadOf [r] = r.charCnt := by simp [loadOf]
    simp only [loadOf_append, total, Nat.add_sub_cancel_left]
    exact min_eq_left quiet

lemma Balanced.step (balanced : b.Balanced) (quiet : op.Quiet b)
    (ran : b.step op = some b') : b'.Balanced := by
  cases op with
  | init urls => exact .init balanced.total quiet ran
  | add url =>
    refine .init balanced.total (fun r mem here => quiet r mem ?_) ran
    split at here
    · exact mem_cons_of_mem _ here
    · rcases mem_append.mp here with old | new
      · exact mem_cons_of_mem _ old
      · exact mem_singleton.mp new ▸ mem_cons_self
  | remove url =>
    replace ran : b.removePrefillUrl url = some b' := ran
    dsimp only [removePrefillUrl] at ran
    split at ran
    · rename_i emptied
      cases ran
      exact ⟨fun u mem => absurd mem (emptied ▸ not_mem_nil), balanced.total⟩
    · exact .init balanced.total quiet ran
  | request r => exact balanced.request quiet ran
  | adjust =>
    have same : b.updateWorkersCnt.Balanced := by
      refine ⟨fun u mem => ?_, balanced.total⟩
      simp only [updateWorkersCnt, balanced.chars u mem]
      exact if_pos (.inr mem)
    replace ran : b.adjustBoundary = some b' := ran
    dsimp only [adjustBoundary] at ran
    split at ran
    · exact some.inj ran ▸ balanced
    split at ran
    · exact some.inj ran ▸ same
    obtain ⟨-, ran⟩ := ite_none_left_eq_some.mp ran
    split at ran
    · exact some.inj ran ▸ same
    · obtain ⟨boundary, -, rfl⟩ := map_eq_some_iff.mp ran
      exact ⟨same.chars, same.total⟩

lemma settled_balanced : (settled υ).Inductive Balanced where
  start := by
    rintro b ⟨period, rfl⟩
    exact ⟨fun u mem => absurd mem not_mem_nil, rfl⟩
  step := fun _ _ _ balanced => balanced.step

/-- The loads kept are those of the window. -/
theorem reachable_balanced (b : Bucket υ) (reached : (settled υ).Reachable b) :
    (∀ u ∈ b.prefillWorkerUrls, b.charsPerUrl u =
      some ((b.requestList.filter (·.prefillWorkerUrl = u)).map (·.charCnt)).sum) ∧
    b.loadTotal = (b.requestList.map (·.charCnt)).sum :=
  have balanced := settled_balanced.reachable reached
  ⟨balanced.chars, balanced.total⟩

/-- The first of two requests leaves the window. -/
theorem reachable_balanced_expired : ∃ b, (settled Nat).Reachable b ∧
    b.requestList.length = 1 ∧ b.charsPerUrl 7 = some 3 ∧ b.loadTotal = 3 := by
  have first : (settled Nat).Reachable { period := 10 } := .start ⟨10, rfl⟩
  have worker := first.step (a := Op.add 7) (fun r mem => absurd mem not_mem_nil) rfl
  have one := worker.step (a := Op.request ⟨0, 5, 100, 7⟩) (by decide : 5 ≤ usizeMax) rfl
  have two := one.step (a := Op.request ⟨1, 3, 111, 7⟩) (by decide : 3 ≤ usizeMax) rfl
  have balanced := reachable_balanced _ two
  exact ⟨_, two, rfl, balanced.1 7 (by decide), balanced.2⟩

/-- Adding a worker clears the load of another while its request is in the window. -/
theorem load_forgotten : ∃ b, (machine Nat).Reachable b ∧ 7 ∈ b.prefillWorkerUrls ∧
    b.charsPerUrl 7 = some 0 ∧ b.loadTotal = 5 ∧
    ((b.requestList.filter (·.prefillWorkerUrl = 7)).map (·.charCnt)).sum = 5 := by
  have first : (machine Nat).Reachable { period := 10 } := .start ⟨10, rfl⟩
  have worker := first.step (a := Op.add 7) trivial rfl
  have one := worker.step (a := Op.request ⟨0, 5, 100, 7⟩) trivial rfl
  have two := one.step (a := Op.add 8) trivial rfl
  exact ⟨_, two, by decide, rfl, rfl, rfl⟩

end Bucket

end Sglang.Gateway
