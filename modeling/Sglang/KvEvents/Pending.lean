/-
# Prefixes routed but not yet confirmed

`PendingPrefixes` credits a worker with the blocks of a prompt the router just sent it, until a
TTL runs out. A queue holds one entry for each record and is trimmed from its front when entries
are due or the queue is over its cap.

* `PendingPrefixes.record` — credit a prompt, then trim.
* `trim` — drop what expired, and the oldest entries while the queue is over the cap.
* `InOrder` — every entry stands behind those of the blocks that follow its own, so that the cap
  cuts prompts from their ends.
* `reachable_walkable` — one entry a record in every run, and prefixes that can be walked in every
  run where a prompt that takes the queue over the cap overlaps nothing and finds the queue in
  order; `walk_broken` has a run over the cap whose prefix has a hole.

The owners of all blocks are one list, a record for each block and worker: their order inside a
block is not read. Times are milliseconds.
-/

import Mathlib.Algebra.Ring.Nat
import Mathlib.Data.List.Nodup
import Mathlib.Data.List.Perm.Basic
import Mathlib.Data.List.TakeWhile
import Sglang.Lib.Machine

namespace Sglang.KvEvents

open Sglang.Lib List

/-- A worker credited with a block until `expiry`. -/
structure Record (η υ : Type) where
  hash : η
  url : υ
  expiry : Nat

def Record.key {η υ : Type} (r : Record η υ) : η × υ := (r.hash, r.url)

/-- An entry of the queue has the expiry its record had when it was queued. -/
structure State (η υ : Type) where
  byHash : List (Record η υ)
  fifo : List (Record η υ)

structure PendingPrefixes (η υ : Type) where
  ttlMs : Nat
  state : State η υ

variable {η υ : Type} [DecidableEq η] [DecidableEq υ]

/-- The record of a worker for a block. -/
def owner (byHash : List (Record η υ)) (key : η × υ) : Option (Record η υ) :=
  byHash.find? fun r => decide (r.key = key)

/-- `State::trim`; the queue is over the cap unless `rest.length < cap`. An entry that is due is
queued again if its record was refreshed since, so every round drops an entry or leaves one fewer
that is due. -/
def trim (cap now : Nat) (byHash : List (Record η υ)) : List (Record η υ) → State η υ
  | [] => ⟨byHash, []⟩
  | front :: rest =>
    if now < front.expiry ∧ rest.length < cap then ⟨byHash, front :: rest⟩
    else
      match owner byHash front.key with
      | none => trim cap now byHash rest
      | some r =>
        if now < r.expiry ∧ rest.length < cap then
          trim cap now byHash (rest ++ [{ front with expiry := r.expiry }])
        else trim cap now (byHash.eraseP fun r => decide (r.key = front.key)) rest
termination_by fifo => fifo.length + fifo.countP fun e => decide (e.expiry ≤ now)
decreasing_by
  · simp only [List.length_cons, List.countP_cons]
    omega
  · have due : front.expiry ≤ now := by omega
    have later : ¬ r.expiry ≤ now := by omega
    simp [due, later]
  · simp only [List.length_cons, List.countP_cons]
    omega

namespace State

/-- `fetch_max` on the expiry. -/
def refresh (url : υ) (expiry : Nat) (s : State η υ) (hash : η) : State η υ :=
  { s with byHash := s.byHash.map fun r =>
      if r.key = (hash, url) then { r with expiry := max r.expiry expiry } else r }

def credit (url : υ) (expiry : Nat) (s : State η υ) (hash : η) : State η υ :=
  match owner s.byHash (hash, url) with
  | some _ => s.refresh url expiry hash
  | none => ⟨s.byHash ++ [⟨hash, url, expiry⟩], s.fifo ++ [⟨hash, url, expiry⟩]⟩

/-- How many leading blocks of a prompt are known already. -/
def known (s : State η υ) (url : υ) (hashes : List η) : Nat :=
  (hashes.takeWhile fun hash => (owner s.byHash (hash, url)).isSome).length

/-- The known blocks are refreshed and the others credited, the last one first. -/
def credited (s : State η υ) (url : υ) (expiry : Nat) (hashes : List η) : State η υ :=
  let known := s.known url hashes
  (hashes.drop known).reverse.foldl (credit url expiry)
    ((hashes.take known).foldl (refresh url expiry) s)

end State

namespace PendingPrefixes

def enable (p : PendingPrefixes η υ) (ttlMs : Nat) : PendingPrefixes η υ := { p with ttlMs }

/-- `saturating_add` of `u64`. -/
def expiry (p : PendingPrefixes η υ) (now : Nat) : Nat := min (now + p.ttlMs) (2 ^ 64 - 1)

/-- `record_at`; a prompt that is known already is only refreshed. -/
def record (cap : Nat) (p : PendingPrefixes η υ) (url : υ) (hashes : List η) (now : Nat) :
    PendingPrefixes η υ :=
  if p.ttlMs = 0 then p
  else
    let state := p.state.credited url (p.expiry now) hashes
    if p.state.known url hashes = hashes.length then { p with state }
    else { p with state := trim cap now state.byHash state.fifo }

def forgetWorker (p : PendingPrefixes η υ) (url : υ) : PendingPrefixes η υ :=
  if p.state.fifo = [] then p
  else { p with state :=
    { byHash := p.state.byHash.filter fun r => decide (r.url ≠ url)
      fifo := p.state.fifo.filter fun r => decide (r.url ≠ url) } }

end PendingPrefixes

/-! ### One entry for each record -/

/-- A worker has one record for a block, and the queue one entry for each record. -/
structure Queued (byHash fifo : List (Record η υ)) : Prop where
  keys : (byHash.map Record.key).Nodup
  same : (fifo.map Record.key).Perm (byHash.map Record.key)

variable {byHash fifo rest : List (Record η υ)} {s s' : State η υ} {r front : Record η υ}
  {h p : η} {url : υ} {expiry cap now now' : Nat} {key : η × υ} {hashes hs hs' : List η}

lemma mem_of_owner (found : owner byHash key = some r) : r ∈ byHash ∧ r.key = key :=
  ⟨mem_of_find?_eq_some found, of_decide_eq_true (find?_some found :)⟩

lemma owner_eq_none : owner byHash key = none ↔ key ∉ byHash.map Record.key := by
  simp [owner]

section

variable (queued : Queued byHash (front :: rest))
include queued

/-- The dropped record is the one the entry was queued for. -/
lemma Queued.dropped : ∃ r, r.key = front.key ∧
      (r :: byHash.eraseP fun r => decide (r.key = front.key)).Perm byHash := by
  obtain ⟨x, mem, named⟩ := mem_map.mp (queued.same.subset mem_cons_self)
  obtain ⟨r, before, after, -, found, eq, left⟩ :=
    exists_of_eraseP (p := fun r => decide (r.key = front.key)) mem (by simpa using named)
  exact ⟨r, of_decide_eq_true found, by
    rw [left, eq]
    exact perm_middle.symm⟩

lemma Queued.drop : Queued (byHash.eraseP fun r => decide (r.key = front.key)) rest := by
  obtain ⟨r, named, perm⟩ := queued.dropped
  have keys := perm.map Record.key
  rw [map_cons, named] at keys
  exact ⟨(nodup_cons.mp (keys.nodup_iff.mpr queued.keys)).2, (queued.same.trans keys.symm).cons_inv⟩

omit [DecidableEq η] [DecidableEq υ] in
lemma Queued.requeue (deadline : Nat) :
    Queued byHash (rest ++ [{ front with expiry := deadline }]) := by
  refine ⟨queued.keys, .trans ?_ queued.same⟩
  rw [map_append]
  exact perm_append_singleton front.key _

end

/-- Trimming drops records and nothing else. -/
lemma Queued.trimmed (cap now : Nat) (queued : Queued byHash fifo) :
    Queued (trim cap now byHash fifo).byHash (trim cap now byHash fifo).fifo ∧
      (trim cap now byHash fifo).byHash ⊆ byHash := by
  fun_induction trim cap now byHash fifo with
  | case1 | case2 => exact ⟨queued, .refl _⟩
  | case3 _ front _ _ unowned =>
    exact absurd (queued.same.subset mem_cons_self) (owner_eq_none.mp unowned)
  | case4 _ front rest _ r _ _ ih => exact ih (queued.requeue r.expiry)
  | case5 _ front rest _ r _ _ ih =>
    obtain ⟨kept, less⟩ := ih queued.drop
    exact ⟨kept, fun x mem => mem_of_mem_eraseP (less mem)⟩

lemma length_trim (cap now : Nat) (byHash fifo : List (Record η υ)) :
    (trim cap now byHash fifo).fifo.length ≤ cap := by
  fun_induction trim cap now byHash fifo with
  | case1 => exact Nat.zero_le _
  | case2 _ front rest stays => exact stays.2
  | _ => assumption

/-- Within the cap only what expired is dropped. -/
lemma Queued.trim_spares (queued : Queued byHash fifo) (fits : fifo.length ≤ cap)
    (mem : r ∈ byHash) (live : now < r.expiry) : r ∈ (trim cap now byHash fifo).byHash := by
  fun_induction trim cap now byHash fifo with
  | case1 => exact mem
  | case2 => exact mem
  | case3 _ front _ _ unowned =>
    exact absurd (queued.same.subset mem_cons_self) (owner_eq_none.mp unowned)
  | case4 _ front rest _ r' _ _ ih => exact ih (queued.requeue r'.expiry) (by simpa using fits) mem
  | case5 byHash front rest _ r' owned expired ih =>
    apply ih queued.drop (Nat.le_of_succ_le fits)
    obtain ⟨x, named, perm⟩ := queued.dropped
    apply (mem_cons.mp (perm.symm.subset mem)).resolve_left
    intro gone
    obtain ⟨mem', named'⟩ := mem_of_owner owned
    have same : r = r' := inj_on_of_nodup_map queued.keys mem mem' (by
      rw [gone, named, named'])
    exact expired ⟨same ▸ live, fits⟩

omit [DecidableEq η] in
lemma Queued.forget (queued : Queued byHash fifo) (url : υ) :
    Queued (byHash.filter fun r => decide (r.url ≠ url))
      (fifo.filter fun r => decide (r.url ≠ url)) := by
  have moved : ∀ l : List (Record η υ), (l.filter fun r => decide (r.url ≠ url)).map Record.key =
      (l.map Record.key).filter fun k => decide (k.2 ≠ url) := fun l => by
    rw [filter_map]
    rfl
  constructor
  · rw [moved]
    exact queued.keys.filter _
  · rw [moved, moved]
    exact queued.same.filter _

/-! ### Crediting a prompt -/

/-- What crediting the blocks `hs` does: records stay, at least as long as before, every block of
`hs` has one until `expiry` at least, and only these are new or extended. -/
structure Credited (url : υ) (expiry : Nat) (hs : List η) (s s' : State η υ) : Prop where
  queued : Queued s'.byHash s'.fifo
  kept : ∀ r ∈ s.byHash, ∃ r' ∈ s'.byHash, r'.key = r.key ∧ r.expiry ≤ r'.expiry
  paid : ∀ h ∈ hs, ∃ r ∈ s'.byHash, r.key = (h, url) ∧ expiry ≤ r.expiry
  old : ∀ r ∈ s'.byHash, r ∈ s.byHash ∨ ∃ h ∈ hs, r = ⟨h, url, expiry⟩

omit [DecidableEq η] [DecidableEq υ] in
lemma Credited.refl (queued : Queued s.byHash s.fifo) : Credited url expiry [] s s where
  queued := queued
  kept r mem := ⟨r, mem, rfl, le_refl _⟩
  paid _ mem := absurd mem not_mem_nil
  old _ mem := .inl mem

omit [DecidableEq η] [DecidableEq υ] in
lemma Credited.trans {t : State η υ} (first : Credited url expiry hs s s')
    (second : Credited url expiry hs' s' t) : Credited url expiry (hs ++ hs') s t where
  queued := second.queued
  kept r mem := by
    obtain ⟨r₁, mem₁, same₁, le₁⟩ := first.kept r mem
    obtain ⟨r₂, mem₂, same₂, le₂⟩ := second.kept r₁ mem₁
    exact ⟨r₂, mem₂, same₂.trans same₁, le_trans le₁ le₂⟩
  paid h mem := by
    rcases mem_append.mp mem with early | late
    · obtain ⟨r₁, mem₁, same₁, le₁⟩ := first.paid h early
      obtain ⟨r₂, mem₂, same₂, le₂⟩ := second.kept r₁ mem₁
      exact ⟨r₂, mem₂, same₂.trans same₁, le_trans le₁ le₂⟩
    · exact second.paid h late
  old r mem := by
    rcases second.old r mem with before | ⟨h, late, rfl⟩
    · exact (first.old r before).imp_right fun ⟨h, early, eq⟩ =>
        ⟨h, mem_append_left _ early, eq⟩
    · exact .inr ⟨h, mem_append_right _ late, rfl⟩

section

variable (queued : Queued s.byHash s.fifo)
include queued

lemma Credited.refresh (expiry : Nat) (here : (h, url) ∈ s.byHash.map Record.key) :
    Credited url expiry [h] s (s.refresh url expiry h) := by
  have keys : (s.refresh url expiry h).byHash.map Record.key = s.byHash.map Record.key := by
    rw [State.refresh, map_map]
    apply map_congr_left
    intro r _
    rw [Function.comp_apply, apply_ite Record.key]
    exact ite_self _
  refine ⟨⟨keys ▸ queued.keys, keys ▸ queued.same⟩, fun r mem => ?_, fun h' mem => ?_, ?_⟩
  · refine ⟨_, mem_map_of_mem mem, ?_, ?_⟩ <;> split
    · rfl
    · rfl
    · exact le_max_left ..
    · exact le_refl _
  · obtain rfl := mem_singleton.mp mem
    obtain ⟨r, mem, named⟩ := mem_map.mp here
    refine ⟨_, mem_map_of_mem mem, ?_⟩
    rw [if_pos named]
    exact ⟨named, le_max_right ..⟩
  · rintro r mem
    obtain ⟨x, mem', rfl⟩ := mem_map.mp mem
    split
    · rename_i named
      rcases le_total expiry x.expiry with le | le
      · rw [max_eq_left le]
        exact .inl mem'
      · rw [max_eq_right le]
        exact .inr ⟨h, mem_singleton_self h, by
          rw [Record.key, Prod.mk.injEq] at named
          rw [named.1, named.2]⟩
    · exact .inl mem'

lemma Credited.credit : Credited url expiry [h] s (s.credit url expiry h) := by
  unfold State.credit
  split
  · rename_i r found
    obtain ⟨mem, named⟩ := mem_of_owner found
    exact .refresh queued expiry (mem_map.mpr ⟨r, mem, named⟩)
  rename_i unowned
  have grown : ∀ l, ((l ++ [.mk h url expiry]).map Record.key).Perm
      ((h, url) :: l.map Record.key) := fun l => by
    rw [map_append]
    exact perm_append_singleton (h, url) _
  refine ⟨⟨(grown _).nodup_iff.mpr (nodup_cons.mpr ⟨owner_eq_none.mp unowned, queued.keys⟩),
    (grown _).trans ((queued.same.cons _).trans (grown _).symm)⟩, fun r mem => ?_, fun h' mem => ?_,
    fun r mem => ?_⟩
  · exact ⟨r, mem_append_left _ mem, rfl, le_refl _⟩
  · obtain rfl := mem_singleton.mp mem
    exact ⟨_, mem_append_right _ (mem_singleton_self _), rfl, le_refl _⟩
  · exact (mem_append.mp mem).imp_right fun new =>
      ⟨h, mem_singleton_self h, mem_singleton.mp new⟩

lemma Credited.credits (hs : List η) :
    Credited url expiry hs s (hs.foldl (State.credit url expiry) s) := by
  induction hs generalizing s with
  | nil => exact .refl queued
  | cons h hs ih =>
    have first : Credited url expiry [h] s (s.credit url expiry h) := .credit queued
    exact first.trans (ih first.queued)

/-- The leading blocks that are known are still known when their turn comes. -/
lemma Credited.refreshes (hs : List η) (here : ∀ h ∈ hs, (h, url) ∈ s.byHash.map Record.key) :
    Credited url expiry hs s (hs.foldl (State.refresh url expiry) s) := by
  induction hs generalizing s with
  | nil => exact .refl queued
  | cons h hs ih =>
    have first := Credited.refresh queued expiry (here h mem_cons_self)
    refine first.trans (ih first.queued fun h' mem => ?_)
    obtain ⟨r, stored, named⟩ := mem_map.mp (here h' (mem_cons_of_mem _ mem))
    obtain ⟨r', stored', named', -⟩ := first.kept r stored
    exact mem_map.mpr ⟨r', stored', named'.trans named⟩

lemma Credited.all (url : υ) (expiry : Nat) (hashes : List η) :
    ∃ hs, (∀ h, h ∈ hs ↔ h ∈ hashes) ∧ Credited url expiry hs s (s.credited url expiry hashes) := by
  refine ⟨hashes.take (s.known url hashes) ++ (hashes.drop (s.known url hashes)).reverse,
    fun h => ?_, ?_⟩
  · rw [mem_append, mem_reverse, ← mem_append, take_append_drop]
  · have first : Credited url expiry _ s ((hashes.take (s.known url hashes)).foldl
        (.refresh url expiry) s) := .refreshes queued _ fun h mem => ?_
    · exact first.trans (.credits first.queued _)
    rw [State.known, ← prefix_iff_eq_take.mp <| takeWhile_prefix _] at mem
    by_contra missing
    have found := mem_takeWhile_imp mem
    rw [owner_eq_none.mpr missing] at found
    cases found

end

/-- Only blocks that are not known take up room. -/
lemma length_credited (s : State η υ) (url : υ) (expiry : Nat) (hashes : List η) :
    (s.credited url expiry hashes).fifo.length ≤
      s.fifo.length + (hashes.length - s.known url hashes) := by
  have refreshed : ∀ (hs : List η) (s : State η υ),
      (hs.foldl (State.refresh url expiry) s).fifo = s.fifo := fun hs s =>
    foldlRecOn (motive := fun s' : State η υ => s'.fifo = s.fifo) hs _ rfl fun _ same _ _ => same
  have credited : ∀ (hs : List η) (s : State η υ),
      (hs.foldl (State.credit url expiry) s).fifo.length ≤ s.fifo.length + hs.length := by
    intro hs
    induction hs with
    | nil => exact fun s => Nat.le_refl _
    | cons h hs ih =>
      intro s
      have first : (s.credit url expiry h).fifo.length ≤ s.fifo.length + 1 := by
        unfold State.credit
        split
        · exact Nat.le_succ _
        · exact (length_append ..).le
      have rest := ih (s.credit url expiry h)
      rw [foldl_cons, length_cons]
      omega
  simpa only [State.credited, refreshed, length_reverse, length_drop] using
    credited (hashes.drop (s.known url hashes)).reverse
      ((hashes.take (s.known url hashes)).foldl (State.refresh url expiry) s)

/-- A call leaves the records as they were, credits the prompt, or trims after crediting it. -/
lemma PendingPrefixes.record_rule {P : State η υ → Prop} {p : PendingPrefixes η υ}
    (same : P p.state) (credited : P (p.state.credited url (p.expiry now) hashes))
    (trimmed : P (trim cap now (p.state.credited url (p.expiry now) hashes).byHash
      (p.state.credited url (p.expiry now) hashes).fifo)) :
    P (p.record cap url hashes now).state := by
  unfold PendingPrefixes.record
  split
  · exact same
  · split
    · exact credited
    · exact trimmed

/-! ### Prefixes that can be walked -/

variable {follows : η → Option η}

/-- Hashes that chain: each names the one before it. -/
def Chains (follows : η → Option η) : Option η → List η → Prop
  | _, [] => True
  | last, h :: hs => follows h = last ∧ Chains follows (some h) hs

omit [DecidableEq η] in
lemma Chains.follows_mem {last : Option η} (chains : Chains follows last hashes)
    (mem : h ∈ hashes) (before : follows h = some p) : p ∈ hashes ∨ last = some p := by
  induction hashes generalizing last with
  | nil => cases mem
  | cons first hs ih =>
    rcases mem_cons.mp mem with rfl | later
    · exact .inr (chains.1 ▸ before)
    · rcases ih chains.2 later with inside | here
      · exact .inl (mem_cons_of_mem _ inside)
      · exact .inl (Option.some.inj here ▸ mem_cons_self)

omit [DecidableEq η] in
lemma Chains.follows_ne_none (chains : Chains follows (some p) hashes) (mem : h ∈ hashes) :
    follows h ≠ none := by
  induction hashes generalizing p with
  | nil => cases mem
  | cons first hs ih =>
    rcases mem_cons.mp mem with rfl | later
    · rw [chains.1]
      exact nofun
    · exact ih chains.2 later

omit [DecidableEq η] in
/-- No block of a prompt follows a later one. -/
lemma Chains.pairwise {last : Option η} (chains : Chains follows last hashes)
    (fresh : ∀ h ∈ hashes, last ≠ some h) : hashes.Pairwise fun h h' => follows h ≠ some h' := by
  induction hashes generalizing last with
  | nil => exact .nil
  | cons h hs ih =>
    obtain ⟨before, later⟩ := chains
    have once : h ∉ hs := by
      intro again
      cases last with
      | none => exact later.follows_ne_none again before
      | some p =>
        rcases later.follows_mem again before with inside | here
        · exact fresh p (mem_cons_of_mem _ inside) rfl
        · exact fresh h mem_cons_self here.symm
    refine pairwise_cons.mpr ⟨fun h' mem => before ▸ fresh h' (mem_cons_of_mem _ mem), ih later ?_⟩
    rintro h' mem ⟨⟩
    exact once mem

/-- No entry stands before one of the same worker for a block that follows its own. -/
def InOrder (follows : η → Option η) (fifo : List (Record η υ)) : Prop :=
  fifo.Pairwise fun e e' => e'.url = e.url → follows e'.hash ≠ some e.hash

/-- Blocks that follow none of the queue, and none of those credited before them. -/
lemma InOrder.credits {s : State η υ} (order : InOrder follows s.fifo)
    (apart : ∀ h ∈ hs, ∀ e ∈ s.fifo, e.url = url → follows h ≠ some e.hash)
    (pairs : hs.Pairwise fun h h' => follows h' ≠ some h) :
    InOrder follows (hs.foldl (State.credit url expiry) s).fifo := by
  induction hs generalizing s with
  | nil => exact order
  | cons h hs ih =>
    obtain ⟨first, pairs⟩ := pairwise_cons.mp pairs
    have later := fun h' mem => apart h' (mem_cons_of_mem h mem)
    rw [foldl_cons, State.credit]
    split
    · exact ih order later pairs
    refine ih (pairwise_append.mpr ⟨order, pairwise_singleton .., fun e mem e' new same => ?_⟩)
      (fun h' mem e inside => ?_) pairs
    · obtain rfl := mem_singleton.mp new
      exact apart h mem_cons_self e mem same.symm
    · rcases mem_append.mp inside with old | new
      · exact later h' mem e old
      · rw [mem_singleton.mp new]
        exact fun _ => first h' mem

/-- A record that lives after `now` lives no longer than the one of the block before. -/
def Rising (follows : η → Option η) (now : Nat) (byHash : List (Record η υ)) : Prop :=
  ∀ r ∈ byHash, now < r.expiry → ∀ p, follows r.hash = some p →
    ∃ r' ∈ byHash, r'.key = (p, r.url) ∧ r.expiry ≤ r'.expiry

section

variable (rising : Rising follows now byHash)
include rising

omit [DecidableEq η] [DecidableEq υ] in
lemma Rising.later (le : now ≤ now') : Rising follows now' byHash :=
  fun r mem live => rising r mem (lt_of_le_of_lt le live)

omit rising in
omit [DecidableEq η] [DecidableEq υ] in
lemma Rising.credited (rising : Rising follows now s.byHash)
    (credited : Credited url expiry hs s s')
    (closed : ∀ h ∈ hs, ∀ p, follows h = some p → p ∈ hs) : Rising follows now s'.byHash := by
  intro r mem live p before
  rcases credited.old r mem with stored | ⟨h, inside, rfl⟩
  · obtain ⟨r₁, mem₁, same₁, le₁⟩ := rising r stored live p before
    obtain ⟨r₂, mem₂, same₂, le₂⟩ := credited.kept r₁ mem₁
    exact ⟨r₂, mem₂, same₂.trans same₁, le_trans le₁ le₂⟩
  · exact credited.paid p (closed h inside p before)

lemma Rising.trim (queued : Queued byHash fifo)
    (fits : fifo.length ≤ cap) : Rising follows now (trim cap now byHash fifo).byHash := by
  intro r mem live p before
  obtain ⟨r', mem', same, le⟩ := rising r ((queued.trimmed cap now).2 mem) live p before
  exact ⟨r', queued.trim_spares fits mem' (lt_of_lt_of_le live le), same, le⟩

/-- Over the cap, what is dropped from a queue in order is a block that nothing left follows. -/
lemma Rising.trim_inOrder (queued : Queued byHash fifo) (order : InOrder follows fifo) :
    Rising follows now (KvEvents.trim cap now byHash fifo).byHash := by
  induction fifo generalizing byHash with
  | nil => exact rising.trim queued (Nat.zero_le _)
  | cons front rest ih =>
    by_cases fits : (front :: rest).length ≤ cap
    · exact rising.trim queued fits
    obtain ⟨first, order⟩ := pairwise_cons.mp order
    have full : ¬ rest.length < cap := fits
    obtain ⟨r, found⟩ : ∃ r, owner byHash front.key = some r := Option.ne_none_iff_exists'.mp
      fun missing => owner_eq_none.mp missing (queued.same.subset mem_cons_self)
    rw [KvEvents.trim, if_neg fun both => full both.2, found]
    dsimp only
    rw [if_neg fun both => full both.2]
    refine ih (fun r mem live p before => ?_) queued.drop order
    obtain ⟨r', mem', same, le⟩ := rising r (mem_of_mem_eraseP mem) live p before
    obtain ⟨x, named, perm⟩ := queued.dropped
    refine ⟨r', (mem_cons.mp (perm.symm.subset mem')).resolve_left fun gone => ?_, same, le⟩
    -- the entry of the record behind would stand behind the front
    obtain ⟨e, behind, key⟩ := mem_map.mp (queued.drop.same.symm.subset (mem_map_of_mem mem))
    have named_front : (p, r.url) = front.key := same.symm.trans (gone ▸ named)
    rw [Record.key, Record.key, Prod.mk.injEq] at key
    rw [Record.key, Prod.mk.injEq] at named_front
    exact first e behind (key.2.trans named_front.2)
      (by rw [key.1, before, named_front.1])

omit [DecidableEq η] in
lemma Rising.forget (url : υ) :
    Rising follows now (byHash.filter fun r => decide (r.url ≠ url)) := by
  intro r mem live p before
  obtain ⟨stored, away⟩ := mem_filter.mp mem
  obtain ⟨r', mem', same, le⟩ := rising r stored live p before
  have named : r'.url = r.url := congrArg Prod.snd same
  exact ⟨r', mem_filter.mpr ⟨mem', by rwa [named]⟩, same, le⟩

end

/-! ### Runs -/

/-- The records, and the time of the last call. -/
structure Clocked (η υ : Type) where
  pending : PendingPrefixes η υ
  now : Nat

inductive Op (η υ : Type)
  | enable (ttlMs : Nat)
  | record (url : υ) (hashes : List η) (now : Nat)
  | trim (now : Nat)
  | forgetWorker (url : υ)

namespace Op

/-- Time does not run back, and a prompt is a chain from its first block. -/
def Allowed (follows : η → Option η) (s : Clocked η υ) : Op η υ → Prop
  | .record _ hashes now => s.now ≤ now ∧ Chains follows none hashes
  | .trim now => s.now ≤ now
  | _ => True

/-- There is room for what a prompt adds, or it overlaps no record and the queue is in order: no
entry stands where it was before the prompt it belongs to was continued. -/
def Fits (follows : η → Option η) (cap : Nat) (s : Clocked η υ) : Op η υ → Prop
  | .record url hashes _ =>
    s.pending.state.fifo.length + (hashes.length - s.pending.state.known url hashes) ≤ cap ∨
      InOrder follows s.pending.state.fifo ∧
        ∀ hash ∈ hashes, owner s.pending.state.byHash (hash, url) = none
  | _ => True

def run (cap : Nat) (s : Clocked η υ) : Op η υ → Clocked η υ
  | .enable ttlMs => ⟨s.pending.enable ttlMs, s.now⟩
  | .record url hashes now => ⟨s.pending.record cap url hashes now, now⟩
  | .trim now =>
    let state := s.pending.state
    ⟨{ s.pending with state := KvEvents.trim cap now state.byHash state.fifo }, now⟩
  | .forgetWorker url => ⟨s.pending.forgetWorker url, s.now⟩

end Op

namespace Clocked

def fresh : Clocked η υ := ⟨⟨0, ⟨[], []⟩⟩, 0⟩

def Queued (s : Clocked η υ) : Prop :=
  KvEvents.Queued s.pending.state.byHash s.pending.state.fifo

/-- The worker has a record for the block that is not expired at `t`. -/
def Unexpired (s : Clocked η υ) (t : Nat) (h : η) (u : υ) : Prop :=
  ∃ r ∈ s.pending.state.byHash, r.key = (h, u) ∧ t < r.expiry

instance (s : Clocked η υ) (t : Nat) (h : η) (u : υ) : Decidable (s.Unexpired t h u) :=
  inferInstanceAs (Decidable (∃ r ∈ _, _))

end Clocked

def machine (υ : Type) [DecidableEq υ] (follows : η → Option η) (cap : Nat) :
    Machine (Clocked η υ) (Op η υ) where
  start s := s = .fresh
  allowed := Op.Allowed follows
  step s op := some (op.run cap s)

/-- The runs in which every prompt fits. -/
def fittingMachine (υ : Type) [DecidableEq υ] (follows : η → Option η) (cap : Nat) :
    Machine (Clocked η υ) (Op η υ) :=
  { machine υ follows cap with
    allowed := fun s op => op.Allowed follows s ∧ op.Fits follows cap s }

variable {t : Clocked η υ} {op : Op η υ}

lemma Clocked.Queued.run (queued : t.Queued) (cap : Nat) (op : Op η υ) : (op.run cap t).Queued := by
  cases op with
  | enable ttlMs => exact queued
  | record url hashes now =>
    obtain ⟨hs, -, credited⟩ := Credited.all queued url (t.pending.expiry now) hashes
    exact PendingPrefixes.record_rule (P := fun s => KvEvents.Queued s.byHash s.fifo) queued
      credited.queued (credited.queued.trimmed cap now).1
  | trim now => exact (KvEvents.Queued.trimmed cap now queued).1
  | forgetWorker url =>
    unfold Op.run PendingPrefixes.forgetWorker
    dsimp only
    split
    · exact queued
    · exact .forget queued url

/-- The queue is never left over the cap. -/
lemma Clocked.length_run (within : t.pending.state.fifo.length ≤ cap) (op : Op η υ) :
    (op.run cap t).pending.state.fifo.length ≤ cap := by
  cases op with
  | enable ttlMs => exact within
  | record url hashes now =>
    unfold Op.run PendingPrefixes.record
    dsimp only
    split
    · exact within
    split
    · rename_i known
      have added := length_credited t.pending.state url (t.pending.expiry now) hashes
      dsimp only
      omega
    · exact length_trim ..
  | trim now => exact length_trim ..
  | forgetWorker url =>
    unfold Op.run PendingPrefixes.forgetWorker
    dsimp only
    split
    · exact within
    · exact (length_filter_le ..).trans within

lemma Rising.run (rising : Rising follows t.now t.pending.state.byHash) (queued : t.Queued)
    (within : t.pending.state.fifo.length ≤ cap) (allowed : op.Allowed follows t)
    (fits : op.Fits follows cap t) :
    Rising follows (op.run cap t).now (op.run cap t).pending.state.byHash := by
  cases op with
  | enable ttlMs => exact rising
  | record url hashes now =>
    obtain ⟨le, chains⟩ := allowed
    obtain ⟨hs, all, credited⟩ := Credited.all queued url (t.pending.expiry now) hashes
    have inside : ∀ h ∈ hashes, ∀ p, follows h = some p → p ∈ hashes := fun h mem p before =>
      (chains.follows_mem mem before).resolve_right nofun
    have grown := (rising.later le).credited credited fun h mem p before =>
      (all p).mpr (inside h ((all h).mp mem) p before)
    refine PendingPrefixes.record_rule (P := fun s => Rising follows now s.byHash)
      (rising.later le) grown ?_
    rcases fits with room | ⟨order, fresh⟩
    · exact grown.trim credited.queued ((length_credited ..).trans room)
    refine grown.trim_inOrder credited.queued ?_
    have unknown : t.pending.state.known url hashes = 0 := by
      cases hashes with
      | nil => rfl
      | cons h hs => simp [State.known, fresh h mem_cons_self]
    rw [State.credited, unknown, take_zero, drop_zero, foldl_nil]
    refine order.credits (fun h mem e old same before => ?_) ?_
    · have known := queued.same.subset (mem_map_of_mem old)
      rw [Record.key, same] at known
      exact owner_eq_none.mp (fresh _ (inside h (mem_reverse.mp mem) _ before)) known
    · exact pairwise_reverse.mpr (chains.pairwise nofun)
  | trim now => exact (rising.later allowed).trim queued within
  | forgetWorker url =>
    unfold Op.run PendingPrefixes.forgetWorker
    dsimp only
    split
    · exact rising
    · exact rising.forget url

lemma machine_queued (follows : η → Option η) (cap : Nat) :
    (machine υ follows cap).Inductive Clocked.Queued where
  start s first := by
    obtain rfl : s = .fresh := first
    exact ⟨nodup_nil, .refl _⟩
  step s op s' queued _ ran := by
    cases ran
    exact queued.run cap op

lemma fittingMachine_rising (follows : η → Option η) (cap : Nat) :
    (fittingMachine υ follows cap).Inductive fun s => s.Queued ∧
      s.pending.state.fifo.length ≤ cap ∧ Rising follows s.now s.pending.state.byHash where
  start s first := by
    refine ⟨(machine_queued follows cap).start s first, ?_⟩
    obtain rfl : s = .fresh := first
    exact ⟨Nat.zero_le _, fun r mem => absurd mem not_mem_nil⟩
  step s op s' kept ok ran := by
    obtain ⟨queued, within, rising⟩ := kept
    cases ran
    exact ⟨queued.run cap op, Clocked.length_run within op, rising.run queued within ok.1 ok.2⟩

/-- **Exactly one entry a record, in every run; walkable prefixes in every run in which prompts
fit**: who has an unexpired record for a block has one for every earlier block of its chain. -/
theorem reachable_walkable (follows : η → Option η) (cap : Nat) :
    (∀ s, (machine υ follows cap).Reachable s → s.Queued) ∧
    ∀ s, (fittingMachine υ follows cap).Reachable s → ∀ t ≥ s.now, ∀ u h b,
      Relation.TransGen (fun b h => follows h = some b) b h → s.Unexpired t h u →
      s.Unexpired t b u := by
  refine ⟨fun s => (machine_queued follows cap).reachable, ?_⟩
  intro s reached t le u h b earlier
  have rising := ((fittingMachine_rising follows cap).reachable reached).2.2.later le
  have back : ∀ {h b}, follows h = some b → s.Unexpired t h u → s.Unexpired t b u := by
    rintro h b before ⟨r, mem, named, live⟩
    rw [Record.key, Prod.mk.injEq] at named
    obtain ⟨r', mem', same, longer⟩ := rising r mem live b (named.1 ▸ before)
    exact ⟨r', mem', named.2 ▸ same, lt_of_lt_of_le live longer⟩
  induction earlier with
  | single before => exact back before
  | tail _ before ih => exact fun live => ih (back before live)

/-- Blocks numbered along one chain. -/
def count (h : Nat) : Option Nat := if h = 0 then none else some (h - 1)

/-- A prompt, and then the prompt continued by a block. -/
def continued (cap : Nat) : Clocked Nat Nat :=
  (Op.record 7 [0, 1, 2] 2).run cap
    ((Op.record 7 [0, 1] 1).run cap ((Op.enable 50).run cap .fresh))

/-- A second prompt takes the queue over the cap: the first one and the end of the second are
dropped, and what is left of the second can be walked. -/
theorem reachable_walkable_continued : ∃ s, (fittingMachine Nat count 2).Reachable s ∧
    s.pending.state.fifo.map Record.key = [(1, 8), (0, 8)] ∧ s.Unexpired 2 0 8 := by
  have first : (fittingMachine Nat count 2).Reachable .fresh := .start rfl
  have on := first.step (a := Op.enable 50) ⟨trivial, trivial⟩ rfl
  have short := on.step (a := Op.record 7 [0, 1] 1)
    ⟨⟨by decide, rfl, rfl, trivial⟩, .inl (by decide +kernel)⟩ rfl
  have long := short.step (a := Op.record 8 [0, 1, 2] 2)
    ⟨⟨by decide, rfl, rfl, rfl, trivial⟩, .inr ⟨by unfold InOrder; decide +kernel, by decide +kernel⟩⟩
    rfl
  exact ⟨_, long, by decide +kernel, (reachable_walkable count 2).2 _ long 2 (by decide +kernel)
    8 1 0 (.single rfl) (by decide +kernel)⟩

/-- The queue is first in, first out, but a refresh does not move an entry: over the cap, the
block before the new one goes first, and a record is left that no walk reaches. -/
theorem walk_broken : (machine Nat count 2).Reachable (continued 2) ∧
    (continued 2).Unexpired 2 2 7 ∧ ¬ (continued 2).Unexpired 2 1 7 := by
  have first : (machine Nat count 2).Reachable .fresh := .start rfl
  have on := first.step (a := Op.enable 50) trivial rfl
  have short := on.step (a := Op.record 7 [0, 1] 1) ⟨by decide, rfl, rfl, trivial⟩ rfl
  have long := short.step (a := Op.record 7 [0, 1, 2] 2) ⟨by decide, rfl, rfl, rfl, trivial⟩ rfl
  exact ⟨long, by decide +kernel, by decide +kernel⟩

end Sglang.KvEvents
