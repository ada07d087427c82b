/-
# Admission of requests that ignore the end of sequence

With the prefix cache off, `PrefillAdder` keeps what each request has left to decode and what it
occupies, in the order in which they will finish. A candidate is entered into the list, and is
let in if the tokens left over are enough each time a request finishes.

* `reachable_scans_in_order` — the list is sorted and a candidate is judged as on the freshly
  sorted list, in passes where no later candidate is the last to finish and the next call is made
  only after `CONTINUE`.
* `last_finisher_misplaced` — the insertion loop stops at the last entry even when the candidate
  belongs behind it.
-/

import Mathlib.Algebra.BigOperators.Group.List.Basic
import Mathlib.Data.List.Sort
import Mathlib.Tactic.Linarith
import Sglang.Lib.Machine

namespace Sglang.Schedule

open List

/-- A request; of its token lists only the lengths matter here. -/
structure Req where
  maxNewTokens : Nat
  ignoreEos : Bool
  originInputIds : Nat
  outputIds : Nat

/-- Tokens left and tokens occupied. -/
abbrev ReqState := Rat × Nat

inductive AddReqResult where
  | continue_
  | noToken
  | other
  deriving DecidableEq

/-- What a call asks of the budgets: whether the prefill fits, the tokens that remain after it,
whether the gates behind the scan let it in, and the state of the budget in the end. -/
structure Budget where
  fits : Bool
  remTokens : Int
  admits : Bool
  state : AddReqResult

structure PrefillAdder where
  newTokenRatio : Rat
  isHybridSwa : Bool
  runningBatch : List Req
  canRunList : List Req
  reqStates : Option (List ReqState)

namespace PrefillAdder

variable (a : PrefillAdder)

def reqState (r : Req) : Option ReqState :=
  let ratio := if r.ignoreEos then 1 else a.newTokenRatio
  let tokensLeft := r.maxNewTokens * ratio - r.outputIds
  if tokensLeft ≤ 0 then none else some (tokensLeft, r.originInputIds + r.outputIds)

def sortStates : List ReqState → List ReqState := insertionSort fun s t => s.1 ≤ t.1

/-- The loop breaks at the first entry with as many tokens left, or ends on the last one. -/
def insertState (s : ReqState) (states : List ReqState) : List ReqState :=
  states.insertIdx (min (states.findIdx fun t => s.1 ≤ t.1) (states.length - 1)) s

/-- The list with the candidate entered. The first call builds it. -/
def addReqStates (req : Req) : List ReqState :=
  match a.reqStates with
  | none => sortStates ((req :: a.runningBatch ++ a.canRunList).filterMap a.reqState)
  | some states => (a.reqState req).elim states fun s => insertState s states

/-- No request finishes short of tokens; one token each is kept in reserve. -/
def scan (remTokens : Rat) (tokensFreed : Nat) : List ReqState → Bool
  | [] => true
  | (tokensLeft, tokensOccupied) :: states =>
    let bs : Rat := states.length + 1
    if remTokens + tokensFreed - tokensLeft * bs ≤ 1 * bs then false
    else scan remTokens (tokensFreed + tokensOccupied) states

def accepts (b : Budget) (states : List ReqState) : Bool :=
  a.isHybridSwa || scan b.remTokens 0 states

def addOneReqIgnoreEos (req : Req) (b : Budget) : PrefillAdder × AddReqResult :=
  if !b.fits then (a, .noToken)
  else
    let states := a.addReqStates req
    let entered := { a with reqStates := some states }
    if !a.accepts b states then (entered, .noToken)
    else if !b.admits then (entered, .other)
    else ({ entered with canRunList := a.canRunList ++ [req] }, b.state)

/-- Any sequence of calls on a new adder, with what the last one returned. -/
def machine : Lib.Machine (PrefillAdder × AddReqResult) (Req × Budget) where
  start p := p.1.reqStates = none ∧ p.2 = .continue_
  allowed _ _ := True
  step p call := some (p.1.addOneReqIgnoreEos call.1 call.2)

/-- The candidate is not the only one to finish last. -/
abbrev Lands (req : Req) : Prop := ∀ s ∈ a.reqState req, ∀ states ∈ a.reqStates,
  states = [] ∨ ∃ t ∈ states, s.1 ≤ t.1

/-- The same, where candidates land in order. The scheduler ends its pass over the waiting requests
when a call returns anything but `CONTINUE`. -/
def orderly : Lib.Machine (PrefillAdder × AddReqResult) (Req × Budget) where
  start := machine.start
  allowed p call := p.2 = .continue_ ∧ (call.2.fits = true → p.1.Lands call.1)
  step := machine.step

/-! ### The scan of a sorted list -/

/-- When those with `left` tokens left finish, there are too few. -/
def Short (remTokens : Rat) (states : List ReqState) (left : Rat) : Prop :=
  remTokens + ((states.filter (·.1 < left)).map Prod.snd).sum ≤
    (left + 1) * states.countP (left ≤ ·.1)

variable {a} {remTokens : Rat} {states states' : List ReqState} {req r : Req} {s : ReqState}

lemma short_head (least : ∀ t ∈ states, s.1 ≤ t.1) :
    Short remTokens (s :: states) s.1 ↔ remTokens ≤ (s.1 + 1) * (states.length + 1) := by
  have before : (s :: states).filter (fun t => decide (t.1 < s.1)) = [] := by
    simpa [filter_eq_nil_iff] using fun t occupied => least (t, occupied)
  have after : (s :: states).countP (fun t => decide (s.1 ≤ t.1)) = states.length + 1 := by
    simpa [countP_eq_length] using fun t occupied => least (t, occupied)
  rw [Short, before, after]
  simp

/-- Among requests that finish together only the first one in the list matters. -/
lemma scan_iff (sorted : states.Pairwise fun s t => s.1 ≤ t.1) (pos : ∀ s ∈ states, 0 < s.1)
    (freed : Nat) :
    scan remTokens freed states = true ↔ ∀ s ∈ states, ¬ Short (remTokens + freed) states s.1 := by
  induction states generalizing freed with
  | nil => simp [scan]
  | cons s states ih =>
    obtain ⟨least, sorted⟩ := pairwise_cons.mp sorted
    obtain ⟨here, pos⟩ := forall_mem_cons.mp pos
    have head : Short (remTokens + freed) (s :: states) s.1 ↔ _ := short_head least
    rw [forall_mem_cons, head, scan]
    have test : remTokens + freed - s.1 * (states.length + 1) ≤ 1 * (states.length + 1) ↔
        remTokens + freed ≤ (s.1 + 1) * (states.length + 1) := by
      constructor <;> intro le <;> linarith
    simp only [test]
    by_cases short : remTokens + freed ≤ (s.1 + 1) * (states.length + 1)
    · simp [short]
    rw [if_neg short, ih sorted pos]
    refine .trans (forall₂_congr fun t mem => not_congr ?_) (and_iff_right short).symm
    rcases eq_or_lt_of_le (least t mem) with same | later
    · rw [← same, head]
      refine iff_of_false (fun tie => short ?_) short
      have fewer : states.countP (fun u => decide (s.1 ≤ u.1)) ≤ states.length + 1 :=
        Nat.le_succ_of_le countP_le_length
      have less : (s.1 + 1) * (states.countP fun u => decide (s.1 ≤ u.1)) ≤
          (s.1 + 1) * (states.length + 1) :=
        mul_le_mul_of_nonneg_left (by exact_mod_cast fewer) (by linarith)
      refine le_trans ?_ (le_trans tie less)
      rw [Nat.cast_add, add_assoc, add_assoc]
      exact add_le_add_right (le_add_of_nonneg_right (by positivity)) _
    · simp [Short, later, add_assoc]

/-- Ties may stand in any order. -/
lemma scan_perm (perm : states.Perm states') (sorted : states.Pairwise fun s t => s.1 ≤ t.1)
    (sorted' : states'.Pairwise fun s t => s.1 ≤ t.1) (pos : ∀ s ∈ states, 0 < s.1) :
    scan remTokens 0 states = scan remTokens 0 states' := by
  rw [Bool.eq_iff_iff, scan_iff sorted pos, scan_iff sorted' fun s mem => pos s (perm.mem_iff.mpr mem)]
  have same : ∀ left, Short (remTokens + (0 : Nat)) states left ↔
      Short (remTokens + (0 : Nat)) states' left := by
    intro left
    rw [Short, Short, ((perm.filter _).map _).sum_eq, perm.countP_eq]
  simp only [same, perm.mem_iff]

/-! ### Entering candidates -/

lemma insertState_eq (lands : states = [] ∨ ∃ t ∈ states, s.1 ≤ t.1) :
    insertState s states = states.orderedInsert (fun s t => s.1 ≤ t.1) s := by
  have index : min (states.findIdx fun t => decide (s.1 ≤ t.1)) (states.length - 1) =
      states.findIdx fun t => decide (s.1 ≤ t.1) := by
    rcases lands with rfl | ⟨t, mem, le⟩
    · rfl
    · exact min_eq_left (Nat.le_pred_of_lt
        (findIdx_lt_length_of_exists ⟨t, mem, by simpa using le⟩))
  rw [insertState, index]
  clear lands index
  induction states with
  | nil => rfl
  | cons t states ih =>
    by_cases le : s.1 ≤ t.1
    · simp [findIdx_cons, le]
    · simp [findIdx_cons, le, ih]

lemma reqState_pos (entered : a.reqState r = some s) : 0 < s.1 := by
  obtain ⟨left, same⟩ := Option.ite_none_left_eq_some.mp entered
  cases same
  exact not_le.mp left

/-- The list is sorted, and that of the running and the admitted requests while the pass goes on. -/
def Kept (p : PrefillAdder × AddReqResult) : Prop := ∀ states, p.1.reqStates = some states →
  states.Pairwise (fun s t => s.1 ≤ t.1) ∧ (p.2 = .continue_ →
    states.Perm ((p.1.runningBatch ++ p.1.canRunList).filterMap p.1.reqState))

lemma Kept.addReqStates (kept : Kept (a, .continue_)) (lands : a.Lands req) :
    (a.addReqStates req).Pairwise (fun s t => s.1 ≤ t.1) ∧ (a.addReqStates req).Perm
      ((req :: a.runningBatch ++ a.canRunList).filterMap a.reqState) := by
  unfold PrefillAdder.addReqStates
  split
  · exact ⟨pairwise_insertionSort .., perm_insertionSort ..⟩
  · rename_i states built
    obtain ⟨sorted, perm⟩ := kept states built
    have perm := perm rfl
    rw [cons_append, filterMap_cons]
    cases entry : a.reqState req with
    | none => exact ⟨sorted, perm⟩
    | some s =>
      rw [Option.elim_some, insertState_eq (lands s entry states built)]
      exact ⟨sorted.orderedInsert .., (perm_orderedInsert ..).trans (perm.cons s)⟩

lemma kept_inductive : orderly.Inductive Kept where
  start p first states built := by
    cases (show p.1.reqStates = none from first.1).symm.trans built
  step p call p' kept ok ran := by
    obtain ⟨a, last⟩ := p
    obtain ⟨rfl, lands⟩ : last = .continue_ ∧ _ := ok
    cases ran
    simp only [addOneReqIgnoreEos]
    split
    · exact fun states built => ⟨(kept states built).1, nofun⟩
    rename_i fits
    obtain ⟨sorted, perm⟩ := kept.addReqStates (lands (by simpa using fits))
    split
    · rintro _ ⟨⟩
      exact ⟨sorted, nofun⟩
    split
    · rintro _ ⟨⟩
      exact ⟨sorted, nofun⟩
    · rintro _ ⟨⟩
      refine ⟨sorted, fun _ => perm.trans (.filterMap _ ?_)⟩
      rw [← append_assoc]
      exact (perm_append_singleton ..).symm

/-- **Candidates are judged in order**: in every pass where candidates land in order the list is
sorted by the tokens left, and while the pass goes on, a next candidate that lands in order is
accepted or not as on the sorted list of the candidate, running and admitted requests. -/
theorem reachable_scans_in_order {last : AddReqResult} (reached : orderly.Reachable (a, last)) :
    (∀ states, a.reqStates = some states → states.Pairwise fun s t => s.1 ≤ t.1) ∧
    (last = .continue_ → ∀ req b, a.Lands req → a.accepts b (a.addReqStates req) = a.accepts b
      (sortStates ((req :: a.runningBatch ++ a.canRunList).filterMap a.reqState))) := by
  have kept := kept_inductive.reachable reached
  refine ⟨fun states built => (kept states built).1, ?_⟩
  rintro rfl req b lands
  obtain ⟨sorted, perm⟩ := kept.addReqStates lands
  rw [accepts, scan_perm (perm.trans (perm_insertionSort ..).symm) sorted
    (pairwise_insertionSort ..)]
  · rfl
  · intro s mem
    obtain ⟨r, -, entered⟩ := mem_filterMap.mp (perm.mem_iff.mp mem)
    exact reqState_pos entered

/-- A request with `n` tokens left that occupies one. -/
def briefReq (n : Nat) : Req := ⟨n, true, 1, 0⟩

def budget (remTokens : Int) : Budget := ⟨true, remTokens, true, .continue_⟩

/-- An adder with nothing to run. -/
def idle : PrefillAdder := ⟨1, false, [], [], none⟩

/-- The candidate finishes first, the first one entered last. -/
theorem reachable_scans_in_order_three : ∃ a : PrefillAdder, a.reqStates = some [(5, 1), (10, 1)] ∧
    a.accepts (budget 20) (a.addReqStates (briefReq 1)) = true := by
  have first : orderly.Reachable (idle, .continue_) := .start ⟨rfl, rfl⟩
  have one := first.step (a := (briefReq 10, budget 100)) ⟨rfl, fun _ => by decide +kernel⟩ rfl
  have two := one.step (a := (briefReq 5, budget 100))
    ⟨by decide +kernel, fun _ => by decide +kernel⟩ rfl
  refine ⟨_, by decide +kernel, ((reachable_scans_in_order two).2 ?_ _ _ ?_).trans ?_⟩
  · decide +kernel
  · decide +kernel
  · decide +kernel

/-- The second request belongs behind the first. -/
theorem last_finisher_misplaced : ∃ p, machine.Reachable p ∧ p.2 = .continue_ ∧
    p.1.reqStates = some [(10, 1), (5, 1)] ∧
    p.1.accepts (budget 20) (p.1.addReqStates (briefReq 1)) = false ∧ p.1.accepts (budget 20)
      (sortStates ((briefReq 1 :: p.1.runningBatch ++ p.1.canRunList).filterMap p.1.reqState)) =
        true := by
  have first : machine.Reachable (idle, .continue_) := .start ⟨rfl, rfl⟩
  have one := first.step (a := (briefReq 5, budget 100)) trivial rfl
  have two := one.step (a := (briefReq 10, budget 100)) trivial rfl
  exact ⟨_, two, by decide +kernel, by decide +kernel, by decide +kernel, by decide +kernel⟩

end PrefillAdder

end Sglang.Schedule
