/-
# The gateway's circuit breaker

`CircuitBreaker` keeps its state word, the time of its last change and its counters in separate
atomics. A call is a sequence of steps, each on one of them, and the calls of any number of threads
interleave.

* `advance` — one atomic step of a call.
* `Event.Orderly` — the steps that keep clear of the gaps between those atomics. Calls overlap
  freely outside them.
* `reachable_rejects` — an open breaker rejects until its timeout and is never closed directly, in
  runs of such steps.
* `decisions_interleaved` — what happens in the gaps: `transition_to` swaps the word whatever it is
  by then, and the time of the change is stored after the swap.

Counts wrap as `AtomicU32` does. The totals and the time of the last failure decide nothing.
-/

import Mathlib.Logic.Function.Basic
import Sglang.Lib.Machine

namespace Sglang.Gateway

open Sglang.Lib

inductive CircuitState where
  | closed
  | opened
  | halfOpen
  deriving DecidableEq

structure CircuitBreakerConfig where
  failureThreshold : UInt32
  successThreshold : UInt32
  timeoutMs : Nat

structure CircuitBreaker where
  state : CircuitState := .closed
  consecutiveFailures : UInt32 := 0
  consecutiveSuccesses : UInt32 := 0
  lastStateChangeMs : Nat

/-- What a thread does next. `answer` is what `can_execute` returns in the end; the recording
calls return nothing. -/
inductive Pc where
  | idle
  | returned (answer : Bool)
  | loadChange
  | readClock (lastChange : Nat)
  | exchange
  | reload
  | stamp (new : CircuitState) (answer : Option Bool)
  | store (new : CircuitState) (now : Nat) (answer : Option Bool)
  | resetFailures (answer : Option Bool)
  | resetSuccesses (answer : Option Bool)
  | clear (success : Bool)
  | count (success : Bool)
  | load (success : Bool) (count : UInt32)
  | swap (new : CircuitState)
  deriving DecidableEq

/-- The call has changed the word and has not stored when. -/
def Pc.pending : Pc → Bool
  | .stamp .. | .store .. => true
  | _ => false

/-- The call has found the breaker open and has not read the clock. -/
def Pc.asking : Pc → Bool
  | .loadChange | .readClock _ => true
  | _ => false

/-- The call goes by a time of change that it has loaded. -/
def Pc.reading : Pc → Bool
  | .readClock _ | .exchange => true
  | _ => false

def finish (answer : Option Bool) : Pc := answer.elim .idle .returned

variable (c : CircuitBreakerConfig)

/-- What a recording call does about the word it loads. -/
def decision (success : Bool) (count : UInt32) : CircuitState → Pc
  | .closed => if !success && decide (c.failureThreshold ≤ count) then .swap .opened else .idle
  | .halfOpen =>
    if !success then .swap .opened
    else if c.successThreshold ≤ count then .swap .closed else .idle
  | .opened => .idle

/-- One atomic step of a call; reading the clock is a step of its own. -/
def advance (now : Nat) (b : CircuitBreaker) : Pc → Option (CircuitBreaker × Pc)
  | .idle | .returned _ => none
  | .loadChange => some (b, .readClock b.lastStateChangeMs)
  | .readClock lastChange =>
    some (b, if c.timeoutMs ≤ now - lastChange then .exchange else .returned false)
  | .exchange =>
    if b.state = .opened then some ({ b with state := .halfOpen }, .stamp .halfOpen (some true))
    else some (b, .reload)
  | .reload => some (b, .returned (decide (b.state ≠ .opened)))
  | .stamp new answer => some (b, .store new now answer)
  | .store new now answer => some ({ b with lastStateChangeMs := now },
      if new = .opened then .resetSuccesses answer else .resetFailures answer)
  | .resetFailures answer => some ({ b with consecutiveFailures := 0 }, .resetSuccesses answer)
  | .resetSuccesses answer => some ({ b with consecutiveSuccesses := 0 }, finish answer)
  | .clear true => some ({ b with consecutiveFailures := 0 }, .count true)
  | .clear false => some ({ b with consecutiveSuccesses := 0 }, .count false)
  | .count true => some ({ b with consecutiveSuccesses := b.consecutiveSuccesses + 1 },
      .load true (b.consecutiveSuccesses + 1))
  | .count false => some ({ b with consecutiveFailures := b.consecutiveFailures + 1 },
      .load false (b.consecutiveFailures + 1))
  | .load success count => some (b, decision c success count b.state)
  | .swap new => some ({ b with state := new }, if b.state = new then .idle else .stamp new none)

/-- A thread; `early` when its `can_execute` started less than the timeout after the word had
become `Open`. -/
structure Thread where
  pc : Pc := .idle
  early : Bool := false

/-- The breaker, its threads, the clock and when the word last became `Open`. -/
structure Run where
  breaker : CircuitBreaker
  threads : Nat → Thread
  now : Nat
  openedAt : Option Nat

inductive Event where
  | tick (ms : Nat)
  | canExecute (i : Nat)
  | record (i : Nat) (success : Bool)
  | advance (i : Nat)

def Run.put (r : Run) (i : Nat) (t : Thread) : Run :=
  { r with threads := Function.update r.threads i t }

/-- The timeout has passed since the word last became `Open`. -/
def Run.expired (r : Run) : Bool := r.openedAt.all fun t => decide (t + c.timeoutMs ≤ r.now)

/-- When the word last became `Open`, if it is `b`'s from now on. -/
def Run.opening (r : Run) (b : CircuitBreaker) : Option Nat :=
  if r.breaker.state ≠ .opened ∧ b.state = .opened then some r.now else r.openedAt

def Run.step (r : Run) : Event → Option Run
  | .tick ms => some { r with now := r.now + ms }
  -- the first step of `can_execute` loads the word
  | .canExecute i =>
    if (r.threads i).pc = .idle then
      let pc := if r.breaker.state = .opened then .loadChange else .returned true
      some (r.put i ⟨pc, !r.expired c⟩)
    else none
  | .record i success =>
    if (r.threads i).pc = .idle then some (r.put i ⟨.clear success, false⟩) else none
  | .advance i => (advance c r.now r.breaker (r.threads i).pc).map fun out =>
    { r.put i ⟨out.2, (r.threads i).early⟩ with breaker := out.1, openedAt := r.opening out.1 }

def Run.start (now : Nat) : Run := ⟨{ lastStateChangeMs := now }, fun _ => {}, now, none⟩

/-- Any number of threads, in any order. -/
def breakerMachine : Machine Run Event where
  start r := ∃ now, r = .start now
  allowed _ _ := True
  step := Run.step c

/-- No change of the word waits for its time to be stored. -/
def Run.Stored (r : Run) : Prop := ∀ j, (r.threads j).pc.pending = false

/-- A step outside the gaps. The timeout does not run out between the start of a call and its look
at the clock; between a change of the word and the store of its time no call loads the time or
changes the word again; `Closed` is swapped in for `HalfOpen` only, and `Open` while no call goes by
an earlier time. -/
def Event.Orderly (r : Run) : Event → Prop
  | .tick ms => ∀ j, (r.threads j).early = true → (r.threads j).pc.asking = true →
      ({ r with now := r.now + ms } : Run).expired c = false
  | .advance i =>
    match (r.threads i).pc with
    | .loadChange => r.Stored
    | .exchange => r.breaker.state = .opened → r.Stored
    | .swap new => new = r.breaker.state ∨ r.Stored ∧
        (new = .closed → r.breaker.state = .halfOpen) ∧
          (new = .opened → ∀ j, (r.threads j).pc.reading = false)
    | _ => True
  | .canExecute _ | .record .. => True

/-- The same where every step is orderly. -/
def orderlyMachine : Machine Run Event :=
  { breakerMachine c with allowed := fun r e => e.Orderly c r }

namespace Run

/-- The time is not before the word became `Open`. -/
def Dated (r : Run) (time : Nat) : Prop :=
  r.breaker.state = .opened → ∀ t ∈ r.openedAt, t ≤ time

/-- A call that started early still finds the breaker open and the timeout running. -/
def Waiting (r : Run) (t : Thread) : Prop :=
  t.early = true → r.breaker.state = .opened ∧ r.expired c = false

/-- What holds of a call at each step. -/
def Fact (r : Run) (t : Thread) : Prop :=
  match t.pc with
  | .returned answer => t.early = true → answer = false
  | .loadChange => r.Waiting c t
  | .readClock lastChange => r.Waiting c t ∧ r.Dated lastChange
  | .exchange => t.early = false ∧ (r.breaker.state = .opened → r.expired c = true)
  | .reload => t.early = false
  | .store _ now answer => r.Dated now ∧ (answer = none ∨ t.early = false)
  | .stamp _ answer | .resetFailures answer | .resetSuccesses answer =>
    answer = none ∨ t.early = false
  | .swap new => new ≠ .halfOpen
  | .idle | .clear _ | .count _ | .load .. => True

/-- The invariant of orderly runs. -/
structure Kept (r : Run) : Prop where
  past : ∀ t ∈ r.openedAt, t ≤ r.now
  dated : r.Stored → r.Dated r.breaker.lastStateChangeMs
  passed : r.breaker.state ≠ .opened → r.expired c = true
  facts : ∀ i, r.Fact c (r.threads i)

variable {c} {r r' : Run} {i : Nat} {t : Thread} {b : CircuitBreaker} {openedAt : Option Nat}

lemma opening_of_same (same : b.state = r.breaker.state) : r.opening b = r.openedAt := by
  rw [opening, same, if_neg fun both => both.1 both.2]

/-- A fact speaks of the word, of when it became `Open` and of the clock only. -/
lemma Fact.congr (fact : r.Fact c t) (word : b.state = r.breaker.state) :
    Fact c { r with breaker := b, openedAt := r.openedAt } t := by
  simpa only [Fact, Waiting, Dated, Run.expired, word] using fact

/-- A change of the word leaves the facts of the calls, if the timeout has run out when it was
`Open`, and no call goes by an old time when it becomes `Open`. -/
lemma Fact.turn (fact : r.Fact c t) (elapsed : r.breaker.state = .opened → r.expired c = true)
    (calm : b.state = .opened → t.pc.reading = false ∧ t.pc.pending = false) :
    Fact c { r with breaker := b, openedAt := openedAt } t := by
  obtain ⟨pc, early⟩ := t
  have late : ∀ r', r.Waiting c ⟨pc, early⟩ → Waiting c r' ⟨pc, early⟩ := fun _ waiting started => by
    obtain ⟨word, running⟩ := waiting started
    rw [elapsed word] at running
    cases running
  have closed : pc.reading = true ∨ pc.pending = true → b.state ≠ .opened := fun busy word => by
    simp [calm word] at busy
  cases pc with
  | loadChange => exact late _ fact
  | readClock lastChange => exact ⟨late _ fact.1, fun word => absurd word (closed (.inl rfl))⟩
  | exchange => exact ⟨fact.1, fun word => absurd word (closed (.inl rfl))⟩
  | store new now answer => exact ⟨fun word => absurd word (closed (.inr rfl)), fact.2⟩
  | _ => exact fact

section

variable (kept : r.Kept c)
include kept

/-- Call `i` takes a step that leaves the word, and the time too unless it is to store it. -/
lemma Kept.act (word : b.state = r.breaker.state) (fact : r.Fact c t)
    (time : (r.threads i).pc.pending = t.pc.pending ∧
        b.lastStateChangeMs = r.breaker.lastStateChangeMs ∨ r.Dated b.lastStateChangeMs) :
    Kept c { r.put i t with breaker := b, openedAt := r.openedAt } := by
  refine ⟨kept.past, fun stored => ?_, fun other => kept.passed (word ▸ other), fun j => ?_⟩
  · rcases time with ⟨before, same⟩ | dated
    · have dated := kept.dated fun j => ?_
      · exact fun opened => same ▸ dated (word ▸ opened)
      by_cases here : j = i
      · rw [here, before]
        simpa only [put, Function.update_self] using stored i
      · simpa only [put, Function.update_of_ne here] using stored j
    · exact fun opened => dated (word ▸ opened)
  · by_cases same : j = i
    · subst same
      simp only [put, Function.update_self]
      exact fact.congr word
    · simp only [put, Function.update_of_ne same]
      exact (kept.facts j).congr word

/-- Call `i` changes the word and has yet to store when. -/
lemma Kept.change {new : CircuitState} {answer : Option Bool} {early : Bool} (stored : r.Stored)
    (fact : answer = none ∨ early = false) (elapsed : r.breaker.state = .opened → r.expired c = true)
    (calm : b.state = .opened → ∀ j, (r.threads j).pc.reading = false) :
    Kept c { r.put i ⟨.stamp new answer, early⟩ with breaker := b, openedAt := r.opening b } := by
  refine ⟨fun t mem => ?_, fun done => ?_, fun word => ?_, fun j => ?_⟩
  · rw [opening] at mem
    split at mem
    · cases mem
      exact Nat.le_refl _
    · exact kept.past t mem
  · have here := done i
    simp only [put, Function.update_self] at here
    cases here
  · rw [show r.opening b = r.openedAt from if_neg fun both => word both.2]
    by_cases was : r.breaker.state = .opened
    · exact elapsed was
    · exact kept.passed was
  · by_cases same : j = i
    · subst same
      simp only [put, Function.update_self]
      exact fact
    · simp only [put, Function.update_of_ne same]
      exact (kept.facts j).turn elapsed fun word => ⟨calm word j, stored j⟩

end

lemma decision_fact (r : Run) (success : Bool) (n : UInt32) (word : CircuitState) (early : Bool) :
    Fact c r ⟨decision c success n word, early⟩ ∧ (decision c success n word).pending = false := by
  cases word with
  | opened => exact ⟨trivial, rfl⟩
  | closed =>
    rw [decision]
    split
    · exact ⟨nofun, rfl⟩
    · exact ⟨trivial, rfl⟩
  | halfOpen =>
    rw [decision]
    split
    · exact ⟨nofun, rfl⟩
    · split
      · exact ⟨nofun, rfl⟩
      · exact ⟨trivial, rfl⟩

lemma not_opened_and_closed {word : CircuitState} : ¬ (word = .opened ∧ word = .closed) := by
  rintro ⟨rfl, ⟨⟩⟩

/-- One step of a call keeps the invariant and does not close an open breaker. -/
lemma Kept.advance {pc : Pc} (kept : r.Kept c) (orderly : (Event.advance i).Orderly c r)
    (ran : Gateway.advance c r.now r.breaker (r.threads i).pc = some (b, pc)) :
    Kept c { r.put i ⟨pc, (r.threads i).early⟩ with breaker := b, openedAt := r.opening b } ∧
      ¬ (r.breaker.state = .opened ∧ b.state = .closed) := by
  have fact := kept.facts i
  -- a step that changes neither the word nor its time
  have calm : ∀ {b : CircuitBreaker} {pc : Pc}, b.state = r.breaker.state →
      b.lastStateChangeMs = r.breaker.lastStateChangeMs →
      (r.threads i).pc.pending = pc.pending → r.Fact c ⟨pc, (r.threads i).early⟩ →
      Kept c { r.put i ⟨pc, (r.threads i).early⟩ with breaker := b, openedAt := r.opening b } ∧
        ¬ (r.breaker.state = .opened ∧ b.state = .closed) := by
    intro b pc word time pending fact
    rw [opening_of_same word, word]
    exact ⟨kept.act word fact (.inl ⟨pending, time⟩), not_opened_and_closed⟩
  dsimp only [Event.Orderly] at orderly
  unfold Run.Fact at fact
  cases at_ : (r.threads i).pc <;> rw [at_] at ran orderly fact calm
  case idle | returned => cases ran
  case clear success | count success =>
    cases success <;> cases ran <;> exact calm rfl rfl rfl trivial
  case load success n =>
    cases ran
    obtain ⟨decided, idle⟩ := decision_fact r success n r.breaker.state (r.threads i).early
    exact calm rfl rfl idle.symm decided
  case reload =>
    cases ran
    exact calm rfl rfl rfl fun started => absurd started (by simp [fact])
  case loadChange =>
    cases ran
    exact calm rfl rfl rfl ⟨fact, kept.dated orderly⟩
  case readClock lastChange =>
    cases ran
    obtain ⟨waiting, dated⟩ := fact
    split
    · rename_i long
      have expired : r.breaker.state = .opened → r.expired c = true := fun word => by
        simp only [Run.expired, Option.all_eq_true, decide_eq_true_eq]
        intro t mem
        have := dated word t mem
        have := kept.past t mem
        omega
      refine calm rfl rfl rfl ⟨Bool.eq_false_iff.mpr fun started => ?_, expired⟩
      obtain ⟨word, running⟩ := waiting started
      cases running.symm.trans (expired word)
    · exact calm rfl rfl rfl fun _ => rfl
  case exchange =>
    by_cases word : r.breaker.state = .opened
    · rw [Gateway.advance, if_pos word] at ran
      cases ran
      exact ⟨kept.change (orderly word) (.inr fact.1) fact.2 nofun, nofun⟩
    · rw [Gateway.advance, if_neg word] at ran
      cases ran
      exact calm rfl rfl rfl fact.1
  case stamp new answer =>
    cases ran
    exact calm rfl rfl rfl ⟨fun _ => kept.past, fact⟩
  case store new now answer =>
    cases ran
    simp only [opening_of_same]
    refine ⟨kept.act rfl ?_ (.inr fact.1), not_opened_and_closed⟩
    split
    · exact fact.2
    · exact fact.2
  case resetFailures answer =>
    cases ran
    exact calm rfl rfl rfl fact
  case resetSuccesses answer =>
    cases ran
    cases answer with
    | none => exact calm rfl rfl rfl trivial
    | some answer =>
      exact calm rfl rfl rfl fun started => absurd started (by simp [fact.resolve_left nofun])
  case swap new =>
    cases ran
    by_cases same : new = r.breaker.state
    · rw [if_pos same.symm]
      exact calm same rfl rfl trivial
    obtain ⟨stored, half, opening⟩ := orderly.resolve_left same
    rw [if_neg (Ne.symm same)]
    refine ⟨kept.change stored (.inl rfl) (fun was => ?_) opening, ?_⟩
    · cases new with
      | closed => cases was.symm.trans (half rfl)
      | opened => exact absurd was.symm same
      | halfOpen => exact absurd rfl fact
    · rintro ⟨was, closed⟩
      cases was.symm.trans (half closed)

/-- One step keeps the invariant and does not close an open breaker. -/
lemma Kept.step {e : Event} (kept : r.Kept c) (orderly : e.Orderly c r)
    (ran : r.step c e = some r') :
    r'.Kept c ∧ ¬ (r.breaker.state = .opened ∧ r'.breaker.state = .closed) := by
  cases e with
  | tick ms =>
    cases ran
    have later : r.expired c = true → ({ r with now := r.now + ms } : Run).expired c = true := by
      simp only [Run.expired, Option.all_eq_true, decide_eq_true_eq]
      intro expired t mem
      have := expired t mem
      omega
    refine ⟨⟨fun t mem => Nat.le_add_right_of_le (kept.past t mem), kept.dated,
      fun word => later (kept.passed word), fun i => ?_⟩, not_opened_and_closed⟩
    have fact := kept.facts i
    have running := orderly i
    unfold Fact at fact ⊢
    dsimp only
    cases at_ : (r.threads i).pc <;> rw [at_] at fact running
    case loadChange => exact fun early => ⟨(fact early).1, running early rfl⟩
    case readClock => exact ⟨fun early => ⟨(fact.1 early).1, running early rfl⟩, fact.2⟩
    case exchange => exact ⟨fact.1, fun word => later (fact.2 word)⟩
    all_goals exact fact
  | canExecute i =>
    obtain ⟨idle, rfl⟩ := (Option.ite_none_right_eq_some.mp ran).imp_right Option.some.inj
    refine ⟨kept.act rfl ?_ (.inl ⟨?_, rfl⟩), not_opened_and_closed⟩
    · split
      · rename_i word
        exact fun early => ⟨word, by simpa using early⟩
      · rename_i word
        intro early
        rw [kept.passed word] at early
        cases early
    · rw [idle]
      split <;> rfl
  | record i success =>
    obtain ⟨idle, rfl⟩ := (Option.ite_none_right_eq_some.mp ran).imp_right Option.some.inj
    exact ⟨kept.act rfl trivial (.inl ⟨by rw [idle]; rfl, rfl⟩), not_opened_and_closed⟩
  | advance i =>
    obtain ⟨⟨b, pc⟩, moved, rfl⟩ := Option.map_eq_some_iff.mp ran
    exact kept.advance orderly moved

end Run

lemma orderlyMachine_kept : (orderlyMachine c).Inductive (Run.Kept c) where
  start := by
    rintro r ⟨now, rfl⟩
    exact ⟨nofun, nofun, fun _ => rfl, fun _ => trivial⟩
  step := fun _ _ _ kept orderly ran => (kept.step orderly ran).1

/-- In orderly runs, with any number of calls under way at once, `can_execute` rejects until the
timeout after the breaker opened, and the breaker is never closed without having been half open. -/
theorem reachable_rejects (r : Run) (reached : (orderlyMachine c).Reachable r) :
    (∀ i answer, (r.threads i).early = true → (r.threads i).pc = .returned answer →
      answer = false) ∧
    ∀ e r', e.Orderly c r → r.step c e = some r' →
      ¬ (r.breaker.state = .opened ∧ r'.breaker.state = .closed) := by
  have kept := (orderlyMachine_kept c).reachable reached
  refine ⟨fun i answer early done => ?_, fun e r' orderly ran => (kept.step orderly ran).2⟩
  have fact := kept.facts i
  rw [Run.Fact, done] at fact
  exact fact early

/-- One failure opens, and one success closes again. -/
def touchy : CircuitBreakerConfig := ⟨1, 1, 30⟩

/-- A failure opens the breaker; 10 ms later two requests overlap, and both are rejected. -/
theorem reachable_rejects_asked : ∃ r, (orderlyMachine touchy).Reachable r ∧
    (∀ i < 2, (r.threads i).early = true ∧ (r.threads i).pc = .returned false) ∧
    ∀ e r', e.Orderly touchy r → r.step touchy e = some r' →
      ¬ (r.breaker.state = .opened ∧ r'.breaker.state = .closed) := by
  have next : ∀ {r r'} e, (orderlyMachine touchy).Reachable r → e.Orderly touchy r →
      r.step touchy e = some r' → (orderlyMachine touchy).Reachable r' :=
    fun _ reached => reached.step
  have nobody : ∀ {p : Pc → Bool} {r : Run}, p (r.threads 0).pc = false → p (r.threads 1).pc = false →
      (∀ j, p (r.threads (j + 2)).pc = false) → ∀ j, p (r.threads j).pc = false := by
    rintro p r zero one more (_ | _ | j)
    · exact zero
    · exact one
    · exact more j
  have failed := next (.record 0 false) (.start ⟨100, rfl⟩) trivial rfl
  have cleared := next (.advance 0) failed trivial rfl
  have counted := next (.advance 0) cleared trivial rfl
  have loaded := next (.advance 0) counted trivial rfl
  have swapped := next (.advance 0) loaded (.inr ⟨nobody rfl rfl fun _ => rfl, nofun,
    fun _ => nobody (p := Pc.reading) rfl rfl fun _ => rfl⟩) rfl
  have stamped := next (.advance 0) swapped trivial rfl
  have stored := next (.advance 0) stamped trivial rfl
  have done := next (.advance 0) stored trivial rfl
  have later := next (.tick 10) done (fun _ _ _ => rfl) rfl
  have first := next (.canExecute 0) later trivial rfl
  have second := next (.canExecute 1) first trivial rfl
  have read₁ := next (.advance 1) second (nobody rfl rfl fun _ => rfl) rfl
  have waited := next (.tick 5) read₁ (fun _ _ _ => rfl) rfl
  have read₀ := next (.advance 0) waited (nobody rfl rfl fun _ => rfl) rfl
  have rejected := next (.advance 0) (next (.advance 1) read₀ trivial rfl) trivial rfl
  exact ⟨_, rejected, by decide, (reachable_rejects touchy _ rejected).2⟩

/-- Call 0 is about to store when it opened the breaker, and call 1 asks. -/
def asking : List Event :=
  .tick 30 :: .record 0 false :: List.replicate 4 (.advance 0) ++
    .canExecute 1 :: List.replicate 7 (.advance 1)

/-- Call 2 is about to close the breaker from half open when call 3 opens it. -/
def closing : List Event :=
  .record 2 true :: List.replicate 3 (.advance 2) ++ .record 3 false :: List.replicate 4 (.advance 3)

/-- Interleaved decisions: a breaker that has just opened lets a request through, and an open
breaker is closed. -/
theorem decisions_interleaved :
    (∃ r, (breakerMachine touchy).Reachable r ∧ (r.threads 1).early = true ∧
      (r.threads 1).pc = .returned true) ∧
    ∃ r r', (breakerMachine touchy).Reachable r ∧ r.step touchy (.advance 2) = some r' ∧
      r.breaker.state = .opened ∧ r'.breaker.state = .closed := by
  have first : (breakerMachine touchy).Reachable (.start 100) := .start ⟨100, rfl⟩
  refine ⟨⟨_, first.foldlM (fun _ _ => trivial) asking rfl, rfl, rfl⟩, _, _,
    first.foldlM (fun _ _ => trivial) (asking ++ closing) rfl, rfl, rfl, rfl⟩

end Sglang.Gateway
