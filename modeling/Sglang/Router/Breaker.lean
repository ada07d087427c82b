/-
# The router's circuit breaker

Behind one lock the breaker counts consecutive failures, opens at a threshold, and after a
cool-down lets one recovery probe through at a time. An admission is a permit. A probe's permit
carries the generation it was issued in, and dropping it frees the probe slot in that
generation only. Permits outlive the state they were issued in, and outcomes come back from
requests admitted in earlier states.

* `reachable_probes` — a failure always re-opens a half-open breaker, a generation has one
  permit, dropping an older one does nothing, and nobody is admitted before the cool-down is
  over, in runs that wrap no counter.
* `failures_wrap` — the count of failures is a `u32`; at its end a half-open breaker has none.
-/

import Mathlib.Algebra.Ring.Nat
import Sglang.Lib.Machine

namespace Sglang.Router

open Sglang.Lib List Nat

structure CircuitBreakerConfig where
  threshold : Nat
  threshold_pos : 0 < threshold
  coolDown : Nat

inductive State where
  | closed
  | opened (openedAt : Nat)
  | halfOpen (probeInFlight : Bool)

/-- The breaker, the clock, and the permits that have not been dropped: those of probes with
their generation. -/
structure CircuitBreaker where
  state : State
  consecutiveFailures : Nat
  probeGeneration : Nat
  now : Nat
  permits : List (Option Nat)

namespace CircuitBreaker

variable (c : CircuitBreakerConfig) (b : CircuitBreaker)

/-- Issue a probe's permit. -/
def probe : CircuitBreaker :=
  let generation := (b.probeGeneration + 1) % 2 ^ 64
  { b with
    state := .halfOpen true
    probeGeneration := generation
    permits := some generation :: b.permits }

/-- `none` when the caller is refused. -/
def acquire : Option CircuitBreaker :=
  match b.state with
  | .closed => some { b with permits := none :: b.permits }
  | .opened openedAt => if b.now - openedAt < c.coolDown then none else some b.probe
  | .halfOpen true => none
  | .halfOpen false => some b.probe

/-- A permit is consumed and its outcome left to the caller. -/
def disarm (permit : Option Nat) : CircuitBreaker := { b with permits := b.permits.erase permit }

/-- A permit is dropped. -/
def drop (permit : Option Nat) : CircuitBreaker :=
  match permit, b.state with
  | some generation, .halfOpen _ =>
    if b.probeGeneration = generation then { b.disarm permit with state := .halfOpen false }
    else b.disarm permit
  | _, _ => b.disarm permit

def recordSuccess : CircuitBreaker := { b with state := .closed, consecutiveFailures := 0 }

/-- A failure while open is not counted. -/
def recordFailure : CircuitBreaker :=
  match b.state with
  | .opened _ => b
  | _ =>
    let failures := (b.consecutiveFailures + 1) % 2 ^ 32
    { b with
      consecutiveFailures := failures
      state := if c.threshold ≤ failures then .opened b.now else b.state }

/-- The worker answered, though it is busy. -/
def recordBackpressure : CircuitBreaker :=
  match b.state with
  | .halfOpen _ => b.recordSuccess
  | _ => b

inductive Op where
  | acquire
  | disarm (permit : Option Nat)
  | drop (permit : Option Nat)
  | recordSuccess
  | recordFailure
  | recordBackpressure
  | advance (ms : Nat)

/-- One call. Its effect is atomic: a call holds the lock from its start to its end. -/
def run : Op → CircuitBreaker
  | .acquire => (b.acquire c).getD b
  | .disarm permit => b.disarm permit
  | .drop permit => b.drop permit
  | .recordSuccess => b.recordSuccess
  | .recordFailure => b.recordFailure c
  | .recordBackpressure => b.recordBackpressure
  | .advance ms => { b with now := b.now + ms }

/-- Any interleaving of calls. A permit is disarmed or dropped once. -/
def machine : Machine CircuitBreaker Op where
  start b := b = ⟨.closed, 0, 0, b.now, []⟩
  allowed b
    | .disarm permit | .drop permit => permit ∈ b.permits
    | _ => True
  step b op := some (b.run c op)

/-- The same, before a counter wraps around. -/
def unwrapped : Machine CircuitBreaker Op where
  start := (machine c).start
  allowed b
    | .acquire => b.probeGeneration + 1 < 2 ^ 64
    | .recordFailure => b.consecutiveFailures + 1 < 2 ^ 32
    | op => (machine c).allowed b op
  step := (machine c).step

/-! ### What every run keeps -/

structure Kept (b : CircuitBreaker) : Prop where
  /-- A breaker that is not closed has seen enough failures. -/
  failed : b.state ≠ .closed → c.threshold ≤ b.consecutiveFailures
  past : ∀ t, b.state = .opened t → t ≤ b.now
  /-- No permit is from a later generation. -/
  older : ∀ g, some g ∈ b.permits → g ≤ b.probeGeneration
  once : b.permits.count (some b.probeGeneration) ≤ 1

variable {c b} {b' : CircuitBreaker} {permit : Option Nat} {t g n : Nat}

lemma recordFailure_of_lt (other : ∀ t, b.state ≠ .opened t)
    (fits : b.consecutiveFailures + 1 < 2 ^ 32) : b.recordFailure c = { b with
    consecutiveFailures := b.consecutiveFailures + 1
    state := if c.threshold ≤ b.consecutiveFailures + 1 then .opened b.now else b.state } := by
  unfold recordFailure
  split
  · rename_i t opened
    exact absurd opened (other t)
  · rw [mod_eq_of_lt fits]

section

variable (kept : Kept c b)
include kept

lemma Kept.probe (failed : c.threshold ≤ b.consecutiveFailures)
    (fits : b.probeGeneration + 1 < 2 ^ 64) : Kept c b.probe := by
  have fresh : some (b.probeGeneration + 1) ∉ b.permits := by
    intro held
    exact not_succ_le_self _ (kept.older _ held)
  rw [CircuitBreaker.probe, mod_eq_of_lt fits]
  constructor
  · intro _
    exact failed
  · intro t opened
    cases opened
  · intro g held
    rcases mem_cons.mp held with same | old
    · exact le_of_eq (Option.some.inj same)
    · exact le_succ_of_le (kept.older g old)
  · simp [count_eq_zero.mpr fresh]

lemma Kept.acquire (fits : b.probeGeneration + 1 < 2 ^ 64) : Kept c ((b.acquire c).getD b) := by
  unfold CircuitBreaker.acquire
  split
  · exact { kept with older := by simpa using kept.older, once := by simpa using kept.once }
  · rename_i state
    split
    · exact kept
    · exact kept.probe (kept.failed (by simp [state])) fits
  · exact kept
  · rename_i state
    exact kept.probe (kept.failed (by simp [state])) fits

lemma Kept.disarm (permit : Option Nat) : Kept c (b.disarm permit) :=
  { kept with
    older := fun g held => kept.older g (mem_of_mem_erase held)
    once := le_trans (erase_sublist.count_le _) kept.once }

lemma Kept.drop (permit : Option Nat) : Kept c (b.drop permit) := by
  have disarmed := kept.disarm permit
  unfold CircuitBreaker.drop
  split
  · rename_i state
    split
    · exact { disarmed with failed := fun _ => kept.failed (by simp [state]), past := by simp }
    · exact disarmed
  · exact disarmed

lemma Kept.recordFailure (fits : b.consecutiveFailures + 1 < 2 ^ 32) :
    Kept c (b.recordFailure c) := by
  cases state : b.state with
  | opened => simpa [CircuitBreaker.recordFailure, state] using kept
  | closed | halfOpen =>
    rw [recordFailure_of_lt (by simp [state]) fits]
    split
    · rename_i enough
      exact { kept with failed := fun _ => enough, past := by simp }
    · exact { kept with failed := fun other => le_succ_of_le (kept.failed other) }

lemma Kept.recordSuccess : Kept c b.recordSuccess :=
  { kept with failed := absurd rfl, past := by simp [CircuitBreaker.recordSuccess] }

end

lemma kept_inductive : (unwrapped c).Inductive (Kept c) where
  start b first := by
    rw [show b = _ from first]
    exact ⟨absurd rfl, by simp, by simp, by simp⟩
  step b op b' kept ok ran := by
    cases ran
    cases op with
    | acquire => exact kept.acquire ok
    | disarm permit => exact kept.disarm permit
    | drop permit => exact kept.drop permit
    | recordSuccess => exact kept.recordSuccess
    | recordFailure => exact kept.recordFailure ok
    | recordBackpressure =>
      show Kept c b.recordBackpressure
      unfold CircuitBreaker.recordBackpressure
      split
      · exact kept.recordSuccess
      · exact kept
    | advance ms =>
      exact { kept with past := fun t opened => le_add_right_of_le (kept.past t opened) }

lemma drop_of_ne (other : g ≠ b.probeGeneration) : b.drop (some g) = b.disarm (some g) := by
  unfold drop
  split
  · rename_i same _
    cases same
    exact if_neg other.symm
  · rfl

/-! ### The cool-down -/

lemma now_run (op : Op) : b.now ≤ (b.run c op).now := by
  cases op with
  | disarm | recordSuccess => exact le_refl _
  | acquire | drop | recordFailure | recordBackpressure =>
    simp only [run, acquire, drop, recordFailure, recordBackpressure]
    split <;> try split
    all_goals exact le_refl _
  | advance ms => exact le_add_right _ _

/-- Since it opened at `t`, the breaker is open or its cool-down is over. -/
def Cooling (c : CircuitBreakerConfig) (t : Nat) (b : CircuitBreaker) : Prop :=
  t ≤ b.now ∧ (b.state = .opened t ∨ t + c.coolDown ≤ b.now)

lemma Cooling.run {op : Op} (cooling : Cooling c t b) (other : op ≠ .recordSuccess) :
    Cooling c t (b.run c op) := by
  have later : b.now ≤ (b.run c op).now := now_run op
  refine ⟨le_trans cooling.1 later, ?_⟩
  rcases cooling.2 with opened | ended
  · -- The only calls that leave the open state are a success and an admission.
    cases op with
    | acquire =>
      simp only [CircuitBreaker.run, acquire, opened]
      split
      · exact .inl opened
      · rename_i ready
        exact .inr (Nat.add_le_of_le_sub' cooling.1 (not_lt.mp ready))
    | recordSuccess => exact absurd rfl other
    | disarm | advance => exact .inl opened
    | drop | recordFailure | recordBackpressure =>
      simp [CircuitBreaker.run, drop, recordFailure, recordBackpressure, disarm, opened]
  · exact .inr (le_trans ended later)

lemma Cooling.path (cooling : Cooling c t b)
    (path : (machine c).Path (· ≠ .recordSuccess) b b') : Cooling c t b' := by
  induction path with
  | refl => exact cooling
  | tail _ other _ ran ih => exact Option.some.inj ran ▸ ih.run other

lemma Cooling.refuses (cooling : Cooling c t b) (early : b.now < t + c.coolDown) :
    b.acquire c = none := by
  rcases cooling.2 with opened | ended
  · simp only [acquire, opened]
    exact if_pos (Nat.sub_lt_left_of_lt_add cooling.1 early)
  · exact absurd ended (not_le.mpr early)

/-- **Probes are isolated** in every run that wraps no counter. A half-open breaker has seen
enough failures, so that one more opens it again; the current generation has at most one
permit; dropping a permit of another one changes nothing else; and from the time it opens, the
breaker admits nobody before its cool-down is over unless a success is recorded. -/
theorem reachable_probes (reached : (unwrapped c).Reachable b) :
    (∀ inFlight, b.state = .halfOpen inFlight → c.threshold ≤ b.consecutiveFailures ∧
      ((unwrapped c).allowed b .recordFailure → (b.recordFailure c).state = .opened b.now)) ∧
    b.permits.count (some b.probeGeneration) ≤ 1 ∧
    (∀ g, some g ∈ b.permits → g ≠ b.probeGeneration →
      g < b.probeGeneration ∧ b.drop (some g) = b.disarm (some g)) ∧
    ∀ t b', b.state = .opened t → (machine c).Path (· ≠ .recordSuccess) b b' →
      b'.now < t + c.coolDown → b'.acquire c = none := by
  have kept := kept_inductive.reachable reached
  refine ⟨fun inFlight half => ?_, kept.once, fun g held other => ?_, fun t b' opened path => ?_⟩
  · refine ⟨kept.failed (by simp [half]), fun fits => ?_⟩
    rw [recordFailure_of_lt (by simp [half]) fits]
    exact if_pos (le_succ_of_le (kept.failed (by simp [half])))
  · exact ⟨lt_of_le_of_ne (kept.older g held) other, drop_of_ne other⟩
  · exact (Cooling.path ⟨kept.past t opened, .inl opened⟩ path).refuses

/-- Opens at the first failure and is probed at once. -/
def eager : CircuitBreakerConfig := ⟨1, Nat.one_pos, 0⟩

theorem reachable_probes_probing : ∃ b : CircuitBreaker,
    b.state = .halfOpen true ∧ b.permits = [some 1] ∧ (b.recordFailure eager).state = .opened 7 :=
  have first : (unwrapped eager).start ⟨.closed, 0, 0, 7, []⟩ := rfl
  have opened : (unwrapped eager).Reachable ⟨.opened 7, 1, 0, 7, []⟩ :=
    .step (a := .recordFailure) (.start first) (show 0 + 1 < 2 ^ 32 by decide) rfl
  have half : (unwrapped eager).Reachable ⟨.halfOpen true, 1, 1, 7, [some 1]⟩ :=
    .step (a := .acquire) opened (show 0 + 1 < 2 ^ 64 by decide) rfl
  ⟨_, rfl, rfl, ((reachable_probes half).1 _ rfl).2 (show 1 + 1 < 2 ^ 32 by decide)⟩

/-- A failure is counted, and the breaker probed at once. -/
lemma fails_and_probes {state : State} {permits : List (Option Nat)}
    (other : ∀ t, state ≠ .opened t) (fits : n + 1 < 2 ^ 32)
    (before : (machine eager).Reachable ⟨state, n, g, 0, permits⟩) :
    ∃ g' permits', (machine eager).Reachable ⟨.halfOpen true, n + 1, g', 0, permits'⟩ := by
  have failed : (machine eager).Reachable ⟨.opened 0, n + 1, g, 0, permits⟩ := by
    refine before.step (a := .recordFailure) trivial (congrArg some ?_)
    rw [run, recordFailure_of_lt other fits]
    simp [eager]
  exact ⟨_, _, failed.step (a := .acquire) trivial rfl⟩

lemma failures_climb (n : Nat) (fits : n + 1 < 2 ^ 32) : ∃ g permits,
    (machine eager).Reachable ⟨.halfOpen true, n + 1, g, 0, permits⟩ := by
  induction n with
  | zero => exact fails_and_probes (by simp) fits (.start rfl)
  | succ n ih =>
    obtain ⟨g, permits, before⟩ := ih (lt_of_succ_lt fits)
    exact fails_and_probes (by simp) fits before

/-- The 2³²nd failure in a row leaves the breaker half-open with no failure counted. -/
theorem failures_wrap : ∃ b : CircuitBreaker, (machine eager).Reachable b ∧
    b.state = .halfOpen true ∧ b.consecutiveFailures < eager.threshold := by
  obtain ⟨g, permits, before⟩ := failures_climb (2 ^ 32 - 2) (by decide)
  have wrapped : (machine eager).Reachable ⟨.halfOpen true, 0, g, 0, permits⟩ :=
    before.step (a := .recordFailure) trivial (by simp [machine, run, recordFailure, eager])
  exact ⟨_, wrapped, rfl, Nat.one_pos⟩

end CircuitBreaker

end Sglang.Router
