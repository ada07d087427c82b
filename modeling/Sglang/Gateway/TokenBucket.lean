/-
# Waiting for tokens

`TokenBucket` with `refill_rate` 0 is a semaphore. `acquire` tries once and then waits for
`return_tokens_sync` to notify it, each time it fails. Trying, registering with the notifier,
returning tokens and notifying are separate steps, and those of any number of tasks interleave.

* `reachable_awake` — nobody sleeps on tokens it could have, in runs where nobody is notified
  between another's failed try and its registration.
* `wakeup_lost` — that notification is missed, and no other comes.

Amounts are taken from an ordered group, as `f64` has them up to rounding.
-/

import Mathlib.Algebra.Order.Ring.Int
import Sglang.Lib.Machine

namespace Sglang.Gateway

open Sglang.Lib

/-- Where a call of `acquire` stands: about to try, between a failed try and its registration,
waiting for a notification, or served. -/
inductive Waiter (τ : Type) where
  | idle
  | trying (tokens : τ)
  | missed (tokens : τ)
  | registered (tokens : τ)
  | served

namespace Waiter

variable {τ : Type}

/-- What a call that has not been served asks for. -/
def demand : Waiter τ → Option τ
  | .trying k | .missed k | .registered k => some k
  | .idle | .served => none

/-- `notify_waiters` on a task. -/
def wake : Waiter τ → Waiter τ
  | .registered k => .trying k
  | w => w

lemma demand_wake (w : Waiter τ) : w.wake.demand = w.demand := by
  cases w <;> rfl

end Waiter

/-- The bucket, its waiters and how many returns have not notified yet. -/
structure TokenBucket (τ : Type) where
  tokens : τ
  capacity : τ
  waiters : Nat → Waiter τ
  notifying : Nat

namespace TokenBucket

variable {τ : Type} [AddCommGroup τ] [LinearOrder τ]

inductive Event (τ : Type) where
  | acquire (i : Nat) (tokens : τ)
  | poll (i : Nat)
  | returnTokens (tokens : τ)
  | notifyWaiters

def put (b : TokenBucket τ) (i : Nat) (w : Waiter τ) : TokenBucket τ :=
  { b with waiters := Function.update b.waiters i w }

/-- `try_acquire_sync`; nothing is refilled. -/
def tryAcquire (b : TokenBucket τ) (i : Nat) (k : τ) : TokenBucket τ :=
  let tokens := min b.tokens b.capacity
  if k ≤ tokens then { b.put i .served with tokens := tokens - k }
  else { b.put i (.missed k) with tokens := tokens }

def step (b : TokenBucket τ) : Event τ → Option (TokenBucket τ)
  | .acquire i k =>
    match b.waiters i with
    | .idle => some (b.put i (.trying k))
    | _ => none
  | .poll i =>
    match b.waiters i with
    | .trying k => some (b.tryAcquire i k)
    | .missed k => some (b.put i (.registered k))
    | _ => none
  | .returnTokens k =>
    some { b with tokens := min (b.tokens + k) b.capacity, notifying := b.notifying + 1 }
  | .notifyWaiters =>
    if b.notifying = 0 then none
    else some { b with waiters := fun i => (b.waiters i).wake, notifying := b.notifying - 1 }

/-- Nobody asks for less than nothing. -/
def Event.Allowed : Event τ → Prop
  | .acquire _ k => 0 ≤ k
  | _ => True

/-- A return notifies while nobody is about to register. -/
def Event.Heard (b : TokenBucket τ) : Event τ → Prop
  | .notifyWaiters => ∀ i k, b.waiters i ≠ .missed k
  | _ => True

variable (τ) in
def machine : Machine (TokenBucket τ) (Event τ) where
  start b := ∃ capacity, b = ⟨capacity, capacity, fun _ => .idle, 0⟩
  allowed _ e := e.Allowed
  step := step

variable (τ) in
def heardMachine : Machine (TokenBucket τ) (Event τ) :=
  { machine τ with allowed := fun b e => e.Allowed ∧ e.Heard b }

/-- Who has tried in vain would try in vain again, unless a notification is on its way. -/
structure Awake (b : TokenBucket τ) : Prop where
  fits : b.tokens ≤ b.capacity
  nonneg : ∀ i k, (b.waiters i).demand = some k → 0 ≤ k
  short : b.notifying = 0 → ∀ i k, b.waiters i = .missed k ∨ b.waiters i = .registered k →
    b.tokens < k

variable {b b' : TokenBucket τ} {i : Nat} {w : Waiter τ} {k tokens : τ}

/-- One task moves on and tokens are at most spent. -/
lemma Awake.move (awake : b.Awake) (le : tokens ≤ b.tokens)
    (asks : ∀ k, w.demand = some k → 0 ≤ k)
    (short : ∀ k, w = .missed k ∨ w = .registered k → b.notifying = 0 → tokens < k) :
    Awake { b.put i w with tokens := tokens } := by
  refine ⟨le.trans awake.fits, fun j k asked => ?_, fun settled j k waits => ?_⟩
  · by_cases here : j = i
    · simp only [here, put, Function.update_self] at asked
      exact asks k asked
    · simp only [put, Function.update_of_ne here] at asked
      exact awake.nonneg j k asked
  · by_cases here : j = i
    · simp only [here, put, Function.update_self] at waits
      exact short k waits settled
    · simp only [put, Function.update_of_ne here] at waits
      exact le.trans_lt (awake.short settled j k waits)

variable [IsOrderedAddMonoid τ]

lemma Awake.tryAcquire (awake : b.Awake) (nonneg : 0 ≤ k) : (b.tryAcquire i k).Awake := by
  by_cases enough : k ≤ min b.tokens b.capacity
  · rw [TokenBucket.tryAcquire, if_pos enough]
    refine awake.move ((sub_le_self _ nonneg).trans (min_le_left ..)) nofun ?_
    rintro _ (⟨⟨⟩⟩ | ⟨⟨⟩⟩)
  · rw [TokenBucket.tryAcquire, if_neg enough]
    apply awake.move (min_le_left ..)
    · rintro _ ⟨⟩
      exact nonneg
    · rintro _ (⟨⟨⟩⟩ | ⟨⟨⟩⟩) -
      exact not_le.mp enough

lemma Awake.step {e : Event τ} (awake : b.Awake) (allowed : e.Allowed) (heard : e.Heard b)
    (ran : b.step e = some b') : b'.Awake := by
  cases e with
  | acquire i k =>
    cases at_ : b.waiters i with
    | idle =>
      simp only [TokenBucket.step, at_, Option.some.injEq] at ran
      subst ran
      apply awake.move le_rfl
      · rintro _ ⟨⟩
        exact allowed
      · rintro _ (⟨⟨⟩⟩ | ⟨⟨⟩⟩)
    | _ => simp [TokenBucket.step, at_] at ran
  | poll i =>
    cases at_ : b.waiters i with
    | trying k =>
      simp only [TokenBucket.step, at_, Option.some.injEq] at ran
      exact ran ▸ awake.tryAcquire (awake.nonneg i k (by rw [at_]; rfl))
    | missed k =>
      simp only [TokenBucket.step, at_, Option.some.injEq] at ran
      subst ran
      apply awake.move le_rfl
      · rintro _ ⟨⟩
        exact awake.nonneg i k (by rw [at_]; rfl)
      · rintro _ (⟨⟨⟩⟩ | ⟨⟨⟩⟩) settled
        exact awake.short settled i k (.inl at_)
    | _ => simp [TokenBucket.step, at_] at ran
  | returnTokens k =>
    cases ran
    exact ⟨min_le_right .., awake.nonneg, nofun⟩
  | notifyWaiters =>
    obtain ⟨-, rfl⟩ := (Option.ite_none_left_eq_some.mp ran).imp_right Option.some.inj
    refine ⟨awake.fits, fun i k asked => ?_, fun _ i k waits => ?_⟩
    · exact awake.nonneg i k ((Waiter.demand_wake _).symm.trans asked)
    · -- everyone who waited has been woken
      cases at_ : b.waiters i with
      | missed k' => exact absurd at_ (heard i k')
      | _ => simp [at_, Waiter.wake] at waits

lemma heardMachine_awake : (heardMachine τ).Inductive Awake where
  start := by
    rintro b ⟨capacity, rfl⟩
    exact ⟨le_rfl, nofun, fun _ i k waits => by rcases waits with ⟨⟨⟩⟩ | ⟨⟨⟩⟩⟩
  step := fun _ _ _ awake allowed => awake.step allowed.1 allowed.2

/-- When every return has notified, a task whose tokens are there is not asleep: it is about to
try, and gets them. -/
theorem reachable_awake (b : TokenBucket τ) (reached : (heardMachine τ).Reachable b)
    (returned : b.notifying = 0) (i : Nat) (k : τ) (asks : (b.waiters i).demand = some k)
    (enough : k ≤ b.tokens) :
    ∃ b', b.step (.poll i) = some b' ∧ b'.waiters i = .served := by
  have awake := heardMachine_awake.reachable reached
  have still : ¬ (b.waiters i = .missed k ∨ b.waiters i = .registered k) := fun waits =>
    absurd enough (not_le.mpr (awake.short returned i k waits))
  cases at_ : b.waiters i with
  | trying k' =>
    rw [at_] at asks
    cases asks
    refine ⟨b.tryAcquire i k, by simp [TokenBucket.step, at_], ?_⟩
    rw [TokenBucket.tryAcquire, if_pos (le_min enough (enough.trans awake.fits))]
    exact Function.update_self ..
  | missed k' =>
    rw [at_] at asks
    cases asks
    exact absurd (.inl at_) still
  | registered k' =>
    rw [at_] at asks
    cases asks
    exact absurd (.inr at_) still
  | idle | served => rw [at_] at asks; cases asks

/-- A bucket of one token. -/
def single : TokenBucket ℤ := ⟨1, 1, fun _ => .idle, 0⟩

/-- The second task waits for the token of the first, is woken and gets it. -/
theorem reachable_awake_single : ∃ b, (heardMachine ℤ).Reachable b ∧ b.notifying = 0 ∧
    (b.waiters 1).demand = some 1 ∧ ∃ b', b.step (.poll 1) = some b' ∧ b'.waiters 1 = .served := by
  have one : (0 : ℤ) ≤ 1 := by decide
  have first : (heardMachine ℤ).Reachable single := .start ⟨1, rfl⟩
  have held := (first.step (a := Event.acquire 0 1) ⟨one, trivial⟩ rfl).step (a := Event.poll 0)
    ⟨trivial, trivial⟩ rfl
  have missed := (held.step (a := Event.acquire 1 1) ⟨one, trivial⟩ rfl).step (a := Event.poll 1)
    ⟨trivial, trivial⟩ rfl
  have waits := missed.step (a := Event.poll 1) ⟨trivial, trivial⟩ rfl
  have back := waits.step (a := Event.returnTokens 1) ⟨trivial, trivial⟩ rfl
  have woken := back.step (a := Event.notifyWaiters) ⟨trivial, fun i k => by
    rcases i with _ | _ | i <;> nofun⟩ rfl
  exact ⟨_, woken, rfl, rfl, reachable_awake _ woken rfl 1 1 rfl (by decide)⟩

/-- The token comes back between a failed try and its registration: nothing is left that could
wake the task. -/
theorem wakeup_lost : ∃ b : TokenBucket ℤ, (machine ℤ).Reachable b ∧ b.notifying = 0 ∧
    b.waiters 1 = .registered 1 ∧ 1 ≤ b.tokens ∧ b.step (.poll 1) = none ∧
    b.step .notifyWaiters = none := by
  have one : (0 : ℤ) ≤ 1 := by decide
  have first : (machine ℤ).Reachable single := .start ⟨1, rfl⟩
  have held := (first.step (a := Event.acquire 0 1) one rfl).step (a := Event.poll 0) trivial rfl
  have missed := (held.step (a := Event.acquire 1 1) one rfl).step (a := Event.poll 1) trivial rfl
  have back := missed.step (a := Event.returnTokens 1) trivial rfl
  have unheard := back.step (a := Event.notifyWaiters) trivial rfl
  have waits := unheard.step (a := Event.poll 1) trivial rfl
  exact ⟨_, waits, rfl, rfl, by decide, rfl, rfl⟩

end TokenBucket

end Sglang.Gateway
