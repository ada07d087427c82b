/-
# Machines with caller contracts

A `Machine` is a transition system whose operations may raise (`step` returns
`none`) and whose callers promise something before they issue one (`allowed`).
`Machine.Reachable` collects the states of every run that keeps the promises;
`Machine.Inductive.reachable` is the invariant rule each allocator and cache
proof of the development goes through.
-/

import Mathlib.Logic.Basic

namespace Sglang.Lib

universe u v

/-- A state machine with partial operations and a contract on each call. -/
structure Machine (σ : Type u) (α : Type v) where
  /-- The states a run may start in. -/
  start : σ → Prop
  /-- What the caller of an operation promises. -/
  allowed : σ → α → Prop
  /-- One operation; `none` when it raises. -/
  step : σ → α → Option σ

namespace Machine

variable {σ : Type u} {α : Type v} (M : Machine σ α)

/-- The states reached by runs in which every call meets its contract. -/
inductive Reachable : σ → Prop
  | start {s : σ} (first : M.start s) : Reachable s
  | step {s s' : σ} {a : α} (before : Reachable s) (ok : M.allowed s a)
      (ran : M.step s a = some s') : Reachable s'

/-- Allowed operations of one kind, one after the other. -/
inductive Path (kind : α → Prop) : σ → σ → Prop
  | refl {s : σ} : Path kind s s
  | tail {s t t' : σ} {a : α} (before : Path kind s t) (is : kind a) (ok : M.allowed t a)
      (ran : M.step t a = some t') : Path kind s t'

/-- A property that holds at the start and that no allowed operation breaks. -/
structure Inductive (I : σ → Prop) : Prop where
  start : ∀ s, M.start s → I s
  step : ∀ s a s', I s → M.allowed s a → M.step s a = some s' → I s'

variable {M} {I : σ → Prop}

/-- An inductive property holds in every reachable state. -/
lemma Inductive.reachable (inductive_ : M.Inductive I) {s : σ} (reached : M.Reachable s) : I s := by
  induction reached with
  | start first => exact inductive_.start _ first
  | step _ ok ran ih => exact inductive_.step _ _ _ ih ok ran

/-- Where every call is allowed, every list of calls that runs is a run. -/
lemma Reachable.foldlM (ok : ∀ s a, M.allowed s a) {s s' : σ} (before : M.Reachable s)
    (calls : List α) (ran : calls.foldlM M.step s = some s') : M.Reachable s' := by
  induction calls generalizing s with
  | nil =>
    cases ran
    exact before
  | cons a rest ih =>
    obtain ⟨t, here, later⟩ := Option.bind_eq_some_iff.mp ran
    exact ih (before.step (ok s a) here) later

/-- An inductive property holds along a path. -/
lemma Path.keeps {kind : α → Prop} {s t : σ} (path : M.Path kind s t)
    (inductive_ : M.Inductive I) (here : I s) : I t := by
  induction path with
  | refl => exact here
  | tail _ _ ok ran ih => exact inductive_.step _ _ _ ih ok ran

end Machine

end Sglang.Lib
