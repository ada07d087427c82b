/-
# Stop strings

After every step the scheduler decodes the last tokens of a request and looks for its stop strings
there. How many tokens it decodes is fixed when the request comes in, from the stop strings.

* `run_stops_first` — the request runs on while its output has no stop string and finishes with the
  shortest output that has one, if no stop string has two characters more than the normalization
  counted for the longest, and the stop strings that one step completes are completed in the order
  of the list. With one stop string, or one token a step, they are (`InOrder.of_single`).
* `stops_missed` — counted in the tokens of its own encoding, a stop string that the model spells
  otherwise is missed; and of two in one step the first of the list is reported, not the first of
  the output.
-/

import Mathlib.Algebra.BigOperators.Group.List.Basic
import Mathlib.Algebra.Ring.Nat
import Mathlib.Data.List.Infix
import Mathlib.Data.List.MinMax
import Mathlib.Order.Bounds.Basic

namespace Sglang.Schedule

open List

/-- A tokenizer whose tokens have fixed texts. -/
structure Tokenizer (τ : Type) where
  text : τ → List Char
  text_ne_nil : ∀ t, text t ≠ []
  encode : List Char → List τ
  decode_encode : ∀ s, (encode s).flatMap text = s

/-- What the stop checks read of the normalized `SamplingParams`; no regex is given. -/
structure StopParams where
  stopStrs : List (List Char)
  stopStrMaxLen : Nat
  stopRegexMaxLen : Nat := 0

/-- The stop strings with the largest of their sizes; `MAX_STOP_COUNT` are allowed. -/
def StopParams.sized (size : List Char → Nat) (stopStrs : List (List Char)) : Option StopParams :=
  if 32 < stopStrs.length then none
  else some { stopStrs, stopStrMaxLen := (stopStrs.map size).foldr max 0 }

/-- A request that only stop strings finish. -/
structure StopReq (τ : Type) where
  outputIds : List τ := []
  finishedReason : Option (List Char) := none
  finishedLen : Option Nat := none

variable {τ : Type} (tok : Tokenizer τ)

def Tokenizer.decode (ids : List τ) : List Char := ids.flatMap tok.text

/-- `SamplingParams.normalize`. -/
def normalize : List (List Char) → Option StopParams :=
  StopParams.sized fun s => (tok.encode s).length

/-- The Rust `normalize_stops`. -/
def normalizeStops : List (List Char) → Option StopParams :=
  StopParams.sized fun s => (s.map Char.utf8Size).sum

namespace StopReq

variable (p : StopParams) (req : StopReq τ) (newAcceptedLen : Nat)

def stopMatchTailLen : Nat :=
  min (max (p.stopStrMaxLen + 1) (p.stopRegexMaxLen + 1) + (newAcceptedLen - 1))
    req.outputIds.length

/-- The index of the first token of the tail. -/
def tailStart : Nat := req.outputIds.length - req.stopMatchTailLen p newAcceptedLen

def tailStr : List Char := tok.decode (req.outputIds.drop (req.tailStart p newAcceptedLen))

def locateStrStopFinishedLen (stopStr : List Char) : Nat :=
  let start := req.tailStart p newAcceptedLen
  let tokenWindow := req.outputIds.drop start
  let first := max 1 (tokenWindow.length - newAcceptedLen + 1)
  match (range' first (tokenWindow.length - first)).find? fun tokenCount =>
    stopStr <:+: tok.decode (tokenWindow.take tokenCount) with
  | some tokenCount => start + tokenCount
  | none => req.outputIds.length

/-- The source also looks in `decoded_text`, which is empty: nothing writes it. -/
def checkStrBasedFinish : StopReq τ :=
  match p.stopStrs.find? (· <:+: req.tailStr tok p newAcceptedLen) with
  | none => req
  | some s =>
    { req with
      finishedReason := some s
      finishedLen := some (req.locateStrStopFinishedLen tok p newAcceptedLen s) }

def updateFinishState : StopReq τ :=
  if req.finishedReason.isSome then req else req.checkStrBasedFinish tok p newAcceptedLen

/-- A step that accepts the tokens `new`. -/
def accept (new : List τ) : StopReq τ :=
  updateFinishState tok p { req with outputIds := req.outputIds ++ new } new.length

end StopReq

open StopReq

variable {tok}

/-! ### The tail -/

@[simp] lemma decode_append (ids ids' : List τ) :
    tok.decode (ids ++ ids') = tok.decode ids ++ tok.decode ids' := flatMap_append

lemma length_le_length_decode (ids : List τ) : ids.length ≤ (tok.decode ids).length := by
  induction ids with
  | nil => exact Nat.zero_le 0
  | cons t ids ih =>
    have pos := length_pos_iff.mpr (tok.text_ne_nil t)
    rw [← singleton_append, decode_append, Tokenizer.decode, flatMap_singleton, length_append,
      length_append, length_singleton]
    exact Nat.add_le_add pos ih

variable {old new : List τ} {s : List Char} {start n : Nat}

/-- A string that is new in the output ends in a new token, so as many tokens before the new ones
as it has characters but the last hold the rest of it. -/
lemma in_tail (short : start = 0 ∨ start ≤ old.length ∧ start + s.length ≤ old.length + 1)
    (missing : ¬ s <:+: tok.decode old) (found : s <:+: tok.decode (old ++ new)) :
    s <:+: tok.decode ((old ++ new).drop start) := by
  rcases short with rfl | short
  · exact found
  obtain ⟨u, v, eq⟩ := found
  have cut : tok.decode (old.take start) ++ tok.decode (old.drop start ++ new) = u ++ s ++ v := by
    rw [eq, ← decode_append, ← append_assoc, take_append_drop]
  have late : (tok.decode old).length < (u ++ s).length := by
    by_contra! le
    refine missing (.trans ⟨u, [], append_nil _⟩ (IsPrefix.isInfix ?_))
    rw [decode_append] at eq
    exact prefix_of_prefix_length_le ⟨v, eq⟩ ⟨_, rfl⟩ le
  have size : _ ≤ (tok.decode (old.drop start)).length := length_le_length_decode _
  have sum := congrArg (length ∘ tok.decode) (take_append_drop start old)
  simp only [Function.comp, decode_append, length_append, length_drop] at size sum late
  rw [drop_append_of_le_length (by omega)]
  have rest := congrArg (drop (tok.decode (old.take start)).length) cut
  rw [drop_left, append_assoc, drop_append_of_le_length (by omega)] at rest
  exact ⟨_, v, (append_assoc ..).trans rest.symm⟩

lemma missing_take (missing : ¬ s <:+: tok.decode old)
    (found : s <:+: tok.decode ((old ++ new).take n)) : old.length < n := by
  by_contra! le
  rw [take_append_of_le_length le] at found
  refine missing (found.trans ⟨[], tok.decode (old.drop n), ?_⟩)
  rw [nil_append, ← decode_append, take_append_drop]

section

variable {p : StopParams} {req : StopReq τ} (output : req.outputIds = old ++ new)
  (wide : s.length ≤ p.stopStrMaxLen + 1) (missing : ¬ s <:+: tok.decode old)

include output wide missing

/-- Up to a new token, the tail has what the output has. -/
lemma in_tail_take (le : old.length ≤ n) :
    s <:+: tok.decode ((req.outputIds.drop (req.tailStart p new.length)).take
      (n - req.tailStart p new.length)) ↔ s <:+: tok.decode (req.outputIds.take n) := by
  have short : req.tailStart p new.length = 0 ∨ req.tailStart p new.length ≤ old.length ∧
      req.tailStart p new.length + s.length ≤ old.length + 1 := by
    rw [tailStart, stopMatchTailLen, output, length_append]
    omega
  rw [← drop_take, output, take_append, take_of_length_le le]
  refine ⟨fun found => found.trans ?_, in_tail short missing⟩
  obtain ⟨l, eq⟩ := drop_suffix (req.tailStart p new.length) (old ++ new.take (n - old.length))
  exact ⟨tok.decode l, [], by rw [append_nil, ← decode_append, eq]⟩

lemma in_tailStr : s <:+: req.tailStr tok p new.length ↔ s <:+: tok.decode req.outputIds := by
  have all := in_tail_take output wide missing (n := req.outputIds.length) (by simp [output])
  rwa [take_length, take_of_length_le (by rw [length_drop])] at all

lemma locate_isLeast (found : s <:+: tok.decode req.outputIds) :
    IsLeast {n | s <:+: tok.decode (req.outputIds.take n)}
      (req.locateStrStopFinishedLen tok p new.length s) := by
  have inside : req.tailStart p new.length ≤ old.length := by
    rw [tailStart, stopMatchTailLen, output, length_append]
    omega
  have total : req.outputIds.length = old.length + new.length := by rw [output, length_append]
  have tried {n : Nat} := in_tail_take (n := n) output wide missing
  have bound : ∀ k, (∀ j, old.length < j → j < k → ¬ s <:+: tok.decode (req.outputIds.take j)) →
      k ∈ lowerBounds {n | s <:+: tok.decode (req.outputIds.take n)} := by
    intro k early n here
    by_contra! lt
    exact early n (missing_take missing (output ▸ here)) lt here
  -- the loop counts the tokens of the outputs that end in a new token, but for the last of them
  unfold locateStrStopFinishedLen
  generalize req.tailStart p new.length = start at *
  dsimp only
  rw [length_drop, total]
  split
  · rename_i k first
    obtain ⟨matched, mem, first⟩ := find?_range'_eq_some.mp first
    rw [mem_range'_1] at mem
    have le : old.length ≤ start + k := by omega
    refine ⟨(tried le).mp ?_, bound _ fun j low lt here => ?_⟩
    · rw [Nat.add_sub_cancel_left]
      exact of_decide_eq_true matched
    · have := first (j - start) (by omega) (by omega)
      simp [(tried low.le).mpr here] at this
  · rename_i unmatched
    refine ⟨?_, bound _ fun j low lt here => ?_⟩
    · rwa [Set.mem_ofPred_eq, ← total, take_length]
    · have := find?_range'_eq_none.mp unmatched (j - start) (by omega) (by omega)
      simp [(tried low.le).mpr here] at this

end

/-! ### Runs -/

/-- The request runs on while its output has no stop string; its length is that of the shortest
output that has one. -/
structure StopKept (tok : Tokenizer τ) (stops : List (List Char)) (out : List τ)
    (req : StopReq τ) : Prop where
  output : req.outputIds = out
  outcome : (req.finishedReason = none ∧ ∀ s ∈ stops, ¬ s <:+: tok.decode out) ∨
    (req.finishedReason ≠ none ∧ ∃ n, req.finishedLen = some n ∧
      IsLeast {n | ∃ s ∈ stops, s <:+: tok.decode (out.take n)} n)

/-- Of the stop strings that `new` completes after `out`, the first of the list is there as soon as
any is. -/
def InOrder (tok : Tokenizer τ) (stops : List (List Char)) (out new : List τ) : Prop :=
  (∀ s ∈ stops, ¬ s <:+: tok.decode out) →
    ∀ s, stops.find? (· <:+: tok.decode (out ++ new)) = some s → ∀ s' ∈ stops, ∀ k,
      s' <:+: tok.decode (out ++ new.take k) → s <:+: tok.decode (out ++ new.take k)

lemma InOrder.of_single {stops : List (List Char)} (single : stops.length ≤ 1 ∨ new.length ≤ 1) :
    InOrder tok stops old new := by
  intro missing s found s' mem' k here
  have mem := mem_of_find?_eq_some found
  rcases single with one | one
  · obtain ⟨t, eq⟩ := length_eq_one_iff.mp (one.antisymm (length_pos_of_mem mem))
    rw [eq, mem_singleton] at mem mem'
    rwa [mem, ← mem']
  · cases k with
    | zero => exact absurd (by simpa using here) (missing s' mem')
    | succ k =>
      rw [take_of_length_le (by omega)]
      simpa using find?_some found

/-- Later tokens do not change the shortest output. -/
lemma isLeast_append {stops : List (List Char)}
    (least : IsLeast {n | ∃ s ∈ stops, s <:+: tok.decode (old.take n)} n) :
    IsLeast {n | ∃ s ∈ stops, s <:+: tok.decode ((old ++ new).take n)} n := by
  have le : n ≤ old.length := by
    by_contra! lt
    obtain ⟨s, mem, found⟩ := least.1
    rw [take_of_length_le lt.le, ← old.take_length] at found
    exact lt.not_ge (least.2 ⟨s, mem, found⟩)
  constructor
  · rw [Set.mem_ofPred_eq, take_append_of_le_length le]
    exact least.1
  · intro m found
    rcases le_total m old.length with early | late
    · rw [Set.mem_ofPred_eq, take_append_of_le_length early] at found
      exact least.2 found
    · exact le.trans late

section

variable {p : StopParams} {req : StopReq τ}
  (wide : ∀ s ∈ p.stopStrs, s.length ≤ p.stopStrMaxLen + 1) (ordered : InOrder tok p.stopStrs old new)

include wide ordered

lemma StopKept.check (output : req.outputIds = old ++ new) (running : req.finishedReason = none)
    (missing : ∀ s ∈ p.stopStrs, ¬ s <:+: tok.decode old) :
    StopKept tok p.stopStrs (old ++ new) (req.checkStrBasedFinish tok p new.length) := by
  have tail {s : List Char} (mem : s ∈ p.stopStrs) :=
    in_tailStr output (wide s mem) (missing s mem)
  rw [checkStrBasedFinish]
  split
  · rename_i unmatched
    refine ⟨output, .inl ⟨running, fun s mem found => ?_⟩⟩
    simpa [(tail mem).mpr (output ▸ found)] using find?_eq_none.mp unmatched s mem
  · rename_i s found
    have mem := mem_of_find?_eq_some found
    have here := (tail mem).mp (by simpa using find?_some found)
    obtain ⟨least, lower⟩ := locate_isLeast output (wide s mem) (missing s mem) here
    rw [output] at least lower here
    refine ⟨output, .inr ⟨nofun, _, rfl, ⟨s, mem, least⟩, ?_⟩⟩
    rintro n ⟨s', mem', found'⟩
    have late := missing_take (missing s' mem') found'
    rw [take_append, take_of_length_le late.le] at found'
    apply lower
    rw [Set.mem_ofPred_eq, take_append, take_of_length_le late.le]
    refine ordered missing s ?_ s' mem' _ found'
    obtain ⟨-, first, rest, eq, early⟩ := find?_eq_some_iff_append.mp found
    refine find?_eq_some_iff_append.mpr ⟨by simpa using here, first, rest, eq, fun t mem => ?_⟩
    simpa [tail (eq ▸ mem_append_left _ mem), output] using early t mem

lemma StopKept.accept (kept : StopKept tok p.stopStrs old req) :
    StopKept tok p.stopStrs (old ++ new) (req.accept tok p new) := by
  obtain ⟨rfl, ⟨running, missing⟩ | ⟨finished, n, eq, least⟩⟩ := kept
  · rw [StopReq.accept, updateFinishState, if_neg (by simp [running])]
    exact .check wide ordered rfl running missing
  · rw [StopReq.accept, updateFinishState, if_pos (Option.isSome_iff_ne_none.mpr finished)]
    exact ⟨rfl, .inr ⟨finished, n, eq, isLeast_append least⟩⟩

end

variable {p : StopParams} {stops : List (List Char)}

lemma stopStrs_of_sized {size : List Char → Nat} (sized : StopParams.sized size stops = some p) :
    p.stopStrs = stops ∧ ∀ s ∈ stops, size s ≤ p.stopStrMaxLen := by
  obtain ⟨-, same⟩ := Option.ite_none_left_eq_some.mp sized
  cases same
  exact ⟨rfl, fun s mem => le_max_of_le' 0 (mem_map_of_mem mem) le_rfl⟩

/-- Whatever the steps, the request runs on as long as its output has no stop string, and the length
it finishes with is that of the shortest output with one. -/
theorem run_stops_first (nonempty : [] ∉ stops) (normalized : normalizeStops stops = some p ∨
      normalize tok stops = some p ∧ ∀ s ∈ stops, s.length ≤ p.stopStrMaxLen + 1)
    (steps : List (List τ))
    (ordered : ∀ before new, before ++ [new] <+: steps → InOrder tok stops before.flatten new) :
    StopKept tok stops steps.flatten (steps.foldl (accept tok p) {}) := by
  obtain ⟨rfl, wide⟩ : p.stopStrs = stops ∧ ∀ s ∈ stops, s.length ≤ p.stopStrMaxLen + 1 := by
    rcases normalized with bytes | ⟨tokens, wide⟩
    · obtain ⟨same, large⟩ := stopStrs_of_sized bytes
      refine ⟨same, fun s mem => Nat.le_succ_of_le ((?_ : s.length ≤ _).trans (large s mem))⟩
      have := length_le_sum_of_one_le _ (forall_mem_map.mpr fun c (_ : c ∈ s) => c.utf8Size_pos)
      rwa [length_map] at this
    · exact ⟨(stopStrs_of_sized tokens).1, wide⟩
  induction steps using reverseRecOn with
  | nil =>
    refine ⟨rfl, .inl ⟨rfl, fun s mem found => ?_⟩⟩
    exact nonempty (infix_nil.mp found ▸ mem)
  | append_singleton steps new ih =>
    rw [foldl_concat, flatten_concat]
    have earlier := ih fun before next pre => ordered before next (pre.trans (prefix_append ..))
    exact earlier.accept wide (ordered steps new (prefix_refl _))

/-- A tokenizer with a token for each character and one for `abc`. -/
def abcTokenizer : Tokenizer (Option Char) where
  text t := t.elim ['a', 'b', 'c'] fun c => [c]
  text_ne_nil t := by cases t <;> simp
  encode s := if s = ['a', 'b', 'c'] then [none] else s.map some
  decode_encode s := by
    split
    · simp [*]
    · simp [flatMap_map]

/-- The second step completes `b` and then `bc`, in the order of the list. -/
theorem run_stops_first_spelled :
    let p : StopParams := { stopStrs := [['b'], ['b', 'c']], stopStrMaxLen := 2 }
    let steps := [[some 'a'], [some 'b', some 'c']]
    [] ∉ p.stopStrs ∧ normalizeStops p.stopStrs = some p ∧
      StopKept abcTokenizer p.stopStrs steps.flatten (steps.foldl (accept abcTokenizer p) {}) := by
  have nonempty : [] ∉ [['b'], ['b', 'c']] := by decide
  refine ⟨nonempty, rfl, run_stops_first nonempty (.inl rfl) _ fun before new pre => ?_⟩
  obtain ⟨rest, eq⟩ := pre
  rcases before with _ | ⟨_, _ | ⟨_, before⟩⟩ <;> simp at eq
  · exact .of_single (.inr (by simp [eq.1]))
  · obtain ⟨rfl, rfl, -⟩ := eq
    rintro missing s found s' mem' (_ | k) here
    · exact absurd here (missing s' mem')
    · cases found
      exact ⟨['a'], _, rfl⟩

/-- The output is `abc`, in three tokens; then `ac`, in one step. -/
theorem stops_missed :
    (∃ p, normalize abcTokenizer [['a', 'b', 'c']] = some p ∧
      ([[some 'a'], [some 'b'], [some 'c']].foldl (accept abcTokenizer p)
        {}).finishedReason = none) ∧
    ∃ p, normalize abcTokenizer [['c'], ['a']] = some p ∧
      (accept abcTokenizer p {} [some 'a', some 'c']).finishedLen = some 2 :=
  ⟨⟨_, rfl, by decide⟩, _, rfl, by decide⟩

end Sglang.Schedule
