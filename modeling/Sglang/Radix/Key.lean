/-
# The radix cache: keys

A `RadixKey` is a run of tokens in a namespace, read token by token or, for speculative
decoding, as overlapping pairs of neighbours. Slices, matching and the keys of the child
dictionaries are defined on the raw tokens; `RadixKey.pages` is what they mean.

* `RadixKey.slice`, `RadixKey.matchAt`, `RadixKey.childKeyAt` — as the cache computes them.
* `RadixKey.matched_pages` — matching finds the pages two keys share.
* `childKey_eq`, `ChildKey.of_injective` — a child key is the first page with its namespace.
-/

import Mathlib.Data.List.Induction
import Sglang.Lib.Segments

namespace Sglang.Radix

open Sglang.Lib List Nat

/-- What a key compares at one position: a token, or a token and its successor. -/
inductive Atom
  | one (token : Int)
  | two (token next : Int)
deriving DecidableEq, Repr

structure Namespace where
  extraKey : Option String
  cacheSalt : Option String
deriving DecidableEq, Repr

structure RadixKey where
  tokenIds : List Int
  extraKey : Option String
  isBigram : Bool
  /-- A cap on the raw tokens. -/
  limit : Option Nat
  cacheSalt : Option String
  /-- The constructor turns an empty salt into none. -/
  salt_ne : cacheSalt ≠ some ""
deriving DecidableEq

/-- A page: the namespace of its key, and what the key compares on it. -/
abbrev Page := Namespace × List Atom

/-- The key of a child dictionary. The three shapes are tuples that are never equal. -/
inductive ChildKey
  | plain (page : List Atom)
  | extra (extraKey : String) (page : List Atom)
  | salted (extraKey : Option String) (cacheSalt : String) (page : List Atom)
deriving DecidableEq, Repr

namespace RadixKey

/-- `__init__`. -/
def init (tokenIds : List Int) (extraKey : Option String) (isBigram : Bool) (limit : Option Nat)
    (cacheSalt : Option String) : RadixKey :=
  ⟨tokenIds, extraKey, isBigram, limit, cacheSalt.filter fun salt => salt ≠ "", by
    cases cacheSalt <;> simp [Option.filter]⟩

variable (k : RadixKey) (pageSize : Nat)

def namespace_ : Namespace := ⟨k.extraKey, k.cacheSalt⟩

/-- `_raw_len`. -/
def rawLen : Nat :=
  match k.limit with
  | some limit => if limit < k.tokenIds.length then limit else k.tokenIds.length
  | none => k.tokenIds.length

/-- `raw_token_ids`. -/
def rawTokenIds : List Int := k.tokenIds.take k.rawLen

/-- `__len__`. -/
def len : Nat := if k.isBigram then k.rawLen - 1 else k.rawLen

/-- `__iter__`. -/
def atoms : List Atom :=
  if k.isBigram then List.zipWith .two k.rawTokenIds (k.rawTokenIds.drop 1)
  else k.rawTokenIds.map .one

/-- `self[start:stop]`; pairs `start` to `stop` span one raw token more. -/
def slice (start stop : Nat) : RadixKey :=
  let start := min start k.len
  let stop := min stop k.len
  if k.isBigram then
    let raw := if start < stop then (k.tokenIds.take (stop + 1)).drop start else []
    init raw k.extraKey true none k.cacheSalt
  else
    init ((k.tokenIds.take stop).drop start) k.extraKey false none k.cacheSalt

def pageAligned : RadixKey :=
  if pageSize = 1 then k else k.slice 0 (k.len / pageSize * pageSize)

/-- `maybe_to_bigram_view`, without the value. -/
def maybeToBigramView (isEagle : Bool) : RadixKey :=
  if isEagle && !k.isBigram then { k with isBigram := true } else k

/-- The raw tokens of both keys agree on a window. -/
def sameWindow (k other : RadixKey) (offset lo hi : Nat) : Bool :=
  (k.tokenIds.take hi).drop lo = (other.tokenIds.take (offset + hi)).drop (offset + lo)

/-- `match_at`; `none` when the keys must not be compared. -/
def matchAt (k other : RadixKey) (offset pageSize : Nat) : Option Nat :=
  if k.extraKey ≠ other.extraKey ∨ k.cacheSalt ≠ other.cacheSalt then none
  else if k.isBigram ≠ other.isBigram then none
  else if other.len < offset then none
  else
    let n := min k.rawLen (other.rawLen - offset)
    let matchedTokens := gallop (sameWindow k other offset) n n 0 1
    if k.isBigram then
      let matched := min (matchedTokens - 1) (min k.len (other.len - offset))
      some (if 1 < pageSize then matched / pageSize * pageSize else matched)
    else
      let matched := min matchedTokens (min k.len (other.len - offset))
      some (if pageSize = 1 then matched else matched / pageSize * pageSize)

/-- `match`. -/
def match_ (k other : RadixKey) (pageSize : Nat) : Option Nat := k.matchAt other 0 pageSize

/-- `child_key_at`; `none` when there is no full page. -/
def childKeyAt (offset pageSize : Nat) : Option ChildKey :=
  if k.len < offset + pageSize then none
  else
    let raw := (k.tokenIds.drop offset).take pageSize
    let plain :=
      if k.isBigram then List.zipWith .two raw ((k.tokenIds.drop (offset + 1)).take pageSize)
      else raw.map .one
    some (match k.cacheSalt, k.extraKey with
      | some salt, extra => .salted extra salt plain
      | none, none => .plain plain
      | none, some extra => .extra extra plain)

/-- `child_key`. -/
def childKey : Option ChildKey := k.childKeyAt 0 pageSize

/-- The full pages of a key. -/
def pages : List Page :=
  (chunks pageSize k.atoms).map fun page => (k.namespace_, page)

/-! ### Lengths and slices -/

variable {k : RadixKey} {pageSize n : Nat}

lemma rawLen_le (k : RadixKey) : k.rawLen ≤ k.tokenIds.length := by
  unfold rawLen
  split
  · split <;> omega
  · exact Nat.le_refl _

lemma length_rawTokenIds (k : RadixKey) : k.rawTokenIds.length = k.rawLen := by
  rw [rawTokenIds, length_take, Nat.min_eq_left k.rawLen_le]

lemma length_atoms (k : RadixKey) : k.atoms.length = k.len := by
  unfold atoms len
  split
  · rw [length_zipWith, length_drop, length_rawTokenIds]
    omega
  · rw [length_map, length_rawTokenIds]

lemma length_pages (k : RadixKey) (pageSize : Nat) :
    (k.pages pageSize).length = k.len / pageSize := by
  rw [pages, length_map, length_chunks, length_atoms]

lemma namespace_slice (k : RadixKey) (start stop : Nat) :
    (k.slice start stop).namespace_ = k.namespace_ := by
  have salt : (k.cacheSalt.filter fun salt => salt ≠ "") = k.cacheSalt := by
    have nonempty := k.salt_ne
    revert nonempty
    cases k.cacheSalt <;> simp
  unfold slice namespace_
  split <;> exact congrArg (Namespace.mk k.extraKey) salt

lemma isBigram_slice (k : RadixKey) (start stop : Nat) :
    (k.slice start stop).isBigram = k.isBigram := by
  unfold slice
  split <;> simp_all [init]

/-- What a run of tokens compares at one position. -/
def atomAt (isBigram : Bool) (tokens : List Int) (i : Nat) : Option Atom :=
  if isBigram then tokens[i]?.bind fun a => tokens[i + 1]?.map (.two a) else tokens[i]?.map .one

lemma getElem?_atoms (k : RadixKey) (i : Nat) :
    k.atoms[i]? = if i < k.len then atomAt k.isBigram k.tokenIds i else none := by
  by_cases lt : i < k.len
  · rw [if_pos lt]
    unfold atoms atomAt
    unfold len at lt
    split
    · rename_i bigram
      rw [if_pos bigram] at lt
      rw [getElem?_zipWith, getElem?_drop, rawTokenIds,
        getElem?_take_of_lt (by omega), getElem?_take_of_lt (by omega),
        Nat.add_comm 1 i]
      cases k.tokenIds[i]? <;> cases k.tokenIds[i + 1]? <;> rfl
    · rename_i plain
      rw [if_neg plain] at lt
      rw [getElem?_map, rawTokenIds, getElem?_take_of_lt lt]
  · rw [if_neg lt, getElem?_eq_none (by rw [length_atoms]; omega)]

lemma len_init (tokens : List Int) (extra salt : Option String) (isBigram : Bool) :
    (init tokens extra isBigram none salt).len =
      if isBigram then tokens.length - 1 else tokens.length := rfl

lemma len_slice (k : RadixKey) (start stop : Nat) :
    (k.slice start stop).len = min stop k.len - start := by
  have bound := k.rawLen_le
  unfold slice
  split
  · rename_i bigram
    have length : k.len = k.rawLen - 1 := by rw [len, if_pos bigram]
    rw [len_init, if_pos rfl]
    split
    · rw [length_drop, length_take]
      omega
    · rw [length_nil]
      omega
  · rename_i plain
    have length : k.len = k.rawLen := by rw [len, if_neg plain]
    rw [len_init, if_neg (by decide), length_drop, length_take]
    omega

lemma atoms_slice (k : RadixKey) (start stop : Nat) :
    (k.slice start stop).atoms = (k.atoms.take stop).drop start := by
  apply ext_getElem?
  intro i
  rw [getElem?_atoms, len_slice, getElem?_drop]
  by_cases lt : i < min stop k.len - start
  · rw [if_pos lt, getElem?_take_of_lt (by omega), getElem?_atoms, if_pos (by omega)]
    unfold slice
    rw [Nat.min_eq_left (by omega : start ≤ k.len)]
    cases bigram : k.isBigram with
    | true =>
      rw [if_pos rfl, if_pos (by omega)]
      simp only [atomAt, init, getElem?_drop]
      rw [getElem?_take_of_lt (by omega), getElem?_take_of_lt (by omega), Nat.add_assoc]
    | false =>
      simp only [atomAt, init, Bool.false_eq_true, if_false, getElem?_drop]
      rw [getElem?_take_of_lt (by omega)]
  · rw [if_neg lt]
    by_cases cut : start + i < stop
    · rw [getElem?_take_of_lt cut, getElem?_atoms, if_neg (by omega)]
    · rw [getElem?_eq_none (by rw [length_take]; omega)]

/-- The first `n` pages of a key. -/
lemma pages_slice_left (pos : 0 < pageSize) (le : n * pageSize ≤ k.len) :
    (k.slice 0 (n * pageSize)).pages pageSize = (k.pages pageSize).take n := by
  rw [pages, atoms_slice, drop_zero, chunks_take pos (by rwa [length_atoms]),
    namespace_slice, map_take, pages]

/-- The pages from the `n`-th on. -/
lemma pages_slice_right (k : RadixKey) (n pageSize : Nat) :
    (k.slice (n * pageSize) k.len).pages pageSize = (k.pages pageSize).drop n := by
  rw [pages, atoms_slice, take_of_length_le (Nat.le_of_eq k.length_atoms), chunks_drop,
    namespace_slice, map_drop, pages]

lemma len_pageAligned (k : RadixKey) (pageSize : Nat) : (k.pageAligned pageSize).len =
    k.len / pageSize * pageSize := by
  unfold pageAligned
  split
  · rename_i one
    rw [one, Nat.div_one, Nat.mul_one]
  · rw [len_slice, Nat.sub_zero, Nat.min_eq_left (Nat.div_mul_le_self _ _)]

lemma pages_pageAligned (pos : 0 < pageSize) :
    (k.pageAligned pageSize).pages pageSize = k.pages pageSize := by
  unfold pageAligned
  split
  · rfl
  · rw [pages_slice_left pos (Nat.div_mul_le_self _ _),
      take_of_length_le (Nat.le_of_eq (k.length_pages pageSize))]

lemma namespace_pageAligned (k : RadixKey) (pageSize : Nat) :
    (k.pageAligned pageSize).namespace_ = k.namespace_ := by
  unfold pageAligned
  split
  · rfl
  · exact namespace_slice ..

/-! ### Child keys -/

end RadixKey

/-- The child key of a page. -/
def ChildKey.of : Page → ChildKey
  | (⟨e, some salt⟩, page) => .salted e salt page
  | (⟨none, none⟩, page) => .plain page
  | (⟨some e, none⟩, page) => .extra e page

theorem ChildKey.of_injective : Function.Injective ChildKey.of := by
  rintro ⟨⟨extra, salt⟩, page⟩ ⟨⟨extra', salt'⟩, page'⟩ same
  cases salt <;> cases salt' <;> cases extra <;> cases extra' <;> simp_all [ChildKey.of]

namespace RadixKey

variable {k other : RadixKey} {pageSize lo hi m : Nat}

lemma take_atoms (enough : pageSize ≤ k.len) : k.atoms.take pageSize =
      if k.isBigram then
        zipWith .two (k.tokenIds.take pageSize) ((k.tokenIds.drop 1).take pageSize)
      else (k.tokenIds.take pageSize).map .one := by
  unfold len at enough
  unfold atoms
  split
  · rename_i bigram
    rw [if_pos bigram] at enough
    rw [take_zipWith, rawTokenIds, take_take, Nat.min_eq_left (by omega), drop_take,
      take_take, Nat.min_eq_left (by omega)]
  · rename_i plain
    rw [if_neg plain] at enough
    rw [← map_take, rawTokenIds, take_take, Nat.min_eq_left enough]

/-- The child key of a key is its first page. -/
theorem childKey_eq (pos : 0 < pageSize) :
    k.childKey pageSize = (k.pages pageSize).head?.map ChildKey.of := by
  unfold childKey childKeyAt
  rw [head?_eq_getElem?, pages, getElem?_map, Nat.zero_add]
  by_cases short : k.len < pageSize
  · rw [if_pos short, getElem?_eq_none]
    · rfl
    · exact Nat.le_of_eq (by rw [length_chunks, length_atoms, Nat.div_eq_of_lt short])
  · have page : (k.atoms.drop (0 * pageSize)).take pageSize = k.atoms.take pageSize := by
      rw [Nat.zero_mul, drop_zero]
    rw [if_neg short, getElem?_chunks (by
      rw [length_atoms]; exact Nat.div_pos (Nat.le_of_not_lt short) pos), page,
      take_atoms (Nat.le_of_not_lt short)]
    unfold namespace_
    cases k.cacheSalt <;> cases k.extraKey <;> rfl

/-! ### Matching -/

/-- Comparing windows of raw tokens is comparing them one by one. -/
lemma sameWindow_iff {offset : Nat} : sameWindow k other offset lo hi = true ↔
      ∀ i, lo ≤ i → i < hi → k.tokenIds[i]? = other.tokenIds[offset + i]? := by
  have here : ∀ i, lo + i < hi →
      ((k.tokenIds.take hi).drop lo)[i]? = k.tokenIds[lo + i]? := fun i lt => by
    rw [getElem?_drop, getElem?_take_of_lt lt]
  have there : ∀ i, lo + i < hi → ((other.tokenIds.take (offset + hi)).drop (offset + lo))[i]? =
      other.tokenIds[offset + (lo + i)]? := fun i lt => by
    rw [getElem?_drop, getElem?_take_of_lt (by omega), Nat.add_assoc]
  rw [sameWindow, decide_eq_true_eq]
  constructor
  · intro eq i ge lt
    have at_ := congrArg (fun ts : List Int => ts[i - lo]?) eq
    rwa [here _ (by omega), there _ (by omega), Nat.add_sub_cancel' ge] at at_
  · intro all
    apply ext_getElem?
    intro i
    by_cases lt : lo + i < hi
    · rw [here i lt, there i lt, all (lo + i) (Nat.le_add_right _ _) lt]
    · rw [getElem?_eq_none (by rw [length_drop, length_take]; omega),
        getElem?_eq_none (by rw [length_drop, length_take]; omega)]

/-- How far the raw tokens of two keys agree from an offset on. -/
lemma gallop_tokens (k other : RadixKey) (offset : Nat) :
    ∃ m, gallop (sameWindow k other offset) (min k.rawLen (other.rawLen - offset))
        (min k.rawLen (other.rawLen - offset)) 0 1 = m ∧
      m ≤ min k.rawLen (other.rawLen - offset) ∧
      (∀ i < m, k.tokenIds[i]? = other.tokenIds[offset + i]?) ∧
      (m < min k.rawLen (other.rawLen - offset) →
        k.tokenIds[m]? ≠ other.tokenIds[offset + m]?) := by
  refine ⟨_, rfl, ?_⟩
  refine gallop_spec (fun lo hi lt le => ?_) Nat.one_pos (Nat.zero_le _) (Nat.sub_le _ _)
    fun i lt => absurd lt (Nat.not_lt_zero i)
  exact sameWindow_iff

/-- The number of positions from the start at which two sequences agree. -/
def firstMismatch : List Atom → List Atom → Nat
  | a :: as, b :: bs => if a = b then firstMismatch as bs + 1 else 0
  | _, _ => 0

lemma firstMismatch_eq {as bs : List Atom} (le : m ≤ min as.length bs.length)
    (agree : ∀ i < m, as[i]? = bs[i]?) (differ : m < min as.length bs.length → as[m]? ≠ bs[m]?) :
    firstMismatch as bs = m := by
  induction as generalizing bs m with
  | nil =>
    rw [le_zero.mp le, firstMismatch]
    simp
  | cons a as ih =>
    cases bs with
    | nil =>
      rw [le_zero.mp le, firstMismatch]
      simp
    | cons b bs =>
      rw [length_cons, length_cons, succ_min_succ] at le differ
      cases m with
      | zero =>
        have apart : a ≠ b := fun same => differ (succ_pos _) (by simp [same])
        rw [firstMismatch, if_neg apart]
      | succ m =>
        have first : a = b := by simpa using agree 0 (succ_pos m)
        rw [firstMismatch, if_pos first]
        congr 1
        refine ih (le_of_succ_le_succ le) (fun i lt => ?_) fun lt => ?_
        · simpa using agree (i + 1) (succ_lt_succ lt)
        · simpa using differ (succ_lt_succ lt)

section

variable (offset : Nat) (pos : 0 < pageSize) (same : k.namespace_ = other.namespace_)
  (mode : k.isBigram = other.isBigram) (inside : offset ≤ other.len)
include pos same mode inside

/-- How far two keys of one mode agree from an offset on. -/
lemma matchAt_atoms : ∃ m, k.matchAt other offset pageSize = some (m / pageSize * pageSize) ∧
      m ≤ min k.len (other.len - offset) ∧
      (∀ i < m, k.atoms[i]? = other.atoms[offset + i]?) ∧
      (m < min k.len (other.len - offset) → k.atoms[m]? ≠ other.atoms[offset + m]?) := by
  obtain ⟨extra, salt⟩ := Namespace.mk.inj same
  have bound := k.rawLen_le
  have bound' := other.rawLen_le
  obtain ⟨m, found, le, agree, differ⟩ := gallop_tokens k other offset
  unfold matchAt
  rw [if_neg (by simp [extra, salt]), if_neg (by simp [mode]), if_neg (Nat.not_lt.mpr inside)]
  dsimp only
  rw [found]
  cases bigram : k.isBigram with
  | false =>
    have length : k.len = k.rawLen := by rw [len, bigram, if_neg (by decide)]
    have length' : other.len = other.rawLen := by rw [len, ← mode, bigram, if_neg (by decide)]
    refine ⟨m, ?_, by omega, fun i lt => ?_, fun lt => ?_⟩
    · rw [if_neg (by decide), Nat.min_eq_left (by omega)]
      split
      · rename_i one
        rw [one, Nat.div_one, Nat.mul_one]
      · rfl
    · rw [getElem?_atoms, getElem?_atoms, if_pos (by omega), if_pos (by omega), ← mode, bigram,
        atomAt, atomAt, if_neg (by decide), if_neg (by decide), agree i lt]
    · have apart := differ (by omega)
      rw [getElem?_atoms, getElem?_atoms, if_pos (by omega), if_pos (by omega), ← mode, bigram]
      exact fun eq => apart (Option.map_injective (fun _ _ => Atom.one.inj) eq)
  | true =>
    have length : k.len = k.rawLen - 1 := by rw [len, bigram, if_pos rfl]
    have length' : other.len = other.rawLen - 1 := by rw [len, ← mode, bigram, if_pos rfl]
    refine ⟨m - 1, ?_, by omega, fun i lt => ?_, fun lt eq => ?_⟩
    · rw [if_pos rfl, Nat.min_eq_left (by omega)]
      split
      · rfl
      · rw [show pageSize = 1 by omega, Nat.div_one, Nat.mul_one]
    · rw [getElem?_atoms, getElem?_atoms, if_pos (by omega), if_pos (by omega), ← mode, bigram,
        atomAt, atomAt, if_pos rfl, if_pos rfl, agree i (by omega), agree (i + 1) (by omega),
        Nat.add_assoc]
    · -- the pair at `m - 1` reads token `m`, the first that differs
      have apart := differ (by omega)
      rw [getElem?_atoms, getElem?_atoms, if_pos (by omega), if_pos (by omega), ← mode, bigram,
        atomAt, atomAt,
        getElem?_eq_getElem (by omega : m - 1 < k.tokenIds.length),
        getElem?_eq_getElem (by omega : m - 1 + 1 < k.tokenIds.length),
        getElem?_eq_getElem (by omega : offset + (m - 1) < other.tokenIds.length),
        getElem?_eq_getElem (by omega : offset + (m - 1) + 1 < other.tokenIds.length)] at eq
      obtain ⟨first, second⟩ := Atom.two.inj (Option.some.inj eq)
      rw [getElem?_eq_getElem (by omega : m < k.tokenIds.length),
        getElem?_eq_getElem (by omega : offset + m < other.tokenIds.length)] at apart
      rcases Nat.eq_zero_or_pos m with rfl | later
      · exact apart (congrArg _ first)
      · simp only [show m - 1 + 1 = m by omega, show offset + (m - 1) + 1 = offset + m by omega]
          at second
        exact apart (congrArg _ second)

/-- The search finds the first mismatch. -/
lemma matchAt_eq : k.matchAt other offset pageSize =
      some (firstMismatch k.atoms (other.atoms.drop offset) / pageSize * pageSize) := by
  obtain ⟨m, found, le, agree, differ⟩ := matchAt_atoms offset pos same mode inside
  rw [found, firstMismatch_eq]
  · rwa [length_drop, length_atoms, length_atoms]
  · intro i lt
    rw [getElem?_drop, agree i lt]
  · intro lt
    rw [length_drop, length_atoms, length_atoms] at lt
    rw [getElem?_drop]
    exact differ lt

end

/-- Two keys may be compared from an offset on. -/
def Comparable (k other : RadixKey) (offset : Nat) : Prop :=
  k.namespace_ = other.namespace_ ∧ k.isBigram = other.isBigram ∧ offset ≤ other.len

instance (k other : RadixKey) (offset : Nat) : Decidable (k.Comparable other offset) :=
  inferInstanceAs (Decidable (_ ∧ _ ∧ _))

lemma matchAt_none {offset : Nat} (clash : ¬ k.Comparable other offset) :
    k.matchAt other offset pageSize = none := by
  unfold matchAt
  split
  · rfl
  rename_i same
  split
  · rfl
  rename_i mode
  split
  · rfl
  rename_i inside
  rw [not_or, not_not, not_not] at same
  refine absurd ⟨?_, not_not.mp mode, Nat.le_of_not_lt inside⟩ clash
  rw [namespace_, namespace_, same.1, same.2]

/-- `match_at` is the longest common prefix in whole pages of keys that may be compared, and
the same as matching what is left of the other key. -/
theorem matchAt_longest (k other : RadixKey) (offset : Nat) (pos : 0 < pageSize) :
    (k.matchAt other offset pageSize =
      if k.Comparable other offset then
        some (pageSize * (firstMismatch k.atoms (other.atoms.drop offset) / pageSize))
      else none) ∧
    (offset ≤ other.len →
      k.match_ (other.slice offset other.len) pageSize = k.matchAt other offset pageSize) := by
  have whole : ∀ (other : RadixKey) (offset : Nat), k.matchAt other offset pageSize =
      if k.Comparable other offset then
        some (pageSize * (firstMismatch k.atoms (other.atoms.drop offset) / pageSize))
      else none := by
    intro other offset
    split
    · rename_i ok
      rw [matchAt_eq offset pos ok.1 ok.2.1 ok.2.2, Nat.mul_comm]
    · rename_i clash
      exact matchAt_none clash
  refine ⟨whole other offset, fun inside => ?_⟩
  have rest : k.Comparable (other.slice offset other.len) 0 ↔ k.Comparable other offset := by
    unfold Comparable
    rw [namespace_slice, isBigram_slice]
    simp [inside]
  rw [match_, whole, whole, if_congr rest rfl rfl, drop_zero, atoms_slice,
    take_of_length_le (Nat.le_of_eq other.length_atoms)]

/-- Pairs of a capped key against the pairs of another from its second on. -/
theorem matchAt_longest_pairs :
    (init [2, 3, 4, 9] none true (some 3) none).matchAt (init [1, 2, 3, 4, 5] none true none none)
      1 2 = some 2 ∧
    (init [2, 3, 4, 9] none true (some 3) none).match_
      ((init [1, 2, 3, 4, 5] none true none none).slice 1 4) 2 = some 2 :=
  have longest := matchAt_longest (init [2, 3, 4, 9] none true (some 3) none)
    (init [1, 2, 3, 4, 5] none true none none) 1 (by decide : 0 < 2)
  ⟨longest.1.trans (by decide), (longest.2 (by decide)).trans (longest.1.trans (by decide))⟩

/-- Matching finds the pages two keys share. -/
lemma matched_pages (pos : 0 < pageSize) (same : k.namespace_ = other.namespace_)
    (mode : k.isBigram = other.isBigram) :
    ∃ m, k.match_ other pageSize = some (m * pageSize) ∧
      m ≤ (k.pages pageSize).length ∧ m ≤ (other.pages pageSize).length ∧
      (k.pages pageSize).take m = (other.pages pageSize).take m ∧
      (m < (k.pages pageSize).length → m < (other.pages pageSize).length →
        (k.pages pageSize)[m]? ≠ (other.pages pageSize)[m]?) := by
  obtain ⟨m, found, le, agree, differ⟩ := matchAt_atoms 0 pos same mode (Nat.zero_le _)
  have floor := Nat.div_mul_le_self m pageSize
  have next : m < (m / pageSize + 1) * pageSize := by
    rw [Nat.succ_mul]
    exact Nat.lt_div_mul_add pos
  refine ⟨m / pageSize, found, ?_, ?_, ?_, ?_⟩
  · rw [length_pages]
    exact Nat.div_le_div_right (by omega)
  · rw [length_pages]
    exact Nat.div_le_div_right (by omega)
  · have atoms : k.atoms.take (m / pageSize * pageSize) =
        other.atoms.take (m / pageSize * pageSize) := by
      refine ext_getElem? fun i => ?_
      by_cases lt : i < m / pageSize * pageSize
      · rw [getElem?_take_of_lt lt, getElem?_take_of_lt lt, agree i (by omega),
          Nat.zero_add]
      · rw [getElem?_eq_none (by rw [length_take]; omega),
          getElem?_eq_none (by rw [length_take]; omega)]
    rw [pages, pages, ← map_take, ← map_take, ← chunks_take pos (by rw [length_atoms]; omega),
      ← chunks_take pos (by rw [length_atoms]; omega), atoms, same]
  · intro lt lt' eq
    rw [length_pages] at lt lt'
    have room : (m / pageSize + 1) * pageSize ≤ k.len :=
      (Nat.le_div_iff_mul_le pos).mp lt
    have room' : (m / pageSize + 1) * pageSize ≤ other.len :=
      (Nat.le_div_iff_mul_le pos).mp lt'
    rw [pages, pages, getElem?_map, getElem?_map,
      getElem?_chunks (by rwa [length_atoms]), getElem?_chunks (by rwa [length_atoms])] at eq
    have chunk := (Prod.mk.inj (Option.some.inj eq)).2
    have at_ := congrArg (fun page : List Atom => page[m - m / pageSize * pageSize]?) chunk
    rw [Nat.succ_mul] at next room room'
    rw [getElem?_take_of_lt (by omega), getElem?_take_of_lt (by omega),
      getElem?_drop, getElem?_drop, Nat.add_sub_cancel' floor] at at_
    exact differ (by omega) (by rwa [Nat.zero_add])

end RadixKey

end Sglang.Radix
