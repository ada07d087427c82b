/-
# Trees stored as parent links

A tree whose nodes carry their own name and their parent's is a list of nodes in which
every parent stands after its children (`Links.Rooted`); the root itself is not stored.

* `Links.spine` — the nodes met on the way from a named node up to the root.
* Nodes are rewritten in place by `List.map`, dropped by `List.filter`, and a fresh leaf is
  a `cons`; `Links.expand` puts a new node between a node and its parent.
* For each of them, that the list stays `Rooted` and what happens to every spine.
-/

import Mathlib.Data.List.Nodup

namespace Sglang.Lib

open List

/-- How a stored node names itself and its parent, and the name of the root. -/
structure Links (δ ι : Type*) where
  tag : δ → ι
  up : δ → ι
  root : ι

namespace Links

variable {δ ι γ : Type*} (k : Links δ ι)

/-- The names of the stored nodes. -/
def tags (ds : List δ) : List ι := ds.map k.tag

/-- Every parent is the root or stands after its child, and names are not reused. -/
inductive Rooted : List δ → Prop
  | nil : Rooted []
  | cons {d : δ} {ds : List δ} (parent : k.up d = k.root ∨ k.up d ∈ k.tags ds)
      (named : k.tag d ≠ k.root) (fresh : k.tag d ∉ k.tags ds) (below : Rooted ds) :
      Rooted (d :: ds)

variable {k} {ds path : List δ} {n : ι}

variable {d : δ} {p : δ → Prop}

lemma mem_tags (mem : d ∈ ds) : k.tag d ∈ k.tags ds := mem_map_of_mem mem

section

variable (rooted : k.Rooted ds)
include rooted

lemma Rooted.nodup : (k.tags ds).Nodup := by
  induction rooted with
  | nil => exact nodup_nil
  | cons _ _ fresh _ ih => exact nodup_cons.mpr ⟨fresh, ih⟩

section

variable (mem : d ∈ ds)
include mem

lemma Rooted.tag_ne_root : k.tag d ≠ k.root := by
  induction rooted with
  | nil => simp at mem
  | cons _ named _ _ ih =>
    rcases mem_cons.mp mem with rfl | mem
    · exact named
    · exact ih mem

lemma Rooted.up_mem : k.up d = k.root ∨ k.up d ∈ k.tags ds := by
  induction rooted with
  | nil => simp at mem
  | cons parent _ _ _ ih =>
    rcases mem_cons.mp mem with rfl | mem
    · exact parent.imp_right (mem_cons_of_mem _)
    · exact (ih mem).imp_right (mem_cons_of_mem _)

/-- A name belongs to one node. -/
lemma Rooted.eq_of_tag {e : δ} (mem' : e ∈ ds) (same : k.tag d = k.tag e) : d = e :=
  inj_on_of_nodup_map rooted.nodup mem mem' same

lemma Rooted.up_ne_tag : k.up d ≠ k.tag d := by
  induction rooted with
  | nil => simp at mem
  | @cons e es parent named fresh below ih =>
    rcases mem_cons.mp mem with rfl | mem
    · rcases parent with top | inside
      · exact fun same => named (same.symm.trans top)
      · exact fun same => fresh (same ▸ inside)
    · exact ih mem

end

/-- Children stand before their parents. -/
lemma Rooted.pairwise : ds.Pairwise fun d e => k.up e ≠ k.tag d := by
  induction rooted with
  | nil => exact .nil
  | @cons d ds _ named fresh below ih =>
    refine pairwise_cons.mpr ⟨fun e mem same => ?_, ih⟩
    rcases below.up_mem mem with top | inside
    · exact named (same.symm.trans top)
    · exact fresh (same ▸ inside)

/-- Where a property passes from parents to children, some node that has it has no children. -/
lemma Rooted.exists_bottom (down : ∀ d ∈ ds, ∀ e ∈ ds, p d → k.up e = k.tag d → p e)
    (mem : d ∈ ds) (holds : p d) : ∃ b ∈ ds, p b ∧ ∀ e ∈ ds, k.up e ≠ k.tag b := by
  induction rooted generalizing d with
  | nil => simp at mem
  | @cons a ds parent named fresh below ih =>
    have rooted := Rooted.cons parent named fresh below
    by_cases first : p a
    · -- children stand before their parents, and nothing stands before the first node
      refine ⟨a, mem_cons_self, first, fun e inside => ?_⟩
      rcases mem_cons.mp inside with rfl | inside
      · exact rooted.up_ne_tag mem_cons_self
      · exact (pairwise_cons.mp rooted.pairwise).1 e inside
    · have later : d ∈ ds := (mem_cons.mp mem).resolve_left fun same => first (same ▸ holds)
      obtain ⟨b, inside, bottom, childless⟩ := ih
        (fun d mem e mem' => down d (mem_cons_of_mem _ mem) e (mem_cons_of_mem _ mem'))
        later holds
      refine ⟨b, mem_cons_of_mem _ inside, bottom, forall_mem_cons.mpr ⟨?_, childless⟩⟩
      exact fun child => first
        (down b (mem_cons_of_mem _ inside) a mem_cons_self bottom child)

end

/-! ### Spines -/

variable [DecidableEq ι]

variable (k) in
/-- The nodes from `n` up to the root, `n` first and the root left out. -/
def spine : List δ → ι → List δ
  | [], _ => []
  | d :: ds, n => if k.tag d = n then d :: spine ds (k.up d) else spine ds n

lemma spine_of_not_mem (absent : n ∉ k.tags ds) : k.spine ds n = [] := by
  induction ds with
  | nil => rfl
  | cons d ds ih =>
    simp only [tags, map_cons, mem_cons, not_or] at absent
    simp only [spine, if_neg (Ne.symm absent.1)]
    exact ih absent.2

lemma mem_of_mem_spine (mem : d ∈ k.spine ds n) : d ∈ ds := by
  induction ds generalizing n with
  | nil => simp [spine] at mem
  | cons e ds ih =>
    by_cases here : k.tag e = n
    · simp only [spine, if_pos here, mem_cons] at mem
      rcases mem with rfl | mem
      · exact mem_cons_self
      · exact mem_cons_of_mem _ (ih mem)
    · simp only [spine, if_neg here] at mem
      exact mem_cons_of_mem _ (ih mem)

section

variable (rooted : k.Rooted ds)
include rooted

lemma Rooted.spine_root : k.spine ds k.root = [] := by
  apply spine_of_not_mem
  intro mem
  obtain ⟨d, mem, named⟩ := mem_map.mp mem
  exact rooted.tag_ne_root mem named

/-- The spine of a node is the node and its parent's spine. -/
lemma Rooted.spine_tag (mem : d ∈ ds) : k.spine ds (k.tag d) = d :: k.spine ds (k.up d) := by
  induction rooted with
  | nil => simp at mem
  | @cons e es parent named fresh below ih =>
    rcases mem_cons.mp mem with rfl | mem
    · have other : k.tag d ≠ k.up d := by
        rcases parent with top | inside
        · exact fun same => named (same.trans top)
        · exact fun same => fresh (same ▸ inside)
      simp [spine, if_neg other]
    · have apart : k.tag e ≠ k.tag d := fun same => fresh (same ▸ mem_tags mem)
      have other : k.tag e ≠ k.up d := by
        rcases below.up_mem mem with top | inside
        · exact fun same => named (same.trans top)
        · exact fun same => fresh (same ▸ inside)
      simp only [spine, if_neg apart, if_neg other]
      exact ih mem

lemma Rooted.nodup_spine (n : ι) : (k.tags (k.spine ds n)).Nodup := by
  induction rooted generalizing n with
  | nil => exact nodup_nil
  | @cons d ds _ _ fresh _ ih =>
    by_cases here : k.tag d = n
    · simp only [spine, if_pos here]
      refine nodup_cons.mpr ⟨fun mem => fresh ?_, ih _⟩
      obtain ⟨e, mem, same⟩ := mem_map.mp mem
      exact same ▸ mem_tags (mem_of_mem_spine mem)
    · simp only [spine, if_neg here]
      exact ih n

/-- A spine is closed upwards. -/
lemma Rooted.spine_suffix (mem : d ∈ k.spine ds n) : k.spine ds (k.tag d) <:+ k.spine ds n := by
  induction rooted generalizing n with
  | nil => simp [spine] at mem
  | @cons e es parent named fresh below ih =>
    by_cases here : k.tag e = n
    · subst here
      simp only [spine, if_true, mem_cons] at mem
      rcases mem with rfl | mem
      · exact suffix_rfl
      · have apart : k.tag e ≠ k.tag d :=
          fun same => fresh (same ▸ mem_tags (mem_of_mem_spine mem))
        simp only [spine, if_neg apart]
        exact (ih mem).trans (suffix_cons _ _)
    · simp only [spine, if_neg here] at mem ⊢
      have apart : k.tag e ≠ k.tag d :=
        fun same => fresh (same ▸ mem_tags (mem_of_mem_spine mem))
      simp only [if_neg apart]
      exact ih mem

end

omit [DecidableEq ι] in
/-- Induction from the root down. -/
lemma Rooted.induct {motive : ι → Prop} (rooted : k.Rooted ds) (root : motive k.root)
    (node : ∀ d ∈ ds, motive (k.up d) → motive (k.tag d)) (known : n = k.root ∨ n ∈ k.tags ds) :
    motive n := by
  induction rooted generalizing n with
  | nil =>
    rcases known with rfl | inside
    · exact root
    · simp [tags] at inside
  | @cons d ds parent _ _ _ ih =>
    have below := fun {n} => ih (n := n) fun e mem => node e (mem_cons_of_mem _ mem)
    rcases known with rfl | inside
    · exact root
    rcases mem_cons.mp inside with rfl | inside
    · exact node d mem_cons_self (below parent)
    · exact below (.inr inside)

/-- On the way up from `n` to a node above it there is a child of that node. -/
lemma Rooted.child_on_spine {m : ι} (rooted : k.Rooted ds) (known : n = k.root ∨ n ∈ k.tags ds)
    (above : m = k.root ∨ m ∈ k.tags (k.spine ds n)) (other : m ≠ n) :
    ∃ e ∈ k.spine ds n, k.up e = m := by
  induction rooted generalizing n with
  | nil =>
    rcases above with rfl | inside
    · exact absurd (known.resolve_right (by simp [tags])).symm other
    · simp [tags, spine] at inside
  | @cons d ds parent _ _ _ ih =>
    by_cases here : k.tag d = n
    · subst here
      simp only [spine] at above ⊢
      by_cases next : k.up d = m
      · exact ⟨d, mem_cons_self, next⟩
      · have above' : m = k.root ∨ m ∈ k.tags (k.spine ds (k.up d)) :=
          above.imp_right fun inside => (mem_cons.mp inside).resolve_left other
        obtain ⟨e, on, up⟩ := ih parent above' (.symm next)
        exact ⟨e, mem_cons_of_mem _ on, up⟩
    · simp only [spine, if_neg here] at above ⊢
      refine ih (known.imp_right fun inside => ?_) above other
      exact (mem_cons.mp inside).resolve_left (Ne.symm here)

/-! ### Rewriting, growing and dropping nodes -/

section

variable {f : δ → δ}

omit [DecidableEq ι] in
lemma tags_map (keeps : ∀ d, k.tag (f d) = k.tag d) : k.tags (ds.map f) = k.tags ds := by
  simp [tags, keeps]

omit [DecidableEq ι] in
lemma Rooted.map (rooted : k.Rooted ds) (tag : ∀ d, k.tag (f d) = k.tag d)
    (up : ∀ d, k.up (f d) = k.up d) : k.Rooted (ds.map f) := by
  induction rooted with
  | nil => exact .nil
  | cons parent named fresh _ ih =>
    refine .cons ?_ ?_ ?_ ih
    · rwa [up, tags_map tag]
    · rwa [tag]
    · rwa [tag, tags_map tag]

lemma spine_map (tag : ∀ d, k.tag (f d) = k.tag d) (up : ∀ d, k.up (f d) = k.up d) :
    k.spine (ds.map f) n = (k.spine ds n).map f := by
  induction ds generalizing n with
  | nil => rfl
  | cons d ds ih =>
    by_cases here : k.tag d = n
    · simp [spine, tag, up, here, ih]
    · simp [spine, tag, here, ih]

lemma spine_cons_of_ne (other : k.tag d ≠ n) : k.spine (d :: ds) n = k.spine ds n := by
  simp [spine, other]

variable {keep : δ → Bool}

omit [DecidableEq ι] in
/-- Dropping nodes together with everything below them. -/
lemma Rooted.filter (rooted : k.Rooted ds)
    (closed : ∀ d ∈ ds, keep d = true → ∀ p ∈ ds, k.tag p = k.up d → keep p = true) :
    k.Rooted (ds.filter keep) := by
  induction rooted with
  | nil => exact .nil
  | @cons d ds parent named fresh _ ih =>
    have ih := ih fun e mem kept p mem' =>
      closed e (mem_cons_of_mem _ mem) kept p (mem_cons_of_mem _ mem')
    cases kept : keep d with
    | false => simpa [kept] using ih
    | true =>
      simp only [filter_cons, kept]
      refine .cons ?_ named ?_ ih
      · refine parent.imp_right fun inside => ?_
        obtain ⟨p, mem, named⟩ := mem_map.mp inside
        have keptParent := closed d mem_cons_self kept p
          (mem_cons_of_mem _ mem) named
        exact named ▸ mem_tags (mem_filter.mpr ⟨mem, keptParent⟩)
      · refine fun mem => fresh ?_
        obtain ⟨e, mem, same⟩ := mem_map.mp mem
        exact same ▸ mem_tags (mem_filter.mp mem).1

lemma spine_filter (kept : ∀ d ∈ k.spine ds n, keep d = true) :
    k.spine (ds.filter keep) n = k.spine ds n := by
  induction ds generalizing n with
  | nil => rfl
  | cons d ds ih =>
    by_cases here : k.tag d = n
    · simp only [spine, if_pos here, mem_cons, forall_eq_or_imp] at kept
      simp only [filter_cons, kept.1, if_true, spine, if_pos here]
      rw [ih kept.2]
    · simp only [spine, if_neg here] at kept ⊢
      cases keptHead : keep d with
      | false => simpa [keptHead] using ih kept
      | true => simpa [keptHead, spine, here] using ih kept

end

/-! ### A new node between a node and its parent -/

variable (k) in
/-- Every node named `n` becomes its `lower` part under its `upper` part. -/
def expand (n : ι) (lower upper : δ → δ) (ds : List δ) : List δ :=
  ds.flatMap fun d => if k.tag d = n then [lower d, upper d] else [d]

variable (k) in
/-- `lower` keeps the name `n` and hangs below `upper`, which is named `t` and takes over
the parent. -/
structure Between (n t : ι) (lower upper : δ → δ) : Prop where
  tag_lower : ∀ d, k.tag d = n → k.tag (lower d) = n
  up_lower : ∀ d, k.up (lower d) = t
  tag_upper : ∀ d, k.tag (upper d) = t
  up_upper : ∀ d, k.up (upper d) = k.up d

variable {lower upper : δ → δ} {t m : ι}

variable {d e : δ}

lemma expand_cons_self (here : k.tag d = n) :
    k.expand n lower upper (d :: ds) = lower d :: upper d :: k.expand n lower upper ds := by
  simp [expand, here]

lemma expand_cons_ne (other : k.tag d ≠ n) :
    k.expand n lower upper (d :: ds) = d :: k.expand n lower upper ds := by
  simp [expand, other]

lemma mem_expand : e ∈ k.expand n lower upper ds ↔
      (e ∈ ds ∧ k.tag e ≠ n) ∨ ∃ d ∈ ds, k.tag d = n ∧ (e = lower d ∨ e = upper d) := by
  rw [expand, mem_flatMap]
  constructor
  · rintro ⟨d, mem, inside⟩
    split at inside
    · rename_i here
      exact .inr ⟨d, mem, here, by simpa using inside⟩
    · rename_i other
      obtain rfl := mem_singleton.mp inside
      exact .inl ⟨mem, other⟩
  · rintro (⟨mem, other⟩ | ⟨d, mem, here, half⟩)
    · exact ⟨e, mem, by simp [other]⟩
    · exact ⟨d, mem, by simpa [here] using half⟩

/-- With unique names one node is replaced. -/
lemma Rooted.mem_expand (rooted : k.Rooted ds) (mem : d ∈ ds) :
    e ∈ k.expand (k.tag d) lower upper ds ↔
      (e ∈ ds ∧ k.tag e ≠ k.tag d) ∨ e = lower d ∨ e = upper d := by
  refine Links.mem_expand.trans (or_congr_right ⟨?_, fun half => ⟨d, mem, rfl, half⟩⟩)
  rintro ⟨d', mem', same, half⟩
  obtain rfl := rooted.eq_of_tag mem' mem same
  exact half

/-- What holds of all nodes and of both halves holds after the split. -/
lemma Rooted.forall_mem_expand (rooted : k.Rooted ds) (mem : d ∈ ds) (old : ∀ e ∈ ds, p e)
    (low : p (lower d)) (up : p (upper d)) : ∀ e ∈ k.expand (k.tag d) lower upper ds, p e := by
  intro e inside
  rcases (rooted.mem_expand mem).mp inside with ⟨kept, -⟩ | rfl | rfl
  · exact old e kept
  · exact low
  · exact up

lemma lower_mem_expand (mem : d ∈ ds) (here : k.tag d = n) : lower d ∈ k.expand n lower upper ds :=
  mem_expand.mpr (.inr ⟨d, mem, here, .inl rfl⟩)

lemma upper_mem_expand (mem : d ∈ ds) (here : k.tag d = n) : upper d ∈ k.expand n lower upper ds :=
  mem_expand.mpr (.inr ⟨d, mem, here, .inr rfl⟩)

lemma mem_tags_expand (between : k.Between n t lower upper) :
    m ∈ k.tags (k.expand n lower upper ds) ↔ m ∈ k.tags ds ∨ (n ∈ k.tags ds ∧ m = t) := by
  constructor
  · intro mem
    obtain ⟨e, inside, rfl⟩ := mem_map.mp mem
    rcases mem_expand.mp inside with ⟨old, _⟩ | ⟨d, old, here, rfl | rfl⟩
    · exact .inl (mem_tags old)
    · rw [between.tag_lower d here, ← here]
      exact .inl (mem_tags old)
    · exact .inr ⟨here ▸ mem_tags old, between.tag_upper d⟩
  · rintro (mem | ⟨mem, rfl⟩)
    · obtain ⟨d, old, rfl⟩ := mem_map.mp mem
      by_cases here : k.tag d = n
      · refine mem_map.mpr ⟨lower d, lower_mem_expand old here, ?_⟩
        rw [between.tag_lower d here, here]
      · exact mem_tags (mem_expand.mpr (.inl ⟨old, here⟩))
    · obtain ⟨d, old, here⟩ := mem_map.mp mem
      exact mem_map.mpr ⟨upper d, upper_mem_expand old here, between.tag_upper d⟩

lemma expand_of_not_mem (absent : n ∉ k.tags ds) : k.expand n lower upper ds = ds := by
  induction ds with
  | nil => rfl
  | cons d ds ih =>
    simp only [tags, map_cons, mem_cons, not_or] at absent
    rw [expand_cons_ne (.symm absent.1), ih absent.2]

lemma Rooted.expand (rooted : k.Rooted ds) (between : k.Between n t lower upper)
    (fresh : t ∉ k.tags ds) (named : t ≠ k.root) : k.Rooted (k.expand n lower upper ds) := by
  induction rooted with
  | nil => exact .nil
  | @cons d ds parent namedHere freshHere below ih =>
    simp only [tags, map_cons, mem_cons, not_or] at fresh
    by_cases here : k.tag d = n
    · subst here
      -- the name is not used again below, so the rest of the list is as it was
      rw [expand_cons_self rfl, expand_of_not_mem freshHere]
      refine .cons (.inr ?_) ?_ ?_ (.cons ?_ ?_ ?_ below)
      · simp [tags, between.up_lower, between.tag_upper]
      · rwa [between.tag_lower d rfl]
      · simp only [tags, map_cons, mem_cons, between.tag_lower d rfl,
          between.tag_upper, not_or]
        exact ⟨Ne.symm fresh.1, freshHere⟩
      · rwa [between.up_upper]
      · rwa [between.tag_upper]
      · rw [between.tag_upper]
        exact fresh.2
    · rw [expand_cons_ne here]
      refine .cons ?_ namedHere ?_ (ih fresh.2)
      · exact parent.imp_right fun inside => (mem_tags_expand between).mpr (.inl inside)
      · rw [mem_tags_expand between, not_or]
        exact ⟨freshHere, fun clash => fresh.1 clash.2.symm⟩

/-- The new node shows up on exactly the spines that pass through `n`. -/
lemma spine_expand (between : k.Between n t lower upper) (apart : ∀ d ∈ ds, k.up d ≠ t)
    (other : m ≠ t) :
    k.spine (k.expand n lower upper ds) m = k.expand n lower upper (k.spine ds m) := by
  induction ds generalizing m with
  | nil => rfl
  | cons d ds ih =>
    simp only [mem_cons, forall_eq_or_imp] at apart
    by_cases here : k.tag d = n
    · have tagLower := between.tag_lower d here
      have tagUpper := between.tag_upper d
      rw [expand_cons_self here]
      by_cases atHead : k.tag d = m
      · have lowered : n = m := here.symm.trans atHead
        simp only [spine, tagLower, lowered, if_true, between.up_lower, tagUpper,
          between.up_upper, atHead]
        rw [← lowered, expand_cons_self here, ih apart.2 apart.1]
      · have notLower : n ≠ m := fun same => atHead (here.trans same)
        simp only [spine, tagLower, if_neg notLower, tagUpper, if_neg (Ne.symm other),
          if_neg atHead]
        exact ih apart.2 other
    · rw [expand_cons_ne here]
      by_cases atHead : k.tag d = m
      · simp only [spine, if_pos atHead]
        rw [expand_cons_ne here, ih apart.2 apart.1]
      · simp only [spine, if_neg atHead]
        exact ih apart.2 other

/-- A split changes nothing that is read off a path one half after the other. -/
lemma flatMap_expand {g : δ → List γ} (halves : g (upper d) ++ g (lower d) = g d)
    (alone : ∀ e ∈ path, k.tag e = k.tag d → e = d) :
    (k.expand (k.tag d) lower upper path).reverse.flatMap g = path.reverse.flatMap g := by
  induction path with
  | nil => rfl
  | cons e up ih =>
    have rest := ih fun x mem => alone x (mem_cons_of_mem _ mem)
    by_cases here : k.tag e = k.tag d
    · obtain rfl := alone e mem_cons_self here
      rw [expand_cons_self here]
      simp [rest, halves]
    · rw [expand_cons_ne here]
      simp [rest]

end Links

end Sglang.Lib
