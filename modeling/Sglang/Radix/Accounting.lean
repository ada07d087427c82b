/-
# The radix cache: sizes, locks and leaves

The cache counts incrementally: how many tokens can be evicted, how many are protected by locks,
and which leaves eviction may start from. Here the counts are compared with the tree itself, in
runs that release only locks they have taken.

* `Cache.Balanced` — the two sizes and the leaf set are what the lock counts say.
* `Cache.Counted` — a node's lock count is the number of held locks at or below it. So locks grow
  towards the root, and nothing that is locked can be deleted.
* `Cache.Balanced.evict` — an eviction frees unlocked nodes only, and as much as it is asked for
  unless everything unlocked is gone.
* `reachable_accounting` — all of it after every run.
-/

import Sglang.Lib.Weigh
import Sglang.Radix.Refine

namespace Sglang.Radix

open Sglang.Lib List Option Links

open Links (mem_expand mem_of_mem_spine tags tags_map weigh)

namespace Cache

variable {c : Config} {cache cache' : Cache} {d e : TreeNode} {i j : Nat} {handles ids : List Nat}

/-! ### What is counted -/

/-- The tokens of a node without locks. -/
def evictableTokens (d : TreeNode) : Int := if d.lockRef = 0 then d.key.len else 0

/-- The tokens of a locked node. -/
def protectedTokens (d : TreeNode) : Int := if 0 < d.lockRef then d.key.len else 0

/-- Sizes and leaves as the lock counts have them. -/
structure Balanced (c : Config) (cache : Cache) : Prop extends Shape c cache where
  nonneg : ∀ d ∈ cache.nodes, 0 ≤ d.lockRef
  evictable : cache.evictableSize = weigh evictableTokens cache.nodes
  protectedTotal : cache.protectedSize = weigh protectedTokens cache.nodes
  leafSet : ∀ d ∈ cache.nodes, d.id ∈ cache.evictableLeaves ↔
    d.lockRef = 0 ∧ ∀ e ∈ cache.nodes, e.parent ≠ d.id

/-- The held locks at or below a node. -/
def locksBelow (cache : Cache) (handles : List Nat) (i : Nat) : Nat :=
  handles.countP fun h => decide (i ∈ links.tags (cache.spine h))

structure Counted (c : Config) (handles : List Nat) (cache : Cache) : Prop where
  handled : ∀ h ∈ handles, (trie c).Known cache.nodes h
  counted : ∀ d ∈ cache.nodes, d.lockRef = cache.locksBelow handles d.id

lemma balanced_reset (c : Config) : reset.Balanced c where
  toShape := shape_reset c
  nonneg := by simp [reset]
  evictable := rfl
  protectedTotal := rfl
  leafSet := by simp [reset]

lemma mem_updateLeafStatus (form : cache.Form c) :
    j ∈ (cache.updateLeafStatus i).evictableLeaves ↔
      if j = i then ∃ d ∈ cache.nodes, d.id = i ∧ d.lockRef ≤ 0 ∧ ∀ e ∈ cache.nodes, e.parent ≠ i
      else j ∈ cache.evictableLeaves := by
  have status :
      ((cache.find? i).any fun d => decide (d.lockRef ≤ 0) && !cache.hasChildren i) = true ↔
      ∃ d ∈ cache.nodes, d.id = i ∧ d.lockRef ≤ 0 ∧ ∀ e ∈ cache.nodes, e.parent ≠ i := by
    rw [Option.any_eq_true]
    constructor
    · rintro ⟨d, found, both⟩
      rw [Bool.and_eq_true, decide_eq_true_eq, Bool.not_eq_true'] at both
      obtain ⟨mem, named⟩ := mem_of_find? found
      exact ⟨d, mem, named, both.1, not_hasChildren both.2⟩
    · rintro ⟨d, mem, rfl, free, childless⟩
      refine ⟨d, form.find? mem, ?_⟩
      have bare : cache.hasChildren d.id = false :=
        any_eq_false.mpr (by simpa using childless)
      simp [free, bare]
  change j ∈ (if _ then _ else _ : Finset Nat) ↔ _
  by_cases leaf : ((cache.find? i).any fun d =>
      decide (d.lockRef ≤ 0) && !cache.hasChildren i) = true
  · rw [if_pos leaf, Finset.mem_insert]
    by_cases here : j = i
    · rw [if_pos here]
      exact iff_of_true (.inl here) (status.mp leaf)
    · simp [here]
  · rw [if_neg leaf, Finset.mem_erase]
    by_cases here : j = i
    · rw [if_pos here]
      exact iff_of_false (fun both => both.1 here) (mt status.mpr leaf)
    · simp [here]

/-- The status of a node is right once it is updated, if that of all others is. -/
lemma balanced_updateLeafStatus (shape : (cache.updateLeafStatus i).Shape c)
    (nonneg : ∀ d ∈ cache.nodes, 0 ≤ d.lockRef)
    (evictable : cache.evictableSize = weigh evictableTokens cache.nodes)
    (protectedTotal : cache.protectedSize = weigh protectedTokens cache.nodes)
    (leafSet : ∀ d ∈ cache.nodes, d.id ≠ i → (d.id ∈ cache.evictableLeaves ↔
      d.lockRef = 0 ∧ ∀ e ∈ cache.nodes, e.parent ≠ d.id)) :
    (cache.updateLeafStatus i).Balanced c := by
  refine ⟨shape, nonneg, evictable, protectedTotal, fun d mem => ?_⟩
  have form : cache.Form c := shape.toForm.congr rfl rfl
  rw [mem_updateLeafStatus form]
  split
  · rename_i here
    subst here
    constructor
    · rintro ⟨e, mem', named, free, childless⟩
      obtain rfl := form.tree.rooted.eq_of_tag mem' mem named
      exact ⟨le_antisymm free (nonneg e mem), childless⟩
    · rintro ⟨free, childless⟩
      exact ⟨d, mem, rfl, free.le, childless⟩
  · rename_i other
    exact leafSet d mem other

/-! ### Splits -/

variable {low up : TreeNode → TreeNode} {delta : Int} {pop : Finset Nat → Nat}

/-- A split as an edit of the node list. -/
structure CutAt (c : Config) (cache : Cache) (d : TreeNode) (low up : TreeNode → TreeNode)
    (cache' : Cache) : Prop where
  mem : d ∈ cache.nodes
  between : links.Between d.id cache.nextId low up
  locks : ∀ e, (low e).lockRef = e.lockRef ∧ (up e).lockRef = e.lockRef
  lengths : (low d).key.len + (up d).key.len = d.key.len
  eq : cache' = { cache with
    nodes := links.expand d.id low up cache.nodes
    nextId := cache.nextId + 1 }
  shape : cache'.Shape c

lemma Shape.cutAt (shape : cache.Shape c) (cut : Cut c cache cache') :
    ∃ d low up, CutAt c cache d low up cache' := by
  obtain ⟨d, mem, n, new, pos, lt, ran⟩ := cut
  obtain ⟨cache'', new', ran', splits⟩ := shape.splitNode mem pos lt
  cases ran'.symm.trans ran
  obtain ⟨below, -, rest⟩ := bind_eq_some_iff.mp ran
  obtain ⟨above, -, eq⟩ := bind_eq_some_iff.mp rest
  refine ⟨d, lower below (n * c.pageSize) cache.nextId, upper above (n * c.pageSize) cache.nextId,
    mem, between .., fun _ => ⟨rfl, rfl⟩, ?_, (Prod.mk.inj (some.inj eq)).1.symm,
    splits.shape⟩
  change (d.key.slice _ _).len + (d.key.slice _ _).len = _
  rw [RadixKey.len_slice, RadixKey.len_slice]
  omega

lemma CutAt.cases (cut : CutAt c cache d low up cache') (shape : cache.Shape c)
    (mem : e ∈ cache'.nodes) : (e ∈ cache.nodes ∧ e.id ≠ d.id) ∨ e = low d ∨ e = up d := by
  rw [cut.eq] at mem
  exact (shape.tree.rooted.mem_expand cut.mem).mp mem

lemma Balanced.cut (balanced : cache.Balanced c) (cut : CutAt c cache d low up cache') :
    cache'.Balanced c := by
  have shape := balanced.toShape
  have upTag : (up d).id = cache.nextId := cut.between.tag_upper d
  have lowTag : (low d).id = d.id := cut.between.tag_lower d rfl
  have lowUp : (low d).parent = cache.nextId := cut.between.up_lower d
  have upUp : (up d).parent = d.parent := cut.between.up_upper d
  have nodes : cache'.nodes = links.expand d.id low up cache.nodes := by rw [cut.eq]
  have leaves : cache'.evictableLeaves = cache.evictableLeaves := by rw [cut.eq]
  have lower_mem : low d ∈ cache'.nodes := nodes ▸ lower_mem_expand cut.mem rfl
  have upper_mem : up d ∈ cache'.nodes := nodes ▸ upper_mem_expand cut.mem rfl
  -- the new node is the only one whose children are not as before
  have childless : ∀ i, i ≠ cache.nextId →
      ((∀ e ∈ cache'.nodes, e.parent ≠ i) ↔ ∀ e ∈ cache.nodes, e.parent ≠ i) := by
    intro i other
    constructor
    · intro free e mem
      by_cases here : e.id = d.id
      · obtain rfl := shape.tree.rooted.eq_of_tag mem cut.mem here
        exact upUp ▸ free (up e) upper_mem
      · exact free e (nodes ▸ mem_expand.mpr (.inl ⟨mem, here⟩))
    · intro free e mem
      rcases cut.cases shape mem with ⟨old, -⟩ | rfl | rfl
      · exact free e old
      · rw [lowUp]
        exact other.symm
      · rw [upUp]
        exact free d cut.mem
  have fresh : ∀ e ∈ cache.nodes, e.id ≠ cache.nextId := fun e mem => (shape.bound e mem).ne
  -- the halves have the locks of the node and together its length
  have lengths := cut.lengths
  have halves (w : TreeNode → Int) (same : w (low d) + w (up d) = w d) :
      weigh w cache'.nodes = weigh w cache.nodes := by
    rw [nodes]
    apply (weigh_expand shape.tree.rooted.nodup cut.mem w).trans
    omega
  refine ⟨cut.shape, fun e mem => ?_, ?_, ?_, fun e mem => ?_⟩
  · rcases cut.cases shape mem with ⟨old, -⟩ | rfl | rfl
    · exact balanced.nonneg e old
    · exact (cut.locks d).1 ▸ balanced.nonneg d cut.mem
    · exact (cut.locks d).2 ▸ balanced.nonneg d cut.mem
  · rw [halves evictableTokens, cut.eq]
    · exact balanced.evictable
    · simp only [evictableTokens, cut.locks]
      split <;> omega
  · rw [halves protectedTokens, cut.eq]
    · exact balanced.protectedTotal
    · simp only [protectedTokens, cut.locks]
      split <;> omega
  · rw [leaves]
    rcases cut.cases shape mem with ⟨old, -⟩ | rfl | rfl
    · rw [childless e.id (fresh e old)]
      exact balanced.leafSet e old
    · rw [lowTag, (cut.locks d).1, childless d.id (fresh d cut.mem)]
      exact balanced.leafSet d cut.mem
    · rw [upTag]
      refine iff_of_false (fun leaf => shape.fresh (.inr (shape.leaves _ leaf).1)) fun both => ?_
      exact both.2 (low d) lower_mem lowUp

lemma Counted.cut (counted : Counted c handles cache) (shape : cache.Shape c)
    (cut : CutAt c cache d low up cache') : Counted c handles cache' := by
  have nodes : cache'.nodes = links.expand d.id low up cache.nodes := by rw [cut.eq]
  have known : ∀ e ∈ cache.nodes, e.parent ≠ cache.nextId := fun e old same =>
    shape.fresh (same ▸ shape.tree.up_known old)
  have tags : ∀ h ∈ handles, ∀ i, i ∈ links.tags (cache'.spine h) ↔
      i ∈ links.tags (cache.spine h) ∨ d.id ∈ links.tags (cache.spine h) ∧ i = cache.nextId := by
    intro h held i
    have other : h ≠ cache.nextId := fun same => shape.fresh (same ▸ counted.handled h held)
    have path : cache'.spine h = links.expand d.id low up (cache.spine h) := by
      rw [spine, nodes]
      exact spine_expand cut.between known other
    rw [path]
    exact mem_tags_expand cut.between
  have off : ∀ h, cache.nextId ∉ links.tags (cache.spine h) := by
    intro h inside
    obtain ⟨e, on, tag⟩ := mem_map.mp inside
    exact (shape.bound e (mem_of_mem_spine on)).ne tag
  have same : ∀ i, i ≠ cache.nextId → cache'.locksBelow handles i = cache.locksBelow handles i := by
    intro i other
    apply countP_congr
    intro h held
    rw [decide_eq_true_eq, tags h held]
    simp [other]
  refine ⟨fun h held => ?_, fun e mem => ?_⟩
  · apply (counted.handled h held).imp_right
    intro named
    rw [nodes]
    exact (mem_tags_expand cut.between).mpr (.inl named)
  · have fresh : ∀ e ∈ cache.nodes, e.id ≠ cache.nextId := fun e mem => (shape.bound e mem).ne
    rcases cut.cases shape mem with ⟨old, -⟩ | rfl | rfl
    · rw [same e.id (fresh e old)]
      exact counted.counted e old
    · rw [show (low d).id = d.id from cut.between.tag_lower d rfl, same d.id (fresh d cut.mem),
        (cut.locks d).1]
      exact counted.counted d cut.mem
    · -- a lock is below the new node just if it is below its only child
      have upTag : (up d).id = cache.nextId := cut.between.tag_upper d
      rw [upTag, (cut.locks d).2, counted.counted d cut.mem]
      congr 1
      refine countP_congr fun h held => ?_
      rw [decide_eq_true_eq, decide_eq_true_eq, tags h held]
      simp [off h]

lemma cuts_keep (cuts : Relation.ReflTransGen (Cut c) cache cache') (balanced : cache.Balanced c)
    (counted : Counted c handles cache) : cache'.Balanced c ∧ Counted c handles cache' := by
  induction cuts with
  | refl => exact ⟨balanced, counted⟩
  | tail _ cut ih =>
    obtain ⟨d, low, up, at_⟩ := ih.1.toShape.cutAt cut
    exact ⟨ih.1.cut at_, ih.2.cut ih.1.toShape at_⟩

/-! ### A new leaf -/

lemma Counted.cons {new : TreeNode} (counted : Counted c handles cache) (shape : cache.Shape c)
    (nodes : cache'.nodes = new :: cache.nodes) (named : new.id = cache.nextId)
    (free : new.lockRef = 0) : Counted c handles cache' := by
  -- held locks are on nodes from before, and so are their paths
  have paths : ∀ h ∈ handles, cache'.spine h = cache.spine h := by
    intro h held
    have other : links.tag new ≠ h := fun same =>
      shape.fresh (named.symm.trans same ▸ counted.handled h held)
    rw [spine, nodes]
    exact spine_cons_of_ne other
  have below : ∀ i, cache'.locksBelow handles i = cache.locksBelow handles i := fun i =>
    countP_congr fun h held => by rw [paths h held]
  refine ⟨fun h held => ?_, ?_⟩
  · rw [nodes]
    exact (counted.handled h held).imp_right (mem_cons_of_mem _)
  · rw [nodes]
    refine forall_mem_cons.mpr ⟨?_, fun e => (below e.id).symm ▸ counted.counted e⟩
    rw [below, locksBelow, countP_eq_zero.mpr]
    · exact free
    · intro h _ inside
      obtain ⟨e, on, tag⟩ := mem_map.mp (of_decide_eq_true inside)
      exact (shape.bound e (mem_of_mem_spine on)).ne (tag.trans named)

lemma Balanced.addLeaf {node new : Nat} {key : RadixKey} {value : List Int}
    (balanced : cache.Balanced c) (fits : Fits c cache node key value)
    (ran : cache.addLeaf c node key value = some (cache', new)) :
    cache'.Balanced c ∧ ∃ leaf, cache'.nodes = leaf :: cache.nodes ∧ leaf.id = cache.nextId ∧
      leaf.lockRef = 0 := by
  have shape := balanced.toShape
  obtain ⟨_, _, result, grown⟩ := shape.addLeaf fits
  cases result.symm.trans ran
  obtain ⟨edge, -, eq⟩ := bind_eq_some_iff.mp ran
  cases eq
  refine ⟨balanced_updateLeafStatus grown.shape ?_ ?_ ?_ ?_, _, rfl, rfl, rfl⟩
  · exact forall_mem_cons.mpr ⟨le_rfl, balanced.nonneg⟩
  · rw [balanced.evictable]
    exact add_comm _ _
  · rw [balanced.protectedTotal]
    exact (zero_add _).symm
  · intro e mem other
    have old := (mem_cons.mp mem).resolve_left fun new => other (by rw [new])
    have form : Form c { cache with
        nodes := ⟨cache.nextId, node, edge, key, value, 0⟩ :: cache.nodes
        nextId := cache.nextId + 1
        evictableSize := cache.evictableSize + key.len } := grown.shape.toForm.congr rfl rfl
    rw [mem_updateLeafStatus form]
    split
    · -- the parent of the new leaf
      rename_i here
      refine iff_of_false ?_ fun both => both.2 _ mem_cons_self here.symm
      rintro ⟨-, -, -, -, childless⟩
      exact childless _ mem_cons_self rfl
    · rename_i here
      refine (balanced.leafSet e old).trans (and_congr_right fun _ => ?_)
      refine ⟨fun free => forall_mem_cons.mpr ⟨.symm here, free⟩, fun free => ?_⟩
      exact (forall_mem_cons.mp free).2

/-! ### Locks -/

/-- The nodes after the locks of some of them have changed. -/
def relock (delta : Int) (ids : List Nat) (nodes : List TreeNode) : List TreeNode :=
  nodes.map fun e => if e.id ∈ ids then { e with lockRef := e.lockRef + delta } else e

lemma weigh_relock (w : TreeNode → Int) (delta : Int) (form : cache.Form c)
    (mem : d ∈ cache.nodes) : weigh w (relock delta [d.id] cache.nodes) =
      weigh w cache.nodes + (w { d with lockRef := d.lockRef + delta } - w d) := by
  apply (weigh_rewrite form.tree.rooted.nodup [d]
    (by simpa using mem) (nodup_singleton _) _ w).trans
  rw [weigh_cons, weigh_nil, add_zero]

lemma Balanced.addLock (balanced : cache.Balanced c) (mem : d ∈ cache.nodes)
    (step : delta = 1 ∨ delta = -1 ∧ 1 ≤ d.lockRef) :
    (cache.addLock delta d).Balanced c ∧
      (cache.addLock delta d).nodes = relock delta [d.id] cache.nodes := by
  have shape := balanced.toShape
  have shape' := (shape.addLock delta d).1
  have nodes : (cache.addLock delta d).nodes = relock delta [d.id] cache.nodes := by
    simp only [relock, mem_singleton]
    rfl
  have nonneg := balanced.nonneg d mem
  refine ⟨balanced_updateLeafStatus shape' ?_ ?_ ?_ ?_, nodes⟩
  · intro e inside
    obtain ⟨old, stored, rfl⟩ := mem_map.mp inside
    have := balanced.nonneg old stored
    split
    · rename_i here
      obtain rfl := shape.tree.rooted.eq_of_tag stored mem here
      change 0 ≤ old.lockRef + delta
      omega
    · exact this
  · refine .trans ?_ ((congrArg _ nodes).trans (weigh_relock _ delta shape.toForm mem)).symm
    rw [balanced.evictable]
    simp only [evictableTokens]
    split_ifs <;> omega
  · refine .trans ?_ ((congrArg _ nodes).trans (weigh_relock _ delta shape.toForm mem)).symm
    rw [balanced.protectedTotal]
    simp only [protectedTokens]
    split_ifs <;> omega
  · intro e inside other
    obtain ⟨old, stored, rfl⟩ := mem_map.mp inside
    have apart : old.id ≠ d.id := by
      intro same
      rw [if_pos same] at other
      exact other same
    rw [if_neg apart, List.forall_mem_map]
    refine (balanced.leafSet old stored).trans (and_congr_right fun _ => ?_)
    apply forall₂_congr
    intro e _
    split <;> rfl

lemma Balanced.addLocks (delta : Int) (path : List TreeNode) (balanced : cache.Balanced c)
    (stored : ∀ d ∈ path, d ∈ cache.nodes) (nodup : (links.tags path).Nodup)
    (step : delta = 1 ∨ delta = -1 ∧ ∀ d ∈ path, 1 ≤ d.lockRef) :
    (path.foldl (Cache.addLock delta) cache).Balanced c ∧
      (path.foldl (Cache.addLock delta) cache).nodes =
        relock delta (links.tags path) cache.nodes := by
  induction path generalizing cache with
  | nil => exact ⟨balanced, by simp [relock, tags]⟩
  | cons d path ih =>
    obtain ⟨fresh, nodup⟩ := nodup_cons.mp nodup
    obtain ⟨here, later⟩ := forall_mem_cons.mp stored
    obtain ⟨once, nodes⟩ := balanced.addLock here
      (step.imp_right (.imp_right fun all => all d mem_cons_self))
    -- the nodes further up are not touched yet
    obtain ⟨all, nodes'⟩ := ih once (fun e on => nodes ▸ mem_map.mpr ⟨e, later e on,
        if_neg fun same => fresh (mem_map.mpr ⟨e, on, mem_singleton.mp same⟩)⟩) nodup
      (step.imp_right (.imp_right fun all e on => all e (mem_cons_of_mem _ on)))
    refine ⟨all, nodes'.trans ?_⟩
    rw [nodes, relock, relock, List.map_map]
    apply map_congr_left
    intro e _
    have tags : links.tags (d :: path) = d.id :: links.tags path := rfl
    have out : d.id ∉ links.tags path := fresh
    by_cases same : e.id = d.id
    · simp [tags, same, out]
    · simp [tags, same]

/-- Locks do not move nodes. -/
lemma tags_spine_relock (nodes : cache'.nodes = relock delta ids cache.nodes) (h : Nat) :
    links.tags (cache'.spine h) = links.tags (cache.spine h) := by
  have tag : ∀ e : TreeNode, links.tag (if e.id ∈ ids then
      { e with lockRef := e.lockRef + delta } else e) = links.tag e := by intro e; split <;> rfl
  have up : ∀ e : TreeNode, links.up (if e.id ∈ ids then
      { e with lockRef := e.lockRef + delta } else e) = links.up e := by intro e; split <;> rfl
  rw [spine, nodes, relock, spine_map tag up, tags_map tag]
  rfl

lemma Counted.relock {handles' : List Nat} (counted : Counted c handles cache)
    (nodes : cache'.nodes = relock delta ids cache.nodes)
    (known : ∀ h ∈ handles', (trie c).Known cache.nodes h)
    (counts : ∀ i, (cache.locksBelow handles' i : Int) =
      cache.locksBelow handles i + if i ∈ ids then delta else 0) : Counted c handles' cache' := by
  have below : ∀ i, cache'.locksBelow handles' i = cache.locksBelow handles' i := fun i =>
    countP_congr fun h _ => by rw [tags_spine_relock nodes]
  have tags : (trie c).tags cache'.nodes = (trie c).tags cache.nodes := by
    rw [nodes]
    exact tags_map (k := links) fun e => by split <;> rfl
  refine ⟨fun h held => (known h held).imp_right fun named => tags ▸ named, fun d mem => ?_⟩
  rw [nodes] at mem
  obtain ⟨e, stored, rfl⟩ := mem_map.mp mem
  have old := counted.counted e stored
  have new := counts e.id
  rw [below]
  split
  · rename_i inside
    rw [if_pos inside] at new
    change e.lockRef + delta = (cache.locksBelow handles' e.id : Int)
    omega
  · rename_i outside
    rw [if_neg outside] at new
    omega

section

variable (balanced : cache.Balanced c) (counted : Counted c handles cache)
include balanced counted

lemma Balanced.incLockRef (known : (trie c).Known cache.nodes i) (on : c.disable = false) :
    (cache.incLockRef c i).Balanced c ∧ Counted c (i :: handles) (cache.incLockRef c i) := by
  rw [Cache.incLockRef, on]
  obtain ⟨after, nodes⟩ := balanced.addLocks 1 (cache.spine i)
    (fun d on => mem_of_mem_spine on)
    (balanced.tree.rooted.nodup_spine i) (.inl rfl)
  have handled := forall_mem_cons.mpr ⟨known, counted.handled⟩
  refine ⟨after, counted.relock nodes handled fun j => ?_⟩
  rw [locksBelow, locksBelow, countP_cons]
  simp only [decide_eq_true_eq]
  split <;> omega

/-- A lock that is held can be released. -/
lemma Balanced.decLockRef (held : i ∈ handles) (on : c.disable = false) :
    (cache.decLockRef c i).Balanced c ∧ Counted c (handles.erase i) (cache.decLockRef c i) := by
  rw [Cache.decLockRef, on]
  have split : ∀ j, cache.locksBelow handles j = cache.locksBelow (handles.erase i) j +
      if j ∈ links.tags (cache.spine i) then 1 else 0 := by
    intro j
    rw [locksBelow, (perm_cons_erase held).countP_eq, countP_cons]
    simp only [decide_eq_true_eq]
    rfl
  have locks : ∀ d ∈ cache.spine i, 1 ≤ d.lockRef := by
    intro d on
    have below := split d.id
    have inside : d.id ∈ links.tags (cache.spine i) := mem_map.mpr ⟨d, on, rfl⟩
    rw [if_pos inside] at below
    rw [counted.counted d (mem_of_mem_spine on)]
    omega
  obtain ⟨after, nodes⟩ := balanced.addLocks (-1) (cache.spine i)
    (fun d on => mem_of_mem_spine on)
    (balanced.tree.rooted.nodup_spine i) (.inr ⟨rfl, locks⟩)
  refine ⟨after, counted.relock nodes (fun h mem => counted.handled h (mem_of_mem_erase mem))
    fun j => ?_⟩
  rw [split j]
  split <;> omega

end

/-! ### Eviction -/

/-- Locks grow towards the root. -/
lemma Counted.le_parent (counted : Counted c handles cache) (shape : cache.Shape c)
    (mem : d ∈ cache.nodes) (mem' : e ∈ cache.nodes) (up : e.parent = d.id) :
    e.lockRef ≤ d.lockRef := by
  rw [counted.counted d mem, counted.counted e mem', Int.ofNat_le]
  apply countP_mono_left
  intro h _ inside
  obtain ⟨e', on, tag⟩ := mem_map.mp (of_decide_eq_true inside)
  obtain rfl := shape.tree.rooted.eq_of_tag (mem_of_mem_spine on) mem' tag
  have path : links.spine cache.nodes e'.id = e' :: d :: links.spine cache.nodes d.parent := by
    rw [show links.spine cache.nodes e'.id = _ from shape.tree.rooted.spine_tag mem']
    exact congrArg _ ((congrArg _ up).trans (shape.tree.rooted.spine_tag mem))
  have suffix : links.spine cache.nodes e'.id <:+ cache.spine h := shape.tree.rooted.spine_suffix on
  rw [path] at suffix
  exact decide_eq_true (mem_map.mpr ⟨d, suffix.subset (by simp), rfl⟩)

/-- With no leaf to start from, everything is locked. -/
lemma Balanced.evictable_eq_zero (balanced : cache.Balanced c) (counted : Counted c handles cache)
    (noLeaf : ¬ cache.evictableLeaves.Nonempty) : cache.evictableSize = 0 := by
  have busy : ∀ d ∈ cache.nodes, d.lockRef ≠ 0 := by
    intro d mem free
    obtain ⟨b, stored, bottom, childless⟩ := balanced.tree.rooted.exists_bottom
      (fun d mem e mem' free up => le_antisymm
        (free ▸ counted.le_parent balanced.toShape mem mem' up) (balanced.nonneg e mem')) mem free
    exact noLeaf ⟨b.id, (balanced.leafSet b stored).mpr ⟨bottom, childless⟩⟩
  have zero : weigh evictableTokens cache.nodes = weigh (fun _ => 0) cache.nodes :=
    weigh_congr fun d mem => if_neg (busy d mem)
  rw [balanced.evictable, zero]
  simp [weigh]

lemma Balanced.updated_leaves {mid : Cache} (balanced : (mid.updateLeafStatus i).Balanced c)
    (before : i ∉ mid.evictableLeaves) : (mid.updateLeafStatus i).evictableLeaves =
      if !(mid.updateLeafStatus i).hasChildren i &&
        ((mid.updateLeafStatus i).find? i).any fun p => decide (p.lockRef = 0)
      then Insert.insert i mid.evictableLeaves else mid.evictableLeaves := by
  have status : ((mid.find? i).any fun d => decide (d.lockRef ≤ 0) && !mid.hasChildren i) =
      (!mid.hasChildren i && (mid.find? i).any fun p => decide (p.lockRef = 0)) := by
    cases found : mid.find? i with
    | none => simp
    | some p =>
      have nonneg := balanced.nonneg p (mem_of_find? found).1
      have same : decide (p.lockRef ≤ 0) = decide (p.lockRef = 0) := by
        rw [decide_eq_decide]
        omega
      rw [any_some, any_some, same, Bool.and_comm]
  change (if _ then _ else _ : Finset Nat) = if !mid.hasChildren i && _ then _ else _
  rw [status, Finset.erase_eq_of_notMem before]
  rfl

/-- What `_delete_leaf` leaves of the counts. -/
structure Deleted (c : Config) (handles : List Nat) (cache : Cache) (d : TreeNode)
    (cache' : Cache) : Prop where
  balanced : cache'.Balanced c
  counted : Counted c handles cache'
  nodes : cache'.nodes = cache.nodes.filter fun e => decide (e.id ≠ d.id)
  size : cache'.evictableSize = cache.evictableSize - d.key.len
  leaves : cache'.evictableLeaves = if !cache'.hasChildren d.parent &&
    (cache'.find? d.parent).any fun p => decide (p.lockRef = 0)
    then Insert.insert d.parent (cache.evictableLeaves.erase d.id)
    else cache.evictableLeaves.erase d.id

lemma Counted.remove (counted : Counted c handles cache) (shape : cache.Shape c)
    (mem : d ∈ cache.nodes) (free : d.lockRef = 0)
    (nodes : cache'.nodes = cache.nodes.filter fun e => decide (e.id ≠ d.id)) :
    Counted c handles cache' := by
  -- no lock is at or below the node
  have off : ∀ h ∈ handles, d.id ∉ links.tags (cache.spine h) := by
    have zero : cache.locksBelow handles d.id = 0 := by
      have := counted.counted d mem
      omega
    exact fun h held inside => countP_eq_zero.mp zero h held (decide_eq_true inside)
  have paths : ∀ h ∈ handles, cache'.spine h = cache.spine h := by
    intro h held
    rw [spine, nodes]
    exact spine_filter fun e on => decide_eq_true fun same =>
      off h held (mem_map.mpr ⟨e, on, same⟩)
  refine ⟨fun h held => (counted.handled h held).imp_right fun named => ?_, fun e inside => ?_⟩
  · obtain ⟨e, stored, tag⟩ := mem_map.mp named
    rw [nodes]
    refine mem_map.mpr ⟨e, mem_filter.mpr ⟨stored, decide_eq_true fun same => ?_⟩, tag⟩
    have path : cache.spine h = e :: links.spine cache.nodes e.parent := by
      rw [← tag]
      exact shape.tree.rooted.spine_tag stored
    exact off h held (mem_map.mpr ⟨e, path ▸ mem_cons_self, same⟩)
  · rw [nodes] at inside
    refine (counted.counted e (mem_of_mem_filter inside)).trans (congrArg _ ?_)
    exact countP_congr fun h held => by rw [paths h held]

/-- A deleted leaf is not locked, so it is on no path of a lock. -/
lemma Balanced.deleteLeaf (balanced : cache.Balanced c) (counted : Counted c handles cache)
    (mem : d ∈ cache.nodes) (leaf : d.id ∈ cache.evictableLeaves) :
    ∃ cache', cache.deleteLeaf c d = some cache' ∧ Deleted c handles cache d cache' := by
  have shape := balanced.toShape
  obtain ⟨free, childless⟩ := (balanced.leafSet d mem).mp leaf
  obtain ⟨cache', ran, shape', -⟩ := shape.deleteLeaf mem childless
  cases (shape.deleteLeaf_eq mem).symm.trans ran
  have kept : ∀ {e}, e ∈ cache.nodes.filter (fun e => decide (e.id ≠ d.id)) ↔
      e ∈ cache.nodes ∧ e.id ≠ d.id := by simp
  have after := balanced_updateLeafStatus shape'
    (fun e inside => balanced.nonneg e (kept.mp inside).1) ?_ ?_ fun e inside other => ?_
  · refine ⟨_, ran, after, counted.remove shape mem free rfl, rfl, rfl, after.updated_leaves ?_⟩
    -- the parent had a child, so it was no leaf before
    exact fun inside => (shape.leaves _ (Finset.mem_of_mem_erase inside)).2 d mem rfl
  · refine .trans ?_ (weigh_remove shape.tree.rooted.nodup mem _).symm
    rw [evictableTokens, if_pos free, ← balanced.evictable]
  · refine .trans ?_ (weigh_remove shape.tree.rooted.nodup mem _).symm
    rw [protectedTokens, if_neg (by omega), sub_zero]
    exact balanced.protectedTotal
  · obtain ⟨old, apart⟩ := kept.mp inside
    have same : e.id ∈ cache.evictableLeaves.erase d.id ↔ e.id ∈ cache.evictableLeaves := by
      simp [apart]
    refine same.trans ((balanced.leafSet e old).trans (and_congr_right fun _ => ?_))
    refine ⟨fun all x inside => all x (kept.mp inside).1, fun all x stored => ?_⟩
    by_cases here : x.id = d.id
    · obtain rfl := shape.tree.rooted.eq_of_tag stored mem here
      exact .symm other
    · exact all x (kept.mpr ⟨stored, here⟩)

/-- What an eviction leaves, and the nodes it has freed. -/
structure Frees (c : Config) (handles : List Nat) (numTokens : Nat) (e e' : Evicted)
    (gone : List TreeNode) : Prop where
  balanced : e'.cache.Balanced c
  counted : Counted c handles e'.cache
  freed : e'.freed = e.freed ++ gone.flatMap TreeNode.value
  free : ∀ d ∈ gone, d ∈ e.cache.nodes ∧ d.lockRef = 0
  once : gone.Nodup
  nodes : ∀ d, d ∈ e'.cache.nodes ↔ d ∈ e.cache.nodes ∧ d ∉ gone
  moved : e'.cache.evictableSize + e'.freed.length = e.cache.evictableSize + e.freed.length
  enough : numTokens ≤ e'.freed.length ∨ e'.cache.evictableSize = 0

lemma Frees.refl {numTokens : Nat} {e : Evicted} (balanced : e.cache.Balanced c)
    (counted : Counted c handles e.cache)
    (enough : numTokens ≤ e.freed.length ∨ e.cache.evictableSize = 0) :
    Frees c handles numTokens e e [] :=
  ⟨balanced, counted, by simp, by simp, nodup_nil, by simp, rfl, enough⟩

lemma evictLoop_frees {numTokens fuel : Nat} {e : Evicted}
    (pops : ∀ heap : Finset Nat, heap.Nonempty → pop heap ∈ heap) (balanced : e.cache.Balanced c)
    (counted : Counted c handles e.cache) (room : e.cache.nodes.length ≤ fuel) :
    ∃ e' gone, evictLoop c pop numTokens fuel e.cache.evictableLeaves e = some e' ∧
      Frees c handles numTokens e e' gone := by
  induction fuel generalizing e with
  | zero =>
    have bare : e.cache.nodes = [] := length_eq_zero_iff.mp (Nat.le_zero.mp room)
    refine ⟨e, [], rfl, .refl balanced counted (.inr ?_)⟩
    rw [balanced.evictable, bare]
    rfl
  | succ fuel ih =>
    unfold evictLoop
    by_cases busy : e.freed.length < numTokens ∧ e.cache.evictableLeaves.Nonempty
    · rw [if_pos busy]
      have leaf := pops _ busy.2
      obtain ⟨named, -⟩ := balanced.leaves _ leaf
      obtain ⟨d, mem, tag⟩ := mem_map.mp named
      have same : d.id = pop e.cache.evictableLeaves := tag
      rw [← same] at leaf ⊢
      obtain ⟨cache', ran, deleted⟩ := balanced.deleteLeaf counted mem leaf
      rw [balanced.toForm.find? mem, bind_eq_bind, bind_some, ran]
      have fewer : cache'.nodes.length ≤ fuel := by
        have lt : cache'.nodes.length < e.cache.nodes.length := by
          rw [deleted.nodes]
          exact length_filter_lt_length_iff_exists.mpr ⟨d, mem, by simp⟩
        omega
      obtain ⟨e', gone, rest, frees⟩ := ih
        (e := ⟨cache', e.freed ++ d.value, e.gone ++ e.cache.words c d⟩)
        deleted.balanced deleted.counted fewer
      have less (x : TreeNode) : x ∈ cache'.nodes ↔ x ∈ e.cache.nodes ∧ x ≠ d := by
        rw [deleted.nodes, mem_filter, decide_eq_true_eq]
        refine and_congr_right fun stored => not_congr ⟨fun tag => ?_, congrArg _⟩
        exact balanced.toShape.tree.rooted.eq_of_tag stored mem tag
      rw [deleted.leaves] at rest
      refine ⟨e', d :: gone, rest, frees.balanced, frees.counted, ?_, ?_,
        nodup_cons.mpr ⟨fun again => ((less d).mp (frees.free d again).1).2 rfl, frees.once⟩,
        fun x => ?_, ?_, frees.enough⟩
      · rw [frees.freed, flatMap_cons, append_assoc]
      · refine forall_mem_cons.mpr ⟨⟨mem, ((balanced.leafSet d mem).mp leaf).1⟩, ?_⟩
        exact fun x inside => (frees.free x inside).imp_left fun stored => ((less x).mp stored).1
      · rw [frees.nodes, less, mem_cons, not_or, and_assoc]
      · have moved := frees.moved
        have length := balanced.valued d mem
        rw [deleted.size, length_append] at moved
        omega
    · rw [if_neg busy]
      refine ⟨e, [], rfl, .refl balanced counted ?_⟩
      rcases not_and_or.mp busy with done | noLeaf
      · exact .inl (Nat.le_of_not_lt done)
      · exact .inr (balanced.evictable_eq_zero counted noLeaf)

lemma Balanced.evict (numTokens : Nat) (balanced : cache.Balanced c)
    (counted : Counted c handles cache) (off : c.disable = true → cache.nodes = [])
    (pops : ∀ heap : Finset Nat, heap.Nonempty → pop heap ∈ heap) :
    ∃ e gone, cache.evict c numTokens pop = some e ∧
      Frees c handles numTokens ⟨cache, [], []⟩ e gone := by
  unfold Cache.evict
  by_cases disabled : c.disable = true
  · rw [if_pos disabled]
    refine ⟨_, [], rfl, .refl balanced counted (.inr ?_)⟩
    rw [balanced.evictable, off disabled]
    rfl
  · rw [if_neg disabled]
    exact evictLoop_frees (e := ⟨cache, [], []⟩) pops balanced counted (le_refl _)

/-- Some map says what the tree keeps. -/
lemma Shape.exists_refines (shape : cache.Shape c) : ∃ M, Refines c cache M := by
  classical
  refine ⟨fun word => if holds : ∃ slots, cache.Holds c word slots then some holds.choose else none,
    fun word slots => ?_⟩
  dsimp only
  split
  · rename_i holds
    rw [some.injEq]
    refine ⟨fun same => same ▸ holds.choose_spec, fun here => ?_⟩
    exact shape.tree.holds_unique holds.choose_spec here
  · rename_i unheld
    exact iff_of_false (by simp) fun here => unheld ⟨slots, here⟩

/-- The count of any node; the root has one lock, which `reset` takes and no walk changes. -/
def lockRefOf (cache : Cache) (i : Nat) : Int :=
  if i = 0 then 1 else ((cache.find? i).map TreeNode.lockRef).getD 0

end Cache

/-! ### Runs -/

/-- The cache and the nodes whose locks are held. -/
structure Locked where
  cache : Cache
  handles : List Nat

/-- What callers promise: a slot for every token, a heap that yields what it holds, locks on nodes
of the tree, and that they release only locks they hold. -/
def Op.AllowedLocked (c : Config) (s : Locked) : Op → Prop
  | .insert key value => Cache.Covers c key value
  | .matchPrefix _ => True
  | .evict _ pop => ∀ heap : Finset Nat, heap.Nonempty → pop heap ∈ heap
  | .incLockRef node => (trie c).Known s.cache.nodes node
  | .decLockRef node => node ∈ s.handles

def Op.runLocked (c : Config) (s : Locked) : Op → Option Locked
  | .insert key value => (s.cache.insert c key value).map fun (cache, _) => ⟨cache, s.handles⟩
  | .matchPrefix key => (s.cache.matchPrefix c key).map fun (cache, _) => ⟨cache, s.handles⟩
  | .evict numTokens pop => (s.cache.evict c numTokens pop).map fun e => ⟨e.cache, s.handles⟩
  | .incLockRef node => some ⟨s.cache.incLockRef c node, node :: s.handles⟩
  | .decLockRef node => some ⟨s.cache.decLockRef c node, s.handles.erase node⟩

def lockMachine (c : Config) : Machine Locked Op where
  start s := s = ⟨.reset, []⟩
  allowed := Op.AllowedLocked c
  step := Op.runLocked c

structure Accounted (c : Config) (s : Locked) : Prop where
  balanced : s.cache.Balanced c
  counted : Cache.Counted c s.handles s.cache
  off : c.disable = true → s.cache.nodes = []

/-- Without nodes there is nothing to count. -/
lemma Accounted.disabled {c : Config} {s : Locked} (accounted : Accounted c s)
    (disabled : c.disable = true) {handles : List Nat}
    (known : ∀ h ∈ handles, (trie c).Known s.cache.nodes h) : Accounted c ⟨s.cache, handles⟩ :=
  ⟨accounted.balanced, ⟨known, by simp [accounted.off disabled]⟩, accounted.off⟩

lemma lockMachine_accounted (c : Config) : (lockMachine c).Inductive (Accounted c) where
  start s first := by
    obtain rfl : s = ⟨.reset, []⟩ := first
    exact ⟨Cache.balanced_reset c, ⟨by simp, by simp [Cache.reset]⟩, fun _ => rfl⟩
  step s op s' accounted ok ran := by
    have balanced := accounted.balanced
    have counted := accounted.counted
    have off := accounted.off
    have shape := balanced.toShape
    cases op with
    | insert key value =>
      obtain ⟨⟨cache', result⟩, inserted, rfl⟩ := map_eq_some_iff.mp ran
      cases on : c.disable with
      | true =>
        rw [Cache.insert, on] at inserted
        cases inserted
        exact accounted
      | false =>
        obtain ⟨M, refines⟩ := shape.exists_refines
        obtain ⟨cache'', _, inserted', -, -, mid, cuts, leaf⟩ := shape.insert refines ok on
        obtain rfl := (Prod.mk.inj (some.inj (inserted'.symm.trans inserted))).1
        obtain ⟨balanced', counted'⟩ := Cache.cuts_keep cuts balanced counted
        have on' : c.disable = true → cache''.nodes = [] := by simp [on]
        rcases leaf with rfl | ⟨node, key, value, new, fits, added⟩
        · exact ⟨balanced', counted', on'⟩
        · obtain ⟨grown, leaf, nodes, named, free⟩ := balanced'.addLeaf fits added
          exact ⟨grown, counted'.cons balanced'.toShape nodes named free, on'⟩
    | matchPrefix key =>
      obtain ⟨⟨cache', result⟩, matched, rfl⟩ := map_eq_some_iff.mp ran
      obtain ⟨cache'', _, matched', found⟩ := shape.matchPrefix off key
      cases matched'.symm.trans matched
      obtain ⟨balanced', counted'⟩ := Cache.cuts_keep found.cuts balanced counted
      refine ⟨balanced', counted', fun on => ?_⟩
      have same : s.cache.matchPrefix c key = some (s.cache, ⟨0, 0⟩) := by
        simp [Cache.matchPrefix, on]
      cases same.symm.trans matched
      exact off on
    | evict numTokens pop =>
      obtain ⟨e, evicted, rfl⟩ := map_eq_some_iff.mp ran
      obtain ⟨e', gone, evicted', frees⟩ := balanced.evict numTokens counted off ok
      cases evicted'.symm.trans evicted
      exact ⟨frees.balanced, frees.counted, fun on =>
        eq_nil_of_subset_nil (off on ▸ fun x mem => ((frees.nodes x).mp mem).1)⟩
    | incLockRef node =>
      cases ran
      cases on : c.disable with
      | true =>
        rw [Cache.incLockRef, on]
        exact accounted.disabled on (forall_mem_cons.mpr ⟨ok, counted.handled⟩)
      | false =>
        obtain ⟨balanced', counted'⟩ := balanced.incLockRef counted ok on
        exact ⟨balanced', counted', fun disabled => by simp [on] at disabled⟩
    | decLockRef node =>
      cases ran
      cases on : c.disable with
      | true =>
        rw [Cache.decLockRef, on]
        exact accounted.disabled on fun h mem => counted.handled h (mem_of_mem_erase mem)
      | false =>
        obtain ⟨balanced', counted'⟩ := balanced.decLockRef counted ok on
        exact ⟨balanced', counted', fun disabled => by simp [on] at disabled⟩

/-- After any run: the sizes count unlocked and locked tokens, locks grow towards the root (which
has one lock of its own), the evictable leaves are the unlocked leaves, and an eviction frees only
unlocked nodes, and as many tokens as it was asked for or as there were. -/
theorem reachable_accounting {c : Config} {s : Locked} (reached : (lockMachine c).Reachable s) :
    s.cache.evictableSize = weigh Cache.evictableTokens s.cache.nodes ∧
    s.cache.protectedSize = weigh Cache.protectedTokens s.cache.nodes ∧
    (∀ d ∈ s.cache.nodes, ∀ e ∈ s.cache.nodes, e.parent = d.id → e.lockRef ≤ d.lockRef) ∧
    (∀ i, i ∈ s.cache.evictableLeaves ↔
      ∃ d ∈ s.cache.nodes, d.id = i ∧ d.lockRef = 0 ∧ ∀ e ∈ s.cache.nodes, e.parent ≠ i) ∧
    ∀ numTokens pop, (∀ heap : Finset Nat, heap.Nonempty → pop heap ∈ heap) →
      ∃ (e : Cache.Evicted) (gone : List TreeNode), s.cache.evict c numTokens pop = some e ∧
        e.freed = gone.flatMap TreeNode.value ∧ gone.Nodup ∧
        (∀ d ∈ gone, d ∈ s.cache.nodes ∧ d.lockRef = 0) ∧
        (∀ d, d ∈ e.cache.nodes ↔ d ∈ s.cache.nodes ∧ d ∉ gone) ∧
        e.cache.evictableSize + e.freed.length = s.cache.evictableSize ∧
        min (numTokens : Int) s.cache.evictableSize ≤ e.freed.length := by
  obtain ⟨balanced, counted, off⟩ := (lockMachine_accounted c).reachable reached
  refine ⟨balanced.evictable, balanced.protectedTotal,
    fun d mem e => counted.le_parent balanced.toShape mem, fun i => ?_,
    fun numTokens pop pops => ?_⟩
  · constructor
    · intro leaf
      obtain ⟨d, mem, rfl⟩ := mem_map.mp (balanced.leaves i leaf).1
      exact ⟨d, mem, rfl, (balanced.leafSet d mem).mp leaf⟩
    · rintro ⟨d, mem, rfl, leaf⟩
      exact (balanced.leafSet d mem).mpr leaf
  · obtain ⟨e, gone, ran, frees⟩ := balanced.evict numTokens counted off pops
    have moved : e.cache.evictableSize + e.freed.length = s.cache.evictableSize := by
      simpa using frees.moved
    refine ⟨e, gone, ran, frees.freed, frees.once, frees.free, frees.nodes, moved, ?_⟩
    rcases frees.enough with all | spent
    · exact (min_le_left _ _).trans (Int.ofNat_le.mpr all)
    · omega

/-- Two paths that fork after a page, one of them locked. -/
theorem reachable_accounting_forks : ∃ s, (lockMachine pairs).Reachable s ∧
    s.cache.evictableSize = 2 ∧ s.cache.protectedSize = 4 ∧
    ∃ e, s.cache.evict pairs 9 popMin = some e ∧ e.cache.evictableSize + e.freed.length = 2 := by
  have covers : Cache.Covers pairs (spaceKey [1, 2, 3, 4]) (some [10, 11, 12, 13]) := rfl
  have covers' : Cache.Covers pairs (spaceKey [1, 2, 5, 6]) (some [20, 21, 22, 23]) := rfl
  have first : (lockMachine pairs).Reachable ⟨.reset, []⟩ := .start rfl
  have long := first.step (a := insertAt [1, 2, 3, 4] 10) covers rfl
  have fork := long.step (a := insertAt [1, 2, 5, 6] 20) covers' rfl
  have held := fork.step (a := Op.incLockRef 1) (.inr (by decide)) rfl
  obtain ⟨s, reached, free, kept⟩ : ∃ s, (lockMachine pairs).Reachable s ∧
      s.cache.evictableSize = 2 ∧ s.cache.protectedSize = 4 := ⟨_, held, rfl, rfl⟩
  obtain ⟨-, -, -, -, frees⟩ := reachable_accounting reached
  obtain ⟨e, -, ran, -, -, -, -, moved, -⟩ := frees 9 popMin popMin_mem
  exact ⟨s, reached, free, kept, e, ran, moved.trans free⟩

/-- The root is not counted along: after two locks below it a node has more locks than the root. -/
theorem root_lockRef_exceeded : ∃ s, (lockMachine pairs).Reachable s ∧
    ∃ d ∈ s.cache.nodes, d.parent = 0 ∧ s.cache.lockRefOf d.parent < s.cache.lockRefOf d.id := by
  have covers : Cache.Covers pairs (spaceKey [1, 2, 3, 4]) (some [10, 11, 12, 13]) := rfl
  have first : (lockMachine pairs).Reachable ⟨.reset, []⟩ := .start rfl
  have long := first.step (a := insertAt [1, 2, 3, 4] 10) covers rfl
  have once := long.step (a := Op.incLockRef 1) (.inr (by decide)) rfl
  have twice := once.step (a := Op.incLockRef 1) (.inr (by decide)) rfl
  exact ⟨_, twice, _, mem_cons_self, rfl, by decide⟩

end Sglang.Radix
