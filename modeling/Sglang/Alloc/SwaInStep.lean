/-
# The two pools of `SWATokenToKVPoolAllocator` stay paged in step

* `SwaOwned.InStep` — a full page is unmapped or mapped offset for offset onto one window
  page of its own, and no other window page is out. So one representative slot per full
  page resolves to exactly the window pages paired with the freed full pages.
* `SwaOwned.reachable_inStep` — every run keeps this, as long as no decode is asked of a
  full pool that has run out of the pages the window pool still has.
* `SwaOwned.decode_strands_window_page` — `alloc_decode` then takes the window pages and
  returns nothing, unlike `alloc_extend`, which asks both pools first.

The pairing of pages behind the mapping is a partial injection (`Lib.Pairing`) between
the live pages of the two pools.
-/

import Sglang.Alloc.Swa

namespace Sglang.Alloc

open List

open Finset (mem_sdiff mem_union)

open Option (map_eq_some_iff)

open ExtendRow (extendLen lastPage newPages relocate)

open Swa (tailRow)

open Lib (pairUp pairUp_of_not_mem unpair)

/-- The allocator and the full slots its callers were handed and have not freed. -/
structure SwaOwned where
  pool : Swa
  handedOut : Finset Nat

namespace SwaOwned

/-- One call of the allocator. -/
inductive Op where
  | alloc (needSize : Nat)
  | allocExtend (rows : List ExtendRow) (extendNumTokens : Nat)
  | allocExtendSwaTail (row : ExtendRow) (extendNumTokens swaTailLen : Nat)
  | allocDecode (rows : List DecodeRow)
  | free (freeIndex : List Nat)
  | freeSegment (freeIndex : List Nat) (startPos : Nat)
  | freeSwa (freeIndex : List Nat)
  | freeSwaSegment (freeIndex : List Nat) (startPos : Nat)
  | freeFull (freeIndex : List Nat)
  | freeFullSegment (freeIndex : List Nat) (startPos : Nat)
  | freeGroupBegin
  | freeGroupEnd

variable (c : SwaConfig)

variable (s : SwaOwned)

def receive (result : Swa × Option (List Nat)) : SwaOwned :=
  ⟨result.1, s.handedOut ∪ (result.2.getD []).toFinset⟩

/-- The slots of the given pages are no longer the caller's. -/
def giveBack (pool : Swa) (pages : List Nat) : SwaOwned :=
  ⟨pool, s.handedOut.filter fun slot => slot / c.pageSize ∉ pages⟩

def step : Op → Option SwaOwned
  | .alloc needSize => (s.pool.alloc c needSize).map s.receive
  | .allocExtend rows n => (s.pool.allocExtend c rows n).map s.receive
  | .allocExtendSwaTail row n tail => (s.pool.allocExtendSwaTail c row n tail).map s.receive
  | .allocDecode rows => (s.pool.allocDecode c rows).map s.receive
  | .free freeIndex => (s.pool.free c freeIndex).map fun pool =>
    s.giveBack c pool (pagesOf c.pageSize freeIndex)
  | .freeSegment freeIndex startPos => (s.pool.freeSegment c freeIndex startPos).map fun pool =>
    s.giveBack c pool (pagesOf c.pageSize freeIndex)
  | .freeSwa freeIndex => (s.pool.freeSwa c freeIndex).map fun pool => ⟨pool, s.handedOut⟩
  | .freeSwaSegment freeIndex startPos =>
    (s.pool.freeSwaSegment c freeIndex startPos).map fun pool => ⟨pool, s.handedOut⟩
  | .freeFull freeIndex => (s.pool.freeFull c freeIndex).map fun pool =>
    s.giveBack c pool (pagesOf c.pageSize freeIndex)
  | .freeFullSegment freeIndex startPos =>
    (s.pool.freeFullSegment c freeIndex startPos).map fun pool =>
      s.giveBack c pool (pagesOf c.pageSize freeIndex)
  | .freeGroupBegin => s.pool.freeGroupBegin.map fun pool => ⟨pool, s.handedOut⟩
  | .freeGroupEnd => (s.pool.freeGroupEnd c).map fun pool => ⟨pool, s.handedOut⟩

/-! ### Live pages and what the mapping says of them -/

/-- Window pages whose release waits for the end of the group. -/
def queuedSlotPages (s : Swa) : List Nat :=
  pagesOf c.pageSize (s.swaFreeGroup.flatten.filter (0 < ·))

def queuedPageIds (s : Swa) : List Nat := s.swaPageIdsGroup.flatten

/-- The allocated full pages. -/
def liveFull : Finset Nat := s.pool.full.livePages c.full

/-- The allocated window pages. -/
def liveSwa : Finset Nat :=
  s.pool.swa.livePages c.swa \ (queuedSlotPages c s.pool ++ queuedPageIds s.pool).toFinset

/-- All offsets of the page map to 0. -/
def Unmapped (page : Nat) : Prop :=
  ∀ i < c.pageSize, s.pool.mapping (page * c.pageSize + i) = 0

/-- The handed-out slots of `page`, its first one among them, map offset for offset onto
`swaPage`; the others map to 0. -/
def MapsOnto (page swaPage : Nat) : Prop :=
  0 < swaPage ∧ page * c.pageSize ∈ s.handedOut ∧
    ∀ i < c.pageSize, s.pool.mapping (page * c.pageSize + i)
      = if page * c.pageSize + i ∈ s.handedOut then swaPage * c.pageSize + i else 0

/-- The two pools are paged in step. -/
structure InStep (s : SwaOwned) : Prop where
  paged : ∀ page ∈ s.liveFull c,
    s.Unmapped c page ∨ ∃ swaPage ∈ s.liveSwa c, s.MapsOnto c page swaPage
  distinct : ∀ page ∈ s.liveFull c, ∀ page' ∈ s.liveFull c, ∀ swaPage,
    s.MapsOnto c page swaPage → s.MapsOnto c page' swaPage → page = page'
  covered : ∀ swaPage ∈ s.liveSwa c, ∃ page ∈ s.liveFull c, s.MapsOnto c page swaPage
  representative : ∀ freeIndex pages, PagedOwned.IsRun c.full freeIndex pages →
    (∀ page ∈ pages, page ∈ s.liveFull c ∧ ¬ s.Unmapped c page) →
      List.Forall₂ (fun page swaPage => swaPage ∈ s.liveSwa c ∧ s.MapsOnto c page swaPage) pages
        (s.pool.swaPagesOf c freeIndex)

/-! ### What callers promise -/

/-- A row continues a slot its request was handed and whose window peer is still there. -/
def RowMapped (r : ExtendRow) : Prop :=
  r.Aligned c.pageSize ∧ (r.prefixLen % c.pageSize ≠ 0 →
    r.lastLoc.toNat ∈ s.handedOut ∧ (c.swaReqRing = false → s.pool.mapping r.lastLoc.toNat ≠ 0))

/-- A run of distinct live pages. -/
def LiveRun (freeIndex pages : List Nat) : Prop :=
  PagedOwned.IsRun c.full freeIndex pages ∧ pages.Nodup ∧ ∀ page ∈ pages, page ∈ s.liveFull c

/-- Every page of the run has a window peer, unless the pool has no paged peers. -/
def AllMapped (pages : List Nat) : Prop :=
  c.swaReqRing = false → ∀ page ∈ pages, ¬ s.Unmapped c page

instance (r : ExtendRow) : Decidable (r.Aligned c.pageSize) := inferInstanceAs (Decidable (_ → _))

instance (s : SwaOwned) (r : ExtendRow) : Decidable (s.RowMapped c r) :=
  inferInstanceAs (Decidable (_ ∧ (_ → _ ∧ (_ → _))))

instance (s : SwaOwned) (page : Nat) : Decidable (s.Unmapped c page) :=
  inferInstanceAs (Decidable (∀ i < c.pageSize, _))

instance (s : SwaOwned) (page swaPage : Nat) : Decidable (s.MapsOnto c page swaPage) :=
  inferInstanceAs (Decidable (_ ∧ _ ∧ ∀ i < c.pageSize, _))

instance (s : SwaOwned) (pages : List Nat) : Decidable (s.AllMapped c pages) :=
  inferInstanceAs (Decidable (_ → ∀ page ∈ pages, _))

/-- What callers of each operation promise. -/
def Allowed : Op → Prop
  | .allocExtend rows n => n = (rows.map extendLen).sum ∧ ∀ r ∈ rows, s.RowMapped c r
  -- the window tail of a request whose cached prefix is page-aligned
  | .allocExtendSwaTail row n tail => n = row.extendLen ∧ row.prefixLen % c.pageSize = 0 ∧
      ∃ usesTail radixCache windowSize,
        tail = swaTailLen c.pageSize usesTail radixCache windowSize row.seqLen
  | .allocDecode rows => ∀ r ∈ rows, s.RowMapped c r.toExtendRow
  | .free freeIndex => Attn.FreeOk c.full (s.liveFull c) freeIndex ∧
      (c.pageSize = 1 → s.AllMapped c freeIndex)
  | .freeSegment freeIndex _ => ∃ pages, s.LiveRun c freeIndex pages ∧ s.AllMapped c pages
  | .freeSwa freeIndex => c.pageSize = 1 →
      Attn.FreeOk c.full (s.liveFull c) freeIndex ∧ s.AllMapped c freeIndex
  | .freeSwaSegment freeIndex _ => ∃ pages, s.LiveRun c freeIndex pages ∧ s.AllMapped c pages
  | .freeFull freeIndex => Attn.FreeOk c.full (s.liveFull c) freeIndex ∧
      ∀ page ∈ pagesOf c.pageSize freeIndex, s.Unmapped c page
  | .freeFullSegment freeIndex _ => ∃ pages, s.LiveRun c freeIndex pages ∧
      ∀ page ∈ pages, s.Unmapped c page
  | .alloc _ | .freeGroupBegin | .freeGroupEnd => True

/-- Not a decode that the full pool cannot serve while the window pool can. -/
def DecodeServed : Op → Prop
  | .allocDecode rows => c.swaReqRing = true ∨
      getNumNewPagesDecode c.pageSize rows ≤ s.pool.full.availableSize c.full / c.pageSize ∨
      s.pool.swa.availableSize c.swa / c.pageSize < getNumNewPagesDecode c.pageSize rows
  | _ => True

/-- The allocator after `clear`, used by callers that keep their promises. -/
def machine : Lib.Machine SwaOwned Op where
  start := fun s => s = ⟨Swa.clear c, ∅⟩
  allowed := Allowed c
  step := step c

/-- The same, where no decode meets a full pool that alone has run out. -/
def servedMachine : Lib.Machine SwaOwned Op where
  start := fun s => s = ⟨Swa.clear c, ∅⟩
  allowed := fun s op => s.Allowed c op ∧ s.DecodeServed c op
  step := step c

/-! ### The pairing behind the mapping -/

/-- The entry of a slot when pages are paired by `partner`. -/
def slotImage (ps : Nat) (partner : Nat → Option Nat) (handedOut : Finset Nat) (slot : Nat) : Nat :=
  match partner (slot / ps) with
  | some swaPage => if slot ∈ handedOut then swaPage * ps + slot % ps else 0
  | none => 0

/-- The invariant: `F` and `S` are the pages out of the two sub-allocators, and the
mapping is the pairing of those that are not waiting to be released. -/
structure Inv (s : SwaOwned) (F S : Finset Nat) (partner : Nat → Option Nat) : Prop where
  full : Attn.Live c.full s.pool.full F
  swa : Attn.Live c.swa s.pool.swa S
  pairing : Lib.Pairing F
    (S \ (queuedSlotPages c s.pool ++ queuedPageIds s.pool).toFinset) partner
  mapping : ∀ slot, s.pool.mapping slot = slotImage c.pageSize partner s.handedOut slot
  first : ∀ page swaPage, partner page = some swaPage → page * c.pageSize ∈ s.handedOut
  handed : ∀ slot ∈ s.handedOut, slot / c.pageSize ∈ F
  queued : ∀ page ∈ queuedSlotPages c s.pool ++ queuedPageIds s.pool, page ∈ S
  queuedIds_nodup : (queuedPageIds s.pool).Nodup
  queued_apart : ∀ page ∈ queuedSlotPages c s.pool, page ∉ queuedPageIds s.pool
  closed : s.pool.freeGroup = false → s.pool.swaFreeGroup = [] ∧ s.pool.swaPageIdsGroup = []
  single : c.pageSize = 1 → s.pool.swaFreeGroup = []
  ring : c.swaReqRing = true → S = ∅

variable {c} {s s' : SwaOwned} {F S handedOut live : Finset Nat} {partner : Nat → Option Nat}

variable {ps swaPage page : Nat} {rows : List ExtendRow} {mapping' m m' : Nat → Nat}

lemma slotImage_of_some {slot : Nat} (paired : partner (slot / ps) = some swaPage)
    (out : slot ∈ handedOut) : slotImage ps partner handedOut slot = swaPage * ps + slot % ps := by
  simp [slotImage, paired, out]

lemma slotImage_of_none {slot : Nat}
    (unpaired : partner (slot / ps) = none) : slotImage ps partner handedOut slot = 0 := by
  simp [slotImage, unpaired]

section

variable (inv : Inv c s F S partner)
include inv

lemma Inv.liveFull_eq : s.liveFull c = F :=
  inv.full.eq_livePages.symm

lemma Inv.liveSwa_eq :
    s.liveSwa c = S \ (queuedSlotPages c s.pool ++ queuedPageIds s.pool).toFinset := by
  rw [liveSwa, ← inv.swa.eq_livePages]

/-- Without a paged window pool no page has a peer. -/
lemma Inv.ring_none (ring : c.swaReqRing = true) (page : Nat) : partner page = none := by
  cases paired : partner page with
  | none => rfl
  | some swaPage =>
    have mem := (inv.pairing.range swaPage).mpr ⟨page, paired⟩
    rw [inv.ring ring, Finset.empty_sdiff] at mem
    cases mem

lemma Inv.fresh_unpaired (fresh : page ∉ F) : partner page = none := by
  cases paired : partner page with
  | none => rfl
  | some swaPage => exact absurd (inv.pairing.dom page swaPage paired) fresh

section

variable (paired : partner page = some swaPage)
include paired

/-- A paired window page is a real one, not the padding page. -/
lemma Inv.partner_pos : 0 < swaPage := by
  have mem := (inv.pairing.range swaPage).mpr ⟨page, paired⟩
  have out := (mem_sdiff.mp mem).1
  obtain ⟨held, invS, rfl⟩ := inv.swa
  have := invS.split.held_sub (mem_sdiff.mp out).1
  exact (Finset.mem_Icc.mp this).1

lemma Inv.mapsOnto : s.MapsOnto c page swaPage := by
  refine ⟨inv.partner_pos paired, inv.first page swaPage paired, fun i lt => ?_⟩
  rw [inv.mapping, slotImage, page_of_offset lt, paired, offset_of_offset lt]

omit paired in
lemma Inv.unmapped (unpaired : partner page = none) : s.Unmapped c page := by
  intro i lt
  rw [inv.mapping, slotImage_of_none (by rw [page_of_offset lt, unpaired])]

lemma Inv.mapping_first : s.pool.mapping (page * c.pageSize) = swaPage * c.pageSize := by
  have out := inv.first page swaPage paired
  have image := (inv.mapsOnto paired).2.2 0 c.pageSize_pos
  simpa [out] using image

end

lemma Inv.unmapped_iff : s.Unmapped c page ↔ partner page = none := by
  refine ⟨fun unmapped => ?_, inv.unmapped⟩
  cases paired : partner page with
  | none => rfl
  | some swaPage =>
    have zero := unmapped 0 c.pageSize_pos
    rw [add_zero, inv.mapping_first paired] at zero
    have := mul_pos (inv.partner_pos paired) c.pageSize_pos
    omega

/-- The pairing says all that a mapped page maps onto. -/
lemma Inv.partner_of_mapsOnto (maps : s.MapsOnto c page swaPage) : partner page = some swaPage := by
  have image := maps.2.2 0 c.pageSize_pos
  simp only [add_zero, maps.2.1, if_true] at image
  cases paired : partner page with
  | none =>
    have zero := inv.unmapped paired 0 c.pageSize_pos
    rw [add_zero] at zero
    have := mul_pos maps.1 c.pageSize_pos
    omega
  | some other =>
    rw [inv.mapping_first paired] at image
    rw [Nat.eq_of_mul_eq_mul_right c.pageSize_pos image]

lemma Inv.exists_partner (mapped : ¬ s.Unmapped c page) :
    ∃ swaPage, partner page = some swaPage := by
  rw [inv.unmapped_iff] at mapped
  exact Option.ne_none_iff_exists'.mp mapped

end

lemma swaPagesOf_run {freeIndex pages : List Nat} (run : PagedOwned.IsRun c.full freeIndex pages) :
    s.pool.swaPagesOf c freeIndex
      = pages.map fun page => s.pool.mapping (page * c.pageSize) / c.pageSize := by
  have reps : Paged.representatives c.pageSize freeIndex = pages.map (· * c.pageSize) :=
    run.representatives_eq
  rw [Swa.swaPagesOf, reps, map_map]
  rfl

lemma Inv.inStep (inv : Inv c s F S partner) : InStep c s where
  paged := by
    intro page _
    cases paired : partner page with
    | none => exact .inl (inv.unmapped paired)
    | some swaPage =>
      refine .inr ⟨swaPage, ?_, inv.mapsOnto paired⟩
      rw [inv.liveSwa_eq, inv.pairing.range]
      exact ⟨page, paired⟩
  distinct := fun page _ page' _ swaPage maps maps' =>
    inv.pairing.inj page page' swaPage (inv.partner_of_mapsOnto maps) (inv.partner_of_mapsOnto maps')
  covered := by
    intro swaPage mem
    rw [inv.liveSwa_eq, inv.pairing.range] at mem
    obtain ⟨page, paired⟩ := mem
    refine ⟨page, ?_, inv.mapsOnto paired⟩
    rw [inv.liveFull_eq]
    exact inv.pairing.dom page swaPage paired
  representative := by
    intro freeIndex pages run mapped
    rw [swaPagesOf_run run, forall₂_map_right_iff, forall₂_same]
    intro page mem
    obtain ⟨swaPage, paired⟩ := inv.exists_partner (mapped page mem).2
    rw [inv.mapping_first paired, Nat.mul_div_cancel _ c.pageSize_pos, inv.liveSwa_eq,
      inv.pairing.range]
    exact ⟨⟨page, paired⟩, inv.mapsOnto paired⟩

/-! ### Handing out slots -/

/-- The slots `out` of a hand-out, those of `writes` mapped, when the new full pages `fs`
came off the full pool, the new window pages `ws` off the other, and `paired`, some of
`fs`, get `ws` in order. -/
structure HandOut (c : SwaConfig) (F : Finset Nat) (partner : Nat → Option Nat)
    (fs ws paired out : List Nat) (writes : List (Nat × Nat)) : Prop where
  sub : ∀ page ∈ paired, page ∈ fs
  nodup : paired.Nodup
  length : paired.length = ws.length
  inStep : ∀ f w, (f, w) ∈ writes → f % c.pageSize = w % c.pageSize ∧
    pairUp partner paired ws (f / c.pageSize) = some (w / c.pageSize)
  writes_out : ∀ f ∈ writes.map Prod.fst, f ∈ out
  out_writes : ∀ slot ∈ out, slot ∈ writes.map Prod.fst ∨
    pairUp partner paired ws (slot / c.pageSize) = none
  out_pages : ∀ slot ∈ out, slot / c.pageSize ∈ F ∪ fs.toFinset
  first : ∀ page ∈ paired, page * c.pageSize ∈ out
  ring : c.swaReqRing = true → paired = []

section

variable {fs ws paired out out' : List Nat} {writes : List (Nat × Nat)}

/-- Slots handed out by both pools, all of them mapped. -/
lemma handOut_zip (ring : c.swaReqRing = true → fs = []) (nodup : fs.Nodup)
    (length : fs.length = ws.length) (sameLength : out.length = out'.length)
    (inStep : ∀ f w, (f, w) ∈ out.zip out' → f % c.pageSize = w % c.pageSize ∧
      pairUp partner fs ws (f / c.pageSize) = some (w / c.pageSize))
    (pages : ∀ slot ∈ out, slot / c.pageSize ∈ F ∪ fs.toFinset)
    (first : ∀ page ∈ fs, page * c.pageSize ∈ out) :
    HandOut c F partner fs ws fs out (out.zip out') := by
  have firsts := map_fst_zip sameLength.le
  exact ⟨fun _ mem => mem, nodup, length, inStep, fun f mem => firsts ▸ mem,
    fun slot mem => .inl (firsts.symm ▸ mem), pages, first, ring⟩

variable (inv : Inv c s F S partner)
include inv

/-- The mapping after a hand-out is the extended pairing. -/
lemma Inv.mapping_grant (fresh : ∀ page ∈ fs, page ∉ F)
    (h : HandOut c F partner fs ws paired out writes) (slot : Nat) :
    writeMapping s.pool.mapping writes slot
      = slotImage c.pageSize (pairUp partner paired ws) (s.handedOut ∪ out.toFinset) slot := by
  by_cases touched : slot ∈ writes.map Prod.fst
  · obtain ⟨⟨f, w⟩, mem, rfl⟩ := mem_map.mp touched
    obtain ⟨offset, pair⟩ := h.inStep f w mem
    have outNow : f ∈ s.handedOut ∪ out.toFinset :=
      Finset.mem_union_right _ (mem_toFinset.mpr (h.writes_out f touched))
    rw [slotImage_of_some pair outNow]
    apply Lib.scatter_of_mem touched
    intro w' mem'
    obtain ⟨offset', pair'⟩ := h.inStep f w' mem'
    have page := Option.some.inj (pair'.symm.trans pair)
    rw [← Nat.div_add_mod' w' c.pageSize, page, ← offset']
  · rw [writeMapping, Lib.scatter_of_not_mem touched, inv.mapping]
    have notOut : pairUp partner paired ws (slot / c.pageSize) ≠ none → slot ∉ out :=
      fun pairs now => (h.out_writes slot now).elim touched pairs
    by_cases new : slot / c.pageSize ∈ paired
    · -- a slot of a new page that was not handed out
      have notF := fresh _ (h.sub _ new)
      rw [slotImage_of_none (inv.fresh_unpaired notF), slotImage]
      obtain ⟨k, lt, page⟩ := getElem_of_mem new
      have lt' : k < ws.length := h.length ▸ lt
      have pair : pairUp partner paired ws (slot / c.pageSize) = some ws[k] := by
        rw [Lib.pairUp_getElem? h.nodup (by rw [getElem?_eq_getElem lt, page]),
          getElem?_eq_getElem lt']
      have notHeld : slot ∉ s.handedOut := fun old => notF (inv.handed slot old)
      simp [pair, notHeld, notOut (by simp [pair])]
    · have same : pairUp partner paired ws (slot / c.pageSize) = partner (slot / c.pageSize) :=
        pairUp_of_not_mem new
      rw [slotImage, slotImage, same]
      cases old : partner (slot / c.pageSize) with
      | none => rfl
      | some swaPage => simp [notOut (by simp [same, old])]

lemma Inv.grant {full' swa' : Attn}
    (gotFull : Attn.Granted c.full full' F fs) (gotSwa : Attn.Granted c.swa swa' S ws)
    (h : HandOut c F partner fs ws paired out writes)
    (written : ∀ slot, mapping' slot = writeMapping s.pool.mapping writes slot) :
    Inv c ⟨{ s.pool with full := full', swa := swa', mapping := mapping' },
      s.handedOut ∪ out.toFinset⟩ (F ∪ fs.toFinset) (S ∪ ws.toFinset)
      (pairUp partner paired ws) := by
  have freshWindow : ∀ page ∈ ws,
      page ∉ (queuedSlotPages c s.pool ++ queuedPageIds s.pool).toFinset :=
    fun page mem queued => gotSwa.fresh page mem (inv.queued page (mem_toFinset.mp queued))
  have extended := inv.pairing.extend h.length h.nodup gotSwa.nodup
    (fun page mem => gotFull.fresh page (h.sub page mem))
    (fun page mem live => gotSwa.fresh page mem (mem_sdiff.mp live).1)
  refine ⟨gotFull.after, gotSwa.after, ?_, ?_, ?_, ?_, ?_, inv.queuedIds_nodup, inv.queued_apart,
    inv.closed, inv.single, ?_⟩
  · have image : (S ∪ ws.toFinset) \ (queuedSlotPages c s.pool ++ queuedPageIds s.pool).toFinset
        = S \ (queuedSlotPages c s.pool ++ queuedPageIds s.pool).toFinset ∪ ws.toFinset := by
      rw [Finset.union_sdiff_distrib]
      congr 1
      rw [Finset.sdiff_eq_self_iff_disjoint, Finset.disjoint_left]
      exact fun page mem => freshWindow page (mem_toFinset.mp mem)
    have dom : ∀ page swaPage, pairUp partner paired ws page = some swaPage →
        page ∈ F ∪ fs.toFinset := by
      intro page swaPage pair
      have mem := extended.dom page swaPage pair
      rw [mem_union, mem_toFinset] at mem ⊢
      exact mem.imp_right (h.sub page)
    exact image ▸ extended.live_of_dom dom
  · intro slot
    exact (written slot).trans (inv.mapping_grant gotFull.fresh h slot)
  · intro page swaPage pair
    rw [mem_union, mem_toFinset]
    by_cases new : page ∈ paired
    · exact .inr (h.first page new)
    · rw [pairUp_of_not_mem new] at pair
      exact .inl (inv.first page swaPage pair)
  · intro slot mem
    rcases mem_union.mp mem with old | now
    · exact Finset.mem_union_left _ (inv.handed slot old)
    · exact h.out_pages slot (mem_toFinset.mp now)
  · exact fun page mem => Finset.mem_union_left _ (inv.queued page mem)
  · intro ring
    have noWindow : ws = [] := eq_nil_of_length_eq_zero (by rw [← h.length, h.ring ring]; rfl)
    rw [inv.ring ring, noWindow]
    rfl

section

variable (ring : c.swaReqRing = false) {r : ExtendRow}
include ring

/-- The slot a row continues has a window peer at the same offset. -/
lemma Inv.row_partner (row : s.RowMapped c r) (partly : r.prefixLen % c.pageSize ≠ 0) :
    ∃ swaPage, partner (r.lastPage c.pageSize) = some swaPage ∧ (s.pool.swaRow r).lastLoc
        = ((swaPage * c.pageSize + r.lastLoc.toNat % c.pageSize : Nat) : Int) := by
  obtain ⟨nonneg, -⟩ := row.1 partly
  obtain ⟨out, mapped⟩ := row.2 partly
  have entry := inv.mapping r.lastLoc.toNat
  cases paired : partner (r.lastPage c.pageSize) with
  | none =>
    rw [slotImage_of_none paired] at entry
    exact absurd entry (mapped ring)
  | some swaPage =>
    refine ⟨swaPage, rfl, ?_⟩
    rw [slotImage_of_some paired out] at entry
    simp only [Swa.swaRow, relocate, translateLoc]
    rw [if_neg (by omega), entry]

lemma Inv.swaRow_aligned (row : s.RowMapped c r) : (s.pool.swaRow r).Aligned c.pageSize := by
  intro partly
  obtain ⟨swaPage, -, loc⟩ := inv.row_partner ring row partly
  obtain ⟨nonneg, offset⟩ := row.1 partly
  rw [loc]
  refine ⟨by omega, ?_⟩
  change _ = r.prefixLen % c.pageSize
  rw [← offset, Int.toNat_natCast, add_assoc, add_comm, Nat.add_mul_mod_self_right,
    Nat.mod_add_mod]

lemma Inv.swaRow_lastPage (row : s.RowMapped c r) (partly : r.prefixLen % c.pageSize ≠ 0) :
    partner (r.lastPage c.pageSize) = some ((s.pool.swaRow r).lastPage c.pageSize) := by
  obtain ⟨swaPage, paired, loc⟩ := inv.row_partner ring row partly
  rw [paired, lastPage, loc, Int.toNat_natCast,
    page_of_offset (Nat.mod_lt _ c.pageSize_pos)]

end

/-- The slots of a batch lie on live pages and on its new pages. -/
lemma Inv.out_pages_rows
    (mapped : ∀ r ∈ rows, s.RowMapped c r) (length : fs.length = getNumNewPages c.pageSize rows) :
    ∀ slot ∈ extendRows c.pageSize rows fs, slot / c.pageSize ∈ F ∪ fs.toFinset := by
  intro slot mem
  have aligned : ∀ r ∈ rows, r.Aligned c.pageSize := fun r mem => (mapped r mem).1
  have page : slot / c.pageSize ∈ pagesOf c.pageSize (extendRows c.pageSize rows fs) :=
    mem_map_of_mem mem
  rw [mem_union, mem_toFinset]
  rcases (mem_pagesOf_extendRows c.pageSize_pos _ aligned length.ge).mp page with
    ⟨r, row, started, last⟩ | new
  · have partly := (r.slot_first c.pageSize_pos [] (aligned r row) started).1
    exact .inl (last ▸ inv.handed _ ((mapped r row).2 partly).1)
  · exact .inr (mem_of_mem_take new)

end

/-! ### Each operation -/

/-- Some pairing of live pages explains the state. -/
def Paired (c : SwaConfig) (s : SwaOwned) : Prop := ∃ F S partner, Inv c s F S partner

lemma setFullToSwaMapping_eq {f w : List Nat}
    (ran : setFullToSwaMapping m f w = some m') : m' = writeMapping m (f.zip w) := by
  unfold setFullToSwaMapping at ran
  split at ran
  · rename_i empty
    cases ran
    rw [isEmpty_iff.mp empty]
    rfl
  · split at ran
    · cases ran
      rfl
    · cases ran

variable {full' swa' : Attn} {fs pages freeIndex ws : List Nat} {result : Swa × Option (List Nat)}
  {ps h tail slot startPos n : Nat} {r row : ExtendRow} {pool : Swa}

/-- A call that returns nothing, with sub-allocators that only rearranged their free lists. -/
lemma Inv.receive_none (inv : Inv c s F S partner)
    (sameFull : Attn.Live c.full full' F) (sameSwa : Attn.Live c.swa swa' S) :
    Paired c (s.receive ({ s.pool with full := full', swa := swa' }, none)) := by
  simp only [receive, Option.getD_none, toFinset_nil, Finset.union_empty]
  exact ⟨F, S, partner, { inv with full := sameFull, swa := sameSwa }⟩

/-- The full pool alone hands out slots that get no window peers. -/
lemma Inv.grant_full (out : List Nat) (inv : Inv c s F S partner)
    (got : Attn.Granted c.full full' F fs)
    (pages : ∀ slot ∈ out, slot / c.pageSize ∈ F ∪ fs.toFinset)
    (unpaired : ∀ slot ∈ out, partner (slot / c.pageSize) = none) :
    Paired c ⟨{ s.pool with full := full' }, s.handedOut ∪ out.toFinset⟩ := by
  have handOut : HandOut c F partner fs [] [] out [] :=
    { sub := by simp
      nodup := nodup_nil
      length := rfl
      inStep := by simp
      writes_out := by simp
      out_writes := fun slot mem => .inr ((pairUp_of_not_mem (by simp)).trans (unpaired slot mem))
      out_pages := pages
      first := by simp
      ring := fun _ => rfl }
  exact ⟨_, _, _, inv.grant got (.none inv.swa) handOut fun _ => rfl⟩

/-- A batch served by both pools keeps them in step. -/
lemma Inv.grant_rows
    (inv : Inv c s F S partner) (ring : c.swaReqRing = false) (mapped : ∀ r ∈ rows, s.RowMapped c r)
    (gotFull : Attn.Granted c.full full' F fs) (gotSwa : Attn.Granted c.swa swa' S ws)
    (length : fs.length = getNumNewPages c.pageSize rows)
    (length' : ws.length = getNumNewPages c.pageSize rows)
    (set : setFullToSwaMapping s.pool.mapping (extendRows c.pageSize rows fs)
      (extendRows c.pageSize (rows.map s.pool.swaRow) ws) = some mapping') :
    Paired c (s.receive ({ s.pool with full := full', swa := swa', mapping := mapping' },
      some (extendRows c.pageSize rows fs))) := by
  have aligned : ∀ r ∈ rows, r.Aligned c.pageSize := fun r mem => (mapped r mem).1
  have sameLength : (extendRows c.pageSize rows fs).length
      = (extendRows c.pageSize (rows.map s.pool.swaRow) ws).length := by
    rw [length_extendRows, length_extendRows, map_map]
    rfl
  have lastLive : ∀ r ∈ rows, r.prefixLen % c.pageSize ≠ 0 → r.lastPage c.pageSize ∈ F :=
    fun r mem partly => inv.handed _ ((mapped r mem).2 partly).1
  refine ⟨_, _, _, inv.grant gotFull gotSwa (handOut_zip (by simp [ring]) gotFull.nodup
    (length.trans length'.symm) sameLength ?_ (inv.out_pages_rows mapped length) ?_) fun slot => ?_⟩
  · intro f w mem
    obtain ⟨offset, ⟨r, row, partly, page, page'⟩ | ⟨k, page, page'⟩⟩ :=
      lanePair_extendRows c.pageSize_pos (translateLoc s.pool.mapping)
        (fun r row => ⟨aligned r row, inv.swaRow_aligned ring (mapped r row)⟩)
        length.ge length'.ge mem
    · refine ⟨offset, ?_⟩
      have old : r.lastPage c.pageSize ∉ fs := fun new => gotFull.fresh _ new (lastLive r row partly)
      rw [page, page', pairUp_of_not_mem old]
      exact inv.swaRow_lastPage ring (mapped r row) partly
    · exact ⟨offset, (Lib.pairUp_getElem? gotFull.nodup page).trans page'⟩
  · intro page mem
    apply first_slot_mem_extendRows c.pageSize_pos length.ge
    rwa [take_of_length_le length.le]
  · exact congrFun (setFullToSwaMapping_eq set) slot

lemma getNumNewPages_swaRow (pool : Swa) (rows : List ExtendRow) :
    getNumNewPages c.pageSize (rows.map pool.swaRow) = getNumNewPages c.pageSize rows := by
  simp [getNumNewPages, Swa.swaRow, Function.comp_def]

section

variable (inv : Inv c s F S partner)
include inv

lemma Inv.allocExtend (allowed : s.Allowed c (.allocExtend rows n))
    (ran : s.pool.allocExtend c rows n = some result) : Paired c (s.receive result) := by
  obtain ⟨total, mapped⟩ := allowed
  unfold Swa.allocExtend at ran
  split at ran
  swap
  · cases ran
  simp only at ran
  split at ran
  · cases ran
    exact inv.receive_none inv.full inv.swa
  split at ran
  · rename_i ring
    obtain ⟨⟨full', out⟩, served, rfl⟩ := map_eq_some_iff.mp ran
    rcases inv.full.allocExtend total (by rintro _ ⟨⟩; rfl) served with
      ⟨rfl, same⟩ | ⟨fs, rfl, got, length⟩
    · exact inv.receive_none same inv.swa
    · exact inv.grant_full _ got (inv.out_pages_rows mapped length) fun slot _ => inv.ring_none ring _
  · rename_i noRing
    have ring : c.swaReqRing = false := by simpa using noRing
    split at ran
    · rename_i full' fullOut swa' swaOut servedFull servedSwa
      obtain ⟨mapping', set, rfl⟩ := map_eq_some_iff.mp ran
      have total' : n = ((rows.map s.pool.swaRow).map extendLen).sum := by
        rw [total, map_map]
        rfl
      obtain ⟨refused, -⟩ | ⟨fs, out, gotFull, length⟩ := inv.full.allocExtend total
        (by rintro _ ⟨⟩; rfl) servedFull
      · cases refused
      obtain ⟨refused, -⟩ | ⟨ws, out', gotSwa, length'⟩ := inv.swa.allocExtend total'
        (by rintro _ ⟨⟩; exact (getNumNewPages_swaRow ..).symm) servedSwa
      · cases refused
      cases out
      cases out'
      exact inv.grant_rows ring mapped gotFull gotSwa length
        (length'.trans (getNumNewPages_swaRow _ _)) set
    · cases ran

lemma Inv.allocDecode {rows : List DecodeRow} (mapped : s.Allowed c (.allocDecode rows))
    (served : s.DecodeServed c (.allocDecode rows)) (ran : s.pool.allocDecode c rows = some result)
    : Paired c (s.receive result) := by
  have mappedRows : ∀ r ∈ rows.map DecodeRow.toExtendRow, s.RowMapped c r := by
    intro r mem
    obtain ⟨d, row, rfl⟩ := mem_map.mp mem
    exact mapped d row
  unfold Swa.allocDecode at ran
  split at ran
  swap
  · cases ran
  rename_i many
  have count := getNumNewPages_decode c.pageSize_pos many rows
  split at ran
  · rename_i ring
    obtain ⟨⟨full', out⟩, decoded, rfl⟩ := map_eq_some_iff.mp ran
    rcases inv.full.allocDecode decoded with ⟨rfl, same, -⟩ | ⟨fs, rfl, got, length, -⟩
    · exact inv.receive_none same inv.swa
    · exact inv.grant_full _ got (inv.out_pages_rows mappedRows (length.trans count.symm))
        fun slot _ => inv.ring_none ring _
  · rename_i noRing
    have ring : c.swaReqRing = false := by simpa using noRing
    have sameCount : getNumNewPagesDecode c.pageSize (rows.map s.pool.swaDecodeRow)
        = getNumNewPagesDecode c.pageSize rows := by
      simp only [getNumNewPagesDecode, countP_map]
      rfl
    have sameRows : (rows.map s.pool.swaDecodeRow).map DecodeRow.toExtendRow
        = (rows.map DecodeRow.toExtendRow).map s.pool.swaRow := by
      rw [map_map, map_map]
      rfl
    cases askedFull : s.pool.full.allocDecode c.full rows with
    | none => simp [askedFull] at ran
    | some answerFull =>
    cases askedSwa : s.pool.swa.allocDecode c.swa (rows.map s.pool.swaDecodeRow) with
    | none => simp [askedSwa] at ran
    | some answerSwa =>
    obtain ⟨full', fullOut⟩ := answerFull
    obtain ⟨swa', swaOut⟩ := answerSwa
    rw [askedFull, askedSwa] at ran
    rcases inv.full.allocDecode askedFull with
      ⟨rfl, sameFull, short⟩ | ⟨fs, rfl, gotFull, length, enough⟩
    · rcases inv.swa.allocDecode askedSwa with
        ⟨rfl, sameSwa, -⟩ | ⟨ws, rfl, gotSwa, -, enough'⟩
      · cases ran
        exact inv.receive_none sameFull sameSwa
      · -- the window pool would take pages for slots that are never handed out
        rcases served with isRing | room | short'
        · rw [ring] at isRing
          cases isRing
        · exact absurd room (not_le.mpr short)
        · exact absurd (sameCount.ge.trans enough') (not_le.mpr short')
    · rcases inv.swa.allocDecode askedSwa with
        ⟨rfl, sameSwa, -⟩ | ⟨ws, rfl, gotSwa, length', -⟩
      · cases ran
        have rearranged : Inv c ⟨{ s.pool with swa := swa' }, s.handedOut⟩ F S partner :=
          { inv with swa := sameSwa }
        have granted := rearranged.grant_full [] gotFull (by simp) (by simp)
        simpa [receive] using granted
      · obtain ⟨mapping', set, rfl⟩ := map_eq_some_iff.mp ran
        rw [sameRows] at set
        exact inv.grant_rows ring mappedRows gotFull gotSwa (length.trans count.symm)
          (length'.trans (sameCount.trans count.symm)) set

lemma Inv.alloc (ran : s.pool.alloc c n = some result) : Paired c (s.receive result) := by
  unfold Swa.alloc at ran
  split at ran
  swap
  · cases ran
  rename_i one
  split at ran
  · cases ran
    exact inv.receive_none inv.full inv.swa
  split at ran
  · cases ran
    exact inv.receive_none inv.full inv.swa
  split at ran
  · rename_i full' fullOut swa' swaOut askedFull askedSwa
    obtain ⟨mapping', set, rfl⟩ := map_eq_some_iff.mp ran
    obtain ⟨refused, -⟩ | ⟨fs, out, gotFull, length⟩ := inv.full.alloc_one one askedFull
    · cases refused
    obtain ⟨refused, -⟩ | ⟨ws, out', gotSwa, length'⟩ := inv.swa.alloc_one one askedSwa
    · cases refused
    cases out
    cases out'
    have sameLength : fullOut.length = swaOut.length := length.trans length'.symm
    have handOut : HandOut c F partner fullOut swaOut fullOut fullOut (fullOut.zip swaOut) := by
      refine handOut_zip (fun ring => ?_) gotFull.nodup sameLength sameLength ?_ ?_ ?_
      · have := c.ring_paged ring
        omega
      · intro f w mem
        obtain ⟨k, lt, pair⟩ := getElem_of_mem mem
        rw [getElem_zip] at pair
        cases pair
        rw [one, Nat.mod_one, Nat.mod_one, Nat.div_one, Nat.div_one]
        refine ⟨rfl, (Lib.pairUp_getElem? gotFull.nodup (getElem?_eq_getElem _)).trans ?_⟩
        exact getElem?_eq_getElem _
      · intro slot mem
        rw [one, Nat.div_one]
        exact Finset.mem_union_right _ (mem_toFinset.mpr mem)
      · intro page mem
        rwa [one, mul_one]
    refine ⟨_, _, _, inv.grant gotFull gotSwa handOut fun slot => ?_⟩
    rw [setFullToSwaMapping_eq set]
  · cases ran

end

/-! ### The window tail -/

lemma swaTailLen_aligned (ps : Nat) (usesTail radixCache : Bool) (windowSize : Option Nat)
    (seqLen : Nat) : (seqLen - swaTailLen ps usesTail radixCache windowSize seqLen) % ps = 0 := by
  have aligned : ∀ start, start ≤ seqLen → (seqLen - (seqLen - start / ps * ps)) % ps = 0 := by
    intro start le
    have := Nat.div_mul_le_self start ps
    rw [Nat.sub_sub_self (by omega)]
    exact Nat.mul_mod_left _ _
  unfold swaTailLen
  split
  · simp
  · cases windowSize with
    | none => simp
    | some window =>
      cases window with
      | zero => simp
      | succ window =>
        simp only
        split
        · exact aligned _ (by omega)
        · exact aligned _ (by omega)

section

variable (pos : 0 < ps) (whole : r.prefixLen % ps = 0)
include pos whole

/-- The slots of one page-aligned row, and those from the `h`-th new page on. -/
lemma extendRows_aligned (pages : List Nat) : extendRows ps [r] pages
      = (range r.extendLen).map fun i => pages.getD (i / ps) 0 * ps + i % ps := by
  simp only [extendRows, append_nil]
  exact map_congr_left fun i _ => ExtendRow.slot_of_aligned pos whole pages i

lemma drop_extendRows_aligned (length : r.extendLen = h * ps + tail) (pages : List Nat) :
    (extendRows ps [r] pages).drop (h * ps)
      = (range tail).map fun j => (pages.drop h).getD (j / ps) 0 * ps + j % ps := by
  rw [extendRows_aligned pos whole, length, range_add, map_append, drop_left' (by simp), map_map]
  apply map_congr_left
  intro j _
  simp only [Function.comp_apply, getD_eq_getElem?_getD, getElem?_drop]
  rw [add_comm (h * ps), Nat.add_mul_div_right _ _ pos, Nat.add_mul_mod_self_right,
    add_comm (j / ps)]

lemma getNumNewPages_aligned (length : r.extendLen = h * ps + tail) :
    getNumNewPages ps [r] = h + pagesFor ps tail := by
  have split := Nat.div_add_mod' r.prefixLen ps
  have seq : r.seqLen = (r.prefixLen / ps + h) * ps + tail := by
    have := r.prefix_le_seq
    rw [extendLen] at length
    rw [add_mul]
    omega
  have before : pagesFor ps r.prefixLen = r.prefixLen / ps := by
    rw [pagesFor_eq pos, if_neg (by omega), add_zero]
  simp only [getNumNewPages, map_singleton, sum_singleton, newPages]
  rw [seq, pagesFor_mul_add pos]
  omega

/-- The slots before the `h`-th new page lie on the first `h` of them. -/
lemma page_mem_take (enough : h ≤ pages.length)
    (mem : slot ∈ (extendRows ps [r] pages).take (h * ps)) : slot / ps ∈ pages.take h := by
  rw [extendRows_aligned pos whole, ← map_take, take_range] at mem
  obtain ⟨i, lane, rfl⟩ := mem_map.mp mem
  have lt : i / ps < h := (Nat.div_lt_iff_lt_mul pos).mpr (by
    have := mem_range.mp lane
    omega)
  rw [page_of_offset (Nat.mod_lt i pos), getD_eq_getElem _ _ (by omega)]
  exact mem_take_iff_getElem.mpr ⟨i / ps, by omega, rfl⟩

lemma page_mem_aligned (room : r.extendLen ≤ pages.length * ps)
    (mem : slot ∈ extendRows ps [r] pages) : slot / ps ∈ pages := by
  have all : (extendRows ps [r] pages).take (pages.length * ps) = extendRows ps [r] pages := by
    apply take_of_length_le
    rwa [length_extendRows, map_singleton, sum_singleton]
  exact mem_of_mem_take (page_mem_take pos whole (le_refl _) (all.symm ▸ mem))

end

section

variable (inv : Inv c s F S partner)
include inv

/-- A page-aligned row whose slots from the `h`-th new page on get window peers. -/
lemma Inv.handOut_tail (ring : c.swaReqRing = false) (whole : row.prefixLen % c.pageSize = 0)
    (extend : row.extendLen = h * c.pageSize + tail) (nodup : fs.Nodup)
    (fresh : ∀ page ∈ fs, page ∉ F) (length : fs.length = h + pagesFor c.pageSize tail)
    (length' : ws.length = pagesFor c.pageSize tail) :
    HandOut c F partner fs ws (fs.drop h) (extendRows c.pageSize [row] fs)
      (((extendRows c.pageSize [row] fs).drop (h * c.pageSize)).zip
        (extendRows c.pageSize [tailRow tail] ws)) := by
  have pos := c.pageSize_pos
  have tailSlots := drop_extendRows_aligned pos whole extend fs
  have windowSlots : extendRows c.pageSize [tailRow tail] ws
      = (range tail).map fun j => ws.getD (j / c.pageSize) 0 * c.pageSize + j % c.pageSize :=
    extendRows_aligned pos (Nat.zero_mod _) ws
  have inPages : ∀ j < tail, j / c.pageSize < pagesFor c.pageSize tail := fun j lt =>
    Nat.div_lt_of_lt_mul (Nat.mul_comm _ _ ▸ lt.trans_le (le_pagesFor_mul pos tail))
  have zipped : ((extendRows c.pageSize [row] fs).drop (h * c.pageSize)).zip
      (extendRows c.pageSize [tailRow tail] ws)
      = (range tail).map fun j =>
          ((fs.drop h).getD (j / c.pageSize) 0 * c.pageSize + j % c.pageSize,
            ws.getD (j / c.pageSize) 0 * c.pageSize + j % c.pageSize) := by
    rw [tailSlots, windowSlots]
    exact zip_map'
  have firsts : ((((extendRows c.pageSize [row] fs).drop (h * c.pageSize)).zip
      (extendRows c.pageSize [tailRow tail] ws)).map Prod.fst)
      = (extendRows c.pageSize [row] fs).drop (h * c.pageSize) := by
    rw [zipped, tailSlots, map_map]
    rfl
  have dropLength : (fs.drop h).length = pagesFor c.pageSize tail := by
    rw [length_drop]
    omega
  refine ⟨fun page => mem_of_mem_drop, nodup.drop, dropLength.trans length'.symm,
    ?_, ?_, ?_, ?_, ?_, ?_⟩
  · intro f w mem
    rw [zipped] at mem
    obtain ⟨j, lane, pair⟩ := mem_map.mp mem
    cases pair
    have page := inPages j (mem_range.mp lane)
    have small := Nat.mod_lt j pos
    rw [page_of_offset small, page_of_offset small, offset_of_offset small, offset_of_offset small,
      getD_eq_getElem _ _ (dropLength ▸ page), getD_eq_getElem _ _ (length' ▸ page)]
    refine ⟨rfl, (Lib.pairUp_getElem? nodup.drop (getElem?_eq_getElem _)).trans ?_⟩
    exact getElem?_eq_getElem _
  · intro f mem
    rw [firsts] at mem
    exact mem_of_mem_drop mem
  · intro slot mem
    rw [firsts]
    rw [← take_append_drop (h * c.pageSize) (extendRows c.pageSize [row] fs), mem_append] at mem
    apply mem.symm.imp_right
    intro head
    have page := page_mem_take pos whole (by omega) head
    have unpaired := inv.fresh_unpaired (fresh _ (mem_of_mem_take page))
    rw [pairUp_of_not_mem fun later => ?_, unpaired]
    exact (disjoint_take_drop nodup (le_refl h)) page later
  · intro slot mem
    refine Finset.mem_union_right _ (mem_toFinset.mpr ?_)
    refine page_mem_aligned pos whole ?_ mem
    have := le_pagesFor_mul pos tail
    rw [length, add_mul]
    omega
  · intro page mem
    have demand := (getNumNewPages_aligned pos whole extend).trans length.symm
    apply first_slot_mem_extendRows pos demand.le
    rw [take_of_length_le demand.ge]
    exact mem_of_mem_drop mem
  · simp [ring]

/-- The slots before the tail have no window peers, so clearing them changes nothing. -/
lemma Inv.clear_head {out : List Nat} {writes : List (Nat × Nat)}
    (whole : row.prefixLen % c.pageSize = 0) (nodup : fs.Nodup) (fresh : ∀ page ∈ fs, page ∉ F)
    (enough : h ≤ fs.length) (handOut : HandOut c F partner fs ws (fs.drop h) out writes)
    (head : slot ∈ (extendRows c.pageSize [row] fs).take (h * c.pageSize)) :
    writeMapping s.pool.mapping writes slot = 0 := by
  have page := page_mem_take c.pageSize_pos whole enough head
  have unpaired := inv.fresh_unpaired (fresh _ (mem_of_mem_take page))
  have untouched : slot ∉ writes.map Prod.fst := by
    intro touched
    obtain ⟨⟨f, w⟩, mem, rfl⟩ := mem_map.mp touched
    have pair := (handOut.inStep f w mem).2
    rw [pairUp_of_not_mem (disjoint_take_drop nodup (le_refl h) page), unpaired] at pair
    cases pair
  rw [writeMapping, Lib.scatter_of_not_mem untouched, inv.mapping, slotImage_of_none unpaired]

lemma Inv.allocExtendSwaTail (allowed : s.Allowed c (.allocExtendSwaTail row n tail))
    (ran : s.pool.allocExtendSwaTail c row n tail = some result) : Paired c (s.receive result) := by
  obtain ⟨rfl, whole, usesTail, radixCache, windowSize, rfl⟩ := allowed
  have windowAligned := swaTailLen_aligned c.pageSize usesTail radixCache windowSize row.seqLen
  generalize swaTailLen c.pageSize usesTail radixCache windowSize row.seqLen = tail at *
  have pos := c.pageSize_pos
  unfold Swa.allocExtendSwaTail at ran
  split at ran
  swap
  · cases ran
  rename_i asserts
  obtain ⟨h, extend⟩ : ∃ h, row.extendLen = h * c.pageSize + tail := by
    obtain ⟨h, rest⟩ := Nat.dvd_sub (Nat.dvd_of_mod_eq_zero windowAligned)
      (Nat.dvd_of_mod_eq_zero whole)
    refine ⟨h, ?_⟩
    rw [mul_comm h, extendLen]
    have := asserts.2
    rw [extendLen] at this
    omega
  have count := getNumNewPages_aligned pos whole extend
  have single : row.extendLen = ([row].map extendLen).sum := by simp
  have mapped : ∀ r ∈ [row], s.RowMapped c r := by
    intro r mem
    rw [mem_singleton.mp mem]
    exact ⟨absurd whole, absurd whole⟩
  simp only at ran
  split at ran
  · cases ran
    exact inv.receive_none inv.full inv.swa
  cases askedFull : s.pool.full.allocExtend c.full [row] row.extendLen
      (some (getNumNewPages c.pageSize [row])) with
  | none => simp [askedFull] at ran
  | some answer =>
  obtain ⟨full', fullOut⟩ := answer
  rw [askedFull] at ran
  simp only at ran
  rcases inv.full.allocExtend single (by rintro _ ⟨⟩; rfl) askedFull with ⟨rfl, same⟩ | ⟨fs, rfl, got, length⟩
  · split at ran
    · cases ran
      exact inv.receive_none same inv.swa
    · cases ran
  have length : fs.length = h + pagesFor c.pageSize tail := length.trans count
  split at ran
  · rename_i ring
    cases ran
    exact inv.grant_full _ got (inv.out_pages_rows mapped (length.trans count.symm))
      fun slot _ => inv.ring_none ring _
  rename_i noRing
  have ring : c.swaReqRing = false := by simpa using noRing
  dsimp only at ran
  split at ran
  · cases ran
    refine inv.grant_full _ got (inv.out_pages_rows mapped (length.trans count.symm))
      fun slot mem => inv.fresh_unpaired (got.fresh _ (page_mem_aligned pos whole ?_ mem))
    rw [length, add_mul]
    omega
  split at ran
  · rename_i swa' swaOut askedSwa
    obtain ⟨mapping', set, rfl⟩ := map_eq_some_iff.mp ran
    have tailCount : getNumNewPages c.pageSize [tailRow tail] = pagesFor c.pageSize tail := by
      simpa using getNumNewPages_aligned (h := 0) pos (Nat.zero_mod _)
        (by simp [tailRow, extendLen])
    have tailTotal : tail = ([tailRow tail].map extendLen).sum := by
      simp [tailRow, extendLen]
    obtain ⟨refused, -⟩ | ⟨ws, out', gotSwa, length'⟩ := inv.swa.allocExtend tailTotal
      (fun k mem => (Option.mem_some.mp mem).symm.trans tailCount.symm) askedSwa
    · cases refused
    cases out'
    have length' : ws.length = pagesFor c.pageSize tail := length'.trans tailCount
    have handOut := inv.handOut_tail ring whole extend got.nodup got.fresh length length'
    have start : (extendRows c.pageSize [row] fs).length - tail = h * c.pageSize := by
      rw [length_extendRows, map_singleton, sum_singleton, extend, Nat.add_sub_cancel]
    have written : mapping' = writeMapping s.pool.mapping
        (((extendRows c.pageSize [row] fs).drop (h * c.pageSize)).zip
          (extendRows c.pageSize [tailRow tail] ws)) := by
      rw [← start]
      exact setFullToSwaMapping_eq set
    refine ⟨_, _, _, inv.grant got gotSwa handOut fun slot => ?_⟩
    rw [← written]
    split
    · unfold clearFullToSwaMapping
      split
      · rename_i head
        have head : slot ∈ (extendRows c.pageSize [row] fs).take (h * c.pageSize) := start ▸ head
        rw [written, inv.clear_head whole got.nodup got.fresh (by omega) handOut head]
      · rfl
    · rfl
  · cases ran

end

/-! ### Giving back -/

lemma mem_expandPages (pos : 0 < ps) : slot ∈ expandPages ps pages ↔ slot / ps ∈ pages := by
  simp only [expandPages, expandPage, mem_flatMap, mem_map, mem_range]
  constructor
  · rintro ⟨page, mem, i, lt, rfl⟩
    rwa [page_of_offset lt]
  · intro mem
    exact ⟨_, mem, slot % ps, Nat.mod_lt _ pos, Nat.div_add_mod' slot ps⟩

section

variable (inv : Inv c s F S partner)
include inv

/-- Clearing whole pages forgets their partners. -/
lemma Inv.mapping_clear (pages : List Nat) (slot : Nat) :
    clearFullToSwaMapping s.pool.mapping (expandPages c.pageSize pages) slot
      = slotImage c.pageSize (unpair partner pages) s.handedOut slot := by
  unfold clearFullToSwaMapping slotImage unpair
  by_cases cleared : slot / c.pageSize ∈ pages
  · rw [if_pos ((mem_expandPages c.pageSize_pos).mpr cleared), if_pos cleared]
  · rw [if_neg fun mem => cleared ((mem_expandPages c.pageSize_pos).mp mem), if_neg cleared]
    exact inv.mapping slot

/-- The window pages the live entries of whole pages lie on. -/
lemma Inv.mem_released (pages : List Nat) (swaPage : Nat) : swaPage ∈ pagesOf c.pageSize
        (((expandPages c.pageSize pages).map s.pool.mapping).filter (0 < ·)) ↔
      swaPage ∈ pages.filterMap partner := by
  simp only [pagesOf, mem_map, mem_filter, decide_eq_true_eq, mem_filterMap,
    mem_expandPages c.pageSize_pos]
  constructor
  · rintro ⟨_, ⟨⟨slot, mem, rfl⟩, live⟩, rfl⟩
    refine ⟨_, mem, ?_⟩
    rw [inv.mapping, slotImage] at live ⊢
    cases paired : partner (slot / c.pageSize) with
    | none => simp [paired] at live
    | some other =>
      simp only [paired] at live ⊢
      split at live
      · rename_i out
        rw [if_pos out, page_of_offset (Nat.mod_lt _ c.pageSize_pos)]
      · omega
  · rintro ⟨page, mem, paired⟩
    refine ⟨swaPage * c.pageSize, ⟨⟨page * c.pageSize, ?_, inv.mapping_first paired⟩,
      mul_pos (inv.partner_pos paired) c.pageSize_pos⟩, Nat.mul_div_cancel _ c.pageSize_pos⟩
    rwa [Nat.mul_div_cancel _ c.pageSize_pos]

lemma Inv.partner_image (mem : swaPage ∈ pages.filterMap partner) :
    swaPage ∈ S ∧ swaPage ∉ queuedSlotPages c s.pool ∧ swaPage ∉ queuedPageIds s.pool := by
  obtain ⟨page, -, paired⟩ := mem_filterMap.mp mem
  have image := (inv.pairing.range swaPage).mpr ⟨page, paired⟩
  rwa [mem_sdiff, mem_toFinset, mem_append, not_or] at image

/-- The peers of whole pages go back to the window pool at once. -/
lemma Inv.unmap_release (pages : List Nat)
    (released : Attn.Live c.swa swa' (S \ (pages.filterMap partner).toFinset)) :
    Inv c ⟨{ s.pool with
        mapping := clearFullToSwaMapping s.pool.mapping (expandPages c.pageSize pages)
        swa := swa' }, s.handedOut⟩
      F (S \ (pages.filterMap partner).toFinset) (unpair partner pages) :=
  { inv with
    swa := released
    pairing := by
      have dropped := inv.pairing.drop pages
      rwa [sdiff_right_comm] at dropped
    mapping := inv.mapping_clear pages
    first := fun page swaPage h => inv.first page swaPage (Lib.unpair_eq_some.mp h).2
    queued := by
      intro page mem
      rw [mem_sdiff, mem_toFinset]
      refine ⟨inv.queued page mem, fun image => ?_⟩
      obtain ⟨-, notSlot, notId⟩ := inv.partner_image image
      exact (mem_append.mp mem).elim notSlot notId
    ring := fun ring => by rw [inv.ring ring, Finset.empty_sdiff] }

/-- Inside a group the peers of whole pages are queued. -/
lemma Inv.unmap_queue (pages : List Nat) {slots ids : List (List Nat)}
    (opened : s.pool.freeGroup = true) (pool_eq : pool = { s.pool with
      mapping := clearFullToSwaMapping s.pool.mapping (expandPages c.pageSize pages)
      swaFreeGroup := slots
      swaPageIdsGroup := ids })
    (queued : ∀ page, page ∈ queuedSlotPages c pool ++ queuedPageIds pool ↔
      page ∈ (queuedSlotPages c s.pool ++ queuedPageIds s.pool) ++ pages.filterMap partner)
    (nodup : (queuedPageIds pool).Nodup)
    (apart : ∀ page ∈ queuedSlotPages c pool, page ∉ queuedPageIds pool)
    (single : c.pageSize = 1 → slots = []) :
    Inv c ⟨pool, s.handedOut⟩ F S (unpair partner pages) := by
  have sameQueue : (queuedSlotPages c pool ++ queuedPageIds pool).toFinset
      = ((queuedSlotPages c s.pool ++ queuedPageIds s.pool) ++ pages.filterMap partner).toFinset := by
    ext page
    rw [mem_toFinset, mem_toFinset]
    exact queued page
  subst pool_eq
  exact { inv with
    pairing := by
      rw [sameQueue, Attn.sdiff_append]
      exact inv.pairing.drop pages
    mapping := inv.mapping_clear pages
    first := fun page swaPage h => inv.first page swaPage (Lib.unpair_eq_some.mp h).2
    queued := by
      intro page mem
      rcases mem_append.mp ((queued page).mp mem) with old | image
      · exact inv.queued page old
      · exact (inv.partner_image image).1
    queuedIds_nodup := nodup
    queued_apart := apart
    closed := by simp [opened]
    single := single }

/-- `free_swa` of any slots of a paged pool releases the peers of their pages. -/
lemma Inv.freeSwa_paged (ring : c.swaReqRing = false)
    (many : c.pageSize ≠ 1) (ran : s.pool.freeSwa c freeIndex = some pool) :
    ∃ S', Inv c ⟨pool, s.handedOut⟩ F S' (unpair partner (pagesOf c.pageSize freeIndex)) := by
  have released := inv.mem_released (pagesOf c.pageSize freeIndex)
  unfold Swa.freeSwa at ran
  rw [ring] at ran
  split at ran
  · rename_i empty
    cases ran
    refine ⟨S, ?_⟩
    have : unpair partner (pagesOf c.pageSize freeIndex) = partner := by
      rw [isEmpty_iff.mp empty]
      funext page
      simp [unpair, pagesOf]
    rwa [this]
  simp only at ran
  split at ran
  · rename_i opened
    cases ran
    have queue : ∀ page, page ∈ pagesOf c.pageSize ((s.pool.swaFreeGroup ++
        [(expandPages c.pageSize (pagesOf c.pageSize freeIndex)).map s.pool.mapping]).flatten.filter
          (0 < ·)) ↔ page ∈ queuedSlotPages c s.pool ∨
            page ∈ (pagesOf c.pageSize freeIndex).filterMap partner := by
      intro page
      rw [← released page]
      simp [queuedSlotPages, pagesOf]
    refine ⟨S, inv.unmap_queue _ opened rfl ?_ inv.queuedIds_nodup ?_ (absurd · many)⟩
    · intro page
      rw [mem_append, mem_append, mem_append, queuedSlotPages, queue page]
      exact or_right_comm
    · intro page mem
      rcases (queue page).mp mem with old | new
      · exact inv.queued_apart page old
      · exact (inv.partner_image new).2.2
  · have gt : 1 < c.pageSize := lt_of_le_of_ne c.pageSize_pos (.symm many)
    simp only [Swa.releaseSwa, if_pos gt] at ran
    split at ran
    · cases ran
      refine ⟨_, inv.unmap_release (pagesOf c.pageSize freeIndex) ?_⟩
      have sameSet : (pagesOf c.pageSize (((expandPages c.pageSize
          (pagesOf c.pageSize freeIndex)).map s.pool.mapping).filter (0 < ·))).toFinset
          = ((pagesOf c.pageSize freeIndex).filterMap partner).toFinset := by
        ext page
        rw [mem_toFinset, mem_toFinset, released page]
      rw [← sameSet]
      apply inv.swa.free
      rw [Attn.FreeOk, if_neg (show c.swa.pageSize ≠ 1 from many)]
      exact fun page mem => .inr (inv.partner_image ((released page).mp mem)).1
    · cases ran

/-- Distinct mapped pages have distinct peers, one per page. -/
lemma Inv.swaPagesOf_eq
    (run : PagedOwned.IsRun c.full freeIndex pages) (mapped : ∀ page ∈ pages, ¬ s.Unmapped c page) :
    s.pool.swaPagesOf c freeIndex = pages.filterMap partner := by
  rw [swaPagesOf_run run]
  clear run
  induction pages with
  | nil => rfl
  | cons page pages ih =>
    rw [forall_mem_cons] at mapped
    obtain ⟨swaPage, paired⟩ := inv.exists_partner mapped.1
    rw [map_cons, filterMap_cons, paired, inv.mapping_first paired,
      Nat.mul_div_cancel _ c.pageSize_pos, ih mapped.2]

lemma Inv.partners_nodup (nodup : pages.Nodup) : (pages.filterMap partner).Nodup := by
  apply nodup.filterMap
  intro page page' swaPage mem mem'
  exact inv.pairing.inj page page' swaPage mem mem'

/-- `_free_swa_pages` of a run of mapped pages releases exactly their peers. -/
lemma Inv.freeSwaPages (run : s.LiveRun c freeIndex pages)
    (mapped : ∀ page ∈ pages, ¬ s.Unmapped c page)
    (ran : s.pool.freeSwaPages c freeIndex startPos = some pool) :
    ∃ S', Inv c ⟨pool, s.handedOut⟩ F S' (unpair partner pages) := by
  obtain ⟨isRun, nodup, -⟩ := run
  have reps : pagesOf c.pageSize (Paged.representatives c.pageSize freeIndex) = pages :=
    isRun.pagesOf_representatives
  have peers := inv.swaPagesOf_eq isRun mapped
  have peersNodup := inv.partners_nodup nodup
  unfold Swa.freeSwaPages at ran
  simp only [reps, peers] at ran
  split at ran
  swap
  · cases ran
  split at ran
  · rename_i opened
    cases ran
    have queue : (s.pool.swaPageIdsGroup ++ [pages.filterMap partner]).flatten
        = queuedPageIds s.pool ++ pages.filterMap partner := by
      simp [queuedPageIds]
    refine ⟨S, inv.unmap_queue _ opened rfl ?_ ?_ ?_ inv.single⟩
    · intro page
      rw [mem_append, mem_append, mem_append, queuedPageIds, queue, mem_append, or_assoc]
      rfl
    · rw [queuedPageIds, queue]
      refine nodup_append.mpr ⟨inv.queuedIds_nodup, peersNodup, ?_⟩
      rintro page old _ new rfl
      exact (inv.partner_image new).2.2 old
    · intro page mem
      rw [queuedPageIds, queue, mem_append, not_or]
      exact ⟨inv.queued_apart page mem, fun new => (inv.partner_image new).2.1 mem⟩
  · split at ran
    · cases ran
      exact ⟨_, inv.unmap_release pages
        (inv.swa.freePageIds peersNodup fun page mem => (inv.partner_image mem).1)⟩
    · cases ran

/-- Full pages without peers leave the full pool. -/
lemma Inv.retire (unpaired : ∀ page ∈ pages, partner page = none)
    (freed : Attn.Live c.full full' (F \ pages.toFinset)) :
    Inv c (s.giveBack c { s.pool with full := full' } pages) (F \ pages.toFinset) S partner := by
  have kept : ∀ page swaPage, partner page = some swaPage → page ∉ pages := by
    intro page swaPage paired mem
    rw [unpaired page mem] at paired
    cases paired
  exact { inv with
    full := freed
    pairing := by
      refine inv.pairing.live_of_dom fun page swaPage paired => ?_
      rw [mem_sdiff, mem_toFinset]
      exact ⟨inv.pairing.dom page swaPage paired, kept page swaPage paired⟩
    mapping := by
      intro slot
      apply (inv.mapping slot).trans
      unfold slotImage
      cases paired : partner (slot / c.pageSize) with
      | none => rfl
      | some swaPage => simp [giveBack, kept _ _ paired]
    first := by
      intro page swaPage paired
      refine Finset.mem_filter.mpr ⟨inv.first page swaPage paired, ?_⟩
      rw [Nat.mul_div_cancel _ c.pageSize_pos]
      exact kept page swaPage paired
    handed := by
      intro slot mem
      obtain ⟨out, kept⟩ := Finset.mem_filter.mp mem
      exact mem_sdiff.mpr ⟨inv.handed slot out, fun gone => kept (mem_toFinset.mp gone)⟩ }

end

lemma isRun_self (one : c.pageSize = 1) (freeIndex : List Nat) :
    PagedOwned.IsRun c.full freeIndex freeIndex := by
  have one' : c.full.pageSize = 1 := one
  have whole : expandPages 1 freeIndex = freeIndex := by
    have single : expandPage 1 = fun page => [page] := by
      funext page
      simp [expandPage]
    rw [expandPages, single, flatMap_singleton']
  rw [PagedOwned.IsRun, one', whole, take_length]
  exact ⟨by simp [pagesFor], rfl⟩

section

variable (inv : Inv c s F S partner)
include inv

lemma Inv.freeSwaSegment (run : s.LiveRun c freeIndex pages)
    (mapped : s.AllMapped c pages) (ran : s.pool.freeSwaSegment c freeIndex startPos = some pool) :
    ∃ S' partner', Inv c ⟨pool, s.handedOut⟩ F S' partner' ∧
      ∀ page ∈ pages, partner' page = none := by
  unfold Swa.freeSwaSegment at ran
  cases ring : c.swaReqRing with
  | true =>
    simp only [ring, Bool.true_or, if_true, Option.some.injEq] at ran
    subst ran
    exact ⟨S, partner, inv, fun page _ => inv.ring_none ring page⟩
  | false =>
    rw [ring] at ran
    split at ran
    · rename_i empty
      cases ran
      refine ⟨S, partner, inv, fun page mem => ?_⟩
      rw [← run.1.mem_pagesOf, isEmpty_iff.mp empty] at mem
      cases mem
    · obtain ⟨S', inv'⟩ := inv.freeSwaPages run (mapped ring) ran
      exact ⟨S', _, inv', fun page mem => if_pos mem⟩

/-- After `free_swa` the pages of the freed slots have no peers. -/
lemma Inv.freeSwa
    (ok : c.pageSize = 1 → Attn.FreeOk c.full (s.liveFull c) freeIndex ∧ s.AllMapped c freeIndex)
    (ran : s.pool.freeSwa c freeIndex = some pool) :
    ∃ S' partner', Inv c ⟨pool, s.handedOut⟩ F S' partner' ∧
      ∀ page ∈ pagesOf c.pageSize freeIndex, partner' page = none := by
  by_cases one : c.pageSize = 1
  · -- pages of one slot are freed as a segment
    obtain ⟨freeOk, mapped⟩ := ok one
    rw [Attn.FreeOk, if_pos (show c.full.pageSize = 1 from one)] at freeOk
    rw [one, Attn.pagesOf_one]
    rw [Swa.freeSwa, if_pos one] at ran
    exact inv.freeSwaSegment ⟨isRun_self one freeIndex, freeOk⟩ mapped ran
  cases ring : c.swaReqRing with
  | true =>
    simp only [Swa.freeSwa, ring, Bool.true_or, if_true, Option.some.injEq] at ran
    subst ran
    exact ⟨S, partner, inv, fun page _ => inv.ring_none ring page⟩
  | false =>
    obtain ⟨S', inv'⟩ := inv.freeSwa_paged ring one ran
    exact ⟨S', _, inv', fun page mem => if_pos mem⟩

lemma Inv.giveBack_none (noIndex : freeIndex.isEmpty = true) :
    Paired c (s.giveBack c s.pool (pagesOf c.pageSize freeIndex)) := by
  rw [isEmpty_iff.mp noIndex]
  exact ⟨_, _, _, inv.retire (by simp [pagesOf]) (by simpa [pagesOf] using inv.full)⟩

lemma Inv.freeFull (ok : Attn.FreeOk c.full F freeIndex)
    (unpaired : ∀ page ∈ pagesOf c.pageSize freeIndex, partner page = none)
    (ran : s.pool.freeFull c freeIndex = some pool) :
    Paired c (s.giveBack c pool (pagesOf c.pageSize freeIndex)) := by
  unfold Swa.freeFull at ran
  split at ran
  · cases ran
    exact inv.giveBack_none ‹_›
  · simp only at ran
    split at ran
    · cases ran
      exact ⟨_, _, _, inv.retire unpaired (inv.full.free ok)⟩
    · cases ran

lemma Inv.freeFullSegment (run : s.LiveRun c freeIndex pages)
    (unpaired : ∀ page ∈ pages, partner page = none)
    (ran : s.pool.freeFullSegment c freeIndex startPos = some pool) :
    Paired c (s.giveBack c pool (pagesOf c.pageSize freeIndex)) := by
  obtain ⟨isRun, nodup, live⟩ := run
  have samePages : ∀ page, page ∈ pagesOf c.pageSize freeIndex ↔ page ∈ pages :=
    fun page => isRun.mem_pagesOf
  have unpaired' : ∀ page ∈ pagesOf c.pageSize freeIndex, partner page = none :=
    fun page mem => unpaired page ((samePages page).mp mem)
  unfold Swa.freeFullSegment at ran
  split at ran
  · cases ran
    exact inv.giveBack_none ‹_›
  · obtain ⟨full', freed, rfl⟩ := map_eq_some_iff.mp ran
    rw [inv.liveFull_eq] at live
    have after := inv.full.freeSegment isRun nodup live freed
    have sameSet : pages.toFinset = (pagesOf c.pageSize freeIndex).toFinset := by
      ext page
      rw [mem_toFinset, mem_toFinset, samePages]
    rw [sameSet] at after
    exact ⟨_, _, _, inv.retire unpaired' after⟩

lemma Inv.free (ok : s.Allowed c (.free freeIndex)) (ran : s.pool.free c freeIndex = some pool) :
    Paired c (s.giveBack c pool (pagesOf c.pageSize freeIndex)) := by
  obtain ⟨freeOk, mapped⟩ := ok
  unfold Swa.free at ran
  split at ran
  · cases ran
    exact inv.giveBack_none ‹_›
  · obtain ⟨pool', window, full⟩ := Option.bind_eq_some_iff.mp ran
    obtain ⟨S', partner', inv', unpaired⟩ := inv.freeSwa (fun one => ⟨freeOk, mapped one⟩) window
    rw [inv.liveFull_eq] at freeOk
    exact inv'.freeFull freeOk unpaired full

lemma Inv.freeSegment (ok : s.Allowed c (.freeSegment freeIndex startPos))
    (ran : s.pool.freeSegment c freeIndex startPos = some pool) :
    Paired c (s.giveBack c pool (pagesOf c.pageSize freeIndex)) := by
  obtain ⟨pages, run, mapped⟩ := ok
  unfold Swa.freeSegment at ran
  split at ran
  · cases ran
    exact inv.giveBack_none ‹_›
  · obtain ⟨pool', window, full⟩ := Option.bind_eq_some_iff.mp ran
    obtain ⟨S', partner', inv', unpaired⟩ := inv.freeSwaSegment run mapped window
    refine inv'.freeFullSegment ⟨run.1, run.2.1, ?_⟩ unpaired full
    rw [inv'.liveFull_eq, ← inv.liveFull_eq]
    exact run.2.2

end

/-! ### Free groups -/

lemma Inv.freeGroupBegin (inv : Inv c s F S partner) (ran : s.pool.freeGroupBegin = some pool) :
    Paired c ⟨pool, s.handedOut⟩ := by
  unfold Swa.freeGroupBegin at ran
  split at ran
  · cases ran
  · rename_i closed
    obtain ⟨full', begun, rfl⟩ := map_eq_some_iff.mp ran
    -- the queues are reset, but a closed group has left none
    obtain ⟨noSlots, noIds⟩ := inv.closed (by simpa using closed)
    have slots : queuedSlotPages c s.pool = [] := by simp [queuedSlotPages, noSlots, pagesOf]
    have ids : queuedPageIds s.pool = [] := by simp [queuedPageIds, noIds]
    have pairing := inv.pairing
    rw [slots, ids] at pairing
    exact ⟨F, S, partner, inv.full.freeGroupBegin begun, inv.swa, pairing, inv.mapping, inv.first,
      inv.handed, by simp [queuedSlotPages, queuedPageIds, pagesOf], nodup_nil,
      by simp [queuedSlotPages, pagesOf], by simp, fun _ => rfl, inv.ring⟩

/-- The first half of `free_group_end`: the queued page ids are released. -/
lemma live_releasePageIdsGroup (pool : Swa)
    (swa : Attn.Live c.swa pool.swa live) (nodup : (queuedPageIds pool).Nodup)
    (owned : ∀ page ∈ queuedPageIds pool, page ∈ live) (ring : c.swaReqRing = true → live = ∅) :
    ∃ swa', Attn.Live c.swa swa' (live \ (queuedPageIds pool).toFinset) ∧
      pool.releasePageIdsGroup c = { pool with swa := swa', swaPageIdsGroup := [] } := by
  unfold Swa.releasePageIdsGroup
  split
  · rename_i empty
    have noIds := isEmpty_iff.mp empty
    refine ⟨pool.swa, ?_, by rw [← noIds]⟩
    simpa [queuedPageIds, noIds] using swa
  · refine ⟨_, ?_, rfl⟩
    split
    · rename_i isRing
      rw [ring isRing] at swa ⊢
      rwa [Finset.empty_sdiff]
    · exact swa.freePageIds nodup owned

/-- The second half: the queued slots are released. -/
lemma live_releaseFreeGroup (pool : Swa) {pool' : Swa}
    (swa : Attn.Live c.swa pool.swa live) (owned : ∀ page ∈ queuedSlotPages c pool, page ∈ live)
    (single : c.pageSize = 1 → pool.swaFreeGroup = [])
    (ran : pool.releaseFreeGroup c = some pool') :
    ∃ swa', Attn.Live c.swa swa' (live \ (queuedSlotPages c pool).toFinset) ∧
      pool' = { pool with swa := swa', swaFreeGroup := [] } := by
  unfold Swa.releaseFreeGroup at ran
  split at ran
  · rename_i empty
    cases ran
    have noSlots := isEmpty_iff.mp empty
    refine ⟨pool.swa, ?_, by rw [← noSlots]⟩
    simpa [queuedSlotPages, noSlots, pagesOf] using swa
  · rename_i queued
    have many : c.pageSize ≠ 1 := fun one => queued (by rw [single one]; rfl)
    have gt : 1 < c.pageSize := lt_of_le_of_ne c.pageSize_pos (.symm many)
    simp only [Swa.releaseSwa, if_pos gt] at ran
    split at ran
    · cases ran
      refine ⟨_, swa.free ?_, rfl⟩
      rw [Attn.FreeOk, if_neg (show c.swa.pageSize ≠ 1 from many)]
      exact fun page mem => .inr (owned page mem)
    · cases ran

lemma Inv.freeGroupEnd (inv : Inv c s F S partner) (ran : s.pool.freeGroupEnd c = some pool) :
    Paired c ⟨pool, s.handedOut⟩ := by
  obtain ⟨swa₁, live₁, afterIds⟩ := live_releasePageIdsGroup { s.pool with freeGroup := false }
    inv.swa inv.queuedIds_nodup (fun page mem => inv.queued page (mem_append_right _ mem))
    inv.ring
  unfold Swa.freeGroupEnd at ran
  simp only [afterIds] at ran
  obtain ⟨pool', released, ended⟩ := Option.bind_eq_some_iff.mp ran
  have owned : ∀ page ∈ queuedSlotPages c s.pool, page ∈ S \ (queuedPageIds s.pool).toFinset := by
    intro page mem
    rw [mem_sdiff, mem_toFinset]
    exact ⟨inv.queued page (mem_append_left _ mem), inv.queued_apart page mem⟩
  obtain ⟨swa₂, live₂, rfl⟩ := live_releaseFreeGroup
    { s.pool with freeGroup := false, swa := swa₁, swaPageIdsGroup := [] } live₁ owned inv.single
    released
  split at ended
  · cases ended
    -- what was queued is gone from the pool, so the pages with peers are the same
    have sameImage : (S \ (queuedPageIds s.pool).toFinset) \ (queuedSlotPages c s.pool).toFinset
        = S \ (queuedSlotPages c s.pool ++ queuedPageIds s.pool).toFinset := by
      rw [Attn.sdiff_append, sdiff_right_comm]
    have pairing := inv.pairing
    rw [← sameImage] at pairing
    refine ⟨F, _, partner, inv.full.freeGroupEnd, live₂, ?_, inv.mapping, inv.first, inv.handed,
      by simp [queuedSlotPages, queuedPageIds, pagesOf], nodup_nil,
      by simp [queuedSlotPages, pagesOf], fun _ => ⟨rfl, rfl⟩, fun _ => rfl, fun ring => ?_⟩
    · simpa [queuedSlotPages, queuedPageIds, pagesOf] using pairing
    · simp [inv.ring ring]
  · cases ended

/-! ### Whole runs -/

lemma Inv.clear : Inv c ⟨Swa.clear c, ∅⟩ ∅ ∅ fun _ => none where
  full := .clear
  swa := .clear
  pairing := by simpa using .empty
  mapping := fun slot => (slotImage_of_none rfl).symm
  first := by simp
  handed := by simp
  queued := by simp [queuedSlotPages, queuedPageIds, pagesOf, Swa.clear]
  queuedIds_nodup := nodup_nil
  queued_apart := by simp [queuedSlotPages, pagesOf, Swa.clear]
  closed := fun _ => ⟨rfl, rfl⟩
  single := fun _ => rfl
  ring := fun _ => rfl

lemma Paired.step {op : Op} (paired : Paired c s) (allowed : s.Allowed c op)
    (served : s.DecodeServed c op) (ran : s.step c op = some s') : Paired c s' := by
  obtain ⟨F, S, partner, inv⟩ := paired
  cases op <;> obtain ⟨_, called, rfl⟩ := map_eq_some_iff.mp ran
  case alloc => exact inv.alloc called
  case allocExtend => exact inv.allocExtend allowed called
  case allocExtendSwaTail => exact inv.allocExtendSwaTail allowed called
  case allocDecode => exact inv.allocDecode allowed served called
  case free => exact inv.free allowed called
  case freeSegment => exact inv.freeSegment allowed called
  case freeSwa =>
    obtain ⟨S', partner', inv', -⟩ := inv.freeSwa allowed called
    exact ⟨F, S', partner', inv'⟩
  case freeSwaSegment =>
    obtain ⟨pages, run, mapped⟩ := allowed
    obtain ⟨S', partner', inv', -⟩ := inv.freeSwaSegment run mapped called
    exact ⟨F, S', partner', inv'⟩
  case freeFull =>
    obtain ⟨freeOk, unmapped⟩ := allowed
    rw [inv.liveFull_eq] at freeOk
    exact inv.freeFull freeOk (fun page mem => inv.unmapped_iff.mp (unmapped page mem)) called
  case freeFullSegment =>
    obtain ⟨pages, run, unmapped⟩ := allowed
    exact inv.freeFullSegment run (fun page mem => inv.unmapped_iff.mp (unmapped page mem)) called
  case freeGroupBegin => exact inv.freeGroupBegin called
  case freeGroupEnd => exact inv.freeGroupEnd called

lemma paired_inductive : (servedMachine c).Inductive (Paired c) where
  start := by
    rintro s rfl
    exact ⟨∅, ∅, _, .clear⟩
  step := fun _ _ _ paired allowed => paired.step allowed.1 allowed.2

/-- **The two pools stay paged in step** in every state reached by callers that keep
their promises, when no decode asks a full pool that has run out for pages the window
pool still has. -/
theorem reachable_inStep {s : SwaOwned} (reached : (servedMachine c).Reachable s) : InStep c s := by
  obtain ⟨F, S, partner, inv⟩ := paired_inductive.reachable reached
  exact inv.inStep

/-- Two requests on two pages of each pool; the first frees its page. -/
theorem reachable_inStep_two_requests : ∃ s : SwaOwned,
    InStep ⟨4, 4, 2, false, false, by decide, by decide⟩ s ∧
      s.liveFull ⟨4, 4, 2, false, false, by decide, by decide⟩ = {2} ∧ s.pool.mapping 4 = 4 := by
  refine ⟨_, reachable_inStep (.step (.step (.step (.start rfl)
    (a := .allocExtend [⟨0, 2, -1, by decide⟩] 2) ?_ rfl)
    (a := .allocExtend [⟨0, 1, -1, by decide⟩] 1) ?_ rfl)
    (a := .free [2, 3]) ?_ rfl), ?_, ?_⟩
  · exact ⟨⟨rfl, by decide⟩, trivial⟩
  · exact ⟨⟨rfl, by decide⟩, trivial⟩
  · exact ⟨⟨by decide, by decide⟩, trivial⟩
  · decide
  · decide

/-- **`alloc_decode` strands window pages.** One page in the full pool, two in the window
pool. A request fills its page and decodes: the full pool has no page for it, the window
pool gives one, and the call returns nothing, so window page 2 is out with no full page. -/
theorem decode_strands_window_page : ∃ s : SwaOwned,
    (machine ⟨2, 4, 2, false, false, by decide, by decide⟩).Reachable s ∧
      ¬ InStep ⟨2, 4, 2, false, false, by decide, by decide⟩ s := by
  refine ⟨_, .step (.step (.start rfl) (a := .allocExtend [⟨0, 2, -1, by decide⟩] 2) ?_ rfl)
    (a := .allocDecode [⟨3, 3, by decide⟩]) ?_ rfl, ?_⟩
  · exact ⟨rfl, by decide⟩
  · intro r mem
    rw [List.mem_singleton.mp mem]
    decide
  · intro inStep
    have stranded := inStep.covered 2 (by decide)
    revert stranded
    decide

end SwaOwned

end Sglang.Alloc
