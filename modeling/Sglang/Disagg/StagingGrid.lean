/-
# The staging grid of a disaggregated transfer

Prefill sends the KV cache of a prompt in segments. Decode has reserved a staging region for
every slot of a grid, laid out from the end of the prefix it already holds, and a segment names
its slot by the number of pages sent before it. Chunked prefill calls the sender with whatever
it has computed so far.

* `computeGridSegments`, `Transfer.sendKvChunk` — the sender.
* `Transfer.numChunks` — the slots asked for by `prefetch_staging_reqs`.
* `staged_sends_tile` — however prefill is chunked, each writer sends one segment to every slot.
-/

import Sglang.Alloc.Paging

namespace Sglang.Disagg

open List

open Sglang.Alloc (pagesFor pagesFor_le_iff pagesFor_mul pagesFor_eq_zero_iff)

/-- `staging_grid_tokens`. -/
def stagingGridTokens (chunkedPrefillSize : Option Int) (pageSize : Nat) : Nat :=
  let cps := (chunkedPrefillSize.filter fun n => decide (n ≠ 0)).getD 8192
  (max 1 (cps / pageSize)).toNat * pageSize

/-- The loop of `compute_grid_segments`; every turn goes on by a token at least. -/
def gridLoop (base gridTokens endIdx : Int) : Nat → Int → List (Int × Int)
  | 0, _ => []
  | fuel + 1, segStart =>
    if segStart < endIdx then
      let nextBoundary := base + ((segStart - base) / gridTokens + 1) * gridTokens
      let segEnd := min nextBoundary endIdx
      (segStart, segEnd) :: gridLoop base gridTokens endIdx fuel segEnd
    else []

def computeGridSegments (startIdx endIdx base gridTokens : Int) : List (Int × Int) :=
  let segments := gridLoop base gridTokens endIdx (endIdx - startIdx).toNat startIdx
  if segments.isEmpty then [(startIdx, endIdx)] else segments

/-- A call of the sender: the slot that `check_ready` computes for it, and its tokens. -/
structure Send where
  chunkIdx : Nat
  segStart : Int
  segEnd : Int

/-- A request on its way: `curr_idx` counts the pages sent. -/
structure Sender where
  startSendIdx : Int
  currIdx : Nat := 0
  sends : List Send := []

/-- The sends that carry tokens. An empty one ends a transfer that has nothing left to send. -/
def Sender.staged (s : Sender) : List Send :=
  s.sends.filter fun g => decide (g.segStart < g.segEnd)

/-- What the sends of a request depend on: `base` is what decode already holds. -/
structure Transfer where
  pageSize : Nat
  chunkedPrefillSize : Option Int
  transferInputLen : Nat
  base : Nat
  pageSize_pos : 0 < pageSize

namespace Transfer

variable (c : Transfer)

def gridTokens : Nat := stagingGridTokens c.chunkedPrefillSize c.pageSize

def fullChunkPages : Nat := c.gridTokens / c.pageSize

/-- `num_chunks`: decode has a page for each page of the prompt it does not hold. -/
def numChunks : Nat :=
  pagesFor c.fullChunkPages (pagesFor c.pageSize (c.transferInputLen - c.base))

/-- One segment of a call. -/
def sendSegment (lastChunk : Bool) (endIdx : Int) (s : Sender) (seg : Int × Int) : Sender :=
  let numPages := pagesFor c.pageSize (seg.2 - seg.1).toNat
  if 0 < numPages ∨ lastChunk = true ∧ seg.2 = endIdx then
    { s with
      currIdx := s.currIdx + numPages
      sends := s.sends ++ [⟨s.currIdx / c.fullChunkPages, seg.1, seg.2⟩] }
  else s

/-- Where a call of `send_kv_chunk` stops: all but the last at a slot boundary, which may lie
before the tokens already sent. -/
def endIdx (extendEnd : Nat) (lastChunk : Bool) : Int :=
  let endIdx : Int := min extendEnd c.transferInputLen
  if lastChunk then endIdx
  else c.base + (endIdx - endIdx % c.pageSize - c.base) / c.gridTokens * c.gridTokens

def sendKvChunk (s : Sender) (extendEnd : Nat) (lastChunk : Bool) : Sender :=
  let endIdx := c.endIdx extendEnd lastChunk
  if endIdx < s.startSendIdx then s
  else
    { (computeGridSegments s.startSendIdx endIdx c.base c.gridTokens).foldl
        (c.sendSegment lastChunk endIdx) s with startSendIdx := endIdx }

/-- The calls for one request: some while it is prefilled, and the last one. -/
def sendAll (extendEnds : List Nat) (lastEnd : Nat) : Sender :=
  c.sendKvChunk (extendEnds.foldl (c.sendKvChunk · · false) { startSendIdx := c.base }) lastEnd true

/-- Where slot `k` of the grid begins. -/
def bound (k : Nat) : Int := c.base + k * c.gridTokens

/-- The segments tile what decode does not hold, one inside each slot, in order. -/
structure Tiles (sent : List Send) : Prop where
  slots : sent.map Send.chunkIdx = range c.numChunks
  ordered : sent.Pairwise fun g g' => g.segEnd ≤ g'.segStart
  covers : ∀ i : Int, (∃ g ∈ sent, g.segStart ≤ i ∧ i < g.segEnd) ↔
    c.base ≤ i ∧ i < c.transferInputLen
  inside : ∀ g ∈ sent, c.bound g.chunkIdx ≤ g.segStart ∧ g.segEnd ≤ c.bound (g.chunkIdx + 1)

/-- What slot `k` receives. -/
def slot (k : Nat) : Send := ⟨k, c.bound k, min (c.bound (k + 1)) c.transferInputLen⟩

variable {c} {stop i : Int} {k m fuel lastEnd j extendEnd : Nat} {s : Sender} (lastChunk : Bool)

lemma gridTokens_eq : 0 < c.fullChunkPages ∧ c.gridTokens = c.fullChunkPages * c.pageSize := by
  have whole : c.fullChunkPages = _ := Nat.mul_div_cancel _ c.pageSize_pos
  rw [whole]
  exact ⟨by omega, rfl⟩

lemma gridTokens_pos : 0 < c.gridTokens := by
  rw [gridTokens_eq.2]
  exact Nat.mul_pos gridTokens_eq.1 c.pageSize_pos

lemma bound_succ : c.bound (k + 1) = c.bound k + c.gridTokens := by
  unfold bound
  push_cast
  ring

lemma bound_le (le : j ≤ k) : c.bound j ≤ c.bound k :=
  Int.add_le_add_left
    (Int.mul_le_mul_of_nonneg_right (Int.ofNat_le.mpr le) (Int.natCast_nonneg _)) _

lemma numChunks_le_iff : c.numChunks ≤ k ↔ c.transferInputLen ≤ c.bound k := by
  rw [numChunks, pagesFor_le_iff gridTokens_eq.1, pagesFor_le_iff c.pageSize_pos, mul_assoc,
    ← gridTokens_eq.2, bound]
  omega

/-- A sender that has filled the first `m` slots, and with them sent the tokens before `i`. -/
structure Filled (c : Transfer) (m : Nat) (i : Int) (s : Sender) : Prop where
  staged : s.staged = (range m).map c.slot
  reached : (i = c.bound m ∧ s.currIdx = m * c.fullChunkPages ∧
      (m = 0 ∨ c.bound m ≤ c.transferInputLen)) ∨ i = c.transferInputLen ∧ c.numChunks = m

/-- Where a call may stop: at the end of the prompt or of a slot. -/
structure Stops (c : Transfer) (stop : Int) : Prop where
  within : stop ≤ c.transferInputLen
  grid : stop = c.transferInputLen ∨ (c.gridTokens : Int) ∣ stop - c.base

section

variable (filled : c.Filled m i s)
include filled

lemma Filled.at_bound (more : i < c.transferInputLen) :
    i = c.bound m ∧ s.currIdx = m * c.fullChunkPages := by
  obtain ⟨here, counted, -⟩ := filled.reached.resolve_right fun done => more.ne done.1
  exact ⟨here, counted⟩

/-- Once the prompt is sent all slots are filled. -/
lemma Filled.all (sent : c.transferInputLen ≤ i) : c.numChunks = m := by
  obtain ⟨rfl, -, within⟩ | ⟨-, done⟩ := filled.reached
  · refine (numChunks_le_iff.mpr sent).antisymm (not_lt.mp fun fewer => ?_)
    have reach := (numChunks_le_iff (c := c)).mp le_rfl
    have next := bound_succ (c := c) (k := c.numChunks)
    have later := bound_le (c := c) (Nat.add_one_le_of_lt fewer)
    have pos := gridTokens_pos (c := c)
    omega
  · exact done

omit filled in
lemma Stops.le_or_eq (stops : c.Stops stop) (more : c.bound k < stop) :
    c.bound (k + 1) ≤ stop ∨ stop = c.transferInputLen := by
  obtain done | whole := stops.grid
  · exact .inr done
  · have ahead : (c.gridTokens : Int) ∣ stop - c.bound k := by
      rw [bound, ← sub_sub]
      exact Int.dvd_sub whole (Dvd.intro_left _ rfl)
    have := Int.le_of_dvd (sub_pos.mpr more) ahead
    rw [bound_succ]
    omega

omit filled in
lemma staged_append (s : Sender) (n : Nat) (g : Send) :
    Sender.staged ⟨s.startSendIdx, n, s.sends ++ [g]⟩ =
      s.staged ++ if g.segStart < g.segEnd then [g] else [] := by
  rw [Sender.staged, filter_append, filter_singleton]
  simp [Sender.staged]

/-- A segment of a call fills the slot that its first page counts to. -/
lemma Filled.sendSegment (stops : c.Stops stop) (more : i < stop) :
    c.Filled (m + 1) (min (c.bound (m + 1)) stop)
      (c.sendSegment lastChunk stop s (i, min (c.bound (m + 1)) stop)) := by
  obtain ⟨rfl, counted⟩ := filled.at_bound (more.trans_le stops.within)
  have next := bound_succ (c := c) (k := m)
  have pos := gridTokens_pos (c := c)
  have within := stops.within
  have nonempty : c.bound m < min (c.bound (m + 1)) stop := by omega
  have tokens : 0 < pagesFor c.pageSize (min (c.bound (m + 1)) stop - c.bound m).toNat := by
    rw [Nat.pos_iff_ne_zero, Ne, pagesFor_eq_zero_iff c.pageSize_pos]
    omega
  have whole := stops.le_or_eq more
  dsimp only [Transfer.sendSegment]
  rw [if_pos (.inl tokens), counted, Nat.mul_div_cancel _ gridTokens_eq.1]
  constructor
  · have same : min (c.bound (m + 1)) stop = min (c.bound (m + 1)) c.transferInputLen := by omega
    rw [staged_append, if_pos nonempty, filled.staged, same, range_succ, map_append]
    rfl
  · by_cases full : c.bound (m + 1) ≤ stop
    · have width : (min (c.bound (m + 1)) stop - c.bound m).toNat = c.fullChunkPages * c.pageSize := by
        rw [← gridTokens_eq.2]
        omega
      rw [width, pagesFor_mul c.pageSize_pos, add_mul, one_mul]
      exact .inl ⟨min_eq_left full, rfl, .inr (full.trans within)⟩
    · obtain rfl := whole.resolve_left full
      refine .inr ⟨min_eq_right (not_le.mp full).le, (numChunks_le_iff.mpr (not_le.mp full).le).antisymm ?_⟩
      exact not_le.mp (numChunks_le_iff.not.mpr (not_le.mpr more))

lemma Filled.sendEmpty (stop j : Int) : c.Filled m i (c.sendSegment lastChunk stop s (j, j)) := by
  have noPages : pagesFor c.pageSize (j - j).toNat = 0 := by
    rw [pagesFor_eq_zero_iff c.pageSize_pos, sub_self]
    rfl
  dsimp only [Transfer.sendSegment]
  rw [noPages]
  split
  · refine ⟨?_, filled.reached⟩
    rw [staged_append, if_neg (lt_irrefl j), append_nil, filled.staged]
  · exact filled

lemma Filled.gridLoop (stops : c.Stops stop) (upTo : i ≤ stop)
    (enough : (stop - i).toNat ≤ fuel) : ∃ n, c.Filled n stop
      ((gridLoop c.base c.gridTokens stop fuel i).foldl (c.sendSegment lastChunk stop) s) := by
  induction fuel generalizing m i s with
  | zero =>
    obtain rfl : i = stop := by omega
    exact ⟨m, filled⟩
  | succ fuel ih =>
    unfold Disagg.gridLoop
    split
    · rename_i more
      obtain ⟨here, -⟩ := filled.at_bound (more.trans_le stops.within)
      have pos := gridTokens_pos (c := c)
      have next := bound_succ (c := c) (k := m)
      have boundary : c.base + ((i - c.base) / c.gridTokens + 1) * c.gridTokens = c.bound (m + 1) := by
        rw [here, bound, add_sub_cancel_left, Int.mul_ediv_cancel _ (by omega), bound]
        push_cast
        rfl
      simp only [boundary, foldl_cons]
      exact ih (filled.sendSegment lastChunk stops more) (min_le_right _ _) (by omega)
    · obtain rfl : i = stop := by omega
      exact ⟨m, filled⟩

lemma Filled.segments (stops : c.Stops stop) (upTo : i ≤ stop) :
    ∃ n, c.Filled n stop ((computeGridSegments i stop c.base c.gridTokens).foldl
      (c.sendSegment lastChunk stop) s) := by
  obtain rfl | more := upTo.eq_or_lt
  · have one : computeGridSegments i i c.base c.gridTokens = [(i, i)] := by
      simp [computeGridSegments, Disagg.gridLoop]
    rw [one]
    exact ⟨m, filled.sendEmpty lastChunk i i⟩
  · obtain ⟨fuel, eq⟩ : ∃ f, (stop - i).toNat = f + 1 := ⟨(stop - i).toNat - 1, by omega⟩
    have loop := filled.gridLoop lastChunk stops upTo eq.le
    rw [computeGridSegments, eq]
    rw [Disagg.gridLoop, if_pos more] at loop ⊢
    exact loop

end

lemma endIdx_last (finished : c.transferInputLen ≤ lastEnd) :
    c.endIdx lastEnd true = c.transferInputLen :=
  min_eq_right (by omega)

lemma stops_endIdx (extendEnd : Nat) : c.Stops (c.endIdx extendEnd false) := by
  have pos := gridTokens_pos (c := c)
  have page := c.pageSize_pos
  constructor
  · unfold endIdx
    generalize upTo : min (extendEnd : Int) c.transferInputLen = n
    have le := Int.ediv_mul_le (n - n % c.pageSize - c.base) (b := c.gridTokens) (by omega)
    have cut := Int.emod_nonneg n (b := c.pageSize) (by omega)
    simp
    omega
  · exact .inr (Dvd.intro_left _ (add_sub_cancel_left ..).symm)

/-- **One call.** -/
lemma Filled.sendKvChunk (filled : c.Filled m s.startSendIdx s)
    (stops : c.Stops (c.endIdx extendEnd lastChunk)) :
    ∃ n, c.Filled n (c.sendKvChunk s extendEnd lastChunk).startSendIdx
      (c.sendKvChunk s extendEnd lastChunk) := by
  dsimp only [Transfer.sendKvChunk]
  split
  · exact ⟨m, filled⟩
  · rename_i ahead
    obtain ⟨n, sent⟩ := filled.segments lastChunk stops (not_lt.mp ahead)
    exact ⟨n, sent.staged, sent.reached⟩

lemma endIdx_le (s : Sender) (extendEnd : Nat) :
    c.endIdx extendEnd lastChunk ≤ (c.sendKvChunk s extendEnd lastChunk).startSendIdx := by
  dsimp only [sendKvChunk]
  split
  · omega
  · exact le_rfl

lemma staged_sendAll (extendEnds : List Nat) (finished : c.transferInputLen ≤ lastEnd) :
    (c.sendAll extendEnds lastEnd).staged = (range c.numChunks).map c.slot := by
  have last := endIdx_last finished
  obtain ⟨m, filled⟩ : ∃ m, c.Filled m _
      (extendEnds.foldl (c.sendKvChunk · · false) { startSendIdx := c.base }) := by
    apply foldlRecOn (motive := fun s => ∃ m, c.Filled m s.startSendIdx s) extendEnds _
    · exact ⟨0, rfl, .inl ⟨by simp [bound], by simp, .inl rfl⟩⟩
    · rintro s ⟨m, filled⟩ extendEnd -
      exact filled.sendKvChunk false (stops_endIdx extendEnd)
  obtain ⟨n, sent⟩ := filled.sendKvChunk true ⟨last.le, .inl last⟩
  rw [sent.all (last.ge.trans (endIdx_le true _ lastEnd))]
  exact sent.staged

lemma tiles_slots : c.Tiles ((range c.numChunks).map c.slot) where
  slots := by
    rw [map_map]
    exact map_id _
  ordered := pairwise_map.mpr (pairwise_lt_range.imp fun lt =>
    (min_le_left _ _).trans (bound_le lt))
  covers i := by
    have pos := gridTokens_pos (c := c)
    constructor
    · rintro ⟨_, mem, le, lt⟩
      obtain ⟨k, -, rfl⟩ := mem_map.mp mem
      have base : c.base ≤ c.bound k := Int.le_add_of_nonneg_right (by positivity)
      exact ⟨base.trans le, lt.trans_le (min_le_right _ _)⟩
    · rintro ⟨le, lt⟩
      obtain ⟨k, eq⟩ := Int.eq_ofNat_of_zero_le
        (Int.ediv_nonneg (sub_nonneg.mpr le) (Int.natCast_nonneg c.gridTokens))
      have low := Int.ediv_mul_le (i - c.base) (b := c.gridTokens) (by omega)
      have high := Int.lt_ediv_add_one_mul_self (i - c.base) (b := c.gridTokens) (by omega)
      rw [eq] at low high
      have inside : c.bound k ≤ i ∧ i < c.bound (k + 1) := by
        unfold bound
        push_cast
        omega
      refine ⟨_, mem_map_of_mem (mem_range.mpr (not_le.mp fun done => ?_)), inside.1,
        lt_min inside.2 lt⟩
      have := numChunks_le_iff.mp done
      omega
  inside := by
    intro g mem
    obtain ⟨k, -, rfl⟩ := mem_map.mp mem
    exact ⟨le_rfl, min_le_left _ _⟩

end Transfer

/-- **Staged sends hit each slot once.** Whatever ends prefill reports before the last call of each
writer, that one's among them, a writer's segments with tokens tile what decode does not hold, one
for each prefetched slot, so that every slot sees as many arrivals as there are writers. -/
theorem staged_sends_tile (c : Transfer) (writers : List (List Nat × Nat))
    (finished : ∀ w ∈ writers, c.transferInputLen ≤ w.2) :
    (∀ w ∈ writers, c.Tiles (c.sendAll w.1 w.2).staged) ∧
      ∀ k < c.numChunks, (writers.flatMap fun w =>
        (c.sendAll w.1 w.2).staged.map Send.chunkIdx).count k = writers.length := by
  have tiles : ∀ w ∈ writers, c.Tiles (c.sendAll w.1 w.2).staged := fun w mem =>
    Transfer.staged_sendAll w.1 (finished w mem) ▸ Transfer.tiles_slots
  refine ⟨tiles, fun k lt => ?_⟩
  clear finished
  induction writers with
  | nil => rfl
  | cons w writers ih =>
    rw [forall_mem_cons] at tiles
    rw [flatMap_cons, count_append, ih tiles.2, tiles.1.slots,
      count_eq_one_of_mem nodup_range (mem_range.mpr lt), length_cons, add_comm]

/-- Two writers with other chunks of a prompt of eleven tokens, two of them held by decode. -/
theorem staged_sends_tile_two_writers :
    (⟨2, some 4, 11, 2, by decide⟩ : Transfer).numChunks = 3 ∧
      ([([5, 9], 11), ([], 11)].flatMap fun w =>
        ((⟨2, some 4, 11, 2, by decide⟩ : Transfer).sendAll w.1 w.2).staged.map
          Send.chunkIdx).count 1 = 2 :=
  ⟨by decide, (staged_sends_tile _ [([5, 9], 11), ([], 11)] (by decide)).2 1 (by decide)⟩

end Sglang.Disagg
