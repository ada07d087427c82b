/-
# The KV indexer: its in-memory backend

The indexer keeps, for every block hash that workers report, who holds it on which tier with
which components, and how blocks follow each other in prompts. A prefix query asks each worker
how many leading blocks of a prompt it can serve.

* `WorkerPrefixScanner` — the written definition of an answer: scan the placement of every block.
* `State.apply` — reports, revocations and clears, which also maintain for each block the
  workers that can serve the whole way from the root to it. A request may name an action type
  that is not supported.

Where the code iterates over a hash container, the order is that of `pick`, an argument.
-/

import Mathlib.Data.List.Dedup
import Mathlib.Data.List.Sort
import Mathlib.Data.Nat.Bitwise
import Sglang.Lib.Table

namespace Sglang.Indexer

open Sglang.Lib

/-! ### Tiers, components and what a worker's cache needs -/

inductive Tier
  | hbm
  | dram
  | ssd
deriving DecidableEq, Repr

/-- The number of a tier, which is its bit in a mask. -/
def Tier.bit : Tier → Nat
  | .hbm => 1
  | .dram => 2
  | .ssd => 3

inductive Component
  | full
  | swa
  | mamba
deriving DecidableEq, Repr

def Component.bit : Component → Nat
  | .full => 0
  | .swa => 1
  | .mamba => 2

/-- `COMPONENT_FULL` as a mask. -/
def componentFull : Nat := 2 ^ Component.full.bit

/-- `SERVABLE_TIER_MASK`: HBM and DRAM. -/
def servableTierMask : Nat := 2 ^ Tier.hbm.bit ||| 2 ^ Tier.dram.bit

def supportedSpecVersion : Nat := 1

structure WorkerCacheSpec where
  version : Nat
  components : Nat
  swaWindowTokens : Nat
  fullTierMask : Nat
  swaTierMask : Nat
  mambaTierMask : Nat
deriving DecidableEq, Repr

def tierInMask (mask : Nat) (tier : Tier) : Bool := mask.testBit tier.bit

/-- One block at one worker: its size and, per tier that holds it, the resident components
(`0` for a block held without detail). -/
structure BlockComponents where
  tokenCount : Nat
  tierMasks : List (Tier × Nat)

/-- `component_available`. -/
def componentAvailable (block : Option BlockComponents) (component : Component)
    (specTierMask : Nat) : Bool :=
  block.any fun b => b.tierMasks.any fun (tier, mask) =>
    mask.testBit component.bit && tierInMask servableTierMask tier && tierInMask specTierMask tier

/-! ### The scanner -/

inductive PrefixScanState
  | legacy (prefixLen : Nat) (contiguous sawComponents : Bool)
  | invalid
  | componentAware (active : Bool) (best : Nat) (spec : WorkerCacheSpec) (swaRun : Nat)
      (swaHeadBroken : Bool)

structure WorkerPrefixScanner where
  processed : Nat
  state : PrefixScanState

namespace WorkerPrefixScanner

def new (spec : Option WorkerCacheSpec) : WorkerPrefixScanner where
  processed := 0
  state :=
    match spec with
    | none => .legacy 0 true false
    | some spec =>
      if spec.components = 0 ∨ supportedSpecVersion < spec.version then .invalid
      else if spec.components.testBit Component.swa.bit ∧ spec.swaWindowTokens = 0 then .invalid
      else .componentAware true 0 spec 0 false

/-- The SWA rule at a block: the run of tokens that ends there, whether the run no longer
reaches the head, and whether the prefix may end there. -/
def swaRule (spec : WorkerCacheSpec) (block : Option BlockComponents) (swaRun : Nat)
    (swaHeadBroken : Bool) : Nat × Bool × Bool :=
  if spec.components.testBit Component.swa.bit then
    if componentAvailable block .swa spec.swaTierMask then
      let run := swaRun + (block.map BlockComponents.tokenCount).getD 0
      (run, swaHeadBroken, !swaHeadBroken || decide (spec.swaWindowTokens ≤ run))
    else (0, true, false)
  else (swaRun, swaHeadBroken, true)

def push (s : WorkerPrefixScanner) (block : Option BlockComponents) : WorkerPrefixScanner :=
  let processed := s.processed + 1
  match s.state with
  | .legacy prefixLen contiguous sawComponents =>
    -- a mask on any later block still fails the whole result closed
    let saw := sawComponents || block.any fun b => b.tierMasks.any fun (_, mask) => mask != 0
    ⟨processed, .legacy (if contiguous && block.isSome then processed else prefixLen)
      (contiguous && block.isSome) saw⟩
  | .invalid => ⟨processed, .invalid⟩
  | .componentAware active best spec swaRun swaHeadBroken =>
    if !active then ⟨processed, s.state⟩
    else if !componentAvailable block .full spec.fullTierMask then
      ⟨processed, .componentAware false best spec swaRun swaHeadBroken⟩
    else
      let (run, broken, swaOk) := swaRule spec block swaRun swaHeadBroken
      let mambaOk := !spec.components.testBit Component.mamba.bit ||
        componentAvailable block .mamba spec.mambaTierMask
      ⟨processed, .componentAware true (if swaOk && mambaOk then processed else best) spec run
        broken⟩

/-- The answer of the blocks pushed so far. -/
def prefixLen (s : WorkerPrefixScanner) : Nat :=
  match s.state with
  | .legacy prefixLen _ sawComponents => if sawComponents then 0 else prefixLen
  | .invalid => 0
  | .componentAware _ best .. => best

end WorkerPrefixScanner

/-- `compute_worker_prefix`. -/
def computeWorkerPrefix (spec : Option WorkerCacheSpec) (blocks : List (Option BlockComponents)) :
    Nat :=
  (blocks.foldl WorkerPrefixScanner.push (.new spec)).prefixLen

/-! ### The state -/

inductive ParentLink (η : Type)
  | unknown
  | root
  | hash (parent : η)
deriving DecidableEq, Repr

structure Block (ω η : Type) where
  parent : ParentLink η := .unknown
  children : List η := []
  tokenCount : Nat := 0
  /-- The resident components of each worker and tier. -/
  placements : Table (ω × Tier) Nat := ∅
  /-- The workers that can serve the whole way from the root to this block. -/
  prefixCompleteWorkers : List ω := []

instance {ω η : Type} : Inhabited (Block ω η) := ⟨{}⟩

structure WorkerRecord (η : Type) where
  address : String := ""
  spec : Option WorkerCacheSpec := none
  /-- What the worker holds, by tier. -/
  holdings : List (Tier × η) := []
  /-- How many of its placements carry components. -/
  componentPlacementCount : Nat := 0

instance {η : Type} : Inhabited (WorkerRecord η) := ⟨{}⟩

structure State (ω η : Type) where
  blocks : Table η (Block ω η) := ∅
  workers : Table ω (WorkerRecord η) := ∅
  hitCounts : Table η Nat := ∅

inductive FastPathKind
  | legacy
  | fullOnly (tierMask : Nat)
deriving DecidableEq, Repr

def fastPathKind {η : Type} (worker : WorkerRecord η) : Option FastPathKind :=
  match worker.spec with
  | none => if worker.componentPlacementCount = 0 then some .legacy else none
  | some spec =>
    if spec.version ≤ 1 ∧ spec.components = componentFull then some (.fullOnly spec.fullTierMask)
    else none

/-- One change a worker announces, or an action of a type that is not supported. -/
inductive Action (η : Type)
  | report (tier : Tier) (parentBlockHash : Option η) (hashes : List η)
      (componentMasks blockSizes : List Nat)
  | revoke (tier : Tier) (hashes : List η)
  | clearAllAtTier (tier : Tier)
  | unsupported

structure ApplyRequest (ω η : Type) where
  workerId : ω
  workerAddress : String
  cacheSpec : Option WorkerCacheSpec
  actions : List (Action η)

namespace State

variable {ω η : Type} [DecidableEq ω] [DecidableEq η]

variable (s : State ω η) (w : ω) (hash : η)

/-- The record of a block; an unknown one has nothing in it. -/
def block : Block ω η := (s.blocks.lookup hash).getD default

def worker : WorkerRecord η := (s.workers.lookup w).getD default

def kindOf : Option FastPathKind := (s.workers.lookup w).bind fastPathKind

def updateBlock (f : Block ω η → Block ω η) : State ω η :=
  { s with blocks := s.blocks.update hash f }

def updateWorker (f : WorkerRecord η → WorkerRecord η) : State ω η :=
  { s with workers := s.workers.update w f }

/-- `block_servable`. -/
def blockServable (w : ω) : FastPathKind → Bool
  | .legacy => (s.workers.lookup w).any fun r => r.holdings.any fun (_, held) => decide (held = hash)
  | .fullOnly tierMask => (s.blocks.lookup hash).any fun b =>
    b.placements.entries.any fun ⟨(holder, tier), mask⟩ =>
      decide (holder = w) && mask.testBit Component.full.bit &&
        tierInMask (servableTierMask &&& tierMask) tier

/-! ### Validating a batch -/

/-- The parent a block will have: as planned by the batch so far, or as it is. -/
def plannedParent (planned : Table η (ParentLink η)) (hash : η) : ParentLink η :=
  (planned.lookup hash).getD (s.block hash).parent

/-- `validate_report_chain`: the plans with the chain, or `none` for a rejection. -/
def validateReportChain (s : State ω η) :
    Table η (ParentLink η) → ParentLink η → List η → Option (Table η (ParentLink η))
  | planned, _, [] => some planned
  | planned, parent, hash :: rest =>
    if parent = .hash hash then none
    else if s.plannedParent planned hash ≠ .unknown ∧ s.plannedParent planned hash ≠ parent then none
    else validateReportChain s (planned.insert hash parent) (.hash hash) rest

/-- A report without a parent starts at the root. -/
def reportParent (parentBlockHash : Option η) : ParentLink η :=
  parentBlockHash.elim .root .hash

/-- The plans of a whole batch. -/
def planActions (s : State ω η) :
    Table η (ParentLink η) → List (Action η) → Option (Table η (ParentLink η))
  | planned, [] => some planned
  | _, .unsupported :: _ => none
  | planned, .report _ parentBlockHash hashes _ _ :: rest =>
    (s.validateReportChain planned (reportParent parentBlockHash) hashes).bind fun planned =>
      planActions s planned rest
  | planned, _ :: rest => planActions s planned rest

/-- One walk of `validate_parent_graph_acyclic` up from a block: the blocks met before the walk
ends or joins the `complete` ones, or `none` for a cycle. -/
def walkUp (parent : η → ParentLink η) (complete : List η) : Nat → List η → η → Option (List η)
  | 0, _, _ => none
  | fuel + 1, path, current =>
    if current ∈ complete then some path
    else if current ∈ path then none
    else
      match parent current with
      | .hash up => walkUp parent complete fuel (current :: path) up
      | _ => some (current :: path)

/-- `validate_parent_graph_acyclic`. A walk meets each known block at most once, and at most
one unknown one. -/
def validateParentGraphAcyclic (planned : Table η (ParentLink η)) : Bool :=
  let fuel := planned.keys.length + s.blocks.keys.length + 2
  (planned.keys.foldlM (fun complete start =>
    (walkUp (s.plannedParent planned) complete fuel [] start).map (· ++ complete)) []).isSome

/-- `validate_actions`. -/
def validateActions (actions : List (Action η)) : Bool :=
  (s.planActions ∅ actions).any s.validateParentGraphAcyclic

/-! ### Applying a batch -/

/-- One step of `apply_report_chain`: a block below its parent. -/
def linkBlock (parent : ParentLink η) (hash : η) : State ω η :=
  let linked :=
    match parent with
    | .hash up => s.updateBlock up fun b => { b with children := b.children.insert hash }
    | _ => s
  linked.updateBlock hash fun b => { b with parent := parent }

/-- `apply_report_chain`. -/
def applyReportChain : State ω η → ParentLink η → List η → State ω η
  | s, _, [] => s
  | s, parent, hash :: rest => applyReportChain (s.linkBlock parent hash) (.hash hash) rest

/-- A count of component placements after one mask replaces another. -/
def adjustedCount (oldMask newMask : Option Nat) (count : Nat) : Nat :=
  let count := if oldMask.any (· != 0) then count - 1 else count
  if newMask.any (· != 0) then count + 1 else count

/-- `adjust_component_placement_count`. -/
def adjustComponentPlacementCount (oldMask newMask : Option Nat) : State ω η :=
  s.updateWorker w fun r =>
    { r with componentPlacementCount := adjustedCount oldMask newMask r.componentPlacementCount }

/-- One block of a report is placed. -/
def place (tier : Tier) (s : State ω η) (hash : η) (mask tokenCount : Nat) : State ω η :=
  let oldMask := (s.block hash).placements.lookup (w, tier)
  let placed := s.updateBlock hash fun b => { b with placements := b.placements.insert (w, tier) mask }
  let counted := placed.adjustComponentPlacementCount w oldMask (some mask)
  -- a report without a size must not erase a known one
  let sized := if 0 < tokenCount then
      counted.updateBlock hash fun b => { b with tokenCount := tokenCount }
    else counted
  sized.updateWorker w fun r => { r with holdings := r.holdings.insert (tier, hash) }

/-- The placements of a report; its masks and sizes are missing or one per hash. -/
def placeAll (w : ω) (tier : Tier) : State ω η → List η → List Nat → List Nat → State ω η
  | s, [], _, _ => s
  | s, hash :: rest, masks, sizes =>
    placeAll w tier (place w tier s hash (masks.headD 0) (sizes.headD 0)) rest masks.tail sizes.tail

/-- `revoke_one`. A block that nobody holds loses its hit counter. -/
def revokeOne (tier : Tier) (s : State ω η) (hash : η) : State ω η :=
  let removedMask := (s.block hash).placements.lookup (w, tier)
  let removed := { s with blocks := s.blocks.modify hash fun b =>
    { b with placements := b.placements.erase (w, tier) } }
  let counted := removed.adjustComponentPlacementCount w removedMask none
  { counted with
    workers := counted.workers.modify w fun r =>
      { r with holdings := r.holdings.filter fun held => decide (held ≠ (tier, hash)) }
    hitCounts := if (counted.blocks.lookup hash).any fun b => b.placements.entries.isEmpty then
        counted.hitCounts.erase hash
      else counted.hitCounts }

/-- What the actions of a batch leave for its end. -/
structure Pass (ω η : Type) where
  state : State ω η
  dirtyRoots : List η := []
  reportedChains : List (List η) := []
  revokedHashes : List η := []
  /-- No action has made the loop return. -/
  ended : Bool := true

/-- Revoke some hashes and note them. -/
def revokeAll (tier : Tier) (pass : Pass ω η) (hashes : List η) : Pass ω η :=
  { pass with
    state := hashes.foldl (revokeOne w tier) pass.state
    dirtyRoots := pass.dirtyRoots ++ hashes
    revokedHashes := pass.revokedHashes ++ hashes }

/-- The blocks a worker holds on a tier. -/
def heldAt (tier : Tier) : List η :=
  ((s.worker w).holdings.filter fun (t, _) => decide (t = tier)).map Prod.snd

def applyAction (pick : List η → List η) (w : ω) (pass : Pass ω η) : Action η → Pass ω η
  | .report tier parentBlockHash hashes componentMasks blockSizes =>
    let linked := pass.state.applyReportChain (reportParent parentBlockHash) hashes
    { pass with
      state := placeAll w tier linked hashes componentMasks blockSizes
      reportedChains := if hashes.isEmpty then pass.reportedChains
        else pass.reportedChains ++ [hashes] }
  | .revoke tier hashes => revokeAll w tier pass hashes
  | .clearAllAtTier tier => revokeAll w tier pass (pick (pass.state.heldAt w tier))
  | .unsupported => { pass with ended := false }

/-- The loop of `apply` over its actions. -/
def runActions (pick : List η → List η) (w : ω) : Pass ω η → List (Action η) → Pass ω η
  | pass, [] => pass
  | pass, action :: rest =>
    let pass := applyAction pick w pass action
    if pass.ended then runActions pick w pass rest else pass

/-- The worker can serve the way to the block's parent. -/
def parentComplete : Bool :=
  match (s.block hash).parent with
  | .unknown => false
  | .root => true
  | .hash up => decide (w ∈ (s.block up).prefixCompleteWorkers)

/-- Record whether the worker can serve the way to a block that is there. -/
def setComplete (complete : Bool) : State ω η :=
  { s with blocks := s.blocks.modify hash fun b =>
    { b with prefixCompleteWorkers :=
        if complete then b.prefixCompleteWorkers.insert w
        else b.prefixCompleteWorkers.filter fun v => decide (v ≠ w) } }

/-- The loop of `recompute_worker_subtrees`: breadth first, each block once. -/
def recomputeLoop (pick : List η → List η) (kind : Option FastPathKind) (w : ω) :
    Nat → State ω η → List η → List η → State ω η
  | 0, s, _, _ => s
  | _, s, [], _ => s
  | fuel + 1, s, hash :: queue, visited =>
    if hash ∈ visited then recomputeLoop pick kind w fuel s queue visited
    else
      (s.blocks.lookup hash).elim
        (recomputeLoop pick kind w fuel s queue (hash :: visited)) fun b =>
          let complete := kind.any fun kind => s.parentComplete w hash && s.blockServable hash w kind
          recomputeLoop pick kind w fuel (s.setComplete w hash complete) (queue ++ pick b.children)
            (hash :: visited)

/-- A bound on the length of that loop: every block is taken in once, with its children. -/
def recomputeFuel (roots : List η) : Nat :=
  roots.length + (s.blocks.keys.map fun hash => (s.block hash).children.length).sum

/-- `recompute_worker_subtrees`. -/
def recomputeWorkerSubtrees (pick : List η → List η) (s : State ω η) (w : ω) (roots : List η) :
    State ω η :=
  recomputeLoop pick (s.kindOf w) w (s.recomputeFuel roots) s roots []

/-- `external_children_held_by_worker`. -/
def externalChildrenHeldByWorker (pick : List η → List η) (s : State ω η) (w : ω)
    (reportedHashes : List η) (parent : η) : List η :=
  (pick (s.block parent).children).filter fun child =>
    decide (child ∉ reportedHashes) &&
      (s.block child).placements.keys.any fun (holder, _) => decide (holder = w)

/-- The loop of `refresh_linear_report_chain_prefix_completeness`. -/
def refreshLoop (pick : List η → List η) (kind : Option FastPathKind) (w : ω)
    (reportedHashes : List η) : State ω η → Bool → List η → State ω η × List η
  | s, _, [] => (s, [])
  | s, above, hash :: rest =>
    let wasComplete := decide (w ∈ (s.block hash).prefixCompleteWorkers)
    let complete := kind.any fun kind => above && s.blockServable hash w kind
    let dirty := if wasComplete != complete then
        s.externalChildrenHeldByWorker pick w reportedHashes hash
      else []
    if (s.blocks.lookup hash).isSome then
      let (refreshed, later) :=
        refreshLoop pick kind w reportedHashes (s.setComplete w hash complete) complete rest
      (refreshed, dirty ++ later)
    else
      let (refreshed, later) := refreshLoop pick kind w reportedHashes s above rest
      (refreshed, dirty ++ later)

/-- `refresh_linear_report_chain_prefix_completeness`: the state and the blocks that hang on the
chain and are now dirty. -/
def refreshLinearReportChain (pick : List η → List η) (w : ω) (s : State ω η) (hashes : List η) :
    State ω η × List η :=
  let above := hashes.head?.any fun hash => (s.blocks.lookup hash).isSome && s.parentComplete w hash
  refreshLoop pick (s.kindOf w) w hashes s above hashes

/-- The refreshes of all reported chains, in order. -/
def refreshAll (pick : List η → List η) (w : ω) (s : State ω η) (dirtyRoots : List η) :
    List (List η) → State ω η × List η
  | [] => (s, dirtyRoots)
  | hashes :: chains =>
    let (refreshed, dirty) := s.refreshLinearReportChain pick w hashes
    refreshAll pick w refreshed (dirtyRoots ++ dirty) chains

/-- The worker is in no set of complete workers. -/
def forgetComplete : State ω η :=
  { s with blocks := s.blocks.mapValues fun b =>
    { b with prefixCompleteWorkers := b.prefixCompleteWorkers.filter fun v => decide (v ≠ w) } }

/-- The blocks that start a prompt. -/
def graphRoots : List η :=
  s.blocks.keys.filter fun hash => decide ((s.block hash).parent = .root)

/-- `prune_empty_leaf`: a block with nothing left in it goes, and so may its parent. -/
def pruneEmptyLeaf : Nat → State ω η → η → State ω η
  | 0, s, _ => s
  | fuel + 1, s, hash =>
    (s.blocks.lookup hash).elim s fun b =>
      if b.placements.entries.isEmpty && b.children.isEmpty && b.prefixCompleteWorkers.isEmpty then
        let removed := { s with blocks := s.blocks.erase hash }
        match b.parent with
        | .hash up => pruneEmptyLeaf fuel
            { removed with blocks := removed.blocks.modify up fun p =>
              { p with children := p.children.filter fun child => decide (child ≠ hash) } } up
        | _ => removed
      else s

/-- The actions of a batch, after the worker's address and spec are noted. -/
def applyActions (pick : List η → List η) (s : State ω η) (req : ApplyRequest ω η) : Pass ω η :=
  let noted := s.updateWorker req.workerId fun r =>
    { r with address := req.workerAddress, spec := req.cacheSpec }
  runActions pick req.workerId { state := noted } req.actions

/-- The state before the subtrees are recomputed, and the blocks to start at. -/
def beforeRecompute (pick : List η → List η) (s : State ω η) (req : ApplyRequest ω η) :
    State ω η × List η :=
  let pass := s.applyActions pick req
  if s.kindOf req.workerId ≠ pass.state.kindOf req.workerId then
    (pass.state.forgetComplete req.workerId, pick (pass.state.forgetComplete req.workerId).graphRoots)
  else pass.state.refreshAll pick req.workerId pass.dirtyRoots pass.reportedChains

/-- The rest of `apply`: repair the sets of complete workers and prune. -/
def finish (pick : List η → List η) (s : State ω η) (req : ApplyRequest ω η) : State ω η :=
  let (refreshed, dirtyRoots) := s.beforeRecompute pick req
  (s.applyActions pick req).revokedHashes.foldl
    (fun s hash => s.pruneEmptyLeaf (s.blocks.keys.length + 1) hash)
    (refreshed.recomputeWorkerSubtrees pick req.workerId dirtyRoots)

/-- `apply`: the state after the call, and whether it returned without an error. -/
def apply (pick : List η → List η) (s : State ω η) (req : ApplyRequest ω η) : State ω η × Bool :=
  if s.validateActions req.actions then
    if (s.applyActions pick req).ended then (s.finish pick req, true)
    -- an error return here keeps what the actions before it did
    else ((s.applyActions pick req).state, false)
  else (s, false)

/-- `do_match` with `count_as_hit`, on the counters. -/
def countHits (s : State ω η) (hashes : List η) : State ω η :=
  { s with hitCounts := hashes.dedup.foldl (fun hitCounts hash =>
      if (s.block hash).placements.entries.isEmpty then hitCounts
      else hitCounts.update hash fun count => min (count + 1) (2 ^ 64 - 1)) s.hitCounts }

end State

end Sglang.Indexer
