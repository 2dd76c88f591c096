import LiveHD.Usyn.Archive
import LiveHD.Synth.SourceState
import LiveHD.Synth.Lnet

/-!
# The logical identity of a region

`serialize_logical_identity` of `pass/usyn/artifact.cpp`: the key under which a selection is kept.
Node numbers are written as the positions of their first uses.
-/

namespace LiveHD.Usyn

open Framing Synth

/-! ## The options -/

structure GateConstraints where
  logicalInputs : UInt32 := 8
  stack : UInt32 := 4
  branches : UInt32 := 10
deriving DecidableEq

structure EndpointCostModel where
  staticAnd : UInt32 := 2
  staticXor : UInt32 := 4
  staticNot : UInt32 := 1
  domino : UInt32 := 5
  dominoLatch : UInt32 := 8
deriving DecidableEq

/-- `Endpoint_options`, with its limits of functions and windows. -/
structure EndpointOptions where
  gates : GateConstraints := {}
  maxCubes : UInt32 := 4096
  maxFormulaNodes : UInt32 := 16384
  factoringChoices : UInt32 := 8
  windowInputs : UInt32 := 16
  windowNodes : UInt32 := 100000
  cost : EndpointCostModel := {}
  clockPhases : UInt32 := 2
  boundaries : UInt32 := 32
  divisorPartitions : UInt32 := 32
  carePhases : UInt32 := 16
  boundaryBytes : UInt64 := 8 * 1024 * 1024
  gateCacheEntries : UInt32 := 64
  gateCacheBytes : UInt64 := 8 * 1024 * 1024
  imageCacheEntries : UInt32 := 64
  imageCacheBytes : UInt64 := 8 * 1024 * 1024
  localDivisors : UInt32 := 32
  localCandidates : UInt32 := 64
  costNodes : UInt32 := 2000000
  candidateWork : UInt64 := 2000000
  tierWork : UInt64 := 8000000
  fastAccept : Bool := true
deriving DecidableEq

/-- `Residual_options`, as they are stored. -/
structure ResidualKnobs where
  andCost : UInt32 := 2
  xorCost : UInt32 := 4
  depthSlack : UInt32 := 0
  maxNodes : UInt32 := 2000000
  rewriteCuts : UInt32 := 8
  balanceDupLimit : UInt32 := 0
  sweepInputs : UInt32 := 16
  sweepTableWords : UInt64 := 1048576
  p1SweepInputs : UInt32 := 6
  muxBalanceMinArms : UInt32 := 3
  muxBalanceAreaPct : UInt32 := 25
  windows : UInt32 := 100000
  windowNodes : UInt32 := 256
  resubInputs : UInt32 := 8
  divisors : UInt32 := 32
  divisorScan : UInt32 := 128
  inserted : UInt32 := 2
  windowWork : UInt64 := 100000
  stageWork : UInt64 := 20000000
  zeroGain : Bool := true
  npn4 : Bool := false
  sweep : Bool := false
  balance : Bool := false
  muxBalance : Bool := false
  rewrite : Bool := true
  resubstitute : Bool := true
deriving DecidableEq

structure LogicalOptions where
  endpoint : EndpointOptions := {}
  residual : ResidualKnobs := {}
  maxNodes : UInt32 := 2000000
  endpointWork : UInt64 := 16000000
  pairCandidates : UInt32 := 32
  pairTrials : UInt32 := 64
  pairChoices : UInt32 := 4
  pairInputs : UInt32 := 16
  pairWork : UInt64 := 16000000
  preOptimize : Bool := false
  optimizeResidual : Bool := true
  feedback : Bool := true
deriving DecidableEq

def EndpointOptions.fields (e : EndpointOptions) : List Field :=
  [field e.gates.logicalInputs, field e.gates.stack, field e.gates.branches, field e.maxCubes,
    field e.maxFormulaNodes,
    field e.factoringChoices, field e.windowInputs, field e.windowNodes,
    field e.cost.staticAnd, field e.cost.staticXor,
    field e.cost.staticNot, field e.cost.domino, field e.cost.dominoLatch,
    field e.clockPhases, field e.boundaries,
    field e.divisorPartitions, field e.carePhases, field e.boundaryBytes,
    field e.gateCacheEntries, field e.gateCacheBytes,
    field e.imageCacheEntries, field e.imageCacheBytes, field e.localDivisors,
    field e.localCandidates, field e.costNodes,
    field e.candidateWork, field e.tierWork, field e.fastAccept]

def ResidualKnobs.fields (r : ResidualKnobs) : List Field :=
  [field r.andCost, field r.xorCost, field r.depthSlack, field r.maxNodes, field r.rewriteCuts,
    field r.balanceDupLimit,
    field r.sweepInputs, field r.sweepTableWords, field r.p1SweepInputs, field r.muxBalanceMinArms,
    field r.muxBalanceAreaPct,
    field r.windows, field r.windowNodes, field r.resubInputs, field r.divisors,
    field r.divisorScan, field r.inserted,
    field r.windowWork, field r.stageWork, field r.zeroGain, field r.npn4, field r.sweep,
    field r.balance, field r.muxBalance,
    field r.rewrite, field r.resubstitute]

def LogicalOptions.ownFields (o : LogicalOptions) : List Field :=
  [field o.maxNodes, field o.endpointWork, field o.pairCandidates, field o.pairTrials,
    field o.pairChoices, field o.pairInputs,
    field o.pairWork, field o.preOptimize, field o.optimizeResidual, field o.feedback]

/-! ## The snapshot -/

def stateScopeCode : StateScope → ℕ
  | .logic => 0 | .memory => 1 | .opaqueScope => 2

def stateRoleCode : StateRole → ℕ
  | .registerCandidate => 0 | .transparentLatch => 1 | .icg => 2 | .memory =>
    3 | .opaqueRole => 4 | .hierarchy => 5

def stateControlKindCode : StateControlKind → ℕ
  | .clock => 0 | .asyncReset => 1 | .initialValue => 2

variable {ν D S : Type} [DecidableEq ν] [ArtifactDlop D]
  (limits : ArtifactLimits) (sizeof : Element → ℕ)

namespace Writer

/-- `Canonical_nodes`: `ids` has the nodes seen so far. -/
def canonical (ids : List ν) (n : ν) : List ν × UInt32 :=
  if n ∈ ids then (ids, UInt32.ofNat (ids.idxOf n)) else (ids ++ [n], UInt32.ofNat ids.length)

def identitySignal (ids : List ν) (s : SourceSignal ν D) : WriterM (List ν) := do
  fields limits [field s.present, field s.constant]
  if s.present then do
    let ids ← if s.constant then pure ids else do
      scalar limits (canonical ids s.node).2
      scalar limits s.port
      pure (canonical ids s.node).1
    scalar limits s.bits
    value limits s.value
    pure ids
  else pure ids

end Writer

/-- The signals of a row, in the order they are written. -/
def rowSignals (row : SourceState ν D S) : List (SourceSignal ν D) :=
  [row.q, row.data, row.clock, row.clockRoot, row.enable, row.reset, row.initial]

namespace Writer

/-- A row, of index `st.2`.  Without barrier names the spelling of a row without `q` is empty. -/
def identityRow (barriers : List String) (st : List ν × ℕ)
    (row : SourceState ν D S) : WriterM (List ν × ℕ) := do
  scalar limits (canonical st.1 row.node).2
  string limits (chars (if row.q.present then row.name else barriers.getD st.2 ""))
  enumeration limits (stateRoleCode row.role) 5
  fields limits [field row.bits, field row.stages, field row.widthKnown]
  let ids ← (rowSignals row).foldlM (identitySignal limits) (canonical st.1 row.node).1
  fields limits [field row.negClock, field row.clockEdgeKnown, field row.negReset,
    field row.asyncReset, field row.powerOn,
    field row.icg, field row.translatedBits]
  pure (ids, st.2 + 1)

def identityClock (ids : List ν) (c : SourceClockGate ν D S) : WriterM (List ν) := do
  let ids ← [c.output, c.clock, c.enable].foldlM (identitySignal limits) ids
  scalar limits (canonical ids c.latchNode).2
  scalar limits c.parent
  string limits (chars c.name)
  pure (canonical ids c.latchNode).1

def identityBit (b : StateBit) : WriterM Unit := do
  fields limits [field b.source, field b.stage, field b.bit, field b.latch]
  string limits (chars b.name)
  fields limits [field b.q.node, field b.q.inverted, field b.d.node, field b.d.inverted]

def identityControl (c : StateControl) : WriterM Unit := do
  scalar limits c.source
  enumeration limits (stateControlKindCode c.kind) 2
  sequence limits sizeof .index c.outputs limits.nodes.toNat (fun _ o => scalar limits o) ()

def identityControlSignal (c : ControlSignal) : WriterM Unit :=
  fields limits [field c.output, field c.roles, field c.prerouteExcluded,
    field c.prerouteRoot, field c.prerouteCut]

/-- The rest of a snapshot, which names no node. -/
def identityTail (bits : List StateBit) (controls : List StateControl)
    (controlSignals : List ControlSignal) : WriterM Unit := do
  sequence limits sizeof .stateBit bits limits.nodes.toNat (fun _ b => identityBit limits b) ()
  sequence limits sizeof .stateControl controls limits.nodes.toNat
    (fun _ c => identityControl limits sizeof c) ()
  sequence limits sizeof .controlSignal controlSignals limits.nodes.toNat
    (fun _ c => identityControlSignal limits c) ()

/-- `identity_source` -/
def identitySource (s : SourceStateTable ν D S) (barriers : List String) : WriterM Unit := do
  enumeration limits (stateScopeCode s.scope) 2
  scalar limits s.logicalBoundary
  let st ← sequence limits sizeof .sourceState s.sources limits.nodes.toNat
    (identityRow limits barriers) ([], 0)
  let _ ← sequence limits sizeof .clockGate s.clocks limits.nodes.toNat (identityClock limits) st.1
  identityTail limits sizeof s.bits s.controls s.controlSignals

end Writer

/-! ## The network -/

def lnetKindCode : Lnet.Kind → ℕ
  | .constant => 0 | .source => 1 | .lut => 2

/-- A node number of a network. -/
def lid (n : ℕ) : UInt32 := UInt32.ofNat n

/-- The next state of a latch; `kNone` when it is not set. -/
def latchNext (l : Lnet.Latch) : UInt32 := lid (l.d.getD Lnet.none32)

structure IdentityNames where
  inputs : List String := []
  outputs : List String := []
  ports : List String := []
  barriers : List String := []

namespace Writer

def identityNode (n : Lnet.Node) : WriterM Unit := do
  enumeration limits (lnetKindCode n.kind) 2
  sequence limits sizeof .lid n.fanins 8 (fun _ f => scalar limits (lid f)) ()
  sequence limits sizeof .word n.table 4 (fun _ w => scalar limits (UInt64.ofBitVec w)) ()

def identityNodes (nodes : List Lnet.Node) : WriterM Unit := do
  count limits nodes.length limits.nodes.toNat
  size limits nodes.length
  nodes.forM (identityNode limits sizeof)

def identityInput (names : List String) (index : ℕ) (p : Lnet.Input) : WriterM ℕ := do
  scalar limits (lid p.node)
  string limits (chars (names.getD index ""))
  pure (index + 1)

def identityOutput (names : List String) (index : ℕ) (p : Lnet.Output) : WriterM ℕ := do
  fields limits [field (lid p.node), field (lid p.created)]
  string limits (chars (names.getD index ""))
  pure (index + 1)

def identityLatch (l : Lnet.Latch) : WriterM Unit := do
  fields limits [field (UInt8.ofNat l.init.toNat), field (lid l.q), field (latchNext l)]
  string limits (chars l.name)

/-- Whether the names match the boundary. -/
def namesMatch (raw : Lnet) (snapshot : SourceStateTable ν D S) (names : IdentityNames) : Prop :=
  (names.inputs = [] ∨ names.inputs.length = raw.inputs.length) ∧
    (names.outputs = [] ∨ names.outputs.length = raw.outputs.length) ∧
    (names.barriers = [] ∨ names.barriers.length = snapshot.sources.length)

instance (raw : Lnet) (snapshot : SourceStateTable ν D S) (names : IdentityNames) :
    Decidable (namesMatch raw snapshot names) :=
  inferInstanceAs (Decidable (_ ∧ _ ∧ _))

def options (o : LogicalOptions) : WriterM Unit := do
  fields limits o.endpoint.fields
  fields limits o.residual.fields
  fields limits o.ownFields

/-- The versions and the policy. -/
def identityPolicy (logical : LogicalOptions) (producer : UInt64)
    (context : List UInt8) : WriterM Unit := do
  fields limits [field (25 : UInt32), field (3 : UInt32), field (4 : UInt32),
    field (1 : UInt32), field producer]
  string limits context
  options limits logical

/-- The raw network and the names. -/
def identityNetwork (raw : Lnet) (names : IdentityNames) : WriterM Unit := do
  identityNodes limits sizeof raw.nodes
  let _ ← sequence limits sizeof .input raw.inputs limits.nodes.toNat
    (identityInput limits names.inputs) 0
  let _ ← sequence limits sizeof .output raw.outputs limits.nodes.toNat
    (identityOutput limits names.outputs) 0
  sequence limits sizeof .latch raw.latches limits.nodes.toNat
    (fun _ l => identityLatch limits l) ()
  sequence limits sizeof .string names.ports limits.nodes.toNat
    (fun _ p => string limits (chars p)) ()

/-- The body of `serialize_logical_identity`. -/
def logicalIdentity (raw : Lnet) (snapshot : SourceStateTable ν D S) (names : IdentityNames)
    (logical : LogicalOptions)
    (producer : UInt64) (context : List UInt8) : WriterM Unit := do
  limitsValid limits
  if namesMatch raw snapshot names then pure ()
    else invalid "identity names do not match the region boundary"
  identityPolicy limits logical producer context
  identitySource limits sizeof snapshot names.barriers
  identityNetwork limits sizeof raw names

end Writer

structure ArtifactBytes where
  status : Status := .invalid
  bytes : List UInt8 := []
  reason : String := ""

/-- The result of a writer: no bytes when it is refused. -/
def Writer.result (m : WriterM Unit) (work : Work) : ArtifactBytes × Work :=
  match m.run.run { work := work } with
  | (.ok _, s) => ({ status := .feasible, bytes := s.bytes }, s.work)
  | (.error e, s) => ({ status := e.status, reason := e.reason }, s.work)

/-- `serialize_logical_identity`, with the budget it leaves. -/
def serializeLogicalIdentity (raw : Lnet) (snapshot : SourceStateTable ν D S)
    (names : IdentityNames) (logical : LogicalOptions)
    (producer : UInt64) (context : List UInt8) (work : Work) : ArtifactBytes × Work :=
  Writer.result (Writer.logicalIdentity limits sizeof raw snapshot names logical producer context)
    work

end LiveHD.Usyn
