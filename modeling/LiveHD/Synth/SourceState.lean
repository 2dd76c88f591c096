import Mathlib

/-!
# The snapshot of the source state

`Source_state_table` of `pass/synth/source_state.hpp`, over node numbers `ν`, constants `D` and
source spans `S`.
-/

namespace LiveHD.Synth

structure SourceSignal (ν D : Type) where
  node : ν
  port : UInt32 := 0
  present : Bool := false
  constant : Bool := false
  bits : UInt32 := 0
  value : D

inductive StateScope
  | logic | memory | opaqueScope
deriving DecidableEq

inductive StateRole
  | registerCandidate | transparentLatch | icg | memory | opaqueRole | hierarchy
deriving DecidableEq

structure SourceState (ν D S : Type) where
  node : ν
  name : String
  span : S
  role : StateRole := .opaqueRole
  bits : UInt32 := 0
  stages : UInt32 := 0
  widthKnown : Bool := false
  q : SourceSignal ν D
  data : SourceSignal ν D
  clock : SourceSignal ν D
  clockRoot : SourceSignal ν D
  enable : SourceSignal ν D
  reset : SourceSignal ν D
  initial : SourceSignal ν D
  negClock : Bool := false
  clockEdgeKnown : Bool := true
  negReset : Bool := false
  asyncReset : Bool := false
  powerOn : Bool := false
  icg : Int32 := -1
  translatedBits : UInt64 := 0

structure SemanticLid where
  node : UInt32
  inverted : Bool := false
deriving DecidableEq

structure StateBit where
  source : UInt32 := 0
  stage : UInt32 := 0
  bit : UInt32 := 0
  latch : UInt32 := 0
  name : String
  q : SemanticLid
  d : SemanticLid
deriving DecidableEq

structure SourceClockGate (ν D S : Type) where
  output : SourceSignal ν D
  clock : SourceSignal ν D
  enable : SourceSignal ν D
  latchNode : ν
  parent : Int32 := -1
  name : String
  span : S

inductive StateControlKind
  | clock | asyncReset | initialValue
deriving DecidableEq

structure StateControl where
  source : UInt32 := 0
  kind : StateControlKind := .clock
  outputs : List UInt32 := []
deriving DecidableEq

structure ControlSignal where
  output : UInt32 := 0
  roles : UInt8 := 0
  prerouteExcluded : Bool := false
  prerouteRoot : Bool := false
  prerouteCut : Bool := false
deriving DecidableEq

structure SourceStateTable (ν D S : Type) where
  sourceGraph : String
  scope : StateScope := .logic
  sources : List (SourceState ν D S) := []
  clocks : List (SourceClockGate ν D S) := []
  bits : List StateBit := []
  logicalBoundary : Bool := false
  controls : List StateControl := []
  controlSignals : List ControlSignal := []

/-! ## Other node numbers -/

variable {ν μ κ D S : Type}

variable (f : ν → μ)

def SourceSignal.map (s : SourceSignal ν D) : SourceSignal μ D := { s with node := f s.node }

def SourceState.map (r : SourceState ν D S) : SourceState μ D S :=
  { r with
    node := f r.node
    q := r.q.map f
    data := r.data.map f
    clock := r.clock.map f
    clockRoot := r.clockRoot.map f
    enable := r.enable.map f
    reset := r.reset.map f
    initial := r.initial.map f }

def SourceClockGate.map (c : SourceClockGate ν D S) : SourceClockGate μ D S :=
  { c with
    output := c.output.map f
    clock := c.clock.map f
    enable := c.enable.map f
    latchNode := f c.latchNode }

/-- The snapshot with other node numbers. -/
def SourceStateTable.map (s : SourceStateTable ν D S) : SourceStateTable μ D S :=
  { s with
    sources := s.sources.map (SourceState.map f)
    clocks := s.clocks.map (SourceClockGate.map f) }

end LiveHD.Synth
