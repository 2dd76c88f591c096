import LiveHD.Graph.Netlist

/-!
# Materializing a compact loop

`expand_one` and `materialize_occurrence` of `graph/occurrence_materialize.cpp`: a compact loop
instance becomes one ordinary instance for each ordinal.  `validates` is whether
`Subnode_group::validate` returns and `indexAt` what `Subnode_loop::index_at` returns, `none` for an
exception.  An error carries the netlist it leaves behind.
-/

namespace LiveHD

structure Carry where
  output : ℕ
  input : ℕ
deriving DecidableEq

/-- A compact instance and its descriptor. -/
structure Loop where
  inst : ℕ
  callee : ℕ
  /-- The output declarations `(port, bits)` of the callee. -/
  io : Option (List (ℕ × ℕ))
  count : ℕ
  indexInput : Option ℕ
  activationInput : Option ℕ
  nextActiveOutput : Option ℕ
  indexAt : ℕ → Option ℤ
  validates : Bool

/-- `kMaxExpand` -/
def kMaxExpand : ℕ := 2 ^ 20

namespace Loop

variable (L : Loop) (g : Netlist)

/-- `Subnode_group::carries`: the self edges. -/
def carries : List Carry :=
  g.edges.filterMap fun e =>
    match e.1 with
    | .out n p => if n = L.inst ∧ e.2.node = L.inst then some ⟨p, e.2.port⟩ else none
    | _ => none

def isCarrySource (port : ℕ) : Bool := (L.carries g).any (·.output == port)

def isCarryDest (port : ℕ) : Bool := (L.carries g).any (·.input == port)

/-- The external edges into the instance. -/
def external : List (ℕ × Pin) := (g.into L.inst).filter (!·.2.isOut L.inst)

/-- `Boundary::in_driver` -/
def inDriver (port : ℕ) : Option Pin := (((L.external g).filter (·.1 == port)).getLast?).map (·.2)

/-- `Boundary::readers`: an output port and the sink that reads it. -/
def readers : List (ℕ × Sink) :=
  g.edges.filterMap fun e =>
    match e.1 with
    | .out n p => if n = L.inst ∧ e.2.node ≠ L.inst then some (p, e.2) else none
    | _ => none

def outputIsSized (port : ℕ) : Bool := (L.io.getD []).any fun d => d.1 == port && decide (0 < d.2)

/-- The checks before the first node is created. -/
def preflight : Bool :=
  L.io.isSome && decide (L.count ≤ kMaxExpand) && L.validates &&
  (L.indexInput.isNone || (List.range L.count).all fun r => (L.indexAt r).isSome) &&
  ((L.carries g).all fun c => (L.inDriver g c.input).isSome &&
    (decide (L.count ≤ 1) || L.outputIsSized c.output)) &&
  ((L.readers g).all fun r => if L.count = 0 then L.isCarrySource g r.1 else L.outputIsSized r.1) &&
  (decide (L.count ≤ 1) || L.activationInput.isNone ||
    L.nextActiveOutput.all fun p => L.outputIsSized p)

/-- `make_driver` -/
def makeDriver (rep port : ℕ) : Option Pin :=
  if L.outputIsSized port then some (.out rep port) else none

/-- `count == 0`: each reader of a carried output reads the initial value. -/
def tieReaders (h : Netlist) : List (ℕ × Sink) → Except Netlist Netlist
  | [] => .ok h
  | (port, sink) :: readers =>
    match (L.carries g).find? (·.output == port) with
    | none => .error h
    | some c =>
      match L.inDriver g c.input with
      | none => .error h
      | some d => tieReaders (h.connect d sink) readers

/-- The ordinary instances, in the order of the ordinals. -/
def createReps : ℕ → Netlist → Netlist × List ℕ
  | 0, h => (h, [])
  | n + 1, h =>
    let (h, rep) := h.create (.sub L.callee)
    let (h, reps) := createReps n h
    (h, rep :: reps)

def isRoleInput (port : ℕ) : Bool := L.indexInput == some port || L.activationInput == some port

def invariantPids : List ℕ :=
  (((L.external g).map (·.1)).dedup.filter fun p => !L.isRoleInput p &&
    !L.isCarryDest g p).insertionSort (· ≤ ·)

/-- The netlist under construction, the activation of each ordinal and the inputs of each carry. -/
structure Wires where
  net : Netlist
  active : List Pin
  carryInputs : ℕ → List Pin

/-- The invariant inputs of an occurrence. -/
def wireInvariants (rep : ℕ) (h : Netlist) : Netlist :=
  (L.invariantPids g).foldl (fun h p =>
    match L.inDriver g p with
    | some d => h.connect d ⟨rep, p⟩
    | none => h) h

def wireIndex (rep r : ℕ) (h : Netlist) : Except Netlist Netlist :=
  match L.indexInput with
  | none => .ok h
  | some p =>
    match L.indexAt r with
    | some v => .ok (h.connect (.const v) ⟨rep, p⟩)
    | none => .error h

/-- An operand is appended to the bank of an `And`. -/
def appendOperand (d : Pin) (andn : ℕ)
    (h : Netlist) : Netlist := h.connect d ⟨andn, (h.into andn).length⟩

/-- The driver of an activation input. -/
def activeValue (act : ℕ) (reps : List ℕ) (r : ℕ) (h : Netlist) : Except Netlist (Netlist × Pin) :=
  let outside : Pin := (L.inDriver g act).getD (.const 1)
  match r, L.nextActiveOutput with
  | 0, _ => .ok (h, outside)
  | _, none => .ok (h, outside)
  | r + 1, some next =>
    let prev := reps.getD r 0
    match L.makeDriver prev next with
    | none => .error h
    | some prevNext =>
      let (h, andn) := h.create (.cell .and)
      let h := match h.driver ⟨prev, act⟩ with
        | some prevAct => appendOperand prevAct andn h
        | none => h
      .ok (appendOperand prevNext andn h, .out andn 0)

variable (reps : List ℕ) (r : ℕ) (w : Wires)

def wireActive : Except Netlist Wires :=
  match L.activationInput with
  | none => .ok w
  | some act => do
    let (h, value) ← L.activeValue g act reps r w.net
    .ok { w with net := h.connect value ⟨reps.getD r 0, act⟩, active := w.active ++ [value] }

/-- The driver of a carry input: `active[r-1] ? output[r-1] : input[r-1]` from the second occurrence
on. -/
def carryValue (c : Carry) : Except Netlist (Netlist × Pin) :=
  match r with
  | 0 =>
    match L.inDriver g c.input with
    | some d => .ok (w.net, d)
    | none => .error w.net
  | r + 1 =>
    match L.makeDriver (reps.getD r 0) c.output with
    | none => .error w.net
    | some previous =>
      if L.activationInput.isNone then .ok (w.net, previous)
      else
        match w.active[r]?, (w.carryInputs c.input).getLast? with
        | some active, some prior =>
          if (w.carryInputs c.input).length ≠ r + 1 then .error w.net
          else
            let (h, mux) := w.net.create (.cell .mux)
            .ok (((h.connect active ⟨mux, 0⟩).connect prior ⟨mux, 1⟩).connect previous ⟨mux, 2⟩,
              .out mux 0)
        | _, _ => .error w.net

def wireCarry (c : Carry) : Except Netlist Wires := do
  let (h, value) ← L.carryValue g reps r w c
  .ok { w with
    net := h.connect value ⟨reps.getD r 0, c.input⟩
    carryInputs := Function.update w.carryInputs c.input (w.carryInputs c.input ++ [value]) }

/-- The inputs of occurrence `r`. -/
def wireOrdinal (reps : List ℕ) (w : Wires) (r : ℕ) : Except Netlist Wires := do
  let h ← L.wireIndex (reps.getD r 0) r (L.wireInvariants g (reps.getD r 0) w.net)
  let w ← L.wireActive g reps r { w with net := h }
  (L.carries g).foldlM (L.wireCarry g reps r) w

/-- External readers read the last occurrence. -/
def bindReaders (last : ℕ) (h : Netlist) : List (ℕ × Sink) → Except Netlist Netlist
  | [] => .ok h
  | (port, sink) :: readers =>
    match L.makeDriver last port with
    | none => .error h
    | some src => bindReaders last (h.connect src sink) readers

def expandOne : Except Netlist Netlist :=
  if !L.preflight g then .error g
  else if L.count = 0 then (·.delNode L.inst) <$> L.tieReaders g g (L.readers g)
  else do
    let (h, reps) := L.createReps L.count g
    let w ← (List.range L.count).foldlM (L.wireOrdinal g reps) ⟨h, [], fun _ => []⟩
    (·.delNode L.inst) <$> L.bindReaders (reps.getD (L.count - 1) 0) w.net (L.readers g)

/-- Whether the instance was expanded, and the netlist after the call. -/
def materializeOccurrence : Bool × Netlist :=
  match L.expandOne g with
  | .ok h => (true, h)
  | .error h => (false, h)

/-! ## What the loop computes -/

/-- The carries by input port, and the activation. -/
structure Running where
  carry : ℕ → ℤ
  active : ℤ

section

variable (f : (ℕ → Option ℤ) → ℕ → ℤ) (ν : Pin → ℤ)

/-- The inputs of the body at ordinal `r`. -/
def bodyInputs (r : ℕ) (s : Running) (port : ℕ) : Option ℤ :=
  if L.indexInput = some port then L.indexAt r
  else if L.activationInput = some port then some s.active
  else if L.isCarryDest g port then some (s.carry port)
  else (L.inDriver g port).map ν

def bodyOutputs (r : ℕ) (s : Running) : ℕ → ℤ := f (L.bodyInputs g ν r s)

def Holds (s : Running) : Prop := L.activationInput = none ∨ s.active ≠ 0

instance (s : Running) : Decidable (L.Holds s) := inferInstanceAs (Decidable (_ ∨ _))

/-- The state before the first ordinal: the seeds and the external activation, which is true when
unconnected. -/
def start : Running where
  carry port := ((L.inDriver g port).map ν).getD 0
  active := ((L.activationInput.bind (L.inDriver g)).map ν).getD 1

/-- One ordinal: an inactive one keeps the carries. -/
def advance (r : ℕ) (s : Running) : Running where
  carry port :=
    match (L.carries g).find? (·.input == port) with
    | some c => if L.Holds s then L.bodyOutputs g f ν r s c.output else s.carry port
    | none => s.carry port
  active :=
    match L.nextActiveOutput with
    | some next => s.active.land (L.bodyOutputs g f ν r s next)
    | none => s.active

/-- The state before ordinal `r`. -/
def running : ℕ → Running
  | 0 => L.start g ν
  | r + 1 => L.advance g f ν r (running r)

/-- What a reader of an output port is to see. -/
def finalValue (port : ℕ) : ℤ :=
  match (L.carries g).find? (·.output == port) with
  | some c => (L.running g f ν L.count).carry c.input
  | none => L.bodyOutputs g f ν (L.count - 1) (L.running g f ν (L.count - 1)) port

/-- An inactive last ordinal: its output is what the carry holds. -/
def LastKept : Prop :=
  ∀ port sink c, (port, sink) ∈ L.readers g → (L.carries g).find? (·.output == port) = some c →
    L.Holds (L.running g f ν (L.count - 1)) ∨
      L.bodyOutputs g f ν (L.count - 1) (L.running g f ν (L.count - 1)) port =
      (L.running g f ν (L.count - 1)).carry c.input

end

end Loop

end LiveHD
