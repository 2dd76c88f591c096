import LiveHD.Graph.Fit
import LiveHD.Graph.Hinted
import LiveHD.Graph.Materialize

/-!
# The carries of a rolled loop

`classify_loop` of `graph/loop_split.cpp`: a carry is a write of a slice at each ordinal, a
reduction, or a recurrence.  The statistics over the nodes of the body are left out.
-/

namespace LiveHD.LoopSplit

/-- The body of a loop: the declared inputs, the drivers of the outputs, and the nodes where a
dependence of the iteration ends (`is_state_boundary`). -/
structure Body extends Hinted where
  inputs : List ℕ
  outDriver : ℕ → Option Pin
  boundary : ℕ → Bool
  legal : toNetlist.Legal
  declared : ∀ e ∈ edges, ∀ p, e.1 = .input p → p ∈ inputs

/-- A rolled loop; a carry has an input of its own. -/
structure Rolled where
  body : Body
  carries : List Carry
  indexInput : Option ℕ
  activationInput : Option ℕ
  nextActiveOutput : Option ℕ
  nodup : (carries.map Carry.input).Nodup

/-- `mask_window_const` -/
def maskWindow (lo hi : ℕ) : ℤ := 2 ^ hi - 2 ^ lo

/-- What a `Get_mask` that counts as an identity reads. -/
def identityInput (g : Hinted) (d : Pin) : Option Pin :=
  match d with
  | .out n _ =>
    if g.kind n = some (.cell .getMask) then
      match g.driver ⟨n, 0⟩, g.bitRange n with
      | some a, some (lo, hi) =>
        if g.bits a = 0 ∨ (0 < g.bits d ∧ g.bits d < g.bits a) then none
        -- every bit, or the bits of the operand
        else if maskWindow lo hi = -1 ∨ maskWindow lo hi = 2 ^ g.bits a - 1 then some a
        else none
      | _, _ => none
    else none
  | _ => none

/-- What the `Get_mask`s on the way of `skipIdentities` read. -/
def skipped (g : Hinted) : ℕ → Pin → List Pin
  | 0, _ => []
  | guard + 1, d =>
    match identityInput g d with
    | some a => a :: skipped g guard a
    | none => []

def skipIdentities (g : Hinted) : ℕ → Pin → Pin
  | 0, d => d
  | guard + 1, d =>
    match identityInput g d with
    | some a => skipIdentities g guard a
    | none => d

namespace Body

variable (b : Body)

/-- The drivers of a node, in the order of its sinks. -/
def drivers (n : ℕ) : List Pin := (b.sinkDrivers n).map (·.2)

/-- `cone_reaches_any`, the nodes visited and the work left; `none` when the fuel does not
suffice. -/
def coneReaches (targets : List Pin) : ℕ → List ℕ → List Pin → Option Bool
  | _, _, [] => some false
  | 0, _, _ :: _ => none
  | fuel + 1, visited, d :: work =>
    if d ∈ targets then some true
    else match d with
      | .out n _ =>
        if n ∈ visited then coneReaches targets fuel visited work
        else if b.boundary n then coneReaches targets fuel (n :: visited) work
        else coneReaches targets fuel (n :: visited) ((b.drivers n).reverse ++ work)
      | _ => coneReaches targets fuel visited work

def coneReachesAny (start : Option Pin) (targets : List Pin) : Bool :=
  match start with
  | none => false
  | some d => (b.coneReaches targets (b.edges.length + 1) [] [d]).getD true

/-- `declared_input_pin` -/
def declaredInput (port : ℕ) : Option Pin := if port ∈ b.inputs then some (.input port) else none

end Body

def isAssociativeOp : NtypeOp → Bool
  | .sum | .mult | .and | .or | .xor => true
  | _ => false

def isIdempotentOp : NtypeOp → Bool
  | .and | .or => true
  | _ => false

inductive CarryKind where
  /-- A write into a slice of its own at each ordinal. -/
  | disjointSlice
  /-- `carry_out = op(carry_in, X)` with `X` free of carries. -/
  | assocReduction
  | induction
deriving DecidableEq

structure CarryClass where
  inPort : ℕ
  outPort : ℕ
  kind : CarryKind := .induction
  reduceOp : Option NtypeOp := none
  idempotent : Bool := false
  needsDisjointProof : Bool := false
deriving DecidableEq

inductive OperandKind where
  | carry
  | free
  /-- On a sink that does not fold, or over a carry without being it. -/
  | foreign
deriving DecidableEq

namespace Rolled

variable (L : Rolled)

def carryIns : List Pin := L.carries.filterMap fun c => L.body.declaredInput c.input

def indexPins : List Pin := (L.indexInput.bind L.body.declaredInput).toList

def skip (d : Pin) : Pin := skipIdentities L.body.toHinted 32 d

def dependsOnACarry (d : Pin) : Bool := L.body.coneReachesAny (some d) L.carryIns

/-- The driver of a sink by port. -/
def sinkDriver (n port : ℕ) : Option Pin := L.body.driver ⟨n, port⟩

/-- An operand of the operator of a reduction. -/
def operandKind (op : NtypeOp) (carryIn : Pin) (e : ℕ × Pin) : OperandKind :=
  if op.sinkBank e.1 ≠ 0 then .foreign
  else if L.skip e.2 = carryIn then .carry
  else if L.dependsOnACarry e.2 then .foreign
  else .free

/-- The write of a slice of the carry, at a place chosen by the index and free of carries. -/
def isSliceWrite (n : ℕ) (carryIn : Pin) : Bool :=
  let base := L.sinkDriver n 0
  let lo := L.sinkDriver n 2
  let hi := L.sinkDriver n 3
  let value := L.sinkDriver n 4
  let free := fun d : Option Pin => d.all fun d => !L.dependsOnACarry d
  base.any (L.skip · == carryIn) && (lo.isSome && hi.isSome && free lo && free hi) && free value &&
    (L.body.coneReachesAny lo L.indexPins || L.body.coneReachesAny hi L.indexPins)

/-- Exactly one operand is the carry and the others, at least one, are free. -/
def isReduction (op : NtypeOp) (n : ℕ) (carryIn : Pin) : Bool :=
  let kinds := (L.body.sinkDrivers n).map (L.operandKind op carryIn)
  !kinds.contains .foreign && kinds.count .carry == 1 && decide (1 ≤ kinds.count .free)

/-- What `classify_loop` finds for a carry. -/
def classifyCarry (c : Carry) : CarryClass :=
  match L.body.declaredInput c.input, L.body.outDriver c.output with
  | some carryIn, some carryOut =>
    match L.skip carryOut with
    | .out n _ =>
      match L.body.kind n with
      | some (.cell op) =>
        if op = .setMask then
          if L.isSliceWrite n carryIn then
            { inPort := c.input, outPort := c.output, kind := .disjointSlice
              needsDisjointProof := true }
          else { inPort := c.input, outPort := c.output }
        else if isAssociativeOp op && L.isReduction op n carryIn then
          { inPort := c.input, outPort := c.output, kind := .assocReduction, reduceOp := some op,
            idempotent := isIdempotentOp op }
        else { inPort := c.input, outPort := c.output }
      | _ => { inPort := c.input, outPort := c.output }
    | _ => { inPort := c.input, outPort := c.output }
  -- undeclared or undriven
  | _, _ => { inPort := c.input, outPort := c.output }

end Rolled

/-! ## What a loop computes -/

/-- What the nodes show at their outputs, from the ports and values that they read. -/
abbrev Shows := ℕ → List (ℕ × ℤ) → ℕ → ℤ

namespace Body

variable (b : Body)

def reads (ν : Pin → ℤ) (n : ℕ) : List (ℕ × ℤ) := (b.sinkDrivers n).map fun e => (e.1, ν e.2)

/-- The values of the pins satisfy a node. -/
def HoldsAt (shows : Shows) (ν : Pin → ℤ)
    (n : ℕ) : Prop := ∀ port, ν (.out n port) = shows n (b.reads ν n) port

/-- The node shows the same whatever it reads, as a register does. -/
def Registered (shows : Shows)
    (n : ℕ) : Prop := ∀ vals vals' port, shows n vals port = shows n vals' port

/-- The behaviour of one iteration.  The values of a part of the body are determined by what it
reads of the rest. -/
structure Behaviour where
  shows : Shows
  cell : ∀ n op, b.kind n = some (.cell op) →
    ∀ vals x, Cell.evalOp op (vals.map fun v => (op.sinkBank v.1, some v.2)) = some x →
    ∀ port, shows n vals port = x
  value : (ℕ → ℤ) → Pin → ℤ
  const : ∀ ins v, value ins (.const v) = v
  input : ∀ ins p, value ins (.input p) = ins p
  holds : ∀ ins n, b.HoldsAt shows (value ins) n
  settles : ∀ (part : ℕ → Prop) (ν ν' : Pin → ℤ),
    (∀ n, part n → b.HoldsAt shows ν n ∧ b.HoldsAt shows ν' n) →
    (∀ n, part n → Registered shows n ∨
      ∀ d ∈ b.drivers n, (∃ m q, d = .out m q ∧ part m) ∨ ν d = ν' d) →
    ∀ n, part n → ∀ port, ν (.out n port) = ν' (.out n port)

end Body

namespace Rolled

variable (L : Rolled)

/-- What a loop runs on: the behaviour and the other inputs at each ordinal, the initial values of
the carries, and the activation from outside. -/
structure Env where
  behaviour : ℕ → L.body.Behaviour
  others : ℕ → ℕ → ℤ
  seed : ℕ → ℤ
  outside : ℤ

def carryOf (port : ℕ) : Option Carry := L.carries.find? (·.input == port)

/-- The width and sign of an input. -/
def portAttr (port : ℕ) : PinAttr := ⟨L.body.bits (.input port), !L.body.signed (.input port)⟩

namespace Env

variable {L} (E : L.Env)

/-- The inputs of the body at an ordinal, from the carries and the activation. -/
def inputs (i : ℕ) (s : (ℕ → ℤ) × ℤ) (port : ℕ) : ℤ :=
  if (L.carryOf port).isSome then s.1 port
  else if L.activationInput = some port then s.2
  else E.others i port

/-- The carries and the activation before an ordinal; an ordinal that is not active passes its
carries on. -/
def state : ℕ → (ℕ → ℤ) × ℤ
  | 0 => (E.seed, E.outside)
  | i + 1 =>
    let s := state i
    let ν := (E.behaviour i).value (E.inputs i s)
    (fun port =>
      match (L.carryOf port).bind fun c => L.body.outDriver c.output with
      | none => s.1 port
      | some d => if L.activationInput.isSome ∧ s.2 = 0 then s.1 port
        else (L.portAttr port).fit (ν d),
    match L.nextActiveOutput.bind L.body.outDriver with
    | none => E.outside
    | some d => Int.land s.2 (ν d))

/-- The values of the pins at an ordinal. -/
def pins (i : ℕ) : Pin → ℤ := (E.behaviour i).value (E.inputs i (E.state i))

/-- The value of a carry after `n` ordinals. -/
def carry (n port : ℕ) : ℤ := (E.state n).1 port

end Env

end Rolled

end LiveHD.LoopSplit
