import LiveHD.Graph.MemoryDeps
import LiveHD.Lib.Supports

/-!
# The inputs that an output reads

`Cache::of` of `graph/port_reach.cpp`: for each output of a definition the inputs with a
combinational path to it, by a walk for each output, or by one pass over the strongly connected
components.
-/

namespace LiveHD.PortReach

open Supports

/-- The input `pid` from `lo` on, `len` bits or all when it is `0`. -/
structure InAtom where
  pid : ℕ
  lo : ℕ
  len : ℕ
deriving DecidableEq

/-- `add_atom` -/
def addAtom : List InAtom → InAtom → List InAtom
  | [], new => [{ new with lo := if new.len = 0 then 0 else new.lo }]
  | a :: v, new =>
    if a.pid ≠ new.pid then a :: addAtom v new
    else if a.len = 0 then a :: v
    else if new.len = 0 then { a with lo := 0, len := 0 } :: v
    else { a with
        lo := min a.lo new.lo
        len := max (a.lo + a.len) (new.lo + new.len) - min a.lo new.lo } :: v

/-- `mask_window_of` -/
def maskWindowOf (v : ℤ) : Option (ℕ × ℕ) :=
  if v ≤ 0 then none
  else
    let hi := Nat.size v.toNat
    ((List.range hi).find? fun i => v.toNat.testBit i).bind fun lo =>
      if v = 2 ^ hi - 2 ^ lo then some (lo, hi) else none

structure Walk where
  seen : List Pin
  expanded : List ℕ
  stk : List Pin
  atoms : List InAtom

namespace Walk

variable (w : Walk)

/-- A pin is marked when it is put on the stack. -/
def enqueue (p : Pin) : Walk :=
  if p.isConst || decide (p ∈ w.seen) then w else { w with seen := p :: w.seen, stk := p :: w.stk }

def enqueueAll (l : List Pin) : Walk := l.foldl enqueue w

end Walk

/-- What the traversals tell apart. -/
inductive Role where
  /-- `Flop`, `Fflop` and `Latch`. -/
  | register
  | memory
  | instance (callee : ℕ)
  | plain
deriving DecidableEq

/-- The sinks that a window and a shift have. -/
def hasSink : NtypeOp → ℕ → Bool
  | .getMask, port => port ∈ [0, 2, 3]
  | .sra, port => port ∈ [0, 1]
  | _, _ => true

/-- A definition: its registers and memories, its ports, what drives its outputs, and of its callees
the summaries, which a callee without a body has none of, and the outputs declared, with
`loop_break`. -/
structure Body extends Hinted where
  registers : List ℕ
  memories : List ℕ
  loopBreak : List ℕ
  inputs : List (ℕ × ℕ)
  outputs : List ℕ
  outDriver : ℕ → Option Pin
  summary : ℕ → Option (ℕ → Option (List ℕ))
  decls : ℕ → Option (List (ℕ × Bool))

namespace Body

variable (b : Body)

def role (n : ℕ) : Role :=
  match b.kind n with
  | some (.sub c) | some (.loop c) => .instance c
  | some .other => if n ∈ b.registers then .register else if n ∈ b.memories then .memory else .plain
  | _ => .plain

/-- What a well-formed body keeps: the sinks of a cell and of a memory have one driver, and they are
those that it has. -/
structure Legal : Prop where
  single : ∀ n op, b.kind n = some (.cell op) → ((b.into n).map (·.1)).Nodup
  sinks : ∀ n op, b.kind n = some (.cell op) → ∀ e ∈ b.into n, hasSink op e.1 = true
  memory : ∀ n, b.role n = .memory → MemorySinks (b.into n)

/-- The drivers of all sinks of a node. -/
def allInputs (n : ℕ) : List Pin := (b.sinkDrivers n).map (·.2)

/-- `state_output` -/
def stateOutput (n c q : ℕ) : Bool :=
  if n ∈ b.loopBreak then
    match b.decls c with
    | none => false
    | some decls => (decls.lookup q).getD false
  else false

/-- `mem_deps_of` -/
def memDepsOf (n : ℕ) : MemoryDeps := MemoryDeps.decode (b.sinkDrivers n)

/-- The drivers of the inputs that an output of an instance reads; a sink of a loop has two. -/
def instanceInputs (n q : ℕ) (row : ℕ → Option (List ℕ)) : List Pin :=
  ((row q).getD []).flatMap fun ipid => b.drivers ⟨n, ipid⟩

/-! ## Slice reads of the inputs -/

/-- `first_value_driver` -/
def firstValueDriver (n : ℕ) : Option Pin := (b.allInputs n).head?

/-- `peel_ident` -/
def peelIdent : ℕ → Pin → Option Pin
  | hops + 1, .out n q =>
    match b.kind n with
    | some (.cell .sext) => (b.firstValueDriver n).bind (peelIdent hops)
    | some (.cell .getMask) =>
      match b.bitRange n, b.driver ⟨n, 0⟩ with
      | some range, some value => if range.1 = 0 ∧ b.bits value ≤ range.2 then peelIdent hops value
        else some (.out n q)
      | _, _ => some (.out n q)
    | _ => some (.out n q)
  | _, p => some p

/-- The operand at port 0, and the last of the others. -/
def valueOf (n : ℕ) : Option Pin := (((b.sinkDrivers n).filter (·.1 == 0)).getLast?).map (·.2)

def amountOf (n : ℕ) : Option Pin := (((b.sinkDrivers n).filter (·.1 != 0)).getLast?).map (·.2)

/-- `sra_of`: an input shifted. -/
def sraOf (p : Pin) : Option (ℕ × ℕ) :=
  match b.peelIdent 8 p with
  | some (.input pid) => some (pid, 0)
  | some (.out n _) =>
    if b.kind n = some (.cell .sra) then
      match (b.valueOf n).bind (b.peelIdent 8), b.amountOf n with
      | some (.input pid), some (.const k) =>
        if justI64 k ∧ 0 ≤ k then some (pid, k.toNat % 2 ^ 32) else none
      | _, _ => none
    else none
  | _ => none

/-- The width that bounds a read of an input. -/
def inBits (pid : ℕ) : ℕ := ((b.inputs.lookup pid).map (max 1)).getD 0

/-- A read from `k` on, the whole input when the width does not bound it. -/
def readFrom (pid k len : ℕ) : InAtom := if b.inBits pid ≤ k then ⟨pid, 0, 0⟩
    else ⟨pid, k, min len (b.inBits pid - k)⟩

/-- The operands of an `And`: the last that is no constant, and the last constant. -/
def andOperands (n : ℕ) : Option Pin × Option ℤ :=
  ((((b.allInputs n).filter fun p => !p.isConst).getLast?),
      ((b.allInputs n).filterMap fun p => match p with
      | .const v => some v
      | _ => none).getLast?)

/-- `input_atom_of`: the slice that an output reads of an input. -/
def inputAtomOf (n q : ℕ) : Option InAtom :=
  match b.kind n with
  | some (.cell .getMask) =>
    match (b.valueOf n).bind (b.peelIdent 8), b.amountOf n with
    | some (.input pid), some (.const _) =>
      (b.bitRange n).map fun window => ⟨pid, window.1, window.2 - window.1⟩
    | _, _ => none
  | some (.cell .sra) => (b.sraOf (.out n q)).map fun r => b.readFrom r.1 r.2 (b.inBits r.1)
  | some (.cell .and) =>
    if (b.sinkDrivers n).length ≠ 2 then none
    else match b.andOperands n with
      | (some other, some mask) =>
        match maskWindowOf mask with
        -- only a low mask trims
        | some (0, hi) => (b.sraOf other).map fun r => b.readFrom r.1 r.2 hi
        | _ => none
      | _ => none
  | _ => none

/-! ## The walk of one output -/

/-- The drivers of all sinks of a node, once. -/
def expand (w : Walk) (n : ℕ) : Walk :=
  if n ∈ w.expanded then w else Walk.enqueueAll
    { w with expanded := n :: w.expanded } (b.allInputs n)

/-- A `Get_mask` of an input with a constant window. -/
def fieldRead (n : ℕ) : Option InAtom :=
  match b.kind n, b.valueOf n, b.amountOf n with
  | some (.cell .getMask), some (.input pid), some (.const _) =>
    (b.bitRange n).map fun window => ⟨pid, window.1, window.2 - window.1⟩
  | _, _, _ => none

/-- A pin from the stack. -/
def visit (w : Walk) : Pin → Walk
  | .const _ => w
  | .input pid => { w with atoms := addAtom w.atoms ⟨pid, 0, 0⟩ }
  | .out n q =>
    match b.inputAtomOf n q with
    | some atom => { w with atoms := addAtom w.atoms atom }
    | none =>
      match b.role n with
      | .register => w
      | .instance c =>
        match b.summary c with
        | some row => w.enqueueAll (b.instanceInputs n q row)
        | none => if b.stateOutput n c q then w else b.expand w n
      | .memory =>
        match (b.memDepsOf n).deps q true with
        | some l => w.enqueueAll l
        | none => b.expand w n
      | .plain =>
        match b.fieldRead n with
        | some atom => { w with atoms := addAtom w.atoms atom }
        | none => b.expand w n

def walkLoop : ℕ → Walk → Walk
  | 0, w => w
  | fuel + 1, w =>
    match w.stk with
    | [] => w
    | d :: stk => walkLoop fuel (b.visit { w with stk := stk } d)

/-- `run_walk` from one pin; no pin is on the stack twice. -/
def runWalk (seed : Pin) : List InAtom :=
  (b.walkLoop (b.edges.length + 1) (Walk.enqueue ⟨[], [], [], []⟩ seed)).atoms

/-! ## All outputs in one pass -/

/-- What a pin depends on directly. -/
def reads : Pin → List Pin
  | .out n q =>
    match b.role n with
    | .register => []
    | .instance c =>
      match b.summary c with
      | some row => b.instanceInputs n q row
      | none => if b.stateOutput n c q then [] else b.allInputs n
    | .memory => ((b.memDepsOf n).deps q true).getD (b.allInputs n)
    | .plain => b.allInputs n
  | _ => []

/-- `successors`: the pins that are no inputs. -/
def succ (p : Pin) : List Pin :=
  (b.reads p).filter fun q =>
    match q with
    | .out _ _ => true
    | _ => false

/-- `successors`: the inputs. -/
def direct (p : Pin) : List ℕ :=
  (b.reads p).filterMap fun q =>
    match q with
    | .input pid => some pid
    | _ => none

/-- The pins of a pass. -/
def pins : List Pin := b.outputs.filterMap b.outDriver ++ b.edges.map (·.1)

/-- The rows of the outputs, over the state of the pass. -/
def supportRows : List ℕ → State Pin ℕ → List (ℕ × List ℕ)
  | [], _ => []
  | o :: os, s =>
    match b.outDriver o with
    | none | some (.const _) => (o, []) :: supportRows os s
    | some (.input pid) => (o, [pid]) :: supportRows os s
    | some (.out n q) =>
      let r := s.supportOf b.succ b.direct (enough b.succ b.pins) (.out n q)
      (o, r.2) :: supportRows os r.1

/-! ## The summary -/

/-- `Cache::of`: the row `out2ins` of each output. -/
def out2ins (slices : Bool) : List (ℕ × List ℕ) :=
  if slices then b.outputs.map fun o => (o, ((b.outDriver o).map b.runWalk).getD [] |>.map (·.pid))
  else b.supportRows b.outputs State.init

/-! ## Combinational paths -/

/-- A registered output of an instance without a body. -/
def Registered (n c q : ℕ) : Prop := n ∈ b.loopBreak ∧ ∃ decls, b.decls c = some decls ∧
    decls.lookup q = some true

/-- `x` feeds a pin directly: through a cell, an instance as its summary says, an instance without a
body unless the output is registered, or a memory as its ports say. -/
inductive Feeds : Pin → Pin → Prop
  | plain {n port q : ℕ} {x : Pin} (hn : b.role n = .plain)
    (hx : (x, ⟨n, port⟩) ∈ b.edges) : Feeds x (.out n q)
  | summary {n c port q : ℕ} {row : ℕ → Option (List ℕ)} {ins : List ℕ} {x : Pin}
      (hn : b.role n = .instance c) (hrow : b.summary c = some row)
      (hins : row q = some ins) (hport : port ∈ ins) (hx : (x, ⟨n, port⟩) ∈ b.edges) :
        Feeds x (.out n q)
  | blackBox {n c port q : ℕ} {x : Pin} (hn : b.role n = .instance c) (hrow : b.summary c = none)
      (hreg : ¬b.Registered n c q)
      (hx : (x, ⟨n, port⟩) ∈ b.edges) : Feeds x (.out n q)
  | memory {n q : ℕ} {x : Pin} (hn : b.role n = .memory) (hx :
      (Memory.ofSinks (b.sinkDrivers n)).Feeds (fun p => ∃ port, (p, ⟨n, port⟩) ∈ b.edges) q x) :
      Feeds x (.out n q)

/-- A combinational path leads from the input to the pin. -/
def CombPath (pid : ℕ) (p : Pin) : Prop := Relation.ReflTransGen b.Feeds (.input pid) p

/-- The summary has each output with exactly the inputs that a combinational path leads from, and
the algorithm makes no difference. -/
def Exact : Prop :=
  ∀ slices, (b.out2ins slices).map (·.1) = b.outputs ∧
    ∀ r ∈ b.out2ins slices, ∀ pid, pid ∈ r.2 ↔ ∃ d, b.outDriver r.1 = some d ∧ b.CombPath pid d

end Body

end LiveHD.PortReach
