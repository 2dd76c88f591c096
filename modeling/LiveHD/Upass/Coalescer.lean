import Mathlib

/-!
# Deferred emission

`upass/coalescer/upass_coalescer.cpp`: an operation is parked under the name that it writes, and
emitted when the name is read, or when everything is flushed.
-/

namespace LiveHD.Upass.Coalescer

/-- A child of an operation node that is no destination. -/
inductive Operand (ν V : Type*)
  | ref (name : ν)
  | const (value : V)

/-- A drop-candidate operation node. -/
structure Op (ν V : Type*) where
  lhs : ν
  operands : List (Operand ν V)
  fn : List V → V

/-- A statement at which everything is flushed, and which is emitted where it stands. -/
structure Barrier (ν V : Type*) where
  writes : List ν
  operands : List (Operand ν V)
  fn : List V → ν → V

inductive Stmt (ν V : Type*)
  | op (o : Op ν V)
  | barrier (b : Barrier ν V)
  | declare (name : ν) (isMut : Bool)

variable {ν V : Type*}

/-! ## Programs -/

namespace Operand

def eval (env : ν → V) : Operand ν V → V
  | ref name => env name
  | const value => value

/-- `emit_ref_or_folded` -/
def fold (table : ν → Option V) : Operand ν V → Operand ν V
  | ref name => match table name with
    | some v => const v
    | none => ref name
  | const value => const value

end Operand

namespace Op

def refs (o : Op ν V) : List ν := o.operands.filterMap fun
  | .ref name => some name
  | .const _ => none

def eval (o : Op ν V) (env : ν → V) : V := o.fn (o.operands.map (Operand.eval env))

def fold (table : ν → Option V)
    (o : Op ν V) : Op ν V := { o with operands := o.operands.map (Operand.fold table) }

end Op

namespace Barrier

def refs (b : Barrier ν V) : List ν := b.operands.filterMap fun
  | .ref name => some name
  | .const _ => none

def eval (b : Barrier ν V) (env : ν → V) : ν → V := b.fn (b.operands.map (Operand.eval env))

def fold (table : ν → Option V) (b : Barrier ν V) : Barrier ν V :=
  { b with operands := b.operands.map (Operand.fold table) }

end Barrier

namespace Stmt

def writes : Stmt ν V → List ν
  | op o => [o.lhs]
  | barrier b => b.writes
  | declare .. => []

def refs : Stmt ν V → List ν
  | op o => o.refs
  | barrier b => b.refs
  | declare .. => []

/-- `emit_op_with_fold` -/
def fold (table : ν → Option V) : Stmt ν V → Stmt ν V
  | op o => op (o.fold table)
  | barrier b => barrier (b.fold table)
  | declare name isMut => declare name isMut

variable [LinearOrder ν]

def exec (env : ν → V) : Stmt ν V → ν → V
  | op o => Function.update env o.lhs (o.eval env)
  | barrier b => fun n => if n ∈ b.writes then b.eval env n else env n
  | declare .. => env

end Stmt

def exec [LinearOrder ν] (env : ν → V) (stmts : List (Stmt ν V)) : ν →
    V := stmts.foldl Stmt.exec env

/-! ## The constants -/

/-- What constant propagation makes of a statement, from the table before it. -/
structure Constprop (ν V : Type*) where
  op : Op ν V → (ν → Option V) → Option V
  barrier : Barrier ν V → (ν → Option V) → ν → Option V
  /-- The other guards of `classify_statement`. -/
  keeps : Op ν V → (ν → Option V) → Bool

variable [LinearOrder ν]

/-- `known_const_scalar` after a statement. -/
def Constprop.after (c : Constprop ν V) (table : ν → Option V) : Stmt ν V → ν → Option V
  | .op o => Function.update table o.lhs (c.op o table)
  | .barrier b => fun n => if n ∈ b.writes then c.barrier b table n else table n
  | .declare .. => table

/-! ## The pass -/

/-- A unit with parking enabled. -/
structure Unit (ν : Type*) where
  /-- `enabled_forced` -/
  forced : Bool := false
  /-- The names of the inputs and outputs. -/
  boundary : List ν := []
  /-- The first children of the nodes of the unit that are references, declarations and the io node
  apart. -/
  targets : List ν := []

namespace Unit

/-- `prescan_repeat_writes` -/
def repeatNames (u : Unit ν) (name : ν) : Bool := 2 ≤ u.targets.count name

def isBoundary (u : Unit ν) (name : ν) : Bool := name ∈ u.boundary

end Unit

/-- `uPass_coalescer`, and what has been emitted, with the nodes that it is emitted for. -/
structure Pass (ν V : Type*) where
  /-- By name, with the node of the block. -/
  pending : List (ν × ℕ × Op ν V) := []
  mutDeclNames : List ν := []
  out : List (Stmt ν V × ℕ) := []

namespace Pass

variable (s : Pass ν V) (table : ν → Option V)

/-- `runner_emit_at_fn` -/
def emit (nid : ℕ) (stmt : Stmt ν V) : Pass ν V :=
  { s with out := s.out ++ [(stmt.fold table, nid)] }

/-- The name is a constant, and its stores are not kept for being those of a `mut`. -/
def comptimeDrop (name : ν) : Bool := name ∉ s.mutDeclNames && (table name).isSome

/-- `flush_one` -/
def flushOne (name : ν) : Pass ν V :=
  match s.pending.lookup name with
  | none => s
  | some (nid, o) =>
    let s' := { s with pending := s.pending.filter (·.1 ≠ name) }
    if s.comptimeDrop table name then s' else s'.emit table nid (.op o)

/-- `flush_all`, in name order. -/
def flushAll : Pass ν V :=
  ((s.pending.map Prod.fst).insertionSort (· ≤ ·)).foldl (fun s name => s.flushOne table name) s

/-- The reads of an operation: what it reads and is no constant is flushed. -/
def flushReads (o : Op ν V) : Pass ν V :=
  o.refs.foldl (fun s name => if (table name).isSome then s else s.flushOne table name) s

/-- `park_current` -/
def parkCurrent (nid : ℕ) (o : Op ν V) : Pass ν V :=
  { s with pending := (o.lhs, nid, o) :: s.pending.filter (·.1 ≠ o.lhs) }

/-- Whether `handle_op` parks an operation. -/
def parks (u : Unit ν) (o : Op ν V) : Bool :=
  !u.isBoundary o.lhs && !s.comptimeDrop table o.lhs && (u.forced || u.repeatNames o.lhs)

/-- Whether constant propagation votes for dropping an operation. -/
def drops (u : Unit ν) (c : Constprop ν V) (o : Op ν V) : Bool :=
  s.comptimeDrop table o.lhs && !u.isBoundary o.lhs && !c.keeps o table

/-- `handle_op` with the emission that follows. -/
def handleOp (u : Unit ν) (c : Constprop ν V) (nid : ℕ) (o : Op ν V) : Pass ν V :=
  let s := s.flushReads table o
  if s.parks table u o then s.parkCurrent nid o
  else if s.drops table u c o then s
  else s.emit table nid (.op o)

/-- A statement; the table is that after it. -/
def step (u : Unit ν) (c : Constprop ν V) (nid : ℕ) : Stmt ν V → Pass ν V
  | .op o => s.handleOp table u c nid o
  | .barrier b => (s.flushAll table).emit table nid (.barrier b)
  | .declare name isMut =>
    { s with mutDeclNames := if isMut then name :: s.mutDeclNames else s.mutDeclNames }.emit table
      nid (.declare name isMut)

/-- The statements of a block from a node on, with the table after them. -/
def steps (u : Unit ν) (c : Constprop ν V) (s : Pass ν V) (table : ν → Option V) (nid : ℕ) :
    List (Stmt ν V) → Pass ν V × (ν → Option V)
  | [] => (s, table)
  | stmt :: stmts =>
    steps u c (s.step (c.after table stmt) u c nid stmt) (c.after table stmt) (nid + 1) stmts

/-- A block, which ends with a flush. -/
def block (u : Unit ν) (c : Constprop ν V) (s : Pass ν V) (table : ν → Option V)
    (stmts : List (Stmt ν V)) : Pass ν V :=
  let r := steps u c s table 0 stmts
  r.1.flushAll r.2

end Pass

end LiveHD.Upass.Coalescer
