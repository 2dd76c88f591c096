import LiveHD.Aegraph.Fold

/-!
# Word-level simulation of one cell

The combinational part of `Word_sim::column` in `satopt_sim.cpp`, up to the value that is
then fitted to the width of the driver pin.  Operands are grouped by the bank of their sink;
`none` makes the value unavailable.  `noLanes` is what `Dlop::concat_op` returns for no lanes.
-/

namespace LiveHD.Satopt

open IntBits Aegraph

variable (op : NtypeOp) (pins : List Driven) (bank : ℕ)

/-- The operands of the cell on a bank, in the order of their ports. -/
def ins : List ℤ :=
  (pins.filter fun s => op.sinkBank s.port == bank).map (·.value)

/-- The operand of a bank that has exactly one. -/
def arg : Option ℤ :=
  match ins op pins bank with
  | [v] => some v
  | _ => none

/-- `arms_of` a `Mux`: the selector and two arms. -/
def muxArms (pins : List Driven) : Option (ℤ × ℤ × ℤ) :=
  match pins with
  | [s, f, t] => if s.port = 0 ∧ f.port = 1 ∧ t.port = 2 then
    some (s.value, f.value, t.value) else none
  | _ => none

/-- The first arm of a `Hotmux` with an active control; its fallback, or zero, when there is
none. -/
def firstActive : List (ℤ × ℤ) → Option ℤ → ℤ
  | [], fallback => fallback.getD 0
  | (c, v) :: arms, fallback => if c = 0 then firstActive arms fallback else v

/-- `LT` and `GT`: each operand of the left bank against each of the right one. -/
def compareBanks (cmp : ℤ → ℤ → Bool) (as bs : List ℤ) : Option ℤ :=
  if as.isEmpty || bs.isEmpty then none
  else some (as.foldl (fun v a => bs.foldl (fun v b => v.land (Cell.flag (cmp a b))) v) 1)

/-- The operands of a commutative cell, folded from the first one. -/
def foldFirst (f : ℤ → ℤ → ℤ) : List ℤ → ℤ
  | [] => 0
  | x :: xs => xs.foldl f x

def column (noLanes : Option ℤ) (op : NtypeOp) (pins : List Driven) : Option ℤ :=
  match op with
  | .mux => (muxArms pins).map fun m => if m.1 = 0 then m.2.1 else m.2.2
  | .hotmux =>
    let arms := Driven.hotmuxInputs pins
    if arms.1.isEmpty && arms.2.isNone then none else some (firstActive arms.1 arms.2)
  | .concat =>
    match Driven.concatLanes pins with
    | [] => noLanes
    | lanes => some (Cell.concat lanes)
  | .rxor | .popcount => do
    let a ← arg op pins 0
    let count ← Driven.reductionCount pins
    let ones := Cell.popcount (getMaskOpt a 0 count) count
    some (if op = .rxor then (ones % 2 : ℕ) else ones)
  | .not => (arg op pins 0).map fun a => -a - 1
  | .getMask => do
    let a ← arg op pins 0
    let _ ← arg op pins 2
    let range ← Driven.bitRange pins
    some (getMaskOpt a range.1 range.2)
  | .setMask => do
    let a ← arg op pins 0
    let _ ← arg op pins 2
    let s ← arg op pins 4
    let range ← Driven.bitRange pins
    some (setMaskOpt a range.1 range.2 s)
  | .lt => compareBanks (fun a b => decide (a < b)) (ins op pins 0) (ins op pins 1)
  | .gt => compareBanks (fun a b => decide (a > b)) (ins op pins 0) (ins op pins 1)
  | .sext => do
    let a ← arg op pins 0
    let b ← arg op pins 1
    if ¬justI64 b ∨ b < 1 then none else some (sext a b.toNat)
  | .shl => do shlOp (← arg op pins 0) (← arg op pins 1)
  | .sra => do sraOp (← arg op pins 0) (← arg op pins 1)
  | .sum => some ((ins op pins 1).foldl (· - ·) ((ins op pins 0).foldl (· + ·) 0))
  | .ror => some ((ins op pins 0).foldl (fun v x => Cell.flag (v != 0 || x != 0)) 0)
  | .eq =>
    match ins op pins 0 with
    | [] => some 0
    | x :: xs => some (xs.foldl (fun v y => v.land (Cell.flag (x == y))) 1)
  | .and => some (foldFirst Int.land (ins op pins 0))
  | .or => some (foldFirst Int.lor (ins op pins 0))
  | .xor => some (foldFirst Int.xor (ins op pins 0))
  | .mult => some (foldFirst (· * ·) (ins op pins 0))
  | .div | .rem => none

end LiveHD.Satopt
