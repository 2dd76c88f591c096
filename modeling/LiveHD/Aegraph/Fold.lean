import LiveHD.Graph.Sinks

/-!
# The constant folder

`fold_node` and `eval_op` of `aegraph.cpp`, for operands that hold known integers.  A fold is a
value, the class of an operand, or nothing: an illegal shift or a division by zero has no
value.  `payloadBits` is `Dlop::get_payload_bits`, which may overstate the bits of a value.
-/

namespace LiveHD.Aegraph

open IntBits

/-- `Eval_operand`: the sink port, its bank, the class and its analysis value. -/
structure EvalOperand (α : Type) where
  port : ℕ
  bank : ℕ
  cls : ℕ
  val : α
deriving DecidableEq

inductive Fold where
  | none
  | value (v : ℤ)
  | forward (cls : ℕ)
deriving DecidableEq

/-- `fold_value`: an invalid or nil result is no value. -/
def foldValue : Option ℤ → Fold
  | some v => .value v
  | none => .none

def findPort {α : Type} (ops : List (EvalOperand α))
    (port : ℕ) : Option (EvalOperand α) := ops.find? (·.port == port)

/-- `Dlop::shl_op` -/
def shlOp (a b : ℤ) : Option ℤ := if 0 ≤ b then some (a * 2 ^ b.toNat) else none

/-- `Dlop::sra_op`, nil for an amount of more than 62 bits. -/
def sraOp (a b : ℤ) : Option ℤ := if 0 ≤ b ∧ justI64 b then some (a / 2 ^ b.toNat) else none

/-- `Dlop::get_mask_op_opt` -/
def getMaskOpt (a : ℤ) (lo hi : ℕ) : ℤ := window a lo (hi - lo)

/-- `Dlop::set_mask_op_opt` -/
def setMaskOpt (a : ℤ) (lo hi : ℕ) (v : ℤ) : ℤ := splice a lo (hi - lo) v

/-- `window_of` -/
def windowOf (l h : ℤ) : Option (ℕ × ℕ) :=
  if justI64 l ∧ justI64 h ∧ 0 ≤ l ∧ l < h ∧ h ≤ intMax then some (l.toNat, h.toNat) else none

def isTwoArm {α : Type} (ops : List (EvalOperand α)) : Bool := ops.map (·.port) == [0, 1, 2]

/-- The `Mux` branch: equal arms, or the arm a known selector picks. -/
def foldMux (ops : List (EvalOperand (Option ℤ))) : Fold :=
  match ops with
  | [] => .none
  | sel :: arms =>
    let same : Option ℕ :=
      match arms with
      | [] => none
      | arm :: rest => if sel.port = 0 ∧ rest.all (·.cls == arm.cls) then some arm.cls else none
    match same with
    | some cls => .forward cls
    | none =>
      match (if sel.port = 0 then sel.val else none) with
      | none => .none
      | some s =>
        if isTwoArm ops then
          match findPort ops (if s = 0 then 1 else 2) with
          | some arm => .forward arm.cls
          | none => .none
        else if justI64 s ∧ 0 ≤ s then
          match findPort ops (s.toNat + 1) with
          | some arm => .forward arm.cls
          | none => .none
        else .none

/-- The pairs `(control, value)` and the default of a `Hotmux`. -/
def hotPairs {α : Type} : List (EvalOperand α) →
    List (EvalOperand α × EvalOperand α) × Option (EvalOperand α)
  | [] => ([], none)
  | [d] => ([], some d)
  | c :: v :: rest => ((c, v) :: (hotPairs rest).1, (hotPairs rest).2)

/-- The classes selected by known controls. -/
def selectedArms (pairs : List (EvalOperand (Option ℤ) × EvalOperand (Option ℤ))) : List ℕ :=
  (pairs.filter fun p => p.1.val != some 0).map (·.2.cls)

/-- The `Hotmux` branch. -/
def foldHotmux (ops : List (EvalOperand (Option ℤ))) : Fold :=
  if ops.map (·.port) ≠ List.range ops.length then .none
  else
    match hotPairs ops with
    | ([], _) => .none
    | (p :: pairs, fallback) =>
      if (p :: pairs).all (·.1.val.isSome) then
        match selectedArms (p :: pairs), fallback with
        | [cls], _ => .forward cls
        | [], some d => .forward d.cls
        | [], none => .value 0
        | _, _ => .none
      else if pairs.all (·.2.cls == p.2.cls) then
        match fallback with
        | some d => if d.cls = p.2.cls then .forward p.2.cls else .none
        | none => if p.2.val = some 0 then .forward p.2.cls else .none
      else .none

/-- The two sums of a comparison and which banks have an operand. -/
structure Sides where
  a : ℤ := 0
  b : ℤ := 0
  hasA : Bool := false
  hasB : Bool := false

def Sides.add (s : Sides) (o : EvalOperand ℤ) : Sides :=
  if o.bank ≠ 0 then { s with b := s.b + o.val, hasB := true }
    else { s with a := s.a + o.val, hasA := true }

/-- The `LT` and `GT` branch: each side is a bank that reduces by sum. -/
def foldCompare (cmp : ℤ → ℤ → Bool) (ops : List (EvalOperand ℤ)) : Fold :=
  let s := ops.foldl Sides.add {}
  if !s.hasA || !s.hasB then .none else .value (Cell.flag (cmp s.a s.b))

/-- Lanes `(value, width)` at the ports `2 i` and `2 i + 1`; a lane must fit its window. -/
def foldLanes (payloadBits : ℤ → ℕ) : ℕ → List (EvalOperand ℤ) → Option (List (ℤ × ℕ))
  | _, [] => some []
  | _, [_] => none
  | i, value :: width :: rest =>
    if value.port = 2 * i ∧ width.port = 2 * i + 1 ∧ justI64 width.val ∧
        0 < width.val ∧ width.val ≤ intMax ∧
        payloadBits value.val ≤ width.val then
      (foldLanes payloadBits (i + 1) rest).map ((value.val, width.val.toNat) :: ·)
    else none

/-- The operators that need the value of each operand. -/
def foldKnown (payloadBits : ℤ → ℕ) (op : NtypeOp) (ops : List (EvalOperand ℤ)) : Fold :=
  match op with
  | .shl =>
    match findPort ops 0, findPort ops 1 with
    | some a, some b =>
      if ops.length ≠ 2 then .none
      else if b.val = 0 then .forward a.cls
      else foldValue ((shlOp a.val b.val).map (Int.lor 0))
    | _, _ => .none
  | .sra =>
    match findPort ops 0, findPort ops 1 with
    | some a, some b =>
      if ops.length ≠ 2 ∨ b.val < 0 ∨ ¬justI64 b.val then .none
      else if b.val = 0 then .forward a.cls
      else foldValue (sraOp a.val b.val)
    | _, _ => .none
  | .ror => .value (Cell.flag (ops.any (·.val != 0)))
  | .rxor | .popcount =>
    match findPort ops 0, findPort ops 1 with
    | some a, some b =>
      if ops.length ≠ 2 ∨ ¬justI64 b.val ∨ b.val < 0 ∨ intMax < b.val then .none
      else
        let ones := Cell.popcount (getMaskOpt a.val 0 b.val.toNat) b.val.toNat
        .value (if op = .rxor then (ones % 2 : ℕ) else ones)
    | _, _ => .none
  | .setMask =>
    match findPort ops 0, findPort ops 2, findPort ops 3, findPort ops 4 with
    | some a, some lo, some hi, some v =>
      if ops.length ≠ 4 then .none
      else
        match windowOf lo.val hi.val with
        | some w => .value (setMaskOpt a.val w.1 w.2 v.val)
        | none => .none
    | _, _, _, _ => .none
  | .getMask =>
    match findPort ops 0, findPort ops 2, findPort ops 3 with
    | some a, some lo, some hi =>
      if ops.length ≠ 3 then .none
      else
        match windowOf lo.val hi.val with
        | some w => .value (getMaskOpt a.val w.1 w.2)
        | none => .none
    | _, _, _ => .none
  | .sum => .value (ops.foldl (fun r o => if o.bank = 0 then r + o.val else r - o.val) 0)
  | .or => .value (ops.foldl (fun r o => r.lor o.val) 0)
  | .and => .value (ops.foldl (fun r o => r.land o.val) (-1))
  | .xor => .value (ops.foldl (fun r o => r.xor o.val) 0)
  | .mult => .value (ops.foldl (fun r o => r * o.val) 1)
  | .eq =>
    match ops with
    | [] => .none
    | o :: rest => .value (Cell.flag (rest.all (o.val == ·.val)))
  | .lt => foldCompare (fun a b => decide (a < b)) ops
  | .gt => foldCompare (fun a b => decide (a > b)) ops
  | .div | .rem =>
    match findPort ops 0, findPort ops 1 with
    | some a, some b =>
      -- `x / 0` and `x % 0` are all unknown
      if ops.length ≠ 2 ∨ b.val = 0 then .none
      else .value (if op = .div then a.val.tdiv b.val else a.val.tmod b.val)
    | _, _ => .none
  | .not =>
    match ops with
    | [o] => .value (-o.val - 1)
    | _ => .none
  | .sext =>
    match findPort ops 0, findPort ops 1 with
    | some a, some b =>
      if ops.length ≠ 2 ∨ ¬justI64 b.val ∨ b.val < 1 ∨ 2 ^ 30 < b.val then .none
        else .value (sext a.val b.val.toNat)
    | _, _ => .none
  | .concat =>
    match foldLanes payloadBits 0 ops with
    | some lanes => .value (Cell.concat lanes)
    | none => .none
  | .mux | .hotmux => .none

/-- `fold_node`: the operands come in ascending order of their port. -/
def foldNode (payloadBits : ℤ → ℕ) (op : NtypeOp) (ops : List (EvalOperand (Option ℤ))) : Fold :=
  if ops.isEmpty then .none
  else
    match op with
    | .mux => foldMux ops
    | .hotmux => foldHotmux ops
    | op =>
      match ops.mapM fun o => o.val.map fun v => { o with val := v } with
      | some ops => foldKnown payloadBits op ops
      | none => .none

/-- The integer of a fold, given the integers of the classes. -/
def Fold.result (valueOf : ℕ → Option ℤ) : Fold → Option ℤ
  | .none => Option.none
  | .value v => some v
  | .forward cls => valueOf cls

/-- `Eval_arg` -/
structure EvalArg where
  port : ℕ
  bank : ℕ
  value : ℤ
deriving DecidableEq

/-- The arguments and their classes in ascending order of the port. -/
def scratchOperands (args : List EvalArg) : List (EvalOperand (Option ℤ)) :=
  (args.zipIdx.insertionSort (·.1.port ≤ ·.1.port)).map fun a =>
    ⟨a.1.port, a.1.bank, a.2, some a.1.value⟩

/-- `eval_op`: argument `i` is class `i` of a scratch e-graph. -/
def evalOp (payloadBits : ℤ → ℕ) (op : NtypeOp) (args : List EvalArg) : Option ℤ :=
  (foldNode payloadBits op (scratchOperands args)).result fun cls => args[cls]?.map (·.value)

end LiveHD.Aegraph
