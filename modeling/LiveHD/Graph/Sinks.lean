import LiveHD.Graph.Cell

/-!
# The sinks of a cell

`graph/cell.hpp` and `graph/node_util.hpp`: one driver for each sink pin, in ascending order of the
ports, and the bank of a port.  A configuration pin is read only from a constant driver.
-/

namespace LiveHD

/-- `Ntype::sink_bank_count` -/
def NtypeOp.sinkBankCount : NtypeOp → ℕ
  | .sum | .lt | .gt => 2
  | .mult | .and | .or | .xor | .ror | .eq => 1
  | _ => 0

/-- `Ntype::sink_bank`: the parity of the port, the only bank, or the port itself. -/
def NtypeOp.sinkBank (op : NtypeOp) (port : ℕ) : ℕ :=
  match op.sinkBankCount with
  | 0 => port
  | 1 => 0
  | _ => port % 2

/-- A sink and the integer its driver holds. -/
structure Driven where
  port : ℕ
  isConst : Bool
  value : ℤ
deriving DecidableEq

/-- `inp_sorted_pins` of a cell.  The odd ports of a `Concat` are the widths of its lanes. -/
structure Sinks (op : NtypeOp) where
  pins : List Driven
  ascending : pins.Pairwise (·.port < ·.port)
  widths : op = .concat → ∀ s ∈ pins, s.port % 2 = 1 → s.isConst = true

/-- `Dlop::is_just_i64`: at most 62 signed bits. -/
def justI64 (v : ℤ) : Bool := decide (-2 ^ 61 ≤ v ∧ v < 2 ^ 61)

/-- `std::numeric_limits<int>::max()` -/
def intMax : ℤ := 2 ^ 31 - 1

namespace Driven

variable (pins : List Driven)

def byPort (port : ℕ) : Option Driven := pins.find? (·.port == port)

/-- The driver of a configuration pin. -/
def constAt (port : ℕ) : Option ℤ := (byPort pins port).bind fun s =>
    if s.isConst then some s.value else none

/-- `graph_util::bit_range` -/
def bitRange : Option (ℕ × ℕ) := do
  let lo ← constAt pins 2
  let hi ← constAt pins 3
  if justI64 lo ∧ justI64 hi ∧ 0 ≤ lo ∧ lo < hi ∧ hi ≤ intMax then
    some (lo.toNat, hi.toNat) else none

/-- `graph_util::reduction_count`; `none` is the exception it throws. -/
def reductionCount : Option ℕ := do
  let count ← constAt pins 1
  if justI64 count ∧ 0 ≤ count ∧ count ≤ intMax then some count.toNat else none

/-- Lane `i` of a `Concat`: its value and its width. -/
def concatLane (i : ℕ) : Option (ℤ × ℕ) := do
  let value ← byPort pins (2 * i)
  let width ← constAt pins (2 * i + 1)
  if justI64 width ∧ 0 < width ∧ width ≤ intMax then some (value.value, width.toNat) else none

def maxPort : ℕ := pins.foldl (fun m s => max m s.port) 0

/-- `graph_util::concat_lanes`: no lanes for a malformed cell. -/
def concatLanes : List (ℤ × ℕ) :=
  if pins.isEmpty || maxPort pins % 2 == 0 then []
  else ((List.range ((maxPort pins + 1) / 2)).mapM (concatLane pins)).getD []

/-- `graph_util::hotmux_inputs`: the arms `(control, value)` and the fallback. -/
def hotmuxInputs : List Driven → List (ℤ × ℤ) × Option ℤ
  | [] => ([], none)
  | [d] => ([], some d.value)
  | c :: v :: rest => ((c.value, v.value) :: (hotmuxInputs rest).1, (hotmuxInputs rest).2)

end Driven

end LiveHD
