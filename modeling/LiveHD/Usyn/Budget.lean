import Mathlib

/-!
# The deterministic work budget of `pass/usyn`

`Budget` (`unate.hpp`, `unate.cpp`) meters a search.  Beside the credits left it keeps a
*reproduction record*: the least initial credits under which the same run happens (`floor`) and
whether the run depended on its exact credits (`bound`).  Credits are `uint64_t`.

A client is any deterministic code over `spend`, `has`, `available`, `Work_slice` and
`Credit_share`: a tree of operations, each with a continuation for its answer.  Budgets and shares
are named by the order in which they were made (budget `0` is the root).
-/

namespace LiveHD.Usyn

/-- How a search ends. -/
inductive Status where
  | feasible | searchExhausted | unsupported | invalid
deriving DecidableEq

/-- `uint64_t` wraps. -/
def u64 (n : Nat) : Nat := n % 2 ^ 64

lemma u64_of_lt {n : Nat} (h : n < 2 ^ 64) : u64 n = n := Nat.mod_eq_of_lt h

/-- How a finished run depended on its initial credits. -/
structure CreditFloor where
  /-- Credits the run consumed. -/
  work : Nat := 0
  /-- Least initial credits under which the same run happens. -/
  floor : Nat := 0
  /-- The run depended exactly on its initial credits. -/
  bound : Bool := false
  /-- Those initial credits when bound; `0` otherwise. -/
  credits : Nat := 0
deriving DecidableEq

/-- `Credit_floor::reproduces`. -/
def CreditFloor.reproduces (f : CreditFloor) (initial : Nat) : Bool :=
  if f.bound then decide (initial = f.credits) else decide (initial ≥ f.floor)

/-- How `slice` sized a budget from its parent; `absorb` reads it. -/
structure Origin where
  consumed : Nat := 0
  remaining : Nat := 0
  cap : Nat := 2 ^ 64 - 1
  divisor : Nat := 1
  reserve : Nat := 0
deriving DecidableEq

/-- The `part` of a remainder a slice may take: `(remaining - reserve) / divisor`. -/
def part (remaining divisor reserve : Nat) : Nat :=
  if remaining > reserve then (remaining - reserve) / divisor else 0

structure Budget where
  remaining : Nat
  exhausted : Bool := false
  /-- Whether an admission callback is installed. -/
  admission : Bool := false
  checkpointWork : Nat := 0
  resourceExhausted : Bool := false
  admissionInterval : Nat := 262144
  consumed : Nat := 0
  floor : Nat := 0
  bound : Bool := false
  origin : Origin := {}
deriving DecidableEq

namespace Budget

variable (b child : Budget)

/-- Whether `spend amount` asks the admission callback. -/
def samples (amount : Nat) : Bool :=
  !b.exhausted && b.admission && (b.checkpointWork == 0 || decide (amount ≥ b.checkpointWork))

/-- The part of `spend` after the admission check. -/
def charge (amount : Nat) : Bool × Budget :=
  let b := { b with checkpointWork := b.checkpointWork - min b.checkpointWork amount }
  if amount > b.remaining then
    -- refused for lack of work: only these credits refuse here
    (false, { b with exhausted := true, bound := true })
  else
    let consumed := u64 (b.consumed + amount)
    (true, { b with
      remaining := b.remaining - amount
      consumed := consumed
      floor := max b.floor consumed })

/-- `Budget::spend`, where `granted` is what the admission callback answers if it
is asked. -/
def spend (granted : Bool) (amount : Nat) : Bool × Budget :=
  if b.exhausted then (false, b)
  else if b.samples amount then
    if granted then charge { b with checkpointWork := b.admissionInterval } amount
    else (false, { b with resourceExhausted := true, exhausted := true })
  else charge b amount

/-- `Budget::has`: both answers are recorded. -/
def has (amount : Nat) : Bool × Budget :=
  if amount > b.remaining then (false, { b with bound := true })
  else (true, { b with floor := max b.floor (u64 (b.consumed + amount)) })

/-- `Budget::available`. -/
def available (amount : Nat) : Bool × Budget :=
  if b.exhausted then (false, b) else b.has amount

/-- `Budget::slice`: a child of `min cap part` credits. -/
def slice (cap divisor reserve : Nat) : Budget where
  remaining := min cap (part b.remaining divisor reserve)
  exhausted := b.exhausted
  admission := b.admission
  checkpointWork := b.checkpointWork
  resourceExhausted := b.resourceExhausted
  admissionInterval := b.admissionInterval
  -- an inherited exhaustion is the parent's, already recorded, fact
  bound := b.exhausted
  origin := ⟨b.consumed, b.remaining, cap, divisor, reserve⟩

/-- The initial credits of the parent that keep a slice at `size` or more. -/
def need (o : Origin) (size : Nat) : Nat :=
  if size ≠ 0 then u64 (o.consumed + o.reserve + o.divisor * size) else 0

/-- The reproduction requirement of a finished child, lifted through the rule that
sized it. -/
def absorbFloor : Budget :=
  let o := child.origin
  if !child.bound then { b with floor := max b.floor (need o child.floor) }
  else if o.cap ≤ part o.remaining o.divisor o.reserve then
    { b with floor := max b.floor (need o o.cap) }
  else { b with bound := true }

/-- The work of a finished child, charged to its parent. -/
def absorbWork : Budget :=
  let b := if child.consumed > b.remaining then
    { b with exhausted := true, bound := true } else b
  let charged := min b.remaining child.consumed
  let consumed := u64 (b.consumed + charged)
  { b with
    remaining := b.remaining - charged
    consumed := consumed
    floor := max b.floor consumed
    checkpointWork := child.checkpointWork
    exhausted := b.exhausted || child.resourceExhausted
    resourceExhausted := b.resourceExhausted || child.resourceExhausted }

/-- `Budget::absorb`. -/
def absorb : Budget := (b.absorbFloor child).absorbWork child

/-- `Budget::credit_floor`. -/
def creditFloor (b : Budget) : CreditFloor :=
  ⟨b.consumed, b.floor, b.bound, if b.bound then u64 (b.consumed + b.remaining) else 0⟩

end Budget

/-- A `Credit_share`: `min cap (remaining / divisor)`, read once from a budget. -/
structure CreditShare where
  /-- The budget the share was read from. -/
  budget : Nat
  consumed : Nat
  cap : Nat
  divisor : Nat
  value : Nat
deriving DecidableEq

namespace CreditShare

/-- The `Credit_share` constructor, on budget number `h`. -/
def read (h : Nat) (b : Budget) (cap divisor : Nat) : CreditShare :=
  ⟨h, b.consumed, cap, divisor, min cap (b.remaining / divisor)⟩

variable (s : CreditShare) (b : Budget)

/-- `Credit_share::at_least`. -/
def atLeast (y : Nat) : Budget :=
  if y ≠ 0 then { b with floor := max b.floor (u64 (s.consumed + s.divisor * y)) } else b

/-- `Credit_share::at_most`. -/
def atMost (y : Nat) : Budget :=
  if s.cap > y then { b with bound := true } else b

/-- `Credit_share::exceeds`. -/
def exceeds (x : Nat) : Bool × Budget :=
  if s.value > x then (true, s.atLeast b (x + 1)) else (false, s.atMost b x)

/-- `Credit_share::clamp`. -/
def clamp (x : Nat) : Nat × Budget :=
  if s.value ≥ x then (x, s.atLeast b x) else (s.value, s.atMost (s.atLeast b s.value) s.value)

end CreditShare

/-! ## Programs over budgets -/

/-- One operation on a budget (or on a share of one). -/
inductive Op where
  | spend (h amount : Nat)
  | has (h amount : Nat)
  | available (h amount : Nat)
  /-- `Credit_share(budget, cap, divisor)`. -/
  | share (h cap divisor : Nat)
  | exceeds (s x : Nat)
  | clamp (s x : Nat)
  /-- `Work_slice(parent, cap, divisor, reserve)`. -/
  | slice (h cap divisor reserve : Nat)
  /-- The innermost live `Work_slice` goes out of scope and is absorbed. -/
  | close
deriving DecidableEq

/-- What an operation answers; the only thing a program may branch on. -/
inductive Answer where
  | none
  | flag (b : Bool)
  | credits (n : Nat)
deriving DecidableEq

/-- A deterministic program: its next operation is a function of the answers. -/
inductive Prog where
  | done
  | op (o : Op) (k : Answer → Prog)

/-- A budget with its place in the tree of slices. -/
structure Cell where
  budget : Budget
  parent : Nat := 0
deriving DecidableEq

/-- The budgets and shares a run has made so far. -/
structure World where
  cell : Nat → Cell
  /-- Number of budgets made; they are `0 .. cells - 1`. -/
  cells : Nat
  share : Nat → CreditShare
  shares : Nat
  /-- The live slices, innermost first. -/
  scope : List Nat
  /-- Admission samples taken so far. -/
  sampled : Nat

namespace World

variable (w : World)

/-- A budget is live when it is the root or a slice still in scope. -/
def live (h : Nat) : Bool := h == 0 || w.scope.contains h

/-- The budget number `h`. -/
def budget (h : Nat) : Budget := (w.cell h).budget

/-- Overwrite budget number `h`. -/
def setBudget (h : Nat) (b : Budget) : World :=
  { w with cell := Function.update w.cell h { w.cell h with budget := b } }

/-- A share can be used while the budget it refers to is live. -/
def liveShare (s : Nat) : Bool := decide (s < w.shares) && w.live (w.share s).budget

/-- `Work_slice`: a new budget, child of `h`. -/
def openSlice (h cap divisor reserve : Nat) : World :=
  { w with
    cell := Function.update w.cell w.cells ⟨(w.budget h).slice cap divisor reserve, h⟩
    cells := w.cells + 1
    scope := w.cells :: w.scope }

/-- `~Work_slice` of the innermost slice. -/
def closeSlice : World :=
  match w.scope with
  | [] => w
  | h :: scope =>
    let p := (w.cell h).parent
    { w.setBudget p ((w.budget p).absorb (w.budget h)) with scope := scope }

/-- One operation; `adm n` is the answer of the `n`-th admission sample.  A handle
that is not live names no object of the C++ program: nothing happens. -/
def step (adm : Nat → Bool) (w : World) : Op → Answer × World
  | .spend h n =>
    if w.live h then
      let r := (w.budget h).spend (adm w.sampled) n
      (.flag r.1, { w.setBudget h r.2 with
        sampled := w.sampled + if (w.budget h).samples n then 1 else 0 })
    else (.none, w)
  | .has h n =>
    if w.live h then
      let r := (w.budget h).has n
      (.flag r.1, w.setBudget h r.2)
    else (.none, w)
  | .available h n =>
    if w.live h then
      let r := (w.budget h).available n
      (.flag r.1, w.setBudget h r.2)
    else (.none, w)
  | .share h cap divisor =>
    if w.live h then
      (.none, { w with
        share := Function.update w.share w.shares (CreditShare.read h (w.budget h) cap divisor)
        shares := w.shares + 1 })
    else (.none, w)
  | .exceeds s x =>
    if w.liveShare s then
      let h := (w.share s).budget
      let r := (w.share s).exceeds (w.budget h) x
      (.flag r.1, w.setBudget h r.2)
    else (.none, w)
  | .clamp s x =>
    if w.liveShare s then
      let h := (w.share s).budget
      let r := (w.share s).clamp (w.budget h) x
      (.credits r.1, w.setBudget h r.2)
    else (.none, w)
  | .slice h cap divisor reserve =>
    if w.live h then (.none, w.openSlice h cap divisor reserve) else (.none, w)
  | .close => (.none, w.closeSlice)

/-- Close every live slice, as the end of the C++ scopes does. -/
def unwind : Nat → World → World
  | 0, w => w
  | n + 1, w => unwind n w.closeSlice

/-- Run a program to its end; the answers are the decisions it took. -/
def run (adm : Nat → Bool) : Prog → World → List Answer × World
  | .done, w => ([], unwind w.scope.length w)
  | .op o k, w =>
    let r := w.step adm o
    let rest := run adm (k r.1) r.2
    (r.1 :: rest.1, rest.2)

/-- A fresh root budget of `credits` credits. -/
def start (admission : Bool) (interval credits : Nat) : World where
  cell := fun _ =>
    ⟨{ remaining := credits, admission := admission, admissionInterval := interval }, 0⟩
  cells := 1
  share := fun _ => ⟨0, 0, 0, 1, 0⟩
  shares := 0
  scope := []
  sampled := 0

end World

/-- What a finished run leaves behind: its decisions and its root budget. -/
def Prog.outcome (p : Prog) (adm : Nat → Bool) (admission : Bool)
    (interval credits : Nat) : List Answer × Budget :=
  let r := World.run adm p (World.start admission interval credits)
  (r.1, r.2.budget 0)

end LiveHD.Usyn
