import Mathlib

/-!
# Replay of a stored counterexample

`pass/lec/cone_abc.cpp`: the inputs of a counterexample are kept as a text, one line for each frame,
and are simulated on the model of a later version.  If the property still fails, the frames up to
the failure are the witness.
-/

namespace LiveHD.Lec.Replay

abbrev Bytes := List UInt8

/-! ## Models -/

/-- `Lit_model`, the part that is simulated.  The literal `2 * v + c` is variable `v`, complemented
if `c` is set; variable `0` is the constant `0`, then there are the inputs, the registers and the
gates. -/
structure LitModel where
  pis : List Bytes
  regs : List Bytes
  next : List ℕ
  ands : List (ℕ × ℕ)
  target : ℕ := 0
  ok : ℕ := 1
  exact : Bool := false
  length_next : next.length = regs.length
  older : ∀ i a, ands[i]? = some a → a.1 / 2 < 1 + pis.length + regs.length + i ∧
    a.2 / 2 < 1 + pis.length + regs.length + i
  next_lt : ∀ l ∈ next, l / 2 < 1 + pis.length + regs.length + ands.length
  target_lt : target / 2 < 1 + pis.length + regs.length + ands.length
  ok_lt : ok / 2 < 1 + pis.length + regs.length + ands.length

def LitModel.nvars (m : LitModel) : ℕ := 1 + (m.pis.length + m.regs.length + m.ands.length)

/-! ## Traces -/

/-- A hexadecimal digit, as `std::format` writes it. -/
def hexByte (n : UInt8) : UInt8 := if n < 10 then 48 + n else 87 + n

/-- `esc_name`, byte by byte. -/
def escByte (c : UInt8) : Bytes :=
  if c ≤ 32 ∨ c = 37 ∨ 126 < c then [37, hexByte (c / 16), hexByte (c % 16)] else [c]

def escName (s : Bytes) : Bytes := s.flatMap escByte

/-- Input trace of a counterexample: for each frame, the inputs that are 1. -/
abbrev Trace := List (List Bytes)

/-- `std::getline` until the text ends. -/
def lines : Bytes → List Bytes
  | [] => []
  | c :: cs =>
    if c = 10 then [] :: lines cs
    else match lines cs with
      | [] => [[c]]
      | l :: ls => (c :: l) :: ls

/-- `std::isspace` -/
def isSpace (c : UInt8) : Bool := c = 32 ∨ 9 ≤ c ∧ c ≤ 13

/-- The tokens that `>>` reads off a line. -/
def tokens (line : Bytes) : List Bytes := (line.splitOnP isSpace).filter (· ≠ [])

def traceParse (text : Bytes) : Trace := (lines text).map tokens

/-- The text that a counterexample is kept as: `names` are the inputs that are 1, for each frame. -/
def traceText (names : List (List Bytes)) : Bytes := names.flatMap fun ns =>
    (ns.flatMap fun n => escName n ++ [32]) ++ [10]

/-! ## Simulation -/

def bit (v : List Bool) (l : ℕ) : Bool := v.getD (l / 2) false ^^ decide (l % 2 = 1)

/-- Values that are written from a position on. -/
def writeFrom (v : List Bool) (x : ℕ) : List Bool → List Bool
  | [] => v
  | b :: bs => writeFrom (v.set x b) (x + 1) bs

namespace LitModel

variable (m : LitModel)

/-- The gates, written one after the other over the values of the frame before. -/
def gates (v : List Bool) : ℕ → List (ℕ × ℕ) → List Bool
  | _, [] => v
  | x, a :: as => gates (v.set x (bit v a.1 && bit v a.2)) (x + 1) as

/-- The values of one frame. -/
def frame (v inputs st : List Bool) : List Bool :=
  LitModel.gates (writeFrom v 1 (inputs ++ st)) (1 + (inputs ++ st).length) m.ands

/-- The inputs of a frame: `0` after the end of the trace. -/
def inputs (tr : Trace) (f : ℕ) : List Bool :=
  m.pis.map fun p => match tr[f]? with
    | some ns => decide (escName p ∈ ns)
    | none => false

/-- The loop of `replay`, with `n` frames left. -/
def replayLoop (tr : Trace) (frames : ℤ) : ℕ → ℕ → List Bool → List Bool → Option ℕ → Option ℕ
  | 0, _, _, _, hit => hit
  | n + 1, f, v, st, hit =>
    let v := m.frame v (m.inputs tr f) st
    let hit := if hit = none ∧ bit v m.target = true then some f else hit
    if f = frames - 1 ∧ bit v m.ok = false then none
    else replayLoop tr frames n (f + 1) v (m.next.map (bit v)) hit

/-- `replay` -/
def replay (tr : Trace) (frames : ℤ) : Option ℕ :=
  m.replayLoop tr frames frames.toNat 0 (.replicate m.nvars false)
    (.replicate m.regs.length false) none

end LitModel

/-! ## The witness -/

/-- An input symbol whose values are reported; it has a name, and a bit vector has a bit. -/
structure Watch where
  symbol : Bytes
  width : ℕ
  named : symbol ≠ []
  pos : 0 < width

/-- `std::to_string` -/
def decimal (n : ℕ) : Bytes := (Nat.toDigits 10 n).map fun c => UInt8.ofNat c.toNat

/-- The name of a bit of a symbol. -/
def bitName (symbol : Bytes) (b : ℕ) : Bytes := symbol ++ [95, 98] ++ decimal b

structure SeqAnswer where
  frame : ℤ := -2
  exact : Bool := false
  values : List (List (List Char)) := []
  unbounded : Bool := false
  how : String := ""

/-- What `seq_bmc_one` asks for a property with a stored counterexample. -/
structure Query where
  model : LitModel
  reuse : ℕ
  always : Bool
  resetHold : ℤ
  frames : ℤ
  watch : List Watch

/-- The value of a watched input, the most significant bit first: `none` if a frame is read that the
trace does not have. -/
def cexValue (tr : Trace) (c : ℕ) (w : Watch) : Option (List Char) :=
  ((List.range w.width).mapM fun b =>
    if w.symbol = [] then some '0'
    else tr[c]?.map fun ns => if escName (bitName w.symbol b) ∈ ns then '1'
      else '0').map List.reverse

/-- The rows of the witness, for the frames up to the failure. -/
def cexValues (tr : Trace) (watch : List Watch) (f : ℕ) : Option (List (List (List Char))) :=
  (List.range (f + 1)).mapM fun c => watch.mapM (cexValue tr c)

/-- `model_bmc_clean`, `dar` being the run of bmc3. -/
def modelBmcClean (dar : LitModel → ℕ → Bool) (m : LitModel)
    (frames : ℕ) : Bool := if frames ≤ 0 then true else dar m frames

def kReuseCex : ℕ := 2

variable (dar : LitModel → ℕ → Bool) (q : Query)

/-- The frame at which the stored trace still fails, if that is known to be the first failure. -/
def cexFrame (tr : Trace) : Option ℕ :=
  match if tr = [] then none else q.model.replay tr q.frames with
  | none => none
  | some f => if (f : ℤ) ≤ (if q.always then 0 else q.resetHold) ∨
    modelBmcClean dar q.model f = true then some f else none

/-- The counterexample path of `seq_bmc_one` on the text of `cex.txt`: `none` if it reads a frame
outside of the trace, else the answer, if there is one. -/
def cexReuse (text : Bytes) : Option (Option SeqAnswer) :=
  if q.reuse &&& kReuseCex ≠ 0 ∧ q.model.exact = true then
    match cexFrame dar q (traceParse text) with
    | none => some none
    | some f => (cexValues (traceParse text) q.watch f).map fun values =>
      some { frame := f, exact := true, how := "cex", values := values }
  else some none

end LiveHD.Lec.Replay
