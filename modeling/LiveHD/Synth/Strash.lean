import LiveHD.Synth.Lnet

/-!
# Structural hashing

`strash` of `pass/synth/lnet.cpp`: the gates of a network are folded and hashed into a
work network of ANDs and XORs with complemented edges, the live ones are copied into a new
network with the complements in their tables, and a complemented output gets an inverter.
-/

namespace LiveHD.Synth

open Lnet

namespace Strash

/-! ## The work network

A literal is `(node << 1) | complemented`; work node `0` is the constant 0, then come the
sources in order and the gates. -/

structure Gate where
  a : ℕ
  b : ℕ
  fn : Word
deriving DecidableEq

structure Work where
  gates : List Gate := []
  andNodes : ℕ → Option ℕ := fun _ => none
  xorNodes : ℕ → Option ℕ := fun _ => none

structure Options where
  /-- Keep an XOR as one gate. -/
  xorNodes : Bool := true
  /-- The answers of `admit` in the order of the calls. -/
  admission : Option (ℕ → Bool) := none

/-- `sources` of `strash`. -/
def sourceCount (raw : Lnet) : ℕ := raw.inputs.length + raw.latches.length

/-- The first work node that is a gate. -/
def firstGate (raw : Lnet) : ℕ := sourceCount raw + 1

/-- `static_cast<Lid>` -/
def lid (n : ℕ) : ℕ := n % 2 ^ 32

def zero : ℕ := 0

def one : ℕ := 1

/-- Two literals in one `uint64`. -/
def key (a b : ℕ) : ℕ := ((a <<< 32) % 2 ^ 64) ||| b

/-- The table of a gate over its nodes, the complements of the literals folded in. -/
def gateFn (a b : ℕ) (isXor : Bool) : Word :=
  (List.range 4).foldl (fun fn x =>
    let va := x.testBit 0 != a.testBit 0
    let vb := x.testBit 1 != b.testBit 0
    if (if isXor then va != vb else va && vb) then fn ||| (1#64 <<< x) else fn) 0

def Work.nodes (w : Work) (isXor : Bool) : ℕ → Option ℕ := if isXor then w.xorNodes else w.andNodes

/-- The work network with a gate more, hashed as `id`. -/
def Work.push (w : Work) (a b : ℕ) (isXor : Bool) (id : ℕ) : Work where
  gates := w.gates ++ [⟨lid (a >>> 1), lid (b >>> 1), gateFn a b isXor⟩]
  andNodes := if isXor then w.andNodes else Function.update w.andNodes (key a b) (some id)
  xorNodes := if isXor then Function.update w.xorNodes (key a b) (some id) else w.xorNodes

def gate (sources a b : ℕ) (isXor : Bool) : StateM Work ℕ := fun w =>
  match w.nodes isXor (key a b) with
  | some id => (id <<< 1, w)
  | none =>
    let id := lid (sources + 1 + w.gates.length)
    (id <<< 1, w.push a b isXor id)

/-- `and_` -/
def land (sources a b : ℕ) : StateM Work ℕ :=
  if a = zero ∨ b = zero ∨ a = b ^^^ 1 then pure zero
  else if a = one ∨ a = b then pure b
  else if b = one then pure a
  else gate sources (min a b) (max a b) false

variable (sources : ℕ) (xorNodes : Bool)

/-- `xor_` on uncomplemented literals.  The two ANDs are arguments of one call, which C++ may
evaluate in either order; here the first comes first. -/
def lxorPlain (phase a b : ℕ) : StateM Work ℕ :=
  if a = zero then pure (b ^^^ phase)
  else if b = zero then pure (a ^^^ phase)
  else if a = b then pure (zero ^^^ phase)
  else
    let lo := min a b
    let hi := max a b
    if xorNodes then (· ^^^ phase) <$> gate sources lo hi true
    else do
      let p ← land sources lo (hi ^^^ 1)
      let q ← land sources (lo ^^^ 1) hi
      let r ← land sources (p ^^^ 1) (q ^^^ 1)
      pure ((r ^^^ 1) ^^^ phase)

/-- `xor_`; the operands lose their low bits. -/
def lxor (a b : ℕ) : StateM Work ℕ :=
  lxorPlain sources xorNodes ((a ^^^ b) &&& 1) (a ^^^ (a &&& 1)) (b ^^^ (b &&& 1))

/-! ## Lowering -/

/-- The literal of a node, when it is a constant, a source or one of the four gates. -/
def lowerNode (raw : Lnet) (xorNodes : Bool) (lits : List ℕ) (n : Node) : Option (StateM Work ℕ) :=
  let sources := sourceCount raw
  let lit j := lits.getD (n.fanins.getD j 0) zero
  match n.kind with
  | .constant => some (pure (if n.fn ≠ 0 then one else zero))
  | .source => some (pure ((1 + raw.ciIndex n) <<< 1))
  | .lut =>
    if n.fanins.length = 1 ∧ n.fn = kNot then some (pure (lit 0 ^^^ 1))
    else if n.fanins.length = 2 ∧ n.fn = kAnd2 then some (land sources (lit 0) (lit 1))
    else if n.fanins.length = 2 ∧ n.fn = kOr2 then
      some ((· ^^^ 1) <$> land sources (lit 0 ^^^ 1) (lit 1 ^^^ 1))
    else if n.fanins.length = 2 ∧ n.fn = kXor2 then some (lxor sources xorNodes (lit 0) (lit 1))
    else none

def Options.refuses (options : Options) (i : ℕ) : Bool := i % 1024 == 0 &&
    options.admission.any fun admission => !admission (i / 1024)

variable (raw : Lnet) (options : Options)

def lowerStep (s : List ℕ × Work) (i : ℕ) : Option (List ℕ × Work) :=
  if options.refuses i then none
  else (lowerNode raw options.xorNodes s.1 (raw.node i)).map fun m =>
    let r := m.run s.2
    (s.1 ++ [r.1], r.2)

/-- The literals of all nodes, and the gates they need. -/
def lower : Option (List ℕ × Work) :=
  (List.range' 1 (raw.size - 1)).foldlM (lowerStep raw options) ([zero], {})

/-! ## The new network -/

variable (first : ℕ) (gates : List Gate)

def markStep (i : ℕ) (live : ℕ → Bool) : ℕ → Bool :=
  if live i then
    let g := gates.getD (i - first) ⟨0, 0, 0⟩
    Function.update (Function.update live g.a true) g.b true
  else live

/-- The work nodes that the outputs reach; the gates are visited from the last. -/
def liveNodes (outs : List ℕ) : ℕ → Bool :=
  (List.range' first gates.length).foldr (markStep first gates) fun i => outs.any (· >>> 1 == i)

/-- The new network with the gates so far, and the new id of each work node. -/
def copyStep (live : ℕ → Bool) (s : Lnet × List ℕ) (i : ℕ) : Lnet × List ℕ :=
  if live i then
    let g := gates.getD (i - first) ⟨0, 0, 0⟩
    (s.1.addLut [s.2.getD g.a none32, s.2.getD g.b none32] g.fn, s.2 ++ [s.1.size])
  else (s.1, s.2 ++ [none32])

def copyGates (raw : Lnet) (gates : List Gate) (live : ℕ → Bool) : Lnet × List ℕ :=
  (List.range' (firstGate raw) gates.length).foldl (copyStep (firstGate raw) gates live)
    (raw.boundary, List.range (firstGate raw))

/-- The new network and the inverters made so far. -/
structure Drivers where
  net : Lnet
  inverters : ℕ → Option ℕ := fun _ => none

variable (ids : List ℕ)

/-- The node of an output literal. -/
def driver (out : ℕ) : StateM Drivers ℕ := fun s =>
  let id := ids.getD (out >>> 1) none32
  if out.testBit 0 then
    match s.inverters id with
    | some inv => (inv, s)
    | none =>
      (s.net.size, ⟨s.net.addLut [id] kNot, Function.update s.inverters id (some s.net.size)⟩)
  else (id, s)

def outputStep (s : Drivers) (o : ℕ × Output) : Drivers :=
  let r := (driver ids o.1).run s
  { r.2 with net := r.2.net.addOutput r.1 o.2.name }

def latchStep (s : Drivers) (o : ℕ × ℕ) : Drivers :=
  let r := (driver ids o.1).run s
  { r.2 with net := r.2.net.setLatchInput o.2 r.1 }

/-- The literals of the combinational outputs; a latch input that was never set has none. -/
def outLits (raw : Lnet) (lits : List ℕ) : Option (List ℕ) :=
  raw.combinationalOutputs.mapM fun co : Option ℕ => co.map (lits.getD · zero)

/-- The new network, from the literals of the combinational outputs. -/
def rebuild (raw : Lnet) (gates : List Gate) (outs : List ℕ) : Lnet :=
  let (net, ids) := copyGates raw gates (liveNodes (firstGate raw) gates outs)
  let s := ((outs.take raw.outputs.length).zip raw.outputs).foldl (outputStep ids) { net := net }
  let s := ((outs.drop raw.outputs.length).zipIdx).foldl (latchStep ids) s
  s.net

end Strash

open Strash

def strash (raw : Lnet) (options : Strash.Options) : Option Lnet := do
  let s ← lower raw options
  let outs ← outLits raw s.1
  return rebuild raw s.2.gates outs

end LiveHD.Synth
