import LiveHD.Lib.Builds

/-!
# The AND/XOR graph

`Xag` of `pass/usyn/xag.hpp`: an append-only, structurally hashed graph of AND and XOR gates over
sources, with complemented edges.  Node `0` is the constant false.
-/

namespace LiveHD.Usyn

/-- A node of a graph, possibly complemented. -/
structure Xsignal where
  id : ℕ := 0
  inverted : Bool := false
deriving DecidableEq

namespace Xsignal

/-- `operator~`. -/
def not (s : Xsignal) : Xsignal := { s with inverted := !s.inverted }

/-- `operator<=>`: by node, then by phase. -/
instance : LinearOrder Xsignal :=
  LinearOrder.lift' (fun s => toLex (s.id, s.inverted)) fun s t h => by
  obtain ⟨hid, hinv⟩ := Prod.mk.inj (congrArg ofLex h)
  cases s
  cases t
  exact congrArg₂ mk hid hinv

def value (val : ℕ → Bool) (s : Xsignal) : Bool := val s.id ^^ s.inverted

@[simp] lemma not_id (s : Xsignal) : s.not.id = s.id := rfl

@[simp] lemma value_not (val : ℕ → Bool) (s : Xsignal) : s.not.value val = !s.value val := by
  simp [value, not]

lemma eq_of_id {s t : Xsignal} (h : s.id = t.id) : t = s ∨ t = s.not := by
  obtain ⟨i, b⟩ := s
  obtain ⟨j, c⟩ := t
  obtain rfl : i = j := h
  cases b <;> cases c <;> simp [not]

end Xsignal

inductive Kind where
  | constant | source | andGate | xorGate
deriving DecidableEq

def Kind.isGate : Kind → Bool
  | .andGate | .xorGate => true
  | _ => false

/-- The operation of a gate. -/
def Kind.op : Kind → Bool → Bool → Bool
  | .andGate => and
  | .xorGate => xor
  | _ => fun _ _ => false

structure Node where
  kind : Kind := .constant
  inputs : Xsignal × Xsignal := ({}, {})
  fanouts : ℕ := 0
  level : ℕ := 0
  sourceIndex : ℕ := 0
deriving DecidableEq

/-- What a gate is hashed by. -/
structure Key where
  kind : Kind
  a : Xsignal
  b : Xsignal
deriving DecidableEq

namespace Node

def key (n : Node) : Key := ⟨n.kind, n.inputs.1, n.inputs.2⟩

/-- A node without its fanout count. -/
def core (n : Node) : Node := { n with fanouts := 0 }

/-- How many edges of a gate read a node. -/
def reads (n : Node) (id : ℕ) : ℕ :=
  if n.kind.isGate then (if n.inputs.1.id = id then 1 else 0) +
    (if n.inputs.2.id = id then 1 else 0) else 0

/-- The value of a node over the values of the nodes it reads. -/
def value (env : ℕ → Bool) (val : ℕ → Bool) (n : Node) : Bool := match n.kind with
  | .constant => false
  | .source => env n.sourceIndex
  | k => k.op (n.inputs.1.value val) (n.inputs.2.value val)

end Node

structure Xag where
  nodes : List Node := [{}]
  names : List String := []
  /-- The structural hash table. -/
  index : Key → Option ℕ := fun _ => none

inductive XagError where
  | invalidArgument
  | lengthError
deriving DecidableEq

/-- An operation on a graph; what it appended before it threw stays. -/
abbrev XagM := ExceptT XagError (StateM Xag)

/-- The largest `Id`. -/
def maxId : ℕ := 2 ^ 32 - 1

namespace Xag

variable (g : Xag)

def size : ℕ := g.nodes.length

def node (id : ℕ) : Node := g.nodes.getD id {}

def constant (value : Bool) : Xsignal := ⟨0, value⟩

/-- The graph after a source. -/
def pushSource (name : String) : Xag :=
  { g with
    nodes := g.nodes ++ [{ kind := .source, sourceIndex := g.names.length }]
    names := g.names ++ [name] }

def bump (nodes : List Node) (id : ℕ) : List Node := nodes.modify id fun n =>
    { n with fanouts := n.fanouts + 1 }

/-- The graph after a gate. -/
def pushGate (kind : Kind) (a b : Xsignal) : Xag where
  nodes := bump (bump (g.nodes ++
    [{ kind := kind, inputs := (a, b), level := 1 + max (g.node a.id).level (g.node b.id).level }])
      a.id) b.id
  names := g.names
  index := Function.update g.index ⟨kind, a, b⟩ (some g.size)

def check (s : Xsignal) : XagM Unit := do
  if (← get).size ≤ s.id then throw .invalidArgument

def input (name : String) : XagM Xsignal := do
  let g ← get
  if maxId ≤ g.size then throw .lengthError
  else do
    set (g.pushSource name)
    pure ⟨g.size, false⟩

variable (kind : Kind) (a b : Xsignal)

/-- `intern` on ordered operands. -/
def internOrdered : XagM Xsignal := do
  let g ← get
  match g.index ⟨kind, a, b⟩ with
  | some id => pure ⟨id, false⟩
  | none =>
    if maxId ≤ g.size then throw .lengthError
    else do
      set (g.pushGate kind a b)
      pure ⟨g.size, false⟩

def intern : XagM Xsignal :=
  if b < a then internOrdered kind b a else internOrdered kind a b

def land (a b : Xsignal) : XagM Xsignal := do
  check a
  check b
  if a.id = 0 then pure (if a.inverted then b else a)
  else if b.id = 0 then pure (if b.inverted then a else b)
  else if a.id = b.id then pure (if a.inverted = b.inverted then a else constant false)
  else intern .andGate a b

/-- `lxor` on uncomplemented operands that are in the graph. -/
def lxorPlain (inverted : Bool) (a b : ℕ) : XagM Xsignal :=
  if a = b then pure (constant inverted)
  else if a = 0 ∨ b = 0 then pure ⟨if a ≠ 0 then a else b, inverted⟩
  else (fun s => { s with inverted := inverted }) <$> intern .xorGate ⟨a, false⟩ ⟨b, false⟩

def lxor (a b : Xsignal) : XagM Xsignal := do
  check a
  check b
  lxorPlain (a.inverted != b.inverted) a.id b.id

def lor (a b : Xsignal) : XagM Xsignal := Xsignal.not <$> land a.not b.not

def mux (s t f : Xsignal) : XagM Xsignal := do
  check s
  check t
  check f
  if s.id = 0 then pure (if s.inverted then t else f)
  else if t = f then pure t
  else if t = f.not then lxor s f
  else if t.id = 0 then (if t.inverted then lor s f else land s.not f)
  else if f.id = 0 then (if f.inverted then lor s.not t else land s t)
  else do
    -- the XOR form keeps the datapath's XOR structure and the equality shortcut
    let d ← lxor t f
    let p ← land s d
    lxor f p

/-! ## Values -/

variable (env : ℕ → Bool)

/-- The values of nodes in order, each over the ones before it. -/
def simulate (nodes : List Node) : List Bool :=
  nodes.foldl (fun vals n => vals ++ [n.value env (vals.getD · false)]) []

def valueAt (id : ℕ) : Bool := (simulate env g.nodes).getD id false

/-- The value of a signal under an assignment of the sources. -/
def eval (s : Xsignal) : Bool := s.value (g.valueAt env)

end Xag

end LiveHD.Usyn
