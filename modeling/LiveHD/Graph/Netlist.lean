import LiveHD.Graph.Sinks

/-!
# Netlists

A graph body: nodes that are cells, ordinary instances and compact loops, and the edges from driver
pins to sink pins.  A valuation of the driver pins `Solves` a netlist when each cell and each
ordinary instance holds the value of its operands; every other node is free.
-/

namespace LiveHD

open List

/-- A driver pin: a graph input, a constant, or an output of a node. -/
inductive Pin where
  | input (i : ℕ)
  | const (v : ℤ)
  | out (node port : ℕ)
deriving DecidableEq

structure Sink where
  node : ℕ
  port : ℕ
deriving DecidableEq

inductive Kind where
  | cell (op : NtypeOp)
  /-- An ordinary instance of a definition. -/
  | sub (callee : ℕ)
  /-- A compact loop over a definition. -/
  | loop (callee : ℕ)
  | other
deriving DecidableEq

/-- The nodes by id, `none` for a deleted one, and the edges in the order they were connected. -/
structure Netlist where
  nodes : List (Option Kind)
  edges : List (Pin × Sink)
deriving DecidableEq

def Pin.isOut (node : ℕ) : Pin → Bool
  | .out n _ => n == node
  | _ => false

namespace Netlist

variable (g : Netlist)

def kind (id : ℕ) : Option Kind := (g.nodes[id]?).join

/-- The ports and the drivers of a node's sinks, in the order they were connected. -/
def into (id : ℕ) : List (ℕ × Pin) := (g.edges.filter (·.2.node == id)).map fun e => (e.2.port, e.1)

def driver (s : Sink) : Option Pin := ((g.into s.node).find? (·.1 == s.port)).map (·.2)

/-- The drivers of a sink. -/
def drivers (s : Sink) : List Pin := (g.edges.filter (·.2 == s)).map (·.1)

def create (k : Kind) : Netlist × ℕ := ({ g with nodes := g.nodes ++ [some k] }, g.nodes.length)

def connect (d : Pin) (s : Sink) : Netlist := { g with edges := g.edges ++ [(d, s)] }

/-- A deleted node loses its edges. -/
def delNode (id : ℕ) : Netlist where
  nodes := g.nodes.set id none
  edges := g.edges.filter fun e => !e.1.isOut id && e.2.node != id

/-- The operands of a cell in the order of their ports, each with its bank. -/
def operands (op : NtypeOp) (ν : Pin → ℤ) (id : ℕ) : List (ℕ × Option ℤ) :=
  ((g.into id).insertionSort (·.1 ≤ ·.1)).map fun e => (op.sinkBank e.1, some (ν e.2))

/-- The inputs of an instance, `none` for an unconnected port. -/
def inputs (ν : Pin → ℤ) (id port : ℕ) : Option ℤ := (g.driver ⟨id, port⟩).map ν

/-- The values of the driver pins satisfy the nodes, `body` being the functions of the
definitions. -/
structure Solves (body : ℕ → (ℕ → Option ℤ) → ℕ → ℤ) (ν : Pin → ℤ) : Prop where
  const : ∀ v, ν (.const v) = v
  cell : ∀ id op, g.kind id = some (.cell op) →
    ∀ x, Cell.evalOp op (g.operands op ν id) = some x → ν (.out id 0) = x
  sub : ∀ id callee, g.kind id = some (.sub callee) →
    ∀ port, ν (.out id port) = body callee (g.inputs ν id) port

/-- Edges lead to nodes that exist. -/
def Bounded : Prop := ∀ e ∈ g.edges, e.2.node < g.nodes.length

/-! ## The operations -/

section

variable {g}

@[simp] lemma create_edges (k : Kind) : (g.create k).1.edges = g.edges := rfl

@[simp] lemma create_snd (k : Kind) : (g.create k).2 = g.nodes.length := rfl

@[simp] lemma create_length (k : Kind) : (g.create k).1.nodes.length = g.nodes.length + 1 := by
  rw [create, length_append, length_singleton]

@[simp] lemma connect_nodes (d : Pin) (s : Sink) : (g.connect d s).nodes = g.nodes := rfl

@[simp] lemma connect_edges (d : Pin) (s : Sink) :
    (g.connect d s).edges = g.edges ++ [(d, s)] := rfl

lemma kind_create_self (k : Kind) : (g.create k).1.kind g.nodes.length = some k := by
  rw [kind, create, getElem?_concat_length]
  rfl

lemma kind_create_of_lt (k : Kind) {id : ℕ} (h : id < g.nodes.length) :
    (g.create k).1.kind id = g.kind id := by
  rw [kind, create, getElem?_append_left h, kind]

@[simp] lemma kind_connect (d : Pin) (s : Sink) (id : ℕ) :
    (g.connect d s).kind id = g.kind id := rfl

@[simp] lemma into_create (k : Kind) (id : ℕ) : (g.create k).1.into id = g.into id := rfl

lemma into_connect_self (d : Pin) (s : Sink) :
    (g.connect d s).into s.node = g.into s.node ++ [(s.port, d)] := by
  rw [into, connect_edges, filter_append, map_append, ← into]
  simp

lemma into_eq_nil (h : g.Bounded) {id : ℕ} (hid : g.nodes.length ≤ id) : g.into id = [] := by
  rw [into, filter_eq_nil_iff.2, map_nil]
  intro e he heq
  exact absurd (h e he) (by rw [beq_iff_eq.1 heq]; exact not_lt.2 hid)

lemma kind_delNode_of_ne {inst id : ℕ} (h : inst ≠ id) : (g.delNode inst).kind id = g.kind id := by
  rw [kind, delNode, getElem?_set_ne h, kind]

lemma into_delNode {inst id : ℕ} (h : inst ≠ id) (hdr : ∀ e ∈ g.into id, e.2.isOut inst = false) :
    (g.delNode inst).into id = g.into id := by
  rw [into, delNode, filter_filter, into]
  refine congrArg _ (filter_congr fun e he => ?_)
  rcases hid : e.2.node == id with - | -
  · rw [Bool.false_and]
  · have hmem : (e.2.port, e.1) ∈ g.into id := mem_map_of_mem (mem_filter.2 ⟨he, hid⟩)
    have hne : (e.2.node != inst) = true := by
      rw [bne_iff_ne, beq_iff_eq.1 hid]
      exact h.symm
    rw [hdr _ hmem, hne]
    rfl

end

end Netlist

end LiveHD
