import LiveHD.Graph.Fit
import LiveHD.Graph.Netlist

/-!
# Simulator graphs

The graphs of the simulator's private library: cells, instances and compact loops over
definitions, with the graph outputs as sinks and the width and the sign of every driver pin.
What a sink with several drivers holds does not depend on their order.
-/

namespace LiveHD.Sim

/-- The declarations of a definition; a port is declared once. -/
structure GraphIo where
  inputs : List PortDecl
  outputs : List PortDecl
  inputs_nodup : (inputs.map (·.port)).Nodup
  outputs_nodup : (outputs.map (·.port)).Nodup

/-- `hhds::Subnode_loop` -/
structure SubnodeLoop where
  first : ℤ
  step : ℤ
  count : ℕ
  indexInput : Option ℕ
  activationInput : Option ℕ
  nextActiveOutput : Option ℕ
deriving DecidableEq

namespace SubnodeLoop

variable (L : SubnodeLoop)

def indexAt (r : ℕ) : ℤ := L.first + r * L.step

/-- A loop of some ordinals, all of them active. -/
def plain : Bool := L.count != 0 && L.activationInput.isNone && L.nextActiveOutput.isNone

def sameDomain (M : SubnodeLoop) : Bool := L.first == M.first &&
    L.step == M.step && L.count == M.count

end SubnodeLoop

inductive Sink where
  /-- An output of the graph. -/
  | output (port : ℕ)
  | node (node port : ℕ)
deriving DecidableEq

def Sink.isNode (id : ℕ) : Sink → Bool
  | .output _ => false
  | .node n _ => n == id

inductive Node where
  /-- A cell; its operation is part of the semantics. -/
  | cell
  | sub (callee : ℕ)
  | loop (callee : ℕ) (loop : SubnodeLoop)
deriving DecidableEq

/-- The nodes by id, `none` for a deleted one, the edges, and the hints of the driver pins. -/
structure Graph where
  nodes : List (Option Node)
  edges : List (Pin × Sink)
  attrs : Pin → PinAttr

structure Definition where
  io : GraphIo
  graph : Option Graph

abbrev Library := List Definition

namespace GraphIo

def empty : GraphIo where
  inputs := []
  outputs := []
  inputs_nodup := List.nodup_nil
  outputs_nodup := List.nodup_nil

variable (io : GraphIo)

def input? (port : ℕ) : Option PortDecl := io.inputs.find? (·.port == port)

def output? (port : ℕ) : Option PortDecl := io.outputs.find? (·.port == port)

variable (raw : ℕ → ℤ) (port : ℕ)

/-- The inputs of a body behind its ports. -/
def fitInputs : ℤ := ((io.input? port).map fun d => d.fit (raw port)).getD 0

def fitOutputs : ℤ := ((io.output? port).map fun d => d.fit (raw port)).getD 0

end GraphIo

variable (lib : Library) (callee : ℕ)

/-- `get_subnode_io` -/
def Library.io : GraphIo := ((lib[callee]?).map (·.io)).getD .empty

/-- `get_subnode_graph` -/
def Library.graph : Option Graph := (lib[callee]?).bind (·.graph)

/-- What the definitions compute from the values at their ports, and what several drivers of one
sink come to.  Bodies have no state: two instances of one definition with the same inputs show the
same values. -/
structure Semantics where
  body : ℕ → (ℕ → ℤ) → ℕ → ℤ
  resolve : Multiset ℤ → ℤ
  resolve_singleton : ∀ v, resolve {v} = v

namespace Graph

variable (g : Graph)

def node (id : ℕ) : Option Node := (g.nodes[id]?).join

/-- The nodes of the body, in the order of their ids. -/
def live : List ℕ := (List.range g.nodes.length).filter fun id => (g.node id).isSome

def callee? (id : ℕ) : Option ℕ :=
  match g.node id with
  | some (.sub c) => some c
  | some (.loop c _) => some c
  | _ => none

/-- `Node_class::subnode_loop` -/
def loop? (id : ℕ) : Option SubnodeLoop :=
  match g.node id with
  | some (.loop _ L) => some L
  | _ => none

/-- The port of a pin of the node `id`. -/
def outPort? (id : ℕ) : Pin → Option ℕ
  | .out n q => if n = id then some q else none
  | _ => none

/-- The outputs a self edge carries to an input: `Subnode_group::carries`, by the input port. -/
def carriesInto (id port : ℕ) : List ℕ :=
  g.edges.filterMap fun e => if e.2 = .node id port then outPort? id e.1 else none

/-- A node depends on the producers of its sinks; the self edges of a loop are carries. -/
def Dep (m n : ℕ) : Prop := ∃ q p, (.out m q, .node n p) ∈ g.edges ∧ ¬(m = n ∧ (g.loop? n).isSome)

def delNode (id : ℕ) : Graph where
  nodes := g.nodes.set id none
  edges := g.edges.filter fun e => !e.1.isOut id && !e.2.isNode id
  attrs := g.attrs

/-! ## Values -/

section

variable (lib : Library) (sem : Semantics) (ν : Pin → ℤ)

/-- The values of the drivers of a sink. -/
def values (s : Sink) : Multiset ℤ := ((g.edges.filter (·.2 = s)).map fun e => ν e.1 : List ℤ)

/-- The values of the drivers of a loop's sink that are not the loop itself. -/
def external (id port : ℕ) : Multiset ℤ :=
  ((g.edges.filter fun e => e.2 = .node id port && !e.1.isOut id).map fun e => ν e.1 : List ℤ)

/-- What reaches the port of a loop at ordinal `r`, the carries being `carry`. -/
def portAt (id : ℕ) (L : SubnodeLoop) (r : ℕ) (carry : ℕ → ℤ) (port : ℕ) : ℤ :=
  if L.indexInput = some port then L.indexAt r
  else if (g.carriesInto id port).isEmpty then sem.resolve (g.external ν id port)
  else carry port

/-- The outputs of a loop at ordinal `r`. -/
def outputAt (id c : ℕ) (L : SubnodeLoop) (r : ℕ) (carry : ℕ → ℤ) : ℕ → ℤ :=
  (lib.io c).fitOutputs (sem.body c ((lib.io c).fitInputs (g.portAt sem ν id L r carry)))

/-- The carries before ordinal `r`: the seeds, then the outputs of the ordinal before. -/
def running (id c : ℕ) (L : SubnodeLoop) : ℕ → ℕ → ℤ
  | 0, port => sem.resolve (g.external ν id port)
  | r + 1, port =>
    sem.resolve ((g.carriesInto id port).map fun q =>
      (g.attrs (.out id q)).fit (g.outputAt lib sem ν id c L r (running id c L r) q) : List ℤ)

/-- The inputs of the body at ordinal `r`. -/
def inputsAt (id c : ℕ) (L : SubnodeLoop) (r : ℕ) : ℕ → ℤ :=
  (lib.io c).fitInputs (g.portAt sem ν id L r (g.running lib sem ν id c L r))

/-- What a plain loop leaves at its outputs: those of the last ordinal. -/
def finalAt (id c : ℕ) (L : SubnodeLoop) : ℕ → ℤ :=
  g.outputAt lib sem ν id c L (L.count - 1) (g.running lib sem ν id c L (L.count - 1))

/-- What the node `id` leaves at its outputs.  `op` is what the cells compute, with what they store,
and what the loops compute that are not plain. -/
def result (op : ℕ → (ℕ → Multiset ℤ) → ℕ → ℤ) (id : ℕ) : Node → ℕ → ℤ
  | .cell => op id fun p => g.values ν (.node id p)
  | .sub c => (lib.io c).fitOutputs
    (sem.body c ((lib.io c).fitInputs fun p => sem.resolve (g.values ν (.node id p))))
  | .loop c L => if L.plain then g.finalAt lib sem ν id c L else op id (g.external ν id)

/-- The ports of a node: a cell has any. -/
def hasOutput (port : ℕ) : Node → Prop
  | .cell => True
  | .sub c => ((lib.io c).output? port).isSome
  | .loop c _ => ((lib.io c).output? port).isSome

/-- The values of the driver pins satisfy the graph, each cut to the width of its pin. -/
structure Solves (op : ℕ → (ℕ → Multiset ℤ) → ℕ → ℤ) (ins : ℕ → ℤ) : Prop where
  input : ∀ i, ν (.input i) = (g.attrs (.input i)).fit (ins i)
  const : ∀ v, ν (.const v) = v
  out : ∀ id N, g.node id = some N → ∀ p, hasOutput lib p N →
    ν (.out id p) = (g.attrs (.out id p)).fit (g.result lib sem ν op id N p)

/-- `b` is a body of the definition `c`. -/
def Realizes (b : Graph) (c : ℕ) : Prop :=
  ∀ ins, ∃ ν op, b.Solves lib sem ν op ins ∧
    ∀ d ∈ (lib.io c).outputs, sem.body c ins d.port = sem.resolve (b.values ν (.output d.port))

end

/-- A pin of the graph. -/
def Drives (lib : Library) (pin : Pin) : Prop := ∀ n q, pin = .out n q →
    ∃ N, g.node n = some N ∧ hasOutput lib q N

/-- The definitions of the nodes exist, and the pins of the edges are those of nodes and of declared
ports. -/
structure WellFormed (lib : Library) : Prop where
  callee : ∀ id c, g.callee? id = some c → c < lib.length
  driver : ∀ e ∈ g.edges, g.Drives lib e.1
  sink : ∀ e ∈ g.edges, ∀ n p, e.2 = .node n p → (g.node n).isSome ∧ ∀ c, g.callee? n = some c →
    ((lib.io c).input? p).isSome

/-! ## Valuations that agree -/

section

variable {g} {lib : Library} {sem : Semantics} {ν ν' : Pin → ℤ} {id : ℕ}

variable (lib sem) in
lemma running_congr (h : g.external ν id = g.external ν' id) (c : ℕ) (L : SubnodeLoop) (r : ℕ) :
    g.portAt sem ν id L r = g.portAt sem ν' id L r ∧
    g.running lib sem ν id c L r = g.running lib sem ν' id c L r := by
  have hp : ∀ r, g.portAt sem ν id L r = g.portAt sem ν' id L r := by
    intro r
    funext carry p
    rw [portAt, portAt, h]
  refine ⟨hp r, ?_⟩
  induction r with
  | zero =>
    funext p
    rw [running, running, h]
  | succ r ih =>
    funext p
    rw [running, running, ih, outputAt, outputAt, hp]

/-- The result of a node depends on the drivers of its sinks, that of a loop not on itself. -/
lemma result_congr {N : Node} (hN : g.node id = some N) (op : ℕ → (ℕ → Multiset ℤ) → ℕ → ℤ)
    (h : ∀ e ∈ g.edges, e.2.isNode id = true →
      ¬(e.1.isOut id = true ∧ (g.loop? id).isSome) → ν e.1 = ν' e.1) :
    g.result lib sem ν op id N = g.result lib sem ν' op id N := by
  have hva : g.loop? id = none → ∀ p, g.values ν (.node id p) = g.values ν' (.node id p) := by
    intro hlo p
    refine congrArg _ (List.map_congr_left fun e he => ?_)
    obtain ⟨he, hs⟩ := List.mem_filter.1 he
    refine h e he (by rw [of_decide_eq_true hs]; exact beq_self_eq_true id) fun hse => ?_
    rw [hlo] at hse
    exact absurd hse.2 (by simp)
  cases N with
  | cell =>
    have hlo : g.loop? id = none := by rw [loop?, hN]
    rw [result, result, funext (hva hlo)]
  | sub c =>
    have hlo : g.loop? id = none := by rw [loop?, hN]
    rw [result, result, funext fun p => congrArg sem.resolve (hva hlo p)]
  | loop c L =>
    have hext : g.external ν id = g.external ν' id := by
      funext p
      refine congrArg _ (List.map_congr_left fun e he => ?_)
      obtain ⟨he, hc⟩ := List.mem_filter.1 he
      rw [Bool.and_eq_true, Bool.not_eq_true'] at hc
      refine h e he (by rw [of_decide_eq_true hc.1]; exact beq_self_eq_true id) fun hse => ?_
      exact Bool.false_ne_true (hc.2.symm.trans hse.1)
    have hrun := running_congr lib sem hext c L (L.count - 1)
    rw [result, result, hext, finalAt, finalAt, outputAt, outputAt, hrun.1, hrun.2]

lemma Solves.congr (hwf : g.WellFormed lib) (h : ∀ pin, g.Drives lib pin → ν pin = ν' pin)
    {op : ℕ → (ℕ → Multiset ℤ) → ℕ → ℤ} {ins : ℕ → ℤ} (hν : g.Solves lib sem ν op ins) :
    g.Solves lib sem ν' op ins where
  input i := (h (.input i) fun _ _ heq => nomatch heq).symm.trans (hν.input i)
  const v := (h (.const v) fun _ _ heq => nomatch heq).symm.trans (hν.const v)
  out id N hN p hp := by
    have hpin : g.Drives lib (.out id p) := by
      intro n q heq
      cases heq
      exact ⟨N, hN, hp⟩
    rw [← h _ hpin, hν.out id N hN p hp, result_congr hN op fun e he _ _ => h _ (hwf.driver e he)]

end

end Graph

end LiveHD.Sim
