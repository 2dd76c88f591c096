import LiveHD.Sim.Graph

/-!
# Fusing parallel loops

`inou/cgen/sim_loop_fusion.cpp`: compact loops of one domain, none of which depends on another,
become one loop over a body with an instance of each member.  The members are chosen along a
topological order with one bit of ancestors for each loop.
-/

namespace LiveHD.Sim

open List

/-- A loop that is to be fused. -/
structure Member where
  id : ℕ
  callee : ℕ
  loop : SubnodeLoop
  io : GraphIo

/-- `Ports`: the ports of a member and those of the fused body they became. -/
structure Ports where
  inputs : List (ℕ × ℕ)
  outputs : List (ℕ × ℕ)
deriving DecidableEq

namespace Ports

variable (P : Ports)

/-- `ports[i].inputs.at`, the port being declared. -/
def input (p : ℕ) : ℕ := ((P.inputs.find? (·.1 == p)).map (·.2)).getD 0

def output (q : ℕ) : ℕ := ((P.outputs.find? (·.1 == q)).map (·.2)).getD 0

end Ports

namespace Member

variable (m : Member)

def isIndex (p : ℕ) : Bool := m.loop.indexInput == some p

def indexPorts : List PortDecl := m.io.inputs.filter fun d => m.isIndex d.port

/-- The inputs of its own. -/
def ownInputs : List PortDecl := m.io.inputs.filter fun d => !m.isIndex d.port

/-- How many ports of the fused body are the member's alone. -/
def size : ℕ := m.ownInputs.length + m.io.outputs.length

/-- `ports[i]`, the next free port being `next`; the index port of the fused body is its first. -/
def mapPorts (next : ℕ) : Ports where
  inputs := m.indexPorts.map (fun d => (d.port, 0)) ++ (m.ownInputs.zipIdx next).map fun x =>
    (x.1.port, x.2)
  outputs := (m.io.outputs.zipIdx (next + m.ownInputs.length)).map fun x => (x.1.port, x.2)

end Member

/-- The declaration of a member's port on the fused body. -/
def widen (x : PortDecl × ℕ) : PortDecl := ⟨x.2, max 1 x.1.bits, x.1.unsign⟩

/-! ## The fused body -/

namespace Fuse

variable (lib : Library) (g : Graph)

def members (group : List ℕ) : List Member :=
  group.filterMap fun id =>
    match g.node id with
    | some (.loop c L) => some ⟨id, c, L, lib.io c⟩
    | _ => none

variable (ms : List Member)

def hasIndex : Bool := ms.any fun m => m.loop.indexInput.isSome

def indexDecls : List PortDecl := ms.flatMap (·.indexPorts)

def indexUnsignedBits : ℕ := ((indexDecls ms).filter (·.unsign)).foldl (fun b d => max b d.bits) 1

def indexSignedBits : ℕ := ((indexDecls ms).filter (!·.unsign)).foldl (fun b d => max b d.bits) 0

def indexUnsigned : Bool := (indexDecls ms).all (·.unsign)

/-- The width of the shared index port: a signed one has a bit for the sign over every unsigned
member. -/
def indexBits : ℕ :=
  if indexUnsigned ms then indexUnsignedBits ms
    else max (indexSignedBits ms) (indexUnsignedBits ms + 1)

/-- The first port after the index. -/
def firstPort : ℕ := if hasIndex ms then 1 else 0

/-- The members with their ports. -/
def parts : ℕ → List Member → List (Member × Ports)
  | _, [] => []
  | next, m :: ms => (m, m.mapPorts next) :: parts (next + m.size) ms

def inputDecls : ℕ → List Member → List PortDecl
  | _, [] => []
  | next, m :: ms => (m.ownInputs.zipIdx next).map widen ++ inputDecls (next + m.size) ms

def outputDecls : ℕ → List Member → List PortDecl
  | _, [] => []
  | next, m :: ms => (m.io.outputs.zipIdx (next + m.ownInputs.length)).map widen ++
    outputDecls (next + m.size) ms

def fusedInputs : List PortDecl :=
  (if hasIndex ms then [⟨0, indexBits ms, indexUnsigned ms⟩] else []) ++
    inputDecls (firstPort ms) ms

/-! The ports are numbered upwards. -/

lemma port_map_widen (l : List PortDecl) (n : ℕ) :
    ((l.zipIdx n).map widen).map (·.port) = List.range' n l.length := by
  rw [map_map, ← zipIdx_map_snd n l]
  rfl

lemma le_of_mem_inputDecls {next : ℕ} {d : PortDecl}
    (h : d ∈ inputDecls next ms) : next ≤ d.port := by
  induction ms generalizing next with
  | nil => cases h
  | cons m ms ih =>
    rcases mem_append.1 h with h | h
    · have := mem_map_of_mem (f := (·.port)) h
      rw [port_map_widen, mem_range'_1] at this
      exact this.1
    · exact (Nat.le_add_right _ _).trans (ih h)

lemma le_of_mem_outputDecls {next : ℕ} {d : PortDecl}
    (h : d ∈ outputDecls next ms) : next ≤ d.port := by
  induction ms generalizing next with
  | nil => cases h
  | cons m ms ih =>
    rcases mem_append.1 h with h | h
    · have := mem_map_of_mem (f := (·.port)) h
      rw [port_map_widen, mem_range'_1] at this
      exact (Nat.le_add_right _ _).trans this.1
    · exact (Nat.le_add_right _ _).trans (ih h)

lemma nodup_append_of_le {l l' : List PortDecl} (h : (l.map (·.port)).Nodup)
    (h' : (l'.map (·.port)).Nodup) {n : ℕ}
    (hl : ∀ d ∈ l, d.port < n) (hl' : ∀ d ∈ l', n ≤ d.port) : ((l ++ l').map (·.port)).Nodup := by
  rw [map_append]
  refine nodup_append.2 ⟨h, h', fun a ha b hb => ?_⟩
  obtain ⟨d, hd, rfl⟩ := mem_map.1 ha
  obtain ⟨e, he, rfl⟩ := mem_map.1 hb
  exact ((hl d hd).trans_le (hl' e he)).ne

lemma port_lt_of_mem_widen {l : List PortDecl} {n : ℕ} {d : PortDecl}
    (h : d ∈ (l.zipIdx n).map widen) : d.port < n + l.length := by
  have := mem_map_of_mem (f := (·.port)) h
  rw [port_map_widen, mem_range'_1] at this
  exact this.2

lemma nodup_inputDecls (next : ℕ) : ((inputDecls next ms).map (·.port)).Nodup := by
  induction ms generalizing next with
  | nil => exact nodup_nil
  | cons m ms ih =>
    refine nodup_append_of_le ?_ (ih _) (n := next + m.size) (fun d hd => ?_) fun d hd =>
      le_of_mem_inputDecls ms hd
    · rw [port_map_widen]
      exact nodup_range'
    · exact (port_lt_of_mem_widen hd).trans_le (Nat.add_le_add_left (Nat.le_add_right _ _) _)

lemma nodup_outputDecls (next : ℕ) : ((outputDecls next ms).map (·.port)).Nodup := by
  induction ms generalizing next with
  | nil => exact nodup_nil
  | cons m ms ih =>
    refine nodup_append_of_le ?_ (ih _) (n := next + m.size) (fun d hd => ?_) fun d hd =>
      le_of_mem_outputDecls ms hd
    · rw [port_map_widen]
      exact nodup_range'
    · rw [Member.size, ← add_assoc]
      exact port_lt_of_mem_widen hd

lemma nodup_fusedInputs : ((fusedInputs ms).map (·.port)).Nodup := by
  rw [fusedInputs, firstPort]
  split
  · refine nodup_append_of_le (nodup_singleton _) (nodup_inputDecls ms 1) (n := 1) (fun d hd => ?_)
      fun d hd => le_of_mem_inputDecls ms hd
    rw [mem_singleton.1 hd]
    exact one_pos
  · exact nodup_inputDecls ms 0

/-- The interface of the fused body. -/
def fusedIo : GraphIo where
  inputs := fusedInputs ms
  outputs := outputDecls (firstPort ms) ms
  inputs_nodup := nodup_fusedInputs ms
  outputs_nodup := nodup_outputDecls ms _

/-- One instance of each member behind the ports of the fused body. -/
def fusedBody : Graph where
  nodes := ms.map fun m => some (.sub m.callee)
  edges := (parts (firstPort ms) ms).zipIdx.flatMap fun x =>
    x.1.2.inputs.map (fun io => (.input io.2, .node x.2 io.1)) ++ x.1.2.outputs.map fun io =>
    (.out x.2 io.1, .output io.2)
  attrs
    | .input q => (((fusedIo ms).input? q).map fun d => ⟨d.bits, d.unsign⟩).getD ⟨0, false⟩
    | .out i q =>
      match ms[i]? with
      | some m => if (m.io.output? q).isSome then g.attrs (.out m.id q) else ⟨0, false⟩
      | none => ⟨0, false⟩
    | .const _ => ⟨0, false⟩

/-- The descriptor of the front with the shared index port. -/
def descriptor : SubnodeLoop :=
  match ms.head? with
  | some m => { m.loop with indexInput := if hasIndex ms then some 0 else none }
  | none => ⟨0, 0, 0, none, none, none⟩

/-! ## The edges of a member -/

variable (f : ℕ)

/-- The pin of the fused loop `f` a member's output became. -/
def movePin (x : Member × Ports) : Pin → Pin
  | .out n q => if n = x.1.id then .out f (x.2.output q) else .out n q
  | pin => pin

def moveSink (x : Member × Ports) : Sink → Sink
  | .node n p => if n = x.1.id then .node f (x.2.input p) else .node n p
  | s => s

variable (m : Member)

/-- An external edge into the index port. -/
def indexEdge (e : Pin × Sink) : Bool :=
  match e.2 with
  | .node n p => n == m.id && !e.1.isOut m.id && m.isIndex p
  | .output _ => false

def externalEdges : List (Pin × Sink) :=
  g.edges.filter fun e => e.2.isNode m.id && !e.1.isOut m.id && !indexEdge m e

def carryEdges : List (Pin × Sink) := g.edges.filter fun e => e.2.isNode m.id && e.1.isOut m.id

def readerEdges : List (Pin × Sink) := g.edges.filter fun e => !e.2.isNode m.id && e.1.isOut m.id

/-- A member's attributes and edges, copied to the fused loop. -/
def moveMember (g : Graph) (x : Member × Ports) : Graph where
  nodes := g.nodes
  edges := g.edges ++ ((externalEdges g x.1).map (Prod.map id (moveSink f x))
    ++ (carryEdges g x.1).map (Prod.map (movePin f x) (moveSink f x))
    ++ (readerEdges g x.1).map (Prod.map (movePin f x) id))
  attrs := x.2.outputs.foldl (fun a io => Function.update a (.out f io.2) (a (.out x.1.id io.1)))
    g.attrs

/-- `fuse_group` -/
def fuseGroup (s : Library × Graph) (group : List ℕ) : Library × Graph :=
  let ms := members s.1 s.2 group
  let fused : Graph := { s.2 with nodes := s.2.nodes ++ [some (.loop s.1.length (descriptor ms))] }
  let moved := (parts (firstPort ms) ms).foldl (moveMember s.2.nodes.length) fused
  (s.1 ++ [⟨fusedIo ms, some (fusedBody s.2 ms)⟩], ms.foldl (fun g m => g.delNode m.id) moved)

end Fuse

/-! ## The choice of the groups -/

/-- The state of the traversal.  `ancestors` is the vector of words, `words` of them for each
node. -/
structure Visit where
  ready : List ℕ
  indegree : ℕ → ℕ
  ancestors : ℕ → BitVec 64
  /-- The nodes visited, of which the code keeps the number. -/
  visited : List ℕ
  loopBit : ℕ
  group : List ℕ
  groupBits : List ℕ
  groups : List (List ℕ)

namespace Fuse

variable (lib : Library) (g : Graph)

/-- The dependencies, producer and sink, by sink. -/
def deps : List (ℕ × ℕ) :=
  g.live.flatMap fun sink => g.edges.filterMap fun e =>
    match e with
    | (.out producer _, .node n _) =>
      if n = sink ∧ ¬(producer = sink ∧ (g.loop? sink).isSome) ∧ producer ∈ g.live then
        some (producer, sink) else none
    | _ => none

def successors (id : ℕ) : List ℕ := ((deps g).filter (·.1 = id)).map (·.2)

def loopCount : ℕ := (g.live.filter fun id => (g.loop? id).isSome).length

def words : ℕ := (loopCount g + 63) / 64

def eligible (id : ℕ) (L : SubnodeLoop) : Bool := L.plain && ((g.callee? id).bind lib.graph).isSome

/-- Whether the bit of a loop is set in the row of a node. -/
def testAncestor (ancestors : ℕ → BitVec 64) (id bit : ℕ) : Bool :=
  ancestors (id * words g + bit / 64) &&& (1#64 <<< (bit % 64)) != 0#64

def closeGroup (s : Visit) : Visit :=
  { s with
    groups := if 1 < s.group.length then s.groups ++ [s.group] else s.groups
    group := []
    groupBits := [] }

variable (id : ℕ) (L : SubnodeLoop) (s : Visit)

def compatible : Bool :=
  eligible lib g id L && decide (s.group.length < 8) && match s.group.head? with
    | none => true
    | some front =>
      ((g.loop? front).map L.sameDomain).getD false && s.groupBits.all fun bit =>
        !testAncestor g s.ancestors id bit

/-- A loop joins the group, or closes it and may start the next one. -/
def joinGroup : Visit :=
  let t := if compatible lib g id L s then s else closeGroup s
  if eligible lib g id L then { t with
      group := t.group ++ [id]
      groupBits := t.groupBits ++ [t.loopBit] } else t

def visitLoop : Visit :=
  let t := joinGroup lib g id L s
  let row := id * words g + t.loopBit / 64
  { t with
    ancestors := Function.update t.ancestors row (t.ancestors row ||| 1#64 <<< (t.loopBit % 64))
    loopBit := t.loopBit + 1 }

/-- A successor takes over the ancestors, and is ready once its last producer is visited. -/
def release (id : ℕ) (s : Visit) (sink : ℕ) : Visit :=
  let ancestors := (List.range (words g)).foldl
    (fun (a : ℕ → BitVec 64) word =>
      Function.update a (sink * words g + word)
        (a (sink * words g + word) ||| a (id * words g + word))) s.ancestors
  let indegree := Function.update s.indegree sink (s.indegree sink - 1)
  { s with
    ancestors := ancestors
    indegree := indegree
    ready := if indegree sink = 0 then s.ready.orderedInsert (· ≤ ·) sink else s.ready }

def visitNode (id : ℕ) (s : Visit) : Visit :=
  let s := { s with visited := s.visited ++ [id] }
  let s := match g.loop? id with
    | some L => visitLoop lib g id L s
    | none => s
  (successors g id).foldl (release g id) s

/-- Nodes are visited by the least id that is ready; `n` bounds their number. -/
def visit : ℕ → Visit → Visit
  | 0, s => s
  | n + 1, s =>
    match s.ready with
    | [] => s
    | id :: ready => visit n (visitNode lib g id { s with ready := ready })

def start : Visit where
  ready := g.live.filter fun id => (deps g).countP (·.2 = id) = 0
  indegree id := (deps g).countP (·.2 = id)
  ancestors _ := 0
  visited := []
  loopBit := 0
  group := []
  groupBits := []
  groups := []

def traversal : Visit := visit lib g g.live.length (start g)

/-- The groups to fuse. -/
def groups : List (List ℕ) :=
  if loopCount g < 2 then []
  else if (traversal lib g).visited.length ≠ g.live.length then []
  else (closeGroup (traversal lib g)).groups

/-- `fuse_parallel_loops` -/
def fuseParallelLoops : Library × Graph := (groups lib g).foldl fuseGroup (lib, g)

end Fuse

end LiveHD.Sim
