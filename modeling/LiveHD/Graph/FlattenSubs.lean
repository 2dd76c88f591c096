import LiveHD.Graph.Hinted
import LiveHD.Lib.Worklist

/-!
# Inlining the instances on false loops

`flatten_false_loop_subs` of `graph/split_selfref.cpp`: an instance of a definition without state
whose outputs come back to its inputs is replaced by a copy of the definition.  Names and hints are
left out.
-/

namespace LiveHD.FlattenSubs

/-- A definition: the node that the outputs lead to, the declared outputs, and the registers and
memories. -/
structure Def extends Netlist where
  out : ℕ
  outputs : List ℕ
  state : List ℕ
deriving DecidableEq

/-- The definitions, `none` for one that has no body. -/
abbrev Library := List (Option Def)

namespace Def

variable (g : Def)

/-- The nodes in the order of storage. -/
def ids : List ℕ := (List.range g.nodes.length).filter fun n => (g.kind n).isSome

/-- The nodes other than that of the outputs. -/
def inner : List ℕ := g.ids.filter (· ≠ g.out)

/-- What drives a declared output. -/
def outDriver (port : ℕ) : Option Pin := g.driver ⟨g.out, port⟩

/-- The nodes that a node reads. -/
def readNodes (n : ℕ) : List ℕ :=
  (g.sinkDrivers n).filterMap fun e =>
    match e.2 with
    | .out m _ => some m
    | _ => none

/-- An instance, a register, a memory or the node of the outputs. -/
def isBoundary (n : ℕ) : Bool :=
  match g.kind n with
  | some (.sub _) | some (.loop _) => true
  | _ => decide (n ∈ g.state) || n == g.out

/-- `on_false_loop` -/
def onFalseLoop (s : ℕ) : Bool :=
  ((Worklist.search (fun m => m != s && g.isBoundary m) (· == s)
    (fun _ m => some ((), g.readNodes m))
    (Worklist.fuel g.readNodes g.ids (g.readNodes s).reverse []) () (g.readNodes s).reverse []).map
      (·.found)).getD false

end Def

namespace Library

variable (lib : Library)

/-- `get_subnode_graph` -/
def body (callee : ℕ) : Option Def := lib[callee]?.join

/-! ## Definitions without state -/

/-- `Sub_comb_cache` -/
abbrev Cache := List (ℕ × Bool)

/-- The nodes of `sub_closure_is_comb`, with `pure` for the definitions that they are instances
of. -/
def nodesAreComb (pure : Cache → ℕ → Bool × Cache) (cg : Def) : List ℕ → Cache → Bool × Cache
  | [], cache => (true, cache)
  | n :: ns, cache =>
    if n ∈ cg.state then (false, cache)
    else match cg.kind n with
      | some (.loop _) => (false, cache)
      | some (.sub callee) =>
        match pure cache callee with
        | (true, cache) => nodesAreComb pure cg ns cache
        | (false, cache) => (false, cache)
      | _ => nodesAreComb pure cg ns cache

/-- `sub_closure_is_comb`, with `pure` as in `nodesAreComb`. -/
def closureIsComb (pure : Cache → ℕ → Bool × Cache) (callee : ℕ) (cache : Cache) : Bool × Cache :=
  match lib.body callee with
  | none => (false, cache)
  | some cg => nodesAreComb pure cg cg.ids cache

/-- `sub_is_pure_comb`: a definition counts as not pure while it is looked at. -/
def isPureComb : ℕ → Cache → ℕ → Bool × Cache
  | 0, cache, _ => (false, cache)
  | fuel + 1, cache, callee =>
    match cache.lookup callee with
    | some ok => (ok, cache)
    | none =>
      let r := lib.closureIsComb (isPureComb fuel) callee ((callee, false) :: cache)
      (r.1, (callee, r.1) :: r.2)

/-- `sub_closure_is_comb` -/
def subClosureIsComb (cache : Cache)
    (callee : ℕ) : Bool × Cache := lib.closureIsComb (lib.isPureComb (lib.length + 1)) callee cache

end Library

namespace Def

variable (g : Def)

/-! ## One instance -/

/-- Copies of the nodes, and the copy of each. -/
def createCopies (cg : Def) : List ℕ → Netlist → List (ℕ × ℕ) → Netlist × List (ℕ × ℕ)
  | [], net, nmap => (net, nmap)
  | n :: ns, net, nmap =>
    match cg.kind n with
    | none => createCopies cg ns net nmap
    | some k => createCopies cg ns (net.create k).1 ((n, (net.create k).2) :: nmap)

/-- `map_driver`, with the drivers of the instance's inputs. -/
def mapDriver (subInDrv : ℕ → Option Pin) (nmap : List (ℕ × ℕ)) : Pin → Option Pin
  | .input port => subInDrv port
  | .const v => some (.const v)
  | .out n port => (nmap.lookup n).map (.out · port)

def connectAll (net : Netlist)
    (es : List (Pin × Sink)) : Netlist := es.foldl (fun net e => net.connect e.1 e.2) net

/-- The edges between copies. -/
def innerEdges (cg : Def) (subInDrv : ℕ → Option Pin) (nmap : List (ℕ × ℕ)) : List (Pin × Sink) :=
  cg.inner.flatMap fun n => (cg.sinkDrivers n).filterMap fun e =>
    match mapDriver subInDrv nmap e.2, nmap.lookup n with
    | some gdrv, some neo => some (gdrv, ⟨neo, e.1⟩)
    | _, _ => none

/-- The sinks that an output of the instance drives. -/
def outSinks (net : Netlist) (s port : ℕ) : List Sink :=
  (net.edges.filter (·.1 == .out s port)).map (·.2)

/-- The sinks of the instance's outputs, with what drives them from now on. -/
def reconnect (cg : Def) (subInDrv : ℕ → Option Pin) (nmap : List (ℕ × ℕ)) (net : Netlist) (s : ℕ) :
    List (Pin × List Sink) :=
  cg.outputs.filterMap fun port =>
    ((cg.outDriver port).bind (mapDriver subInDrv nmap)).map (·, outSinks net s port)

/-- An instance replaced by a copy of its definition. -/
def inlineSub (cg : Def) (s : ℕ) : Def :=
  let subInDrv := fun port => g.driver ⟨s, port⟩
  let (net, nmap) := createCopies cg cg.inner g.toNetlist []
  let net := connectAll net (innerEdges cg subInDrv nmap)
  let pairs := reconnect cg subInDrv nmap net s
  { g with toNetlist := connectAll (net.delNode s) (pairs.flatMap fun r => r.2.map (r.1, ·)) }

end Def

/-! ## The rounds -/

section

variable (lib : Library)

/-- The instances of a definition that has a body. -/
def instances (g : Def) : List (ℕ × ℕ) :=
  g.ids.filterMap fun n =>
    match g.kind n with
    | some (.sub callee) => some (n, callee)
    | _ => none

/-- The instances to inline. -/
def targets (g : Def) : List (ℕ × ℕ) → Library.Cache → List ℕ × Library.Cache
  | [], cache => ([], cache)
  | (n, callee) :: rest, cache =>
    let selected := g.onFalseLoop n
    let (ok, cache) := lib.subClosureIsComb cache callee
    let (ts, cache) := targets g rest cache
    (if ok && selected then n :: ts else ts, cache)

/-- What an instance is inlined as. -/
def calleeBody (g : Def) (s : ℕ) : Option Def :=
  match g.kind s with
  | some (.sub callee) => lib.body callee
  | _ => none

/-- The inlining of a target, and the number of instances inlined. -/
def inlineTarget (r : Def × ℕ) (s : ℕ) : Def × ℕ :=
  match calleeBody lib r.1 s with
  | none => r
  | some cg => (r.1.inlineSub cg s, r.2 + 1)

def rounds : ℕ → Library.Cache → Def × ℕ → Def × ℕ
  | 0, _, r => r
  | round + 1, cache, r =>
    let (ts, cache) := targets lib r.1 (instances r.1) cache
    if ts = [] then r else rounds round cache (ts.foldl (inlineTarget lib) r)

/-- `flatten_false_loop_subs` -/
def flattenFalseLoopSubs (g : Def) : Def × ℕ := rounds lib 8 [] (g, 0)

end

end LiveHD.FlattenSubs
