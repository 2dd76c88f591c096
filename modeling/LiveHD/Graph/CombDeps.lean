import LiveHD.Lib.Worklist
import LiveHD.Graph.Netlist

/-!
# Combinational dependence across the hierarchy

`comb_pin_depends_on` and `sub_output_deps` of `split_selfref.cpp`.  An ordinary instance is seen
through output by output; a rolled loop and an instance without a body are boundaries.  A port
stands for its name.
-/

namespace LiveHD.CombDeps

open Worklist

/-- What a node is to the walk: unlike in a `Netlist`, a register is told from the other cells, and
an operation is not. -/
inductive Kind where
  /-- A cell that is no register. -/
  | comb
  /-- `Flop`, `Fflop`, `Latch` and `Memory`. -/
  | register
  /-- An ordinary instance of a definition. -/
  | sub (callee : ℕ)
  /-- A rolled loop over a definition. -/
  | loop (callee : ℕ)
deriving DecidableEq

/-- A graph with its ports, the nodes by id and the edges; a sink of a cell or of an ordinary
instance has one driver, and so has an output of the graph. -/
structure Body where
  kind : ℕ → Option Kind
  edges : List (Pin × Sink)
  inputs : List ℕ
  outputs : List ℕ
  outDriver : ℕ → Option Pin

/-- A shared `Comb_dependency_cache`: the inputs that an output of a definition depends on. -/
abbrev Cache := ℕ × ℕ → Option (List ℕ)

/-- The pin is no output of an instance that the callee does not declare. -/
def Body.Declares (body : ℕ → Option Body) (b : Body) (pin : Pin) : Prop :=
  ∀ n q c b', pin = .out n q → b.kind n = some (.sub c) → body c = some b' → q ∈ b'.outputs

/-- The definitions, `none` for one without a body; the hierarchy has no cycle, and the instance
outputs that are read are declared. -/
structure Hierarchy where
  body : ℕ → Option Body
  rank : ℕ → ℕ
  acyclic : ∀ c b n d, body c = some b → b.kind n = some (.sub d) → rank d < rank c
  declared : ∀ c b, body c = some b → (∀ e ∈ b.edges, b.Declares body e.1) ∧
    ∀ q pin, b.outDriver q = some pin → b.Declares body pin

namespace Body

variable (b : Body)

/-- The sinks of a node with their drivers. -/
def into (n : ℕ) : List (ℕ × Pin) := (b.edges.filter (·.2.node == n)).map fun e => (e.2.port, e.1)

def drivers (n : ℕ) : List Pin := (b.into n).map (·.2)

/-- The nodes that read an output of `n`. -/
def readers (n : ℕ) : List ℕ := (b.edges.filter (·.1.isOut n)).map (·.2.node)

/-- The drivers of a node at the most. -/
def readsAll : Pin → List Pin
  | .out n _ => b.drivers n
  | _ => []

/-- The pins of a walk from the roots. -/
def pins (roots : List Pin) : List Pin := roots ++ b.edges.map (·.1)

/-- `is_invalid`, or `is_const`. -/
def skipConst : Pin → Bool
  | .const _ => true
  | _ => false

/-- `is_const`, or `is_graph_input_pin`. -/
def skipInput : Pin → Bool
  | .out _ _ => false
  | _ => true

end Body

/-- One item of the walk of `sub_output_deps`; `res` are the inputs reached so far. -/
def coneVisit (b : Body) (deps : Cache → ℕ → ℕ → Option (List ℕ × Cache)) (s : Cache × List ℕ) :
    Pin → Option ((Cache × List ℕ) × List Pin)
  | .input p => some ((s.1, if p ∈ b.inputs then p :: s.2 else s.2), [])
  | .const _ => some (s, [])
  | .out n q =>
    match b.kind n with
    | some .comb => some (s, b.drivers n)
    | some (.sub c) => (deps s.1 c q).map fun r =>
      ((r.2, s.2), ((b.into n).filter (·.1 ∈ r.1)).map (·.2))
    -- a rolled loop has no dependences, a register cuts the cone
    | some (.loop _) | some .register | none => some (s, [])

/-- `sub_output_deps` of an ordinary instance of `c`, with the depth of the recursion as fuel. -/
def subOutputDeps (H : Hierarchy) : ℕ → Cache → ℕ → ℕ → Option (List ℕ × Cache)
  | 0, _, _, _ => none
  | depth + 1, cache, c, q =>
    match cache (c, q) with
    | some deps => some (deps, cache)
    | none =>
      -- seeded empty before the recursion
      let cache := Function.update cache (c, q) (some [])
      match H.body c with
      | none => some ([], cache)
      | some b =>
        if q ∈ b.outputs then
          let roots := (b.outDriver q).toList
          (search Body.skipConst (fun _ => false) (coneVisit b (subOutputDeps H depth))
            (fuel b.readsAll (b.pins roots) roots [])
            (cache, []) roots []).map fun out =>
              (out.state.2, Function.update out.state.1 (c, q) (some out.state.2))
        -- an output that the callee does not declare
        else some (b.inputs, Function.update cache (c, q) (some b.inputs))

/-- The fan-out of the target at the level of the parent, each instance being a crossbar. -/
def candidates (b : Body) (target : ℕ) : Option (List ℕ) :=
  let skip n := (b.kind n).isNone || (n != target && b.kind n == some .register)
  (search skip (fun _ => false) (fun (_ : Unit) n => some ((), b.readers n))
    (fuel b.readers (target :: b.edges.map (·.2.node)) [target] []) () [target] []).map (·.seen)

/-- One item of the precise walk, inside the candidates. -/
def walkVisit (b : Body) (inside : List ℕ)
    (deps : Cache → ℕ → ℕ → Option (List ℕ × Cache)) (s : Cache) :
    Pin → Option (Cache × List Pin)
  | .out n q =>
    if n ∈ inside then
      match b.kind n with
      | some .comb => some (s, b.drivers n)
      | some (.sub c) => (deps s c q).map fun r => (r.2, ((b.into n).filter (·.1 ∈ r.1)).map (·.2))
      | some (.loop _) | some .register | none => some (s, [])
    else some (s, [])
  | _ => some (s, [])

/-- The pin is an output of the target, which is a candidate. -/
def isTarget (inside : List ℕ) (target : ℕ) : Pin → Bool
  | .out n _ => decide (n ∈ inside) && n == target
  | _ => false

/-- `comb_pin_depends_on`, the driver and the target being in the body of the definition `c`. -/
def combPinDependsOn (H : Hierarchy) (cache : Cache) (c : ℕ) (driver : Pin) (target : ℕ) :
    Option (Bool × Cache) :=
  match H.body c, driver with
  | some b, .out n _ =>
    if (b.kind target).isNone then some (false, cache)
    else (candidates b target).bind fun inside =>
      if n ∈ inside then
        (search Body.skipInput (isTarget inside target)
          (walkVisit b inside (subOutputDeps H (H.rank c)))
          (fuel b.readsAll (b.pins [driver]) [driver] []) cache [driver] []).map fun out =>
            (out.found, out.state)
      else some (false, cache)
  | _, _ => some (false, cache)

/-- A call with the shared cache, or with one of its own. -/
structure Query where
  definition : ℕ
  driver : Pin
  target : ℕ
  shared : Bool

def Query.answer (H : Hierarchy) (cache : Cache) (q : Query) : Option (Bool × Cache) :=
  if q.shared then combPinDependsOn H cache q.definition q.driver q.target
  else (combPinDependsOn H (fun _ => none) q.definition q.driver q.target).map fun r => (r.1, cache)

/-- Queries one after another over one cache. -/
def answers (H : Hierarchy) (cache : Cache) : List Query → Option (List Bool)
  | [] => some []
  | q :: qs => (q.answer H cache).bind fun r => (answers H r.2 qs).map (r.1 :: ·)

/-! ## The flattened design -/

/-- `path` is the place of an occurrence of `b` under `top`, the innermost instance first. -/
inductive At (H : Hierarchy) (top : Body) : List ℕ → Body → Prop
  | root : At H top [] top
  | inst {path : List ℕ} {b b' : Body} {n c : ℕ} (hpath : At H top path b)
      (hn : b.kind n = some (.sub c))
      (hc : H.body c = some b') : At H top (n :: path) b'

/-- One step of a combinational path in the flattened design: through a cell that is no register,
into an ordinary instance, or out of one. -/
inductive Feeds (H : Hierarchy) (top : Body) : List ℕ × Pin → List ℕ × Pin → Prop
  | cell {path : List ℕ} {b : Body} {n port q : ℕ} {x : Pin} (hpath : At H top path b)
    (hn : b.kind n = some .comb)
      (hx : (x, ⟨n, port⟩) ∈ b.edges) : Feeds H top (path, x) (path, .out n q)
  | enter {path : List ℕ} {b b' : Body} {n c port : ℕ} {x : Pin} (hpath : At H top path b)
      (hn : b.kind n = some (.sub c))
      (hc : H.body c = some b') (hx : (x, ⟨n, port⟩) ∈ b.edges) (hport : port ∈ b'.inputs) :
      Feeds H top (path, x) (n :: path, .input port)
  | leave {path : List ℕ} {b b' : Body} {n c q : ℕ} {x : Pin} (hpath : At H top path b)
      (hn : b.kind n = some (.sub c))
      (hc : H.body c = some b') (hq : q ∈ b'.outputs) (hx : b'.outDriver q = some x) :
      Feeds H top (n :: path, x) (path, .out n q)

/-- A combinational path of the flattened design leads from an output of the target to the
driver. -/
def CombPath (H : Hierarchy) (top : Body) (target : ℕ) (driver : Pin) : Prop :=
  ∃ q, Relation.ReflTransGen (Feeds H top) ([], .out target q) ([], driver)

end LiveHD.CombDeps
