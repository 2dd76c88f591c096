import LiveHD.Usyn.CutTable

/-!
# LUT covering

`pass/usyn/lut_cover.cpp`: the cuts of every node with their tables, the selection of one cut for
each node that the outputs reach, and the network of the selected LUTs.  Costs decide, partly in
floating point, which cuts are kept and which one is chosen; both are parameters here.
-/

namespace LiveHD.Usyn.LutCover

open Synth Unate

/-- The limits of one domino gate. -/
structure Recipe where
  support : ℕ := 6
  literals : ℕ := 16
  series : ℕ := 4

structure CoverCost where
  dominoOverhead : ℕ := 5
  cmosFactor : ℕ := 2
  staticOverhead : ℕ := 2
  nonunatePenalty : ℕ := 2

/-- `Search_options`, less those that only steer the ranking and the rounds. -/
structure SearchOptions where
  recipe : Recipe := {}
  coverCost : CoverCost := {}
  maxNodes : ℕ := 100000
  coverCuts : ℕ := 12
  fanoutBoundary : ℕ := 0

structure FunctionCost where
  constant : Bool := false
  isAlias : Bool := false
  domino : Bool := false
  complemented : Bool := false
  cost : ℕ := 0
  form : Form := {}

/-- What the cover does not decide by the network and the options alone. -/
structure Search where
  sort : List Prime → List Prime
  sort_perm : ∀ primes, (sort primes).Perm primes
  factorLiterals : List Cube → ℕ
  /-- The credits of the store when a table is first costed; they start at a quarter of the
  64-bit range and are not used up. -/
  work : Table → Budget
  spend_work : ∀ t, ((work t).spend true 2).1 = true
  /-- The admission callback at a node. -/
  admission : ℕ → Bool
  /-- The cuts of a node that are kept, the cheapest first. -/
  keep : List (List Cut) → ℕ → List Cut → List Cut
  mem_of_mem_keep : ∀ {cuts v cand c}, c ∈ keep cuts v cand → c ∈ cand
  /-- The cut of a node that the rounds end with. -/
  best : List (List Cut) → ℕ → ℕ
  best_lt : ∀ {cuts : List (List Cut)} {v : ℕ} {kept}, cuts[v]? = some kept → kept ≠ [] →
    best cuts v < kept.length

variable (s : Search) (o : SearchOptions)

section

variable (t : TruthTable) (maxLiterals maxSeries : ℕ) (cost : Form → ℕ) (r : FunctionCost)

/-- One sign of a function, kept when its form is the cheaper one; `cost` prices a form. -/
def tryForm (best : Option FunctionCost × Budget) (sign : Bool) : Option FunctionCost × Budget :=
  let f := exactForm s.sort s.factorLiterals (if sign then t.complement else t)
    maxLiterals maxSeries true best.2
  if f.1.status = .feasible ∧ (best.1.all fun r => cost f.1 < r.cost) then
    (some { r with complemented := sign, cost := cost f.1, form := f.1 }, f.2)
  else (best.1, f.2)

/-- The cheaper form of both signs. -/
def cheaper (b : Budget) : Option FunctionCost × Budget :=
  [false, true].foldl (tryForm s t maxLiterals maxSeries cost r) (none, b)

def functionCost (t : TruthTable) (b : Budget) : FunctionCost :=
  let r : FunctionCost := { constant := t.inputs = 0, isAlias := t.inputs = 1 }
  let cost := o.coverCost
  if t.inputs ≤ 1 then
    { r with form := (exactForm s.sort s.factorLiterals t o.recipe.literals
      o.recipe.series false b).1 }
  else
    let dominos :=
      if t.inputs ≤ o.recipe.support then
        cheaper s t o.recipe.literals o.recipe.series (fun f => cost.dominoOverhead + f.factored)
          { r with domino := true } b
      else (none, b)
    match dominos with
    | (some d, _) => d
    | (none, b) =>
      (cheaper s t 4096 t.inputs (fun f => cost.nonunatePenalty *
        (cost.cmosFactor * f.factored + cost.staticOverhead)) r b).1.getD r

end

/-! ## Cuts of a network -/

inductive Class where
  | source | constant | internal
deriving DecidableEq

def classOf (n : Lnet.Node) : Class :=
  if n.kind = .source then .source else if n.fanins = [] then .constant else .internal

variable (source : Lnet)

def classAt (v : ℕ) : Class := classOf (source.node v)

def fanout (outputs : List ℕ) (v : ℕ) : ℕ :=
  (source.nodes.map fun n => n.fanins.count v).sum + outputs.count v

/-- The cuts that a fanin offers: its own, unless it is a boundary, and itself as a leaf. -/
def offered (outputs : List ℕ) (cuts : List (List Cut)) (i : ℕ) : List Cut :=
  (if o.fanoutBoundary ≠ 0 ∧ classAt source i = .internal ∧
    o.fanoutBoundary ≤ fanout source outputs i then []
  else cuts.getD i []) ++
  if classAt source i = .constant then [] else [⟨[i], varTable 0⟩]

/-- Every way to pick a cut for each fanin, the first fanin changing fastest. -/
def picks : List (List Cut) → List (List Cut)
  | [] => [[]]
  | cuts :: sets => (picks sets).flatMap fun rest => cuts.map (· :: rest)

/-- The sorted union of the leaves. -/
def unionLeaves (picked : List Cut) : List ℕ :=
  ((picked.flatMap Cut.leaves).mergeSort (· ≤ ·)).dedup

/-- The cut of a node over the picked cuts of its fanins, within the support. -/
def merge (n : Lnet.Node) (picked : List Cut) : Option Cut :=
  let u := unionLeaves picked
  if u.length ≤ o.recipe.support then
    some (reduce ⟨u, compose n.eval (picked.map (expand · u))⟩) else none

def addCandidate (cand : List Cut)
    (c : Cut) : List Cut := if cand.any (·.leaves == c.leaves) then cand else cand ++ [c]

variable (outputs : List ℕ) (cuts : List (List Cut)) (n : Lnet.Node)

def candidates : List Cut :=
  ((picks (n.fanins.map (offered o source outputs cuts))).filterMap (merge o n)).foldl
    addCandidate []

/-- One node of the enumeration. -/
def cutsAt : Except (Status × String) (List (List Cut)) :=
  let v := cuts.length
  if v % 256 = 0 ∧ s.admission v = false then
    .error (.searchExhausted, "resource budget exhausted during cut enumeration")
  else match classOf n with
    | .source => .ok (cuts ++ [[]])
    | .constant => .ok (cuts ++ [[⟨[], if n.eval 0 then kOnes else fun _ => 0⟩]])
    | .internal =>
      let kept := s.keep cuts v (candidates o source outputs cuts n)
      if kept = [] then .error (.invalid, "a node has no selectable cut") else .ok (cuts ++ [kept])

def enumerate (outputs : List ℕ) : Except (Status × String) (List (List Cut)) :=
  source.nodes.foldlM (cutsAt s o source outputs) []

/-! ## Selection -/

structure CoverLut where
  root : ℕ
  leaves : List ℕ
  table : TruthTable
  fn : FunctionCost

section

variable (cuts : List (List Cut))

def chosen (v : ℕ) : Cut := (cuts.getD v []).getD (s.best cuts v) {}

def bump (refs : ℕ → ℕ) (v : ℕ) : ℕ → ℕ :=
  if classAt source v = .internal then Function.update refs v (refs v + 1) else refs

/-- The references of the cover, from the outputs down. -/
def mark (outputs : List ℕ) : ℕ → ℕ :=
  (List.range source.size).foldr (fun v refs =>
    if classAt source v = .internal ∧ refs v ≠ 0 then
      (chosen s cuts v).leaves.foldl (bump source) refs else refs)
    (outputs.foldl (bump source) fun _ => 0)

def isLut (outputs : List ℕ) (refs : ℕ → ℕ) (v : ℕ) : Bool :=
  decide (classAt source v = .internal ∧ refs v ≠ 0) ||
    decide (v ∈ outputs ∧ classAt source v = .constant)

def lutAt (v : ℕ) : CoverLut :=
  let c := if classAt source v = .constant then (cuts.getD v []).getD 0 {} else chosen s cuts v
  let table := toTruth c.table c.leaves.length
  { root := v
    leaves := c.leaves
    table := table
    fn := functionCost s o table (s.work c.table) }

def selectLuts (outputs : List ℕ) : List CoverLut :=
  ((List.range source.size).filter (isLut source outputs (mark s source cuts outputs))).map
    (lutAt s o source cuts)

end

/-! ## The check by simulation -/

/-- A table on 64 parallel patterns, the last input first. -/
def evalTable (table : List Word) (ins : List Word) : Word :=
  ((List.range ins.length).foldr (fun j (w : ℕ → Word) m =>
    if m < 2 ^ j then (ins.getD j 0 &&& w (m + 2 ^ j)) ||| (~~~ins.getD j 0 &&& w m) else w m)
    fun m => if (table.getD (m / 64) 0).getLsbD (m % 64) then BitVec.allOnes 64 else 0) 0

/-- The next pattern and state of the generator. -/
def next (state : Word) : Word × Word :=
  let state := state + 0x9e3779b97f4a7c15#64
  let z := (state ^^^ (state >>> 30)) * 0xbf58476d1ce4e5b9#64
  let z := (z ^^^ (z >>> 27)) * 0x94d049bb133111eb#64
  (z ^^^ (z >>> 31), state)

def simulateNode (n : Lnet.Node) (run : List Word × Word) : List Word × Word :=
  if n.kind = .source then (run.1 ++ [(next run.2).1], (next run.2).2)
  else (run.1 ++ [evalTable n.table (n.fanins.map (run.1.getD · 0))], run.2)

/-- The LUTs over the values `sv` of the nodes; none at the first that differs. -/
def simulateLut (sv : List Word) (cv : ℕ → Word) (lut : CoverLut) : Option (ℕ → Word) :=
  let y := evalTable lut.table.words (lut.leaves.map cv)
  if y = sv.getD lut.root 0 then some (Function.update cv lut.root y) else none

def simulateRound (luts : List CoverLut) (run : (ℕ → Word) × Word) : Option ((ℕ → Word) × Word) :=
  let nodes := source.nodes.foldl (fun run n => simulateNode n run) ([], run.2)
  let cv := fun v => if classAt source v = .source then nodes.1.getD v 0 else run.1 v
  (luts.foldlM (simulateLut nodes.1) cv).map (·, nodes.2)

def simulates (luts : List CoverLut) : Bool :=
  ((List.range 4).foldlM (fun run _ => simulateRound source luts run) (fun _ => 0,
    0x9e3779b97f4a7c15#64)).isSome

def lutCover : Except (Status × String) (List CoverLut) :=
  match source.combinationalOutputs.mapM id with
  | none => .error (.invalid, "invalid source network (a latch input is unset)")
  | some outputs =>
    let k := o.recipe.support
    if k < 2 ∨ k > 8 ∨ o.coverCuts = 0 ∨ o.coverCuts > 64 ∨ source.size > o.maxNodes then
      .error (.unsupported, "unsupported cover options (support 2..8, cover_cuts 1..64)")
    else if source.nodes.any fun n => k < n.fanins.length then
      .error (.unsupported, "a source node has more inputs than the LUT support")
    else match enumerate s o source outputs with
      | .error e => .error e
      | .ok cuts =>
        let luts := selectLuts s o source cuts outputs
        if simulates source luts then .ok luts else .error (.invalid, "cover simulation mismatch")

/-! ## The network of a cover -/

/-- Add the node of an entry and remember its id. -/
def addEntry {ι : Type} (node : ι → ℕ) (add : Lnet → ι → Lnet) (st : Lnet × (ℕ → Option ℕ))
    (x : ι) : Lnet × (ℕ → Option ℕ) :=
  (add st.1 x, Function.update st.2 (node x) (some st.1.size))

/-- The boundary, with the sources of the source network on it. -/
def coverBoundary : Lnet × (ℕ → Option ℕ) :=
  source.latches.foldl (addEntry Lnet.Latch.q fun net l => net.addLatch l.name l.init)
    (source.inputs.foldl (addEntry Lnet.Input.node fun net i => net.addInput i.name) ({},
      fun _ => none))

/-- Whether an alias is read as an inverter. -/
def inverted (f : FunctionCost) : Bool := (f.form.cubes.map (·.ones) == [0]) != f.complemented

def addCover (st : Lnet × (ℕ → Option ℕ)) (lut : CoverLut) : Option (Lnet × (ℕ → Option ℕ)) :=
  let f := lut.fn
  if f.constant then
    some (st.1.addConstant (!f.form.cubes.isEmpty != f.complemented),
      Function.update st.2 lut.root (some st.1.size))
  else match lut.leaves.mapM st.2 with
    | none => none
    | some fanins =>
      if f.isAlias then
        if inverted f then
          some (st.1.addLut [fanins.headD 0] Lnet.kNot,
            Function.update st.2 lut.root (some st.1.size))
        else some (st.1, Function.update st.2 lut.root (some (fanins.headD 0)))
      else
        let sop : Lnet.Sop :=
          { cubes := f.form.cubes.map fun c => ⟨c.care, c.ones⟩, complemented := f.complemented }
        some ((st.1.addTable fanins lut.table.words).setSop st.1.size sop,
          Function.update st.2 lut.root (some st.1.size))

def coverNetwork (luts : List CoverLut) : Option Lnet := do
  let st ← luts.foldlM addCover (coverBoundary source)
  let outs ← source.outputs.mapM fun o => st.2 o.node
  let ds ← source.latches.mapM fun l => l.d.bind st.2
  let net := (source.outputs.zip outs).foldl (fun net o => net.addOutput o.2 o.1.name) st.1
  pure (ds.zipIdx.foldl (fun net d => net.setLatchInput d.2 d.1) net)

end LiveHD.Usyn.LutCover
