import LiveHD.Usyn.Pass
import LiveHD.Synth.Lnet

/-!
# Networks in and out of the graph

`import_lnet` and `export_lnet` (`pass/usyn/xag_lnet.cpp`).  Each table goes into the graph by
Shannon expansion over its fanins; a graph goes back as two-input tables that carry the phases of
their edges, with shared inverters.
-/

namespace LiveHD.Usyn

open Synth Pass Function List

namespace XagRegion

structure State where
  name : String
  init : Char := 'x'
  q : Xsignal := {}
  d : Xsignal := {}
deriving DecidableEq

structure Output where
  name : String
  signal : Xsignal
deriving DecidableEq

end XagRegion

/-- A graph with the logical boundary of a network; only a feasible one is returned. -/
structure XagRegion where
  graph : Xag
  inputs : List Xsignal
  state : List XagRegion.State
  outputs : List XagRegion.Output
  originalNodes : List Xsignal

/-! ## Import -/

structure Import where
  original : ℕ → Xsignal := fun _ => {}
  assigned : ℕ → Bool := fun _ => false
  inputs : List Xsignal := []
  state : List XagRegion.State := []

def Import.assign (st : Import) (id : ℕ) (s : Xsignal) : Import :=
  { st with
    original := Function.update st.original id s
    assigned := Function.update st.assigned id true }

section

variable (net : Lnet) (maxNodes : ℕ)

/-- `source`: a source node becomes an input of the graph. -/
def importSource (st : Import) (id : ℕ) (name : String) : PassM Import :=
  if id < net.size ∧ st.assigned id = false ∧ (net.node id).kind = .source then do
    let s ← onGraph (Xag.input name)
    pure (st.assign id s)
  else invalid

def importInput (st : Import) (pi : Lnet.Input) : PassM Import := do
  spend 1
  let st ← importSource net st pi.node pi.name
  pure { st with inputs := st.inputs ++ [st.original pi.node] }

def importLatch (st : Import) (latch : Lnet.Latch) : PassM Import := do
  spend 1
  let st ← importSource net st latch.q latch.name
  if latch.d.any (· < net.size) then
    pure { st with state := st.state ++ [⟨latch.name, latch.init, st.original latch.q, {}⟩] }
  else invalid

/-- What a step of the expansion asks for. -/
def admitStep : PassM Unit := do
  spend 1
  let g ← graph
  require (g.size < maxNodes)

/-- `build`: the expansion of a table from variable `v` on, `left` of them, under the values of the
ones before. -/
def shannon (original : ℕ → Xsignal) (node : Lnet.Node) : (left v assignment : ℕ) → PassM Xsignal
  | 0, _, assignment => do
    admitStep maxNodes
    pure (Xag.constant (node.eval assignment))
  | left + 1, v, assignment => do
    admitStep maxNodes
    let lo ← shannon original node left (v + 1) assignment
    let hi ← shannon original node left (v + 1) (assignment ||| 1 <<< v)
    onGraph (Xag.mux (original (node.fanins.getD v 0)) hi lo)

/-- A table, once its fanins are there. -/
def importLut (st : Import) (id : ℕ) (node : Lnet.Node) : PassM Import :=
  if ∀ i ∈ node.fanins, i < id ∧ st.assigned i = true then do
    let s ← shannon maxNodes st.original node node.fanins.length 0 0
    let g ← graph
    require (g.size ≤ maxNodes)
    pure (st.assign id s)
  else invalid

def importNode (st : Import) (id : ℕ) : PassM Import := do
  spend 1
  let g ← graph
  require (g.size ≤ maxNodes)
  match (net.node id).kind with
  | .constant => pure (st.assign id (Xag.constant ((net.node id).eval 0)))
  | .source => if st.assigned id then pure st else invalid
  | .lut => importLut maxNodes st id (net.node id)

/-- The region of an import that reached every node. -/
def importRegion (st : Import) : PassM XagRegion :=
  if ∀ po ∈ net.outputs, po.node < net.size then do
    let g ← graph
    pure {
      graph := g
      inputs := st.inputs
      state := List.zipWith (fun s l => { s with d := st.original (l.d.getD Lnet.none32) })
        st.state net.latches
      outputs := net.outputs.map fun po => ⟨po.name, st.original po.node⟩
      originalNodes := (List.range net.size).map st.original }
  else invalid

def importLnet : PassM XagRegion :=
  if maxNodes = 0 then invalid
  else if maxNodes < net.size then exhausted
  else do
    let st ← net.inputs.foldlM (importInput net) {}
    let st ← net.latches.foldlM (importLatch net) st
    let st ← (List.range' 0 net.size).foldlM (importNode net maxNodes) st
    importRegion net st

end

/-! ## Export -/

structure Export where
  net : Lnet := {}
  mapped : ℕ → Option ℕ := Function.update (fun _ => none) 0 (some Lnet.const0)
  negative : ℕ → Option ℕ := fun _ => none

section

variable (g : Xag) (maxNodes : ℕ)

/-- `source`: a source of the graph gets the node that `add` appends. -/
def exportSource (add : Lnet → Lnet) (st : Export) (s : Xsignal) : PassM Export := do
  spend 1
  require (st.net.size < maxNodes)
  if s.inverted = false ∧ s.id < g.size ∧ st.mapped s.id = none ∧ (g.node s.id).kind = .source then
    pure { st with net := add st.net, mapped := Function.update st.mapped s.id (some st.net.size) }
  else invalid

def inputName (s : Xsignal) : String := g.names.getD (g.node s.id).sourceIndex ""

def exportInput (st : Export) (pi : Xsignal) : PassM Export :=
  if pi.id < g.size ∧ (g.node pi.id).kind = .source then
    exportSource g maxNodes (·.addInput (inputName g pi)) st pi
  else invalid

def exportState (st : Export) (s : XagRegion.State) : PassM Export :=
  if s.init = '0' ∨ s.init = '1' ∨ s.init = 'x' then
    exportSource g maxNodes (·.addLatch s.name s.init) st s.q
  else invalid

/-- How many nodes are not live yet. -/
def unmarked (live : ℕ → Bool) : ℕ := (List.range g.size).countP fun i => !live i

lemma unmarked_update {g : Xag} {live : ℕ → Bool} {id : ℕ} (hid : id < g.size)
    (hlv : live id = false) :
    unmarked g (Function.update live id true) + 1 = unmarked g live := by
  have hmem := mem_range.2 hid
  obtain ⟨pre, post, hsp⟩ := append_of_mem hmem
  have hnd := hsp ▸ nodup_range
  have hne : ∀ i ∈ pre ++ post, i ≠ id := by
    intro i hi heq
    exact (nodup_cons.1 (perm_middle.nodup_iff.1 hnd)).1 (heq ▸ hi)
  have hsa : ∀ l : List ℕ, (∀ i ∈ l, i ≠ id) →
      l.countP (fun i => !Function.update live id true i) = l.countP fun i => !live i := by
    intro l hl
    refine countP_congr fun i hi => ?_
    rw [update_of_ne (hl i hi)]
  rw [unmarked, unmarked, hsp, countP_append, countP_append, countP_cons, countP_cons,
    hsa pre fun i hi => hne i (mem_append_left _ hi), hsa post fun i hi =>
    hne i (mem_append_right _ hi),
    update_self, hlv]
  rfl

/-- Mark what the nodes on a stack reach. -/
def markLive (todo : List ℕ) (live : ℕ → Bool) : PassM (ℕ → Bool) := match todo with
  | [] => pure live
  | id :: todo => do
    spend 1
    if _hid : id < g.size then
      if _hlive : live id = true then markLive todo live
      else if (g.node id).kind.isGate then
        markLive ((g.node id).inputs.2.id :: (g.node id).inputs.1.id :: todo)
          (Function.update live id true)
      else markLive todo (Function.update live id true)
    else invalid
termination_by 2 * unmarked g live + todo.length
decreasing_by
  · simp only [length_cons]
    omega
  · have h := unmarked_update _hid (Bool.eq_false_iff.2 _hlive)
    simp only [length_cons]
    omega
  · have h := unmarked_update _hid (Bool.eq_false_iff.2 _hlive)
    simp only [length_cons]
    omega

/-- The table of a gate, with the phases of its edges. -/
def gateTable (node : Node) : Word :=
  let va := if node.inputs.1.inverted then ~~~Lnet.kVar0 else Lnet.kVar0
  let var1 : Word := 0xCCCCCCCCCCCCCCCC#64
  let vb := if node.inputs.2.inverted then ~~~var1 else var1
  if node.kind = .andGate then va &&& vb else va ^^^ vb

def exportGate (live : ℕ → Bool) (st : Export) (id : ℕ) : PassM Export := do
  spend 1
  if live id = false ∨ (st.mapped id).isSome = true then pure st
  else do
    require (st.net.size < maxNodes)
    let node := g.node id
    let fanins := [(st.mapped node.inputs.1.id).getD Lnet.none32,
      (st.mapped node.inputs.2.id).getD Lnet.none32]
    pure { st with
      net := st.net.addLut fanins (gateTable node)
      mapped := Function.update st.mapped id (some st.net.size) }

/-- `output`: the node of a signal, behind a shared inverter when it is complemented. -/
def exportOutput (st : Export) (s : Xsignal) : PassM (ℕ × Export) := do
  spend 1
  if s.inverted = false then pure ((st.mapped s.id).getD Lnet.none32, st)
  else match st.negative s.id with
    | some n => pure (n, st)
    | none => do
      require (st.net.size < maxNodes)
      let net := if s.id = 0 then st.net.addConstant true
        else st.net.addLut [(st.mapped s.id).getD Lnet.none32] Lnet.kNot
      pure (st.net.size,
        { st with net := net, negative := Function.update st.negative s.id (some st.net.size) })

def exportNext (st : Export) (s : XagRegion.State × ℕ) : PassM Export := do
  let r ← exportOutput maxNodes st s.1.d
  pure { r.2 with net := r.2.net.setLatchInput s.2 r.1 }

def exportPort (st : Export) (po : XagRegion.Output) : PassM Export := do
  let r ← exportOutput maxNodes st po.signal
  pure { r.2 with net := r.2.net.addOutput r.1 po.name }

end

/-- The logic of a region, once its boundary is there. -/
def exportLogic (region : XagRegion) (maxNodes : ℕ) (st : Export) : PassM Lnet := do
  let todo := region.outputs.map (·.signal.id) ++ region.state.map (·.d.id)
  let live ← markLive region.graph todo.reverse fun _ => false
  let st ← (List.range' 1 (region.graph.size - 1)).foldlM (exportGate region.graph maxNodes live) st
  let st ← region.state.zipIdx.foldlM (exportNext maxNodes) st
  let st ← region.outputs.foldlM (exportPort maxNodes) st
  pure st.net

def exportLnet (region : XagRegion) (maxNodes : ℕ) : PassM Lnet :=
  if maxNodes = 0 then invalid
  else do
    require (region.graph.size ≤ maxNodes ∧ region.inputs.length ≤ maxNodes ∧
      region.state.length ≤ maxNodes ∧
      region.outputs.length ≤ maxNodes)
    spend region.graph.size
    let st ← region.inputs.foldlM (exportInput region.graph maxNodes) {}
    let st ← region.state.foldlM (exportState region.graph maxNodes) st
    if region.inputs.length + region.state.length = region.graph.names.length then
      exportLogic region maxNodes st
    else invalid

end LiveHD.Usyn
