import LiveHD.Usyn.IdentityKey
import LiveHD.Usyn.XagLnet
import LiveHD.Usyn.XagRebuild

/-!
# Rebinding a selection

`rebind_selection` of `pass/usyn/artifact.cpp`: a stored selection takes the spellings of a fresh
translation of the same identity.  The record is the state of the code, so what is written before a
refusal stays.
-/

namespace LiveHD.Usyn

open ExceptT hiding pure
open Yields hiding pure throw
open Framing Synth List Writer Xag

/-- `Frozen_state` -/
structure FrozenState where
  name : String
  init : Char := 'x'
  q : Xsignal := {}
  referenceD : Xsignal := {}
  domain : UInt32
  dominoLatch : Option UInt32 := none

/-- `Endpoint_netlist`; `rest` has its cells, constraints and costs. -/
structure FrozenNetlist (κ : Type) where
  native : Xag
  inputs : List Xsignal
  outputs : List XagRegion.Output
  state : List FrozenState
  rest : κ

/-- `Logical_region`; `rest` has its endpoints and its cost. -/
structure LogicalRegion (ε : Type) where
  logic : XagRegion
  rest : ε

structure StatefulRegion (ν D S κ ε : Type) where
  selected : LogicalRegion ε
  source : SourceStateTable ν D S
  stateBits : List UInt32
  frozen : Option (FrozenNetlist κ)

/-- `Selection_record`; `rest` has its report, credit and structural work. -/
structure SelectionRecord (ν D S κ ε ρ : Type) where
  moduleName : String
  selected : StatefulRegion ν D S κ ε
  rest : ρ

/-- What is read of an imported region. -/
structure SemanticRegion where
  logic : XagRegion
  stateBits : List UInt32
  domains : List UInt32

structure Rebinding (ν D S κ ε ρ : Type) where
  work : Work
  record : SelectionRecord ν D S κ ε ρ

/-! ## Graphs under new names -/

variable (g : Xag)

/-- The names with one position respelled, and whether it differed. -/
def respellName (r : List String × Bool) (p : Xsignal × String) : StopM (List String × Bool) :=
  if g.size ≤ p.1.id ∨ (g.node p.1.id).kind ≠ .source ∨ r.1.length ≤ (g.node p.1.id).sourceIndex
    then throw (.status .invalid)
  else pure (r.1.set (g.node p.1.id).sourceIndex p.2,
    r.2 || r.1.getD (g.node p.1.id).sourceIndex "" != p.2)

section

variable (positions : List Xsignal) (spellings : List String)

/-- `renamed_graph` -/
def renamedGraph : StopM (Option Xag) := do
  let r ← (positions.zip spellings).foldlM (respellName g) (g.names, false)
  if r.2 then do
    let out ← StopM.onPass (rebuild g r.1) {}
    pure (some out.2)
  else pure none

/-- A graph with its sources respelled. -/
def Xag.respelled : Xag :=
  { g with
    names := (positions.zip spellings).foldl
      (fun names p => names.set (g.node p.1.id).sourceIndex p.2) g.names }

end

/-- The spelling of a source. -/
def spelling (s : Xsignal) : String := g.names.getD (g.node s.id).sourceIndex ""

/-- Every input and then every state source. -/
def XagRegion.positions (r : XagRegion) : List Xsignal := r.inputs ++ r.state.map (·.q)

def FrozenNetlist.positions {κ : Type}
    (n : FrozenNetlist κ) : List Xsignal := n.inputs ++ n.state.map (·.q)

/-- Outputs under the names of others. -/
def renameOutputs (outputs fresh : List XagRegion.Output) : List XagRegion.Output :=
  (outputs.zip fresh).map fun p => { p.1 with name := p.2.name }

section

variable {ν D S κ ε ρ : Type} [DecidableEq ν] [ArtifactDlop D]
  (limits : ArtifactLimits) (sizeof : Element → ℕ)

abbrev RebindM (ν D S κ ε ρ : Type) := ExceptT Stop (StateM (Rebinding ν D S κ ε ρ))

namespace Rebind

/-- Code over the budget. -/
def onWork {α : Type} (m : StopM α) : RebindM ν D S κ ε ρ α := do
  let s ← get
  set { s with work := (m.run.run s.work).2 }
  match (m.run.run s.work).1 with
  | .ok a => pure a
  | .error e => throw e

def spend : StopM Unit := do
  let w ← get
  set (w.spend 1).2
  if (w.spend 1).1 then pure () else throw (.status .searchExhausted)

/-- The bytes of a snapshot in identity form. -/
def identityBytes (s : SourceStateTable ν D S) : StopM (List UInt8) := do
  let w ← get
  let r := (Writer.identitySource limits sizeof s []).run.run { work := w }
  set r.2.work
  match r.1 with
  | .ok _ => pure r.2.bytes
  | .error e => throw (.status e.status)

/-- The fresh import; a refusal other than exhaustion is invalid. -/
def freshRegion (importRegion : Work → (Status × Option SemanticRegion) × Work) :
    StopM SemanticRegion := do
  let w ← get
  set (importRegion w).2
  match (importRegion w).1.2 with
  | some region => pure region
  | none =>
    throw (.status (if (importRegion w).1.1 = .searchExhausted then .searchExhausted else .invalid))

/-- The name and the clock domain of one state. -/
def sameState (fresh : SemanticRegion) (n : FrozenNetlist κ) (expanded : XagRegion)
    (i : ℕ) : StopM Unit := do
  spend
  if fresh.logic.state[i]?.map (·.name) ≠ n.state[i]?.map (·.name) ∨
      fresh.logic.state[i]?.map (·.name) ≠ expanded.state[i]?.map (·.name) ∨
      fresh.domains[i]? ≠ n.state[i]?.map (·.domain) then
    throw (.status .invalid)
  else pure ()

/-- Refuse under a condition. -/
def reject (p : Prop) [Decidable p] :
    RebindM ν D S κ ε ρ Unit := if p then throw (.status .invalid) else pure ()

/-- The sizes of two boundaries differ. -/
def SizesDiffer (inputs state outputs : ℕ) (logic : XagRegion) : Prop :=
  inputs ≠ logic.inputs.length ∨ state ≠ logic.state.length ∨ outputs ≠ logic.outputs.length

instance (inputs state outputs : ℕ) (logic : XagRegion) :
    Decidable (SizesDiffer inputs state outputs logic) :=
  inferInstanceAs (Decidable (_ ∨ _ ∨ _))

variable (importRegion : Work → (Status × Option SemanticRegion) × Work)

/-- The checks of a record that has a frozen netlist. -/
def checkNetlist (source : SourceStateTable ν D S) (cached : StatefulRegion ν D S κ ε)
    (netlist : FrozenNetlist κ) :
    RebindM ν D S κ ε ρ (SemanticRegion × Option Xag × Option Xag) := do
  let before ← onWork (identityBytes limits sizeof cached.source)
  let after ← onWork (identityBytes limits sizeof source)
  reject (before ≠ after)
  let fresh ← onWork (freshRegion importRegion)
  let logic := fresh.logic
  let expanded := cached.selected.logic
  reject (fresh.stateBits ≠ cached.stateBits ∨
    SizesDiffer netlist.inputs.length netlist.state.length netlist.outputs.length logic ∨
    SizesDiffer expanded.inputs.length expanded.state.length expanded.outputs.length logic)
  onWork ((List.range' 0 logic.state.length).foldlM
    (fun _ i => sameState fresh netlist expanded i) ())
  let spellings := logic.positions.map (spelling logic.graph)
  let native ← onWork (renamedGraph netlist.native netlist.positions spellings)
  let graph ← onWork (renamedGraph expanded.graph expanded.positions spellings)
  pure (fresh, native, graph)

/-- Everything that can refuse: the fresh region and the graphs that changed. -/
def checks (module : String) (source : SourceStateTable ν D S) :
    RebindM ν D S κ ε ρ (SemanticRegion × Option Xag × Option Xag) := do
  reject (limits.bytes = 0 ∨ limits.decodedBytes = 0 ∨ limits.objects = 0 ∨ limits.nodes = 0 ∨
    limits.stringBytes = 0 ∨
    limits.formulaNodes = 0)
  let s ← get
  reject (module = "")
  match s.record.selected.frozen with
  | none => throw (.status .invalid)
  | some netlist => checkNetlist limits sizeof importRegion source s.record.selected netlist

def edit (f : StatefulRegion ν D S κ ε → StatefulRegion ν D S κ ε) : RebindM ν D S κ ε ρ Unit :=
  modify fun s => { s with record := { s.record with selected := f s.record.selected } }

def editFrozen (f : FrozenNetlist κ → FrozenNetlist κ) : RebindM ν D S κ ε ρ Unit := edit fun c =>
    { c with frozen := c.frozen.map f }

def editExpanded (f : XagRegion → XagRegion) : RebindM ν D S κ ε ρ Unit :=
  edit fun c => { c with selected := { c.selected with logic := f c.selected.logic } }

/-- A graph that changed. -/
def install (g : Option Xag) (put : Xag → RebindM ν D S κ ε ρ Unit) : RebindM ν D S κ ε ρ Unit :=
  match g with
  | some g => put g
  | none => pure ()

/-- What is committed after every check. -/
def commit (module : String) (source : SourceStateTable ν D S) (fresh : SemanticRegion)
    (native graph : Option Xag) :
    RebindM ν D S κ ε ρ Unit := do
  install native fun g => editFrozen fun n => { n with native := g }
  install graph fun g => editExpanded fun r => { r with graph := g }
  editFrozen fun n => { n with outputs := renameOutputs n.outputs fresh.logic.outputs }
  editExpanded fun r => { r with outputs := renameOutputs r.outputs fresh.logic.outputs }
  edit fun c => { c with source := source }
  modify fun s => { s with record := { s.record with moduleName := module } }

end Rebind

/-- `rebind_selection`, with the record and the budget it leaves; only the import reads the raw
network.  An exception of a graph is not caught. -/
def rebindSelection (importRegion : Work → (Status × Option SemanticRegion) × Work)
    (record : SelectionRecord ν D S κ ε ρ)
    (module : String) (source : SourceStateTable ν D S) (work : Work) :
    Except XagError Status × Rebinding ν D S κ ε ρ :=
  let r := (do
    let r ← Rebind.checks limits sizeof importRegion module source
    Rebind.commit module source r.1 r.2.1 r.2.2 : RebindM ν D S κ ε ρ Unit).run.run ⟨work, record⟩
  match r.1 with
  | .ok _ => (.ok .feasible, r.2)
  | .error (.status s) => (.ok s, r.2)
  | .error (.exception e) => (.error e, r.2)

end

/-! ## What can refuse -/

/-- Graphs that the operations built. -/
def Xag.Built (g : Xag) : Prop := ∃ ops, g = runOps ops

section

variable {g : Xag} {positions : List Xsignal} {spellings : List String}

lemma onPass_ends {α : Type} {m : PassM α} {w : Work} {P : Xag → Prop}
    (h : Ends anyArena Refused m ⟨w, g⟩ fun t _ => P t.candidate) :
    Ends Yields.anyArena Refused (StopM.onPass m g) w fun _ r => P r.2 := by
  have hrun : (StopM.onPass m g).run.run w = (match (m.run.run ⟨w, g⟩).1 with
      | .ok a => .ok (a, (m.run.run ⟨w, g⟩).2.candidate)
      | .error e => .error e, (m.run.run ⟨w, g⟩).2.work) := by
    change (run (match (m.run.run ⟨w, g⟩).1 with
      | .ok a => (pure (a, (m.run.run ⟨w, g⟩).2.candidate) : StopM (α × Xag))
      | .error e => throw e)).run (m.run.run ⟨w, g⟩).2.work = _
    cases (m.run.run ⟨w, g⟩).1 <;> rfl
  refine ⟨⟨trivial, trivial, fun r hr => ?_⟩, fun e he => ?_⟩
  · rw [hrun] at hr
    cases hm : (m.run.run ⟨w, g⟩).1 with
    | ok a =>
      rw [hm] at hr
      cases hr
      exact h.builds.2.2 a hm
    | error e =>
      rw [hm] at hr
      cases hr
  · rw [hrun] at he
    cases hm : (m.run.run ⟨w, g⟩).1 with
    | ok a =>
      rw [hm] at he
      cases he
    | error e' =>
      rw [hm] at he
      cases he
      exact h.stops _ hm

/-- `renamed_graph` gives the respelled graph, or nothing when that is the graph itself. -/
lemma renamedGraph_ends (hg : g.Built) (w : Work) :
    Ends anyArena Refused (renamedGraph g positions spellings) w fun _ r =>
    r.getD g = g.respelled positions spellings := by
  have hwf := hg.choose_spec ▸ Xag.wf_runOps _
  have hti := hg.choose_spec ▸ tidy_runOps _
  have hns := Ends.foldlM (A := anyArena) (E := Refused) (f := respellName g)
    (s := w) (b := (g.names, false))
    (Q := fun pre _ r => r.1 = pre.foldl
      (fun names p => names.set (g.node p.1.id).sourceIndex p.2) g.names ∧
      r.1.length = g.names.length ∧ (r.2 = false → r.1 = g.names)) [] (positions.zip spellings)
      trivial ⟨rfl, rfl, fun _ => rfl⟩
    fun pre p post _ t r _ _ hr => by
      refine Ends.ite (fun _ => Ends.throw trivial ⟨_, rfl, nofun⟩) fun hp =>
        Ends.pure trivial ⟨?_, ?_, fun hsa => ?_⟩
      · rw [foldl_append, ← hr.1]
        rfl
      · rw [length_set, hr.2.1]
      · obtain ⟨hold, heq⟩ := Bool.or_eq_false_iff.1 hsa
        have hidx := not_le.1 (not_or.1 (not_or.1 hp).2).2
        rw [bne_eq_false_iff_eq, getD_eq_getElem _ _ hidx] at heq
        rw [← heq, set_getElem_self, hr.2.2 hold]
  refine hns.bind fun t r _ _ hr => Ends.ite (fun hch => ?_) fun hch => Ends.pure trivial ?_
  · refine (onPass_ends (P := fun h => h = { g with names := r.1 })
      (rebuild_ends hwf hti hr.2.1 t)).bind fun u out _ _ hout => Ends.pure trivial ?_
    rw [hout, hr.1]
    rfl
  · change g = g.respelled positions spellings
    have hsa := hr.2.2 (Bool.eq_false_iff.2 hch)
    rw [hr.1, nil_append] at hsa
    rw [respelled, hsa]

lemma spend_stop (w : Work) : Ends anyArena Refused Rebind.spend w fun _ _ => True := by
  have hrun : Rebind.spend.run.run w =
      (if (w.spend 1).1 then .ok () else .error (.status .searchExhausted), (w.spend 1).2) := by
    change (run (if (w.spend 1).1 = true then pure ()
      else throw (.status .searchExhausted) : StopM Unit)).run
      (w.spend 1).2 = _
    split <;> rfl
  refine ⟨⟨trivial, trivial, fun _ _ => trivial⟩, fun e he => ?_⟩
  rw [hrun] at he
  split at he
  · cases he
  · cases he
    exact ⟨_, rfl, nofun⟩

end

section

variable {ν D S κ ε ρ : Type}

lemma freshRegion_ends (importRegion : Work → (Status × Option SemanticRegion) × Work) (w : Work) :
    Ends anyArena Refused (Rebind.freshRegion importRegion) w fun _ r =>
    ∃ w, (importRegion w).1.2 = some r := by
  have hrun : (Rebind.freshRegion importRegion).run.run w = (match (importRegion w).1.2 with
      | some region => .ok region
      | none => .error (.status (if (importRegion w).1.1 = .searchExhausted then .searchExhausted
        else .invalid)),
      (importRegion w).2) := by
    change (run (match (importRegion w).1.2 with
      | some region => (pure region : StopM SemanticRegion)
      | none => throw (.status (if (importRegion w).1.1 = .searchExhausted then .searchExhausted
        else .invalid)))).run
        (importRegion w).2 = _
    cases (importRegion w).1.2 <;> rfl
  cases hre : (importRegion w).1.2 with
  | some region =>
    rw [hre] at hrun
    refine ⟨⟨trivial, trivial, fun r hr => ?_⟩, fun e he => ?_⟩
    · rw [hrun] at hr
      cases hr
      exact ⟨w, hre⟩
    · rw [hrun] at he
      cases he
  | none =>
    rw [hre] at hrun
    refine ⟨⟨trivial, trivial, fun r hr => ?_⟩, fun e he => ?_⟩
    · rw [hrun] at hr
      cases hr
    · rw [hrun] at he
      cases he
      refine ⟨_, rfl, ?_⟩
      split <;> nofun

lemma sameState_ends (fresh : SemanticRegion) (n : FrozenNetlist κ)
    (expanded : XagRegion) (i : ℕ) (w : Work) :
    Ends anyArena Refused (Rebind.sameState fresh n expanded i) w fun _ _ => True :=
  (spend_stop w).bind fun _ _ _ _ _ =>
    .ite (fun _ => .throw trivial ⟨_, rfl, nofun⟩) fun _ => .pure trivial trivial

/-- The record stays as it is. -/
def keeps (r : SelectionRecord ν D S κ ε ρ) : Arena (Rebinding ν D S κ ε ρ) where
  inv s := s.record = r
  le _ _ := True
  refl _ := trivial
  trans _ _ := trivial

variable {r : SelectionRecord ν D S κ ε ρ} {s : Rebinding ν D S κ ε ρ}

lemma onWork_ends {α : Type} {m : StopM α} {P : α → Prop} (hs : s.record = r)
    (h : Ends anyArena Refused m s.work fun _ a => P a) :
    Ends (keeps r) Refused (Rebind.onWork m) s fun _ a => P a := by
  have hrun : (Rebind.onWork m).run.run s =
      ((m.run.run s.work).1, { s with work := (m.run.run s.work).2 }) := by
    change (run (match (m.run.run s.work).1 with
      | .ok a => (pure a : RebindM ν D S κ ε ρ α)
      | .error e => throw e)).run { s with work := (m.run.run s.work).2 } = _
    cases (m.run.run s.work).1 <;> rfl
  refine ⟨⟨?_, trivial, fun a ha => ?_⟩, fun e he => ?_⟩
  · rwa [hrun]
  · rw [hrun] at ha
    exact h.builds.2.2 a ha
  · rw [hrun] at he
    exact h.stops e he

lemma reject_ends {p : Prop} [Decidable p] (hs : s.record = r) :
    Ends (keeps r) Refused (Rebind.reject p) s fun _ _ => ¬p :=
  Ends.ite (fun _ => .throw hs ⟨_, rfl, nofun⟩) fun hp => .pure hs hp

/-- The record that a feasible rebind leaves. -/
def rebound (r : SelectionRecord ν D S κ ε ρ) (n : FrozenNetlist κ)
    (fresh : SemanticRegion) (module : String)
    (source : SourceStateTable ν D S) : SelectionRecord ν D S κ ε ρ :=
  let spellings := fresh.logic.positions.map (spelling fresh.logic.graph)
  let expanded := r.selected.selected.logic
  { r with
    moduleName := module
    selected := { r.selected with
      source := source
      frozen := some { n with
        native := n.native.respelled n.positions spellings
        outputs := renameOutputs n.outputs fresh.logic.outputs }
      selected := { r.selected.selected with
        logic := { expanded with
          graph := expanded.graph.respelled expanded.positions spellings
          outputs := renameOutputs expanded.outputs fresh.logic.outputs } } } }

lemma commit_run (module : String) (source : SourceStateTable ν D S) (fresh : SemanticRegion)
    {native graph : Option Xag}
    {n : FrozenNetlist κ} (hn : s.record.selected.frozen = some n)
    (hna : native.getD n.native = n.native.respelled n.positions
      (fresh.logic.positions.map (spelling fresh.logic.graph)))
    (hgr : graph.getD s.record.selected.selected.logic.graph =
      s.record.selected.selected.logic.graph.respelled
      s.record.selected.selected.logic.positions
        (fresh.logic.positions.map (spelling fresh.logic.graph))) :
    (Rebind.commit module source fresh native graph).run.run s =
      (.ok (), { s with record := rebound s.record n fresh module source }) := by
  obtain ⟨work, name, ⟨⟨logic, expandedRest⟩, source', bits, frozen⟩, rest⟩ := s
  obtain rfl : frozen = some n := hn
  rw [rebound]
  rw [← hna, ← hgr]
  cases native <;> cases graph <;> rfl

variable [DecidableEq ν] [ArtifactDlop D] {limits : ArtifactLimits} {sizeof : Element → ℕ}

lemma identityBytes_ends (s : SourceStateTable ν D S) (w : Work) :
    Ends anyArena Refused (Rebind.identityBytes limits sizeof s) w fun _ _ => True := by
  refine ⟨⟨trivial, trivial, fun _ _ => trivial⟩, fun e he => ?_⟩
  change ((run (match ((identitySource limits sizeof s []).run.run { work := w }).1 with
    | .ok _ => (pure ((identitySource limits sizeof s []).run.run { work := w }).2.bytes : StopM
      (List UInt8))
    | .error e => throw (.status e.status))).run
      ((identitySource limits sizeof s []).run.run { work := w }).2.work).1 = _ at he
  cases hm : ((Writer.identitySource limits sizeof s []).run.run { work := w }).1 with
  | ok _ =>
    rw [hm] at he
    cases he
  | error r =>
    rw [hm] at he
    cases he
    exact ⟨_, rfl, r.refused⟩

lemma checkNetlist_ends {importRegion : Work → (Status × Option SemanticRegion) × Work}
    {source : SourceStateTable ν D S}
    {n : FrozenNetlist κ} (hs : s.record = r) (hna : n.native.Built)
    (hgr : r.selected.selected.logic.graph.Built) :
    Ends (keeps r) Refused (Rebind.checkNetlist limits sizeof importRegion source r.selected n)
    s fun _ c =>
      (∃ w, (importRegion w).1.2 = some c.1) ∧
      c.2.1.getD n.native = n.native.respelled n.positions
      (c.1.logic.positions.map (spelling c.1.logic.graph)) ∧
      c.2.2.getD r.selected.selected.logic.graph =
      r.selected.selected.logic.graph.respelled r.selected.selected.logic.positions
        (c.1.logic.positions.map (spelling c.1.logic.graph)) := by
  refine (onWork_ends hs (identityBytes_ends _ _)).bind fun s before hs _ _ => ?_
  refine (onWork_ends hs (identityBytes_ends _ _)).bind fun s after hs _ _ => ?_
  refine (reject_ends hs).bind fun s _ hs _ _ => ?_
  refine (onWork_ends hs (freshRegion_ends importRegion _)).bind fun s fresh hs _ hf => ?_
  refine (reject_ends hs).bind fun s _ hs _ _ => ?_
  have hst := Ends.foldlM_range' (A := anyArena) (E := Refused)
    (f := fun (_ : Unit) i => Rebind.sameState fresh n r.selected.selected.logic i)
      (Q := fun _ _ _ => True) (s := s.work) (b := ())
    0 fresh.logic.state.length trivial trivial fun i _ _ t _ _ _ _ => sameState_ends fresh n _ i t
  refine (onWork_ends hs hst).bind fun s _ hs _ _ => ?_
  refine (onWork_ends hs (renamedGraph_ends hna _)).bind fun s native hs _ hn => ?_
  refine (onWork_ends hs (renamedGraph_ends hgr _)).bind fun s graph hs _ hg => ?_
  exact Ends.pure hs ⟨hf, hn, hg⟩

/-- A refusal leaves the record as it was.  A feasible rebind changes the spellings of the sources,
the names of the outputs, the snapshot and the module name, and nothing else; graphs do not
throw. -/
theorem rebindSelection_atomic (limits : ArtifactLimits) (sizeof : Element → ℕ)
    (importRegion : Work → (Status × Option SemanticRegion) × Work)
    (record : SelectionRecord ν D S κ ε ρ) (module : String)
    (source : SourceStateTable ν D S) (work : Work)
    (hnative : ∀ n ∈ record.selected.frozen, n.native.Built)
    (hgraph : record.selected.selected.logic.graph.Built) :
    ∃ status, (rebindSelection limits sizeof importRegion record module source work).1 =
    .ok status ∧
      (status ≠ .feasible →
        (rebindSelection limits sizeof importRegion record module source work).2.record = record) ∧
      (status = .feasible → ∃ n ∈ record.selected.frozen, ∃ fresh w,
        (importRegion w).1.2 = some fresh ∧
        (rebindSelection limits sizeof importRegion record module source work).2.record =
          rebound record n fresh module source) := by
  have hchecks : Ends (keeps record) Refused
      (Rebind.checks limits sizeof importRegion module source) ⟨work, record⟩ fun _ c =>
      ∃ n ∈ record.selected.frozen, (∃ w, (importRegion w).1.2 = some c.1) ∧
      c.2.1.getD n.native = n.native.respelled n.positions
      (c.1.logic.positions.map (spelling c.1.logic.graph)) ∧
      c.2.2.getD record.selected.selected.logic.graph =
      record.selected.selected.logic.graph.respelled
        record.selected.selected.logic.positions (c.1.logic.positions.map
          (spelling c.1.logic.graph)) := by
    have hrecord : (⟨work, record⟩ : Rebinding ν D S κ ε ρ).record = record := rfl
    refine (reject_ends hrecord).bind fun s _ hs _ _ => ?_
    refine Ends.bind (P := fun t u => t = s ∧ u = s) ⟨Builds.get hs, nofun⟩ fun t u ht _ htu => ?_
    obtain ⟨rfl, rfl⟩ := htu
    refine (reject_ends ht).bind fun v _ hv _ _ => ?_
    rw [show u.record = record from ht]
    cases hfrozen : record.selected.frozen with
    | none => exact Ends.throw hv ⟨_, rfl, nofun⟩
    | some n =>
      exact (checkNetlist_ends hv (hnative n hfrozen) hgraph).mono fun _ c _ _ hc => ⟨n, rfl, hc⟩
  rw [rebindSelection]
  obtain ⟨⟨hkept, -, hresult⟩, hstops⟩ := hchecks
  rw [run_bind]
  rcases hrun : (Rebind.checks limits sizeof importRegion module source).run.run
    ⟨work, record⟩ with ⟨e | c, t⟩
  · rw [hrun] at hkept hstops
    obtain ⟨status, rfl, hstatus⟩ := hstops e rfl
    exact ⟨status, rfl, fun _ => hkept, fun h => (hstatus h).elim⟩
  · rw [hrun] at hkept hresult
    obtain ⟨n, hn, ⟨w, hw⟩, hnative', hgraph'⟩ := hresult c rfl
    have ht := hkept
    have hcommit := commit_run (s := t) module source c.1 (ht.symm ▸ hn) hnative'
      (by rw [ht]; exact hgraph')
    dsimp only
    rw [hcommit, ht]
    exact ⟨.feasible, rfl, fun h => (h rfl).elim, fun _ => ⟨n, hn, c.1, w, hw, rfl⟩⟩

end

/-! ## A register that an input toggles -/

variable (name : String)

/-- The graph of a register, with a gate. -/
def toggleGraph : Xag := Xag.runOps [.input name, .input "r", .lxor ⟨1, false⟩ ⟨2, false⟩]

lemma toggleGraph_built : (toggleGraph name).Built := ⟨_, rfl⟩

def toggleRegion : XagRegion where
  graph := toggleGraph name
  inputs := [⟨1, false⟩]
  state := [{ name := "r", init := '0', q := ⟨2, false⟩, d := ⟨3, false⟩ }]
  outputs := [⟨name, ⟨3, false⟩⟩]
  originalNodes := []

def toggleNetlist : FrozenNetlist Unit where
  native := toggleGraph name
  inputs := [⟨1, false⟩]
  outputs := [⟨name, ⟨3, false⟩⟩]
  state := [{ name := "r", init := '0', q := ⟨2, false⟩, referenceD := ⟨3, false⟩, domain := 0 }]
  rest := ()

/-- The register under a node number. -/
def toggleSnapshot (node : UInt64) : SourceStateTable UInt64 Digit Unit where
  sourceGraph := ""
  sources := [registerRow node (constantPin 0)]

def toggleRecord : SelectionRecord UInt64 Digit Unit Unit Unit Unit where
  moduleName := "old"
  selected :=
    { selected := ⟨toggleRegion "a", ()⟩, source := toggleSnapshot 1, stateBits := [0],
      frozen := some (toggleNetlist "a") }
  rest := ()

/-- The import of the same region under another spelling. -/
def toggleImport (w : Work) : (Status × Option SemanticRegion) × Work :=
  ((.feasible, some ⟨toggleRegion "b", [0], [0]⟩), w)

/-- The spelling, the output name and the node number are those of the new translation. -/
theorem rebindSelection_atomic_toggleRecord :
    (rebindSelection {} (fun _ => 8) toggleImport toggleRecord "new" (toggleSnapshot 2)
      identityWork).2.record =
      rebound toggleRecord (toggleNetlist "a") ⟨toggleRegion "b", [0], [0]⟩ "new"
      (toggleSnapshot 2) := by
  have hfeasible : (rebindSelection {} (fun _ => 8) toggleImport toggleRecord "new"
      (toggleSnapshot 2) identityWork).1 =
      .ok .feasible := by decide +kernel
  obtain ⟨status, hstatus, -, hrebound⟩ :=
    rebindSelection_atomic {} (fun _ => 8) toggleImport toggleRecord "new" (toggleSnapshot 2)
    identityWork (fun n hn => Option.some.inj hn ▸ toggleGraph_built "a") (toggleGraph_built "a")
  obtain ⟨n, hn, fresh, w, hw, hrecord⟩ := hrebound (Except.ok.inj (hstatus.symm.trans hfeasible))
  cases hn
  cases hw
  exact hrecord

end LiveHD.Usyn
