import LiveHD.Lib.RefCount
import LiveHD.Usyn.Choice
import LiveHD.Usyn.MuxChain
import LiveHD.Usyn.Sweep

/-!
# Residual optimization

`pass/usyn/residual.cpp`: a sweep rebuilds a network node by node and may replace each node it has
built.  A ledger counts the references of the growing graph, with an anchor for each consumer that
is not built yet.  A search for replacements (`rewrite_root`, `resub_root`) is any program that
appends gates and considers signals.
-/

namespace LiveHD.Usyn

open Function List Pass

structure ResidualOutput where
  signal : Xsignal
  endpointInput : Bool := false
deriving DecidableEq

structure ResidualOptions where
  andCost : ℕ := 2
  xorCost : ℕ := 4
  depthSlack : ℕ := 0
  maxNodes : ℕ := 2000000
  rewriteCuts : ℕ := 8
  balanceDupLimit : ℕ := 0
  sweepInputs : ℕ := 16
  p1SweepInputs : ℕ := 6
  sweepTableWords : ℕ := 2 ^ 20
  muxBalanceMinArms : ℕ := 3
  muxBalanceAreaPct : ℕ := 25
  windows : ℕ := 100000
  windowNodes : ℕ := 256
  resubInputs : ℕ := 8
  divisors : ℕ := 32
  inserted : ℕ := 2
  windowWork : ℕ := 100000
  stageWork : ℕ := 20000000
  zeroGain : Bool := true
  npn4 : Bool := false
  sweep : Bool := false
  balance : Bool := false
  muxBalance : Bool := false
  rewrite : Bool := true
  resubstitute : Bool := true
deriving DecidableEq

/-- `valid_residual_options` -/
def ResidualOptions.Valid (o : ResidualOptions) : Prop :=
  0 < o.andCost ∧ 0 < o.xorCost ∧ 0 < o.maxNodes ∧ 0 < o.windows ∧ 0 < o.rewriteCuts ∧
    o.rewriteCuts ≤ 32 ∧ 0 < o.windowNodes ∧
  0 < o.resubInputs ∧ o.resubInputs ≤ 8 ∧ 0 < o.divisors ∧ o.divisors ≤ 64 ∧ o.inserted ≤ 2 ∧
  0 < o.windowWork ∧ 0 < o.stageWork ∧
  o.balanceDupLimit ≤ 1024 ∧ 1 ≤ o.sweepInputs ∧ o.sweepInputs ≤ 16 ∧
  1 ≤ o.p1SweepInputs ∧ o.p1SweepInputs ≤ 16 ∧
  2 ≤ o.sweepTableWords ∧ 2 ≤ o.muxBalanceMinArms ∧ o.muxBalanceMinArms ≤ 256 ∧
  o.muxBalanceAreaPct ≤ 1000

instance (o : ResidualOptions) : Decidable o.Valid := by
  unfold ResidualOptions.Valid
  infer_instance

variable (o : ResidualOptions)

def weight (kind : Kind) : ℕ := match kind with
  | .andGate => o.andCost
  | .xorGate => o.xorCost
  | _ => 0

/-! ## Schedules -/

structure Schedule where
  references : ℕ → ℕ := fun _ => 0
  order : List ℕ := []
  cost : ℕ := 0

/-- A schedule in the making. -/
structure Planning extends Schedule where
  seen : List Visit

section

variable (g : Xag)

def Planning.at (st : Planning) (id : ℕ) : Visit := st.seen.getD id .black

/-- One more reference. -/
def refer (references : ℕ → ℕ) (id : ℕ) : ℕ → ℕ := Function.update references id (references id + 1)

variable (st : Planning) (id : ℕ)

/-- A node is seen; its inputs are referenced. -/
def Planning.enter : Planning := { st with
  seen := st.seen.set id .gray
  references := refer (refer st.references (g.node id).inputs.1.id) (g.node id).inputs.2.id }

def Planning.finish : Planning := { st with
  seen := st.seen.set id .black
  order := st.order ++ [id]
  cost := st.cost + weight o (g.node id).kind }

/-- The inputs of a node that were not seen, the second on top. -/
def Planning.unseen : List ℕ :=
  [(g.node id).inputs.2.id, (g.node id).inputs.1.id].filter fun i => (st.enter g id).at i = .white

def scheduleLoop (stack : List ℕ) (st : Planning) : WorkM Planning :=
  match stack with
  | [] => pure st
  | id :: rest => do
    WorkM.spend 1
    if st.at id = .black ∨ weight o (g.node id).kind = 0 then scheduleLoop rest st
    else if _hwhite : st.at id = .white then
      scheduleLoop (st.unseen g id ++ id :: rest) (st.enter g id)
    else scheduleLoop rest (st.finish o g id)
termination_by 3 * st.seen.countP (· = .white) + stack.length
decreasing_by
  · simp only [List.length_cons]
    omega
  · have hcount := countP_set_of_getD (p := (· = Visit.white)) (d := .black) (a := .gray) rfl
      (decide_eq_true _hwhite) rfl
    have hlen : (st.unseen g id).length ≤ 2 := length_filter_le _ _
    simp only [Planning.enter, length_append, length_cons]
    omega
  · have hle := countP_set_le (p := (· = Visit.white)) (a := .black) rfl st.seen id
    simp only [Planning.finish, length_cons]
    omega

variable (outputs : List ResidualOutput)

/-- The outputs in the order of their walks. -/
def prioritized : List ResidualOutput :=
  outputs.filter (·.endpointInput) ++ outputs.filter (!·.endpointInput)

def schedule : WorkM Schedule := do
  WorkM.spend (g.size + outputs.length)
  let references := outputs.foldl
    (fun references output => refer references output.signal.id) fun _ => 0
  Planning.toSchedule <$> (prioritized outputs).foldlM
    (fun st output => scheduleLoop o g [output.signal.id] st)
    { references := references, seen := replicate g.size .white }

/-! ## The ledger -/

structure Ledger where
  refs : ℕ → ℕ := fun _ => 0
  cost : ℕ := 0
  /-- What to restore, last change first. -/
  undo : List (ℕ × ℕ) := []
  savedCost : ℕ := 0

namespace Ledger

variable (l : Ledger)

def begin : Ledger := { l with undo := [], savedCost := l.cost }

def rollback : Ledger where
  refs := l.undo.foldl (fun refs p => Function.update refs p.1 p.2) l.refs
  cost := l.savedCost
  undo := []
  savedCost := l.savedCost

/-- The count of a node becomes `after`; the cost follows when that brings it to life or ends it. -/
def put (id after : ℕ) : Ledger := { l with
  refs := Function.update l.refs id after
  undo := (id, l.refs id) :: l.undo
  cost := if l.refs id = 0 ∧ after ≠ 0 then l.cost + weight o (g.node id).kind
    else if l.refs id ≠ 0 ∧ after = 0 then l.cost - weight o (g.node id).kind else l.cost }

/-- What a change of a node asks of its inputs, the second on top. -/
def spread (id after : ℕ) : List (ℕ × ℤ) :=
  if (l.refs id = 0 ↔ after = 0) ∨ weight o (g.node id).kind = 0 then []
  else
    let step := if after = 0 then -1 else 1
    [((g.node id).inputs.2.id, step), ((g.node id).inputs.1.id, step)]

end Ledger

lemma Work.remaining_spend {w : Work} (h : (w.spend 1).1 = true) :
    (w.spend 1).2.budget.remaining < w.budget.remaining := by
  have hch : ∀ b : Budget, (b.charge 1).1 = true → (b.charge 1).2.remaining < b.remaining := by
    intro b hb
    rw [Budget.charge] at hb ⊢
    split at hb
    · cases hb
    next hle =>
      rw [if_neg hle]
      dsimp only at hle ⊢
      omega
  rw [Work.spend] at h ⊢
  rw [Budget.spend] at h ⊢
  split at h
  · cases h
  next hlv =>
    rw [if_neg hlv]
    split at h
    next hsa =>
      rw [if_pos hsa]
      split at h
      next hgr =>
        rw [if_pos hgr]
        exact hch { w.budget with checkpointWork := w.budget.admissionInterval } h
      · cases h
    next hsa =>
      rw [if_neg hsa]
      exact hch w.budget h

/-- `Ledger::change` -/
def Ledger.change (todo : List (ℕ × ℤ)) (l : Ledger) (w : Work) : Bool × Ledger × Work :=
  match todo with
  | [] => (true, l, w)
  | (id, delta) :: todo =>
    if _hspend : (w.spend 1).1 = true then
      if (l.refs id : ℤ) + delta < 0 then (false, l, (w.spend 1).2)
      else
        let after := ((l.refs id : ℤ) + delta).toNat
        Ledger.change (l.spread o g id after ++ todo) (l.put o g id after) (w.spend 1).2
    else (false, l, (w.spend 1).2)
termination_by w.budget.remaining
decreasing_by exact Work.remaining_spend _hspend

end

/-! ## Networks -/

structure ResidualNetwork where
  graph : Xag := {}
  outputs : List ResidualOutput := []
  affected : List Bool := []
  estimatedCost : ℕ := 0

/-- Metered code of a pass. -/
def Pass.onWork {α : Type} (m : WorkM α) : PassM α := do
  let s ← get
  set { s with work := (m.run.run s.work).2 }
  match (m.run.run s.work).1 with
  | .ok a => pure a
  | .error status => throw (.status status)

/-- A live gate of the old graph in the new one, with the cost of what was appended. -/
def compactNode (g : Xag) (st : (ℕ → Xsignal) × ℕ) (id : ℕ) : PassM ((ℕ → Xsignal) × ℕ) := do
  Pass.spend 1
  let before ← graph
  let s ← gate (g.node id).kind (translated st.1 (g.node id).inputs.1)
    (translated st.1 (g.node id).inputs.2)
  let after ← graph
  pure (update st.1 id s, if after.size ≠ before.size then
    st.2 + weight o (g.node id).kind else st.2)

def translatedOutput (map : ℕ → Xsignal) (output : ResidualOutput) : ResidualOutput :=
  { output with signal := translated map output.signal }

def compact (g : Xag) (outputs : List ResidualOutput)
    (affected : List Bool) : PassM ResidualNetwork := do
  let live ← Pass.onWork (schedule o g outputs)
  spend g.size
  let map ← copySources g
  let st ← live.order.foldlM (compactNode o g) (map, 0)
  let target ← graph
  pure ⟨target, outputs.map (translatedOutput st.1), affected, st.2⟩

/-! ## Sweeps -/

/-- A search for replacements, by what it does next and the answers it gets. -/
inductive Search where
  | done
  | spend (amount : ℕ) (k : Bool → Search)
  | gate (kind : Kind) (a b : Xsignal) (k : Xsignal → Search)
  | consider (candidate : Xsignal) (k : Bool → Search)

/-- The replacement of a node so far, on its ledger. -/
structure Pick where
  ledger : Ledger
  chosen : Xsignal

/-- A ledger's change on the budget of a pass. -/
def Pass.change (id : ℕ) (amount : ℤ) (l : Ledger) : PassM (Bool × Ledger) := do
  let s ← get
  let r := l.change o s.candidate [(id, amount)] s.work
  set { s with work := r.2.2 }
  pure (r.1, r.2.1)

/-- What a node to be replaced looks like. -/
structure Place where
  anchors : ℕ
  depthLimit : ℕ

/-- `Sweep::consider`; a signal that is not in the graph names no node and is refused. -/
def consider (place : Place) (candidate : Xsignal) (p : Pick) : PassM (Bool × Pick) := do
  let g ← Pass.graph
  if g.size ≤ candidate.id ∨ candidate = p.chosen ∨ place.depthLimit < (g.node candidate.id).level
    then pure (false, p)
  else do
    let r ← change o candidate.id place.anchors p.ledger.begin
    if r.1 = false then pure (false, { p with ledger := r.2.rollback })
    else do
      let r ← change o p.chosen.id (-place.anchors) r.2
      if r.1 = false ∨ p.ledger.cost < r.2.cost ∨ r.2.cost = p.ledger.cost ∧
          (o.zeroGain = false ∨ (g.node p.chosen.id).level ≤ (g.node candidate.id).level) then
        pure (false, { p with ledger := r.2.rollback })
      else pure (true, ⟨r.2, candidate⟩)

def runSearch (place : Place) : Search → Pick → PassM Pick
  | .done, p => pure p
  | .spend amount k, p => do
    let granted ← Pass.trySpend amount
    runSearch place (k granted) p
  | .gate kind a b k, p => do
    let s ← gate kind a b
    runSearch place (k s) p
  | .consider candidate k, p => do
    let r ← consider o place candidate p
    runSearch place (k r.1) r.2

structure SweepRun where
  map : ℕ → Xsignal
  changed : ℕ → Bool := fun _ => false
  ledger : Ledger
  attempted : ℕ := 0
  searchWork : ℕ := 0

/-- A change without which the sweep stops. -/
def Pass.mustChange (id : ℕ) (amount : ℤ) (l : Ledger) : PassM Ledger := do
  let r ← change o id amount l
  if r.1 then pure r.2 else exhausted

/-- Read and change the budget. -/
def Pass.onBudget {α : Type} (f : Budget → α × Budget) : PassM α := do
  let s ← get
  set { s with work := { s.work with budget := (f s.work.budget).2 } }
  pure (f s.work.budget).1

/-- Whether there is work for one more window. -/
def admitsWindow (share : CreditShare) (completion : ℕ) (st : SweepRun) : PassM Bool :=
  if st.attempted < o.windows then do
    let more ← Pass.onBudget fun b => share.exceeds b st.searchWork
    if more then do
      let has ← onBudget fun b => b.has (completion + 32)
      if has then onBudget fun b => (!b.exhausted, b) else pure false
    else pure false
  else pure false

/-- A search on a slice of the budget, with the work it took. -/
def searchWindow (place : Place) (search : Search) (cap completion : ℕ)
    (p : Pick) : PassM (Pick × ℕ) :=
  Pass.sliced cap 32 completion do
    let p ← runSearch o place search p
    let s ← get
    pure (p, s.work.budget.consumed)

section

variable (source : Xag) (outputs : List ResidualOutput) (search : Xag → Pick → Xsignal → ℕ → Search)

/-- Build a node and move its references to what was built. -/
def buildNode (plan : Schedule) (st : SweepRun) (id : ℕ) : PassM Pick := do
  let a := translated st.map (source.node id).inputs.1
  let b := translated st.map (source.node id).inputs.2
  let root ← Pass.gate (source.node id).kind a b
  let l ← mustChange o root.id (plan.references id) st.ledger.begin
  let l ← mustChange o a.id (-1) l
  let l ← mustChange o b.id (-1) l
  pure ⟨l, root⟩

/-- The replacement of a node that was built. -/
def replaceNode (plan : Schedule) (share : CreditShare) (remaining : ℕ) (st : SweepRun) (id : ℕ)
    (p : Pick) : PassM (Pick × SweepRun) := do
  let g ← Pass.graph
  let completion := 12 * (g.size + remaining) + 6 * outputs.length + source.size + 32
  let admitted ← admitsWindow o share completion st
  if admitted then do
    let cap ← onBudget fun b => share.clamp b (st.searchWork + o.windowWork)
    let place : Place := ⟨plan.references id, (source.node id).level + o.depthSlack⟩
    let r ← searchWindow o place (search g p p.chosen remaining) (cap - st.searchWork) completion p
    pure (r.1, { st with attempted := st.attempted + 1, searchWork := st.searchWork + r.2 })
  else pure (p, st)

def sweepBuilt (st : SweepRun) (id : ℕ) (root : Xsignal) (p : Pick) : SweepRun := { st with
  map := Function.update st.map id p.chosen
  changed := update st.changed id (p.chosen ≠ root || st.changed (source.node id).inputs.1.id ||
    st.changed (source.node id).inputs.2.id)
  ledger := p.ledger }

def sweepStep (plan : Schedule) (share : CreditShare) (remaining : ℕ) (st : SweepRun)
    (id : ℕ) : PassM SweepRun := do
  Pass.spend 1
  let g ← graph
  require (g.size < o.maxNodes)
  let p ← buildNode o source plan st id
  let r ← replaceNode o source outputs search plan share remaining st id p
  pure (sweepBuilt source r.2 id p.chosen r.1)

/-- Nodes of a schedule in order, with the number of those that come after. -/
def sweepNodes (plan : Schedule) (share : CreditShare) (later : ℕ) :
    List ℕ → SweepRun → PassM SweepRun
  | [], st => pure st
  | id :: ids, st => do
    let st ← sweepStep o source outputs search plan share (ids.length + later) st id
    sweepNodes plan share later ids st

/-- Copy a source and anchor its references. -/
def sweepSource (plan : Schedule) (st : SweepRun) (id : ℕ) : PassM SweepRun :=
  if (source.node id).kind = .source then do
    let s ← Pass.copySource source id
    let l ← mustChange o s.id (plan.references id) st.ledger.begin
    pure { st with map := update st.map id s, ledger := l }
  else pure st

/-- The constant and the sources among the `n` nodes after it, each with its references. -/
def sweepSources (plan : Schedule) (n : ℕ) : PassM SweepRun := do
  let l ← Pass.mustChange o 0 (plan.references 0) {}
  (range' 1 n).foldlM (sweepSource o source plan) { map := fun _ => {}, ledger := l }

/-- A pass on a graph of its own. -/
def Pass.fresh {α : Type} (m : PassM α) : PassM α := do
  let s ← get
  let r := m.run.run { work := s.work }
  set { s with work := r.2.work }
  match r.1 with
  | .ok a => pure a
  | .error e => throw e

/-- `Sweep::run` -/
def sweepRun (rewriting : Bool) : PassM ResidualNetwork := do
  let plan ← Pass.onWork (schedule o source outputs)
  spend source.size
  let st ← sweepSources o source plan (source.size - 1)
  let share ← onBudget fun b => (CreditShare.read 0 b o.stageWork (if rewriting then 3 else 1), b)
  let st ← sweepNodes o source outputs search plan share 0 plan.order st
  let g ← graph
  fresh (compact o g (outputs.map (translatedOutput st.map))
    (outputs.map fun output => st.changed output.signal.id))

end

/-! ## The stages -/

/-- How an optimization ends. -/
inductive ResidualEnd where
  | invalid
  /-- "residual rebuild budget; last complete network retained" -/
  | refused (network : Option ResidualNetwork)
  /-- "residual reference accounting failed the total-cost check" -/
  | accounting
  | feasible (network : ResidualNetwork)

/-- A stage ends the optimization or hands a network on. -/
abbrev Stage := StopM (Except ResidualEnd ResidualNetwork)

variable (net : ResidualNetwork)

def ResidualNetwork.roots : List Xsignal := net.outputs.map ResidualOutput.signal

def ResidualNetwork.levels : List ℕ := net.outputs.map fun output =>
    (net.graph.node output.signal.id).level

/-- The outputs of a network on other signals. -/
def ResidualNetwork.redirected (signals : List Xsignal) : List ResidualOutput :=
  signals.zipWith (fun s output => { output with signal := s }) net.outputs

variable (current next : ResidualNetwork)

/-- Whether no output is deeper and the cost or a depth is less. -/
def improves : Bool :=
  decide (next.estimatedCost ≤ current.estimatedCost) &&
    (next.levels.zip current.levels).all (fun p => p.1 ≤ p.2) &&
    (decide (next.estimatedCost < current.estimatedCost) ||
      (next.levels.zip current.levels).any fun p => p.1 < p.2)

/-- Whether the critical output is less deep, no output deeper and the cost within bounds. -/
def shortens : Bool :=
  (next.levels.zip current.levels).all (fun p => p.1 ≤ p.2) &&
    decide (next.levels.foldl max 0 < current.levels.foldl max 0) &&
    decide (next.estimatedCost ≤ current.estimatedCost +
      current.estimatedCost * o.muxBalanceAreaPct / 100)

open StopM in
/-- A trial on a slice; a complete one is compacted, priced and kept when it is accepted. -/
def trialStage (trial : Xag → List Xsignal → PassM (Option (Xag × List Xsignal)))
    (accept : ResidualNetwork → ResidualNetwork → Bool)
    (current : ResidualNetwork) : Stage := do
  let r ← sliced o.stageWork 1 (16 * current.graph.size + 32)
    (attempt (onPass (trial current.graph current.roots) {}))
  match r.bind Prod.fst with
  | none => pure (.ok current)
  | some (g, signals) => do
    let next ← attempt (onPass (compact o g (current.redirected signals) current.affected) {})
    match next with
    | none => pure (.error (.refused (some current)))
    | some (next, _) =>
      pure (.ok (if accept current next then
        { next with affected := next.affected.map fun _ => true } else current))

variable (g : Xag) (roots : List Xsignal)

def sweepTrial : PassM (Option (Xag × List Xsignal)) :=
  (fun r => some (r.graph, r.outputs)) <$>
    sweepXag g ⟨o.maxNodes, o.sweepInputs, o.sweepTableWords⟩ roots

def balanceTrial : PassM (Option (Xag × List Xsignal)) :=
  (fun r => some (r.graph, r.outputs)) <$> balanceXag g ⟨o.maxNodes, 128, o.balanceDupLimit⟩ roots

def muxTrial : PassM (Option (Xag × List Xsignal)) :=
  (fun r => if r.chains = 0 then none else some (r.graph, r.outputs)) <$>
    balanceMuxChains g ⟨o.maxNodes, o.muxBalanceMinArms, 256⟩ roots

open StopM in
/-- A sweep, with the check of the total cost; the depth allowance is over the outputs that were
asked for. -/
def sweepStage (depths : List ℕ) (search : Xag → Pick → Xsignal → ℕ → Search) (rewriting : Bool)
    (current : ResidualNetwork) : Stage := do
  let next ← attempt (onPass (sweepRun o current.graph current.outputs search rewriting) {})
  match next with
  | none => pure (.error (.refused (some current)))
  | some (next, _) =>
    if current.estimatedCost < next.estimatedCost then pure (.error .accounting)
    else if (next.levels.zip depths).all fun p => p.1 ≤ p.2 + o.depthSlack then
      pure (.ok { next with affected := next.affected.zipWith (· || ·) current.affected })
    else pure (.ok current)

/-- Run a stage when it is enabled. -/
def stageWhen (enabled : Bool) (stage : ResidualNetwork → Stage)
    (r : Except ResidualEnd ResidualNetwork) : Stage :=
  match r with
  | .error e => pure (.error e)
  | .ok current => if enabled then stage current else pure (.ok current)

/-- The stages from a compacted network on. -/
def residualStages (depths : List ℕ) (search : Bool → Xag → Pick → Xsignal → ℕ → Search)
    (skipped : Bool) (current : ResidualNetwork) :
    Stage := do
  let r ← stageWhen (o.sweep && !skipped) (trialStage o (sweepTrial o) improves) (.ok current)
  let r ← stageWhen (o.balance && !skipped) (trialStage o (balanceTrial o) improves) r
  let r ← stageWhen (o.muxBalance && !skipped) (trialStage o (muxTrial o) (shortens o)) r
  let r ← stageWhen (o.rewrite && !skipped) (sweepStage o depths (search true) true) r
  stageWhen (o.resubstitute && !skipped) (sweepStage o depths (search false) false) r

/-- Metered code of a stage, whose stop is an answer. -/
def StopM.onWork {α : Type} (m : WorkM α) : StopM (Option α) := do
  let w ← get
  set (m.run.run w).2
  pure (m.run.run w).1.toOption

open StopM in
def optimizeResidual (graph : Xag) (outputs : List ResidualOutput)
    (search : Bool → Xag → Pick → Xsignal → ℕ → Search) :
    StopM ResidualEnd :=
  if ¬o.Valid then pure .invalid
  else if o.maxNodes < graph.size ∨ o.maxNodes < outputs.length then pure (.refused none)
  else do
    let granted ← onWork (WorkM.spend outputs.length)
    if granted = none then pure (.refused none)
    else if outputs.any (graph.size ≤ ·.signal.id) then pure .invalid
    else do
      let before ← onWork (schedule o graph outputs)
      match before with
      | none => pure (.refused none)
      | some before => do
        let current ← attempt (onPass (compact o graph outputs (outputs.map fun _ => false)) {})
        match current with
        | none => pure (.refused none)
        | some (current, _) => do
          let r ← residualStages o (outputs.map fun output => (graph.node output.signal.id).level)
            search before.order.isEmpty current
          match r with
          | .error e => pure e
          | .ok net => pure (.feasible net)

end LiveHD.Usyn
