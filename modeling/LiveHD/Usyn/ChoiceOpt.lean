import LiveHD.Usyn.ChoiceSound
import LiveHD.Usyn.Sweep

/-!
# Choosing among representations

`optimize_choices` of `pass/usyn/xag_opt.cpp`: classes of alternatives for the gates of a network,
then complete extractions of a few selections, of which the cheapest is kept.  The windows, the
candidates and the prices are parameters: the candidates are built by appending gates, and a price
only ranks.
-/

namespace LiveHD.Usyn

open Builds Pass

open Unate (TruthTable)

/-- Graphs that gain gates and no sources. -/
def gatesArena : Arena PassState where
  inv s := s.candidate.Wf
  le s t := s.candidate.Extends t.candidate ∧ t.candidate.names = s.candidate.names
  refl _ := ⟨Xag.Extends.refl _, rfl⟩
  trans hst htu := ⟨hst.1.trans htu.1, htu.2.trans hst.2⟩

structure ChoiceModel where
  Cost : Type
  cheaper : Cost → Cost → Bool
  Estimate : Type
  /-- Whether the status of an estimate is feasible. -/
  priced : Estimate → Bool
  lower : Estimate → Estimate → Bool
  growWindow : Xag → Xsignal → WindowLimits → WorkM XagWindow
  representFunction : TruthTable → List Xsignal → ℕ → PassM (List Xsignal)
  npn4Candidates : ℕ → List Xsignal → ℕ → PassM (List Xsignal)
  coneCost : Xag → Xsignal → List ℕ → WorkM Cost
  estimate : Network → Work → Estimate × Work
  represents : ∀ t inputs n s, s.candidate.Wf →
    Builds gatesArena (representFunction t inputs n) s fun _ _ => True
  classifies : ∀ t inputs n s, s.candidate.Wf →
    Builds gatesArena (npn4Candidates t inputs n) s fun _ _ => True

structure ChoiceOptions where
  classes : ℕ := 128
  maxNodes : ℕ := 2000000
  andCost : ℕ := 2
  xorCost : ℕ := 4
deriving DecidableEq

namespace Pass

/-- Whether the resources or the credits are used up. -/
def spent : PassM Bool := do
  let s ← get
  if s.work.budget.resourceExhausted then pure true
  else do
    set { s with work := { s.work with budget := (s.work.budget.available 1).2 } }
    pure !(s.work.budget.available 1).1

end Pass

/-- A candidate with its price and depth. -/
structure Rank (Cost : Type) where
  signal : Xsignal
  cost : Cost
  level : ℕ

/-- A choice, and its members of least area and of least depth. -/
structure ChoiceClass where
  choice : XagChoice
  area : ℕ
  depth : ℕ
deriving DecidableEq

section

variable (model : ChoiceModel) (o : ChoiceOptions)

def Rank.areaLess (a b : Rank model.Cost) : Bool :=
  model.cheaper a.cost b.cost || !model.cheaper b.cost a.cost && decide (a.level < b.level)

def Rank.depthLess (a b : Rank model.Cost) : Bool :=
  decide (a.level < b.level) || !decide (b.level < a.level) && model.cheaper a.cost b.cost

/-- The first of a stable sort. -/
def front (less : Rank model.Cost → Rank model.Cost → Bool)
    (ranking : List (Rank model.Cost)) : Xsignal :=
  ((ranking.mergeSort fun a b => !less b a).head?.map Rank.signal).getD {}

def rankCandidate (leaves : List ℕ) (ranking : List (Rank model.Cost)) (signal : Xsignal) :
    PassM (List (Rank model.Cost)) := do
  let scratch ← Pass.graph
  let cost ← attempt (model.coneCost scratch signal leaves)
  match cost with
  | none => pure ranking
  | some cost =>
    if ranking.any (·.signal = signal) then pure ranking
    else pure (ranking ++ [⟨signal, cost, (scratch.node signal.id).level⟩])

/-- The table of a window as one of four inputs. -/
def npnTruth (table : TruthTable) (inputs : ℕ) : ℕ := rowIndex (List.range 16) fun pattern =>
    table.get (pattern &&& (2 ^ inputs - 1))

def candidatesOf (table : TruthTable) (inputs : List Xsignal) : PassM (List Xsignal) := do
  let represented ← Pass.sliced 40000 1 20000 (model.representFunction table inputs o.maxNodes)
  if inputs.length ≤ 4 then
    (represented ++ ·) <$> model.npn4Candidates (npnTruth table inputs.length)
      (inputs ++ List.replicate (4 - inputs.length) (Xag.constant false)) o.maxNodes
  else pure represented

/-- A member that is refused leaves the choice as it was. -/
def retainRanked (choice : XagChoice) (candidate : Xsignal) : PassM XagChoice := do
  let scratch ← Pass.graph
  (·.getD choice) <$> attempt (retainChoice scratch choice candidate 3)

def memberIndex (choice : XagChoice)
    (candidate : Xsignal) : ℕ := (choice.alternatives.idxOf? candidate).getD 0

/-- The class of the ranked candidates, when there is more than one. -/
def rankedClass (choice : XagChoice) (ranking : List (Rank model.Cost)) :
    PassM (Option ChoiceClass) :=
  if 1 < ranking.length then do
    let area := front model (Rank.areaLess model) ranking
    let depth := front model (Rank.depthLess model) ranking
    let choice ← retainRanked choice area
    let choice ← retainRanked choice depth
    pure (if 1 < choice.alternatives.length then
      some ⟨choice, memberIndex choice area, memberIndex choice depth⟩ else none)
  else pure none

/-- The class of a gate; none when no choice could be made for it. -/
def classOf (id : ℕ) : PassM (Option (Option ChoiceClass)) := do
  let scratch ← Pass.graph
  let window ← attempt (model.growWindow scratch ⟨id, false⟩ ⟨8, 64⟩)
  match window with
  | none => pure none
  | some window =>
    if window.leaves = [] then pure none
    else do
      let function ← attempt (windowFunction scratch window)
      let choice ← attempt (makeChoice scratch ⟨id, false⟩ window.leaves)
      match function, choice with
      | some table, some choice => do
        let candidates ← candidatesOf model o table (window.leaves.map (⟨·, false⟩))
        let ranking ← (⟨id, false⟩ :: candidates).foldlM (rankCandidate model window.leaves) []
        some <$> rankedClass model choice ranking
      | _, _ => pure none

def collectClasses (live : ℕ → Bool) : List ℕ → List ChoiceClass → PassM (List ChoiceClass)
  | [], classes => pure classes
  | id :: ids, classes =>
    if o.classes ≤ classes.length then pure classes
    else do
      let scratch ← Pass.graph
      if live id = false ∨ (scratch.node id).kind = .source then collectClasses live ids classes
      else do
        let found ← sliced 100000 1 4096 (classOf model o id)
        match found with
        | none => collectClasses live ids classes
        | some found => do
          let stop ← spent
          if stop then pure (classes ++ found.toList)
            else collectClasses live ids (classes ++ found.toList)

/-! ## Trials -/

open StopM

/-- The network that is kept, how it was selected and its price. -/
structure Trial (Estimate : Type) where
  network : Network
  selection : List ℕ
  after : Estimate

variable (source : Xag) (outputs : List Xsignal)

def price (net : Network) : StopM model.Estimate := do
  let w ← get
  set (model.estimate net w).2
  pure (model.estimate net w).1

/-- Whether no output is deeper than in the source. -/
def depthOk (trial : Network) : Bool :=
  (trial.outputs.zip outputs).all fun p =>
    (trial.graph.node p.1.id).level ≤ (source.node p.2.id).level

variable (scratch : Xag) (classes : List XagChoice) (snapshot : List Xsignal)

def considerSelection (kept : Trial model.Estimate) (selection : List ℕ) :
    StopM (Trial model.Estimate) := do
  let trial ← sliced 10000000 1 (8 * scratch.size + outputs.length + 32)
    (attempt (Prod.fst <$> onPass (extractNetwork scratch classes selection snapshot o.maxNodes)
      {}))
  match trial with
  | none => pure kept
  | some trial => do
    let cost ← sliced 10000000 1 32 (price model trial)
    if trial.outputs.length = kept.network.outputs.length ∧ depthOk source outputs trial ∧
        model.lower cost kept.after then
      pure ⟨trial, selection, cost⟩
    else pure kept

/-- Whether the resources are used up. -/
def resourceExhausted : StopM Bool := do
  let w ← get
  pure w.budget.resourceExhausted

/-- The other members of one class, each against the network that is kept; at most eight in all. -/
def recoverClass (i : ℕ) : List ℕ → Trial model.Estimate × ℕ → StopM (Trial model.Estimate × ℕ)
  | [], st => pure st
  | member :: members, st =>
    if 8 ≤ st.2 then pure st
    else if st.1.selection.getD i 0 = member then recoverClass i members st
    else do
      let kept ← considerSelection model o source outputs scratch classes snapshot st.1
        (st.1.selection.set i member)
      let stop ← resourceExhausted
      if stop then pure (kept, st.2 + 1) else recoverClass i members (kept, st.2 + 1)

def recoverClasses : List ℕ → Trial model.Estimate × ℕ → StopM (Trial model.Estimate × ℕ)
  | [], st => pure st
  | i :: rest, st =>
    if 8 ≤ st.2 then pure st
    else do
      let st ← recoverClass model o source outputs scratch classes snapshot i
        (List.range ((classes[i]?.map fun c => c.alternatives.length).getD 0)) st
      let stop ← resourceExhausted
      if stop then pure st else recoverClasses rest st

/-- The selections of least area and of least depth, then single changes of the best. -/
def trySelections (area depth : List ℕ) (kept : Trial model.Estimate) :
    StopM (Trial model.Estimate) := do
  let stop ← resourceExhausted
  if stop ∨ classes = [] then pure kept
  else do
    let kept ← considerSelection model o source outputs scratch classes snapshot kept area
    let kept ← (if depth ≠ area then
      considerSelection model o source outputs scratch classes snapshot kept depth else pure kept)
    Prod.fst <$> recoverClasses model o source outputs scratch classes snapshot
      (List.range classes.length).reverse (kept, 0)

/-- A stop is a result without a network. -/
def optimizeChoices : StopM Network :=
  if o.classes = 0 ∨ 1024 < o.classes ∨ o.andCost = 0 ∨ o.xorCost = 0 then throw (.status .invalid)
  else do
    let incumbent ← Prod.fst <$> onPass (extractNetwork source [] [] outputs o.maxNodes) {}
    let before ← price model incumbent
    if model.priced before = false then pure incumbent
    else do
      let live := liveNodes incumbent.graph incumbent.outputs
      let found ← sliced 10000000 1 (64 * incumbent.graph.size + outputs.length + 4096)
        (onPass (collectClasses model o live (List.range' 1 (incumbent.graph.size - 1)) [])
          incumbent.graph)
      let classes := found.1.map ChoiceClass.choice
      let kept ← trySelections model o source outputs found.2 classes incumbent.outputs
        (found.1.map ChoiceClass.area)
        (found.1.map ChoiceClass.depth) ⟨incumbent, List.replicate classes.length 0, before⟩
      pure kept.network

end

/-! ## Classes of a growing graph -/

section

variable {model : ChoiceModel} {o : ChoiceOptions} {s : PassState} {α : Type}

lemma Pass.graph_gates (hs : s.candidate.Wf) : Builds gatesArena graph s fun t g =>
    t = s ∧ g = s.candidate := by
  refine (Builds.get (A := gatesArena) hs).map fun t u _ _ heq => ?_
  obtain ⟨rfl, rfl⟩ := heq
  exact ⟨rfl, rfl⟩

lemma Pass.attempt_gates {m : WorkM α} {P : α → Prop} (h : Yields m P) (hs : s.candidate.Wf) :
    Builds gatesArena (attempt m) s fun t r =>
    t.candidate = s.candidate ∧ ∀ a, r = some a → P a := by
  refine (Builds.get (A := gatesArena) hs).bind fun _ u hu _ heq => ?_
  obtain ⟨rfl, rfl⟩ := heq
  have hset := set (A := gatesArena) (ε := Stop) (s := u)
    (t := { u with work := (m.run.run u.work).2 }) hu (gatesArena.refl u)
  refine hset.bind fun t _ ht _ heq => pure ht ?_
  subst heq
  refine ⟨rfl, fun a ha => h u.work a ?_⟩
  cases hm : (m.run.run u.work).1 with
  | ok b =>
    rw [hm] at ha
    cases ha
    rfl
  | error e =>
    rw [hm] at ha
    cases ha

lemma Pass.sliced_gates {m : PassM α} {P : Xag → α → Prop}
    (h : ∀ w, Builds gatesArena m { s with work := w } fun t a => P t.candidate a)
    (hs : s.candidate.Wf) (cap divisor reserve : ℕ) :
    Builds gatesArena (sliced cap divisor reserve m) s fun t a => P t.candidate a := by
  refine (Builds.get (A := gatesArena) hs).bind fun _ u hu _ heq => ?_
  obtain ⟨rfl, rfl⟩ := heq
  obtain ⟨hinv, hle, hP⟩ := h (u.work.slice cap divisor reserve)
  have hset := set (A := gatesArena) (ε := Stop) (s := u)
      (t := { (m.run.run { u with work := u.work.slice cap divisor reserve }).2 with
    work := u.work.absorb (m.run.run { u with work := u.work.slice cap divisor reserve }).2.work })
      hinv hle
  refine hset.bind fun t _ ht _ heq => ?_
  subst heq
  split
  next a ha => exact pure ht (hP a ha)
  · exact throw ht

lemma Pass.spent_gates (hs : s.candidate.Wf) : Builds gatesArena spent s fun t _ =>
    t.candidate = s.candidate := by
  refine (Builds.get (A := gatesArena) hs).bind fun _ u hu _ heq => ?_
  obtain ⟨rfl, rfl⟩ := heq
  refine ite (fun _ => pure hu rfl) fun _ => ?_
  have hset := set (A := gatesArena) (ε := Stop) (s := u)
    (t := { u with work := { u.work with budget := (u.work.budget.available 1).2 } }) hu
      (gatesArena.refl u)
  refine hset.bind fun t _ ht _ heq => pure ht ?_
  rw [heq]

lemma rankCandidate_gates (hs : s.candidate.Wf) (leaves : List ℕ)
    (ranking : List (Rank model.Cost)) (signal : Xsignal) :
    Builds gatesArena (rankCandidate model leaves ranking signal) s fun t _ =>
    t.candidate = s.candidate := by
  refine (Pass.graph_gates hs).bind fun t g ht _ heq => ?_
  obtain ⟨rfl, rfl⟩ := heq
  refine (attempt_gates (P := fun _ => True) (fun _ _ _ => trivial) ht).bind fun u cost hu _ hsa =>
    ?_
  split
  · exact .pure hu hsa.1
  · exact .ite (fun _ => .pure hu hsa.1) fun _ => .pure hu hsa.1

lemma candidatesOf_gates (hs : s.candidate.Wf) (table : TruthTable) (inputs : List Xsignal) :
    Builds gatesArena (candidatesOf model o table inputs) s fun _ _ => True := by
  refine (Pass.sliced_gates (P := fun _ _ => True) (fun w => model.represents _ _ _ _ hs) hs _ _
    _).bind fun t _ ht _ _ => ?_
  refine ite (fun _ => ?_) fun _ => .pure ht trivial
  exact (model.classifies _ _ _ _ ht).map fun _ _ _ _ _ => trivial

lemma XagChoice.Ok.grow {choice : XagChoice} {t : PassState} (hc : choice.Ok s.candidate)
    (hs : s.candidate.Wf) (ht : t.candidate.Wf)
    (hle : gatesArena.le s t) : choice.Ok t.candidate :=
  hc.mono hs ht hle.1

section

variable (hs : s.candidate.Wf) {choice : XagChoice} (hc : choice.Ok s.candidate)
include hs hc

lemma retainRanked_gates (candidate : Xsignal) :
    Builds gatesArena (retainRanked choice candidate) s fun t c => c.Ok t.candidate := by
  refine (Pass.graph_gates hs).bind fun t g ht _ heq => ?_
  obtain ⟨rfl, rfl⟩ := heq
  refine (attempt_gates (retainChoice_yields ht hc candidate 3) ht).map fun u r _ _ hr => ?_
  rw [hr.1]
  cases r with
  | none => exact hc
  | some c => exact hr.2 c rfl

lemma rankedClass_gates (ranking : List (Rank model.Cost)) :
    Builds gatesArena (rankedClass model choice ranking) s fun t r =>
    ∀ c, r = some c → c.choice.Ok t.candidate := by
  refine .ite (fun _ => ?_) fun _ => .pure hs nofun
  refine (retainRanked_gates hs hc _).bind fun t c ht _ hc =>
    (retainRanked_gates ht hc _).bind fun u c hu _ hc => .pure hu ?_
  intro r hr
  obtain ⟨-, hr⟩ := Option.ite_none_right_eq_some.1 hr
  cases hr
  exact hc

end

lemma classOf_gates (hs : s.candidate.Wf) (id : ℕ) :
    Builds gatesArena (classOf model o id) s fun t r =>
    ∀ c, r = some (some c) → c.choice.Ok t.candidate := by
  refine (graph_gates hs).bind fun t g ht _ heq => ?_
  obtain ⟨rfl, rfl⟩ := heq
  refine (attempt_gates (P := fun _ => True) (fun _ _ _ => trivial) ht).bind
    fun u window hu _ hsa => ?_
  split
  · exact .pure hu nofun
  rename_i window
  refine .ite (fun _ => .pure hu nofun) fun _ => ?_
  refine (attempt_gates (P := fun _ => True) (fun _ _ _ => trivial) hu).bind
    fun v function hv _ hsa' => ?_
  refine (attempt_gates (makeChoice_yields ht _ _) hv).bind fun x choice hx _ hch => ?_
  split
  next table c =>
    have hc : c.Ok x.candidate := by
      rw [hch.1, hsa'.1, hsa.1]
      exact hch.2 c rfl
    refine (candidatesOf_gates hx table _).bind fun y candidates hy hle _ => ?_
    have hlo := foldlM (A := gatesArena) (f := rankCandidate model window.leaves)
      (Q := fun _ z _ => c.Ok z.candidate) []
      (⟨id, false⟩ :: candidates) (b := []) hy (hc.grow hx hy hle)
          fun pre signal post _ z ranking hz _ hQ =>
        (rankCandidate_gates hz window.leaves ranking signal).mono fun _ _ _ _ heq => heq ▸ hQ
    refine hlo.bind fun z ranking hz _ hc =>
      (rankedClass_gates hz hc ranking).map fun z' r _ _ hr c heq => hr c ?_
    exact Option.some.inj heq
  · exact .pure hx nofun

lemma collectClasses_gates (live : ℕ → Bool) (ids : List ℕ)
    (classes : List ChoiceClass) (hs : s.candidate.Wf)
    (hclasses : ∀ c ∈ classes, c.choice.Ok s.candidate) :
    Builds gatesArena (collectClasses model o live ids classes) s fun t cs =>
      ∀ c ∈ cs, c.choice.Ok t.candidate := by
  induction ids generalizing classes s with
  | nil => exact .pure hs hclasses
  | cons id ids ih =>
    refine .ite (fun _ => .pure hs hclasses) fun _ => (graph_gates hs).bind fun t g ht _ heq => ?_
    obtain ⟨rfl, rfl⟩ := heq
    refine .ite (fun _ => ih classes ht hclasses) fun _ => ?_
    refine (sliced_gates (P := fun g r => ∀ c, r = some (some c) → c.choice.Ok g)
      (fun w => classOf_gates (s := ⟨w, t.candidate⟩) ht id) ht _ _ _).bind
      fun u found hu hle hf => ?_
    have hold : ∀ c ∈ classes, c.choice.Ok u.candidate := fun c hc => (hclasses c hc).grow ht hu hle
    split
    · exact ih classes hu hold
    next found =>
      refine (spent_gates hu).bind fun v stop hv _ hsa => ?_
      have hnew : ∀ c ∈ classes ++ found.toList, c.choice.Ok v.candidate := by
        rw [hsa]
        refine List.forall_mem_append.2 ⟨hold, fun c hc => hf c ?_⟩
        rw [Option.mem_toList.1 hc]
      exact .ite (fun _ => .pure hv hnew) fun _ => ih _ hv hnew

end

/-! ## Outputs -/

section

variable {model : ChoiceModel} {o : ChoiceOptions} {source scratch : Xag}
  {outputs snapshot : List Xsignal} {α : Type}

lemma Preserves.trans {g h : Xag} {outputs' outputs'' : List Xsignal}
    (hg : Preserves source outputs g outputs')
    (hh : Preserves g outputs' h outputs'') : Preserves source outputs h outputs'' where
  wf := hh.wf
  names := hh.names.trans hg.names
  lt := hh.lt
  eval env := (hh.eval env).trans (hg.eval env)

/-- A graph that gained gates. -/
lemma Preserves.grow {g h : Xag} {outputs' : List Xsignal}
    (hg : Preserves source outputs g outputs') (hh : h.Wf) (he : g.Extends h)
    (hns : h.names = g.names) : Preserves source outputs h outputs' where
  wf := hh
  names := hns.trans hg.names
  lt s hs := (hg.lt s hs).trans_le he.size
  eval env := by
    rw [← hg.eval env]
    exact List.map_congr_left fun s hs => he.eval hg.wf hh env (hg.lt s hs)

lemma extractNetwork_yields (hsrc : source.Wf) {choices : List XagChoice}
    (hch : ∀ c ∈ choices, c.Ok source) (selected : List ℕ)
    (outputs : List Xsignal) (maxNodes : ℕ) :
    Yields (Prod.fst <$> StopM.onPass (extractNetwork source choices selected outputs maxNodes) {})
    fun net =>
      Preserves source outputs net.graph net.outputs := by
  refine .map (P := fun r => Preserves source outputs r.1.graph r.1.outputs) ?_ fun r hr => hr
  exact StopM.onPass_yields fun w =>
    (extractNetwork_ends _ hsrc hch selected outputs maxNodes w).builds.mono fun _ _ _ _ h => h.1

variable {classes : List XagChoice}

section

variable (hscratch : Preserves source outputs scratch snapshot)
  (hclasses : ∀ c ∈ classes, c.Ok scratch)

include hscratch hclasses

lemma considerSelection_yields (kept : Trial model.Estimate)
    (hke : Preserves source outputs kept.network.graph kept.network.outputs)
    (selection : List ℕ) : Yields (considerSelection model o source outputs scratch classes snapshot
      kept selection) fun kept' =>
      Preserves source outputs kept'.network.graph kept'.network.outputs := by
  have htr := extractNetwork_yields hscratch.wf hclasses selection snapshot o.maxNodes
  refine (StopM.sliced_yields (StopM.attempt_yields htr) _ _ _).bind fun trial htr => ?_
  split
  · exact .pure hke
  next trial =>
    refine .bind (P := fun _ => True) (fun _ _ _ => trivial) fun cost _ =>
      .ite (fun _ => .pure ?_) fun _ => .pure hke
    exact hscratch.trans (htr trial rfl)

lemma recoverClass_yields (i : ℕ) (members : List ℕ) (st : Trial model.Estimate × ℕ)
    (hst : Preserves source outputs st.1.network.graph st.1.network.outputs) :
    Yields (recoverClass model o source outputs scratch classes snapshot i members st) fun st' =>
      Preserves source outputs st'.1.network.graph st'.1.network.outputs := by
  induction members generalizing st with
  | nil => exact .pure hst
  | cons member members ih =>
    refine .ite (fun _ => .pure hst) fun _ => .ite (fun _ => ih st hst) fun _ => ?_
    refine (considerSelection_yields hscratch hclasses st.1 hst _).bind fun kept hke => ?_
    refine .bind (P := fun _ => True) (fun _ _ _ => trivial) fun stop _ => ?_
    exact .ite (fun _ => .pure hke) fun _ => ih _ hke

lemma recoverClasses_yields (is : List ℕ) (st : Trial model.Estimate × ℕ)
    (hst : Preserves source outputs st.1.network.graph st.1.network.outputs) :
    Yields (recoverClasses model o source outputs scratch classes snapshot is st) fun st' =>
      Preserves source outputs st'.1.network.graph st'.1.network.outputs := by
  induction is generalizing st with
  | nil => exact .pure hst
  | cons i is ih =>
    refine .ite (fun _ => .pure hst) fun _ =>
      (recoverClass_yields hscratch hclasses i _ st hst).bind fun st' hst' => ?_
    refine .bind (P := fun _ => True) (fun _ _ _ => trivial) fun stop _ => ?_
    exact .ite (fun _ => .pure hst') fun _ => ih st' hst'

lemma trySelections_yields (area depth : List ℕ) (kept : Trial model.Estimate)
    (hke : Preserves source outputs kept.network.graph kept.network.outputs) :
    Yields (trySelections model o source outputs scratch classes snapshot area depth kept)
    fun kept' =>
      Preserves source outputs kept'.network.graph kept'.network.outputs := by
  refine .bind (P := fun _ => True) (fun _ _ _ => trivial) fun stop _ =>
    .ite (fun _ => .pure hke) fun _ => ?_
  refine (considerSelection_yields hscratch hclasses kept hke area).bind fun kept hke => ?_
  refine .bind (P := fun kept => Preserves source outputs kept.network.graph kept.network.outputs)
    ?_ fun kept hke => ?_
  · exact .ite (fun _ => considerSelection_yields hscratch hclasses kept hke depth) fun _ =>
      .pure hke
  · exact (recoverClasses_yields hscratch hclasses _ (kept, 0) hke).map fun st hst => hst

end

lemma optimizeChoices_yields (hsrc : source.Wf) (outputs : List Xsignal) :
    Yields (optimizeChoices model o source outputs) fun net =>
    Preserves source outputs net.graph net.outputs := by
  refine .ite (fun _ => .throw) fun _ => ?_
  refine (@extractNetwork_yields _ hsrc [] nofun [] outputs o.maxNodes).bind fun incumbent hinc =>
    ?_
  refine .bind (P := fun _ => True) (fun _ _ _ => trivial) fun before _ =>
    .ite (fun _ => .pure hinc) fun _ => ?_
  refine (StopM.sliced_yields (P := fun r => Preserves source outputs r.2 incumbent.outputs ∧
    ∀ c ∈ r.1, c.choice.Ok r.2)
    (StopM.onPass_yields (A := gatesArena) fun w => ?_) _ _ _).bind fun found hf => ?_
  · refine (collectClasses_gates (s := ⟨w, incumbent.graph⟩) _ _ [] hinc.wf nofun).mono
      fun t cs ht hle hcs => ?_
    exact ⟨hinc.grow ht hle.1 hle.2, hcs⟩
  · have hclasses : ∀ c ∈ found.1.map ChoiceClass.choice, c.Ok found.2 := by
      intro c hc
      obtain ⟨k, hk, rfl⟩ := List.mem_map.1 hc
      exact hf.2 k hk
    exact (trySelections_yields hf.1 hclasses _ _ _ hinc).bind fun kept hke => .pure hke

end

/-! ## Choices -/

lemma extractChoices_status {source : Xag} (hsrc : source.Wf) {choices : List XagChoice}
    (hch : ∀ c ∈ choices, c.Ok source)
    (selected : List ℕ) (outputs : List Xsignal) (maxNodes : ℕ) (w : Work) :
    ∃ r, (extractChoices source choices selected outputs maxNodes w).1 = .ok r ∧
      (r.status = .feasible ∧ Preserves source outputs r.graph r.outputs ∧
        ¬SelectedCycle source choices selected outputs ∨
        r.toNetwork = {} ∧ (r.status = .invalid ∧
          (¬Requests source choices selected outputs maxNodes ∨
            SelectedCycle source choices selected outputs) ∨
          r.status = .searchExhausted ∧ ¬w.Has (extractionWork source choices outputs))) := by
  have hen := extractNetwork_ends _ hsrc hch selected outputs maxNodes w
  unfold extractChoices
  dsimp only
  cases hm :
    ((extractNetwork source choices selected outputs maxNodes).run.run { work := w }).1 with
  | ok net => exact ⟨_, rfl, .inl ⟨rfl, hen.builds.2.2 net hm⟩⟩
  | error e =>
    have hre := hen.stops e hm
    cases e with
    | exception e => exact hre.elim
    | status status =>
      refine ⟨_, rfl, .inr ⟨rfl, ?_⟩⟩
      cases status with
      | feasible => exact hre.elim
      | searchExhausted => exact .inr ⟨rfl, hre⟩
      | unsupported => exact hre.elim
      | invalid => exact .inl ⟨rfl, hre⟩

/-- Without work an extraction publishes nothing, and without room it is refused: there is no
cycle. -/
theorem extractChoices_limits : ¬SelectedCycle {} [] [] [Xag.constant true] ∧
    (extractChoices {} [] [] [Xag.constant true] 1 { budget := { remaining := 0 } }).1.toOption.map
    (·.status) = some .searchExhausted ∧
    (extractChoices {} [] [] [Xag.constant true] 0
      { budget := { remaining := 100 } }).1.toOption.map (·.status) = some .invalid := by
  refine ⟨?_, by decide, by decide⟩
  rintro ⟨replacement, -, output, -, a, -, hcycle⟩
  have hnode : ∀ i, (Xag.node {} i).kind.isGate = false := by
    intro i
    cases i with
    | zero => rfl
    | succ i => rfl
  obtain ⟨b, hb, -⟩ := Relation.TransGen.head'_iff.1 hcycle
  exact not_reads (hnode a) b hb

/-- For every selection of choices, an extraction has the outputs of its graph, or it publishes
nothing: when the request is malformed, when the selected members have a cycle that an output reads,
or for lack of work.  The optimizer preserves every output. -/
theorem choices_sound {source : Xag} (hsrc : source.Wf) {choices : List XagChoice}
    (hchoices : ∀ c ∈ choices, Built source c)
    (selected : List ℕ) (outputs : List Xsignal) (maxNodes : ℕ) (w : Work) :
    (∃ r, (extractChoices source choices selected outputs maxNodes w).1 = .ok r ∧
      (r.status = .feasible → Preserves source outputs r.graph r.outputs) ∧
      (r.status ≠ .feasible → r.toNetwork = {}) ∧
      (Requests source choices selected outputs maxNodes → r.status = .feasible ∧
        ¬SelectedCycle source choices selected outputs ∨
        r.status = .invalid ∧ SelectedCycle source choices selected outputs ∨
        r.status = .searchExhausted ∧ ¬w.Has (extractionWork source choices outputs))) ∧
    ∀ (model : ChoiceModel) (o : ChoiceOptions) (net : Network),
      ((optimizeChoices model o source outputs).run.run w).1 = .ok net →
      Preserves source outputs net.graph net.outputs := by
  refine ⟨?_, fun model o net hnet => optimizeChoices_yields hsrc outputs w net hnet⟩
  obtain ⟨r, hr, hstatus⟩ := extractChoices_status hsrc (fun c hc => (hchoices c hc).ok.2)
    selected outputs maxNodes w
  refine ⟨r, hr, ?_⟩
  rcases hstatus with ⟨hfeasible, hpreserves, hacyclic⟩ | ⟨hnone,
    ⟨hinvalid, hwhy⟩ | ⟨hexhausted, hwork⟩⟩
  · exact ⟨fun _ => hpreserves, fun hne => absurd hfeasible hne,
      fun _ => .inl ⟨hfeasible, hacyclic⟩⟩
  · refine ⟨fun hf => ?_, fun _ => hnone,
      fun hreq => .inr (.inl ⟨hinvalid, hwhy.resolve_left (not_not_intro hreq)⟩)⟩
    rw [hinvalid] at hf
    cases hf
  · refine ⟨fun hf => ?_, fun _ => hnone, fun _ => .inr (.inr ⟨hexhausted, hwork⟩)⟩
    rw [hexhausted] at hf
    cases hf

/-- An XOR gate, its sum of products, and a reader of the gate. -/
def xorXag : Xag := Xag.runOps [.input "a", .input "b", .lxor ⟨1, false⟩ ⟨2, false⟩,
    .land ⟨1, false⟩ ⟨2, true⟩,
  .land ⟨1, true⟩ ⟨2, false⟩, .lor ⟨4, false⟩ ⟨5, false⟩, .land ⟨1, false⟩ ⟨3, false⟩]

def xorWork : Work := { budget := { remaining := 10000 } }

def xorChoice (alternatives : List Xsignal) : XagChoice :=
  ⟨⟨3, false⟩, [1, 2], ⟨2, [6#64]⟩, alternatives⟩

/-- The sum of products takes the place of the gate. -/
theorem choices_sound_xor : Built xorXag (xorChoice [⟨3, false⟩, ⟨6, true⟩]) ∧
    ((extractChoices xorXag [xorChoice [⟨3, false⟩, ⟨6, true⟩]] [1] [⟨7, true⟩] 100
      xorWork).1.toOption.map fun r =>
      (r.status, r.outputs, r.graph.size)) = some (.feasible, [⟨6, true⟩], 7) ∧
    ∃ r, (extractChoices xorXag [xorChoice [⟨3, false⟩, ⟨6, true⟩]] [1] [⟨7, true⟩] 100 xorWork).1 =
    .ok r ∧
      (r.status = .feasible → Preserves xorXag [⟨7, true⟩] r.graph r.outputs) := by
  have hmake : ((makeChoice xorXag ⟨3, false⟩ [1, 2]).run.run xorWork).1 =
    .ok (xorChoice [⟨3, false⟩]) := by decide +kernel
  have hretain : ((retainChoice xorXag (xorChoice [⟨3, false⟩]) ⟨6, true⟩ 3).run.run xorWork).1 =
      .ok (xorChoice [⟨3, false⟩, ⟨6, true⟩]) := by decide +kernel
  have hbuilt := (Built.make (Xag.wf_runOps _) hmake).retain hretain
  refine ⟨hbuilt, by decide +kernel, ?_⟩
  obtain ⟨⟨r, hr, hfeasible, -⟩, -⟩ :=
    choices_sound (Xag.wf_runOps _) (List.forall_mem_singleton.2 hbuilt) [1] [⟨7, true⟩] 100 xorWork
  exact ⟨r, hr, hfeasible⟩

end LiveHD.Usyn
