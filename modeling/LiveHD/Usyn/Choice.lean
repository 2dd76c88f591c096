import LiveHD.Lib.DepthFirst
import LiveHD.Usyn.Supply
import LiveHD.Usyn.Window

/-!
# Structural choices

`make_choice`, `retain_choice` and `extract_choices` of `pass/usyn/xag_choice.cpp`.  A choice keeps,
for a gate, signals that compute the same function; extraction takes a member of each choice and
rebuilds what the outputs read.  A selection can have a cycle.
-/

namespace LiveHD.Usyn

open WorkM
open Unate (TruthTable)

structure XagChoice where
  root : Xsignal
  basis : List ℕ
  function : TruthTable
  alternatives : List Xsignal
deriving DecidableEq

section

variable (g : Xag)

/-- The traversal of `depends`; `seen` is indexed from the root on. -/
def dependsLoop (root : ℕ) (pending : List ℕ) (seen : List Bool) : WorkM Bool :=
  match pending with
  | [] => pure false
  | id :: pending => do
    spend 1
    if id = root then pure true
    else if _hseen : id < root ∨ seen.getD (id - root) true = true then
      dependsLoop root pending seen
    else if (g.node id).kind.isGate then
      dependsLoop root ((g.node id).inputs.2.id :: (g.node id).inputs.1.id :: pending)
        (seen.set (id - root) true)
    else dependsLoop root pending (seen.set (id - root) true)
termination_by 2 * seen.countP (! ·) + pending.length
decreasing_by
  · simp only [List.length_cons]
    omega
  all_goals
    have hcount := List.countP_set_of_getD (p := (! ·)) (l := seen) (i := id - root)
      (d := true) (a := true) rfl
      (by simpa using fun h => _hseen (Or.inr h)) rfl
    simp only [List.length_cons]
    omega

/-- Whether a signal reads a gate; the empty answer of the source is a stop. -/
def depends (signal : Xsignal) (root : ℕ) : WorkM Bool :=
  if g.size ≤ signal.id then throw .searchExhausted
  else if signal.id < root then pure false
  else do
    spend (signal.id - root + 1)
    dependsLoop g root [signal.id] (List.replicate (signal.id - root + 1) false)

def makeChoice (root : Xsignal) (basis : List ℕ) : WorkM XagChoice :=
  if root.id = 0 ∨ g.size ≤ root.id ∨ basis = [] ∨ 16 < basis.length ∨
    (g.node root.id).kind.isGate = false then throw .invalid
  else do
    basis.forM fun leaf => do
      if (← depends g ⟨leaf, false⟩ root.id) then throw .invalid
    let function ← basisFunction g root basis ⟨16, 256⟩
    pure ⟨root, basis, function, [root]⟩

/-- The choice with one more member; a stop leaves it as it was. -/
def retainChoice (choice : XagChoice) (alternative : Xsignal) (cap : ℕ) : WorkM XagChoice :=
  if cap < 1 ∨ 3 < cap ∨ g.size ≤ alternative.id then throw .invalid
  else if alternative ∈ choice.alternatives then pure choice
  else if cap ≤ choice.alternatives.length then throw .unsupported
  else do
    if (← depends g alternative choice.root.id) then throw .invalid
    else do
      let candidate ← basisFunction g alternative choice.basis ⟨16, 1024⟩
      if candidate ≠ choice.function then throw .invalid
      else pure { choice with alternatives := choice.alternatives ++ [alternative] }

/-- A choice that came from a graph and its growth. -/
inductive Built : Xag → XagChoice → Prop
  | make {g : Xag} {root : Xsignal} {basis : List ℕ} {w : Work} {choice : XagChoice} (hg : g.Wf)
    (h : ((makeChoice g root basis).run.run w).1 = .ok choice) : Built g choice
  | retain {g : Xag} {choice choice' : XagChoice} {alternative : Xsignal} {cap : ℕ} {w : Work}
    (hchoice : Built g choice)
    (h : ((retainChoice g choice alternative cap).run.run w).1 = .ok choice') : Built g choice'
  | grow {g h : Xag} {choice : XagChoice} (hchoice : Built g choice) (he : g.Extends h)
    (hh : h.Wf) : Built h choice

end

/-! ## Extraction -/

section

variable (source : Xag)

/-- Copy the sources, in order. -/
def copySources : PassM (ℕ → Xsignal) :=
  (List.range' 1 (source.size - 1)).foldlM (fun mapped id =>
    if (source.node id).kind = .source then Function.update mapped id <$> Pass.copySource source id
      else pure mapped) fun _ => {}

/-- Which nodes are done before the traversal. -/
def startVisit : List Visit := (List.range source.size).map fun id =>
  if id = 0 ∨ (source.node id).kind = .source then .black else .white

/-- The members that take the place of the roots. -/
def selectMembers : List (XagChoice × ℕ) → (ℕ → Option Xsignal) → Option (ℕ → Option Xsignal)
  | [], replacement => some replacement
  | (choice, i) :: rest, replacement => do
    if source.size ≤ choice.root.id ∨ (replacement choice.root.id).isSome then none
    else do
      let member ← choice.alternatives[i]?
      if source.size ≤ member.id then none
      else selectMembers rest (Function.update replacement choice.root.id
        (some (member.phased choice.root.inverted)))

variable (replacement : ℕ → Option Xsignal)

/-- What takes the place of a node, when that is another signal. -/
def replaced (id : ℕ) : Option Xsignal := (replacement id).filter (· ≠ ⟨id, false⟩)

/-- What a node reads; none for one that is neither a gate nor replaced. -/
def successors (id : ℕ) : Option (List ℕ) := match replaced replacement id with
  | some r => some [r.id]
  | none =>
    if (source.node id).kind.isGate then
      some [(source.node id).inputs.1.id, (source.node id).inputs.2.id] else none

structure Extraction where
  mapped : ℕ → Xsignal
  visit : List Visit

variable (st : Extraction) (id : ℕ)

def Extraction.at : Visit := st.visit.getD id .black

def Extraction.enter : Extraction := { st with visit := st.visit.set id .gray }

def Extraction.finish (s : Xsignal) : Extraction where
  mapped := Function.update st.mapped id s
  visit := st.visit.set id .black

/-- The image of a node whose successors are done. -/
def leave (mapped : ℕ → Xsignal) (id : ℕ) : PassM Xsignal := match replaced replacement id with
  | some r => pure (translated mapped r)
  | none => Pass.gate (source.node id).kind (translated mapped (source.node id).inputs.1)
    (translated mapped (source.node id).inputs.2)

lemma length_le_of_successors {id : ℕ} {ids : List ℕ}
    (h : successors source replacement id = some ids) : ids.length ≤ 2 := by
  unfold successors at h
  split at h
  · cases h
    exact Nat.le_succ 1
  · obtain ⟨-, h⟩ := Option.ite_none_right_eq_some.1 h
    exact (congrArg List.length (Option.some.inj h)).ge

def visitLoop (maxNodes : ℕ) (pending : List (Frame ℕ)) (st : Extraction) : PassM Extraction :=
  match pending with
  | [] => pure st
  | frame :: pending => do
    Pass.spend 1
    let target ← Pass.graph
    Pass.require (target.size ≤ maxNodes)
    if _hblack : st.at frame.id = .black then visitLoop maxNodes pending st
    else if frame.exit then do
      let s ← leave source replacement st.mapped frame.id
      visitLoop maxNodes pending (st.finish frame.id s)
    else if _hgray : st.at frame.id = .gray then Pass.invalid
    else match _hsucc : successors source replacement frame.id with
      | some ids =>
        visitLoop maxNodes (ids.map (⟨·, false⟩) ++ ⟨frame.id, true⟩ :: pending) (st.enter frame.id)
      | none => Pass.invalid
termination_by 3 * st.visit.countP (· = .white) + pending.length
decreasing_by
  · simp only [List.length_cons]
    omega
  · have hle := List.countP_set_le (p := (· = Visit.white)) (a := .black) rfl st.visit frame.id
    simp only [Extraction.finish, List.length_cons]
    omega
  · have hwhite : st.at frame.id = .white := by
      cases h : st.at frame.id with
      | white => rfl
      | gray => exact absurd h _hgray
      | black => exact absurd h _hblack
    have hcount := List.countP_set_of_getD (p := (· = Visit.white)) (d := .black) (a := .gray) rfl
      (decide_eq_true hwhite) rfl
    have hlen := length_le_of_successors source replacement _hsucc
    simp only [Extraction.enter, List.length_append, List.length_map, List.length_cons]
    omega

/-- The outputs, one traversal each. -/
def extractOutputs (maxNodes : ℕ) (outputs : List Xsignal) (st : Extraction) :
    PassM (Extraction × List Xsignal) :=
  outputs.foldlM (fun r output =>
    if source.size ≤ output.id then Pass.invalid
    else do
      let st ← visitLoop source replacement maxNodes [⟨output.id, false⟩] r.1
      pure (st, r.2 ++ [translated st.mapped output])) (st, [])

/-- A graph with its outputs. -/
structure Network where
  graph : Xag := {}
  outputs : List Xsignal := []

def extractNetwork (choices : List XagChoice) (selected : List ℕ) (outputs : List Xsignal)
    (maxNodes : ℕ) : PassM Network :=
  if choices.length ≠ selected.length ∨ maxNodes < source.size ∨ maxNodes = 0 then Pass.invalid
  else do
    Pass.spend (3 * source.size + choices.length + outputs.length)
    let mapped ← copySources source
    match selectMembers source (choices.zip selected) fun _ => none with
    | none => Pass.invalid
    | some replacement => do
      let r ← extractOutputs source replacement maxNodes outputs ⟨mapped, startVisit source⟩
      let target ← Pass.graph
      Pass.require (target.size ≤ maxNodes)
      pure ⟨target, r.2⟩

structure ChoiceExtraction extends Network where
  status : Status := .invalid

/-- What a caller sees of a run; only a finished one publishes its network. -/
def ChoiceExtraction.publish : Except Stop Network → Except XagError ChoiceExtraction
  | .ok net => .ok ⟨net, .feasible⟩
  | .error (.status status) => .ok { status := status }
  | .error (.exception e) => .error e

def extractChoices (choices : List XagChoice) (selected : List ℕ) (outputs : List Xsignal)
    (maxNodes : ℕ) (w : Work) :
    Except XagError ChoiceExtraction × Work :=
  let r := (extractNetwork source choices selected outputs maxNodes).run.run { work := w }
  (ChoiceExtraction.publish r.1, r.2.work)

end

end LiveHD.Usyn
