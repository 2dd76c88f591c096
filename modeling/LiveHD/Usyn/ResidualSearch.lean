import LiveHD.Usyn.GrowWindow
import LiveHD.Usyn.ResidualPreserves

/-!
# The searches of a residual optimization

`rewrite_root` and `resub_root` of `pass/usyn/residual.cpp` collect a window of the root and try the
gates of a template on some of its nodes.  They are built when their table over the cut is the one
of the root or its complement.  Which templates are tried on which nodes is open.  With `npn4`, a
rewrite looks up templates by the table of the root (`npn4.cpp`) and builds them on the cut without
comparing.
-/

namespace LiveHD.Usyn

open List Xag

/-- A gate on earlier signals, by their positions. -/
structure Step where
  xorGate : Bool
  a : Xsignal
  b : Xsignal

def Step.kind (s : Step) : Kind := if s.xorGate then .xorGate else .andGate

/-- The tables of the inputs of a template and then of its gates; a table is a function of the
row. -/
def stepTables : List Step → List (ℕ → Bool) → List (ℕ → Bool)
  | [], tables => tables
  | s :: steps, tables => stepTables steps (tables ++ [fun r =>
      s.kind.op (tables.getD s.a.id (fun _ => false) r ^^ s.a.inverted)
        (tables.getD s.b.id (fun _ => false) r ^^ s.b.inverted)])

def buildSteps : List Step → List Xsignal → (List Xsignal → Search) → Search
  | [], signals, k => k signals
  | s :: steps, signals, k => .gate s.kind ((signals.getD s.a.id {}).phased s.a.inverted)
      ((signals.getD s.b.id {}).phased s.b.inverted)
      fun signal => buildSteps steps (signals ++ [signal]) k

/-- A template on nodes, what it charges, and whether there is room for its gates. -/
structure Attempt where
  amount : ℕ
  inputs : List Xsignal
  steps : List Step
  room : Bool

/-- A template of `npn4_data.inc`: four inputs by number, and gates and a root on the constant, the
inputs and the gates. -/
structure NpnTemplate where
  inputs : List Xsignal
  steps : List Step
  root : Xsignal

/-- What the resources of a search grant: what a window charges and the work it is collected on, the
cuts that are tried after the one that is grown, the attempts on a window, and whether there is room
for templates on it. -/
structure Grants where
  charges : List ℕ
  work : Work
  cuts : List (List ℕ)
  attempts : XagWindow → List Attempt
  room : XagWindow → Bool

def Search.charged : List ℕ → Search → Search
  | [], rest => rest
  | amount :: amounts, rest => .spend amount fun granted =>
    if granted then charged amounts rest else .done

section

variable (g : Xag) (leaves : List ℕ)

/-- The table of a node over a cut; none when the node reads a source that is not in it. -/
def evaluate : ℕ → ℕ → Option (ℕ → Bool)
  | 0, _ => none
  | fuel + 1, id =>
    if id = 0 then some fun _ => false
    else if id ∈ leaves then some (·.testBit (leaves.idxOf id))
    else if (g.node id).kind = .source then none
    else do
      let a ← evaluate fuel (g.node id).inputs.1.id
      let b ← evaluate fuel (g.node id).inputs.2.id
      pure fun r => (g.node id).kind.op (a r ^^ (g.node id).inputs.1.inverted)
        (b r ^^ (g.node id).inputs.2.inverted)

def signalTable (s : Xsignal) : Option (ℕ → Bool) :=
  if s.id < g.size then (evaluate g leaves (s.id + 1) s.id).map fun table r =>
    table r ^^ s.inverted else none

def offerAttempt (target : ℕ → Bool) (t : Attempt) (rest : Search) : Search :=
  match t.inputs.mapM (signalTable g leaves) with
  | none => rest
  | some tables =>
    let last := t.inputs.length + t.steps.length - 1
    let value := (stepTables t.steps tables).getD last fun _ => false
    let same := ∀ r < 2 ^ leaves.length, value r = target r
    if (same ∨ ∀ r < 2 ^ leaves.length, value r = !target r) ∧ t.room = true then
      buildSteps t.steps t.inputs fun signals =>
        .consider ((signals.getD last {}).phased (decide ¬same)) fun _ => rest
    else rest

def offerAttempts (target : ℕ → Bool) : List Attempt → Search → Search
  | [], rest => rest
  | t :: l, rest => .spend t.amount fun granted =>
    if granted then offerAttempt g leaves target t (offerAttempts target l rest) else .done

end

def searchWindows (gr : Grants) (g : Xag) (root : Xsignal) : List (WorkM XagWindow) → Search
  | [] => .done
  | collect :: windows => .charged gr.charges <| match (collect.run.run gr.work).1 with
    | .error _ => .done
    | .ok window => match signalTable g window.leaves root with
      | none => .done
      | some target =>
        if ∃ b, ∀ r < 2 ^ window.leaves.length, target r = b then
          .consider (Xag.constant (target 0)) fun _ => .done
        else offerAttempts g window.leaves target (gr.attempts window)
          (searchWindows gr g root windows)

namespace NpnTemplate

variable (t : NpnTemplate)

/-- The table of a template over its four inputs. -/
def table (r : ℕ) : Bool :=
  (stepTables t.steps ((fun _ => false) ::
    t.inputs.map fun x r => r.testBit x.id ^^ x.inverted)).getD t.root.id
    (fun _ => false) r ^^ t.root.inverted

def signals (inputs : List Xsignal) : List Xsignal := {} :: t.inputs.map fun x =>
    (inputs.getD x.id {}).phased x.inverted

end NpnTemplate

/-- `npn4_candidates`, of which every candidate that was found is considered. -/
def offerTemplates (inputs : List Xsignal) (rest : Search) :
    List NpnTemplate → List Xsignal → Search
  | [], found => found.foldr (fun signal next => .consider signal fun _ => next) rest
  | t :: templates, found => .spend (5 + t.steps.length) fun granted =>
    if granted then
      buildSteps t.steps (t.signals inputs) fun signals =>
        let candidate := (signals.getD t.root.id {}).phased t.root.inverted
        offerTemplates inputs rest templates
          (if candidate ∈ found then found else found ++ [candidate])
    else .done

/-- The windows of `priority_windows`: the table of the root over four variables selects the
templates. -/
def searchNpn (npn : ℕ → List NpnTemplate) (gr : Grants) (g : Xag) (root : Xsignal) :
    List (WorkM XagWindow) → Search
  | [] => .done
  | collect :: windows => .charged gr.charges <| match (collect.run.run gr.work).1 with
    | .error _ => .done
    | .ok window => match signalTable g window.leaves root with
      | none => .done
      | some target =>
        let full := rowIndex (List.range 16) fun x => target (x % 2 ^ window.leaves.length)
        let inputs := window.leaves.map fun id => (⟨id, false⟩ : Xsignal)
        if gr.room window then offerTemplates inputs (searchNpn npn gr g root windows)
          (npn full) [] else .done

/-- `rewrite_root` and `resub_root` -/
def residualSearch (o : ResidualOptions) (npn : ℕ → List NpnTemplate)
    (grants : Bool → Xag → Pick → Xsignal → ℕ → Grants)
    (rewriting : Bool) (g : Xag) (p : Pick) (root : Xsignal) (remaining : ℕ) : Search :=
  let gr := grants rewriting g p root remaining
  let limits : WindowLimits := ⟨if rewriting then 4 else o.resubInputs, o.windowNodes⟩
  let cuts := gr.cuts.map fun cut => collectWindow g root cut limits
  if rewriting && o.npn4 then searchNpn npn gr g root cuts
    else searchWindows gr g root (growWindow g root limits :: cuts)

/-- Every template of a table has the table. -/
def Classifies (npn : ℕ → List NpnTemplate) : Prop :=
  ∀ truth < 2 ^ 16, ∀ t ∈ npn truth, ∀ r < 2 ^ 4, t.table r = truth.testBit r

/-! ## Tables of signals -/

section

variable {g : Xag} {f : (ℕ → Bool) → Bool} {row : (ℕ → Bool) → ℕ}

lemma is_getD (hg : g.Wf) {ss : List Xsignal} {ts : List (ℕ → Bool)}
    (h : Forall₂ (fun s t => g.Is s fun env => t (row env)) ss ts)
    (i : ℕ) : g.Is (ss.getD i {}) fun env => ts.getD i (fun _ => false) (row env) := by
  induction h generalizing i with
  | nil => exact hg.is_constant false
  | cons h _ ih =>
    cases i with
    | zero => exact h
    | succ i => exact ih i

/-- The gates of a template have its tables. -/
lemma buildSteps_offers (steps : List Step) (hg : g.Wf) {ss : List Xsignal} {ts : List (ℕ → Bool)}
    (h : Forall₂ (fun s t => g.Is s fun env => t (row env)) ss ts) {k : List Xsignal → Search}
    (hk : ∀ h ss, h.Wf → g.Extends h →
      Forall₂ (fun s t => h.Is s fun env => t (row env)) ss (stepTables steps ts) →
        (k ss).Offers f h) : (buildSteps steps ss k).Offers f g := by
  induction steps generalizing g ss ts with
  | nil => exact hk g ss hg (.refl g) h
  | cons step steps ih =>
    have ha := (is_getD hg h step.a.id).phased step.a.inverted
    have hb := (is_getD hg h step.b.id).phased step.b.inverted
    refine ⟨?_, fun next r hw he his => ih hw ?_ fun last ss hl hel => hk last ss hl (he.trans hel)⟩
    · rw [Step.kind]
      split <;> rfl
    · refine rel_append (h.imp fun _ _ hst => hst.mono hg hw he)
        (.cons (his.congr fun env => ?_) .nil)
      rw [ha.eval, hb.eval]

/-- A search that is sound on every graph that grows from `g`. -/
def Search.Sound (g : Xag) (f : (ℕ → Bool) → Bool) (search : Search) : Prop := ∀ h, h.Wf →
    g.Extends h → search.Offers f h

lemma sound_consider (hg : g.Wf) {s : Xsignal} {rest : Search}
    (hs : g.Is s f) (hr : rest.Sound g f) :
    Search.Sound g f (.consider s fun _ => rest) :=
  fun _ hw he => ⟨fun _ env => (hs.mono hg hw he).eval env, fun _ => hr _ hw he⟩

lemma sound_done : Search.Sound g f .done := fun _ _ _ => trivial

lemma sound_spend (amount : ℕ) {rest : Search} (hr : rest.Sound g f) :
    Search.Sound g f (.spend amount fun granted => if granted then rest else .done) := by
  intro h hw he granted
  cases granted with
  | true => exact hr h hw he
  | false => trivial

lemma sound_charged (amounts : List ℕ) {rest : Search} (hr : rest.Sound g f) :
    (Search.charged amounts rest).Sound g f := by
  induction amounts with
  | nil => exact hr
  | cons amount amounts ih => exact sound_spend amount ih

end

/-! ## Windows -/

section

variable {g : Xag} (hg : g.Wf) {root : Xsignal} {leaves : List ℕ}
include hg

lemma evaluate_is {fuel id : ℕ} {table : ℕ → Bool} (hid : id < g.size)
    (h : evaluate g leaves fuel id = some table)
    (env : ℕ → Bool) : g.valueAt env id = table (rowIndex leaves (g.valueAt env)) := by
  induction fuel generalizing id table with
  | zero => cases h
  | succ fuel ih =>
    rw [evaluate] at h
    split_ifs at h with h0 hmem hk
    · cases h
      exact h0 ▸ hg.valueAt_zero env
    · cases h
      have hbit := testBit_rowIndex leaves (g.valueAt env) (leaves.idxOf id)
      rw [getElem?_idxOf hmem] at hbit
      exact hbit.symm
    · obtain ⟨a, ha, h⟩ := Option.bind_eq_some_iff.1 h
      obtain ⟨b, hb, h⟩ := Option.bind_eq_some_iff.1 h
      cases h
      have hga := hg.gate_of_ne hid h0 hk
      obtain ⟨ho1, ho2⟩ := (hg.canonical id hid hga).older
      rw [hg.valueAt_gate env hid hga, Xag.eval, Xag.eval, Xsignal.value, Xsignal.value,
        ih (ho1.trans hid) ha, ih (ho2.trans hid) hb]

lemma signalTable_is {s : Xsignal} {table : ℕ → Bool} (h : signalTable g leaves s = some table) :
    g.Is s fun env => table (rowIndex leaves (g.valueAt env)) := by
  rw [signalTable] at h
  split_ifs at h with hs
  obtain ⟨table, ht, rfl⟩ := Option.map_eq_some_iff.1 h
  exact ⟨hs, fun env => congrArg (· ^^ s.inverted) (evaluate_is hg hs ht env)⟩

lemma sound_offerAttempt {target : ℕ → Bool}
    (ht : g.Is root fun env => target (rowIndex leaves (g.valueAt env)))
    (t : Attempt) {rest : Search}
    (hr : rest.Sound g fun env => g.eval env root) :
    (offerAttempt g leaves target t rest).Sound g fun env => g.eval env root := by
  rw [offerAttempt]
  split
  · exact hr
  next tables htab =>
    dsimp only
    split
    next hval =>
      intro h hw he
      have hin : Forall₂ (fun s t => h.Is s fun env => t (rowIndex leaves (g.valueAt env)))
          t.inputs tables :=
        (forall₂_of_mapM_eq_some htab).imp fun s table hs => (signalTable_is hg hs).mono hg hw he
      refine buildSteps_offers t.steps hw hin fun next ss hn hen hss =>
        ⟨fun _ env => ?_, fun _ => hr next hn (he.trans hen)⟩
      have hla := is_getD hn hss (t.inputs.length + t.steps.length - 1)
      have hlt := rowIndex_lt leaves (g.valueAt env)
      generalize (stepTables t.steps tables).getD _ _ = value at hval hla
      refine ((hla.phased _).eval env).trans (Eq.trans ?_ (ht.eval env).symm)
      by_cases hsa : ∀ r < 2 ^ leaves.length, value r = target r
      · rw [decide_eq_false (not_not.2 hsa), hsa _ hlt, Bool.xor_false]
      · rw [decide_eq_true hsa, hval.1.resolve_left hsa _ hlt, Bool.xor_true, Bool.not_not]
    · exact hr

lemma searchWindows_sound (gr : Grants) (windows : List (WorkM XagWindow)) :
    (searchWindows gr g root windows).Sound g fun env => g.eval env root := by
  induction windows with
  | nil => exact sound_done
  | cons collect windows ih =>
    refine sound_charged _ ?_
    split
    · exact sound_done
    next window hrun =>
      split
      · exact sound_done
      next target htab =>
        have ht := signalTable_is hg htab
        split
        next hc =>
          obtain ⟨b, hb⟩ := hc
          rw [hb 0 (Nat.two_pow_pos _)]
          exact sound_consider hg ((hg.is_constant b).congr
            fun env => (hb _ (rowIndex_lt _ _)).symm.trans (ht.eval env).symm) sound_done
        · have hall : ∀ l, (offerAttempts g window.leaves target l
              (searchWindows gr g root windows)).Sound g fun env => g.eval env root := by
            intro l
            induction l with
            | nil => exact ih
            | cons t l ihl => exact sound_spend _ (sound_offerAttempt hg ht t ihl)
          exact hall _

/-! ## Templates -/

lemma collectWindow_room (limits : WindowLimits) (cut : List ℕ) :
    Yields (collectWindow g root cut limits) fun w =>
    ValidCut g w.leaves ∧ w.leaves.length ≤ limits.inputs := by
  by_cases hv : limits.Valid ∧ root.id < g.size ∧ cut.length ≤ limits.inputs ∧ ValidCut g cut
  · exact (collectWindow_yields hg root cut).mono fun w hw => ⟨hw.1.leaves, hw.2.2 ▸ hv.2.2.1⟩
  · rw [collectWindow, Xag.collect, if_neg hv]
    exact .throw

/-- An input is a leaf of the cut, and the constant past its end. -/
lemma is_input (hcut : ValidCut g leaves) (x : Xsignal) :
    g.Is (((leaves.map fun id => (⟨id, false⟩ : Xsignal)).getD x.id {}).phased x.inverted)
    fun env =>
      (rowIndex leaves (g.valueAt env)).testBit x.id ^^ x.inverted := by
  refine .phased ?_ _
  cases hx : leaves[x.id]? with
  | none =>
    rw [getD_eq_getElem?_getD, getElem?_map, hx]
    refine (hg.is_constant false).congr fun env => ?_
    rw [testBit_rowIndex, hx]
    rfl
  | some id =>
    rw [getD_eq_getElem?_getD, getElem?_map, hx]
    refine ⟨(hcut.1 id (mem_of_getElem? hx)).2, fun env => ?_⟩
    rw [testBit_rowIndex, hx]
    exact Bool.xor_false _

lemma offerTemplates_offers (hcut : ValidCut g leaves) {f : (ℕ → Bool) → Bool} {rest : Search}
    (hr : rest.Sound g f) {templates : List NpnTemplate}
    (ht : ∀ t ∈ templates, ∀ env, t.table (rowIndex leaves (g.valueAt env)) = f env) {h : Xag}
    (hw : h.Wf) (he : g.Extends h)
    {found : List Xsignal} (hf : ∀ s ∈ found, h.Is s f) :
    (offerTemplates (leaves.map fun id => ⟨id, false⟩) rest templates found).Offers f h := by
  induction templates generalizing h found with
  | nil =>
    rw [offerTemplates]
    induction found with
    | nil => exact hr h hw he
    | cons s found ih =>
      exact ⟨fun _ env => (hf s (.head _)).eval env, fun _ => ih fun s hs => hf s (.tail _ hs)⟩
  | cons t templates ih =>
    intro granted
    cases granted with
    | false => trivial
    | true =>
      have hin : Forall₂ (fun s tab => h.Is s fun env => tab (rowIndex leaves (g.valueAt env)))
          (t.signals (leaves.map fun id => ⟨id, false⟩))
          ((fun _ => false) :: t.inputs.map fun x r => r.testBit x.id ^^ x.inverted) := by
        refine .cons (hw.is_constant false) ?_
        rw [forall₂_map_left_iff, forall₂_map_right_iff, forall₂_same]
        exact fun x _ => (is_input hg hcut x).mono hg hw he
      refine buildSteps_offers t.steps hw hin fun next ss hn hen hss =>
        ih (fun t ht' => ht t (.tail _ ht')) hn (he.trans hen) ?_
      have hnew : next.Is ((ss.getD t.root.id {}).phased t.root.inverted) f :=
        ((is_getD hn hss t.root.id).phased t.root.inverted).congr fun env => ht t (.head _) env
      have hold : ∀ s ∈ found, next.Is s f := fun s hs => (hf s hs).mono hw hn hen
      split
      · exact hold
      · exact forall_mem_append.2 ⟨hold, forall_mem_singleton.2 hnew⟩

lemma searchNpn_sound {npn : ℕ → List NpnTemplate} (hnpn : Classifies npn)
    (gr : Grants) {limits : WindowLimits}
    (hlim : limits.inputs = 4) (cuts : List (List ℕ)) :
    (searchNpn npn gr g root (cuts.map fun cut => collectWindow g root cut limits)).Sound g
    fun env => g.eval env root := by
  induction cuts with
  | nil => exact sound_done
  | cons cut cuts ih =>
    refine sound_charged _ ?_
    split
    · exact sound_done
    next window hrun =>
      obtain ⟨hcut, hlen⟩ := collectWindow_room hg limits cut gr.work window hrun
      rw [hlim] at hlen
      split
      · exact sound_done
      next target htab =>
        have ht := signalTable_is hg htab
        dsimp only
        split
        · refine fun h hw he => offerTemplates_offers hg hcut ih (fun t hmem env => ?_)
            hw he (forall_mem_nil _)
          have hrow := rowIndex_lt window.leaves (g.valueAt env)
          have hrow' : rowIndex window.leaves (g.valueAt env) < 2 ^ 4 :=
            hrow.trans_le (Nat.pow_le_pow_right (by decide) hlen)
          refine (hnpn _ (rowIndex_lt _ _) t hmem _ hrow').trans (Eq.trans ?_ (ht.eval env).symm)
          rw [testBit_rowIndex, getElem?_range (show _ < 16 from hrow'),
            Option.any_some, Nat.mod_eq_of_lt hrow]
        · exact sound_done

end

lemma residualSearch_proposes (o : ResidualOptions)
    {npn : ℕ → List NpnTemplate} (hnpn : Classifies npn)
    (grants : Bool → Xag → Pick → Xsignal → ℕ → Grants) (rewriting : Bool) :
    Proposes (residualSearch o npn grants rewriting) := by
  intro g p root remaining hg _
  rw [residualSearch]
  split
  next hre =>
    rw [Bool.and_eq_true] at hre
    rw [if_pos hre.1]
    exact searchNpn_sound hg hnpn _ rfl _ g hg (.refl g)
  · exact searchWindows_sound hg _ _ g hg (.refl g)

/-- Whatever the searches are granted and try, the network an optimization ends with, also one that
it keeps when the budget stops it, has the sources in order and an output for each output, with its
function and its kind. -/
theorem optimizeResidual_preserves {source : Xag} (hsrc : source.Wf)
    {npn : ℕ → List NpnTemplate} (hnpn : Classifies npn)
    (grants : Bool → Xag → Pick → Xsignal → ℕ → Grants) (o : ResidualOptions)
    (outputs : List ResidualOutput) (w : Work)
    (net : ResidualNetwork)
    (h : ((optimizeResidual o source outputs (residualSearch o npn grants)).run.run w).1 =
      .ok (.feasible net) ∨
      ((optimizeResidual o source outputs (residualSearch o npn grants)).run.run w).1 = .ok
        (.refused (some net))) :
    Preserves source (outputs.map ResidualOutput.signal) net.graph net.roots ∧
      net.outputs.map ResidualOutput.endpointInput = outputs.map ResidualOutput.endpointInput := by
  have hend := optimizeResidual_redirects hsrc (residualSearch_proposes o hnpn grants) o outputs w
  have hnet : Redirects source outputs net := by
    rcases h with h | h
    · exact hend _ h
    · exact hend _ h
  exact ⟨hnet.preserves, hnet.endpoints⟩

/-- The inputs are the cut, and every gate of a window is tried in the place of the root. -/
def tryInterior (_ : Bool) (_ : Xag) (_ : Pick) (_ : Xsignal) (_ : ℕ) : Grants where
  charges := [1]
  work := sharedWork
  cuts := [[1, 2]]
  attempts window := window.interior.map fun id => ⟨1, [⟨id, false⟩], [], true⟩
  room _ := true

/-- The template of a conjunction. -/
def andTemplates (truth : ℕ) : List NpnTemplate :=
  if truth = 0x8888 then
    [⟨[⟨0, false⟩, ⟨1, false⟩, ⟨2, false⟩, ⟨3, false⟩],
      [⟨false, ⟨1, false⟩, ⟨2, false⟩⟩], ⟨5, false⟩⟩]
  else []

lemma classifies_andTemplates : Classifies andTemplates := by
  intro truth _ t ht
  rw [andTemplates] at ht
  split at ht
  next heq =>
    obtain rfl := mem_singleton.1 ht
    subst heq
    decide
  · cases ht

/-- `(a ∧ b) ∧ a`, and its complement. -/
def absorbedXag : Xag := runOps [.input "a", .input "b", .land ⟨1, false⟩ ⟨2, false⟩,
    .land ⟨1, false⟩ ⟨3, false⟩]

def absorbedOutputs : List ResidualOutput := [⟨⟨4, false⟩, false⟩, ⟨⟨4, true⟩, true⟩]

def absorbedEnd : Except Stop ResidualEnd :=
  ((optimizeResidual { npn4 := true } absorbedXag absorbedOutputs
    (residualSearch { npn4 := true } andTemplates tryInterior)).run.run sharedWork).1

/-- The template puts the operand in the place of the root. -/
theorem optimizeResidual_preserves_absorbed : (absorbedEnd.toOption.bind fun e => match e with
      | .feasible net => some (net.roots, net.estimatedCost)
      | _ => none) = some ([⟨3, false⟩, ⟨3, true⟩], 2) ∧
    ∀ net, absorbedEnd = .ok (.feasible net) →
      Preserves absorbedXag (absorbedOutputs.map ResidualOutput.signal) net.graph net.roots := by
  refine ⟨by decide +kernel, fun net h => ?_⟩
  exact (optimizeResidual_preserves (wf_runOps _) classifies_andTemplates
    tryInterior _ _ _ net (.inl h)).1

end LiveHD.Usyn
