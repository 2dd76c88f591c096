import LiveHD.Usyn.ChoiceOpt
import LiveHD.Usyn.ResidualOpt

/-!
# The functions of a residual optimization

A sweep builds the gates again in order and may put a candidate of a search in the place of each.
When the candidates compute what the gates compute, no stage changes the function of an output.
-/

namespace LiveHD.Usyn

open Pass hiding onWork spend
open Function List ExceptT StateT StopM Xag Yields

/-- Every candidate of a search computes `f`, whatever the budget and the ledger answer. -/
def Search.Offers (f : (ℕ → Bool) → Bool) : Xag → Search → Prop
  | _, .done => True
  | g, .spend _ k => ∀ granted, (k granted).Offers f g
  | g, .gate kind a b k => kind.isGate = true ∧ ∀ h r, h.Wf → g.Extends h →
      h.Is r (fun env => kind.op (g.eval env a) (g.eval env b)) → (k r).Offers f h
  | g, .consider candidate k => (candidate.id < g.size → ∀ env, g.eval env candidate = f env) ∧
    ∀ taken, (k taken).Offers f g

section

variable {o : ResidualOptions} {source g : Xag} {outputs : List ResidualOutput} {s : PassState}
  {map : ℕ → Xsignal} {id : ℕ}
  {st : SweepRun} {p : Pick}

/-! ## One node -/

lemma gate_self (hs : s.candidate.Wf) {kind : Kind} (hk : kind.isGate = true) (a b : Xsignal) :
    Builds passArena (gate kind a b) s fun t r =>
    t.candidate.Is r (fun env => kind.op (s.candidate.eval env a) (s.candidate.eval env b)) ∧
    t.candidate.names = s.candidate.names := by
  have hwf := gate_appended hs hk a b
  refine ⟨hwf.1, hwf.2.1, fun r hr => ?_⟩
  obtain ⟨ha, hb, -⟩ := hwf.2.2 r hr
  obtain ⟨his, -, hns⟩ := (gate_builds hs hk (is_self ha) (is_self hb)).2.2 r hr
  exact ⟨his, hns⟩

lemma Meters.change (id : ℕ) (amount : ℤ) (l : Ledger) :
    Meters (Pass.change o id amount l) fun _ => True := by
  intro s
  refine (Builds.get trivial).bind fun _ u _ _ heq => ?_
  obtain ⟨rfl, rfl⟩ := heq
  have hset := Builds.set (A := meterArena) (ε := Stop) (s := u)
    (t := { u with work := (l.change o u.candidate [(id, amount)] u.work).2.2 }) trivial rfl
  exact hset.bind fun _ _ _ _ _ => Builds.pure trivial trivial

lemma Meters.mustChange (id : ℕ) (amount : ℤ) (l : Ledger) :
    Meters (Pass.mustChange o id amount l) fun _ => True :=
  (Meters.change id amount l).bind fun _ _ => .ite (fun _ => .pure trivial) fun _ => .exhausted

lemma consider_chosen (place : Place) (candidate : Xsignal) (hs : s.candidate.Wf) :
    Builds passArena (consider o place candidate p) s fun t r =>
      t.candidate = s.candidate ∧ (r.2.chosen = p.chosen ∨ candidate.id < s.candidate.size ∧
        r.2.chosen = candidate) := by
  refine graph_bind hs (.ite (fun _ => .pure hs ⟨rfl, .inl rfl⟩) fun hlt => ?_)
  have hlt := not_le.1 (not_or.1 hlt).1
  refine ((Meters.change _ _ _).builds hs).bind fun t r ht _ hca =>
    .ite (fun _ => .pure ht ⟨hca.1, .inl rfl⟩) fun _ => ?_
  refine ((Meters.change _ _ _).builds ht).bind fun u r hu _ hca' => ?_
  have heq := hca'.1.trans hca.1
  exact .ite (fun _ => .pure hu ⟨heq, .inl rfl⟩) fun _ => .pure hu ⟨heq, .inr ⟨hlt, rfl⟩⟩

/-- What is chosen after a search computes what was chosen before it. -/
lemma runSearch_is {f : (ℕ → Bool) → Bool} (place : Place) (search : Search) (hs : s.candidate.Wf)
    (hoff : search.Offers f s.candidate)
    (hp : s.candidate.Is p.chosen f) : Builds passArena (runSearch o place search p) s fun t q =>
      t.candidate.Is q.chosen f ∧ t.candidate.names = s.candidate.names := by
  induction search generalizing s p with
  | done => exact .pure hs ⟨hp, rfl⟩
  | spend amount k ih =>
    refine ((Meters.trySpend amount).builds hs).bind fun t granted ht _ hca => ?_
    rw [← hca.1] at hoff hp ⊢
    exact ih granted ht (hoff granted) hp
  | gate kind a b k ih =>
    refine (gate_self hs hoff.1 a b).bind fun t r ht he hr => ?_
    refine (ih r ht (hoff.2 _ r ht he hr.1) (hp.mono hs ht he)).mono fun u q _ _ hq =>
      ⟨hq.1, hq.2.trans hr.2⟩
  | consider candidate k ih =>
    refine (consider_chosen place candidate hs).bind fun t r ht _ hr => ?_
    obtain ⟨hca, hr⟩ := hr
    rw [← hca] at hoff hp hr ⊢
    refine ih r.1 ht (hoff.2 r.1) ?_
    rcases hr with heq | ⟨hlt, heq⟩
    · rwa [heq]
    · rw [heq]
      exact ⟨hlt, hoff.1 hlt⟩

/-! ## Loops -/

/-- A gate more. -/
lemma Rebuilt.gate {pre : List ℕ} {h : Xag} (hr : Rebuilt source (· ∈ pre) source.size g map)
    (hg : g.Wf) (hh : h.Wf) (he : g.Extends h)
    {r : Xsignal} (his : h.Is r fun env => source.valueAt env id) (hns : h.names = g.names) :
    Rebuilt source (· ∈ pre ++ [id]) source.size h (update map id r) where
  is i hi hor := by
    rcases eq_or_ne i id with rfl | hne
    · rwa [update_self]
    · rw [update_of_ne hne]
      refine (hr.is i hi (hor.imp_right fun hmem => ?_)).mono hg hh he
      exact (mem_append.1 hmem).resolve_right fun hla => hne (mem_singleton.1 hla)
  names := hns.trans hr.names

variable (hsrc : source.Wf)
include hsrc

/-- The gate of the source is built on the images of what it reads. -/
lemma build_rebuilt {pre : List ℕ}
    (hr : Rebuilt source (· ∈ pre) source.size s.candidate map) (hs : s.candidate.Wf)
    (hid : id < source.size) (hg : (source.node id).kind.isGate = true)
    (hold : ∀ i, (source.node id).reads i ≠ 0 → (source.node i).kind.isGate = true → i ∈ pre) :
    Builds passArena (Pass.gate (source.node id).kind (translated map (source.node id).inputs.1)
      (translated map (source.node id).inputs.2))
      s fun t r => t.candidate.Is r (fun env => source.valueAt env id) ∧
      t.candidate.names = s.candidate.names := by
  have hin : ∀ x : Xsignal, x.id = (source.node id).inputs.1.id ∨
      x.id = (source.node id).inputs.2.id →
      s.candidate.Is (translated map x) fun env => source.eval env x := by
    intro x hx
    have hrd := (reads_inputs hg).2 hx
    have hlt := reads_lt hsrc hid hrd
    refine hr.translated (hlt.trans hid) ?_
    cases hk : (source.node x.id).kind.isGate with
    | false => exact .inl rfl
    | true => exact .inr (hold _ hrd hk)
  refine (gate_builds hs hg (hin _ (.inl rfl)) (hin _ (.inr rfl))).mono fun t r _ _ h =>
    ⟨h.1.congr fun env => ?_, h.2.2⟩
  rw [hsrc.valueAt_gate env hid hg]

/-- A loop over the nodes of a graph that copies its sources. -/
lemma rebuilt_sources {β : Type} (view : β → ℕ → Xsignal) {f : β → ℕ → PassM β} {b : β}
    (hs : s.candidate = {}) (hb : view b = fun _ => {})
    (hco : ∀ i t b, (source.node i).kind = .source → t.candidate.Wf → i < source.size →
      Rebuilt source (· ∈ []) i t.candidate (view b) →
      Builds passArena (f b i) t fun u b' => Rebuilt source (· ∈ []) (i + 1) u.candidate (view b'))
    (hsk : ∀ i b, (source.node i).kind ≠ .source → f b i = Pure.pure b) :
    Builds passArena ((range' 1 (source.size - 1)).foldlM f b) s fun t b' =>
    Rebuilt source (· ∈ []) source.size t.candidate (view b') := by
  have hwf : s.candidate.Wf := hs ▸ wf_empty
  have hlo := Builds.foldlM_range' (A := passArena) (f := f)
    (Q := fun i u b => Rebuilt source (· ∈ []) i u.candidate (view b)) 1 (source.size - 1)
    (b := b) hwf (by rw [hs, hb]; exact Rebuilt.start hsrc _) fun i hi hlt u b hu _ hr => ?_
  · rwa [Nat.add_sub_cancel' hsrc.pos] at hlo
  · by_cases hk : (source.node i).kind = .source
    · exact hco i u b hk hu (by omega) hr
    · rw [hsk i b hk]
      exact .pure hu (hr.skip (hsrc.gate_of_ne (by omega) (Nat.one_le_iff_ne_zero.1 hi) hk)
        not_mem_nil)

/-! ## Compaction -/

omit hsrc in
lemma compactNode_rebuilt (hg : g.Wf) {pre : List ℕ} {st : (ℕ → Xsignal) × ℕ} (hs : s.candidate.Wf)
    (hr : Rebuilt g (· ∈ pre) g.size s.candidate st.1) (hid : id < g.size)
    (hk : (g.node id).kind.isGate = true)
    (hold : ∀ i, (g.node id).reads i ≠ 0 → (g.node i).kind.isGate = true → i ∈ pre) :
    Builds passArena (compactNode o g st id) s fun t st' =>
    Rebuilt g (· ∈ pre ++ [id]) g.size t.candidate st'.1 := by
  refine ((Meters.spend 1).builds hs).bind fun t _ ht _ hca => graph_bind ht ?_
  rw [← hca.1] at hr
  refine (build_rebuilt hg hr ht hid hk hold).bind fun u r hu he hx => graph_bind hu (.pure hu ?_)
  exact hr.gate ht hu he hx.1 hx.2

/-- Outputs that go to signals of a network that compute what they compute. -/
structure Redirects (source : Xag) (outputs : List ResidualOutput)
    (net : ResidualNetwork) : Prop where
  preserves : Preserves source (outputs.map ResidualOutput.signal) net.graph net.roots
  endpoints : net.outputs.map ResidualOutput.endpointInput =
    outputs.map ResidualOutput.endpointInput

/-- The images of the outputs when all of a schedule is built. -/
lemma Rebuilt.preserves_outputs {plan : Schedule} (hpl : plan.Ok o source outputs)
    (hr : Rebuilt source (· ∈ plan.order) source.size g map)
    (hg : g.Wf) (hlt : ∀ output ∈ outputs, output.signal.id < source.size) :
    Preserves source (outputs.map ResidualOutput.signal) g
    ((outputs.map (translatedOutput map)).map ResidualOutput.signal) := by
  have hmap : (outputs.map (translatedOutput map)).map ResidualOutput.signal =
      (outputs.map ResidualOutput.signal).map (Usyn.translated map) := by
    rw [List.map_map, List.map_map]
    rfl
  rw [hmap]
  refine .of_map hg ?_ fun x hx => ?_
  · rw [hr.names, hsrc.sourceCount_size, take_length]
  · obtain ⟨output, hout, rfl⟩ := mem_map.1 hx
    refine hr.translated (hlt output hout) ?_
    cases hk : (source.node output.signal.id).kind.isGate with
    | false => exact .inl rfl
    | true => exact .inr (hpl.roots output hout hk)

variable (hand : 0 < o.andCost) (hxor : 0 < o.xorCost)
include hand hxor

lemma compact_redirects (hlt : ∀ output ∈ outputs, output.signal.id < source.size)
    (affected : List Bool) (w : Work) :
    Builds passArena (compact o source outputs affected) { work := w } fun _ net =>
    Redirects source outputs net := by
  refine ((onWork_meters (schedule_yields hand hxor hsrc hlt)).builds wf_empty).bind
    fun s plan hs _ hpl => ?_
  obtain ⟨hcn, hpl⟩ := hpl
  refine ((Meters.spend _).builds hs).bind fun t _ ht _ hca => ?_
  refine (rebuilt_sources hsrc (fun map => map) (hca.1.trans hcn) rfl
    (fun i t map hk ht hi hr => ?_) fun i map hk => ?_).bind
    fun u map hu _ hr => ?_
  · rw [if_pos hk]
    exact (copySource_builds hsrc ht hr hi hk).map fun _ _ _ _ h => h.1
  · rw [if_neg hk]
  refine (Builds.foldlM (A := passArena)
    (Q := fun pre t st => Rebuilt source (· ∈ pre) source.size t.candidate st.1) [] plan.order hu hr
    fun pre id post hsp t st ht _ hr => ?_).bind fun v st hv _ hr => graph_bind hv (.pure hv ?_)
  · rw [nil_append] at hsp
    obtain ⟨hid, hk⟩ := hpl.gates id (by rw [hsp]; exact mem_append_right _ (.head _))
    exact compactNode_rebuilt hsrc ht hr hid hk (hpl.older pre id post hsp)
  · exact ⟨hr.preserves_outputs hsrc hpl hv hlt, by rw [List.map_map]; rfl⟩

/-! ## Sweeps -/

/-- A search whose candidates for a node compute what the node computes. -/
def Proposes (search : Xag → Pick → Xsignal → ℕ → Search) : Prop :=
  ∀ g p root remaining, g.Wf → root.id < g.size →
    (search g p root remaining).Offers (fun env => g.eval env root) g

variable {plan : Schedule} {search : Xag → Pick → Xsignal → ℕ → Search} (hsearch : Proposes search)

omit hsrc hand hxor in
include hsearch in
lemma replaceNode_is (share : CreditShare) (remaining : ℕ) {f : (ℕ → Bool) → Bool}
    (hs : s.candidate.Wf) (hp : s.candidate.Is p.chosen f) :
    Builds passArena (replaceNode o source outputs search plan share remaining st id p) s fun t r =>
      t.candidate.Is r.1.chosen f ∧ t.candidate.names = s.candidate.names ∧ r.2.map = st.map := by
  refine graph_bind hs ?_
  have hadm : Meters (admitsWindow o share (12 * (s.candidate.size + remaining) +
      6 * outputs.length + source.size + 32) st) fun _ => True :=
    .ite (fun _ => (Meters.onBudget _).bind fun _ _ =>
        .ite (fun _ => (Meters.onBudget _).bind fun _ _ =>
      .ite (fun _ => Meters.onBudget _) fun _ => .pure trivial) fun _ => .pure trivial) fun _ =>
      .pure trivial
  refine (hadm.builds hs).bind fun t _ ht _ hca => ?_
  rw [← hca.1] at hp ⊢
  refine .ite (fun _ => ?_) fun _ => .pure ht ⟨hp, rfl, rfl⟩
  refine ((Meters.onBudget _).builds ht).bind fun u cap hu _ hca' => ?_
  rw [← hca'.1] at hp ⊢
  have hoff := hsearch u.candidate p p.chosen remaining hu hp.lt
  have hf : (fun env => u.candidate.eval env p.chosen) = f := funext hp.eval
  rw [hf] at hoff
  refine (Pass.sliced_builds (P := fun h r => h.Is r.1.chosen f ∧ h.names = u.candidate.names)
    (fun w => ?_) hu _ _ _).bind
    fun v r hv _ hr => .pure hv ⟨hr.1, hr.2, rfl⟩
  refine (runSearch_is (s := { u with work := w }) _ _ hu hoff hp).bind fun x q hx _ hq =>
    (Builds.get hx).bind fun _ y hy _ heq => ?_
  obtain ⟨rfl, rfl⟩ := heq
  exact .pure hy hq

omit hand hxor in
include hsearch in
lemma sweepStep_rebuilt (share : CreditShare) (remaining : ℕ) {pre : List ℕ} (hs : s.candidate.Wf)
    (hr : Rebuilt source (· ∈ pre) source.size s.candidate st.map) (hid : id < source.size)
    (hk : (source.node id).kind.isGate = true)
    (hold : ∀ i, (source.node id).reads i ≠ 0 → (source.node i).kind.isGate = true → i ∈ pre) :
    Builds passArena (sweepStep o source outputs search plan share remaining st id) s fun t st' =>
      Rebuilt source (· ∈ pre ++ [id]) source.size t.candidate st'.map := by
  refine ((Meters.spend 1).builds hs).bind fun t _ ht _ hca => graph_bind ht ?_
  refine (Meters.require.builds ht).bind fun u _ hu _ hca' => ?_
  rw [← hca.1, ← hca'.1] at hr
  have hbu : Builds passArena (buildNode o source plan st id) u fun v p =>
      v.candidate.Is p.chosen (fun env => source.valueAt env id) ∧
      v.candidate.names = u.candidate.names := by
    refine (build_rebuilt hsrc hr hu hid hk hold).bind fun v r hv _ hx => ?_
    refine ((((Meters.mustChange _ _ _).bind fun _ _ => (Meters.mustChange _ _ _).bind fun _ _ =>
      (Meters.mustChange _ _ _).bind
      fun l _ => .pure (P := fun p : Pick => p.chosen = r) rfl)).builds hv).mono fun y p _ _ hp =>
        ?_
    rw [hp.1, hp.2]
    exact hx
  refine hbu.bind fun v p hv he hp => ?_
  refine (replaceNode_is hsearch share remaining hv hp.1).bind fun x r hx he' hr' => .pure hx ?_
  have hnew := hr.gate hu hx (.trans he he') hr'.1 (hr'.2.1.trans hp.2)
  rwa [← hr'.2.2] at hnew

omit hand hxor in
include hsearch in
lemma sweepNodes_rebuilt (share : CreditShare) (later : ℕ) {pre : List ℕ}
    (post : List ℕ) (hs : s.candidate.Wf)
    (hr : Rebuilt source (· ∈ pre) source.size s.candidate st.map)
    (hga : ∀ id ∈ post, id < source.size ∧ (source.node id).kind.isGate = true)
    (hold : ∀ pre' id post', pre ++ post = pre' ++ id :: post' → ∀ i, (source.node id).reads i ≠ 0 →
      (source.node i).kind.isGate = true → i ∈ pre') :
    Builds passArena (sweepNodes o source outputs search plan share later post st) s fun t st' =>
      Rebuilt source (· ∈ pre ++ post) source.size t.candidate st'.map := by
  induction post generalizing pre s st with
  | nil =>
    rw [append_nil]
    exact .pure hs hr
  | cons id post ih =>
    obtain ⟨hid, hk⟩ := hga id (.head _)
    refine (sweepStep_rebuilt hsrc hsearch share _ hs hr hid hk (hold pre id post rfl)).bind
      fun t st' ht _ hr' => ?_
    have hap : pre ++ id :: post = pre ++ [id] ++ post := by rw [append_assoc, singleton_append]
    rw [hap] at hold ⊢
    exact ih ht hr' (fun x hx => hga x (.tail _ hx)) hold

include hsearch in
lemma sweepRun_redirects (rewriting : Bool)
    (hlt : ∀ output ∈ outputs, output.signal.id < source.size) (w : Work) :
    Builds passArena (sweepRun o source outputs search rewriting) { work := w } fun _ net =>
    Redirects source outputs net := by
  refine ((onWork_meters (schedule_yields hand hxor hsrc hlt)).builds wf_empty).bind
    fun s plan hs _ hpl => ?_
  obtain ⟨hcn, hpl⟩ := hpl
  refine ((Meters.spend _).builds hs).bind fun t _ ht _ hca => ?_
  have hss : Builds passArena (sweepSources o source plan (source.size - 1)) t fun u st =>
      Rebuilt source (· ∈ []) source.size u.candidate st.map := by
    refine ((Meters.mustChange _ _ _).builds ht).bind fun u l hu _ hca' => ?_
    refine rebuilt_sources hsrc SweepRun.map (hca'.1.trans (hca.1.trans hcn)) rfl
      (fun i v st hk hv hi hr => ?_) fun i st hk => ?_
    · rw [sweepSource, if_pos hk]
      refine (copySource_builds hsrc hv hr hi hk).bind fun x r hx _ hr' =>
        ((Meters.mustChange _ _ _).builds hx).bind fun y l hy _ hc'' => ?_
      refine .pure hy ?_
      rw [hc''.1]
      exact hr'.1
    · rw [sweepSource, if_neg hk]
  refine hss.bind fun u st hu _ hr =>
    ((Meters.onBudget _).builds hu).bind fun v share hv _ hca' => ?_
  rw [← hca'.1] at hr
  refine (sweepNodes_rebuilt hsrc hsearch share 0 plan.order hv hr hpl.gates
    fun pre id post hsp => hpl.older pre id post hsp).bind
    fun x st hx _ hr => graph_bind hx ?_
  have hke := hr.preserves_outputs hsrc hpl hx hlt
  have hos : ∀ output ∈ outputs.map (translatedOutput st.map), output.signal.id <
      x.candidate.size := fun output hmem =>
    hke.lt _ (mem_map_of_mem hmem)
  refine ((fresh_meters fun w => compact_redirects hx hand hxor hos _ w).builds hx).mono
    fun _ net _ _ hnet => ?_
  refine ⟨hke.trans hnet.2.preserves, hnet.2.endpoints.trans ?_⟩
  rw [List.map_map]
  rfl

end

/-! ## Stages -/

section

variable {o : ResidualOptions} {source : Xag}
  {outputs : List ResidualOutput} {net : ResidualNetwork}

/-- A network with its outputs on other signals. -/
lemma redirected_spec {signals : List Xsignal} (hlen : signals.length = net.outputs.length) :
    (net.redirected signals).map ResidualOutput.signal = signals ∧
      (net.redirected signals).map ResidualOutput.endpointInput =
      net.outputs.map ResidualOutput.endpointInput := by
  rw [ResidualNetwork.redirected]
  generalize net.outputs = outputs at hlen
  induction signals generalizing outputs with
  | nil =>
    obtain rfl := length_eq_zero_iff.1 hlen.symm
    exact ⟨rfl, rfl⟩
  | cons s signals ih =>
    cases outputs with
    | nil => cases hlen
    | cons output outputs =>
      obtain ⟨h1, h2⟩ := ih outputs (Nat.succ.inj hlen)
      exact ⟨congrArg (s :: ·) h1, congrArg (output.endpointInput :: ·) h2⟩

lemma Redirects.trans {next : ResidualNetwork} (h : Redirects source outputs net)
    (h' : Redirects net.graph net.outputs next) :
    Redirects source outputs next :=
  ⟨h.preserves.trans h'.preserves, h'.endpoints.trans h.endpoints⟩

lemma carried_redirects (hand : 0 < o.andCost) (hxor : 0 < o.xorCost)
    {search : Bool → Xag → Pick → Xsignal → ℕ → Search}
    (hsearch : ∀ rewriting, Proposes (search rewriting)) :
    Carried o search fun net => net.Priced o ∧ Redirects source outputs net where
  priced _ h := h.1
  mark _ _ h := ⟨⟨h.1.wf, h.1.lt, h.1.cost⟩, h.2.preserves, h.2.endpoints⟩
  compact net h g signals hpr affected w := by
    have hlen : signals.length = net.outputs.length := by
      have h := congrArg length (hpr.eval fun _ => false)
      rwa [length_map, length_map, ResidualNetwork.roots, length_map] at h
    obtain ⟨hsig, hend⟩ := redirected_spec hlen
    refine ((@carried_priced o search hand hxor).compact net h.1 g signals hpr affected w).and
      ((compact_redirects hpr.wf hand hxor
        (fun _ hmem => hpr.lt _ (signal_mem_of_redirected hmem)) affected w).mono
        fun _ next _ _ hn => h.2.trans ⟨hpr.trans ?_, hn.endpoints.trans hend⟩)
    rw [← hsig]
    exact hn.preserves
  sweep net h rewriting w := by
    refine ((@carried_priced o search hand hxor).sweep net h.1 rewriting w).and
      ((sweepRun_redirects h.1.wf hand hxor (hsearch rewriting) rewriting h.1.lt w).mono
        fun _ _ _ _ hn => h.2.trans hn)

end

section

variable {source : Xag} (hsrc : source.Wf) {search : Bool → Xag → Pick → Xsignal → ℕ → Search}
  (hsearch : ∀ rewriting, Proposes (search rewriting)) (o : ResidualOptions)
    (outputs : List ResidualOutput)
include hsrc hsearch

lemma optimizeResidual_redirects : Yields (optimizeResidual o source outputs search)
    (ResidualEnd.Keeps (Redirects source outputs)) := by
  refine (optimizeResidual_carries (P := fun net => net.Priced o ∧ Redirects source outputs net)
      source outputs fun hand hxor hlt =>
    ⟨carried_redirects hand hxor hsearch, fun affected w =>
      ((compact_builds hand hxor hsrc hlt affected w).mono fun _ _ _ _ h => h.1).and
      (compact_redirects hsrc hand hxor hlt affected w)⟩).mono fun e he => ?_
  cases e with
  | invalid => trivial
  | refused net =>
    cases net with
    | none => trivial
    | some net => exact he.2
  | accounting => exact he
  | feasible net => exact he.2

end

end LiveHD.Usyn
