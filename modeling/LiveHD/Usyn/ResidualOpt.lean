import LiveHD.Usyn.ResidualCost

/-!
# The networks of a residual optimization

A network is handed from stage to stage with the weight of its gates as its cost.  A sweep
returns a network that costs no more than the one it was given, so the check of the total cost
never fails.
-/

namespace LiveHD.Usyn

open Pass hiding onWork spend
open Function List ExceptT StateT StopM Xag Yields

open RefCount (counted)

/-! ## Networks -/

section

variable {o : ResidualOptions} {g : Xag} {outputs : List ResidualOutput} {s : PassState} {α : Type}

/-- A network whose cost is the weight of its gates. -/
structure ResidualNetwork.Priced (o : ResidualOptions) (net : ResidualNetwork) : Prop where
  wf : net.graph.Wf
  lt : ∀ output ∈ net.outputs, output.signal.id < net.graph.size
  cost : net.estimatedCost = net.graph.price o

lemma Pass.onWork_run (m : WorkM α) (s : PassState) :
    (onWork m).run.run s = (match (m.run.run s.work).1 with
    | .ok a => pure a
    | .error status => throw (.status status) : PassM α).run.run
      { s with work := (m.run.run s.work).2 } := rfl

lemma Pass.onWork_meters {m : WorkM α} {P : α → Prop} (h : Yields m P) :
    Meters (Pass.onWork m) P := by
  intro s
  refine ⟨trivial, ?_, fun a ha => h s.work a ?_⟩
  · change ((onWork m).run.run s).2.candidate = s.candidate
    rw [onWork_run]
    cases (m.run.run s.work).1 <;> rfl
  · change ((onWork m).run.run s).1 = .ok a at ha
    rw [onWork_run] at ha
    cases hm : (m.run.run s.work).1 with
    | ok b =>
      rw [hm] at ha
      cases ha
      rfl
    | error e =>
      rw [hm] at ha
      cases ha

lemma Pass.fresh_run (m : PassM α) (s : PassState) :
    (fresh m).run.run s = (match (m.run.run { work := s.work }).1 with
    | .ok a => pure a
    | .error e => throw e : PassM α).run.run
      { s with work := (m.run.run { work := s.work }).2.work } := rfl

lemma Pass.fresh_meters {A : Arena PassState} {m : PassM α} {P : α → Prop}
    (h : ∀ w, Builds A m { work := w } fun _ a => P a) :
    Meters (fresh m) P := by
  intro s
  refine ⟨trivial, ?_, fun a ha => (h s.work).2.2 a ?_⟩
  · change ((fresh m).run.run s).2.candidate = s.candidate
    rw [fresh_run]
    cases (m.run.run { work := s.work }).1 <;> rfl
  · change ((fresh m).run.run s).1 = .ok a at ha
    rw [fresh_run] at ha
    cases hm : (m.run.run { work := s.work }).1 with
    | ok b =>
      rw [hm] at ha
      cases ha
      rfl
    | error e =>
      rw [hm] at ha
      cases ha

/-- What is known of a rebuilt graph and the images of the nodes. -/
structure Compacting (o : ResidualOptions) (h : Xag) (map : ℕ → Xsignal) (cost : ℕ) : Prop where
  lt : ∀ i, (map i).id < h.size
  price : h.price o = cost

lemma Compacting.update {h k : Xag} {map : ℕ → Xsignal} {cost cost' : ℕ}
    (hc : Compacting o h map cost) (he : h.Extends k) {id : ℕ}
    {r : Xsignal} (hr : r.id < k.size) (hpr : k.price o = cost') :
    Compacting o k (Function.update map id r) cost' where
  lt i := by
    rcases eq_or_ne i id with rfl | hne
    · rwa [update_self]
    · rw [update_of_ne hne]
      exact (hc.lt i).trans_le he.size
  price := hpr

lemma Xag.price_pushSource (g : Xag) (name : String) : (g.pushSource name).price o = g.price o := by
  rw [price, size_pushSource, Finset.sum_range_succ, node_pushSource]
  refine (add_zero _).trans (Finset.sum_congr rfl fun m hm => ?_)
  rw [node_pushSource_of_lt g name (Finset.mem_range.1 hm)]

lemma Pass.copySource_price (hs : s.candidate.Wf) (id : ℕ) :
    Builds passArena (copySource g id) s fun t r =>
    r.id < t.candidate.size ∧ t.candidate.price o = s.candidate.price o := by
  have hwf := input_builds hs (g.names.getD (g.node id).sourceIndex "")
  have hpu := input_pushes (g.names.getD (g.node id).sourceIndex "") s.candidate
  refine (onGraph_builds (hwf.and hpu) hs).mono fun t r _ _ hr => ?_
  obtain ⟨⟨-, -, his, -⟩, hgr, -⟩ := hr
  refine ⟨his.lt, ?_⟩
  rw [hgr, price_pushSource]

lemma copySources_compacting (hs : s.candidate.Wf) (h0 : s.candidate.price o = 0) :
    Builds passArena (copySources g) s fun t map => Compacting o t.candidate map 0 := by
  refine .foldlM (A := passArena) (Q := fun _ t map => Compacting o t.candidate map 0) [] _
    hs ⟨fun _ => hs.pos, h0⟩
    fun pre id post _ t map ht _ hmap => ?_
  refine .ite (fun _ => ?_) fun _ => .pure ht hmap
  refine (copySource_price (o := o) ht id).map fun u r _ he hr =>
    hmap.update he hr.1 (hr.2.trans hmap.price)

lemma compactNode_builds (hs : s.candidate.Wf) {st : (ℕ → Xsignal) × ℕ}
    (hst : Compacting o s.candidate st.1 st.2) {id : ℕ}
    (hg : (g.node id).kind.isGate = true) : Builds passArena (compactNode o g st id) s fun t st' =>
      Compacting o t.candidate st'.1 st'.2 ∧ st'.2 ≤ st.2 + weight o (g.node id).kind := by
  refine ((Meters.spend 1).builds hs).bind fun t _ ht _ hca => ?_
  rw [← hca.1] at hst
  refine graph_bind ht ?_
  refine (gate_appended ht hg _ _).bind fun v r hv he hr => ?_
  refine graph_bind hv ?_
  refine .pure hv ⟨hst.update he hr.2.2.1 ?_, ?_⟩
  · rw [hr.2.2.2.price he, hst.price]
  · split
    · exact le_rfl
    · exact Nat.le_add_right _ _

variable (hand : 0 < o.andCost) (hxor : 0 < o.xorCost)

include hand hxor

/-- A compacted network costs at most the weight of the live gates. -/
lemma compact_builds (hg : g.Wf) (hlt : ∀ output ∈ outputs, output.signal.id < g.size)
    (affected : List Bool) (w : Work) :
    Builds passArena (compact o g outputs affected) { work := w } fun _ net =>
      net.Priced o ∧ ∃ live : Schedule, live.Ok o g outputs ∧ net.estimatedCost ≤ live.cost := by
  have hem := wf_empty
  refine ((onWork_meters (schedule_yields hand hxor hg hlt)).builds hem).bind fun s live hs _ hlv =>
    ?_
  obtain ⟨hca, hlv⟩ := hlv
  refine ((Meters.spend _).builds hs).bind fun t _ ht _ hca' => ?_
  have h0 : t.candidate.price o = 0 := by
    rw [hca'.1, hca]
    rfl
  refine (copySources_compacting ht h0).bind fun u map hu _ hmap => ?_
  have hlo := Builds.foldlM (A := passArena) (f := compactNode o g) (b := (map, 0))
    (Q := fun pre t st => Compacting o t.candidate st.1 st.2 ∧
    st.2 ≤ (pre.map fun id => weight o (g.node id).kind).sum) [] live.order hu ⟨hmap, Nat.zero_le _⟩
        fun pre id post hsp v st hv _ hst => by
      have hmem : id ∈ live.order := by
        rw [show live.order = pre ++ id :: post from hsp]
        exact mem_append_right _ (.head _)
      refine (compactNode_builds hv hst.1 (hlv.gates id hmem).2).mono fun x st' _ _ hst' =>
        ⟨hst'.1, ?_⟩
      rw [map_append, sum_append]
      exact hst'.2.trans (Nat.add_le_add_right hst.2 _)
  refine hlo.bind fun v st hv _ hst => ?_
  refine graph_bind hv ?_
  refine Builds.pure hv ⟨⟨hv, fun output hmem => ?_, hst.1.price.symm⟩, live, hlv,
    hst.2.trans hlv.cost.ge⟩
  obtain ⟨output', -, rfl⟩ := mem_map.1 hmem
  change (translated st.1 output'.signal).id < _
  rw [id_translated]
  exact hst.1.lt _

end

/-! ## Whole sweeps -/

section

variable {o : ResidualOptions} {source : Xag} {outputs : List ResidualOutput} {plan : Schedule}

lemma Schedule.Ok.cost_le (hpl : plan.Ok o source outputs) : plan.cost ≤ source.price o := by
  have hle := @RefCount.sum_le_counted _ (fun _ => 1) _ hpl.nodup
    (fun m hm => ⟨(hpl.gates m hm).1, one_ne_zero⟩)
    fun m => weight o (source.node m).kind
  rwa [hpl.cost]

/-- What is live when a sweep is over was counted. -/
lemma Sweeping.live_le {g : Xag} {st : SweepRun} {live : Schedule}
    (hlt : ∀ output ∈ outputs, output.signal.id < source.size)
    (hsw : Sweeping o source outputs plan [] g st)
    (hlv : live.Ok o g (outputs.map (translatedOutput st.map))) :
    live.cost ≤ st.ledger.cost := by
  have han : ∀ n, (0 : ℤ) ≤ pending source outputs st.map [] n := fun n => Int.natCast_nonneg _
  have hco : ∀ id ∈ live.order, st.ledger.refs id ≠ 0 := by
    refine hlv.reached (fun n => st.ledger.refs n ≠ 0) ?_ fun m hm _ hpos i hi =>
      hsw.exact.pos_of_reads han hm hpos hi
    intro output' hmem
    obtain ⟨output, hou, rfl⟩ := mem_map.1 hmem
    refine hsw.exact.pos_of_anchor (Int.natCast_pos.2 ?_)
    rw [pending_nil hlt, countP_pos_iff]
    exact ⟨output, hou, decide_eq_true (id_translated st.map output.signal).symm⟩
  rw [hlv.cost, hsw.exact.price]
  exact RefCount.sum_le_counted hlv.nodup (fun m hm => ⟨(hlv.gates m hm).1, hco m hm⟩) _

variable (hand : 0 < o.andCost) (hxor : 0 < o.xorCost)

include hand hxor

/-- The sources and any number of nodes. -/
lemma sweepPrefix_builds (hsrc : source.Wf) (hpl : plan.Ok o source outputs)
    (search : Xag → Pick → Xsignal → ℕ → Search)
    (share : CreditShare) (later : ℕ) {pre post : List ℕ}
    (hsp : plan.order = pre ++ post) (w : Work) :
    Builds passArena (sweepSources o source plan (source.size - 1) >>=
      sweepNodes o source outputs search plan share later pre)
      { work := w } fun t st => Sweeping o source outputs plan post t.candidate st := by
  have hpos := hsrc.pos
  refine (sweepSources_builds hand hxor hsrc hpl (by omega) w).bind fun t st ht _ hst => ?_
  rw [Nat.add_sub_cancel' hpos, laterSources_size, hsp] at hst
  refine sweepNodes_builds hand hxor search share later hsrc pre ht hst
    (hpl.queued [] _ hsp) fun id hid => ?_
  refine (hpl.gates id ?_).2
  rw [hsp]
  exact mem_append_left _ hid

lemma sweepRun_builds (hsrc : source.Wf) (hlt : ∀ output ∈ outputs, output.signal.id < source.size)
    (search : Xag → Pick → Xsignal → ℕ → Search) (rewriting : Bool) (w : Work) :
    Builds passArena (sweepRun o source outputs search rewriting) { work := w } fun _ net =>
      net.Priced o ∧ net.estimatedCost ≤ source.price o := by
  have hem := wf_empty
  refine ((onWork_meters (schedule_yields hand hxor hsrc hlt)).builds hem).bind
    fun s plan hs _ hpl => ?_
  obtain ⟨hca, hpl⟩ := hpl
  refine ((Meters.spend _).builds hs).bind fun t _ ht _ hca' => ?_
  obtain ⟨tw, tg⟩ := t
  obtain rfl : tg = {} := hca'.1.trans hca
  have hpos := hsrc.pos
  refine (sweepSources_builds hand hxor hsrc hpl (n := source.size - 1) (by omega) tw).bind
    fun u st hu _ hst => ?_
  rw [Nat.add_sub_cancel' hpos, laterSources_size] at hst
  refine ((Meters.onBudget _).builds hu).bind fun v share hv _ hca => ?_
  rw [← hca.1, ← append_nil plan.order] at hst
  have hqu := hpl.queued [] plan.order rfl
  rw [← append_nil plan.order] at hqu
  refine (sweepNodes_builds hand hxor search share 0 hsrc plan.order hv hst hqu
    fun id hid => (hpl.gates id hid).2).bind
    fun x st hx _ hst => ?_
  refine graph_bind hx ?_
  have hos : ∀ output ∈ outputs.map (translatedOutput st.map),
      output.signal.id < x.candidate.size := by
    intro output' hmem
    obtain ⟨output, -, rfl⟩ := mem_map.1 hmem
    change (translated st.map output.signal).id < _
    rw [id_translated]
    exact hst.lt _
  refine ((fresh_meters fun w => compact_builds hand hxor hx hos _ w).builds hx).mono
    fun _ net _ _ hnet => ?_
  obtain ⟨-, hpr, live, hlv, hco⟩ := hnet
  refine ⟨hpr, ?_⟩
  have hsw := hst.cost
  calc net.estimatedCost
    _ ≤ live.cost := hco
    _ ≤ st.ledger.cost := hst.live_le hlt hlv
    _ ≤ plan.cost := hsw
    _ ≤ source.price o := hpl.cost_le

end

/-! ## Stages -/

/-- The network an optimization ends with has `P`; the check of the cost does not fail. -/
def ResidualEnd.Keeps (P : ResidualNetwork → Prop) : ResidualEnd → Prop
  | .refused (some net) | .feasible net => P net
  | .accounting => False
  | _ => True

/-- A stage hands on a network that has `P` or ends with one. -/
def Accounted (P : ResidualNetwork → Prop) : Except ResidualEnd ResidualNetwork → Prop
  | .ok net => P net
  | .error e => e.Keeps P

/-- What compaction and the sweeps with `search` carry from network to network. -/
structure Carried (o : ResidualOptions) (search : Bool → Xag → Pick → Xsignal → ℕ → Search)
    (P : ResidualNetwork → Prop) : Prop where
  priced : ∀ net, P net → net.Priced o
  mark : ∀ net affected, P net → P { net with affected := affected }
  compact : ∀ net, P net → ∀ g signals, Preserves net.graph net.roots g signals → ∀ affected w,
    Builds passArena (compact o g (net.redirected signals) affected) { work := w } fun _ next =>
    P next
  sweep : ∀ net, P net → ∀ rewriting w,
    Builds passArena (sweepRun o net.graph net.outputs (search rewriting) rewriting)
    { work := w } fun _ next => P next

section

variable {o : ResidualOptions} {search : Bool → Xag → Pick → Xsignal → ℕ → Search}
  {P : ResidualNetwork → Prop} {current : ResidualNetwork}

lemma signal_mem_of_redirected {signals : List Xsignal} {output : ResidualOutput}
    (h : output ∈ current.redirected signals) :
    output.signal ∈ signals := by
  rw [ResidualNetwork.redirected] at h
  generalize current.outputs = outputs at h
  induction signals generalizing outputs with
  | nil => nomatch h
  | cons s signals ih =>
    cases outputs with
    | nil => nomatch h
    | cons old outputs =>
      rcases mem_cons.1 h with rfl | h
      · exact .head _
      · exact .tail _ (ih outputs h)

lemma stageWhen_yields {stage : ResidualNetwork → Stage} (enabled : Bool)
    (hst : ∀ net : ResidualNetwork, P net →
    Yields (stage net) (Accounted P))
    {r : Except ResidualEnd ResidualNetwork} (hr : Accounted P r) :
    Yields (stageWhen enabled stage r) (Accounted P) := by
  cases r with
  | error e => exact .pure hr
  | ok net => exact .ite (fun _ => hst net hr) fun _ => .pure hr

section

variable (hc : Carried o search P)
include hc

lemma trialStage_yields {trial : Xag → List Xsignal → PassM (Option (Xag × List Xsignal))}
    (htr : ∀ w, Builds passArena (trial current.graph current.roots) { work := w } fun _ r =>
      ∀ graph signals, r = some (graph, signals) →
        Preserves current.graph current.roots graph signals)
    (accept : ResidualNetwork → ResidualNetwork → Bool) (hnet : P current) :
    Yields (trialStage o trial accept current) (Accounted P) := by
  have hrun := sliced_yields (attempt_yields
      (onPass_yields (P := fun r : Option (Xag × List Xsignal) × Xag =>
    ∀ graph signals, r.1 = some (graph, signals) →
      Preserves current.graph current.roots graph signals) htr)) o.stageWork 1
    (16 * current.graph.size + 32)
  refine hrun.bind fun r hr => ?_
  cases hr' : r.bind Prod.fst with
  | none => exact pure hnet
  | some rebuilt =>
    obtain ⟨graph, signals⟩ := rebuilt
    have hpr : Preserves current.graph current.roots graph signals := by
      cases r with
      | none => cases hr'
      | some r => exact hr r rfl graph signals hr'
    refine (attempt_yields (onPass_yields (P := fun r : ResidualNetwork × Xag => P r.1) fun w =>
      hc.compact current hnet graph signals hpr current.affected w)).bind fun next hn => ?_
    cases next with
    | none => exact pure hnet
    | some next =>
      refine pure ?_
      split
      · exact hc.mark _ _ (hn next rfl)
      · exact hnet

variable (hand : 0 < o.andCost) (hxor : 0 < o.xorCost)
include hand hxor

lemma sweepStage_yields (depths : List ℕ) (rewriting : Bool) (hnet : P current) :
    Yields (sweepStage o depths (search rewriting) rewriting current) (Accounted P) := by
  have hpr := hc.priced _ hnet
  have hrun := attempt_yields (onPass_yields (P := fun r : ResidualNetwork × Xag => P r.1 ∧
      r.1.estimatedCost ≤ current.graph.price o) fun w =>
    ((hc.sweep current hnet rewriting w).and
      (sweepRun_builds hand hxor hpr.wf hpr.lt (search rewriting) rewriting w)).mono
      fun _ _ _ _ h => ⟨h.1, h.2.2⟩)
  refine hrun.bind fun next hn => ?_
  cases next with
  | none => exact pure hnet
  | some next =>
    obtain ⟨hne, hle⟩ := hn next rfl
    rw [← hpr.cost] at hle
    exact ite (fun hlt => absurd hlt (Nat.not_lt.2 hle)) fun _ =>
      ite (fun _ => pure (hc.mark _ _ hne)) fun _ => pure hnet

lemma residualStages_yields (depths : List ℕ) (skipped : Bool) (hnet : P current) :
    Yields (residualStages o depths search skipped current) (Accounted P) := by
  have hst : Accounted P (.ok current) := hnet
  refine (stageWhen_yields _ (fun net hnet => trialStage_yields hc (fun w => ?_) _ hnet) hst).bind
    fun r hr => ?_
  · refine (sweepXag_builds (hc.priced _ hnet).wf _ w).map fun _ res _ _ hres graph signals heq =>
      ?_
    cases heq
    exact hres.1
  refine (stageWhen_yields _ (fun net hnet => trialStage_yields hc (fun w => ?_) _ hnet) hr).bind
    fun r hr => ?_
  · refine (balanceXag_builds (hc.priced _ hnet).wf _ w).map fun _ res _ _ hres graph signals heq =>
      ?_
    cases heq
    exact hres
  refine (stageWhen_yields _ (fun net hnet => trialStage_yields hc (fun w => ?_) _ hnet) hr).bind
    fun r hr => ?_
  · refine (balanceMuxChains_builds (hc.priced _ hnet).wf _ w).map
      fun _ res _ _ hres graph signals heq => ?_
    split at heq
    · cases heq
    · cases heq
      exact hres
  refine (stageWhen_yields _ (fun net hnet => sweepStage_yields hc hand hxor _ true hnet) hr).bind
    fun r hr => ?_
  exact stageWhen_yields _ (fun net hnet => sweepStage_yields hc hand hxor _ false hnet) hr

end

/-- What the first compaction gives and the stages carry, the network at the end has. -/
lemma optimizeResidual_carries (graph : Xag) (outputs : List ResidualOutput)
    (hc : 0 < o.andCost → 0 < o.xorCost → (∀ output ∈ outputs, output.signal.id < graph.size) →
      Carried o search P ∧ ∀ affected w,
      Builds passArena (compact o graph outputs affected) { work := w } fun _ net => P net) :
    Yields (optimizeResidual o graph outputs search) (ResidualEnd.Keeps P) := by
  refine ite (fun _ => pure trivial) fun hv => ?_
  obtain ⟨hand, hxor, -⟩ := not_not.1 hv
  refine ite (fun _ => pure trivial) fun _ => ?_
  have hany : ∀ {β : Type} (m : WorkM β), Yields (StopM.onWork m) fun _ =>
    True := fun _ _ _ _ => trivial
  refine (hany _).bind fun granted _ => ite (fun _ => pure trivial) fun _ =>
    ite (fun _ => pure trivial) fun hlt => ?_
  have hlt : ∀ output ∈ outputs, output.signal.id < graph.size := by
    intro output hmem
    by_contra hge
    exact hlt (any_eq_true.2 ⟨output, hmem, decide_eq_true (not_lt.1 hge)⟩)
  obtain ⟨hc, hco⟩ := hc hand hxor hlt
  refine (hany _).bind fun before _ => ?_
  cases before with
  | none => exact pure trivial
  | some before =>
    refine (attempt_yields (onPass_yields (P := fun r : ResidualNetwork × Xag => P r.1) fun w =>
      hco (outputs.map fun _ => false) w)).bind fun current hcu => ?_
    cases current with
    | none => exact pure trivial
    | some current =>
      refine (residualStages_yields hc hand hxor _ _ (hcu current rfl)).bind fun r hr => ?_
      cases r with
      | error e => exact pure hr
      | ok net => exact pure hr

lemma carried_priced (hand : 0 < o.andCost) (hxor : 0 < o.xorCost) :
    Carried o search (ResidualNetwork.Priced o) where
  priced _ h := h
  mark _ _ h := ⟨h.wf, h.lt, h.cost⟩
  compact _ _ _ _ hpr affected w := (compact_builds hand hxor hpr.wf
    (fun _ hmem => hpr.lt _ (signal_mem_of_redirected hmem)) affected w).mono fun _ _ _ _ h => h.1
  sweep _ h rewriting w := (sweepRun_builds hand hxor h.wf h.lt (search rewriting) rewriting w).mono
    fun _ _ _ _ h => h.1

lemma optimizeResidual_yields (graph : Xag) (outputs : List ResidualOutput) (hg : graph.Wf)
    (search : Bool → Xag → Pick → Xsignal → ℕ → Search) :
    Yields (optimizeResidual o graph outputs search) (· ≠ .accounting) := by
  refine (optimizeResidual_carries (P := ResidualNetwork.Priced o) graph outputs
      fun hand hxor hlt => ⟨carried_priced hand hxor, fun affected w =>
    (compact_builds hand hxor hg hlt affected w).mono fun _ _ _ _ h => h.1⟩).mono fun e he => ?_
  rintro rfl
  exact he

end

/-! ## The accounting -/

/-- A ledger that counts the edges of the counted gates and the anchors, and costs the weight of the
counted gates. -/
structure Ledger.Tallies (o : ResidualOptions) (g : Xag) (anchors : ℕ → ℕ) (l : Ledger) : Prop where
  refs : ∀ n, l.refs n = (∑ m ∈ Finset.range g.size, if l.refs m = 0 then 0
    else (g.node m).reads n) + anchors n
  cost : l.cost = ∑ m ∈ Finset.range g.size, if l.refs m = 0 then 0 else weight o (g.node m).kind

lemma Ledger.Exact.tallies {o : ResidualOptions} {g : Xag} {anchors : ℕ → ℕ} {l : Ledger}
    (h : l.Exact o g (fun n => anchors n) fun _ => 0) : l.Tallies o g anchors where
  refs n := by
    have hc := h.count n
    exact_mod_cast hc
  cost := h.price

section

variable {o : ResidualOptions} {source : Xag} {outputs : List ResidualOutput} {plan : Schedule}

/-- A node and its window, after any number of nodes. -/
def sweepWindow (o : ResidualOptions) (source : Xag) (outputs : List ResidualOutput)
    (search : Xag → Pick → Xsignal → ℕ → Search)
    (plan : Schedule) (share : CreditShare) (pre : List ℕ) (id remaining : ℕ) :
    PassM (SweepRun × Pick) := do
  let st ← sweepSources o source plan (source.size - 1) >>=
    sweepNodes o source outputs search plan share (remaining + 1) pre
  let p ← buildNode o source plan st id
  let r ← replaceNode o source outputs search plan share remaining st id p
  pure (st, r.1)

variable (hand : 0 < o.andCost) (hxor : 0 < o.xorCost)

include hand hxor

lemma sweepWindow_builds (hsrc : source.Wf) (hpl : plan.Ok o source outputs)
    (search : Xag → Pick → Xsignal → ℕ → Search)
    (share : CreditShare) {pre post : List ℕ} {id : ℕ}
    (hsp : plan.order = pre ++ id :: post) (w : Work) :
    Builds passArena (sweepWindow o source outputs search plan share pre id post.length)
    { work := w } fun t r =>
      r.2.ledger.Exact o t.candidate
      (fun n => pending source outputs (update r.1.map id r.2.chosen) post n) fun _ => 0 := by
  have hmem : id ∈ plan.order := by
    rw [hsp]
    exact mem_append_right _ (.head _)
  have hqu := hpl.queued pre (id :: post) hsp
  refine (sweepPrefix_builds hand hxor hsrc hpl search share _ hsp w).bind fun t st ht _ hst => ?_
  refine (buildNode_builds hand hxor hsrc ht hst hqu (hpl.gates id hmem).2 ⟨_,
    (source.node id).level + o.depthSlack⟩ rfl).bind
    fun u p hu he hp => ?_
  refine (replaceNode_builds hand hxor search share _ hu hp).bind fun v r hv he' hr => .pure hv ?_
  let st' := { st with map := update st.map id r.1.chosen, ledger := r.1.ledger }
  have hsw : Sweeping o source outputs plan post v.candidate st' :=
    hr.1.sweeping hst (.trans he he') hqu rfl rfl rfl
  exact hsw.exact

end

/-- With positive weights, the ledger of a sweep is exact after any number of sources, after any
number of nodes and after any search for a replacement of the next node, with an anchor for each
edge of an unbuilt node and each output.  A candidate that is refused leaves the counts and the cost
as they were.  A sweep returns a network that costs no more than its input, and an optimization does
not fail the check of the total cost. -/
theorem residual_accounting {o : ResidualOptions} (hand : 0 < o.andCost) (hxor : 0 < o.xorCost)
    {source : Xag} (hsrc : source.Wf)
    {outputs : List ResidualOutput} (hlt : ∀ output ∈ outputs, output.signal.id < source.size) :
    (∀ w plan, ((schedule o source outputs).run.run w).1 = .ok plan → ∀ (w' : Work) search share,
      (∀ n < source.size, ∀ st t, (sweepSources o source plan n).run.run { work := w' } =
        (.ok st, t) →
        st.ledger.Tallies o t.candidate
          (pending source outputs st.map (laterSources source (1 + n) ++ plan.order))) ∧
      (∀ pre post, plan.order = pre ++ post →
        ∀ st t, (sweepSources o source plan (source.size - 1) >>=
          sweepNodes o source outputs search plan share post.length pre).run.run { work := w' } =
          (.ok st, t) →
        st.ledger.Tallies o t.candidate (pending source outputs st.map post)) ∧
      ∀ pre id post, plan.order = pre ++ id :: post → ∀ st p t,
        (sweepWindow o source outputs search plan share pre id post.length).run.run
        { work := w' } = (.ok (st, p), t) →
        p.ledger.Tallies o t.candidate (pending source outputs (update st.map id p.chosen) post)) ∧
    (∀ place candidate p s q t, (consider o place candidate p).run.run s = (.ok (false, q), t) →
      q.ledger.refs = p.ledger.refs ∧ q.ledger.cost = p.ledger.cost) ∧
    (∀ (w : Work) search rewriting net t,
      (sweepRun o source outputs search rewriting).run.run { work := w } = (.ok net, t) →
      net.estimatedCost = net.graph.price o ∧ net.estimatedCost ≤ source.price o) ∧
    ∀ o' outputs' search (w : Work) r, ((optimizeResidual o' source outputs' search).run.run w).1 =
    .ok r → r ≠ .accounting := by
  refine ⟨fun w plan hplan w' search share => ?_, fun place candidate p s q t hrun => ?_,
    fun w search rewriting net t hrun => ?_,
    fun o' outputs' search w r hr => optimizeResidual_yields source outputs' hsrc search w r hr⟩
  · have hplan := schedule_yields hand hxor hsrc hlt w plan hplan
    refine ⟨fun n hn st t hrun => ?_, fun pre post hsplit st t hrun => ?_,
      fun pre id post hsplit st p t hrun => ?_⟩
    · exact ((sweepSources_builds hand hxor hsrc hplan hn w').of_run hrun).exact.tallies
    · exact ((sweepPrefix_builds hand hxor hsrc hplan search share _ hsplit w').of_run
        hrun).exact.tallies
    · exact ((sweepWindow_builds hand hxor hsrc hplan search share hsplit w').of_run hrun).tallies
  · have hrestored := (consider_restores place candidate p s).of_run hrun rfl
    exact ⟨hrestored.refs, hrestored.cost⟩
  · have hnet := (sweepRun_builds hand hxor hsrc hlt search rewriting w).of_run hrun
    exact ⟨hnet.1.cost, hnet.2⟩

/-- A gate that equals an older one, with a reader. -/
def sharedXag : Xag := runOps [.input "a", .input "b", .land ⟨1, false⟩ ⟨2, false⟩,
    .lxor ⟨1, false⟩ ⟨2, false⟩,
  .land ⟨3, false⟩ ⟨4, true⟩, .lxor ⟨5, false⟩ ⟨1, false⟩]

def sharedOutputs : List ResidualOutput := [⟨⟨6, false⟩, false⟩, ⟨⟨3, true⟩, true⟩]

def sharedWork : Work := { budget := { remaining := 10000 } }

/-- Offer the older gate for the last node but one. -/
def offerShared (_ : Xag) (_ : Pick) (_ : Xsignal) (remaining : ℕ) : Search :=
  if remaining = 1 then .gate .andGate ⟨1, false⟩ ⟨2, false⟩ fun s =>
    .consider s fun _ => .done else .done

/-- The older gate is taken and two gates die. -/
theorem residual_accounting_shared : sharedXag.price {} = 12 ∧
    (((sweepRun {} sharedXag sharedOutputs offerShared true).run.run
      { work := sharedWork }).1.toOption.map fun net =>
      (net.estimatedCost, net.outputs, net.affected)) =
      some (6, [⟨⟨4, false⟩, false⟩, ⟨⟨3, true⟩, true⟩], [true, false]) ∧
    ∀ net t, (sweepRun {} sharedXag sharedOutputs offerShared true).run.run
    { work := sharedWork } = (.ok net, t) →
      net.estimatedCost ≤ sharedXag.price {} := by
  refine ⟨by decide +kernel, by decide +kernel, fun net t hrun => ?_⟩
  have hpos : 0 < ({} : ResidualOptions).andCost ∧ 0 < ({} : ResidualOptions).xorCost := by decide
  have hlt : ∀ output ∈ sharedOutputs, output.signal.id < sharedXag.size := by decide
  obtain ⟨-, -, hsweep, -⟩ := residual_accounting hpos.1 hpos.2 (wf_runOps _) hlt
  exact (hsweep sharedWork offerShared true net t hrun).2

end LiveHD.Usyn
