import LiveHD.Usyn.XagLnet
import LiveHD.Usyn.Supply

/-!
# Networks through the graph and back

An imported network has its combinational inputs as the sources of the graph, in order, and
every node as a signal with the same function; exporting a graph keeps its functions.
-/

namespace LiveHD.Usyn

open Option hiding any map map_map mem_map or or_assoc
open Synth Pass Function List False Forall₂ Lnet Nat Runs XagRegion Xsignal

/-! ## Sources -/

/-- The source of a graph with an index. -/
structure Xag.IsSource (g : Xag) (s : Xsignal) (k : ℕ) : Prop where
  plain : s.inverted = false
  lt : s.id < g.size
  kind : (g.node s.id).kind = .source
  index : (g.node s.id).sourceIndex = k

namespace Xag

variable {g h : Xag} {s : Xsignal} {k : ℕ}

lemma IsSource.mono (hs : g.IsSource s k) (he : g.Extends h) : h.IsSource s k where
  plain := hs.plain
  lt := hs.lt.trans_le he.size
  kind := (he.kind hs.lt).trans hs.kind
  index := (he.sourceIndex hs.lt).trans hs.index

lemma IsSource.is (hs : g.IsSource s k) (hg : g.Wf) : g.Is s fun env => env k := by
  refine ⟨hs.lt, fun env => ?_⟩
  rw [eval, value, hs.plain, Bool.xor_false, hg.valueAt_source env hs.lt hs.kind, hs.index]

lemma input_isSource (hg : g.Wf) (name : String) : Runs meter (input name) g 1 fun h s =>
    h.IsSource s g.names.length ∧ h.names = g.names ++ [name] := by
  refine runs_of_builds (input_room g name) ?_ rfl
  refine (Builds.get hg).bind fun _ h hh _ heq => ?_
  obtain ⟨rfl, rfl⟩ := heq
  refine .ite (fun _ => .throw hh) fun hro => ?_
  have hwf := hh.pushSource (Nat.lt_of_not_le hro) name
  refine (Builds.set hwf (extends_pushSource h name)).bind fun k _ hk _ heq => ?_
  subst heq
  have hn := node_pushSource h name
  refine .pure hk ⟨⟨rfl, ?_, ?_, ?_⟩, rfl⟩
  · rw [size_pushSource]
    exact lt_succ_self _
  · exact congrArg Node.kind hn
  · exact congrArg Node.sourceIndex hn

lemma sourceCount_lt {i j : ℕ} (hij : i < j) (hk : (g.node i).kind = .source) :
    g.sourceCount i < g.sourceCount j := by
  have hmo : Monotone g.sourceCount := monotone_nat_of_le_succ fun n => by
    rw [sourceCount_succ]
    exact le_add_right _ _
  refine lt_of_lt_of_le ?_ (hmo hij)
  rw [sourceCount_succ, if_pos hk]
  exact lt_succ_self _

/-- The sources have their indices apart. -/
lemma Wf.source_unique (hg : g.Wf) {i j : ℕ} (hi : i < g.size) (hj : j < g.size)
    (hki : (g.node i).kind = .source)
    (hkj : (g.node j).kind = .source)
    (hin : (g.node i).sourceIndex = (g.node j).sourceIndex) : i = j := by
  rw [hg.sourceIndex_eq hi hki, hg.sourceIndex_eq hj hkj] at hin
  rcases lt_trichotomy i j with h | h | h
  · exact absurd hin (sourceCount_lt h hki).ne
  · exact h
  · exact absurd hin (sourceCount_lt h hkj).ne'

end Xag

/-- The sources of a network in the order of the combinational inputs, with their names. -/
def ciNodes (net : Lnet) : List (ℕ × String) :=
  net.inputs.map (fun i => (i.node, i.name)) ++ net.latches.map fun l => (l.q, l.name)

section

variable {net : Lnet}

lemma ciNodes_source (hnet : net.Valid) {k : ℕ} {e : ℕ × String} (he : (ciNodes net)[k]? = some e) :
    e.1 < net.size ∧ (net.node e.1).kind = .source ∧ net.ciIndex (net.node e.1) = k := by
  rw [ciNodes] at he
  rcases lt_or_ge k net.inputs.length with hlt | hge
  · rw [getElem?_append_left (by rwa [length_map]), getElem?_map] at he
    obtain ⟨i, hi, rfl⟩ := map_eq_some_iff.1 he
    obtain ⟨n, hn, hk, hla, rfl⟩ := hnet.inputs k i hi
    rw [node_eq hn]
    refine ⟨(List.getElem?_eq_some_iff.1 hn).1, hk, ?_⟩
    rw [ciIndex, hla]
    rfl
  · rw [getElem?_append_right (by rwa [length_map]), length_map, getElem?_map] at he
    obtain ⟨l, hl, rfl⟩ := map_eq_some_iff.1 he
    obtain ⟨n, hn, hk, hla, hin⟩ := hnet.latches _ l hl
    rw [node_eq hn]
    refine ⟨(List.getElem?_eq_some_iff.1 hn).1, hk, ?_⟩
    rw [ciIndex, hla, hin]
    exact add_sub_of_le hge

/-- No source stands twice among the combinational inputs. -/
lemma ciNodes_ne (hnet : net.Valid) {pre post : List (ℕ × String)} {x : ℕ × String}
    (hsp : ciNodes net = pre ++ x :: post) :
    ∀ e ∈ pre, e.1 ≠ x.1 := by
  intro e he heq
  obtain ⟨k, hk⟩ := mem_iff_getElem?.1 he
  have hlt := (List.getElem?_eq_some_iff.1 hk).1
  have hek : (ciNodes net)[k]? = some e := by rwa [hsp, getElem?_append_left hlt]
  have hex : (ciNodes net)[pre.length]? = some x := by
    rw [hsp, getElem?_append_right le_rfl, Nat.sub_self]
    rfl
  have hin := (ciNodes_source hnet hek).2.2
  rw [heq, (ciNodes_source hnet hex).2.2] at hin
  exact hlt.ne' hin

/-- The combinational input that a source node is. -/
lemma ciNodes_of_source (hso : net.Sourced) {id : ℕ} {n : Lnet.Node} (hn : net.nodes[id]? = some n)
    (hk : n.kind = .source) :
    ∃ e, (ciNodes net)[net.ciIndex n]? = some e ∧ e.1 = id := by
  have hold := hso id n hn hk
  rw [ciNodes, ciIndex]
  split at hold
  next hla =>
    obtain ⟨l, hl, hq⟩ := hold
    refine ⟨(l.q, l.name), ?_, hq⟩
    rw [if_pos hla, getElem?_append_right (by rw [length_map]; exact le_add_right _ _), length_map,
      Nat.add_sub_cancel_left, getElem?_map, hl]
    rfl
  next hla =>
    obtain ⟨i, hi, hno⟩ := hold
    refine ⟨(i.node, i.name), ?_, hno⟩
    rw [if_neg hla, getElem?_append_left
      (by rw [length_map]; exact (List.getElem?_eq_some_iff.1 hi).1), getElem?_map, hi]
    rfl

end

/-! ## Importing the boundary -/

namespace Import

variable (st : Import) {id i : ℕ} (s : Xsignal)

@[simp] lemma assign_original_self : (st.assign id s).original id = s := update_self _ _ _

@[simp] lemma assign_assigned_self : (st.assign id s).assigned id = true := update_self _ _ _

lemma assign_original (hi : i ≠ id) :
    (st.assign id s).original i = st.original i := update_of_ne hi _ _

lemma assign_assigned (hi : i ≠ id) :
    (st.assign id s).assigned i = st.assigned i := update_of_ne hi _ _

end Import

/-- The sources imported so far. -/
structure Sources (srcs : List (ℕ × String)) (g : Xag) (st : Import) : Prop where
  names : g.names = srcs.map Prod.snd
  assigned : ∀ id, st.assigned id = true → ∃ e ∈ srcs, e.1 = id
  source : ∀ (k : ℕ) (e : ℕ × String), srcs[k]? = some e → st.assigned e.1 = true ∧
    g.IsSource (st.original e.1) k

variable {v : ℕ}

section

variable {net : Lnet} {L N : ℕ} {p : Prop} {s : PassState} {st : Import} {srcs : List (ℕ × String)}

lemma importSource_runs (hli : L ≤ maxId) (hs : s.candidate.Wf) (hst : Sources srcs s.candidate st)
    {id : ℕ} {name : String}
    (hid : id < net.size) (hk : (net.node id).kind = .source) (hnew : ∀ e ∈ srcs, e.1 ≠ id) :
    Runs (supply L p) (importSource net st id name) s 1 fun t st' =>
    Sources (srcs ++ [(id, name)]) t.candidate st' ∧
      st'.inputs = st.inputs ∧ st'.state = st.state ∧ ∀ i, i ≠ id →
      st'.original i = st.original i := by
  have hf : st.assigned id = false := by
    rw [← Bool.not_eq_true]
    intro h
    obtain ⟨e, he, heq⟩ := hst.assigned id h
    exact hnew e he heq
  rw [importSource, if_pos ⟨hid, hf, hk⟩]
  refine (onGraph_runs (Xag.input_isSource hs name) hs hli).bind (d := 0) fun t r ht hle hr => ?_
  obtain ⟨hr, hns⟩ := hr
  refine pure ht ⟨⟨?_, fun i hi => ?_, fun k e he => ?_⟩, rfl, rfl,
    fun i hi => st.assign_original r hi⟩
  · rw [hns, hst.names, map_append]
    rfl
  · rcases eq_or_ne i id with rfl | hne
    · exact ⟨_, mem_append_right _ (.head _), rfl⟩
    · obtain ⟨e, he, heq⟩ := hst.assigned i (by rwa [st.assign_assigned r hne] at hi)
      exact ⟨e, mem_append_left _ he, heq⟩
  · rcases getElem?_concat he with he | ⟨rfl, rfl⟩
    · have hne := hnew e (mem_of_getElem? he)
      obtain ⟨hass, hsrc⟩ := hst.source k e he
      rw [st.assign_assigned r hne, st.assign_original r hne]
      exact ⟨hass, hsrc.mono hle⟩
    · rw [Import.assign_assigned_self, Import.assign_original_self]
      refine ⟨rfl, ?_⟩
      rwa [hst.names, length_map] at hr

lemma importInputs_runs (hli : L ≤ maxId) (hnet : net.Valid) (hs : s.candidate = {}) :
    Runs (supply L p) (net.inputs.foldlM (importInput net) {}) s
    (net.inputs.map fun _ => 2).sum fun t st =>
      Sources (net.inputs.map fun i => (i.node, i.name)) t.candidate st ∧
      st.inputs = net.inputs.map (fun i => st.original i.node) ∧
        st.state = [] := by
  have hwf := hs ▸ Xag.wf_empty
  have hem : Sources [] s.candidate {} := ⟨by rw [hs]; rfl, nofun, nofun⟩
  refine .foldlM (A := supply L p) (Q := fun pre t st =>
    Sources (pre.map fun i => (i.node, i.name)) t.candidate st ∧
    st.inputs = pre.map (fun i => st.original i.node) ∧ st.state = []) (fun _ => 2) []
    net.inputs hwf ⟨hem, rfl, rfl⟩ ?_
  rintro pre x post hsp t st ht - ⟨hss, hinp, hsta⟩
  have hci : ciNodes net = pre.map (fun i => (i.node, i.name)) ++ (x.node, x.name) ::
      (post.map (fun i => (i.node, i.name)) ++ net.latches.map fun l => (l.q, l.name)) := by
    rw [nil_append] at hsp
    simp [ciNodes, hsp]
  have hx : (ciNodes net)[pre.length]? = some (x.node, x.name) := by
    rw [hci, getElem?_append_right (by simp), length_map, Nat.sub_self]
    rfl
  obtain ⟨hlt, hk, -⟩ := ciNodes_source hnet hx
  have hne := ciNodes_ne hnet hci
  refine (spend_runs ht 1).bind (d := 1) fun u _ hu _ heq => ?_
  rw [← heq] at hss
  refine (importSource_runs hli hu hss hlt hk hne).bind (d := 0) fun v st' hv _ hst' => ?_
  obtain ⟨hss', hin, hst, hold⟩ := hst'
  refine .pure hv ⟨?_, ?_, hst.trans hsta⟩
  · rw [map_append]
    exact ⟨hss'.names, hss'.assigned, hss'.source⟩
  · rw [map_append, hin, hinp]
    refine congrArg (· ++ _) (map_congr_left fun i hi => (hold i.node ?_).symm)
    exact hne _ (mem_map_of_mem hi)

lemma importLatches_runs (hli : L ≤ maxId) (hnet : net.Valid)
    (hp : p → ∀ l ∈ net.latches, l.d.isSome = true)
    (hs : s.candidate.Wf) (hst : Sources (net.inputs.map fun i => (i.node, i.name)) s.candidate st)
    (hinp : st.inputs = net.inputs.map fun i => st.original i.node) (hsta : st.state = []) :
    Runs (supply L p) (net.latches.foldlM (importLatch net) st) s
    (net.latches.map fun _ => 2).sum fun t st =>
      Sources (ciNodes net) t.candidate st ∧
      st.inputs = net.inputs.map (fun i => st.original i.node) ∧
        st.state = net.latches.map (fun l => ⟨l.name, l.init, st.original l.q, {}⟩) ∧
        ∀ l ∈ net.latches, ∃ d, l.d = some d ∧ d < net.size := by
  refine .foldlM (A := supply L p) (Q := fun pre t st =>
    Sources ((net.inputs.map fun i => (i.node, i.name)) ++ pre.map fun l => (l.q, l.name))
    t.candidate st ∧
    st.inputs = net.inputs.map (fun i => st.original i.node) ∧
    st.state = pre.map (fun l => ⟨l.name, l.init, st.original l.q, {}⟩) ∧
      ∀ l ∈ pre, ∃ d, l.d = some d ∧ d < net.size)
    (fun _ => 2) [] net.latches hs ?_ ?_
  · rw [map_nil, append_nil]
    exact ⟨hst, hinp, hsta, nofun⟩
  rintro pre x post hsp t st ht - ⟨hss, hinp, hsta, hn⟩
  rw [nil_append] at hsp
  have hci : ciNodes net = ((net.inputs.map fun i => (i.node, i.name)) ++
      pre.map fun l => (l.q, l.name)) ++ (x.q, x.name) ::
      post.map fun l => (l.q, l.name) := by
    simp [ciNodes, hsp]
  have hx : (ciNodes net)[net.inputs.length + pre.length]? = some (x.q, x.name) := by
    rw [hci, getElem?_append_right (by rw [length_append, length_map, length_map]), length_append,
      length_map, length_map, Nat.sub_self]
    rfl
  obtain ⟨hlt, hk, -⟩ := ciNodes_source hnet hx
  have hne := ciNodes_ne hnet hci
  have hxm := hsp ▸ mem_append_right _ (.head _)
  refine (spend_runs ht 1).bind (d := 1) fun u _ hu _ heq => ?_
  rw [← heq] at hss
  refine (importSource_runs hli hu hss hlt hk hne).bind (d := 0) fun v st' hv _ hst' => ?_
  obtain ⟨hss', hin, hst, hold⟩ := hst'
  refine valid_runs hv (fun h => ?_) fun hd => .pure hv ⟨?_, ?_, ?_, ?_⟩
  · obtain ⟨d, hd⟩ := isSome_iff_exists.1 (hp h x hxm)
    rw [hd]
    exact decide_eq_true (hnet.cos d (mem_append_right _ (mem_map.2 ⟨x, hxm, hd⟩)))
  · rw [map_append, ← append_assoc]
    exact ⟨hss'.names, hss'.assigned, hss'.source⟩
  · rw [hin, hinp]
    refine map_congr_left fun i hi => (hold i.node ?_).symm
    exact hne (i.node, i.name) (mem_append_left _ (mem_map_of_mem hi))
  · rw [map_append, hst, hsta]
    refine congrArg (· ++ _) (map_congr_left fun l hl => ?_)
    rw [hold l.q (hne (l.q, l.name) (mem_append_right _ (mem_map_of_mem hl)))]
  · refine forall_mem_append.2 ⟨hn, forall_mem_singleton.2 ?_⟩
    obtain ⟨d, hxd, hlt⟩ := (Option.any_eq_true ..).1 hd
    exact ⟨d, hxd, of_decide_eq_true hlt⟩

/-! ## Importing a table -/

lemma admitStep_runs (hmax : L ≤ N) (hs : s.candidate.Wf) :
    Runs (supply L p) (admitStep N) s 2 fun t _ => t.candidate = s.candidate := by
  refine (spend_runs hs 1).bind (d := 1) fun t _ ht _ heq => ?_
  refine (graph_runs ht).bind (d := 1) fun u g hu _ hg => ?_
  obtain ⟨rfl, rfl⟩ := hg
  exact (require_runs hu fun hro _ => lt_of_lt_of_le (lt_of_succ_le hro) hmax).mono
    fun v _ _ _ hv => hv.1 ▸ heq

/-- The row of the variables from `v` on, under an assignment of the ones before. -/
lemma row_succ (fanins : List ℕ) (val : ℕ → Bool) (hv : v < fanins.length) (assignment : ℕ) :
    assignment ||| rowIndex (fanins.drop v) val <<< v =
    (if val (fanins.getD v 0) then assignment ||| 1 <<< v else assignment) |||
      rowIndex (fanins.drop (v + 1)) val <<< (v + 1) := by
  have hget : fanins[v]? = some (fanins.getD v 0) := by
    rw [getD_eq_getElem _ _ hv, getElem?_eq_getElem hv]
  have hif : ∀ j, (if val (fanins.getD v 0) = true then assignment ||| 1 <<< v
      else assignment).testBit j =
      (assignment.testBit j || (val (fanins.getD v 0) && decide (v = j))) := by
    intro j
    cases val (fanins.getD v 0) with
    | false => simp
    | true => simp [one_shiftLeft, testBit_two_pow]
  refine eq_of_testBit_eq fun j => ?_
  rw [testBit_or, testBit_or, hif, testBit_shiftLeft, testBit_shiftLeft,
    testBit_rowIndex, testBit_rowIndex,
    getElem?_drop, getElem?_drop, Bool.or_assoc]
  rcases lt_trichotomy j v with h | rfl | h
  · rw [decide_eq_false (Nat.not_le.2 h), decide_eq_false h.ne',
      decide_eq_false (Nat.not_le.2 (h.trans (lt_succ_self v)))]
    simp
  · rw [Nat.sub_self, Nat.add_zero, hget]
    simp
  · have h1 := add_sub_of_le h.le
    have h2 := add_sub_of_le h
    simp [h.ne, h.le, succ_le_of_lt h]

lemma shannon_runs (hli : L ≤ maxId) (hmax : L ≤ N) {original : ℕ → Xsignal} (node : Lnet.Node)
    (val : (ℕ → Bool) → ℕ → Bool) (left v assignment : ℕ)
    (hv : v + left = node.fanins.length) (hs : s.candidate.Wf)
    (hfa : ∀ i ∈ node.fanins, s.candidate.Is (original i) fun env => val env i) :
    Runs (supply L p) (shannon N original node left v assignment) s (7 * 2 ^ left - 5) fun t r =>
      t.candidate.Is r (fun env => node.eval
        (assignment ||| rowIndex (node.fanins.drop v) (val env) <<< v)) ∧
        t.candidate.names = s.candidate.names := by
  induction left generalizing v assignment s with
  | zero =>
    refine ((admitStep_runs hmax hs).bind (d := 0) fun t _ ht _ heq => ?_).more (by decide)
    refine .pure ht ⟨(ht.is_constant _).congr fun env => ?_, by rw [heq]⟩
    rw [drop_of_length_le (show node.fanins.length ≤ v from hv.ge),
      show rowIndex [] (val env) = 0 from rfl, zero_shiftLeft, or_zero]
  | succ left ih =>
    have hlt : v < node.fanins.length := by omega
    have hmem : node.fanins.getD v 0 ∈ node.fanins := by
      rw [getD_eq_getElem _ _ hlt]
      exact getElem_mem hlt
    refine .more (c := 2 + (7 * 2 ^ left - 5 + (7 * 2 ^ left - 5 + 3))) ?_ ?_
    · refine (admitStep_runs hmax hs).bind fun t _ ht hle heq => ?_
      have hfa' : ∀ i ∈ node.fanins, t.candidate.Is (original i) fun env => val env i := fun i hi =>
        (hfa i hi).mono hs ht hle
      refine (ih (v + 1) assignment (by omega) ht hfa').bind fun u lo hu hle' hlo => ?_
      refine (ih (v + 1) (assignment ||| 1 <<< v) (by omega) hu
        fun i hi => (hfa' i hi).mono ht hu hle').bind
        fun w hi hw hl'' hhi => ?_
      have hsel := (((hfa' _ hmem).mono ht hu hle').mono hu hw hl'')
      have hlo' := hlo.1.mono hu hw hl''
      have hmux := Xag.mux_runs hw hsel.lt hhi.1.lt hlo'.lt
      have hmu' := runs_of_builds hmux (hmux.builds.and_le Xag.mux_names) rfl
      refine (onGraph_runs hmu' hw hli).mono fun x r _ _ hr => ⟨hr.1.congr fun env => ?_, ?_⟩
      · rw [hsel.eval, hlo'.eval, hhi.1.eval, row_succ _ _ hlt]
        cases val env (node.fanins.getD v 0) <;> rfl
      · exact hr.2.trans (hhi.2.trans (hlo.2.trans (by rw [heq])))
    · have := Nat.two_pow_pos left
      omega

/-! ## Importing the nodes -/

/-- The nodes below `id` are imported, and the sources are. -/
structure Imported (net : Lnet) (id : ℕ) (g : Xag) (st : Import) : Prop where
  names : g.names = (ciNodes net).map Prod.snd
  source : ∀ (k : ℕ) (e : ℕ × String), (ciNodes net)[k]? = some e → st.assigned e.1 = true ∧
    g.IsSource (st.original e.1) k
  done : ∀ i < id, st.assigned i = true ∧ g.Is (st.original i) fun ci => net.valueAt ci i
  inputs : st.inputs = net.inputs.map fun i => st.original i.node
  state : st.state = net.latches.map fun l => ⟨l.name, l.init, st.original l.q, {}⟩

/-- One more node that is not a source. -/
lemma Imported.assign {g h : Xag} {id : ℕ} (hst : Imported net id g st)
    (hnet : net.Valid) (hg : g.Wf) (hh : h.Wf)
    (he : g.Extends h) (hns : h.names = g.names) (hki : (net.node id).kind ≠ .source) {r : Xsignal}
    (hr : h.Is r fun ci => net.valueAt ci id) : Imported net (id + 1) h (st.assign id r) := by
  have hne : ∀ (k : ℕ) (e : ℕ × String), (ciNodes net)[k]? = some e → e.1 ≠ id := by
    rintro k e hke rfl
    exact hki (ciNodes_source hnet hke).2.1
  refine ⟨hns.trans hst.names, fun k e hke => ?_, fun i hi => ?_, ?_, ?_⟩
  · rw [st.assign_assigned r (hne k e hke), st.assign_original r (hne k e hke)]
    exact ⟨(hst.source k e hke).1, (hst.source k e hke).2.mono he⟩
  · rcases Nat.lt_succ_iff_lt_or_eq.1 hi with hlt | rfl
    · rw [st.assign_assigned r hlt.ne, st.assign_original r hlt.ne]
      exact ⟨(hst.done i hlt).1, (hst.done i hlt).2.mono hg hh he⟩
    · rw [st.assign_assigned_self, st.assign_original_self]
      exact ⟨rfl, hr⟩
  · refine hst.inputs.trans (map_congr_left fun i hi => (st.assign_original r ?_).symm)
    obtain ⟨k, hk⟩ := mem_iff_getElem?.1 (mem_append_left (net.latches.map fun l => (l.q, l.name))
      (mem_map_of_mem (f := fun i : Lnet.Input => (i.node, i.name)) hi))
    exact hne k _ hk
  · refine hst.state.trans (map_congr_left fun l hl => ?_)
    obtain ⟨k, hk⟩ := mem_iff_getElem?.1
      (mem_append_right (net.inputs.map fun i => (i.node, i.name))
      (mem_map_of_mem (f := fun l : Lnet.Latch => (l.q, l.name)) hl))
    rw [st.assign_original r (hne k _ hk)]

/-- The cost of a node. -/
def importCost : ℕ := 7 * 2 ^ 8 - 5 + 1

lemma importNode_runs (hli : L ≤ maxId) (hmax : L ≤ N) (hnet : net.Valid)
    (hso : net.Sourced) {id : ℕ}
    (hid : id < net.size) (hs : s.candidate.Wf) (hst : Imported net id s.candidate st) :
    Runs (supply L p) (importNode net N st id) s importCost fun t st' =>
    Imported net (id + 1) t.candidate st' := by
  have hn : net.nodes[id]? = some (net.node id) := by
    rw [Lnet.node, getD_eq_getElem _ _ hid]
    exact getElem?_eq_getElem hid
  have hok := hnet.nodes id _ hn
  refine .more (c := 1 + (0 + (0 + (7 * 2 ^ 8 - 5)))) ?_ (by decide)
  refine (spend_runs hs 1).bind fun t _ ht hle heq => ?_
  refine (graph_runs ht).bind fun u g hu hle' hg => ?_
  obtain ⟨rfl, rfl⟩ := hg
  refine (require_runs hu fun hro _ => (show u.candidate.size ≤ L from hro).trans hmax).bind
    fun v _ hv _ hvu => ?_
  obtain ⟨rfl, -⟩ := hvu
  rw [← heq] at hst
  have hva : ∀ ci, net.valueAt ci id = net.nodeValue ci (net.valueAt ci) (net.node id) := fun ci =>
    valueAt_eq hn hok.older
  cases hk : (net.node id).kind with
  | constant =>
    refine (pure hv (hst.assign hnet hv hv (Xag.Extends.refl _) rfl ?_ ?_)).more (zero_le _)
    · rw [hk]
      simp
    · refine (hv.is_constant _).congr fun ci => ?_
      rw [hva, nodeValue, hk, (hok.constant hk).1]
      rfl
  | source =>
    obtain ⟨e, hek, rfl⟩ := ciNodes_of_source hso hn hk
    obtain ⟨hass, hsrc⟩ := hst.source _ e hek
    rw [if_pos hass]
    refine (pure hv ⟨hst.names, hst.source, fun i hi => ?_, hst.inputs, hst.state⟩).more (zero_le _)
    rcases Nat.lt_succ_iff_lt_or_eq.1 hi with hlt | rfl
    · exact hst.done i hlt
    · refine ⟨hass, (hsrc.is hv).congr fun ci => ?_⟩
      rw [hva, nodeValue, hk]
  | lut =>
    have hlen : (net.node id).fanins.length ≤ 8 := by
      rcases lt_or_ge 6 (net.node id).fanins.length with h6 | h6
      · exact (hok.wide hk h6).1
      · omega
    have hfa : ∀ i ∈ (net.node id).fanins, i < id ∧ st.assigned i = true := fun i hi =>
      ⟨hok.older i hi, (hst.done i (hok.older i hi)).1⟩
    rw [importLut, if_pos hfa]
    refine .more (c := 7 * 2 ^ (net.node id).fanins.length - 5 + 0) ?_ ?_
    · have hsh := shannon_runs (p := p) (s := v) hli hmax (net.node id) net.valueAt
        (net.node id).fanins.length 0 0 (zero_add _) hv fun i hi => (hst.done i (hok.older i hi)).2
      refine hsh.bind (d := 0) fun w r hw hl'' hr => ?_
      refine (graph_runs hw).bind (d := 0) fun x g hx _ hg => ?_
      obtain ⟨rfl, rfl⟩ := hg
      refine (require_runs hx fun hro _ => (show x.candidate.size ≤ L from hro).trans hmax).bind
        (d := 0)
        fun y _ hy _ hyx => ?_
      obtain ⟨rfl, -⟩ := hyx
      refine .pure hy (hst.assign hnet hv hy hl'' hr.2 ?_ (hr.1.congr fun ci => ?_))
      · rw [hk]
        simp
      · rw [drop_zero, shiftLeft_zero, zero_or, hva, nodeValue, hk]
    · have hpow := Nat.pow_le_pow_right Nat.two_pos hlen
      omega

/-- What an imported region has of its network. -/
structure IsImport (net : Lnet) (region : XagRegion) : Prop where
  wf : region.graph.Wf
  names : region.graph.names = (ciNodes net).map Prod.snd
  inputs : region.inputs.length = net.inputs.length
  sources : ∀ (k : ℕ) (s : Xsignal), (region.inputs ++ region.state.map (·.q))[k]? = some s →
    region.graph.IsSource s k
  state : Forall₂ (fun s l => s.name = l.name ∧ s.init = l.init ∧ ∃ d, l.d = some d ∧
    region.graph.Is s.d fun ci => net.valueAt ci d) region.state net.latches
  outputs : Forall₂ (fun o po => o.name = po.name ∧
    region.graph.Is o.signal fun ci => net.valueAt ci po.node)
    region.outputs net.outputs

/-- The supply that an import takes. -/
def importSupply (net : Lnet) : ℕ :=
  net.inputs.length * 2 + (net.latches.length * 2 + net.size * importCost)

lemma importRegion_runs (hnet : net.Valid) (hs : s.candidate.Wf)
    (hst : Imported net net.size s.candidate st)
    (hn : ∀ l ∈ net.latches, ∃ d, l.d = some d ∧ d < net.size) :
    Runs (supply L p) (importRegion net st) s 0 fun _ region =>
    IsImport net region ∧ region.graph.size ≤ s.candidate.size := by
  rw [importRegion, if_pos fun po hpo => hnet.cos po.node
    (mem_append_left _ (mem_map.2 ⟨po, hpo, rfl⟩))]
  refine (graph_runs hs).bind (d := 0) fun t g ht _ hg => ?_
  obtain ⟨rfl, rfl⟩ := hg
  have hsa : zipWith (fun (s : XagRegion.State) (l : Lnet.Latch) =>
      { s with d := st.original (l.d.getD none32) }) st.state
      net.latches = net.latches.map fun l =>
        ⟨l.name, l.init, st.original l.q, st.original (l.d.getD none32)⟩ := by
    rw [hst.state, zipWith_map_left, zipWith_self]
  refine .pure ht ⟨⟨ht, hst.names, ?_, fun k s hk => ?_, ?_, ?_⟩, le_rfl⟩
  · simp [hst.inputs]
  · rw [hsa, hst.inputs, map_map] at hk
    have hci : (ciNodes net)[k]?.map (fun e => st.original e.1) = some s := by
      rwa [← getElem?_map, ciNodes, map_append, map_map, map_map]
    obtain ⟨e, hek, rfl⟩ := map_eq_some_iff.1 hci
    exact (hst.source k e hek).2
  · rw [hsa, forall₂_map_left_iff, forall₂_same]
    intro l hl
    obtain ⟨d, hd, hlt⟩ := hn l hl
    refine ⟨rfl, rfl, d, hd, ?_⟩
    rw [hd]
    exact (hst.done d hlt).2
  · rw [forall₂_map_left_iff, forall₂_same]
    intro po hpo
    exact ⟨rfl,
      (hst.done po.node (hnet.cos po.node (mem_append_left _ (mem_map.2 ⟨po, hpo, rfl⟩)))).2⟩

lemma importLnet_runs (hli : L ≤ maxId) (hmax : L ≤ N) (hpos : p → 0 < N) (hsz : p → net.size ≤ N)
    (hnet : net.Valid) (hso : net.Sourced) (hp : p → ∀ l ∈ net.latches, l.d.isSome = true)
    (hs : s.candidate = {}) :
    Runs (supply L p) (importLnet net N) s (importSupply net) fun t region =>
      IsImport net region ∧ region.graph.size ≤ t.candidate.size := by
  have hwf := hs ▸ Xag.wf_empty
  have hsum : ∀ (α : Type) (l : List α), (l.map fun _ => 2).sum = l.length * 2 := by
    intro α l
    induction l with
    | nil => rfl
    | cons _ l ih => rw [map_cons, sum_cons, ih, length_cons, succ_mul, add_comm]
  refine .ite (fun h => .throw hwf fun hhas => ?_) fun _ =>
    .ite (fun h => .throw hwf fun hhas => ?_) fun _ => ?_
  · exact (hpos hhas.2.2).ne' h
  · exact Nat.not_le.2 h (hsz hhas.2.2)
  · have hinp := importInputs_runs (p := p) hli hnet hs
    rw [hsum] at hinp
    refine hinp.bind fun t st ht _ hst => ?_
    obtain ⟨hst, hin, hsta⟩ := hst
    have hla := importLatches_runs hli hnet hp ht hst hin hsta
    rw [hsum] at hla
    refine hla.bind fun u st hu _ hst => ?_
    obtain ⟨hst, hin, hsta, hn⟩ := hst
    have hstr : Imported net 0 u.candidate st := ⟨hst.names, hst.source, nofun, hin, hsta⟩
    have hlo := foldlM_range' (A := supply L p) (f := importNode net N) (c := importCost)
      (Q := fun id t st => Imported net id t.candidate st) 0 net.size hu hstr
          fun i _ hi w st hw _ hst =>
        importNode_runs hli hmax hnet hso (by omega) hw hst
    rw [← add_zero (net.size * importCost)]
    refine hlo.bind fun v st hv _ hst => ?_
    rw [zero_add] at hst
    refine (importRegion_runs hnet hv hst hn).mono fun w region _ hle hre => ⟨hre.1, ?_⟩
    exact hre.2.trans hle.size

end

/-! ## Exporting the boundary -/

/-- The sources exported so far stand right after the constant. -/
structure Boundary (srcs : List Xsignal) (st : Export) : Prop where
  size : st.net.size = 1 + srcs.length
  mapped : ∀ i v, st.mapped i = some v → (i = 0 ∧ v = 0) ∨
    ∃ (k : ℕ) (s : Xsignal), srcs[k]? = some s ∧ s.id = i ∧ v = 1 + k
  zero : (st.mapped 0).isSome = true
  has : ∀ s ∈ srcs, (st.mapped s.id).isSome = true
  negative : ∀ i, st.negative i = none

/-- A region that can be exported. -/
structure XagRegion.Ok (region : XagRegion) : Prop where
  wf : region.graph.Wf
  names : region.inputs.length + region.state.length = region.graph.names.length
  sources : ∀ (k : ℕ) (s : Xsignal), (region.inputs ++ region.state.map (·.q))[k]? = some s →
    region.graph.IsSource s k
  next : ∀ s ∈ region.state, s.d.id < region.graph.size
  outputs : ∀ o ∈ region.outputs, o.signal.id < region.graph.size

/-- The boundary that a region is exported with. -/
def XagRegion.bare (region : XagRegion) : Lnet where
  inputs := region.inputs.map fun s => ⟨0, inputName region.graph s⟩
  latches := region.state.map fun s => ⟨s.name, s.init, 0, none⟩

section

variable {region : XagRegion} {L N : ℕ} {p : Prop} {s : PassState}
  {st : Export} {srcs : List Xsignal}

variable {x : Xsignal}

section

variable (hok : region.Ok) (hs : s.candidate.Wf)
include hok hs

lemma exportSource_runs (hst : Boundary srcs st) {add : Lnet → Lnet}
    (hadd : ∀ net, (add net).size = net.size + 1) {post : List Xsignal}
    (hsp : region.inputs ++ region.state.map (·.q) = srcs ++ x :: post)
    (hp : p → region.inputs.length + region.state.length < N) :
    Runs (supply L p) (exportSource region.graph N add st x) s 1 fun t st' =>
      t.candidate = s.candidate ∧ Boundary (srcs ++ [x]) st' ∧ st'.net = add st.net := by
  have hall : ∀ (k : ℕ) (y : Xsignal), srcs[k]? = some y → region.graph.IsSource y k := by
    intro k y hy
    refine hok.sources k y ?_
    rwa [hsp, getElem?_append_left (List.getElem?_eq_some_iff.1 hy).1]
  have hx : region.graph.IsSource x srcs.length := by
    refine hok.sources _ x ?_
    rw [hsp, getElem?_append_right le_rfl, Nat.sub_self]
    rfl
  have hlen : region.inputs.length + region.state.length = srcs.length + (post.length + 1) := by
    have h := congrArg length hsp
    rwa [length_append, length_map, length_append, length_cons] at h
  have hf : st.mapped x.id = none := by
    rw [eq_none_iff_forall_ne_some]
    intro v hv
    rcases hst.mapped _ v hv with ⟨h0, -⟩ | ⟨k, y, hy, hid, -⟩
    · have hk := hx.kind
      rw [h0, (hok.wf.constant 0 hok.wf.pos).2 rfl] at hk
      nomatch hk
    · have hin := (hall k y hy).index
      rw [hid, hx.index] at hin
      exact (List.getElem?_eq_some_iff.1 hy).1.ne' hin
  refine (spend_runs hs 1).bind (d := 0) fun t _ ht _ heq => ?_
  refine (require_runs ht fun _ h => ?_).bind (d := 0) fun u _ hu _ hut => ?_
  · have := hp h
    have := hst.size
    omega
  obtain ⟨rfl, -⟩ := hut
  rw [if_pos ⟨hx.plain, hx.lt, hf, hx.kind⟩]
  refine .pure hu ⟨heq, ⟨?_, fun i v hv => ?_, ?_, fun y hy => ?_, hst.negative⟩, rfl⟩
  · rw [hadd, hst.size, length_append]
    rfl
  · rcases update_eq_some hv with ⟨rfl, rfl⟩ | hv
    · refine .inr ⟨srcs.length, x, getElem?_concat_length, rfl, hst.size⟩
    · rcases hst.mapped i v hv with h | ⟨k, y, hy, hr⟩
      · exact .inl h
      · refine .inr ⟨k, y, ?_, hr⟩
        rwa [getElem?_append_left (List.getElem?_eq_some_iff.1 hy).1]
  · exact isSome_update (.inr hst.zero)
  · rcases mem_append.1 hy with hy | hy
    · exact isSome_update (.inr (hst.has y hy))
    · exact isSome_update (.inl (congrArg Xsignal.id (mem_singleton.1 hy)))

lemma exportInputs_runs (hp : p → region.inputs.length + region.state.length < N) :
    Runs (supply L p) (region.inputs.foldlM (exportInput region.graph N) {}) s
    (region.inputs.map fun _ => 1).sum
      fun t st => t.candidate = s.candidate ∧ Boundary region.inputs st ∧
        st.net = region.bare.inputs.foldl (fun net i => net.addInput i.name) {} := by
  have hsta : Boundary [] {} := by
    refine ⟨rfl, fun i v (hv : update (fun _ => none) 0 (some const0) i = some v) => ?_,
      rfl, nofun, fun _ => rfl⟩
    rcases update_eq_some hv with ⟨rfl, rfl⟩ | hv
    · exact Or.inl ⟨rfl, rfl⟩
    · nomatch hv
  have hlo := foldlM (A := supply L p) (f := exportInput region.graph N) (Q := fun pre t st =>
    t.candidate = s.candidate ∧ Boundary pre st ∧
      st.net = (pre.map fun s => (⟨0, inputName region.graph s⟩ : Lnet.Input)).foldl
        (fun net i => net.addInput i.name) {})
    (fun _ => 1) [] region.inputs hs ⟨rfl, hsta, rfl⟩ ?_
  · exact hlo
  · rintro pre x post hsp t st ht - ⟨hca, hst, hnet⟩
    rw [nil_append] at hsp
    have hsp' : region.inputs ++ region.state.map (·.q) =
        pre ++ x :: (post ++ region.state.map (·.q)) := by
      simp [hsp]
    have hx : region.graph.IsSource x pre.length := by
      refine hok.sources _ x ?_
      rw [hsp', getElem?_append_right le_rfl, Nat.sub_self]
      rfl
    have hadd : ∀ net : Lnet, (net.addInput (inputName region.graph x)).size =
      net.size + 1 := fun _ => length_append
    rw [exportInput, if_pos ⟨hx.lt, hx.kind⟩]
    refine (exportSource_runs hok ht hst hadd hsp' hp).mono fun u st' _ _ hst' => ?_
    refine ⟨hst'.1.trans hca, hst'.2.1, ?_⟩
    rw [hst'.2.2, hnet, map_append, foldl_append]
    rfl

lemma exportStates_runs (hp : p → region.inputs.length + region.state.length < N)
    (hin : p → ∀ x ∈ region.state, x.init = '0' ∨ x.init = '1' ∨ x.init = 'x')
    (hst : Boundary region.inputs st)
    (hnet : st.net = region.bare.inputs.foldl (fun net i => net.addInput i.name) {}) :
    Runs (supply L p) (region.state.foldlM (exportState region.graph N) st) s
    (region.state.map fun _ => 1).sum
      fun t st => t.candidate = s.candidate ∧
      Boundary (region.inputs ++ region.state.map (·.q)) st ∧
        st.net = region.bare.boundary := by
  have hlo := foldlM (A := supply L p) (f := exportState region.graph N) (Q := fun pre t st =>
    t.candidate = s.candidate ∧ Boundary (region.inputs ++ pre.map (·.q)) st ∧
      st.net = (pre.map fun s => (⟨s.name, s.init, 0, none⟩ : Lnet.Latch)).foldl
      (fun net l => net.addLatch l.name l.init)
        (region.bare.inputs.foldl (fun net i => net.addInput i.name) {}))
    (fun _ => 1) [] region.state hs ⟨rfl, by rwa [map_nil, append_nil], hnet⟩ ?_
  · exact hlo
  · rintro pre x post hsp t st ht - ⟨hca, hst, hnet⟩
    rw [nil_append] at hsp
    have hsp' : region.inputs ++ region.state.map (·.q) =
        (region.inputs ++ pre.map (·.q)) ++ x.q :: post.map (·.q) := by
      simp [hsp]
    refine valid_runs ht (fun h => hin h x (hsp ▸ mem_append_right _ (.head _))) fun _ => ?_
    have hadd : ∀ net : Lnet, (net.addLatch x.name x.init).size = net.size + 1 := fun _ =>
      length_append
    refine (exportSource_runs hok ht hst hadd hsp' hp).mono fun u st' _ _ hst' => ?_
    refine ⟨hst'.1.trans hca, ?_, ?_⟩
    · rw [map_append, ← append_assoc]
      exact hst'.2.1
    · rw [hst'.2.2, hnet, map_append, foldl_append]
      rfl

end

/-! ## Exporting the logic -/

/-- Inputs of marked gates are marked or wait. -/
structure Marking (g : Xag) (todo : List ℕ) (live : ℕ → Bool) : Prop where
  waiting : ∀ i ∈ todo, i < g.size
  lt : ∀ i, live i = true → i < g.size
  closed : ∀ i, live i = true → (g.node i).kind.isGate = true →
    (live (g.node i).inputs.1.id = true ∨ (g.node i).inputs.1.id ∈ todo) ∧
    (live (g.node i).inputs.2.id = true ∨ (g.node i).inputs.2.id ∈ todo)

lemma Marking.mark {g : Xag} {todo : List ℕ} {live : ℕ → Bool} {id : ℕ}
    (h : Marking g (id :: todo) live) (hg : g.Wf) :
    if (g.node id).kind.isGate = true then
      Marking g ((g.node id).inputs.2.id :: (g.node id).inputs.1.id :: todo)
      (Function.update live id true)
    else Marking g todo (Function.update live id true) := by
  have hid := h.waiting id (.head _)
  have hto : ∀ i ∈ todo, i < g.size := fun i hi => h.waiting i (.tail _ hi)
  have hlt : ∀ i, update live id true i = true → i < g.size := by
    intro i hi
    rcases eq_or_ne i id with rfl | hne
    · exact hid
    · rw [update_of_ne hne] at hi
      exact h.lt i hi
  -- what was marked or waiting is so still
  have hsti : ∀ {more : List ℕ}, (∀ i ∈ todo, i ∈ more) → ∀ j, live j = true ∨ j ∈ id :: todo →
      update live id true j = true ∨ j ∈ more := by
    intro more hmo j hj
    rcases eq_or_ne j id with rfl | hne
    · exact .inl (update_self _ _ _)
    · rw [update_of_ne hne]
      rcases hj with hj | hj
      · exact .inl hj
      · rcases mem_cons.1 hj with hj | hj
        · exact absurd hj hne
        · exact .inr (hmo j hj)
  split
  next hga =>
    obtain ⟨h1, h2⟩ := (hg.canonical id hid hga).older
    refine ⟨?_, hlt, fun i hi hgi => ?_⟩
    · exact forall_mem_cons.2 ⟨h2.trans hid, forall_mem_cons.2 ⟨h1.trans hid, hto⟩⟩
    · rcases eq_or_ne i id with rfl | hne
      · exact ⟨.inr (.tail _ (.head _)), .inr (.head _)⟩
      · rw [update_of_ne hne] at hi
        have hmo : ∀ j ∈ todo, j ∈ (g.node id).inputs.2.id ::
            (g.node id).inputs.1.id :: todo := fun j hj =>
          .tail _ (.tail _ hj)
        exact ⟨hsti hmo _ (h.closed i hi hgi).1, hsti hmo _ (h.closed i hi hgi).2⟩
  next hga =>
    refine ⟨hto, hlt, fun i hi hgi => ?_⟩
    rcases eq_or_ne i id with rfl | hne
    · exact absurd hgi hga
    · rw [update_of_ne hne] at hi
      exact ⟨hsti (fun _ hj => hj) _ (h.closed i hi hgi).1,
        hsti (fun _ hj => hj) _ (h.closed i hi hgi).2⟩

/-- What the marking of a stack ends with. -/
structure Marked (g : Xag) (todo : List ℕ) (live live' : ℕ → Bool) : Prop where
  reached : ∀ i ∈ todo, live' i = true
  keeps : ∀ i, live i = true → live' i = true
  closed : ∀ i, live' i = true → (g.node i).kind.isGate = true →
    live' (g.node i).inputs.1.id = true ∧ live' (g.node i).inputs.2.id = true

lemma markLive_runs {g : Xag} (hg : g.Wf) (todo : List ℕ) (live : ℕ → Bool) (hs : s.candidate.Wf)
    (hm : Marking g todo live) :
    Runs (supply L p) (markLive g todo live) s (2 * unmarked g live + todo.length) fun t live' =>
      t.candidate = s.candidate ∧ Marked g todo live live' := by
  induction todo, live using markLive.induct g generalizing s with
  | case1 live =>
    rw [markLive]
    refine (Runs.pure hs ⟨rfl, nofun, fun _ h => h, fun i hi hga => ?_⟩).more (Nat.zero_le _)
    obtain ⟨h1, h2⟩ := hm.closed i hi hga
    exact ⟨h1.resolve_right not_mem_nil, h2.resolve_right not_mem_nil⟩
  | case2 live id todo ihlive ihgate ihleaf =>
    have hid := hm.waiting id (.head _)
    rw [markLive]
    by_cases hlv : live id = true
    · rw [length_cons, ← add_assoc, add_comm]
      refine (spend_runs hs 1).bind fun t _ ht _ heq => ?_
      rw [dif_pos hid, dif_pos hlv]
      have hm' : Marking g todo live := by
        refine ⟨fun i hi => hm.waiting i (.tail _ hi), hm.lt, fun i hi hga => ?_⟩
        have hsti : ∀ j, live j = true ∨ j ∈ id :: todo → live j = true ∨ j ∈ todo := by
          rintro j (hj | hj)
          · exact .inl hj
          · rcases mem_cons.1 hj with rfl | hj
            · exact .inl hlv
            · exact .inr hj
        exact ⟨hsti _ (hm.closed i hi hga).1, hsti _ (hm.closed i hi hga).2⟩
      refine (ihlive ht hm').mono fun u live' _ _ h => ⟨h.1.trans heq, ?_, h.2.keeps, h.2.closed⟩
      exact forall_mem_cons.2 ⟨h.2.keeps id hlv, h.2.reached⟩
    · have hc := unmarked_update hid (Bool.eq_false_iff.2 hlv)
      have hke : ∀ i, live i = true → update live id true i = true := by
        intro i hi
        rcases eq_or_ne i id with rfl | hne
        · exact update_self _ _ _
        · rwa [update_of_ne hne]
      have hma := hm.mark hg
      refine .more (c := 1 + (2 * unmarked g (update live id true) + (todo.length + 2))) ?_
        (by rw [length_cons]; omega)
      refine (spend_runs hs 1).bind fun t _ ht _ heq => ?_
      rw [dif_pos hid, dif_neg hlv]
      by_cases hga : (g.node id).kind.isGate = true
      · rw [if_pos hga] at hma ⊢
        refine (ihgate hid hlv ht hma).mono fun u live' _ _ h =>
          ⟨h.1.trans heq, ?_, fun i hi => h.2.keeps i (hke i hi), h.2.closed⟩
        refine forall_mem_cons.2 ⟨h.2.keeps id (update_self _ _ _), fun i hi => ?_⟩
        exact h.2.reached i (.tail _ (.tail _ hi))
      · rw [if_neg hga] at hma ⊢
        refine ((ihleaf hid hlv ht hma).more (by omega)).mono fun u live' _ _ h =>
          ⟨h.1.trans heq, ?_, fun i hi => h.2.keeps i (hke i hi), h.2.closed⟩
        exact forall_mem_cons.2 ⟨h.2.keeps id (update_self _ _ _), h.2.reached⟩

/-! ## Exporting the gates -/

/-- The network so far computes the nodes that are mapped. -/
structure Exported (region : XagRegion) (st : Export) : Prop where
  valid : st.net.Valid
  inputs : st.net.inputs = region.bare.boundary.inputs
  mapped : ∀ i v, st.mapped i = some v → v < st.net.size ∧
    ∀ ci, st.net.valueAt ci v = region.graph.valueAt ci i
  negative : ∀ i v, st.negative i = some v → v < st.net.size ∧
    ∀ ci, st.net.valueAt ci v = !region.graph.valueAt ci i

section

variable (hst : Boundary (region.inputs ++ region.state.map (·.q)) st) (hok : region.Ok)
include hst hok

lemma Boundary.exported (hnet : st.net = region.bare.boundary) : Exported region st := by
  have hva := hnet ▸ (valid_boundary region.bare).1
  refine ⟨hva, by rw [hnet], fun i v hv => ?_, fun i v hv => nomatch (hst.negative i).symm.trans hv⟩
  rcases hst.mapped i v hv with ⟨rfl, rfl⟩ | ⟨k, x, hx, rfl, rfl⟩
  · refine ⟨hst.size ▸ Nat.lt_add_right _ one_pos, fun ci => ?_⟩
    rw [hok.wf.valueAt_zero, valueAt_eq hva.zero nofun, nodeValue]
    rw [show rowIndex [] (st.net.valueAt ci) = 0 from rfl]
    rfl
  · have hlt : k < region.bare.inputs.length + region.bare.latches.length := by
      have h := (List.getElem?_eq_some_iff.1 hx).1
      rw [length_append, length_map] at h
      rwa [bare, length_map, length_map]
    have hsrc := hok.sources k x hx
    obtain ⟨n, hn, hk, -, hin, hno⟩ := boundary_source region.bare hlt
    rw [hnet]
    refine ⟨(List.getElem?_eq_some_iff.1 hn).1, fun ci => ?_⟩
    rw [valueAt_source hn hno.older hk, hin, hok.wf.valueAt_source ci hsrc.lt hsrc.kind, hsrc.index]

/-- The nodes that are no gates are all on the boundary. -/
lemma Boundary.isSome {i : ℕ}
    (hi : i < region.graph.size) (hg : (region.graph.node i).kind.isGate = false) :
    (st.mapped i).isSome = true := by
  cases hk : (region.graph.node i).kind with
  | constant =>
    obtain rfl := (hok.wf.constant i hi).1 hk
    exact hst.zero
  | source =>
    have hin := hok.wf.sourceIndex_eq hi hk
    have hlt : (region.graph.node i).sourceIndex <
        (region.inputs ++ region.state.map (·.q)).length := by
      rw [hin, length_append, length_map, hok.names, ← hok.wf.sourceCount_size]
      exact Xag.sourceCount_lt hi hk
    have hx := getElem?_eq_getElem hlt
    have hsrc := hok.sources _ _ hx
    rw [hok.wf.source_unique hi hsrc.lt hk hsrc.kind hsrc.index.symm]
    exact hst.has _ (getElem_mem hlt)
  | andGate => rw [hk] at hg; nomatch hg
  | xorGate => rw [hk] at hg; nomatch hg

end

section

variable (h : Exported region st)
include h

lemma Exported.addNode {n : Lnet.Node} (hn : st.net.NodeOk st.net.size n) :
    Exported region { st with net := st.net.addNode n } := by
  have hold : ∀ {v : ℕ} {f : (ℕ → Bool) → Bool},
      (v < st.net.size ∧ ∀ ci, st.net.valueAt ci v = f ci) →
      v < (st.net.addNode n).size ∧ ∀ ci, (st.net.addNode n).valueAt ci v = f ci := by
    rintro v f ⟨hlt, hval⟩
    refine ⟨hlt.trans_le (size_addNode ▸ le_succ _), fun ci => ?_⟩
    rw [valueAt_addNode_of_lt hlt, hval]
  exact ⟨h.valid.addNode hn, h.inputs, fun i v hv => hold (h.mapped i v hv),
    fun i v hv => hold (h.negative i v hv)⟩

/-- A table over few nodes. -/
lemma Exported.addLut {fanins : List ℕ} (fn : Word) (hlen : fanins.length ≤ 6)
    (ho : ∀ i ∈ fanins, i < st.net.size) :
    Exported region { st with net := st.net.addLut fanins fn } ∧
      (∀ ci, (st.net.addLut fanins fn).valueAt ci st.net.size =
        fn.getLsbD (rowIndex fanins (st.net.valueAt ci))) := by
  refine ⟨h.addNode ⟨ho, nofun, nofun, fun _ _ => ⟨fn, rfl⟩,
    fun _ hlt => absurd hlt (Nat.not_lt.2 hlen)⟩, fun ci => ?_⟩
  have hlut : Lnet.Kind.lut ≠ .source := nofun
  rw [Lnet.addLut, valueAt_addNode hlut ho]
  exact eval_replicate
    (n := { kind := .lut, fanins := fanins, table := [replicate fn fanins.length] }) rfl hlen _

lemma Exported.map {id : ℕ} (hlt : v < st.net.size)
    (hval : ∀ ci, st.net.valueAt ci v = region.graph.valueAt ci id) :
    Exported region { st with mapped := update st.mapped id (some v) } := by
  refine ⟨h.valid, h.inputs, fun i w hw => ?_, h.negative⟩
  rcases update_eq_some hw with ⟨rfl, rfl⟩ | hw
  · exact ⟨hlt, hval⟩
  · exact h.mapped i w hw

lemma Exported.negate {id : ℕ} (hlt : v < st.net.size)
    (hval : ∀ ci, st.net.valueAt ci v = !region.graph.valueAt ci id) :
    Exported region { st with negative := update st.negative id (some v) } := by
  refine ⟨h.valid, h.inputs, h.mapped, fun i w hw => ?_⟩
  rcases update_eq_some hw with ⟨rfl, rfl⟩ | hw
  · exact ⟨hlt, hval⟩
  · exact h.negative i w hw

end

lemma gateTable_row (node : Node) (hg : node.kind.isGate = true) (a b : ℕ) (val : ℕ → Bool) :
    (gateTable node).getLsbD (rowIndex [a, b] val) = node.kind.op (val a ^^ node.inputs.1.inverted)
    (val b ^^ node.inputs.2.inverted) := by
  have hrow : rowIndex [a, b] val = (BitVec.ofBoolListLE [val a, val b]).toNat := rfl
  have hki : node.kind = .andGate ∨ node.kind = .xorGate := by
    cases hk : node.kind with
    | constant => rw [hk] at hg; nomatch hg
    | source => rw [hk] at hg; nomatch hg
    | andGate => exact .inl rfl
    | xorGate => exact .inr rfl
  rw [hrow, gateTable]
  rcases hki with hk | hk
  · rw [hk]
    cases val a <;> cases val b <;> cases node.inputs.1.inverted <;>
      cases node.inputs.2.inverted <;> rfl
  · rw [hk]
    cases val a <;> cases val b <;> cases node.inputs.1.inverted <;>
      cases node.inputs.2.inverted <;> rfl

/-- The live nodes below `id` are exported. -/
structure Gated (region : XagRegion) (live : ℕ → Bool) (id : ℕ) (st : Export) : Prop where
  exported : Exported region st
  leaf : ∀ i < region.graph.size, (region.graph.node i).kind.isGate = false →
    (st.mapped i).isSome = true
  done : ∀ i < id, live i = true → (st.mapped i).isSome = true
  size : st.net.size ≤ region.inputs.length + region.state.length + id
  latches : st.net.latches = region.bare.boundary.latches
  outputs : st.net.outputs = []

lemma exportGate_runs (hok : region.Ok) (hs : s.candidate.Wf) {live : ℕ → Bool} {todo : List ℕ}
    (hliv : Marked region.graph todo (fun _ => false) live) {id : ℕ} (hid : id < region.graph.size)
    (hst : Gated region live id st)
    (hp : p → region.inputs.length + region.state.length + region.graph.size ≤ N) :
    Runs (supply L p) (exportGate region.graph N live st id) s 1 fun t st' =>
      t.candidate = s.candidate ∧ Gated region live (id + 1) st' := by
  refine (spend_runs hs 1).bind (d := 0) fun t _ ht _ heq => ?_
  refine .ite (fun hsk => ?_) fun hnew => ?_
  · refine .pure ht ⟨heq, hst.exported, hst.leaf, fun i hi hli => ?_, le_succ_of_le hst.size,
      hst.latches, hst.outputs⟩
    rcases Nat.lt_succ_iff_lt_or_eq.1 hi with hlt | rfl
    · exact hst.done i hlt hli
    · rcases hsk with h | h
      · rw [h] at hli
        nomatch hli
      · exact h
  · rw [not_or, Bool.not_eq_false] at hnew
    obtain ⟨hlv, hun⟩ := hnew
    have hg : (region.graph.node id).kind.isGate = true := by
      rw [← Bool.not_eq_false]
      intro h
      rw [hst.leaf id hid h] at hun
      nomatch hun
    have hcan := hok.wf.canonical id hid hg
    obtain ⟨hl1, hl2⟩ := hliv.closed id hlv hg
    obtain ⟨a, ha⟩ := isSome_iff_exists.1 (hst.done _ hcan.older.1 hl1)
    obtain ⟨b, hb⟩ := isSome_iff_exists.1 (hst.done _ hcan.older.2 hl2)
    obtain ⟨hlta, hva⟩ := hst.exported.mapped _ a ha
    obtain ⟨hltb, hvl⟩ := hst.exported.mapped _ b hb
    refine (require_runs ht fun _ h => ?_).bind (d := 0) fun u _ hu _ hut => ?_
    · have := hp h
      have := hst.size
      omega
    obtain ⟨rfl, -⟩ := hut
    have ho : ∀ i ∈ [a, b], i < st.net.size := forall_mem_cons.2 ⟨hlta, forall_mem_singleton.2 hltb⟩
    have hlen : [a, b].length ≤ 6 := le_of_ble_eq_true rfl
    obtain ⟨hexp, hval⟩ := hst.exported.addLut (gateTable (region.graph.node id)) hlen ho
    dsimp only
    rw [ha, hb]
    refine .pure hu ⟨heq, hexp.map (v := st.net.size) (size_addNode ▸ lt_succ_self _) fun ci => ?_,
      ?_, ?_, ?_, hst.latches,
      hst.outputs⟩
    · rw [hval, gateTable_row _ hg, hva, hvl, hok.wf.valueAt_gate ci hid hg]
      rfl
    · exact fun i hi hk => isSome_update (.inr (hst.leaf i hi hk))
    · intro i hi hli
      rcases Nat.lt_succ_iff_lt_or_eq.1 hi with hlt | heqi
      · exact isSome_update (.inr (hst.done i hlt hli))
      · exact isSome_update (.inl heqi)
    · change (st.net.addNode _).size ≤ _
      rw [size_addNode]
      exact succ_le_succ hst.size

/-! ## Exporting the outputs -/

/-- Nodes were appended. -/
structure Appends (net net' : Lnet) : Prop where
  nodes : net.nodes <+: net'.nodes
  inputs : net'.inputs = net.inputs

variable {net' net : Lnet}

lemma Appends.valueAt (h : Appends net net') (hv : v < net.size) (ci : ℕ → Bool) :
    net'.valueAt ci v = net.valueAt ci v := valueAt_of_extends h.nodes (by rw [h.inputs]) hv

lemma Appends.size (h : Appends net net') : net.size ≤ net'.size := h.nodes.length_le

/-- A node drives a signal. -/
def Drives (region : XagRegion) (net : Lnet) (v : ℕ) (x : Xsignal) : Prop :=
  v < net.size ∧ ∀ ci, net.valueAt ci v = region.graph.eval ci x

lemma Drives.mono (h : Drives region net v x) (ha : Appends net net') : Drives region net' v x :=
  ⟨h.1.trans_le ha.size, fun ci => (ha.valueAt h.1 ci).trans (h.2 ci)⟩

/-- The logic is exported, and the signals of a list have their nodes. -/
structure Emitting (region : XagRegion) (xs : List Xsignal) (n : ℕ) (st : Export) : Prop where
  exported : Exported region st
  has : ∀ x ∈ xs, (st.mapped x.id).isSome = true
  size : st.net.size ≤ region.inputs.length + region.state.length + region.graph.size + n

variable {xs : List Xsignal}

lemma exportOutput_runs (hok : region.Ok) (hs : s.candidate.Wf) {n : ℕ}
    (hst : Emitting region xs n st)
    (hx : x ∈ xs) (hp : p → region.inputs.length + region.state.length +
      region.graph.size + n < N) :
    Runs (supply L p) (exportOutput N st x) s 1 fun t r =>
    t.candidate = s.candidate ∧ Emitting region xs (n + 1) r.2 ∧
      Drives region r.2.net r.1 x ∧ Appends st.net r.2.net ∧ r.2.net.latches = st.net.latches ∧
      r.2.net.outputs = st.net.outputs := by
  obtain ⟨v, hv⟩ := isSome_iff_exists.1 (hst.has x hx)
  obtain ⟨hlt, hval⟩ := hst.exported.mapped _ v hv
  have hsa : Appends st.net st.net := ⟨prefix_rfl, rfl⟩
  have hsti : Emitting region xs (n + 1) st := ⟨hst.exported, hst.has, hst.size.trans (le_succ _)⟩
  refine (spend_runs hs 1).bind (d := 0) fun t _ ht _ heq => ?_
  refine .ite (fun hpl => ?_) fun hinv => ?_
  · rw [hv]
    refine .pure ht ⟨heq, hsti, ⟨hlt, fun ci => ?_⟩, hsa, rfl, rfl⟩
    simp [hval, Xag.eval, value, hpl]
  · have hin' : x.inverted = true := by rwa [Bool.not_eq_false] at hinv
    have hev : ∀ ci, region.graph.eval ci x = !region.graph.valueAt ci x.id := by
      intro ci
      simp [Xag.eval, value, hin']
    cases hneg : st.negative x.id with
    | some w =>
      obtain ⟨hltw, hvl⟩ := hst.exported.negative _ w hneg
      exact .pure ht ⟨heq, hsti, ⟨hltw, fun ci => (hvl ci).trans (hev ci).symm⟩, hsa, rfl, rfl⟩
    | none =>
      refine (require_runs ht fun _ h => ?_).bind (d := 0) fun u _ hu _ hut => ?_
      · exact lt_of_le_of_lt hst.size (hp h)
      obtain ⟨rfl, -⟩ := hut
      -- an inverter of the node, or the constant 1
      obtain ⟨m, hm, hexp, hva⟩ : ∃ m : Lnet.Node, (if x.id = 0 then st.net.addConstant true else
          st.net.addLut [(st.mapped x.id).getD none32] kNot) = st.net.addNode m ∧
          Exported region { st with net := st.net.addNode m } ∧
          ∀ ci, (st.net.addNode m).valueAt ci st.net.size = !region.graph.valueAt ci x.id := by
        rcases eq_or_ne x.id 0 with h0 | h0
        · rw [if_pos h0]
          refine ⟨_, rfl, hst.exported.addNode ⟨(by simp), fun _ => ⟨rfl, .inr rfl⟩, (by simp),
            (by simp), (by simp)⟩, fun ci => ?_⟩
          have hc : Lnet.Kind.constant ≠ .source := by simp
          have hno : ∀ i ∈ ([] : List ℕ), i < st.net.size := by simp
          rw [valueAt_addNode hc hno, h0, hok.wf.valueAt_zero]
          rw [show rowIndex [] (st.net.valueAt ci) = 0 from rfl]
          rfl
        · rw [if_neg h0, hv]
          have hlen : [v].length ≤ 6 := le_of_ble_eq_true rfl
          obtain ⟨hexp, hva⟩ := hst.exported.addLut kNot hlen (forall_mem_singleton.2 hlt)
          refine ⟨_, rfl, hexp, fun ci => (hva ci).trans ?_⟩
          rw [rowIndex_singleton, hval]
          cases region.graph.valueAt ci x.id <;> decide
      rw [hm]
      have hsz : st.net.size < (st.net.addNode m).size := size_addNode ▸ lt_succ_self _
      refine .pure hu ⟨heq, ⟨hexp.negate hsz hva, hst.has, ?_⟩,
        ⟨hsz, fun ci => (hva ci).trans (hev ci).symm⟩,
        ⟨prefix_append _ _, rfl⟩, rfl, rfl⟩
      rw [size_addNode]
      exact succ_le_succ hst.size

/-- A latch with its next state. -/
def Closes (region : XagRegion) (net : Lnet) (x : XagRegion.State) (l : Lnet.Latch) : Prop :=
  l.name = x.name ∧ l.init = x.init ∧ ∃ d, l.d = some d ∧ Drives region net d x.d

lemma forall₂_closes_mono {xs : List XagRegion.State} {ls : List Lnet.Latch}
    (h : Forall₂ (Closes region net) xs ls) (ha : Appends net net') :
    Forall₂ (Closes region net') xs ls := by
  refine h.imp ?_
  rintro x l ⟨hna, hin, d, hd, hdr⟩
  exact ⟨hna, hin, d, hd, hdr.mono ha⟩

lemma exportNexts_runs (hok : region.Ok) (hs : s.candidate.Wf) (hst : Emitting region xs 0 st)
    (hxs : ∀ x ∈ region.state, x.d ∈ xs) (hla : st.net.latches = region.bare.boundary.latches)
    (hp : p → region.inputs.length + region.state.length + region.graph.size +
      region.state.length ≤ N) :
    Runs (supply L p) (region.state.zipIdx.foldlM (exportNext N) st) s
    (region.state.zipIdx.map fun _ => 1).sum fun t st' =>
      t.candidate = s.candidate ∧ Emitting region xs region.state.length st' ∧
        Forall₂ (Closes region st'.net) region.state st'.net.latches ∧
        st'.net.outputs = st.net.outputs := by
  have hf : region.bare.boundary.latches.map (fun l => (l.name, l.init)) = region.state.map fun x =>
      (x.name, x.init) := by
    rw [(boundary_names region.bare).2, bare, map_map]
    rfl
  have hlen : region.bare.boundary.latches.length = region.state.length := by
    have h := congrArg length hf
    rwa [length_map, length_map] at h
  have hlo := foldlM (A := supply L p) (f := exportNext N) (Q := fun pre t st' =>
    t.candidate = s.candidate ∧
    Emitting region xs pre.length st' ∧
    (∃ closed, Forall₂ (Closes region st'.net) (pre.map Prod.fst) closed ∧
      st'.net.latches = closed ++ region.bare.boundary.latches.drop pre.length) ∧
        st'.net.outputs = st.net.outputs)
    (fun _ => 1) [] region.state.zipIdx hs ⟨rfl, hst, ⟨[], nil, hla⟩, rfl⟩ ?_
  · rw [nil_append, zipIdx_map_fst, length_zipIdx] at hlo
    refine hlo.mono fun t st' _ _ h => ?_
    obtain ⟨hca, hem, ⟨closed, hcl, hlat⟩, hout⟩ := h
    rw [drop_of_length_le hlen.le, append_nil] at hlat
    exact ⟨hca, hem, hlat ▸ hcl, hout⟩
  · rintro pre ⟨x, k⟩ post hsp t st' ht - ⟨hca, hem, ⟨closed, hcl, hlat⟩, hout⟩
    rw [nil_append] at hsp
    have hget : region.state.zipIdx[pre.length]? = some (x, k) := by
      rw [hsp, getElem?_append_right le_rfl, Nat.sub_self]
      rfl
    rw [getElem?_zipIdx, zero_add] at hget
    obtain ⟨y, hy, heqy⟩ := map_eq_some_iff.1 hget
    obtain ⟨rfl, rfl⟩ := Prod.mk.inj heqy
    obtain ⟨hlt, hxk⟩ := List.getElem?_eq_some_iff.1 hy
    have hltl := hlen ▸ hlt
    obtain ⟨l, hl⟩ : ∃ l, region.bare.boundary.latches[pre.length]? = some l :=
      ⟨_, getElem?_eq_getElem hltl⟩
    have hlf : (l.name, l.init) = (y.name, y.init) := by
      have h := congrArg (·[pre.length]?) hf
      rw [getElem?_map, getElem?_map, hl, hy] at h
      exact some.inj h
    have hcle : closed.length = pre.length := by simp [← hcl.length_eq]
    have hdro : region.bare.boundary.latches.drop pre.length =
        l :: region.bare.boundary.latches.drop (pre.length + 1) := by
      rw [drop_eq_getElem_cons hltl, (List.getElem?_eq_some_iff.1 hl).2]
    refine (exportOutput_runs hok ht hem (hxs y (mem_of_getElem? hy)) fun h => ?_).bind
      (d := 0) fun u r hu _ hr => ?_
    · have := hp h
      omega
    obtain ⟨hca', hem', hdr, happ, hla', ho'⟩ := hr
    have hset : (r.2.net.setLatchInput pre.length r.1).latches =
        closed ++ { l with d := some r.1 } ::
        region.bare.boundary.latches.drop (pre.length + 1) := by
      rw [setLatchInput, hla', hlat, hdro, ← hcle, modify_append_length]
    refine pure hu ⟨hca'.trans hca,
      ⟨⟨hem'.exported.valid.setLatchInput _ hdr.1, hem'.exported.inputs,
      hem'.exported.mapped, hem'.exported.negative⟩, hem'.has, ?_⟩,
        ⟨closed ++ [{ l with d := some r.1 }], ?_, ?_⟩, ho'.trans hout⟩
    · rw [length_append]
      exact hem'.size
    · rw [map_append]
      refine rel_append (forall₂_closes_mono hcl happ) (cons ⟨?_, ?_, r.1, rfl, hdr⟩ nil)
      · exact (Prod.mk.inj hlf).1
      · exact (Prod.mk.inj hlf).2
    · rwa [length_append, append_assoc]

/-- An output of a network for an output of the region. -/
def Emits (region : XagRegion) (net : Lnet) (o : XagRegion.Output) (po : Lnet.Output) : Prop :=
  po.name = o.name ∧ Drives region net po.node o.signal

lemma exportPorts_runs (hok : region.Ok) (hs : s.candidate.Wf) {n : ℕ}
    (hst : Emitting region xs n st)
    (hxs : ∀ o ∈ region.outputs, o.signal ∈ xs)
    (hla : Forall₂ (Closes region st.net) region.state st.net.latches)
    (hout : st.net.outputs = [])
    (hp : p → region.inputs.length + region.state.length + region.graph.size +
      (n + region.outputs.length) ≤ N) :
    Runs (supply L p) (region.outputs.foldlM (exportPort N) st) s
    (region.outputs.map fun _ => 1).sum fun _ st' =>
      st'.net.Valid ∧ st'.net.inputs = region.bare.boundary.inputs ∧
      Forall₂ (Closes region st'.net) region.state st'.net.latches ∧
        Forall₂ (Emits region st'.net) region.outputs st'.net.outputs := by
  have hlo := foldlM (A := supply L p) (f := exportPort N) (Q := fun pre t st' =>
    Emitting region xs (n + pre.length) st' ∧
    Forall₂ (Closes region st'.net) region.state st'.net.latches ∧
      Forall₂ (Emits region st'.net) pre st'.net.outputs)
    (fun _ => 1) [] region.outputs hs ⟨hst, hla, by rw [hout]; exact nil⟩ ?_
  · refine hlo.mono fun t st' _ _ h => ?_
    exact ⟨h.1.exported.valid, h.1.exported.inputs, h.2⟩
  · rintro pre x post hsp t st' ht - ⟨hemi, hcl, hem⟩
    rw [nil_append] at hsp
    have hlen : region.outputs.length = pre.length + (post.length + 1) := by simp [hsp]
    refine (exportOutput_runs hok ht hemi (hxs x ?_) fun h => ?_).bind (d := 0) fun u r hu _ hr =>
      ?_
    · exact hsp ▸ mem_append_right _ (.head _)
    · have := hp h
      omega
    obtain ⟨-, hem', hdr, happ, hla', ho'⟩ := hr
    refine pure hu
      ⟨⟨⟨hem'.exported.valid.addOutput hdr.1 _, hem'.exported.inputs, hem'.exported.mapped,
      hem'.exported.negative⟩, hem'.has, ?_⟩, ?_, ?_⟩
    · rw [length_append]
      exact hem'.size
    · change Forall₂ (Closes region r.2.net) region.state r.2.net.latches
      rw [hla']
      exact forall₂_closes_mono hcl happ
    · change Forall₂ (Emits region r.2.net) (pre ++ [x]) (r.2.net.outputs ++ [_])
      rw [ho']
      refine rel_append (hem.imp ?_) (cons ⟨rfl, hdr⟩ nil)
      rintro o po ⟨hna, hd⟩
      exact ⟨hna, hd.mono happ⟩

/-! ## The whole export -/

/-- The nodes that an export may make. -/
def exportSize (region : XagRegion) : ℕ :=
  region.inputs.length + region.state.length + region.graph.size +
    (region.state.length + region.outputs.length)

/-- The credits that the logic of an export takes. -/
def logicSupply (region : XagRegion) : ℕ :=
  2 * region.graph.size + (region.outputs.length + region.state.length) +
    ((region.graph.size - 1) * 1 +
    (region.state.length + region.outputs.length))

/-- The credits that an export takes. -/
def exportSupply (region : XagRegion) : ℕ :=
  region.graph.size + (region.inputs.length + (region.state.length + logicSupply region))

/-- What an exported network has of its region. -/
structure IsExport (region : XagRegion) (net : Lnet) : Prop where
  valid : net.Valid
  inputs : net.inputs.map (·.name) = region.inputs.map (inputName region.graph)
  latches : Forall₂ (Closes region net) region.state net.latches
  outputs : Forall₂ (Emits region net) region.outputs net.outputs

lemma sum_map_one {α : Type} (l : List α) : (l.map fun _ => 1).sum = l.length := by
  induction l with
  | nil => rfl
  | cons x l ih => rw [map_cons, sum_cons, ih, length_cons, add_comm]

lemma exportLogic_runs (hok : region.Ok) (hs : s.candidate.Wf)
    (hst : Boundary (region.inputs ++ region.state.map (·.q)) st)
    (hnet : st.net = region.bare.boundary) (hp : p → exportSize region ≤ N) :
    Runs (supply L p) (exportLogic region N st) s (logicSupply region) fun _ net =>
    IsExport region net := by
  have hout : st.net.outputs = [] := by rw [hnet, boundary_eq]
  have hr : ∀ i ∈ (region.outputs.map (·.signal.id) ++ region.state.map (·.d.id)).reverse,
      i < region.graph.size := by
    intro i hi
    rw [mem_reverse, mem_append, mem_map, mem_map] at hi
    rcases hi with ⟨o, ho, rfl⟩ | ⟨x, hx, rfl⟩
    · exact hok.outputs o ho
    · exact hok.next x hx
  have hma := markLive_runs (L := L) (p := p) (s := s) hok.wf _
    (fun _ => false) hs ⟨hr, nofun, nofun⟩
  have hco : 2 * unmarked region.graph (fun _ => false) +
      (region.outputs.map (·.signal.id) ++ region.state.map (·.d.id)).reverse.length =
      2 * region.graph.size + (region.outputs.length + region.state.length) := by
    have hall : unmarked region.graph (fun _ => false) = region.graph.size := by
      rw [unmarked, countP_eq_length.2, length_range]
      exact fun _ _ => rfl
    rw [hall, length_reverse, length_append, length_map, length_map]
  rw [hco] at hma
  refine hma.bind fun t live ht _ hlv => ?_
  have hsta : Gated region live 1 st := by
    refine ⟨hst.exported hok hnet, fun i hi hg => hst.isSome hok hi hg,
      fun i hi _ => ?_, ?_, by rw [hnet], hout⟩
    · obtain rfl := lt_one_iff.1 hi
      exact hst.zero
    · rw [hst.size, length_append, length_map, add_comm]
  have hga := foldlM_range' (A := supply L p) (f := exportGate region.graph N live) (c := 1)
    (Q := fun id t st => Gated region live id st) 1 (region.graph.size - 1) ht hsta
        fun i _ hi u st' hu _ hst' =>
      (exportGate_runs hok hu hlv.2 (by omega) hst' fun h => Nat.le_trans (le_add_right _ _)
        (hp h)).mono fun _ _ _ _ h => h.2
  rw [add_sub_of_le hok.wf.pos] at hga
  refine hga.bind fun u st' hu _ hst' => ?_
  have hhas : ∀ x ∈ region.outputs.map (·.signal) ++ region.state.map (·.d),
      (st'.mapped x.id).isSome = true := by
    intro x hx
    have hmem : x.id ∈ (region.outputs.map (·.signal.id) ++ region.state.map (·.d.id)).reverse := by
      rw [mem_reverse]
      rcases mem_append.1 hx with hx | hx
      · obtain ⟨o, ho, rfl⟩ := mem_map.1 hx
        exact mem_append_left _ (mem_map.2 ⟨o, ho, rfl⟩)
      · obtain ⟨y, hy, rfl⟩ := mem_map.1 hx
        exact mem_append_right _ (mem_map.2 ⟨y, hy, rfl⟩)
    exact hst'.done _ (hr _ hmem) (hlv.2.reached _ hmem)
  have hne := exportNexts_runs (L := L) (p := p) (N := N) hok hu ⟨hst'.exported, hhas, hst'.size⟩
    (fun x hx => mem_append_right _ (mem_map_of_mem hx)) hst'.latches fun h => ?_
  · rw [sum_map_one, length_zipIdx] at hne
    refine hne.bind fun v st'' hv _ hs'' => ?_
    obtain ⟨-, hem, hcl, ho'⟩ := hs''
    have hpo := exportPorts_runs (L := L) (p := p) (N := N) hok hv hem
      (fun o ho => mem_append_left _ (mem_map_of_mem ho)) hcl (ho'.trans hst'.outputs) hp
    rw [sum_map_one] at hpo
    refine hpo.bind (d := 0) fun w st3 hw _ hst3 => pure hw ⟨hst3.1, ?_, hst3.2.2.1, hst3.2.2.2⟩
    rw [hst3.2.1, (boundary_names region.bare).1, bare, map_map]
    rfl
  · have h := hp h
    rw [exportSize] at h
    omega

lemma exportLnet_runs (hok : region.Ok) (hs : s.candidate.Wf) (hpos : p → 0 < N)
    (hp : p → exportSize region ≤ N)
    (hini : p → ∀ x ∈ region.state, x.init = '0' ∨ x.init = '1' ∨ x.init = 'x') :
    Runs (supply L p) (exportLnet region N) s (exportSupply region) fun _ net =>
    IsExport region net := by
  have hss : p → region.inputs.length + region.state.length < N := by
    intro h
    have := hp h
    have := hok.wf.pos
    rw [exportSize] at *
    omega
  refine .ite (fun h => .throw hs fun hhas => (hpos hhas.2.2).ne' h) fun _ => ?_
  rw [exportSupply, ← zero_add (region.graph.size + _)]
  refine (require_runs hs fun _ h => ?_).bind fun t _ ht _ hts => ?_
  · have := hp h
    rw [exportSize] at this
    refine ⟨?_, ?_, ?_, ?_⟩ <;> omega
  refine (spend_runs ht _).bind fun u _ hu _ _ => ?_
  have hin := exportInputs_runs (L := L) (p := p) hok hu hss
  rw [sum_map_one] at hin
  refine hin.bind fun v st hv _ hst => ?_
  obtain ⟨-, hst, hnet⟩ := hst
  have hsta := exportStates_runs (L := L) (p := p) hok hv hss hini hst hnet
  rw [sum_map_one] at hsta
  refine hsta.bind fun w st' hw _ hst' => ?_
  rw [if_pos hok.names]
  exact exportLogic_runs hok hw hst'.2.1 hst'.2.2 hp

end

/-! ## The round trip -/

/-- Two networks with the same boundary and the same functions. -/
structure SameCircuit (net net' : Lnet) : Prop where
  inputs : net'.inputs.map (·.name) = net.inputs.map (·.name)
  latches : net'.latches.map (fun l => (l.name, l.init)) = net.latches.map fun l => (l.name, l.init)
  outputs : net'.outputs.map (·.name) = net.outputs.map (·.name)
  values : ∀ ci, net'.coValues ci = net.coValues ci

section

variable {net net' : Lnet} {region : XagRegion}

lemma IsImport.ok (h : IsImport net region) : region.Ok where
  wf := h.wf
  names := by simp [h.names, ciNodes, h.inputs, h.state.length_eq]
  sources := h.sources
  next x hx := by
    obtain ⟨l, -, -, -, d, -, his⟩ := h.state.exists_of_mem_left hx
    exact his.lt
  outputs o ho := by
    obtain ⟨po, -, -, his⟩ := h.outputs.exists_of_mem_left ho
    exact his.lt

lemma IsExport.sameCircuit (h : IsExport region net') (hi : IsImport net region) :
    SameCircuit net net' where
  inputs := by
    rw [h.inputs]
    refine ext_getElem? fun k => ?_
    rw [getElem?_map, getElem?_map]
    rcases lt_or_ge k region.inputs.length with hlt | hge
    · have hlt' := hi.inputs ▸ hlt
      have hsrc : region.graph.IsSource (region.inputs.get ⟨k, hlt⟩) k := by
        refine hi.sources k _ ?_
        rw [getElem?_append_left hlt]
        exact getElem?_eq_getElem hlt
      have hna : (ciNodes net)[k]? =
          some ((net.inputs.get ⟨k, hlt'⟩).node, (net.inputs.get ⟨k, hlt'⟩).name) := by
        rw [ciNodes, getElem?_append_left (by rwa [length_map]), getElem?_map,
          getElem?_eq_getElem hlt']
        rfl
      rw [getElem?_eq_getElem hlt, getElem?_eq_getElem hlt']
      change some (region.graph.names.getD
        (region.graph.node (region.inputs.get ⟨k, hlt⟩).id).sourceIndex "") = _
      rw [hsrc.index, hi.names, getD_eq_getElem?_getD, getElem?_map, hna]
      rfl
    · rw [getElem?_eq_none hge, getElem?_eq_none (hi.inputs ▸ hge)]
      rfl
  latches := by
    have h1 := h.latches.map_eq_map (f := fun x => (x.name, x.init))
        (g := fun l => (l.name, l.init)) fun x _ l hl =>
      Prod.ext hl.1.symm hl.2.1.symm
    have h2 := hi.state.map_eq_map (f := fun x => (x.name, x.init))
        (g := fun l => (l.name, l.init)) fun x _ l hl =>
      Prod.ext hl.1 hl.2.1
    exact h1.symm.trans h2
  outputs := by
    have h1 := h.outputs.map_eq_map (f := fun o => o.name) (g := fun po => po.name) fun _ _ _ hpo =>
      hpo.1.symm
    have h2 := hi.outputs.map_eq_map (f := fun o => o.name)
      (g := fun po => po.name) fun _ _ _ hpo => hpo.1
    exact h1.symm.trans h2
  values ci := by
    rw [Lnet.coValues, Lnet.coValues, Lnet.combinationalOutputs,
      Lnet.combinationalOutputs, map_append, map_append,
      map_map, map_map, map_map, map_map]
    congr 1
    · have h1 := h.outputs.map_eq_map (f := fun o => some (region.graph.eval ci o.signal))
        (g := fun po => some (net'.valueAt ci po.node)) fun _ _ _ hpo =>
          congrArg some (hpo.2.2 ci).symm
      have h2 := hi.outputs.map_eq_map (f := fun o => some (region.graph.eval ci o.signal))
        (g := fun po => some (net.valueAt ci po.node)) fun _ _ _ hpo =>
          congrArg some (hpo.2.eval ci)
      exact h1.symm.trans h2
    · have h1 := h.latches.map_eq_map (f := fun x => some (region.graph.eval ci x.d))
        (g := fun l => l.d.map (net'.valueAt ci)) fun x _ l hl => by
          obtain ⟨-, -, d, hd, hdr⟩ := hl
          simp [hd, hdr.2 ci]
      have h2 := hi.state.map_eq_map (f := fun x => some (region.graph.eval ci x.d))
        (g := fun l => l.d.map (net.valueAt ci)) fun x _ l hl => by
          obtain ⟨-, -, d, hd, his⟩ := hl
          simp [hd, his.eval ci]
      exact h1.symm.trans h2

/-- Credits and nodes with which a network goes in and out. -/
def roundTripSupply (net : Lnet) : ℕ :=
  8192 * (net.size + net.inputs.length + net.latches.length + net.outputs.length)

/-- Every network that goes through the graph and back keeps its boundary and its functions.  With
every next state set and the initial values those of a latch, it does come back when the work
and the nodes suffice. -/
theorem export_import (hnet : net.Valid) (hsourced : net.Sourced) :
    (∀ w maxNodes region w' maxNodes' net',
      ((importLnet net maxNodes).run.run { work := w }).1 = .ok region →
      ((exportLnet region maxNodes').run.run { work := w' }).1 = .ok net' → SameCircuit net net') ∧
    ((∀ l ∈ net.latches, l.d.isSome = true ∧ (l.init = '0' ∨ l.init = '1' ∨ l.init = 'x')) →
      ∀ w maxNodes, w.Has (roundTripSupply net) →
      roundTripSupply net ≤ maxNodes → maxNodes ≤ maxId →
      ∃ region, ((importLnet net maxNodes).run.run { work := w }).1 = .ok region ∧
        ∀ w' maxNodes', w'.Has (roundTripSupply net) → roundTripSupply net ≤ maxNodes' →
          ∃ net', ((exportLnet region maxNodes').run.run { work := w' }).1 = .ok net') := by
  constructor
  · intro w maxNodes region w' maxNodes' net' hregion hnet'
    have himport := importLnet_runs (L := 0) (p := False) (s := { work := w })
      (zero_le _) (zero_le maxNodes) elim
      elim hnet hsourced elim rfl
    have hi := (himport.builds.2.2 region hregion).1
    have hexport := exportLnet_runs (L := 0) (p := False) (N := maxNodes')
      (s := { work := w' }) hi.ok Xag.wf_empty
      elim elim elim
    exact (hexport.builds.2.2 net' hnet').sameCircuit hi
  · intro hcomplete w maxNodes hw hle hmax
    have hsize : 0 < net.size := (List.getElem?_eq_some_iff.1 hnet.zero).1
    have hdemand : 4 * (1 + importSupply net) + 4 *
        (net.inputs.length + net.latches.length + net.outputs.length) ≤ roundTripSupply net := by
      rw [importSupply, importCost, roundTripSupply]
      omega
    have hfit : 1 + importSupply net ≤ maxNodes := by omega
    have himport := importLnet_runs (L := 1 + importSupply net) (p := True)
      (s := { work := w }) (hfit.trans hmax) hfit
      (fun _ => by omega) (fun _ => ?_) hnet hsourced (fun _ l hl => (hcomplete l hl).1) rfl
    · have hhas : (supply (1 + importSupply net) True).has (importSupply net) { work := w } :=
        ⟨hw.mono (by omega), le_rfl, trivial⟩
      obtain ⟨region, hregion⟩ := himport.result hhas
      refine ⟨region, hregion, fun w' maxNodes' hw' hle' => ?_⟩
      obtain ⟨hi, hgraph⟩ := himport.builds.2.2 region hregion
      have hleft := (himport.leaves region hregion 0 hhas).2.1
      have hlen := hi.state.length_eq
      have hlen' := hi.outputs.length_eq
      have hlen'' := hi.inputs
      have hexport := exportLnet_runs (L := 1 + exportSupply region) (p := True) (N := maxNodes')
        (s := { work := w' }) hi.ok
        Xag.wf_empty (fun _ => by omega) (fun _ => ?_) fun _ x hx => ?_
      · refine hexport.result ⟨hw'.mono ?_, le_rfl, trivial⟩
        rw [exportSupply, logicSupply]
        omega
      · rw [exportSize]
        omega
      · obtain ⟨l, hl, -, hinit, -⟩ := hi.state.exists_of_mem_left hx
        rw [hinit]
        exact (hcomplete l hl).2
    · rw [importSupply, importCost] at hfit
      omega

/-- A toggling latch with a shared inverter. -/
def toggleNet : Lnet :=
  (((({} : Lnet).addInput "en").addLatch "q" '0').addLut [1, 2] kXor2
    |>.setLatchInput 0 3).addOutput 3 "y"

theorem export_import_toggle :
    (∀ l ∈ toggleNet.latches, l.d.isSome = true ∧ (l.init = '0' ∨ l.init = '1' ∨ l.init = 'x')) ∧
    ∃ region net', ((importLnet toggleNet 2000000).run.run
      { work := { budget := { remaining := 2000000 } } }).1 = .ok region ∧
      ((exportLnet region 2000000).run.run { work := { budget := { remaining := 2000000 } } }).1 =
      .ok net' ∧
      SameCircuit toggleNet net' := by
  have hvalid : toggleNet.Valid := by
    have hgate := (valid_empty.addInput "en").addLatch "q" '0'
    refine ((hgate.addLut kXor2 (show [1, 2].length ≤ 6 by decide) ?_).setLatchInput 0 ?_).addOutput
      ?_ "y"
    · intro i hi
      rcases mem_cons.1 hi with rfl | hi
      · decide
      · obtain rfl := mem_singleton.1 hi
        decide
    · decide
    · decide
  have hsourced : toggleNet.Sourced :=
    ((((sourced_empty.addInput "en").addLatch "q" '0').addNode
      (n := { kind := .lut, fanins := [1, 2], table := [replicate kXor2 2] })
      nofun).setLatchInput 0 3).addOutput 3 "y"
  have hcomplete : ∀ l ∈ toggleNet.latches, l.d.isSome = true ∧
    (l.init = '0' ∨ l.init = '1' ∨ l.init = 'x') := by decide
  have hwork : (Work.mk { remaining := 2000000 } (fun _ => true) 0).Has
    (roundTripSupply toggleNet) := ⟨rfl, rfl, by decide⟩
  obtain ⟨region, hregion, hback⟩ :=
    (export_import hvalid hsourced).2 hcomplete _ 2000000 hwork (by decide) (by decide)
  obtain ⟨net', hnet'⟩ := hback _ 2000000 hwork (by decide)
  exact ⟨hcomplete, region, net', hregion, hnet',
    (export_import hvalid hsourced).1 _ _ _ _ _ _ hregion hnet'⟩

end

end LiveHD.Usyn
