import LiveHD.Sim.LoopFusionStep

/-!
# The values after a fusion

What the sinks of a fused graph hold, in terms of the values of the old pins: a valuation of the
new pins is read through the renaming of the old ones.
-/

namespace LiveHD.Sim.Fuse

open List

variable {lib : Library} {g : Graph} {group : List ℕ}

/-- Where the driver pins of a graph go when a group is fused. -/
def pinTo (lib : Library) (g : Graph) (group : List ℕ) : Pin →
    Pin := renamePin g.nodes.length (partsOf lib g group)

def sinkTo (lib : Library) (g : Graph) (group : List ℕ) : Sink →
    Sink := renameSink g.nodes.length (partsOf lib g group)

/-- A sink that is none of a member's or of the fused loop's. -/
def Survives (g : Graph) (group : List ℕ) (s : Sink) : Prop := ∀ n, s.isNode n = true →
    n ∉ group ∧ n ≠ g.nodes.length

lemma outPort?_eq_none {pin : Pin} {id : ℕ} (h : pin.isOut id = false) :
    Graph.outPort? id pin = none := by
  cases pin with
  | out n q => exact if_neg (beq_eq_false_iff_ne.1 h)
  | _ => rfl

section

variable {x : Member × Ports} (hx : x ∈ partsOf lib g group)

include hx

lemma node_of_part : g.node x.1.id = some (.loop x.1.callee x.1.loop) :=
  (mem_members (mem_of_mem_partsOf hx)).2.1

lemma callee_of_mem : g.callee? x.1.id = some x.1.callee := by rw [Graph.callee?, node_of_part hx]

lemma io_of_mem : lib.io x.1.callee = x.1.io := (mem_members (mem_of_mem_partsOf hx)).2.2.symm

lemma mem_group : x.1.id ∈ group := (mem_members (mem_of_mem_partsOf hx)).1

end

namespace Setting

variable (h : Setting lib g group)

include h

/-! ## The ends of an edge -/

lemma pin_cases {pin : Pin} (hpin : g.Drives lib pin) :
    (∃ x ∈ partsOf lib g group, ∃ d ∈ x.1.io.outputs, pin = .out x.1.id d.port ∧
        pinTo lib g group pin = .out g.nodes.length (x.2.output d.port)) ∨
      (∀ n ∈ group, pin.isOut n = false) ∧ pinTo lib g group pin = pin ∧
      pin.isOut g.nodes.length = false := by
  by_cases hout : ∃ n ∈ group, pin.isOut n = true
  · obtain ⟨n, hn, hout⟩ := hout
    obtain ⟨x, hx, rfl⟩ := h.exists_part hn
    obtain ⟨q, hq⟩ := isOut_iff.1 hout
    obtain ⟨N, hN, hp⟩ := hpin _ q hq
    rw [node_of_part hx] at hN
    cases hN
    obtain ⟨d, hd⟩ := Option.isSome_iff_exists.1 hp
    rw [io_of_mem hx] at hd
    obtain ⟨hmem, rfl⟩ := GraphIo.output?_eq_some_iff.1 hd
    exact .inl ⟨x, hx, d, hmem, hq, by rw [hq]; exact renamePin_of_mem h.nodup_ids hx d.port⟩
  · have hnot : ∀ n ∈ group, pin.isOut n = false := fun n hn =>
      Bool.eq_false_iff.2 fun ho' => hout ⟨n, hn, ho'⟩
    refine .inr ⟨hnot, renamePin_of_not fun x hx => hnot _ (mem_group hx), ?_⟩
    cases hf : pin.isOut g.nodes.length with
    | false => rfl
    | true =>
      obtain ⟨q, hq⟩ := isOut_iff.1 hf
      obtain ⟨N, hN, -⟩ := hpin _ q hq
      exact absurd (lt_of_node hN) (lt_irrefl _)

variable {e : Pin × Sink}

lemma sink_cases (he : e ∈ g.edges) :
    (∃ x ∈ partsOf lib g group, ∃ d ∈ x.1.io.inputs, e.2 = .node x.1.id d.port ∧
        sinkTo lib g group e.2 = .node g.nodes.length (x.2.input d.port)) ∨
      (∀ n ∈ group, e.2.isNode n = false) ∧ sinkTo lib g group e.2 = e.2 ∧
      e.2.isNode g.nodes.length = false ∧
        kept (partsOf lib g group) e = true := by
  by_cases hno : ∃ n ∈ group, e.2.isNode n = true
  · obtain ⟨n, hn, hno⟩ := hno
    obtain ⟨x, hx, rfl⟩ := h.exists_part hn
    obtain ⟨p, hp⟩ := isNode_iff.1 hno
    obtain ⟨d, hd⟩ := Option.isSome_iff_exists.1 ((h.wf.sink e he _ p hp).2 _ (callee_of_mem hx))
    rw [io_of_mem hx] at hd
    obtain ⟨hmem, rfl⟩ := GraphIo.input?_eq_some_iff.1 hd
    exact .inl ⟨x, hx, d, hmem, hp, by rw [hp]; exact renameSink_of_mem h.nodup_ids hx d.port⟩
  · have hnot : ∀ n ∈ group, e.2.isNode n = false := fun n hn =>
      Bool.eq_false_iff.2 fun hn' => hno ⟨n, hn, hn'⟩
    refine .inr ⟨hnot, renameSink_of_not fun x hx => hnot _ (mem_group hx), ?_, ?_⟩
    · cases hf : e.2.isNode g.nodes.length with
      | false => rfl
      | true =>
        obtain ⟨p, hp⟩ := isNode_iff.1 hf
        obtain ⟨N, hN⟩ := Option.isSome_iff_exists.1 (h.wf.sink e he _ p hp).1
        exact absurd (lt_of_node hN) (lt_irrefl _)
    · refine all_eq_true.2 fun x hx => ?_
      cases hi : indexEdge x.1 e with
      | false => rfl
      | true => exact absurd ((indexEdge_isNode hi).1.symm.trans (hnot _ (mem_group hx))) (by simp)

/-! ## Gathering -/

lemma gather (ν : Pin → ℤ) {P Q : Pin × Sink → Bool} (hPQ : ∀ e ∈ g.edges,
    (P (pinTo lib g group e.1, sinkTo lib g group e.2) && kept (partsOf lib g group) e) = Q e) :
    (((fuseGroup (lib, g) group).2.edges.filter P).map fun e => ν e.1 : Multiset ℤ) =
      ((g.edges.filter Q).map fun e => (ν ∘ pinTo lib g group) e.1 : List ℤ) := by
  refine Multiset.coe_eq_coe.2 (((h.edges.filter P).map _).trans (.of_eq ?_))
  rw [filter_map, map_map, filter_filter]
  have hfi : g.edges.filter (fun e => (P ∘ Prod.map (renamePin g.nodes.length (partsOf lib g group))
      (renameSink g.nodes.length (partsOf lib g group))) e && kept (partsOf lib g group) e) =
        g.edges.filter Q :=
    filter_congr hPQ
  rw [hfi]
  rfl

lemma gatherMap {κ : Type*} {φ ψ : Pin × Sink → Option κ} (hφψ : ∀ e ∈ g.edges,
    (if kept (partsOf lib g group) e then φ (pinTo lib g group e.1, sinkTo lib g group e.2)
      else none) = ψ e) :
    ((fuseGroup (lib, g) group).2.edges.filterMap φ).Perm (g.edges.filterMap ψ) := by
  refine (h.edges.filterMap φ).trans (.of_eq ?_)
  rw [filterMap_map, filterMap_filter]
  exact filterMap_congr hφψ

lemma values {s : Sink} (hs : Survives g group s) (ν : Pin → ℤ) :
    (fuseGroup (lib, g) group).2.values ν s = g.values (ν ∘ pinTo lib g group) s := by
  refine h.gather ν fun e he => ?_
  rcases h.sink_cases he with ⟨x, hx, d, -, hes, hto⟩ | ⟨-, hto, -, hke⟩
  · have hne : e.2 ≠ s := by
      rintro rfl
      exact (hs x.1.id (by rw [hes]; exact beq_self_eq_true _)).1 (mem_group hx)
    have hne' : Sink.node g.nodes.length (x.2.input d.port) ≠ s := by
      rintro rfl
      exact (hs _ (beq_self_eq_true _)).2 rfl
    rw [hto, decide_eq_false hne, decide_eq_false hne', Bool.false_and]
  · rw [hto, hke, Bool.and_true]

section

variable {n : ℕ} (hn : n ∉ group) (hlt : n ≠ g.nodes.length)
include hn hlt

lemma external (p : ℕ) (ν : Pin → ℤ) :
    (fuseGroup (lib, g) group).2.external ν n p = g.external (ν ∘ pinTo lib g group) n p := by
  refine h.gather ν fun e he => ?_
  have hpin : (pinTo lib g group e.1).isOut n = e.1.isOut n := by
    rcases h.pin_cases (h.wf.driver _ he) with ⟨x, hx, d, -, hep, hto⟩ | ⟨-, hto, -⟩
    · rw [hto, hep, isOut_out, isOut_out, beq_eq_false_iff_ne.2 hlt.symm, beq_eq_false_iff_ne.2]
      rintro rfl
      exact hn (mem_group hx)
    · rw [hto]
  rcases h.sink_cases he with ⟨x, hx, d, -, hes, hto⟩ | ⟨-, hto, -, hke⟩
  · have hne : e.2 ≠ .node n p := by
      rw [hes]
      intro heq
      exact hn (by rw [← (Sink.node.inj heq).1]; exact mem_group hx)
    have hne' : Sink.node g.nodes.length (x.2.input d.port) ≠ .node n p := fun heq =>
      hlt (Sink.node.inj heq).1.symm
    rw [hto, decide_eq_false hne, decide_eq_false hne', Bool.false_and,
      Bool.false_and, Bool.false_and]
  · rw [hto, hke, hpin, Bool.and_true]

lemma outPort?_pinTo (he : e ∈ g.edges) :
    Graph.outPort? n (pinTo lib g group e.1) = Graph.outPort? n e.1 := by
  rcases h.pin_cases (h.wf.driver _ he) with ⟨x, hx, d, -, hep, hto⟩ | ⟨-, hto, -⟩
  · have hne : x.1.id ≠ n := by
      rintro rfl
      exact hn (mem_group hx)
    rw [hto, hep, Graph.outPort?, Graph.outPort?, if_neg hlt.symm, if_neg hne]
  · rw [hto]

lemma carriesInto (p : ℕ) : ((fuseGroup (lib, g) group).2.carriesInto n p).Perm
    (g.carriesInto n p) := by
  refine h.gatherMap fun e he => ?_
  rcases h.sink_cases he with ⟨x, hx, d, -, hes, hto⟩ | ⟨-, hto, -, hke⟩
  · have hne : e.2 ≠ .node n p := by
      rw [hes]
      intro heq
      exact hn (by rw [← (Sink.node.inj heq).1]; exact mem_group hx)
    have hne' : Sink.node g.nodes.length (x.2.input d.port) ≠ .node n p := fun heq =>
      hlt (Sink.node.inj heq).1.symm
    rw [hto, if_neg hne, if_neg hne', ite_self]
  · rw [hto, if_pos hke, h.outPort?_pinTo hn hlt he]

end

/-! ## The sinks of the fused loop -/

section

variable {x : Member × Ports} (hx : x ∈ partsOf lib g group) {d : PortDecl} (hd : d ∈ x.1.ownInputs)

include hx hd

/-- Only what led to a member's port leads to the port it became. -/
lemma sinkTo_eq_iff (he : e ∈ g.edges) :
    sinkTo lib g group e.2 = .node g.nodes.length (x.2.input d.port) ↔
    e.2 = .node x.1.id d.port := by
  constructor
  · intro heq
    rcases h.sink_cases he with ⟨y, hy, d', hd', hes, hto⟩ | ⟨-, hto, hnot, -⟩
    · have hp := (Sink.node.inj (hto.symm.trans heq)).2
      cases hi : y.1.isIndex d'.port with
      | false =>
        obtain ⟨rfl, rfl⟩ := input_inj hy hx (Member.mem_ownInputs.2 ⟨hd', hi⟩) hd hp
        exact hes
      | true => exact absurd hp.symm (input_ne_index hx hy hd (Member.mem_indexPorts.2 ⟨hd', hi⟩))
    · rw [← hto, heq] at hnot
      exact absurd hnot (by simp)
  · intro heq
    rw [heq]
    exact renameSink_of_mem h.nodup_ids hx d.port

omit hx in
lemma kept_of_own (hes : e.2 = .node x.1.id d.port) (hx : x ∈ partsOf lib g group) :
    kept (partsOf lib g group) e = true := by
  refine all_eq_true.2 fun y hy => ?_
  cases hi : indexEdge y.1 e with
  | false => rfl
  | true =>
    have hn := (indexEdge_isNode hi).1
    rw [hes, isNode_node, beq_iff_eq] at hn
    obtain rfl := inj_on_of_nodup_map h.nodup_ids hx hy hn
    rw [indexEdge, hes] at hi
    change (_ && x.1.isIndex d.port) = true at hi
    rw [(Member.mem_ownInputs.1 hd).2, Bool.and_false] at hi
    exact absurd hi Bool.false_ne_true

omit hd in
/-- Of the drivers of a member only the member itself became the fused loop. -/
lemma isOut_pinTo (he : e ∈ g.edges) (hes : e.2 = .node x.1.id d.port) :
    (pinTo lib g group e.1).isOut g.nodes.length = e.1.isOut x.1.id := by
  rcases h.pin_cases (h.wf.driver _ he) with ⟨y, hy, d', -, hep, hto⟩ | ⟨hnot, hto, hf⟩
  · have hid := h.apart.edge e he _ (mem_map_of_mem hy) _ (mem_map_of_mem hx)
      (by rw [hep]; exact beq_self_eq_true _) (by rw [hes]; exact beq_self_eq_true _)
    rw [hto, hep, isOut_out, isOut_out, beq_self_eq_true, hid, beq_self_eq_true]
  · rw [hto, hf, hnot _ (mem_group hx)]

lemma external_fused (ν : Pin → ℤ) :
    (fuseGroup (lib, g) group).2.external ν g.nodes.length (x.2.input d.port) =
      g.external (ν ∘ pinTo lib g group) x.1.id d.port := by
  refine h.gather ν fun e he => ?_
  by_cases hes : e.2 = .node x.1.id d.port
  · rw [decide_eq_true hes, decide_eq_true ((h.sinkTo_eq_iff hx hd he).2 hes),
      h.kept_of_own hd hes hx, h.isOut_pinTo hx he hes,
      Bool.and_true]
  · rw [decide_eq_false hes, decide_eq_false fun hto => hes ((h.sinkTo_eq_iff hx hd he).1 hto),
      Bool.false_and, Bool.false_and,
      Bool.false_and]

lemma carriesInto_fused :
    ((fuseGroup (lib, g) group).2.carriesInto g.nodes.length (x.2.input d.port)).Perm
    ((g.carriesInto x.1.id d.port).map x.2.output) := by
  rw [Graph.carriesInto, Graph.carriesInto, map_filterMap]
  refine h.gatherMap fun e he => ?_
  by_cases hes : e.2 = .node x.1.id d.port
  · rw [if_pos hes, if_pos ((h.sinkTo_eq_iff hx hd he).2 hes), if_pos (h.kept_of_own hd hes hx)]
    rcases h.pin_cases (h.wf.driver _ he) with ⟨y, hy, d', -, hep, hto⟩ | ⟨hnot, hto, hf⟩
    · have hid := h.apart.edge e he _ (mem_map_of_mem hy) _ (mem_map_of_mem hx)
        (by rw [hep]; exact beq_self_eq_true _) (by rw [hes]; exact beq_self_eq_true _)
      obtain rfl := inj_on_of_nodup_map h.nodup_ids hy hx hid
      rw [hto, hep, Graph.outPort?, Graph.outPort?, if_pos rfl, if_pos rfl]
      rfl
    · rw [hto, outPort?_eq_none hf, outPort?_eq_none (hnot _ (mem_group hx))]
      rfl
  · rw [if_neg hes, if_neg fun hto => hes ((h.sinkTo_eq_iff hx hd he).1 hto), ite_self]
    rfl

end

end Setting

end LiveHD.Sim.Fuse
