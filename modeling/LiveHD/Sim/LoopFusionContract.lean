import LiveHD.Sim.LoopFusionSolves

/-!
# Fusions one after another

A fusion contracts its members in the dependency graph, so what was free of cycles stays so, and
the groups that are left stay fusable: none of their members reaches an earlier group.
-/

namespace LiveHD.Sim

open Relation List

/-! ## Graphs without cycles -/

namespace Graph

variable {lib : Library} {g : Graph} {sem : Semantics} {ν ν' : Pin → ℤ}
  {op : ℕ → (ℕ → Multiset ℤ) → ℕ → ℤ} {ins : ℕ → ℤ}

/-- Without a cycle the inputs decide the values of the pins. -/
lemma Solves.unique (hwf : g.WellFormed lib) (hac : ∀ n, ¬TransGen g.Dep n n)
    (hν : g.Solves lib sem ν op ins)
    (hν' : g.Solves lib sem ν' op ins) {pin : Pin} (hpin : g.Drives lib pin) : ν pin = ν' pin := by
  have hfi : {n | n < g.nodes.length}.Finite := Set.finite_lt_nat _
  have : IsStrictOrder ℕ (TransGen g.Dep) := { irrefl := hac, trans := fun _ _ _ => .trans }
  have key : ∀ n, n < g.nodes.length → ∀ q, g.Drives lib (.out n q) →
      ν (.out n q) = ν' (.out n q) := by
    intro n hn
    refine Set.WellFoundedOn.induction (hfi.wellFoundedOn (r := TransGen g.Dep)) hn
      (P := fun n => ∀ q, g.Drives lib (.out n q) → ν (.out n q) = ν' (.out n q)) ?_
    intro n _ ih q hq
    obtain ⟨N, hN, hp⟩ := hq n q rfl
    rw [hν.out n N hN q hp, hν'.out n N hN q hp]
    refine congrArg _ (congrFun (result_congr hN op fun e he hno hse => ?_) q)
    obtain ⟨pin, s⟩ := e
    cases pin with
    | input i => rw [hν.input, hν'.input]
    | const v => rw [hν.const, hν'.const]
    | out m p =>
      obtain ⟨p', rfl⟩ := Fuse.isNode_iff.1 hno
      obtain ⟨M, hM, -⟩ := hwf.driver _ he m p rfl
      refine ih m (Fuse.lt_of_node hM)
        (.single ⟨p, p', he, fun hmn => hse ⟨?_, hmn.2⟩⟩) p (hwf.driver _ he)
      rw [hmn.1]
      exact beq_self_eq_true n
  cases pin with
  | input i => rw [hν.input, hν'.input]
  | const v => rw [hν.const, hν'.const]
  | out n q =>
    obtain ⟨N, hN, -⟩ := hpin n q rfl
    exact key n (Fuse.lt_of_node hN) q hpin

end Graph

namespace Fuse

variable {lib : Library} {g : Graph} {group : List ℕ}

namespace Setting

variable (h : Setting lib g group)

include h

/-! ## One contraction -/

/-- An edge after the fusion comes from one before it. -/
lemma exists_edge {e : Pin × Sink} (he : e ∈ (fuseGroup (lib, g) group).2.edges) :
    ∃ e₀ ∈ g.edges, pinTo lib g group e₀.1 = e.1 ∧ sinkTo lib g group e₀.2 = e.2 := by
  obtain ⟨e₀, he₀, rfl⟩ := mem_map.1 (h.edges.mem_iff.1 he)
  exact ⟨e₀, (mem_filter.1 he₀).1, rfl, rfl⟩

lemma dep_fused {x y : ℕ} (hxy : (fuseGroup (lib, g) group).2.Dep x y) :
    ∃ a b, g.Dep a b ∧ (if a ∈ group then none else some a) =
    (if x = g.nodes.length then none else some x) ∧
      (if b ∈ group then none else some b) = (if y = g.nodes.length then none else some y) := by
  obtain ⟨q, p, he, hse⟩ := hxy
  obtain ⟨⟨pin, s⟩, he, hpin, hs⟩ := h.exists_edge he
  have hlo : ∀ n ∉ group, n < g.nodes.length →
      (fuseGroup (lib, g) group).2.loop? n = g.loop? n := by
    intro n hn hlt
    rw [Graph.loop?, Graph.loop?, h.node_of_lt hlt hn]
  rcases h.pin_cases (h.wf.driver _ he) with ⟨z, hz, d, -, hep, hto⟩ | ⟨hnot, hto, -⟩
  · rcases h.sink_cases he with ⟨w, hw, d', -, hes, hto'⟩ | ⟨hno', hto', hlen, -⟩
    · refine ⟨z.1.id, w.1.id, ?_, ?_, ?_⟩
      · refine ⟨d.port, d'.port, by rw [← hep, ← hes]; exact he, fun _ => hse ?_⟩
        have hx := (Pin.out.inj (hto.symm.trans hpin)).1
        have hy := (Sink.node.inj (hto'.symm.trans hs)).1
        refine ⟨hx.symm.trans hy, ?_⟩
        rw [← hy, Graph.loop?, h.node_fused]
        rfl
      · rw [if_pos (mem_group hz), if_pos (Pin.out.inj (hto.symm.trans hpin)).1.symm]
      · rw [if_pos (mem_group hw), if_pos (Sink.node.inj (hto'.symm.trans hs)).1.symm]
    · obtain rfl : s = .node y p := hto'.symm.trans hs
      refine ⟨z.1.id, y, ⟨d.port, p, by rw [← hep]; exact he, fun hzy => ?_⟩, ?_, ?_⟩
      · have := hno' _ (mem_group hz)
        rw [hzy.1] at this
        exact absurd this (by simp)
      · rw [if_pos (mem_group hz), if_pos (Pin.out.inj (hto.symm.trans hpin)).1.symm]
      · rw [if_neg fun hy => ?_, if_neg (beq_eq_false_iff_ne.1 hlen)]
        have := hno' y hy
        exact absurd this (by simp)
  · obtain rfl : pin = .out x q := hto.symm.trans hpin
    have hx : x ∉ group := by
      intro hx
      have := hnot x hx
      exact absurd this (by simp)
    obtain ⟨N, hN, -⟩ := h.wf.driver _ he x q rfl
    have hlt := lt_of_node hN
    rcases h.sink_cases he with ⟨w, hw, d', -, hes, hto'⟩ | ⟨hno', hto', hlen, -⟩
    · refine ⟨x, w.1.id, ⟨q, d'.port, by
        rw [← hes]; exact he, fun hxw => hx (by rw [hxw.1]; exact mem_group hw)⟩, ?_, ?_⟩
      · rw [if_neg hx, if_neg hlt.ne]
      · rw [if_pos (mem_group hw), if_pos (Sink.node.inj (hto'.symm.trans hs)).1.symm]
    · obtain rfl : s = .node y p := hto'.symm.trans hs
      have hy : y ∉ group := by
        intro hy
        have := hno' y hy
        exact absurd this (by simp)
      refine ⟨x, y, ⟨q, p, he, fun hxy => hse ⟨hxy.1, ?_⟩⟩, ?_, ?_⟩
      · obtain ⟨rfl, hsm⟩ := hxy
        rwa [hlo x hx hlt]
      · rw [if_neg hx, if_neg hlt.ne]
      · rw [if_neg hy, if_neg (beq_eq_false_iff_ne.1 hlen)]

omit h in
lemma collapses : Collapses (fun a : ℕ => if a ∈ group then none else some a) {a | a ∈ group} := by
  intro x y hxy
  by_cases hx : x ∈ group
  · by_cases hy : y ∈ group
    · exact .inr ⟨hx, hy⟩
    · exact absurd hxy (by simp [hx, hy])
  · by_cases hy : y ∈ group
    · exact absurd hxy (by simp [hx, hy])
    · refine .inl ?_
      simp only [if_neg hx, if_neg hy] at hxy
      exact Option.some.inj hxy

/-- The dependencies after the fusion, the fused loop being `none`. -/
lemma lift_transGen {x y : ℕ} (hxy : TransGen (fuseGroup (lib, g) group).2.Dep x y) :
    TransGen (fun u v : Option ℕ => ∃ a b, g.Dep a b ∧ (if a ∈ group then none else some a) = u ∧
      (if b ∈ group then none else some b) = v) (if x = g.nodes.length then none else some x)
      (if y = g.nodes.length then none else some y) := by
  exact hxy.lift (fun n => if n = g.nodes.length then none else some n) fun a b hab =>
    h.dep_fused hab

lemma antichain : Antichain g.Dep {a | a ∈ group} := (antichain_dep h.wf).1 h.fusable.antichain

lemma acyclic (hac : ∀ n, ¬TransGen g.Dep n n) (n : ℕ) :
    ¬TransGen (fuseGroup (lib, g) group).2.Dep n n := by
  intro hn
  exact collapses.acyclic h.antichain (fun _ _ hab => hab) hac _ (h.lift_transGen hn)

/-- A path between nodes that stay was there, or its start reaches the group. -/
lemma transGen_or {a b : ℕ} (ha : a ∉ group) (hb : b ∉ group) (hla : a < g.nodes.length)
    (hlb : b < g.nodes.length)
    (hab : TransGen (fuseGroup (lib, g) group).2.Dep a b) :
    TransGen g.Dep a b ∨ ∃ m ∈ group, TransGen g.Dep a m := by
  have hp := h.lift_transGen hab
  rw [if_neg hla.ne, if_neg hlb.ne] at hp
  refine collapses.transGen_or (c := fun a : ℕ => if a ∈ group then none else some a) h.antichain
    (fun _ _ hab => hab) ha hb ?_
  simp only [if_neg ha, if_neg hb]
  exact hp

/-! ## Well-formed graphs -/

lemma callee?_cases {n c : ℕ} (hc : (fuseGroup (lib, g) group).2.callee? n = some c) :
    n = g.nodes.length ∧ c = lib.length ∨ n ≠ g.nodes.length ∧
    g.callee? n = some c ∧ c < lib.length := by
  rw [Graph.callee?, h.node] at hc
  by_cases hn : n ∈ group
  · rw [if_pos hn] at hc
    exact absurd hc (by simp)
  · rw [if_neg hn] at hc
    by_cases hlen : n = g.nodes.length
    · rw [if_pos hlen] at hc
      exact .inl ⟨hlen, (Option.some.inj hc).symm⟩
    · rw [if_neg hlen] at hc
      exact .inr ⟨hlen, hc, h.wf.callee n c hc⟩

lemma drives_pinTo {pin : Pin} (hdr : g.Drives lib pin) :
    (fuseGroup (lib, g) group).2.Drives (fuseGroup (lib, g) group).1 (pinTo lib g group pin) := by
  intro n q hpin
  rcases h.pin_cases hdr with ⟨x, hx, d, hd, -, hto⟩ | ⟨hnot, hto, -⟩
  · obtain ⟨rfl, rfl⟩ := Pin.out.inj (hto.symm.trans hpin)
    refine ⟨_, h.node_fused, ?_⟩
    rw [Graph.hasOutput, io_fused]
    have hmem : widen (d, x.2.output d.port) ∈ (fusedIo (members lib g group)).outputs :=
      widen_mem_outputDecls hx hd
    exact GraphIo.isSome_output? hmem
  · have hep := hto.symm.trans hpin
    obtain ⟨N, hN, hp⟩ := hdr n q hep
    have hn : n ∉ group := by
      intro hn
      have := hnot n hn
      rw [hep] at this
      exact absurd this (by simp)
    exact ⟨N, by rw [h.node_of_lt (lt_of_node hN) hn, hN], (h.hasOutput_of_lt hN q).2 hp⟩

lemma wellFormed : (fuseGroup (lib, g) group).2.WellFormed (fuseGroup (lib, g) group).1 where
  callee n c hc := by
    rw [fuseGroup_library, length_append]
    rcases h.callee?_cases hc with ⟨-, rfl⟩ | ⟨-, -, hlt⟩
    · exact Nat.lt_succ_self _
    · exact hlt.trans (Nat.lt_succ_self _)
  driver e he := by
    obtain ⟨e₀, he₀, hpin, -⟩ := h.exists_edge he
    rw [← hpin]
    exact h.drives_pinTo (h.wf.driver e₀ he₀)
  sink e he n p hes := by
    obtain ⟨e₀, he₀, -, hs⟩ := h.exists_edge he
    rcases h.sink_cases he₀ with ⟨x, hx, d, hd, -, hto⟩ | ⟨hnot, hto, hlen, -⟩
    · obtain ⟨rfl, rfl⟩ := Sink.node.inj (hto.symm.trans (hs.trans hes))
      refine ⟨by rw [h.node_fused]; rfl, fun c hc => ?_⟩
      rcases h.callee?_cases hc with ⟨-, rfl⟩ | ⟨hne, -⟩
      · obtain ⟨D, hD, hp, -⟩ := exists_fusedInput hx hd
        rw [io_fused, ← hp, GraphIo.input?_eq_some_iff.2 ⟨hD, rfl⟩]
        rfl
      · exact absurd rfl hne
    · have hes₀ := hto.symm.trans (hs.trans hes)
      have hn : n ∉ group := by
        intro hn
        have := hnot n hn
        rw [hes₀] at this
        exact absurd this (by simp)
      have hsi := h.wf.sink e₀ he₀ n p hes₀
      obtain ⟨N, hN⟩ := Option.isSome_iff_exists.1 hsi.1
      have hlt := lt_of_node hN
      refine ⟨by rw [h.node_of_lt hlt hn]; exact hsi.1, fun c hc => ?_⟩
      rcases h.callee?_cases hc with ⟨heq, -⟩ | ⟨-, hc, hclt⟩
      · exact absurd heq hlt.ne
      · rw [io_of_lt hclt]
        exact hsi.2 c hc

/-! ## The groups that are left -/

omit h in
lemma graph_of_lt (lib : Library) (g : Graph) (group : List ℕ) {c : ℕ} (hc : c < lib.length) :
    (fuseGroup (lib, g) group).1.graph c = lib.graph c := by
  rw [fuseGroup_library, Library.graph, Library.graph, getElem?_append_left hc]

lemma fusable_of_disjoint {other : List ℕ} (ho : Fusable lib g other) (hdi : ∀ a ∈ other, a ∉ group)
    (hla : ∀ a ∈ other, ∀ b ∈ group, ¬TransGen g.Dep a b) :
    Fusable (fuseGroup (lib, g) group).1 (fuseGroup (lib, g) group).2 other := by
  have hn : ∀ a ∈ other, (fuseGroup (lib, g) group).2.node a = g.node a ∧ a < g.nodes.length := by
    intro a ha
    obtain ⟨c, L, hcL, -⟩ := ho.loop a ha
    exact ⟨h.node_of_lt (lt_of_node hcL) (hdi a ha), lt_of_node hcL⟩
  have hlo : ∀ a ∈ other, (fuseGroup (lib, g) group).2.loop? a = g.loop? a := by
    intro a ha
    rw [Graph.loop?, Graph.loop?, (hn a ha).1]
  refine ⟨fun a ha => ?_, fun a ha b hb L M hL hM => ?_, ?_⟩
  · obtain ⟨c, L, hcL, hp, hbo⟩ := ho.loop a ha
    refine ⟨c, L, by rw [(hn a ha).1, hcL], hp, ?_⟩
    rwa [graph_of_lt lib g group (h.wf.callee a c (by rw [Graph.callee?, hcL]))]
  · rw [hlo a ha] at hL
    rw [hlo b hb] at hM
    exact ho.domain a ha b hb L M hL hM
  · rw [antichain_dep h.wellFormed]
    intro a ha b hb hab
    rcases h.transGen_or (hdi a ha) (hdi b hb) (hn a ha).2 (hn b hb).2 hab with hab | ⟨m, hm, ham⟩
    · exact (antichain_dep h.wf).1 ho.antichain a ha b hb hab
    · exact hla a ha m hm ham

end Setting

/-- The groups that are to be fused, one after another. -/
structure Pending (lib : Library) (g : Graph) (gs : List (List ℕ)) : Prop where
  wf : g.WellFormed lib
  fusable : ∀ group ∈ gs, Fusable lib g group
  nodup : gs.flatten.Nodup
  later : gs.Pairwise fun G H => ∀ a ∈ H, ∀ b ∈ G, ¬TransGen g.Dep a b

lemma pending_groups (lib : Library) (g : Graph) (hwf : g.WellFormed lib) :
    Pending lib g (groups lib g) := by
  obtain ⟨hfu, hnd, hla, -⟩ := groups_chosen lib g
  have hdep : Needs g = g.Dep := by
    funext p s
    exact propext (needs_iff_dep hwf)
  rw [hdep] at hla
  exact ⟨hwf, hfu, hnd, hla⟩

namespace Pending

variable {gs : List (List ℕ)} (h : Pending lib g (group :: gs))

include h

lemma setting : Setting lib g group := by
  have hnd := h.nodup
  exact ⟨h.wf, h.fusable group (.head _), (nodup_append.1 hnd).1⟩

lemma disjoint {other : List ℕ} (ho : other ∈ gs) : ∀ a ∈ other, a ∉ group := by
  have hnd := h.nodup
  intro a ha hmem
  exact (nodup_append.1 hnd).2.2 a hmem a (mem_flatten.2 ⟨other, ho, ha⟩) rfl

/-- The groups that are left, after one fusion. -/
lemma step : Pending (fuseGroup (lib, g) group).1 (fuseGroup (lib, g) group).2 gs := by
  have hs := h.setting
  obtain ⟨hfi, hr⟩ := pairwise_cons.1 h.later
  have hnd := h.nodup
  refine ⟨hs.wellFormed, fun other ho => ?_, (nodup_append.1 hnd).2.1, ?_⟩
  · exact hs.fusable_of_disjoint (h.fusable other (.tail _ ho)) (h.disjoint ho) (hfi other ho)
  · rw [pairwise_iff_forall_sublist] at hr ⊢
    intro G H hGH a ha b hb hab
    have hG := hGH.subset (.head _)
    have hH := hGH.subset (.tail _ (.head _))
    have hlt : ∀ K ∈ gs, ∀ c ∈ K, c < g.nodes.length := by
      intro K hK c hc
      obtain ⟨d, L, hn, -⟩ := (h.fusable K (.tail _ hK)).loop c hc
      exact lt_of_node hn
    rcases hs.transGen_or (h.disjoint hH a ha) (h.disjoint hG b hb) (hlt H hH a ha) (hlt G hG b hb)
      hab with hab | ⟨m, hm, ham⟩
    · exact hr hGH a ha b hb hab
    · exact hfi H hH a ha m hm ham

end Pending

end Fuse

end LiveHD.Sim
