import LiveHD.Sim.LoopFusionValues

/-!
# The fused body

The body of a fused loop gives each member's instance the values at the ports of the member, and
its outputs are those of the members.
-/

namespace LiveHD.Sim.Fuse

open List

variable {lib : Library} {g : Graph} {group : List ℕ} {ms : List Member}

lemma filter_eq_singleton {α κ : Type*} [DecidableEq κ] {l : List α} {f : α → κ}
    (h : (l.map f).Nodup) {a : α} (ha : a ∈ l) :
    l.filter (fun b => decide (f b = f a)) = [a] := by
  rw [← perm_singleton]
  refine (perm_ext_iff_of_nodup (h.of_map.filter _) (nodup_singleton _)).2 fun b => ?_
  rw [mem_filter, decide_eq_true_iff, mem_singleton]
  constructor
  · rintro ⟨hb, hab⟩
    exact inj_on_of_nodup_map h hb ha hab
  · rintro rfl
    exact ⟨ha, rfl⟩

/-! ## Its edges -/

lemma nodup_sinks (g : Graph) (ms : List Member) : ((fusedBody g ms).edges.map (·.2)).Nodup := by
  have hsp : (fusedBody g ms).edges.map (·.2) = (parts (firstPort ms) ms).zipIdx.flatMap fun x =>
      x.1.2.inputs.map (fun io => .node x.2 io.1) ++ x.1.2.outputs.map fun io => .output io.2 := by
    rw [fusedBody, map_flatMap]
    refine congrArg (fun F => List.flatMap F _) (funext fun x => ?_)
    rw [map_append, List.map_map, List.map_map]
    rfl
  rw [hsp]
  refine (flatMap_append_perm _ _ _).nodup_iff.1 (nodup_append.2 ⟨?_, ?_, ?_⟩)
  · refine nodup_flatMap.2 ⟨fun x hx => ?_, ?_⟩
    · obtain ⟨n, hn⟩ := exists_mapPorts (fst_mem_of_mem_zipIdx hx)
      have hnd := x.1.1.nodup_inputs_mapPorts n
      rw [← hn] at hnd
      have hmap : (x.1.2.inputs.map fun io => Sink.node x.2 io.1) =
          (x.1.2.inputs.map (·.1)).map (Sink.node x.2) := by
        rw [List.map_map]
        rfl
      rw [hmap]
      exact hnd.map fun a b hab => (Sink.node.inj hab).2
    · have hin : ((parts (firstPort ms) ms).zipIdx.map (·.2)).Nodup := by
        rw [zipIdx_map_snd]
        exact nodup_range'
      refine (pairwise_map.1 hin).imp fun hne s hs hs' => ?_
      obtain ⟨io, -, rfl⟩ := mem_map.1 hs
      obtain ⟨io', -, heq⟩ := mem_map.1 hs'
      exact hne (Sink.node.inj heq).1.symm
  · have hou : ((parts (firstPort ms) ms).zipIdx.flatMap fun x => x.1.2.outputs.map
        fun io => .output io.2) =
        ((outputDecls (firstPort ms) ms).map (·.port)).map Sink.output := by
      rw [← outputs_parts, map_flatMap]
      conv_rhs => rw [← zipIdx_map_fst 0 (parts (firstPort ms) ms), flatMap_map]
      refine congrArg (fun F => List.flatMap F _) (funext fun x => ?_)
      rw [List.map_map]
      rfl
    rw [hou]
    exact (nodup_outputDecls ms _).map fun a b hab => Sink.output.inj hab
  · intro s hs s' hs' heq
    obtain ⟨x, -, hs⟩ := mem_flatMap.1 hs
    obtain ⟨io, -, rfl⟩ := mem_map.1 hs
    obtain ⟨x', -, hs'⟩ := mem_flatMap.1 hs'
    obtain ⟨io', -, rfl⟩ := mem_map.1 hs'
    exact absurd heq (by simp)

lemma values_of_mem {e : Pin × Sink} (he : e ∈ (fusedBody g ms).edges) (ν : Pin → ℤ) :
    (fusedBody g ms).values ν e.2 = {ν e.1} := by
  rw [Graph.values, filter_eq_singleton (nodup_sinks g ms) he]
  rfl

variable {d : PortDecl}

section

variable {x : Member × Ports} {i : ℕ} (hx : (parts (firstPort ms) ms)[i]? = some x)

include hx

lemma mem_parts : x ∈ parts (firstPort ms) ms := mem_of_getElem? hx

lemma getElem?_members : ms[i]? = some x.1 := by
  conv_lhs => rw [← map_fst_parts (firstPort ms) ms]
  rw [getElem?_map, hx]
  rfl

lemma node_fusedBody : (fusedBody g ms).node i = some (.sub x.1.callee) := by
  rw [Graph.node, fusedBody, getElem?_map, getElem?_members hx]
  rfl

/-- An instance is wired to the ports its member's became. -/
lemma input_mem_edges (hd : d ∈ x.1.io.inputs) :
    (.input (x.2.input d.port), .node i d.port) ∈ (fusedBody g ms).edges := by
  refine mem_flatMap.2 ⟨(x, i), mk_mem_zipIdx_iff_getElem?.2 hx, mem_append_left _ ?_⟩
  refine mem_map.2 ⟨(d.port, x.2.input d.port), ?_, rfl⟩
  obtain ⟨n, hn⟩ := exists_mapPorts (mem_parts hx)
  rw [hn]
  cases hin : x.1.isIndex d.port with
  | true =>
    rw [x.1.input_index (Member.mem_indexPorts.2 ⟨hd, hin⟩)]
    exact mem_append_left _ (mem_map.2 ⟨d, Member.mem_indexPorts.2 ⟨hd, hin⟩, rfl⟩)
  | false =>
    obtain ⟨k, hk, -⟩ := exists_mem_zipIdx (Member.mem_ownInputs.2 ⟨hd, hin⟩) n
    rw [x.1.input_own hk]
    exact mem_append_right _ (mem_map.2 ⟨_, hk, rfl⟩)

lemma values_input (hd : d ∈ x.1.io.inputs) (ν : Pin → ℤ) :
    (fusedBody g ms).values ν (.node i d.port) = {ν (.input (x.2.input d.port))} := values_of_mem
    (input_mem_edges hx hd) ν

lemma values_output (hd : d ∈ x.1.io.outputs) (ν : Pin → ℤ) :
    (fusedBody g ms).values ν (.output (x.2.output d.port)) = {ν (.out i d.port)} :=
  values_of_mem (e := (.out i d.port, .output (x.2.output d.port)))
    (mem_flatMap.2 ⟨(x, i), mk_mem_zipIdx_iff_getElem?.2 hx, mem_append_right _
      (mem_map.2 ⟨(d.port, x.2.output d.port), mem_outputs (mem_parts hx) hd, rfl⟩)⟩) ν

end

/-! ## Its ports -/

/-- A member's port is no wider than the port of the fused body it is behind. -/
lemma exists_fusedInput {x : Member × Ports} (hx : x ∈ parts (firstPort ms) ms)
    (hd : d ∈ x.1.io.inputs) :
    ∃ D ∈ (fusedIo ms).inputs, D.port = x.2.input d.port ∧ d.width ≤ D.width ∧ D.bits ≠ 0 := by
  cases hin : x.1.isIndex d.port with
  | true =>
    have hmem := Member.mem_indexPorts.2 ⟨hd, hin⟩
    have hany : hasIndex ms = true := by
      refine any_eq_true.2 ⟨x.1, ?_, ?_⟩
      · rw [← map_fst_parts (firstPort ms) ms]
        exact mem_map_of_mem hx
      · rw [beq_iff_eq.1 hin]
        rfl
    refine ⟨⟨0, indexBits ms, indexUnsigned ms⟩, ?_, (input_of_index hx hmem).symm,
      width_le_indexBits (mem_indexDecls hx hmem), ?_⟩
    · refine mem_append_left _ ?_
      rw [if_pos hany]
      exact mem_singleton_self _
    · have hone : 1 ≤ indexUnsignedBits ms := (le_foldl_max _ 1).1
      rw [indexBits]
      split
      · exact Nat.one_le_iff_ne_zero.1 hone
      · exact Nat.one_le_iff_ne_zero.1 (le_max_of_le_right (hone.trans (Nat.le_succ _)))
  | false =>
    refine ⟨_, mem_append_right _ (widen_mem_inputDecls hx (Member.mem_ownInputs.2 ⟨hd, hin⟩)),
      rfl, ?_, ?_⟩
    · exact le_max_right _ _
    · exact Nat.one_le_iff_ne_zero.1 (le_max_left 1 d.bits)

lemma fit_widen (d : PortDecl) (q : ℕ) (v : ℤ) : (widen (d, q)).fit v = d.fit v := by
  rw [PortDecl.fit, PortDecl.fit, PortDecl.width, PortDecl.width, widen,
    max_eq_right (le_max_left 1 d.bits)]

lemma attr_fit {D : PortDecl} (h : D.bits ≠ 0) (v : ℤ) :
    (⟨D.bits, D.unsign⟩ : PinAttr).fit v = D.fit v := by
  rw [PinAttr.fit, if_neg h, PortDecl.fit, PortDecl.width,
    max_eq_right (Nat.one_le_iff_ne_zero.2 h)]

/-- A value passes the ports of the fused body and is cut by the member's own only. -/
lemma fitInputs_fused {x : Member × Ports} (hx : x ∈ parts (firstPort ms) ms) (raw : ℕ → ℤ) :
    (x.1.io.fitInputs fun p => (fusedIo ms).fitInputs ((fusedIo ms).fitInputs raw) (x.2.input p)) =
      x.1.io.fitInputs fun p => raw (x.2.input p) := by
  refine GraphIo.fitInputs_congr fun d hd => ?_
  obtain ⟨D, hD, hp, hw, -⟩ := exists_fusedInput hx hd
  rw [← hp, GraphIo.fitInputs_of_mem hD, GraphIo.fitInputs_of_mem hD, D.fit_idem,
    PortDecl.fit_of_width_le hw]

/-! ## What it computes -/

namespace Setting

variable (h : Setting lib g group) {sem : Semantics}

include h

omit h in
lemma attrs_fusedBody (i p : ℕ) :
    (fusedBody g (members lib g group)).attrs (.out i p) = match (members lib g group)[i]? with
    | some m => if (m.io.output? p).isSome then g.attrs (.out m.id p) else ⟨0, false⟩
    | none => ⟨0, false⟩ := rfl

lemma body_fused (hbo : (fusedBody g (members lib g group)).Realizes
    (fuseGroup (lib, g) group).1 sem lib.length)
    (ins : ℕ → ℤ) {x : Member × Ports} (hx : x ∈ partsOf lib g group) (hd : d ∈ x.1.io.outputs) :
    sem.body lib.length ins (x.2.output d.port) =
    (g.attrs (.out x.1.id d.port)).fit (x.1.io.fitOutputs
      (sem.body x.1.callee (x.1.io.fitInputs fun p => (fusedIo (members lib g group)).fitInputs ins
        (x.2.input p))) d.port) := by
  obtain ⟨i, hi⟩ := getElem?_of_mem hx
  obtain ⟨ν, op, hν, hout⟩ := hbo ins
  have hmem := mem_of_mem_partsOf hx
  have hio : (fuseGroup (lib, g) group).1.io x.1.callee = x.1.io := by
    rw [io_of_lt (h.plain hmem).2, io_of_mem hx]
  have hin : ∀ d ∈ x.1.io.inputs, ν (.input (x.2.input d.port)) =
      (fusedIo (members lib g group)).fitInputs ins (x.2.input d.port) := by
    intro d hd
    obtain ⟨D, hD, hp, -, hb⟩ := exists_fusedInput hx hd
    rw [hν.input, ← hp, GraphIo.fitInputs_of_mem hD, ← attr_fit hb]
    change PinAttr.fit ((((fusedIo _).input? D.port).map _).getD _) _ = _
    rw [GraphIo.input?_eq_some_iff.2 ⟨hD, rfl⟩]
    rfl
  have hch : ν (.out i d.port) = (g.attrs (.out x.1.id d.port)).fit (x.1.io.fitOutputs
      (sem.body x.1.callee (x.1.io.fitInputs fun p => (fusedIo (members lib g group)).fitInputs ins
        (x.2.input p))) d.port) := by
    have hget := getElem?_members hi
    have hou := GraphIo.isSome_output? hd
    have hn : (fusedBody g (members lib g group)).node i =
      some (.sub x.1.callee) := node_fusedBody hi
    have hatt : (fusedBody g (members lib g group)).attrs (.out i d.port) =
        g.attrs (.out x.1.id d.port) := by
      rw [attrs_fusedBody, hget]
      exact if_pos hou
    rw [hν.out i _ hn d.port (by change ((Library.io _ _).output? _).isSome; rw [hio]; exact hou),
      hatt, Graph.result, hio]
    refine congrArg _
      (congrFun (congrArg _ (congrArg _ (GraphIo.fitInputs_congr fun d hd => ?_))) _)
    rw [values_input hi hd, sem.resolve_singleton, hin d hd]
  have hde : widen (d, x.2.output d.port) ∈
      ((fuseGroup (lib, g) group).1.io lib.length).outputs := by
    rw [io_fused]
    exact widen_mem_outputDecls hx hd
  rw [← hch, ← sem.resolve_singleton (ν (.out i d.port)), ← values_output hi hd ν]
  exact hout _ hde

end Setting

end LiveHD.Sim.Fuse
