import LiveHD.Sim.LoopFusionBody

/-!
# Fused loops compute what their members did

At every ordinal an instance of the fused body has the inputs its member had, so the valuations of
the fused graph are those of the graph before, read through the renaming of the pins.
-/

namespace LiveHD.Sim.Fuse

open LiveHD.Sim.Graph GraphIo List

variable {lib : Library} {g : Graph} {group : List ℕ}

namespace Setting

variable (h : Setting lib g group) {sem : Semantics}

include h

/-! ## The ordinals -/

variable {d : PortDecl}

section

variable {x : Member × Ports} (hx : x ∈ partsOf lib g group) (ν : Pin → ℤ)

include hx

/-- The port of the fused loop at an ordinal holds what the member's port did. -/
lemma portAt_fused (r : ℕ) {carry carry' : ℕ → ℤ}
    (hca : ∀ d ∈ x.1.ownInputs, carry' (x.2.input d.port) = carry d.port)
    (hd : d ∈ x.1.io.inputs) :
    (fuseGroup (lib, g) group).2.portAt sem ν g.nodes.length
    (descriptor (members lib g group)) r carry' (x.2.input d.port) =
      g.portAt sem (ν ∘ pinTo lib g group) x.1.id x.1.loop r carry d.port := by
  obtain ⟨hdo, -, hin⟩ := h.descriptor_domain (mem_of_mem_partsOf hx)
  obtain ⟨hfi, hst, -⟩ := sameDomain_iff.1 hdo
  cases hi : x.1.isIndex d.port with
  | true =>
    have hmem := Member.mem_indexPorts.2 ⟨hd, hi⟩
    have hany : hasIndex (members lib g group) = true := by
      refine any_eq_true.2 ⟨x.1, mem_of_mem_partsOf hx, ?_⟩
      rw [beq_iff_eq.1 hi]
      rfl
    rw [input_of_index hx hmem, portAt, portAt, if_pos (by rw [hin, if_pos hany]),
      if_pos (beq_iff_eq.1 hi),
      SubnodeLoop.indexAt, SubnodeLoop.indexAt, hfi, hst]
  | false =>
    have hown := Member.mem_ownInputs.2 ⟨hd, hi⟩
    have hnot : (descriptor (members lib g group)).indexInput ≠ some (x.2.input d.port) := by
      rw [hin]
      split
      next hany =>
        intro heq
        have hle := le_input hx hown
        rw [firstPort, if_pos hany, ← Option.some.inj heq] at hle
        exact absurd hle (by simp)
      next => simp
    have hem :
        ((fuseGroup (lib, g) group).2.carriesInto g.nodes.length (x.2.input d.port)).isEmpty =
        (g.carriesInto x.1.id d.port).isEmpty := by
      rw [(h.carriesInto_fused hx hown).isEmpty_eq, isEmpty_map]
    rw [portAt, portAt, if_neg hnot, if_neg (beq_eq_false_iff_ne.1 hi), hem,
      h.external_fused hx hown, hca d hown]

/-- The fused loop leaves at its pins what the members did. -/
lemma outputAt_fused (hbody : (fusedBody g (members lib g group)).Realizes
    (fuseGroup (lib, g) group).1 sem lib.length)
    (r : ℕ) {carry carry' : ℕ → ℤ}
    (hca : ∀ d ∈ x.1.ownInputs, carry' (x.2.input d.port) = carry d.port)
    (hd : d ∈ x.1.io.outputs) :
    ((fuseGroup (lib, g) group).2.attrs (.out g.nodes.length (x.2.output d.port))).fit
        ((fuseGroup (lib, g) group).2.outputAt (fuseGroup (lib, g) group).1 sem ν
          g.nodes.length lib.length
          (descriptor (members lib g group)) r carry' (x.2.output d.port)) =
      (g.attrs (.out x.1.id d.port)).fit
      (g.outputAt lib sem (ν ∘ pinTo lib g group) x.1.id x.1.callee x.1.loop r carry d.port) := by
  have hde : widen (d, x.2.output d.port) ∈ (fusedIo (members lib g group)).outputs :=
    widen_mem_outputDecls hx hd
  have hins : (x.1.io.fitInputs fun p => (fuseGroup (lib, g) group).2.portAt sem ν g.nodes.length
        (descriptor (members lib g group)) r carry' (x.2.input p)) =
      x.1.io.fitInputs (g.portAt sem (ν ∘ pinTo lib g group) x.1.id x.1.loop r carry) :=
    fitInputs_congr fun d hd => congrArg d.fit (h.portAt_fused hx ν r hca hd)
  rw [h.attrs_of_mem hx hd, outputAt, outputAt, io_fused, io_of_mem hx]
  have hp := fitOutputs_of_mem hde (sem.body lib.length ((fusedIo (members lib g group)).fitInputs
    ((fuseGroup (lib, g) group).2.portAt sem ν g.nodes.length
      (descriptor (members lib g group)) r carry')))
  change (g.attrs _).fit ((fusedIo _).fitOutputs _ (widen (d, x.2.output d.port)).port) = _
  rw [hp, fit_widen]
  change (g.attrs _).fit (d.fit (sem.body lib.length _ (x.2.output d.port))) = _
  rw [h.body_fused hbody _ hx hd, fitInputs_fused hx, hins,
    fitOutputs_of_mem hd, PinAttr.fit_port_fit]

omit ν in
/-- Carries start at declared outputs. -/
lemma exists_of_mem_carriesInto {p q : ℕ} (hq : q ∈ g.carriesInto x.1.id p) :
    ∃ d ∈ x.1.io.outputs, d.port = q := by
  obtain ⟨e, he, hca⟩ := mem_filterMap.1 hq
  split at hca
  next =>
    rcases h.pin_cases (h.wf.driver _ he) with ⟨y, hy, d, hd, hep, -⟩ | ⟨hnot, -, -⟩
    · rw [hep, outPort?] at hca
      split at hca
      next hid =>
        rw [inj_on_of_nodup_map h.nodup_ids hy hx hid] at hd
        exact ⟨d, hd, Option.some.inj hca⟩
      next => exact absurd hca (by simp)
    · rw [outPort?_eq_none (hnot _ (mem_group hx))] at hca
      exact absurd hca (by simp)
  next => exact absurd hca (by simp)

section

variable (hbody : (fusedBody g (members lib g group)).Realizes
  (fuseGroup (lib, g) group).1 sem lib.length)
include hbody

lemma running_fused
    (r : ℕ) : ∀ d ∈ x.1.ownInputs,
    (fuseGroup (lib, g) group).2.running (fuseGroup (lib, g) group).1 sem ν g.nodes.length
        lib.length (descriptor (members lib g group)) r (x.2.input d.port) =
      g.running lib sem (ν ∘ pinTo lib g group) x.1.id x.1.callee x.1.loop r d.port := by
  induction r with
  | zero =>
    intro d hd
    rw [running, running, h.external_fused hx hd]
  | succ r ih =>
    intro d hd
    rw [running, running]
    refine congrArg sem.resolve (Multiset.coe_eq_coe.2
      (((h.carriesInto_fused hx hd).map _).trans (.of_eq ?_)))
    rw [List.map_map]
    refine map_congr_left fun q hq => ?_
    obtain ⟨d', hd', rfl⟩ := h.exists_of_mem_carriesInto hx hq
    exact h.outputAt_fused hx ν hbody r ih hd'

/-- Each instance of the fused body has, at each ordinal, the inputs its member had. -/
lemma inputsAt_fused
    (r : ℕ) : (x.1.io.fitInputs fun p =>
      (fuseGroup (lib, g) group).2.inputsAt (fuseGroup (lib, g) group).1 sem ν g.nodes.length
        lib.length (descriptor (members lib g group)) r (x.2.input p)) =
      g.inputsAt lib sem (ν ∘ pinTo lib g group) x.1.id x.1.callee x.1.loop r := by
  have hio : g.inputsAt lib sem (ν ∘ pinTo lib g group) x.1.id x.1.callee x.1.loop r =
      x.1.io.fitInputs
      (g.portAt sem (ν ∘ pinTo lib g group) x.1.id x.1.loop r
        (g.running lib sem (ν ∘ pinTo lib g group) x.1.id x.1.callee x.1.loop r)) := by
    rw [inputsAt, io_of_mem hx]
  rw [hio]
  refine fitInputs_congr fun d hd => ?_
  obtain ⟨D, hD, hp, hw, -⟩ := exists_fusedInput hx hd
  rw [inputsAt, io_fused, ← hp, fitInputs_of_mem hD, PortDecl.fit_of_width_le hw, hp]
  exact congrArg d.fit (h.portAt_fused hx ν r (h.running_fused hx ν hbody r) hd)

lemma finalAt_fused (hd : d ∈ x.1.io.outputs) :
    ((fuseGroup (lib, g) group).2.attrs (.out g.nodes.length (x.2.output d.port))).fit
        ((fuseGroup (lib, g) group).2.finalAt (fuseGroup (lib, g) group).1 sem ν
          g.nodes.length lib.length
          (descriptor (members lib g group)) (x.2.output d.port)) =
      (g.attrs (.out x.1.id d.port)).fit
        (g.finalAt lib sem (ν ∘ pinTo lib g group) x.1.id x.1.callee x.1.loop d.port) := by
  obtain ⟨hdo, -, -⟩ := h.descriptor_domain (mem_of_mem_partsOf hx)
  rw [finalAt, finalAt, (sameDomain_iff.1 hdo).2.2]
  exact h.outputAt_fused hx ν hbody _ (h.running_fused hx ν hbody _) hd

end

end

/-! ## The other nodes -/

section

variable {n : ℕ} (hn : n ∉ group) (hlt : n < g.nodes.length) (ν : Pin → ℤ)

include hn hlt

lemma portAt_of_not (L : SubnodeLoop) (r : ℕ) (carry : ℕ → ℤ) :
    (fuseGroup (lib, g) group).2.portAt sem ν n L r carry =
    g.portAt sem (ν ∘ pinTo lib g group) n L r carry := by
  funext p
  rw [portAt, portAt, h.external hn hlt.ne, (h.carriesInto hn hlt.ne p).isEmpty_eq]

omit hn in
lemma attrs_out (p : ℕ) : (fuseGroup (lib, g) group).2.attrs (.out n p) = g.attrs (.out n p) :=
  h.attrs_of_not _ (beq_eq_false_iff_ne.2 hlt.ne)

section

variable {c : ℕ} (hc : c < lib.length) (L : SubnodeLoop) (r : ℕ)
include hc

lemma outputAt_of_not (carry : ℕ → ℤ) :
    (fuseGroup (lib, g) group).2.outputAt (fuseGroup (lib, g) group).1 sem ν n c L r carry =
      g.outputAt lib sem (ν ∘ pinTo lib g group) n c L r carry := by
  rw [outputAt, outputAt, h.portAt_of_not hn hlt, io_of_lt hc]

lemma running_of_not : (fuseGroup (lib, g) group).2.running
    (fuseGroup (lib, g) group).1 sem ν n c L r =
      g.running lib sem (ν ∘ pinTo lib g group) n c L r := by
  induction r with
  | zero =>
    funext p
    rw [running, running, h.external hn hlt.ne]
  | succ r ih =>
    funext p
    rw [running, running, ih, h.outputAt_of_not hn hlt ν hc]
    refine congrArg sem.resolve (Multiset.coe_eq_coe.2
      (((h.carriesInto hn hlt.ne p).map _).trans (.of_eq ?_)))
    refine map_congr_left fun q _ => ?_
    rw [h.attrs_out hlt]

lemma inputsAt_of_not : (fuseGroup (lib, g) group).2.inputsAt
    (fuseGroup (lib, g) group).1 sem ν n c L r =
      g.inputsAt lib sem (ν ∘ pinTo lib g group) n c L r := by
  rw [inputsAt, inputsAt, h.portAt_of_not hn hlt, h.running_of_not hn hlt ν hc, io_of_lt hc]

end

omit h in
lemma survives_node (p : ℕ) : Survives g group (.node n p) := by
  intro m hm
  obtain rfl := beq_iff_eq.1 hm
  exact ⟨hn, hlt.ne⟩

lemma result_of_not (op : ℕ → (ℕ → Multiset ℤ) → ℕ → ℤ) {N : Node} (hN : g.node n = some N) :
    (fuseGroup (lib, g) group).2.result (fuseGroup (lib, g) group).1 sem ν op n N =
      g.result lib sem (ν ∘ pinTo lib g group) op n N := by
  have hva : (fun p => (fuseGroup (lib, g) group).2.values ν (.node n p)) =
      fun p => g.values (ν ∘ pinTo lib g group) (.node n p) := funext fun p =>
      h.values (survives_node hn hlt p) ν
  cases N with
  | cell => exact congrArg (op n) hva
  | sub c =>
    have hc := h.wf.callee n c (by rw [callee?, hN])
    rw [result, result, io_of_lt hc]
    refine congrArg _
      (congrArg _ (congrArg _ (funext fun p => congrArg sem.resolve (congrFun hva p))))
  | loop c L =>
    have hc := h.wf.callee n c (by rw [callee?, hN])
    rw [result, result, finalAt, finalAt, h.running_of_not hn hlt ν hc,
      h.outputAt_of_not hn hlt ν hc]
    have hext : (fuseGroup (lib, g) group).2.external ν n = g.external (ν ∘ pinTo lib g group) n :=
      funext fun p => h.external hn hlt.ne p ν
    rw [hext]

end

/-! ## The graph -/

omit h in
variable (lib g) in
lemma pinTo_of_not {pin : Pin} (hpin : ∀ n ∈ group, pin.isOut n = false) :
    pinTo lib g group pin = pin :=
  renamePin_of_not fun _ hx => hpin _ (mem_group hx)

lemma pinTo_of_mem {x : Member × Ports} (hx : x ∈ partsOf lib g group) (q : ℕ) :
    pinTo lib g group (.out x.1.id q) = .out g.nodes.length (x.2.output q) :=
  renamePin_of_mem h.nodup_ids hx q

/-- A loop is fused and a member is a plain loop: neither is left to `op`. -/
lemma result_fused (hbody : (fusedBody g (members lib g group)).Realizes
    (fuseGroup (lib, g) group).1 sem lib.length)
    {x : Member × Ports} (hx : x ∈ partsOf lib g group) (ν : Pin → ℤ)
    (op : ℕ → (ℕ → Multiset ℤ) → ℕ → ℤ)
    (hd : d ∈ x.1.io.outputs) :
    ((fuseGroup (lib, g) group).2.attrs (.out g.nodes.length (x.2.output d.port))).fit
        ((fuseGroup (lib, g) group).2.result (fuseGroup (lib, g) group).1 sem ν op g.nodes.length
          (.loop lib.length (descriptor (members lib g group))) (x.2.output d.port)) =
      (g.attrs (.out x.1.id d.port)).fit
        (g.result lib sem (ν ∘ pinTo lib g group) op x.1.id
          (.loop x.1.callee x.1.loop) d.port) := by
  obtain ⟨-, hp, -⟩ := h.descriptor_domain (mem_of_mem_partsOf hx)
  rw [result, result, if_pos hp, if_pos (h.plain (mem_of_mem_partsOf hx)).1]
  exact h.finalAt_fused hx ν hbody hd

lemma hasOutput_of_lt {n : ℕ} {N : Node} (hN : g.node n = some N) (p : ℕ) :
    hasOutput (fuseGroup (lib, g) group).1 p N ↔ hasOutput lib p N := by
  cases N with
  | cell => exact .rfl
  | sub c =>
    rw [hasOutput, hasOutput, io_of_lt (h.wf.callee n c (by rw [callee?, hN]))]
  | loop c L =>
    rw [hasOutput, hasOutput, io_of_lt (h.wf.callee n c (by rw [callee?, hN]))]

section

variable (hbody : (fusedBody g (members lib g group)).Realizes
  (fuseGroup (lib, g) group).1 sem lib.length)
include hbody

/-- The valuations of the fused graph are those of the graph before, read through the renaming. -/
lemma solves_iff (ν : Pin → ℤ) (op : ℕ → (ℕ → Multiset ℤ) → ℕ → ℤ) (ins : ℕ → ℤ) :
    (fuseGroup (lib, g) group).2.Solves (fuseGroup (lib, g) group).1 sem ν op ins ↔
      g.Solves lib sem (ν ∘ pinTo lib g group) op ins := by
  constructor
  · intro hν
    refine ⟨fun i => ?_, hν.const, fun n N hN p hp => ?_⟩
    · have := hν.input i
      rw [h.attrs_of_not (.input i) rfl] at this
      exact this
    · by_cases hn : n ∈ group
      · obtain ⟨x, hx, rfl⟩ := h.exists_part hn
        cases (hN.symm.trans (node_of_part hx))
        rw [hasOutput, io_of_mem hx] at hp
        obtain ⟨d, hd⟩ := Option.isSome_iff_exists.1 hp
        obtain ⟨hmem, rfl⟩ := output?_eq_some_iff.1 hd
        have hpo : hasOutput (fuseGroup (lib, g) group).1 (x.2.output d.port)
            (.loop lib.length (descriptor (members lib g group))) := by
          rw [hasOutput, io_fused]
          have hde : widen (d, x.2.output d.port) ∈ (fusedIo (members lib g group)).outputs :=
            widen_mem_outputDecls hx hmem
          exact isSome_output? hde
        rw [← h.result_fused hbody hx ν op hmem, ← hν.out _ _ h.node_fused _ hpo]
        exact congrArg ν (h.pinTo_of_mem hx d.port)
      · have hlt := lt_of_node hN
        have hpin : pinTo lib g group (.out n p) = .out n p := by
          refine pinTo_of_not lib g fun m hm => beq_eq_false_iff_ne.2 ?_
          rintro rfl
          exact hn hm
        rw [← h.result_of_not hn hlt ν op hN, ← h.attrs_out hlt, ← hν.out n N
          (by rw [h.node_of_lt hlt hn, hN]) p
          ((h.hasOutput_of_lt hN p).2 hp)]
        exact congrArg ν hpin
  · intro hν
    refine ⟨fun i => ?_, hν.const, fun n N hN p hp => ?_⟩
    · rw [h.attrs_of_not (.input i) rfl]
      exact hν.input i
    · rw [h.node] at hN
      split at hN
      next => exact absurd hN (by simp)
      next hn =>
        split at hN
        next heq =>
          cases hN
          rw [hasOutput, io_fused] at hp
          obtain ⟨D, hD⟩ := Option.isSome_iff_exists.1 hp
          obtain ⟨hmem, rfl⟩ := output?_eq_some_iff.1 hD
          obtain ⟨x, hx, d, hd, rfl⟩ := exists_of_mem_outputDecls hmem
          have hpo : hasOutput lib d.port (.loop x.1.callee x.1.loop) := by
            rw [hasOutput, io_of_mem hx]
            exact isSome_output? hd
          rw [heq, widen_port, h.result_fused hbody hx ν op hd, ← hν.out _ _
            (node_of_part hx) _ hpo]
          exact congrArg ν (h.pinTo_of_mem hx d.port).symm
        next hne =>
          have hlt := lt_of_node hN
          have hpin : pinTo lib g group (.out n p) = .out n p := by
            refine pinTo_of_not lib g fun m hm => beq_eq_false_iff_ne.2 ?_
            rintro rfl
            exact hn hm
          rw [h.result_of_not hn hlt ν op hN,
            h.attrs_out hlt, ← hν.out n N hN p ((h.hasOutput_of_lt hN p).1 hp)]
          exact congrArg ν hpin.symm

/-- Every valuation of the graph before is one of the fused graph. -/
lemma exists_solves {ν₀ : Pin → ℤ} {op : ℕ → (ℕ → Multiset ℤ) → ℕ → ℤ} {ins : ℕ → ℤ}
    (hν : g.Solves lib sem ν₀ op ins) :
    ∃ ν, (fuseGroup (lib, g) group).2.Solves (fuseGroup (lib, g) group).1 sem ν op ins ∧
      ∀ pin, g.Drives lib pin → ν (pinTo lib g group pin) = ν₀ pin := by
  classical
  let ν (pin : Pin) : ℤ := pin.casesOn (fun i => ν₀ (.input i)) (fun v => ν₀ (.const v)) fun n q =>
      if hq : n = g.nodes.length ∧ ∃ x ∈ partsOf lib g group, ∃ d ∈ x.1.io.outputs,
          x.2.output d.port = q then
        ν₀ (.out hq.2.choose.1.id hq.2.choose_spec.2.choose.port)
      else ν₀ (.out n q)
  have hag : ∀ pin, g.Drives lib pin → ν (pinTo lib g group pin) = ν₀ pin := by
    intro pin hpin
    cases pin with
    | input i => rfl
    | const v => rfl
    | out n q =>
      obtain ⟨N, hN, hp⟩ := hpin n q rfl
      by_cases hn : n ∈ group
      · obtain ⟨x, hx, rfl⟩ := h.exists_part hn
        cases (hN.symm.trans (node_of_part hx))
        rw [hasOutput, io_of_mem hx] at hp
        obtain ⟨d, hd⟩ := Option.isSome_iff_exists.1 hp
        obtain ⟨hmem, rfl⟩ := output?_eq_some_iff.1 hd
        have hq : g.nodes.length = g.nodes.length ∧
            ∃ y ∈ partsOf lib g group, ∃ e ∈ y.1.io.outputs, y.2.output e.port =
            x.2.output d.port := ⟨rfl, x, hx, d, hmem, rfl⟩
        have hsp := hq.2.choose_spec
        have hsp' := hsp.2.choose_spec
        obtain ⟨hy, he⟩ := output_inj hsp.1 hx hsp'.1 hmem hsp'.2
        rw [h.pinTo_of_mem hx]
        refine (dif_pos hq).trans ?_
        exact congrArg₂ (fun (y : Member × Ports) (e : PortDecl) => ν₀ (.out y.1.id e.port)) hy he
      · have hne := (lt_of_node hN).ne
        rw [pinTo_of_not lib g fun m hm => beq_eq_false_iff_ne.2 fun heq => hn
          (by rw [heq]; exact hm)]
        exact dif_neg fun hq => hne hq.1
  exact ⟨ν, (h.solves_iff hbody ν op ins).2 (hν.congr h.wf fun pin hpin => (hag pin hpin).symm),
    hag⟩

end

end Setting

end LiveHD.Sim.Fuse
