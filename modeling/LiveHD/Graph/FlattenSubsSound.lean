import LiveHD.Graph.FlattenSubs

/-!
# What inlining keeps

The cells of the flattened design keep their readers and drivers when no output of the instance
comes straight back to one of its inputs; such an edge would leave a sink with a driver that is
gone.
-/

namespace LiveHD.FlattenSubs

open Function List Bool Option FlattenSubs Netlist

/-! ## Definitions and their copies -/

/-- A well-formed definition: edges join nodes, the node of the outputs drives nothing, and a sink
has one driver. -/
structure Def.Legal (g : Def) : Prop where
  sink : ∀ e ∈ g.edges, (g.kind e.2.node).isSome
  driver : ∀ e ∈ g.edges, ∀ n port, e.1 = .out n port → (g.kind n).isSome ∧ n ≠ g.out
  single : ∀ x d d', (d, x) ∈ g.edges → (d', x) ∈ g.edges → d = d'
  out : g.kind g.out = some .other
  declared : ∀ port, (g.outDriver port).isSome → port ∈ g.outputs
  state : ∀ n ∈ g.state, n < g.nodes.length

variable {h : Netlist} {neo : ℕ}

namespace Def

variable {g cg : Def} {n : ℕ} {d : Pin} {x : Sink}

lemma kind_lt (hk : (h.kind n).isSome) : n < h.nodes.length := by
  by_contra hn
  rw [kind, getElem?_eq_none (not_lt.1 hn)] at hk
  cases hk

lemma mem_ids : n ∈ g.ids ↔ (g.kind n).isSome := by
  refine ⟨fun h => (mem_filter.1 h).2, fun h => mem_filter.2 ⟨mem_range.2 (kind_lt h), h⟩⟩

lemma mem_inner : n ∈ g.inner ↔ (g.kind n).isSome ∧ n ≠ g.out := by simp [inner, mem_ids]

lemma mem_into {port : ℕ} : (port, d) ∈ h.into n ↔ (d, ⟨n, port⟩) ∈ h.edges := by
  constructor
  · intro hmem
    obtain ⟨⟨d', ⟨m, p⟩⟩, he, heq⟩ := mem_map.1 hmem
    cases heq
    obtain ⟨hed, hm⟩ := mem_filter.1 he
    obtain rfl : m = n := beq_iff_eq.1 hm
    exact hed
  · exact fun hmem => mem_map.2 ⟨_, mem_filter.2 ⟨hmem, beq_self_eq_true n⟩, rfl⟩

lemma mem_sinkDrivers {port : ℕ} : (port, d) ∈ h.sinkDrivers n ↔ (d, ⟨n, port⟩) ∈ h.edges :=
  (sinkDrivers_perm n).mem_iff.trans mem_into

/-- With one driver a sink, the driver is the edge. -/
lemma driver_eq_some (hsi : ∀ x d d', (d, x) ∈ h.edges → (d', x) ∈ h.edges → d = d') :
    h.driver x = some d ↔ (d, x) ∈ h.edges := by
  constructor
  · intro hd
    obtain ⟨⟨port, d'⟩, he, rfl⟩ := map_eq_some_iff.1 hd
    obtain rfl : port = x.port := beq_iff_eq.1
      (find?_some (p := fun e : ℕ × Pin => e.1 == x.port) he)
    exact mem_into.1 (mem_of_find?_eq_some he)
  · intro hmem
    have hin := mem_into.2 hmem
    have hsm : ((h.into x.node).find? (·.1 == x.port)).isSome :=
      find?_isSome.2 ⟨_, hin, beq_self_eq_true x.port⟩
    obtain ⟨⟨port, d'⟩, he⟩ := isSome_iff_exists.1 hsm
    obtain rfl : port = x.port := beq_iff_eq.1
      (find?_some (p := fun e : ℕ × Pin => e.1 == x.port) he)
    have hd' := mem_into.1 (mem_of_find?_eq_some he)
    rw [driver, he, hsi x d d' hmem hd']
    rfl

/-! ## The copies -/

/-- The copies of the nodes `ns`, in a netlist that was `g`. -/
structure Copied (g : Netlist) (cg : Def) (ns : List ℕ) (net : Netlist)
    (nmap : List (ℕ × ℕ)) : Prop where
  edges : net.edges = g.edges
  length_le : g.nodes.length ≤ net.nodes.length
  old : ∀ id < g.nodes.length, net.kind id = g.kind id
  dom : ∀ n, (∃ id, (n, id) ∈ nmap) ↔ n ∈ ns
  copy : ∀ n id, (n, id) ∈ nmap → g.nodes.length ≤ id ∧
    id < net.nodes.length ∧ net.kind id = cg.kind n
  unique : ∀ n id id', (n, id) ∈ nmap → (n, id') ∈ nmap → id = id'
  inj : ∀ n n' id, (n, id) ∈ nmap → (n', id) ∈ nmap → n = n'
  onto : ∀ id, g.nodes.length ≤ id → id < net.nodes.length → ∃ n, (n, id) ∈ nmap

lemma Copied.create {g net : Netlist} {ns : List ℕ} {nmap : List (ℕ × ℕ)} {k : Kind}
    (h : Copied g cg ns net nmap) (hk : cg.kind n = some k)
    (hn : n ∉ ns) : Copied g cg (ns ++ [n]) (net.create k).1 ((n, (net.create k).2) :: nmap) := by
  have hlt : ∀ m id, (m, id) ∈ nmap →
    id ≠ net.nodes.length := fun m id hm => (h.copy m id hm).2.1.ne
  have hnew : ∀ id, (n, id) ∉ nmap := fun id hm => hn ((h.dom n).1 ⟨id, hm⟩)
  refine ⟨h.edges, ?_, fun id hid => ?_, fun m => ?_, fun m id hm => ?_, fun m id id' hm hm' => ?_,
    fun m m' id hm hm' => ?_, fun id hle hid => ?_⟩
  · rw [create_length]
    exact h.length_le.trans (Nat.le_succ _)
  · rw [kind_create_of_lt k (hid.trans_le h.length_le), h.old id hid]
  · rw [mem_append, mem_singleton, ← h.dom m]
    constructor
    · rintro ⟨id, hm⟩
      rcases mem_cons.1 hm with heq | hm
      · exact .inr (Prod.mk.inj heq).1
      · exact .inl ⟨id, hm⟩
    · rintro (⟨id, hm⟩ | rfl)
      · exact ⟨id, .tail _ hm⟩
      · exact ⟨_, .head _⟩
  · rcases mem_cons.1 hm with heq | hm
    · cases heq
      refine ⟨h.length_le, ?_, ?_⟩
      · rw [create_length]
        exact Nat.lt_succ_self _
      · rw [hk]
        exact kind_create_self k
    · obtain ⟨hle, hid, hki⟩ := h.copy m id hm
      refine ⟨hle, ?_, ?_⟩
      · rw [create_length]
        exact hid.trans (Nat.lt_succ_self _)
      · rw [kind_create_of_lt k hid, hki]
  · rcases mem_cons.1 hm with heq | hm <;> rcases mem_cons.1 hm' with heq' | hm'
    · rw [(Prod.mk.inj heq).2, (Prod.mk.inj heq').2]
    · exact absurd ((Prod.mk.inj heq).1 ▸ hm') (hnew id')
    · exact absurd ((Prod.mk.inj heq').1 ▸ hm) (hnew id)
    · exact h.unique m id id' hm hm'
  · rcases mem_cons.1 hm with heq | hm <;> rcases mem_cons.1 hm' with heq' | hm'
    · rw [(Prod.mk.inj heq).1, (Prod.mk.inj heq').1]
    · exact absurd (Prod.mk.inj heq).2 (hlt m' id hm')
    · exact absurd (Prod.mk.inj heq').2 (hlt m id hm)
    · exact h.inj m m' id hm hm'
  · rw [create_length] at hid
    rcases Nat.lt_succ_iff_lt_or_eq.1 hid with hid | rfl
    · obtain ⟨m, hm⟩ := h.onto id hle hid
      exact ⟨m, .tail _ hm⟩
    · exact ⟨n, .head _⟩

lemma Copied.run {g net : Netlist} {ms ns : List ℕ} {nmap : List (ℕ × ℕ)}
    (h : Copied g cg ms net nmap) (hlv : ∀ n ∈ ns, (cg.kind n).isSome)
    (hnd : (ms ++ ns).Nodup) : Copied g cg (ms ++ ns) (createCopies cg ns net nmap).1
    (createCopies cg ns net nmap).2 := by
  induction ns generalizing ms net nmap with
  | nil => rwa [append_nil]
  | cons n ns ih =>
    obtain ⟨k, hk⟩ := isSome_iff_exists.1 (hlv n (.head _))
    rw [append_cons] at hnd ⊢
    have hn : n ∉ ms := fun hm => by
      have hmem := (nodup_append.1 (nodup_append.1 hnd).1).2.2 n hm n (.head _)
      exact hmem rfl
    unfold createCopies
    rw [hk]
    exact ih (h.create hk hn) (fun m hm => hlv m (.tail _ hm)) hnd

lemma copied (g : Netlist) (cg : Def) :
    Copied g cg cg.inner (createCopies cg cg.inner g []).1 (createCopies cg cg.inner g []).2 := by
  have hst : Copied g cg [] g [] := by
    refine ⟨rfl, le_rfl, fun _ _ => rfl, fun n => ?_, fun _ _ h => absurd h not_mem_nil,
      fun _ _ _ h => absurd h not_mem_nil,
      fun _ _ _ h => absurd h not_mem_nil, fun id hle hid => absurd hid (not_lt.2 hle)⟩
    exact ⟨fun ⟨_, h⟩ => absurd h not_mem_nil, fun h => absurd h not_mem_nil⟩
  exact hst.run (fun n hn => (mem_inner.1 hn).1) ((nodup_range.filter _).filter _)

lemma lookup_eq_some {nmap : List (ℕ × ℕ)}
    (hun : ∀ n id id', (n, id) ∈ nmap → (n, id') ∈ nmap → id = id') {id : ℕ} :
    nmap.lookup n = some id ↔ (n, id) ∈ nmap := by
  have hmem : ∀ {id}, nmap.lookup n = some id → (n, id) ∈ nmap := by
    intro id h
    obtain ⟨l₁, l₂, rfl, -⟩ := lookup_eq_some_iff.1 h
    exact mem_append_right _ (.head _)
  refine ⟨hmem, fun h => ?_⟩
  obtain ⟨id', h'⟩ := isSome_iff_exists.1 (lookup_isSome_iff.2 ⟨_, h, beq_self_eq_true n⟩)
  rw [h', hun n id' id (hmem h') h]

/-! ## The edges afterwards -/

section

variable (g cg : Def) (s : ℕ)

def nmap : List (ℕ × ℕ) := (createCopies cg cg.inner g.toNetlist []).2

/-- The driver in `g` that a driver of the definition becomes. -/
def through : Pin → Option Pin := mapDriver (fun port => g.driver ⟨s, port⟩) (g.nmap cg)

/-- The driver in `g` that an output of the instance becomes. -/
def leads (port : ℕ) : Option Pin := (cg.outDriver port).bind (g.through cg s)

/-- The edges before the instance is deleted. -/
def Wired (d : Pin) (x : Sink) : Prop :=
  (d, x) ∈ g.edges ∨ ∃ n d₀, (d₀, ⟨n, x.port⟩) ∈ cg.edges ∧
    g.through cg s d₀ = some d ∧ (n, x.node) ∈ g.nmap cg

end

variable {s : ℕ}

lemma connectAll_nodes (net : Netlist) (es : List (Pin × Sink)) :
    (connectAll net es).nodes = net.nodes := by
  induction es generalizing net with
  | nil => rfl
  | cons e es ih => exact ih _

lemma connectAll_edges (net : Netlist) (es : List (Pin × Sink)) :
    (connectAll net es).edges = net.edges ++ es := by
  induction es generalizing net with
  | nil => exact (append_nil _).symm
  | cons e es ih =>
    refine (ih _).trans ?_
    rw [connect_edges, append_assoc]
    rfl

lemma mem_innerEdges : (d, x) ∈ innerEdges cg (fun port => g.driver ⟨s, port⟩) (g.nmap cg) ↔
    ∃ n d₀, (d₀, ⟨n, x.port⟩) ∈ cg.edges ∧ g.through cg s d₀ = some d ∧
    (n, x.node) ∈ g.nmap cg := by
  have hco := copied g.toNetlist cg
  have hlk : ∀ n id, (g.nmap cg).lookup n = some id ↔ (n, id) ∈ g.nmap cg := fun n id =>
    lookup_eq_some hco.unique
  rw [innerEdges, mem_flatMap]
  constructor
  · rintro ⟨n, -, hmem⟩
    obtain ⟨⟨port, d₀⟩, he, heq⟩ := mem_filterMap.1 hmem
    split at heq
    next gdrv neo hdrv hneo =>
      cases (some.inj heq)
      exact ⟨n, d₀, mem_sinkDrivers.1 he, hdrv, (hlk n neo).1 hneo⟩
    · cases heq
  · rintro ⟨n, d₀, he, hdrv, hn⟩
    refine ⟨n, (hco.dom n).1 ⟨_, hn⟩, mem_filterMap.2 ⟨(x.port, d₀), mem_sinkDrivers.2 he, ?_⟩⟩
    have hdrv : mapDriver (fun port => g.driver ⟨s, port⟩) (g.nmap cg) d₀ = some d := hdrv
    rw [hdrv, (hlk n x.node).2 hn]

lemma mem_edges_inlineSub : (d, x) ∈ (g.inlineSub cg s).edges ↔
    (g.Wired cg s d x ∧ d.isOut s = false ∧ x.node ≠ s) ∨
      ∃ port ∈ cg.outputs, g.leads cg s port = some d ∧ g.Wired cg s (.out s port) x := by
  have hwi : ∀ d x, (d, x) ∈ (connectAll (createCopies cg cg.inner g.toNetlist []).1
      (innerEdges cg (fun port => g.driver ⟨s, port⟩) (g.nmap cg))).edges ↔ g.Wired cg s d x := by
    intro d x
    rw [connectAll_edges, mem_append, (copied g.toNetlist cg).edges, mem_innerEdges]
    rfl
  change (d, x) ∈ (connectAll (.delNode _ s) _).edges ↔ _
  rw [connectAll_edges, mem_append, delNode, mem_filter, and_eq_true, not_eq_true', bne_iff_ne]
  refine or_congr (and_congr_left fun _ => hwi d x) ?_
  rw [mem_flatMap]
  constructor
  · rintro ⟨⟨gdrv, sinks⟩, hr, hmem⟩
    obtain ⟨port, hp, heq⟩ := mem_filterMap.1 hr
    obtain ⟨gdrv', hle, heq⟩ := map_eq_some_iff.1 heq
    cases heq
    obtain ⟨x', hx', heq⟩ := mem_map.1 hmem
    cases heq
    obtain ⟨⟨d', x''⟩, he, rfl⟩ := mem_map.1 hx'
    obtain ⟨he, hd'⟩ := mem_filter.1 he
    obtain rfl : d' = .out s port := beq_iff_eq.1 hd'
    exact ⟨port, hp, hle, (hwi _ _).1 he⟩
  · rintro ⟨port, hp, hle, he⟩
    refine ⟨(d, outSinks _ s port), mem_filterMap.2 ⟨port, hp, map_eq_some_iff.2 ⟨d, hle, rfl⟩⟩, ?_⟩
    exact mem_map.2 ⟨x, mem_map.2 ⟨(.out s port, x),
      mem_filter.2 ⟨(hwi _ _).2 he, beq_self_eq_true _⟩, rfl⟩, rfl⟩

lemma kind_inlineSub (id : ℕ) : (g.inlineSub cg s).kind id = if id = s then none
    else (createCopies cg cg.inner g.toNetlist []).1.kind id := by
  change (connectAll (.delNode _ s) _).kind id = _
  rw [kind, connectAll_nodes]
  change (delNode _ s).kind id = _
  split
  next heq =>
    subst heq
    rw [kind, delNode, getElem?_set]
    split
    · split <;> rfl
    next hne => exact absurd rfl hne
  next hne =>
    rw [kind_delNode_of_ne (Ne.symm hne), kind, connectAll_nodes]
    rfl

/-! ## Instances that do not feed themselves -/

/-- An output that drives an input of the instance itself leads nowhere, and no output that is read
leads back to the instance. -/
structure Clean (g cg : Def) (s : ℕ) : Prop where
  self : ∀ port p, (.out s port, ⟨s, p⟩) ∈ g.edges → g.leads cg s port = none
  aside : ∀ port x, (.out s port, x) ∈ g.edges → ∀ port', g.leads cg s port ≠ some (.out s port')

/-- The driver of a sink once the instance is gone. -/
def redirect (g cg : Def) (s : ℕ) : Pin → Option Pin
  | .out n port => if n = s then g.leads cg s port else some (.out n port)
  | d => some d

lemma redirect_of_isOut (h : d.isOut s = false) : g.redirect cg s d = some d := by
  cases d with
  | out n port => exact if_neg (beq_eq_false_iff_ne.1 h)
  | input p => rfl
  | const v => rfl

lemma redirect_out (port : ℕ) : g.redirect cg s (.out s port) = g.leads cg s port := if_pos rfl

lemma eq_out_of_isOut (h : d.isOut s = true) : ∃ port, d = .out s port := by
  cases d with
  | out n port => exact ⟨port, by rw [beq_iff_eq.1 h]⟩
  | input p => cases h
  | const v => cases h

/-- What a driver of the definition becomes. -/
lemma through_eq_some {d₀ : Pin} (h : g.through cg s d₀ = some d) :
    (∃ p, d₀ = .input p ∧ g.driver ⟨s, p⟩ = some d) ∨ (∃ v, d₀ = .const v ∧ d = .const v) ∨
      ∃ n neo port, d₀ = .out n port ∧ d = .out neo port ∧ (n, neo) ∈ g.nmap cg := by
  cases d₀ with
  | input p => exact .inl ⟨p, rfl, h⟩
  | const v => exact .inr (.inl ⟨v, rfl, (some.inj h).symm⟩)
  | out n port =>
    obtain ⟨neo, hneo, rfl⟩ := map_eq_some_iff.1 h
    exact .inr (.inr ⟨n, neo, port, rfl, rfl,
      (lookup_eq_some (copied g.toNetlist cg).unique).1 hneo⟩)

lemma ne_of_mem_nmap {n : ℕ} (h : (n, neo) ∈ g.nmap cg) {m : ℕ}
    (hm : (g.kind m).isSome) : m ≠ neo := by
  rintro rfl
  exact absurd (kind_lt hm) (not_lt.2 ((copied g.toNetlist cg).copy n m h).1)

/-- Before the instance is deleted a sink has one driver. -/
lemma wired_unique (hg : g.Legal) (hcg : cg.Legal) {d d' : Pin} (h : g.Wired cg s d x)
    (h' : g.Wired cg s d' x) : d = d' := by
  rcases h with he | ⟨n, d₀, he, hd, hn⟩ <;> rcases h' with he' | ⟨n', d₀', he', hd', hn'⟩
  · exact hg.single x d d' he he'
  · exact absurd rfl (ne_of_mem_nmap hn' (hg.sink _ he))
  · exact absurd rfl (ne_of_mem_nmap hn (hg.sink _ he'))
  · obtain rfl := (copied g.toNetlist cg).inj n n' x.node hn hn'
    obtain rfl := hcg.single _ d₀ d₀' he he'
    exact some.inj (hd.symm.trans hd')

lemma mem_edges_iff (hcg : cg.Legal) : (d, x) ∈ (g.inlineSub cg s).edges ↔
    ∃ d₀, g.Wired cg s d₀ x ∧ g.redirect cg s d₀ = some d ∧ (d₀.isOut s = false → x.node ≠ s) := by
  rw [mem_edges_inlineSub]
  constructor
  · rintro (⟨hw, hd, hx⟩ | ⟨port, -, hle, hw⟩)
    · exact ⟨d, hw, redirect_of_isOut hd, fun _ => hx⟩
    · refine ⟨_, hw, (redirect_out port).trans hle, fun h => ?_⟩
      rw [Pin.isOut, beq_self_eq_true] at h
      cases h
  · rintro ⟨d₀, hw, hr, hx⟩
    cases hd : d₀.isOut s with
    | false =>
      cases ((redirect_of_isOut hd).symm.trans hr)
      exact .inl ⟨hw, hd, hx hd⟩
    | true =>
      obtain ⟨port, rfl⟩ := eq_out_of_isOut hd
      rw [redirect_out] at hr
      refine .inr ⟨port, hcg.declared port ?_, hr, hw⟩
      obtain ⟨d₁, hd₁, -⟩ := bind_eq_some_iff.1 hr
      rw [hd₁]
      rfl

lemma single_inlineSub (hg : g.Legal) (hcg : cg.Legal) (x : Sink) (d d' : Pin)
    (h : (d, x) ∈ (g.inlineSub cg s).edges) (h' : (d', x) ∈ (g.inlineSub cg s).edges) : d = d' := by
  obtain ⟨d₀, hw, hr, -⟩ := (mem_edges_iff hcg).1 h
  obtain ⟨d₀', hw', hr', -⟩ := (mem_edges_iff hcg).1 h'
  obtain rfl := wired_unique hg hcg hw hw'
  exact some.inj (hr.symm.trans hr')

/-- An edge from the instance that stays leads aside. -/
lemma Clean.wired (hg : g.Legal) (hs : (g.kind s).isSome) (hc : g.Clean cg s) {port : ℕ}
    (hw : g.Wired cg s (.out s port) x) (hle : g.leads cg s port = some d) :
    d.isOut s = false ∧ x.node ≠ s := by
  rcases hw with he | ⟨n, d₀, he, hd, hn⟩
  · constructor
    · cases hd : d.isOut s with
      | false => rfl
      | true =>
        obtain ⟨port', rfl⟩ := eq_out_of_isOut hd
        exact absurd hle (hc.aside port x he port')
    · rintro hx
      obtain ⟨m, p⟩ := x
      obtain rfl : m = s := hx
      rw [hc.self port p he] at hle
      cases hle
  · rcases through_eq_some hd with ⟨p, -, hdr⟩ | ⟨v, -, hv⟩ | ⟨m, neo, q, -, heq, hm⟩
    · rw [hc.self port p ((driver_eq_some hg.single).1 hdr)] at hle
      cases hle
    · cases hv
    · exact absurd (Pin.out.inj heq).1 (ne_of_mem_nmap hm hs)

/-- No edge starts or ends at an instance that is gone. -/
lemma Clean.not_dangling (hg : g.Legal) (hcg : cg.Legal)
    (hs : (g.kind s).isSome) (hc : g.Clean cg s)
    (h : (d, x) ∈ (g.inlineSub cg s).edges) : d.isOut s = false ∧ x.node ≠ s := by
  obtain ⟨d₀, hw, hr, hx⟩ := (mem_edges_iff hcg).1 h
  cases hd : d₀.isOut s with
  | false =>
    cases ((redirect_of_isOut hd).symm.trans hr)
    exact ⟨hd, hx hd⟩
  | true =>
    obtain ⟨port, rfl⟩ := eq_out_of_isOut hd
    rw [redirect_out] at hr
    exact hc.wired hg hs hw hr

/-! ## The definition afterwards -/

lemma kind_old {id : ℕ} (hid : id < g.nodes.length) (hne : id ≠ s) :
    (g.inlineSub cg s).kind id = g.kind id := by
  rw [kind_inlineSub, if_neg hne, (copied g.toNetlist cg).old id hid]

lemma kind_copy (hs : (g.kind s).isSome) (h : (n, neo) ∈ g.nmap cg) :
    (g.inlineSub cg s).kind neo = cg.kind n := by
  rw [kind_inlineSub, if_neg (ne_of_mem_nmap h hs).symm, ((copied g.toNetlist cg).copy n neo h).2.2]

lemma length_le_inlineSub (g cg : Def) (s : ℕ) :
    g.nodes.length ≤ (g.inlineSub cg s).nodes.length := by
  change g.nodes.length ≤ (connectAll (.delNode _ s) _).nodes.length
  rw [connectAll_nodes, delNode, length_set, connectAll_nodes]
  exact (copied g.toNetlist cg).length_le

/-- A node that is left is an old one or a copy. -/
lemma kind_cases {id : ℕ} (h : ((g.inlineSub cg s).kind id).isSome) :
    id ≠ s ∧ (id < g.nodes.length ∨ ∃ n, (n, id) ∈ g.nmap cg) := by
  rw [kind_inlineSub] at h
  split at h
  · cases h
  next hne =>
    refine ⟨hne, (lt_or_ge id g.nodes.length).imp_right fun hle => ?_⟩
    exact (copied g.toNetlist cg).onto id hle (kind_lt h)

lemma isSome_of_mem_nmap (h : (n, neo) ∈ g.nmap cg) : (cg.kind n).isSome ∧ n ≠ cg.out :=
  mem_inner.1 (((copied g.toNetlist cg).dom n).1 ⟨neo, h⟩)

/-- The driver of a sink is an old edge or one between copies, redirected. -/
lemma driver_inlineSub (hg : g.Legal) (hcg : cg.Legal) (hx : x.node ≠ s) :
    (g.inlineSub cg s).driver x = some d ↔
    ∃ d₀, g.Wired cg s d₀ x ∧ g.redirect cg s d₀ = some d := by
  rw [driver_eq_some (single_inlineSub hg hcg), mem_edges_iff hcg]
  exact ⟨fun ⟨d₀, hw, hr, _⟩ => ⟨d₀, hw, hr⟩, fun ⟨d₀, hw, hr⟩ => ⟨d₀, hw, hr, fun _ => hx⟩⟩

lemma driver_old (hg : g.Legal) (hcg : cg.Legal) {m p : ℕ} (hm : (g.kind m).isSome) (hne : m ≠ s) :
    (g.inlineSub cg s).driver ⟨m, p⟩ = (g.driver ⟨m, p⟩).bind (g.redirect cg s) := by
  refine ext fun d => ?_
  rw [driver_inlineSub hg hcg hne, bind_eq_some_iff]
  refine exists_congr fun d₀ => and_congr_left fun _ => ?_
  rw [driver_eq_some hg.single]
  refine ⟨fun hw => hw.resolve_right ?_, .inl⟩
  rintro ⟨n, d₁, -, -, hn⟩
  exact ne_of_mem_nmap hn hm rfl

lemma driver_copy (hg : g.Legal) (hcg : cg.Legal) (hs : (g.kind s).isSome) {p : ℕ}
    (h : (n, neo) ∈ g.nmap cg) :
    (g.inlineSub cg s).driver ⟨neo, p⟩ =
    ((cg.driver ⟨n, p⟩).bind (g.through cg s)).bind (g.redirect cg s) := by
  refine ext fun d => ?_
  rw [driver_inlineSub hg hcg (ne_of_mem_nmap h hs).symm, bind_eq_some_iff]
  refine exists_congr fun d₀ => and_congr_left fun _ => ?_
  rw [bind_eq_some_iff]
  constructor
  · rintro (he | ⟨n', d₁, he, hd, hn⟩)
    · exact absurd rfl (ne_of_mem_nmap h (hg.sink _ he))
    · obtain rfl := (copied g.toNetlist cg).inj n n' neo h hn
      exact ⟨d₁, (driver_eq_some hcg.single).2 he, hd⟩
  · rintro ⟨d₁, he, hd⟩
    exact .inr ⟨n, d₁, (driver_eq_some hcg.single).1 he, hd, h⟩

/-- What a driver of the definition becomes is a live pin. -/
lemma through_live (hg : g.Legal) (hs : (g.kind s).isSome) {d₀ : Pin}
    (h : g.through cg s d₀ = some d) {m port : ℕ} (hd : d = .out m port) :
    (m = s ∨ ((g.inlineSub cg s).kind m).isSome) ∧ m ≠ g.out := by
  have hout : (g.kind g.out).isSome := by rw [hg.out]; rfl
  subst hd
  rcases through_eq_some h with ⟨p, -, hdr⟩ | ⟨v, -, hv⟩ | ⟨n, neo, q, -, heq, hn⟩
  · obtain ⟨hlv, hne⟩ := hg.driver _ ((driver_eq_some hg.single).1 hdr) m port rfl
    refine ⟨?_, hne⟩
    by_cases hms : m = s
    · exact .inl hms
    · exact .inr (by rwa [kind_old (kind_lt hlv) hms])
  · cases hv
  · cases heq
    refine ⟨.inr ?_, (ne_of_mem_nmap hn hout).symm⟩
    rw [kind_copy hs hn]
    exact (isSome_of_mem_nmap hn).1

lemma Clean.legal (hg : g.Legal) (hcg : cg.Legal) (hs : (g.kind s).isSome)
    (hne : s ≠ g.out) (hc : g.Clean cg s) :
    (g.inlineSub cg s).Legal := by
  have hout : (g.kind g.out).isSome := by rw [hg.out]; rfl
  refine ⟨fun e he => ?_, fun e he m port heq => ?_, single_inlineSub hg hcg, ?_,
    fun port hp => ?_, fun m hm => ?_⟩
  · obtain ⟨-, hx⟩ := hc.not_dangling hg hcg hs he
    obtain ⟨d₀, hw, -, -⟩ := (mem_edges_iff hcg).1 he
    rcases hw with hold | ⟨n, d₁, -, -, hn⟩
    · have hlv := hg.sink _ hold
      rwa [kind_old (kind_lt hlv) hx]
    · rw [kind_copy hs hn]
      exact (isSome_of_mem_nmap hn).1
  · obtain ⟨d, x⟩ := e
    obtain rfl : d = .out m port := heq
    obtain ⟨hd, -⟩ := hc.not_dangling hg hcg hs he
    have hms := beq_eq_false_iff_ne.1 hd
    have hth : ∀ d₀, g.through cg s d₀ = some (.out m port) →
        ((g.inlineSub cg s).kind m).isSome ∧ m ≠ g.out := by
      intro d₀ h
      obtain ⟨hlv, hmo⟩ := through_live hg hs h rfl
      exact ⟨hlv.resolve_left hms, hmo⟩
    obtain ⟨d₀, hw, hr, -⟩ := (mem_edges_iff hcg).1 he
    cases hd₀ : d₀.isOut s with
    | false =>
      cases ((redirect_of_isOut hd₀).symm.trans hr)
      rcases hw with hold | ⟨n, d₁, -, hd₁, -⟩
      · obtain ⟨hlv, hmo⟩ := hg.driver _ hold m port rfl
        exact ⟨by rwa [kind_old (kind_lt hlv) hms], hmo⟩
      · exact hth d₁ hd₁
    | true =>
      obtain ⟨q, rfl⟩ := eq_out_of_isOut hd₀
      rw [redirect_out] at hr
      obtain ⟨d₁, -, hd₁⟩ := bind_eq_some_iff.1 hr
      exact hth d₁ hd₁
  · exact (kind_old (kind_lt hout) hne.symm).trans hg.out
  · have hdr : ((g.inlineSub cg s).driver ⟨g.out, port⟩).isSome := hp
    rw [driver_old hg hcg hout hne.symm] at hdr
    obtain ⟨d, hd⟩ := isSome_iff_exists.1 hdr
    obtain ⟨d₀, hd₀, -⟩ := bind_eq_some_iff.1 hd
    exact hg.declared port (by rw [outDriver, hd₀]; rfl)
  · exact (hg.state m hm).trans_le (length_le_inlineSub g cg s)

end Def

/-! ## Flattened values -/

section

variable (lib : Library)

/-- The value of a pin, from the inputs and the values at the positions: a position is a node within
instances, the outermost first. -/
def valAt (ins : ℕ → Option ℤ) (P : List ℕ → ℕ → Option ℤ) : Pin → Option ℤ
  | .const v => some v
  | .input p => ins p
  | .out n port => P [n] port

/-- The value at a sink, `none` when nothing drives it. -/
def Def.sinkValue (g : Def) (ins : ℕ → Option ℤ) (P : List ℕ → ℕ → Option ℤ)
    (n p : ℕ) : Option ℤ := (g.driver ⟨n, p⟩).bind (valAt ins P)

/-- What a kind of node shows at its outputs for what it reads. -/
abbrev Shows := Kind → (ℕ → Option ℤ) → (ℕ → Option ℤ) → Prop

/-- The values satisfy the nodes down to a depth: an instance shows what its definition drives, and
a register or a memory anything. -/
def FlatTo (shows : Shows) : ℕ → Def → (ℕ → Option ℤ) → (List ℕ → ℕ → Option ℤ) → Prop
  | 0, _, _, _ => True
  | depth + 1, g, ins, P => ∀ n k, g.kind n = some k → n ≠ g.out → match calleeBody lib g n with
    | some b => FlatTo shows depth b (g.sinkValue ins P n) (fun w => P (n :: w)) ∧
        ∀ port, P [n] port = (b.outDriver port).bind
        (valAt (g.sinkValue ins P n) fun w => P (n :: w))
    | none => n ∈ g.state ∨ shows k (g.sinkValue ins P n) (P [n])

/-- The values satisfy the flattened design. -/
def Flat (shows : Shows) (g : Def) (ins : ℕ → Option ℤ)
    (P : List ℕ → ℕ → Option ℤ) : Prop := ∀ depth, FlatTo lib shows depth g ins P

/-- The node at a position. -/
def kindAt : Def → List ℕ → Option Kind
  | _, [] => none
  | g, [n] => g.kind n
  | g, n :: m :: w =>
    match calleeBody lib g n with
    | some b => kindAt b (m :: w)
    | none => none

/-- The value at a sink of the node at a position. -/
def sinkAt : Def → (ℕ → Option ℤ) → (List ℕ → ℕ → Option ℤ) → List ℕ → ℕ → Option ℤ
  | _, _, _, [], _ => none
  | g, ins, P, [n], p => g.sinkValue ins P n p
  | g, ins, P, n :: m :: w, p =>
    match calleeBody lib g n with
    | some b => sinkAt b (g.sinkValue ins P n) (fun r => P (n :: r)) (m :: w) p
    | none => none

variable {lib} {shows : Shows} {g : Def} {ins : ℕ → Option ℤ} {P : List ℕ → ℕ → Option ℤ}

/-- The values at one node. -/
def FlatAt (lib : Library) (shows : Shows) (g : Def) (ins : ℕ → Option ℤ)
    (P : List ℕ → ℕ → Option ℤ) (n : ℕ) (k : Kind) : Prop :=
  match calleeBody lib g n with
  | some b => Flat lib shows b (g.sinkValue ins P n) (fun w => P (n :: w)) ∧
      ∀ port, P [n] port = (b.outDriver port).bind (valAt (g.sinkValue ins P n) fun w => P (n :: w))
  | none => n ∈ g.state ∨ shows k (g.sinkValue ins P n) (P [n])

lemma flat_iff : Flat lib shows g ins P ↔
    ∀ n k, g.kind n = some k → n ≠ g.out → FlatAt lib shows g ins P n k := by
  constructor
  · intro h n k hk hn
    unfold FlatAt
    cases hb : calleeBody lib g n with
    | some b =>
      have hst : ∀ depth, FlatTo lib shows depth b (g.sinkValue ins P n) (fun w => P (n :: w)) ∧
          ∀ port, P [n] port = (b.outDriver port).bind
          (valAt (g.sinkValue ins P n) fun w => P (n :: w)) := by
        intro depth
        have hd := h (depth + 1) n k hk hn
        rwa [hb] at hd
      exact ⟨fun depth => (hst depth).1, (hst 0).2⟩
    | none =>
      have hd := h 1 n k hk hn
      rwa [hb] at hd
  · intro h depth
    cases depth with
    | zero => trivial
    | succ depth =>
      intro n k hk hn
      have hat := h n k hk hn
      unfold FlatAt at hat
      split <;> rename_i hb <;> rw [hb] at hat
      · exact ⟨hat.1 depth, hat.2⟩
      · exact hat

/-- Each position afterwards stands for one before: the same node, with the same values at its sinks
and outputs. -/
structure Preserves (lib : Library) (g g' : Def) (t : List ℕ → List ℕ) : Prop where
  length_le : g.nodes.length ≤ g'.nodes.length
  out : g'.out = g.out
  kept : ∀ n < g.nodes.length, (g'.kind n).isSome → g'.kind n = g.kind n ∧ ∀ w, t (n :: w) = n :: w
  kind : ∀ r, (kindAt lib g' r).isSome → kindAt lib g (t r) = kindAt lib g' r
  forth : ∀ shows ins P, Flat lib shows g ins P → Flat lib shows g' ins (P ∘ t) ∧
    ∀ r, (kindAt lib g' r).isSome → ∀ p, sinkAt lib g' ins (P ∘ t) r p = sinkAt lib g ins P (t r) p
  back : ∀ shows ins P', Flat lib shows g' ins P' → ∃ P, Flat lib shows g ins P ∧
    ∀ r, (kindAt lib g' r).isSome → P' r = P (t r) ∧
    ∀ p, sinkAt lib g' ins P' r p = sinkAt lib g ins P (t r) p

lemma Preserves.refl (lib : Library) (g : Def) : Preserves lib g g id :=
  ⟨le_rfl, rfl, fun _ _ _ => ⟨rfl, fun _ => rfl⟩, fun _ _ => rfl,
    fun _ _ _ h => ⟨h, fun _ _ _ => rfl⟩, fun _ _ P h => ⟨P, h, fun _ _ => ⟨rfl, fun _ => rfl⟩⟩⟩

lemma Preserves.trans {g₁ g₂ g₃ : Def} {t υ : List ℕ → List ℕ} (h : Preserves lib g₁ g₂ t)
    (h' : Preserves lib g₂ g₃ υ) :
    Preserves lib g₁ g₃ (t ∘ υ) := by
  have hki : ∀ r, (kindAt lib g₃ r).isSome →
    (kindAt lib g₂ (υ r)).isSome := fun r hρ => by rwa [h'.kind r hρ]
  refine ⟨h.length_le.trans h'.length_le, h'.out.trans h.out, fun n hn hlv => ?_, fun r hρ => ?_,
    fun shows ins P hΦ => ?_,
    fun shows ins P₃ hΦ => ?_⟩
  · obtain ⟨hk', hτ'⟩ := h'.kept n (hn.trans_le h.length_le) hlv
    rw [hk'] at hlv ⊢
    obtain ⟨hk, hτ⟩ := h.kept n hn hlv
    refine ⟨hk, fun w => ?_⟩
    rw [comp_apply, hτ', hτ]
  · exact (h.kind _ (hki r hρ)).trans (h'.kind r hρ)
  · obtain ⟨hfl, hsi⟩ := h.forth shows ins P hΦ
    obtain ⟨hfl', hsi'⟩ := h'.forth shows ins (P ∘ t) hfl
    exact ⟨hfl', fun r hρ p => (hsi' r hρ p).trans (hsi _ (hki r hρ) p)⟩
  · obtain ⟨P₂, hΦ₂, heq₂⟩ := h'.back shows ins P₃ hΦ
    obtain ⟨P₁, hΦ₁, heq₁⟩ := h.back shows ins P₂ hΦ₂
    refine ⟨P₁, hΦ₁, fun r hρ => ?_⟩
    obtain ⟨hvalue₁, hsink₁⟩ := heq₁ _ (hki r hρ)
    obtain ⟨hvalue₂, hsink₂⟩ := heq₂ r hρ
    exact ⟨hvalue₂.trans hvalue₁, fun p => (hsink₂ p).trans (hsink₁ p)⟩

end

/-! ## One instance -/

namespace Def

variable {g cg : Def} {s n : ℕ} {d : Pin}

/-- The position before of a position afterwards. -/
def before (g cg : Def) (s : ℕ) : List ℕ → List ℕ
  | [] => []
  | id :: w =>
    match (g.nmap cg).find? (·.2 == id) with
    | some c => s :: c.1 :: w
    | none => id :: w

lemma before_copy (h : (n, neo) ∈ g.nmap cg) (w : List ℕ) :
    before g cg s (neo :: w) = s :: n :: w := by
  obtain ⟨⟨n', neo'⟩, hf⟩ := isSome_iff_exists.1
    (find?_isSome (p := fun c : ℕ × ℕ => c.2 == neo).2 ⟨_, h, beq_self_eq_true neo⟩)
  obtain rfl : neo' = neo := beq_iff_eq.1 (find?_some (p := fun c : ℕ × ℕ => c.2 == neo) hf)
  obtain rfl := (copied g.toNetlist cg).inj n' n neo' (mem_of_find?_eq_some hf) h
  unfold before
  dsimp only
  rw [hf]

lemma before_old {id : ℕ} (h : id < g.nodes.length) (w : List ℕ) :
    before g cg s (id :: w) = id :: w := by
  have hno : (g.nmap cg).find? (·.2 == id) = none := by
    refine find?_eq_none.2 fun c hc heq => ?_
    obtain rfl : c.2 = id := beq_iff_eq.1 heq
    exact absurd h (not_lt.2 ((copied g.toNetlist cg).copy c.1 c.2 hc).1)
  unfold before
  dsimp only
  rw [hno]

/-- The instance that is inlined: no node of its definition holds state. -/
structure Inlinable (lib : Library) (g cg : Def) (s : ℕ) : Prop where
  legal : g.Legal
  body : calleeBody lib g s = some cg
  callee : cg.Legal
  comb : ∀ n, (cg.kind n).isSome → n ∉ cg.state

variable {lib : Library}

lemma Inlinable.isSome (h : Inlinable lib g cg s) : (g.kind s).isSome := by
  have hb := h.body
  rw [calleeBody] at hb
  split at hb
  next hk =>
    rw [hk]
    rfl
  · cases hb

lemma Inlinable.ne_out (h : Inlinable lib g cg s) : s ≠ g.out := by
  rintro rfl
  have hb := h.body
  rw [calleeBody, h.legal.out] at hb
  cases hb

lemma calleeBody_old {m : ℕ} (hm : m < g.nodes.length) (hne : m ≠ s) :
    calleeBody lib (g.inlineSub cg s) m = calleeBody lib g m := by
  rw [calleeBody, calleeBody, kind_old hm hne]

lemma calleeBody_copy (hs : (g.kind s).isSome) (hn : (n, neo) ∈ g.nmap cg) :
    calleeBody lib (g.inlineSub cg s) neo = calleeBody lib cg n := by
  rw [calleeBody, calleeBody, kind_copy hs hn]

variable {shows : Shows} {ins : ℕ → Option ℤ} {P P' : List ℕ → ℕ → Option ℤ}

/-- The values before and afterwards agree, and so do those at the sinks. -/
structure Values (g cg : Def) (s : ℕ) (ins : ℕ → Option ℤ)
    (P P' : List ℕ → ℕ → Option ℤ) : Prop where
  old : ∀ m < g.nodes.length, m ≠ s → ∀ w, P' (m :: w) = P (m :: w)
  copy : ∀ n neo, (n, neo) ∈ g.nmap cg → ∀ w, P' (neo :: w) = P (s :: n :: w)
  port : ∀ port, P [s] port = (cg.outDriver port).bind
    (valAt (g.sinkValue ins P s) fun w => P (s :: w))
  sink_old : ∀ m, (g.kind m).isSome → m ≠ s →
    (g.inlineSub cg s).sinkValue ins P' m = g.sinkValue ins P m
  sink_copy : ∀ n neo, (n, neo) ∈ g.nmap cg →
    (g.inlineSub cg s).sinkValue ins P' neo =
    cg.sinkValue (g.sinkValue ins P s) (fun w => P (s :: w)) n

lemma Values.flatAt_old (hv : Values g cg s ins P P') {m : ℕ} (hm : (g.kind m).isSome)
    (hne : m ≠ s) (k : Kind) :
    FlatAt lib shows (g.inlineSub cg s) ins P' m k ↔ FlatAt lib shows g ins P m k := by
  have hin := funext (hv.old m (kind_lt hm) hne)
  unfold FlatAt
  rw [calleeBody_old (kind_lt hm) hne, hv.sink_old m hm hne, hin, hv.old m (kind_lt hm) hne []]
  rfl

lemma Values.flatAt_copy (hv : Values g cg s ins P P') (h : Inlinable lib g cg s)
    (hn : (n, neo) ∈ g.nmap cg) (k : Kind) :
    FlatAt lib shows (g.inlineSub cg s) ins P' neo k ↔
    FlatAt lib shows cg (g.sinkValue ins P s) (fun w => P (s :: w)) n k := by
  have hin := funext (hv.copy n neo hn)
  have hst : neo ∉ (g.inlineSub cg s).state := fun hmem =>
    absurd (h.legal.state neo hmem) (not_lt.2 ((copied g.toNetlist cg).copy n neo hn).1)
  have hst' := h.comb n (isSome_of_mem_nmap hn).1
  unfold FlatAt
  rw [calleeBody_copy h.isSome hn, hv.sink_copy n neo hn, hin, hv.copy n neo hn []]
  cases calleeBody lib cg n with
  | some b => rfl
  | none => exact or_congr_left (iff_of_false hst hst')

lemma Values.flat_iff (hv : Values g cg s ins P P') (h : Inlinable lib g cg s) :
    Flat lib shows (g.inlineSub cg s) ins P' ↔ Flat lib shows g ins P := by
  have hat : FlatAt lib shows g ins P s = fun _ =>
      Flat lib shows cg (g.sinkValue ins P s) (fun w => P (s :: w)) ∧
      ∀ port, P [s] port = (cg.outDriver port).bind
      (valAt (g.sinkValue ins P s) fun w => P (s :: w)) := by
    unfold FlatAt
    rw [h.body]
  rw [FlattenSubs.flat_iff, FlattenSubs.flat_iff]
  constructor
  · intro hfl m k hk hm
    have hlv : (g.kind m).isSome := by rw [hk]; rfl
    by_cases hms : m = s
    · subst hms
      rw [hat]
      refine ⟨flat_iff.2 fun n k' hk' hn => ?_, hv.port⟩
      have hin := mem_inner.2 ⟨by rw [hk']; rfl, hn⟩
      obtain ⟨neo, hneo⟩ := ((copied g.toNetlist cg).dom n).2 hin
      refine (hv.flatAt_copy h hneo k').1 (hfl neo k' ?_ ?_)
      · rw [kind_copy h.isSome hneo, hk']
      · have hout : (g.kind g.out).isSome := by rw [h.legal.out]; rfl
        exact (ne_of_mem_nmap hneo hout).symm
    · refine (hv.flatAt_old hlv hms k).1 (hfl m k ?_ hm)
      rw [kind_old (kind_lt hlv) hms, hk]
  · intro hfl id k hk hid
    have hlv : ((g.inlineSub cg s).kind id).isSome := by rw [hk]; rfl
    obtain ⟨hne, hlt | ⟨n, hn⟩⟩ := kind_cases hlv
    · rw [kind_old hlt hne] at hk
      exact (hv.flatAt_old (by rw [hk]; rfl) hne k).2 (hfl id k hk hid)
    · refine (hv.flatAt_copy h hn k).2 ?_
      obtain ⟨k', hk'⟩ := isSome_iff_exists.1 h.isSome
      have hs := hfl s k' hk' h.ne_out
      rw [hat] at hs
      refine FlattenSubs.flat_iff.1 hs.1 n k ?_ (isSome_of_mem_nmap hn).2
      rwa [kind_copy h.isSome hn] at hk

lemma isSome_of_kindAt {id : ℕ} {w : List ℕ} (hρ : (kindAt lib g (id :: w)).isSome) :
    (g.kind id).isSome := by
  cases w with
  | nil => exact hρ
  | cons m w =>
    unfold kindAt at hρ
    split at hρ
    next b hb =>
      rw [calleeBody] at hb
      split at hb
      next hk =>
        rw [hk]
        rfl
      · cases hb
    · cases hρ

lemma kindAt_before (h : Inlinable lib g cg s) (r : List ℕ)
    (hρ : (kindAt lib (g.inlineSub cg s) r).isSome) :
    kindAt lib g (before g cg s r) = kindAt lib (g.inlineSub cg s) r := by
  cases r with
  | nil => cases hρ
  | cons id w =>
    obtain ⟨hne, hlt | ⟨n, hn⟩⟩ := kind_cases (isSome_of_kindAt hρ)
    · rw [before_old hlt]
      cases w with
      | nil => exact (kind_old hlt hne).symm
      | cons m w =>
        unfold kindAt
        rw [calleeBody_old hlt hne]
    · rw [before_copy hn]
      have hst : kindAt lib g (s :: n :: w) = kindAt lib cg (n :: w) := by
        conv => lhs; unfold kindAt
        rw [h.body]
      rw [hst]
      cases w with
      | nil => exact (kind_copy h.isSome hn).symm
      | cons m w =>
        unfold kindAt
        rw [calleeBody_copy h.isSome hn]

lemma Values.sinkAt_eq (hv : Values g cg s ins P P') (h : Inlinable lib g cg s) (r : List ℕ)
    (hρ : (kindAt lib (g.inlineSub cg s) r).isSome) (p : ℕ) :
    sinkAt lib (g.inlineSub cg s) ins P' r p = sinkAt lib g ins P (before g cg s r) p := by
  cases r with
  | nil => cases hρ
  | cons id w =>
    obtain ⟨hne, hlt | ⟨n, hn⟩⟩ := kind_cases (isSome_of_kindAt hρ)
    · have hlv := isSome_of_kindAt hρ
      rw [kind_old hlt hne] at hlv
      rw [before_old hlt]
      cases w with
      | nil => exact congrFun (hv.sink_old id hlv hne) p
      | cons m w =>
        have hin := funext (hv.old id hlt hne)
        unfold sinkAt
        rw [calleeBody_old hlt hne, hv.sink_old id hlv hne, hin]
    · rw [before_copy hn]
      have hst : sinkAt lib g ins P (s :: n :: w) p =
          sinkAt lib cg (g.sinkValue ins P s) (fun w => P (s :: w)) (n :: w) p := by
        conv => lhs; unfold sinkAt
        rw [h.body]
      rw [hst]
      cases w with
      | nil => exact congrFun (hv.sink_copy n id hn) p
      | cons m w =>
        have hin := funext (hv.copy n id hn)
        unfold sinkAt
        rw [calleeBody_copy h.isSome hn, hv.sink_copy n id hn, hin]

/-! ## The values on either side -/

lemma driver_bind_congr (hsi : ∀ x d d', (d, x) ∈ h.edges → (d', x) ∈ h.edges → d = d') {x : Sink}
    {f f' : Pin → Option ℤ} (hf : ∀ d, (d, x) ∈ h.edges → f d = f' d) :
    (h.driver x).bind f = (h.driver x).bind f' := by
  cases hd : h.driver x with
  | none => rfl
  | some d => exact hf d ((driver_eq_some hsi).1 hd)

/-- The values of the nodes before, read at their positions afterwards. -/
lemma Inlinable.values_comp (h : Inlinable lib g cg s) (hΦ : Flat lib shows g ins P) :
    Values g cg s ins P (P ∘ before g cg s) := by
  obtain ⟨k, hk⟩ := isSome_iff_exists.1 h.isSome
  have hat := flat_iff.1 hΦ s k hk h.ne_out
  unfold FlatAt at hat
  rw [h.body] at hat
  obtain ⟨-, hp⟩ := hat
  have hold : ∀ m < g.nodes.length, ∀ w, (P ∘ before g cg s) (m :: w) = P (m :: w) := fun m hm w =>
    congrArg P (before_old hm w)
  have hco : ∀ n neo, (n, neo) ∈ g.nmap cg →
      ∀ w, (P ∘ before g cg s) (neo :: w) = P (s :: n :: w) := fun n neo hn w =>
    congrArg P (before_copy hn w)
  -- a pin that is read has its value, and what a pin of the definition becomes has the value of
  -- that pin
  have hpin : ∀ d x, (d, x) ∈ g.edges → valAt ins (P ∘ before g cg s) d = valAt ins P d := by
    intro d x he
    cases d with
    | input p => rfl
    | const v => rfl
    | out n port => exact congrFun (hold n (kind_lt (h.legal.driver _ he n port rfl).1) []) port
  have hth : ∀ d x, (d, x) ∈ cg.edges → (g.through cg s d).bind (valAt ins (P ∘ before g cg s)) =
      valAt (g.sinkValue ins P s) (fun w => P (s :: w)) d := by
    intro d x he
    cases d with
    | input p => exact driver_bind_congr h.legal.single fun d hd => hpin d _ hd
    | const v => rfl
    | out n port =>
      obtain ⟨hlv, hne⟩ := h.callee.driver _ he n port rfl
      obtain ⟨neo, hneo⟩ := ((copied g.toNetlist cg).dom n).2 (mem_inner.2 ⟨hlv, hne⟩)
      have hlk : g.through cg s (.out n port) = some (.out neo port) :=
        map_eq_some_iff.2 ⟨neo, (lookup_eq_some (copied g.toNetlist cg).unique).2 hneo, rfl⟩
      rw [hlk]
      exact congrFun (hco n neo hneo []) port
  have hsub : ∀ port, valAt ins (P ∘ before g cg s) (.out s port) =
      (g.leads cg s port).bind (valAt ins (P ∘ before g cg s)) := by
    intro port
    refine (congrFun (hold s (kind_lt h.isSome) []) port).trans ((hp port).trans ?_)
    rw [leads, bind_assoc]
    exact (driver_bind_congr h.callee.single fun d hd => hth d _ hd).symm
  have hre : ∀ d, (g.redirect cg s d).bind (valAt ins (P ∘ before g cg s)) =
      valAt ins (P ∘ before g cg s) d := by
    intro d
    cases hd : d.isOut s with
    | false => simp [redirect_of_isOut hd]
    | true =>
      obtain ⟨port, rfl⟩ := eq_out_of_isOut hd
      rw [redirect_out, hsub]
  refine ⟨fun m hm _ => hold m hm, hco, hp, fun m hm hne => funext fun p => ?_,
    fun n neo hn => funext fun p => ?_⟩
  · rw [sinkValue, driver_old h.legal h.callee hm hne, bind_assoc, funext hre]
    exact driver_bind_congr h.legal.single fun d hd => hpin d _ hd
  · rw [sinkValue, driver_copy h.legal h.callee h.isSome hn, bind_assoc, bind_assoc]
    refine driver_bind_congr h.callee.single fun d hd => ?_
    rw [funext hre]
    exact hth d _ hd

/-- The values before, from those afterwards. -/
def behind (g cg : Def) (s : ℕ) (ins : ℕ → Option ℤ)
    (P' : List ℕ → ℕ → Option ℤ) : List ℕ → ℕ → Option ℤ
  | [], _ => none
  | n :: w, port =>
    if n = s then
      match w with
      | [] => ((g.leads cg s port).bind (g.redirect cg s)).bind (valAt ins P')
      | m :: w => ((g.nmap cg).lookup m).bind fun neo => P' (neo :: w) port
    else P' (n :: w) port

lemma Clean.values_behind (h : Inlinable lib g cg s) (hc : g.Clean cg s) :
    Values g cg s ins (behind g cg s ins P') P' := by
  have hold : ∀ m, m ≠ s → ∀ w, P' (m :: w) = behind g cg s ins P' (m :: w) := fun m hne w =>
    funext fun port => (if_neg hne).symm
  have hlk : ∀ n neo, (n, neo) ∈ g.nmap cg → (g.nmap cg).lookup n = some neo := fun n neo hn =>
    (lookup_eq_some (copied g.toNetlist cg).unique).2 hn
  have hco : ∀ n neo, (n, neo) ∈ g.nmap cg →
      ∀ w, P' (neo :: w) = behind g cg s ins P' (s :: n :: w) := by
    intro n neo hn w
    funext port
    refine Eq.symm ((if_pos rfl).trans ?_)
    simp [hlk n neo hn]
  have hsub : ∀ port, behind g cg s ins P' [s] port =
    ((g.leads cg s port).bind (g.redirect cg s)).bind (valAt ins P') := fun port => if_pos rfl
  -- what is read has the value of what it becomes
  have hpin : ∀ d x, (d, x) ∈ g.edges →
      valAt ins (behind g cg s ins P') d = (g.redirect cg s d).bind (valAt ins P') := by
    intro d x he
    cases hd : d.isOut s with
    | false =>
      rw [redirect_of_isOut hd]
      cases d with
      | input p => rfl
      | const v => rfl
      | out n port => exact congrFun (hold n (beq_eq_false_iff_ne.1 hd) []).symm port
    | true =>
      obtain ⟨port, rfl⟩ := eq_out_of_isOut hd
      refine (hsub port).trans ?_
      rw [redirect_out]
      cases hle : g.leads cg s port with
      | none => rfl
      | some d =>
        have hd : d.isOut s = false := by
          cases hd : d.isOut s with
          | false => rfl
          | true =>
            obtain ⟨port', rfl⟩ := eq_out_of_isOut hd
            exact absurd hle (hc.aside port x he port')
        rw [bind_some, redirect_of_isOut hd]
  have hth : ∀ d x, (d, x) ∈ cg.edges → valAt (g.sinkValue ins (behind g cg s ins P') s)
        (fun w => behind g cg s ins P' (s :: w)) d =
        ((g.through cg s d).bind (g.redirect cg s)).bind (valAt ins P') := by
    intro d x he
    cases d with
    | input p =>
      rw [bind_assoc]
      exact driver_bind_congr h.legal.single fun d hd => hpin d _ hd
    | const v => rfl
    | out n port =>
      obtain ⟨hlv, hne⟩ := h.callee.driver _ he n port rfl
      obtain ⟨neo, hneo⟩ := ((copied g.toNetlist cg).dom n).2 (mem_inner.2 ⟨hlv, hne⟩)
      have hth : g.through cg s (.out n port) = some (.out neo port) :=
        map_eq_some_iff.2 ⟨neo, hlk n neo hneo, rfl⟩
      have hns : neo ≠ s := (ne_of_mem_nmap hneo h.isSome).symm
      rw [hth, bind_some, redirect_of_isOut (d := .out neo port) (beq_eq_false_iff_ne.2 hns)]
      exact (congrFun (hco n neo hneo []) port).symm
  refine ⟨fun m _ hne => hold m hne, hco, fun port => ?_, fun m hm hne => funext fun p => ?_,
    fun n neo hn => funext fun p => ?_⟩
  · rw [hsub, leads, bind_assoc, bind_assoc]
    refine driver_bind_congr h.callee.single fun d hd => ?_
    rw [hth d _ hd, bind_assoc]
  · rw [sinkValue, driver_old h.legal h.callee hm hne, bind_assoc]
    exact driver_bind_congr h.legal.single fun d hd => (hpin d _ hd).symm
  · rw [sinkValue, driver_copy h.legal h.callee h.isSome hn, bind_assoc, bind_assoc]
    refine driver_bind_congr h.callee.single fun d hd => ?_
    rw [hth d _ hd, bind_assoc]

/-- An instance that does not feed itself is inlined without a change. -/
lemma Clean.preserves (h : Inlinable lib g cg s) (hc : g.Clean cg s) :
    Preserves lib g (g.inlineSub cg s) (before g cg s) := by
  refine ⟨?_, rfl, fun m hm hlv => ?_, kindAt_before h, fun shows ins P hΦ => ?_,
    fun shows ins P' hΦ' => ?_⟩
  · exact length_le_inlineSub g cg s
  · exact ⟨kind_old hm (kind_cases hlv).1, before_old hm⟩
  · have hv := h.values_comp hΦ
    exact ⟨(hv.flat_iff h).2 hΦ, hv.sinkAt_eq h⟩
  · have hv : Values g cg s ins (behind g cg s ins P') P' := hc.values_behind h
    refine ⟨_, (hv.flat_iff h).1 hΦ', fun r hρ => ⟨?_, hv.sinkAt_eq h r hρ⟩⟩
    cases r with
    | nil => cases hρ
    | cons id w =>
      obtain ⟨hne, hlt | ⟨n, hn⟩⟩ := kind_cases (isSome_of_kindAt hρ)
      · rw [before_old hlt]
        exact hv.old id hlt hne w
      · rw [before_copy hn]
        exact hv.copy n id hn w

end Def

end LiveHD.FlattenSubs
