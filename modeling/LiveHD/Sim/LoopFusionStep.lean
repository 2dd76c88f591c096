import LiveHD.Sim.LoopFusionEdges

/-!
# One fusion

What fusing a group leaves: the nodes, the hints and the edges of the graph, and the interface
of the new definition.
-/

namespace LiveHD.Sim.Fuse

open Relation Function List

variable {lib : Library} {g : Graph} {group : List ℕ}

/-- The members of a group with their ports. -/
def partsOf (lib : Library) (g : Graph) (group : List ℕ) : List (Member × Ports) :=
  parts (firstPort (members lib g group)) (members lib g group)

/-- A group that is to be fused. -/
structure Setting (lib : Library) (g : Graph) (group : List ℕ) : Prop where
  wf : g.WellFormed lib
  fusable : Fusable lib g group
  nodup : group.Nodup

lemma lt_of_node {id : ℕ} {N : Node} (h : g.node id = some N) : id < g.nodes.length := by
  rw [Graph.node, Option.join_eq_some_iff] at h
  exact (List.getElem?_eq_some_iff.1 h).1

lemma mem_live {id : ℕ} : id ∈ g.live ↔ (g.node id).isSome := by
  rw [Graph.live, mem_filter, mem_range, and_iff_right_iff_imp]
  intro h
  obtain ⟨N, hN⟩ := Option.isSome_iff_exists.1 h
  exact lt_of_node hN

/-- The dependencies of the traversal are those of the graph. -/
lemma needs_iff_dep (hwf : g.WellFormed lib) {p s : ℕ} : Needs g p s ↔ g.Dep p s := by
  constructor
  · intro h
    obtain ⟨sink, -, h⟩ := mem_flatMap.1 h
    obtain ⟨e, he, h⟩ := mem_filterMap.1 h
    split at h
    next producer q n port =>
      split at h
      next hc =>
        cases (Option.some.inj h)
        obtain ⟨rfl, hse, -⟩ := hc
        exact ⟨q, port, he, hse⟩
      next => exact absurd h (by simp)
    next => exact absurd h (by simp)
  · rintro ⟨q, port, he, hse⟩
    obtain ⟨N, hN, -⟩ := hwf.driver _ he p q rfl
    refine mem_flatMap.2 ⟨s, mem_live.2 (hwf.sink _ he s port rfl).1, mem_filterMap.2 ⟨_, he, ?_⟩⟩
    have hp := mem_live.2 (by rw [hN]; rfl)
    exact if_pos ⟨rfl, hse, hp⟩

lemma antichain_dep (hwf : g.WellFormed lib) {S : Set ℕ} :
    Antichain (Needs g) S ↔ Antichain g.Dep S := by
  have : Needs g = g.Dep := by
    funext p s
    exact propext (needs_iff_dep hwf)
  rw [this]

/-! ## The members -/

lemma mem_members {m : Member} (h : m ∈ members lib g group) :
    m.id ∈ group ∧ g.node m.id = some (.loop m.callee m.loop) ∧ m.io = lib.io m.callee := by
  obtain ⟨id, hid, h⟩ := mem_filterMap.1 h
  split at h
  next c L hn =>
    cases h
    exact ⟨hid, hn, rfl⟩
  next => exact absurd h (by simp)

lemma map_id_members (h : ∀ id ∈ group, ∃ c L, g.node id = some (.loop c L)) :
    (members lib g group).map (·.id) = group := by
  induction group with
  | nil => rfl
  | cons id group ih =>
    obtain ⟨c, L, hn⟩ := h id (.head _)
    have hco : members lib g (id :: group) = ⟨id, c, L, lib.io c⟩ :: members lib g group := by
      rw [members, filterMap_cons, hn]
      rfl
    rw [hco, map_cons, ih fun a ha => h a (.tail _ ha)]

lemma map_fst_partsOf : (partsOf lib g group).map (·.1) = members lib g group := map_fst_parts _ _

lemma mem_of_mem_partsOf {x : Member × Ports} (hx : x ∈ partsOf lib g group) :
    x.1 ∈ members lib g group := by
  rw [← map_fst_partsOf]
  exact mem_map_of_mem hx

lemma fuseGroup_graph : (fuseGroup (lib, g) group).2 =
    (members lib g group).foldl (fun g m => g.delNode m.id)
    ((partsOf lib g group).foldl (moveMember g.nodes.length)
      { g with nodes := g.nodes ++ [some
        (.loop lib.length (descriptor (members lib g group)))] }) := rfl

lemma fuseGroup_library : (fuseGroup (lib, g) group).1 =
    lib ++ [⟨fusedIo (members lib g group), some (fusedBody g (members lib g group))⟩] := rfl

lemma io_append (lib : Library) (d : Definition) {c : ℕ} (hc : c < lib.length) :
    Library.io (lib ++ [d]) c = lib.io c := by
  rw [Library.io, Library.io, getElem?_append_left hc]

lemma io_fused : (fuseGroup (lib, g) group).1.io lib.length = fusedIo (members lib g group) := by
  rw [fuseGroup_library, Library.io, getElem?_concat_length]
  rfl

lemma graph_fused : (fuseGroup (lib, g) group).1.graph lib.length =
    some (fusedBody g (members lib g group)) := by
  rw [fuseGroup_library, Library.graph, getElem?_concat_length]
  rfl

lemma io_of_lt {c : ℕ} (hc : c < lib.length) :
    (fuseGroup (lib, g) group).1.io c = lib.io c := io_append lib _ hc

/-! ## Hints -/

lemma foldl_update_eq {κ ω : Type*} [DecidableEq κ] (l : List (κ × κ)) (a : κ → ω)
    (hke : (l.map (·.1)).Nodup)
    (hsrc : ∀ u ∈ l, u.2 ∉ l.map (·.1)) :
    (∀ u ∈ l, l.foldl (fun a u => Function.update a u.1 (a u.2)) a u.1 = a u.2) ∧
      ∀ k, k ∉ l.map (·.1) → l.foldl (fun a u => Function.update a u.1 (a u.2)) a k = a k := by
  induction l generalizing a with
  | nil => exact ⟨nofun, fun _ _ => rfl⟩
  | cons u l ih =>
    obtain ⟨hu, hl⟩ := nodup_cons.1 hke
    obtain ⟨hin, hout⟩ := ih (update a u.1 (a u.2)) hl
      fun v hv hmem => hsrc v (.tail _ hv) (.tail _ hmem)
    refine ⟨fun v hv => ?_, fun k hk => ?_⟩
    · rw [foldl_cons]
      rcases mem_cons.1 hv with rfl | hv'
      · rw [hout v.1 hu, update_self]
      · rw [hin v hv', update_of_ne]
        intro heq
        exact hsrc v hv (by rw [heq]; exact (.head _))
    · rw [foldl_cons, hout k fun hmem => hk (.tail _ hmem), update_of_ne]
      rintro rfl
      exact hk (.head _)

/-- The hints that are copied, with their sources. -/
def copies (f : ℕ) (ps : List (Member × Ports)) : List (Pin × Pin) :=
  ps.flatMap fun x => x.2.outputs.map fun io => (.out f io.2, .out x.1.id io.1)

lemma foldl_moveMember_attrs (f : ℕ) (ps : List (Member × Ports)) (g : Graph) :
    (ps.foldl (moveMember f) g).attrs = (copies f ps).foldl
    (fun a u => Function.update a u.1 (a u.2)) g.attrs := by
  induction ps generalizing g with
  | nil => rfl
  | cons x ps ih =>
    have hco : copies f (x :: ps) =
      (x.2.outputs.map fun io => (.out f io.2, .out x.1.id io.1)) ++ copies f ps := flatMap_cons
    rw [foldl_cons, ih, hco, foldl_append, foldl_map]
    rfl

lemma outputs_parts (next : ℕ) (ms : List Member) :
    ((parts next ms).flatMap fun x => x.2.outputs.map (·.2)) =
    (outputDecls next ms).map (·.port) := by
  induction ms generalizing next with
  | nil => rfl
  | cons m ms ih =>
    have hhe : (m.mapPorts next).outputs.map (·.2) =
        ((m.io.outputs.zipIdx (next + m.ownInputs.length)).map widen).map (·.port) := by
      rw [Member.mapPorts, List.map_map, List.map_map]
      rfl
    rw [parts, flatMap_cons, ih, outputDecls, map_append, hhe]

lemma nodup_copies (f next : ℕ) (ms : List Member) :
    ((copies f (parts next ms)).map (·.1)).Nodup := by
  have hke : (copies f (parts next ms)).map (·.1) =
      ((outputDecls next ms).map (·.port)).map (.out f) := by
    rw [← outputs_parts, copies, map_flatMap, map_flatMap]
    refine congrArg (fun F => flatMap F _) (funext fun x => ?_)
    rw [List.map_map, List.map_map]
    rfl
  rw [hke]
  exact (nodup_outputDecls ms next).map fun a b hab => (Pin.out.inj hab).2

lemma mem_outputs {next : ℕ} {ms : List Member} {x : Member × Ports}
    (hx : x ∈ parts next ms) {d : PortDecl}
    (hd : d ∈ x.1.io.outputs) : (d.port, x.2.output d.port) ∈ x.2.outputs := by
  obtain ⟨n, hn⟩ := exists_mapPorts hx
  rw [hn]
  obtain ⟨k, hk, -⟩ := exists_mem_zipIdx hd (n + x.1.ownInputs.length)
  rw [x.1.output_own hk]
  exact mem_map_of_mem (f := fun x : PortDecl × ℕ => (x.1.port, x.2)) hk

namespace Setting

variable (h : Setting lib g group)

include h

lemma map_id : (members lib g group).map (·.id) = group := by
  refine map_id_members fun id hid => ?_
  obtain ⟨c, L, hn, -⟩ := h.fusable.loop id hid
  exact ⟨c, L, hn⟩

lemma exists_part {id : ℕ} (hid : id ∈ group) : ∃ x ∈ partsOf lib g group, x.1.id = id := by
  rw [← h.map_id, ← map_fst_partsOf, List.map_map] at hid
  obtain ⟨x, hx, rfl⟩ := mem_map.1 hid
  exact ⟨x, hx, rfl⟩

lemma apart : Apart g g.nodes.length ((partsOf lib g group).map (·.1)) := by
  rw [map_fst_partsOf]
  refine ⟨?_, fun m hm => lt_of_node (mem_members hm).2.1, fun e he m hm m' hm' hout hn => ?_⟩
  · rw [h.map_id]
    exact h.nodup
  · obtain ⟨q, hq⟩ := isOut_iff.1 hout
    obtain ⟨p, hp⟩ := isNode_iff.1 hn
    by_contra hne
    refine h.fusable.antichain m.id (mem_members hm).1 m'.id (mem_members hm').1
      (.single ((needs_iff_dep h.wf).2 ⟨q, p, ?_, fun h => hne h.1⟩))
    rwa [← hq, ← hp]

lemma nodup_ids : ((partsOf lib g group).map (·.1.id)).Nodup := h.apart.nodup_ids

lemma plain {m : Member} (hm : m ∈ members lib g group) :
    m.loop.plain = true ∧ m.callee < lib.length := by
  obtain ⟨hid, hn, -⟩ := mem_members hm
  obtain ⟨c, L, hcL, hp, -⟩ := h.fusable.loop _ hid
  obtain ⟨rfl, rfl⟩ := Node.loop.inj (Option.some.inj (hn.symm.trans hcL))
  refine ⟨hp, h.wf.callee m.id _ ?_⟩
  rw [Graph.callee?, hn]

/-- The descriptor has the domain of every member. -/
lemma descriptor_domain {m : Member} (hm : m ∈ members lib g group) :
    (descriptor (members lib g group)).sameDomain m.loop = true ∧
    (descriptor (members lib g group)).plain = true ∧
      (descriptor (members lib g group)).indexInput = if hasIndex (members lib g group) then some 0
      else none := by
  cases hms : members lib g group with
  | nil =>
    rw [hms] at hm
    cases hm
  | cons front rest =>
    have hfr : front ∈ members lib g group := by
      rw [hms]
      exact .head _
    rw [← hms]
    have hde : descriptor (members lib g group) =
        { front.loop with indexInput := if hasIndex (members lib g group) then some 0
          else none } := by
      rw [hms]
      rfl
    have hdo := h.fusable.domain _ (mem_members hfr).1 _ (mem_members hm).1 front.loop m.loop
      (loop?_eq_some_iff.2 ⟨_, (mem_members hfr).2.1⟩)
        (loop?_eq_some_iff.2 ⟨_, (mem_members hm).2.1⟩)
    rw [hde]
    exact ⟨hdo, (h.plain hfr).1, rfl⟩

/-! ## What is left -/

lemma edges : (fuseGroup (lib, g) group).2.edges.Perm
    ((g.edges.filter (kept (partsOf lib g group))).map
    (Prod.map (renamePin g.nodes.length (partsOf lib g group))
      (renameSink g.nodes.length (partsOf lib g group)))) := by
  refine .trans (.of_eq ?_) h.apart.edges_perm
  have hap := h.apart
  rw [map_fst_partsOf] at hap
  have hpa : ∀ x ∈ partsOf lib g group, x.1 ∈ members lib g group := fun x hx =>
    mem_of_mem_partsOf hx
  have hmo : ((partsOf lib g group).foldl (moveMember g.nodes.length)
      { g with nodes := g.nodes ++ [some
        (.loop lib.length (descriptor (members lib g group)))] }).edges =
        g.edges ++ (partsOf lib g group).flatMap (moved g.nodes.length g) :=
    foldl_moveMember_edges hap hpa fun x _ => rfl
  rw [fuseGroup_graph, foldl_delNode_edges, hmo, filter_append, map_fst_partsOf]
  congr 1
  refine filter_eq_self.2 fun e he => all_eq_true.2 fun m hm => ?_
  obtain ⟨x, hx, he⟩ := mem_flatMap.1 he
  rw [hap.touches_moved (mem_of_mem_partsOf hx) hm he]
  rfl

/-- A hint is copied from a pin of a member, never from a copy. -/
lemma source_copies {u : Pin × Pin} (hu : u ∈ copies g.nodes.length (partsOf lib g group)) :
    u.2 ∉ (copies g.nodes.length (partsOf lib g group)).map (·.1) := by
  intro hmem
  obtain ⟨y, hy, hu⟩ := mem_flatMap.1 hu
  obtain ⟨io, -, rfl⟩ := mem_map.1 hu
  obtain ⟨v, hv, heq⟩ := mem_map.1 hmem
  obtain ⟨z, -, hv⟩ := mem_flatMap.1 hv
  obtain ⟨io', -, rfl⟩ := mem_map.1 hv
  exact (h.apart.lt y.1 (mem_map_of_mem hy)).ne' (Pin.out.inj heq).1

/-- The fused loop takes over the hints of its members. -/
lemma attrs_of_mem {x : Member × Ports} (hx : x ∈ partsOf lib g group) {d : PortDecl}
    (hd : d ∈ x.1.io.outputs) :
    (fuseGroup (lib, g) group).2.attrs (.out g.nodes.length (x.2.output d.port)) = g.attrs
    (.out x.1.id d.port) := by
  rw [fuseGroup_graph, foldl_delNode_attrs, foldl_moveMember_attrs]
  refine (foldl_update_eq _ _ (nodup_copies _ _ _) fun u hu => h.source_copies hu).1
    (.out _ _, .out _ _)
    (mem_flatMap.2 ⟨x, hx, ?_⟩)
  exact mem_map_of_mem (f := fun io : ℕ × ℕ => (Pin.out _ io.2, Pin.out x.1.id io.1))
    (mem_outputs hx hd)

lemma attrs_of_not (pin : Pin) (hpin : pin.isOut g.nodes.length = false) :
    (fuseGroup (lib, g) group).2.attrs pin = g.attrs pin := by
  rw [fuseGroup_graph, foldl_delNode_attrs, foldl_moveMember_attrs]
  refine (foldl_update_eq _ _ (nodup_copies _ _ _) fun u hu => h.source_copies hu).2 pin fun hmem =>
    ?_
  obtain ⟨v, hv, rfl⟩ := mem_map.1 hmem
  obtain ⟨z, -, hv⟩ := mem_flatMap.1 hv
  obtain ⟨io', -, rfl⟩ := mem_map.1 hv
  exact absurd hpin (by simp)

end Setting

/-! ## Nodes -/

lemma node_delNode (g : Graph) (id n : ℕ) :
    (g.delNode id).node n = if n = id then none else g.node n := by
  rw [Graph.node, Graph.delNode, Graph.node, getElem?_set]
  split
  next h => rw [if_pos h.symm]; split <;> rfl
  next h => rw [if_neg (Ne.symm h)]

lemma node_foldl_delNode (ms : List Member) (g : Graph) (n : ℕ) :
    (ms.foldl (fun g m => g.delNode m.id) g).node n = if n ∈ ms.map (·.id) then none
    else g.node n := by
  induction ms generalizing g with
  | nil => rfl
  | cons m ms ih =>
    rw [foldl_cons, ih, node_delNode, map_cons]
    by_cases hn : n = m.id
    · rw [if_pos hn, if_pos (mem_cons.2 (.inl hn))]
      exact ite_self _
    · rw [if_neg hn]
      exact if_congr (mem_cons.trans (or_iff_right hn)).symm rfl rfl

namespace Setting

variable (h : Setting lib g group)

include h

lemma node (n : ℕ) : (fuseGroup (lib, g) group).2.node n = if n ∈ group then none
    else if n = g.nodes.length then some
    (.loop lib.length (descriptor (members lib g group))) else g.node n := by
  rw [fuseGroup_graph, node_foldl_delNode, h.map_id]
  refine if_congr Iff.rfl rfl ?_
  rw [Graph.node, foldl_moveMember_nodes]
  split
  next hn => rw [hn, getElem?_concat_length]; rfl
  next hn =>
    rcases lt_or_ge n g.nodes.length with hlt | hge
    · rw [getElem?_append_left hlt]
      rfl
    · rw [Graph.node, getElem?_eq_none (by rw [length_append, length_singleton]; omega),
        getElem?_eq_none hge]

lemma not_mem_group {n : ℕ} (hn : g.nodes.length ≤ n) : n ∉ group := by
  intro hmem
  obtain ⟨c, L, hno, -⟩ := h.fusable.loop n hmem
  exact absurd (lt_of_node hno) (not_lt.2 hn)

lemma node_fused : (fuseGroup (lib, g) group).2.node g.nodes.length =
    some (.loop lib.length (descriptor (members lib g group))) := by
  rw [h.node, if_neg (h.not_mem_group le_rfl), if_pos rfl]

lemma node_of_lt {n : ℕ} (hlt : n < g.nodes.length) (hn : n ∉ group) :
    (fuseGroup (lib, g) group).2.node n = g.node n := by
  rw [h.node, if_neg hn, if_neg hlt.ne]

end Setting

lemma length_nodes : (fuseGroup (lib, g) group).2.nodes.length = g.nodes.length + 1 := by
  have hdel : ∀ (ms : List Member) (g : Graph),
      (ms.foldl (fun g m => g.delNode m.id) g).nodes.length = g.nodes.length := by
    intro ms
    induction ms with
    | nil => exact fun _ => rfl
    | cons m ms ih => exact fun g => (ih _).trans length_set
  rw [fuseGroup_graph, hdel, foldl_moveMember_nodes, length_append, length_singleton]

end LiveHD.Sim.Fuse
