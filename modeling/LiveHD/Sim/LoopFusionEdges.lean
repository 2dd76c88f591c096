import LiveHD.Sim.LoopFusionPorts
import LiveHD.Sim.LoopFusionGroups

/-!
# The edges after a fusion

Fusing a group moves each of its pins to a pin of the fused loop and drops the edges into the index
ports: up to their order, the edges are the old ones with both ends moved.
-/

namespace LiveHD.Sim.Fuse

open List Bool

variable {lib : Library} {g : Graph} {f : ℕ} {ms : List Member}

/-- Whether an edge starts or ends at a member. -/
def touches (m : Member) (e : Pin × Sink) : Bool := e.1.isOut m.id || e.2.isNode m.id

/-- The edges of a member, moved. -/
def moved (f : ℕ) (g : Graph) (x : Member × Ports) : List (Pin × Sink) :=
  (externalEdges g x.1).map (Prod.map id (moveSink f x)) ++
    (carryEdges g x.1).map (Prod.map (movePin f x) (moveSink f x))
    ++ (readerEdges g x.1).map (Prod.map (movePin f x) id)

/-- Where the pins go. -/
def renamePin (f : ℕ) (ps : List (Member × Ports)) : Pin → Pin
  | .out n q =>
    match ps.find? (·.1.id == n) with
    | some x => .out f (x.2.output q)
    | none => .out n q
  | pin => pin

def renameSink (f : ℕ) (ps : List (Member × Ports)) : Sink → Sink
  | .node n p =>
    match ps.find? (·.1.id == n) with
    | some x => .node f (x.2.input p)
    | none => .node n p
  | s => s

/-- The members are different nodes below `f`, and no edge leads from one to another. -/
structure Apart (g : Graph) (f : ℕ) (ms : List Member) : Prop where
  nodup : (ms.map (·.id)).Nodup
  lt : ∀ m ∈ ms, m.id < f
  edge : ∀ e ∈ g.edges, ∀ m ∈ ms, ∀ m' ∈ ms, e.1.isOut m.id = true →
    e.2.isNode m'.id = true → m.id = m'.id

@[simp] lemma isOut_out (n q id : ℕ) : (Pin.out n q).isOut id = (n == id) := rfl

@[simp] lemma isNode_node (n p id : ℕ) : (Sink.node n p).isNode id = (n == id) := rfl

lemma isOut_iff {pin : Pin} {id : ℕ} : pin.isOut id = true ↔ ∃ q, pin = .out id q := by
  cases pin with
  | input i => exact iff_of_false false_ne_true (by simp)
  | const v => exact iff_of_false false_ne_true (by simp)
  | out n q => simp

lemma isNode_iff {s : Sink} {id : ℕ} : s.isNode id = true ↔ ∃ p, s = .node id p := by
  cases s with
  | output p => exact iff_of_false false_ne_true (by simp)
  | node n p => simp

namespace Apart

variable {ps : List (Member × Ports)} {x : Member × Ports}

/-- What is moved touches no member any more. -/
lemma touches_moved (h : Apart g f ms) (hx : x.1 ∈ ms) {m : Member} (hm : m ∈ ms) {e : Pin × Sink}
    (he : e ∈ moved f g x) :
    touches m e = false := by
  have hf := beq_eq_false_iff_ne.2 (h.lt m hm).ne'
  have hpin : ∀ q, (movePin f x (.out x.1.id q)).isOut m.id = false := by
    intro q
    rwa [movePin, if_pos rfl]
  have hsi : ∀ p, (moveSink f x (.node x.1.id p)).isNode m.id = false := by
    intro p
    rwa [moveSink, if_pos rfl]
  rw [touches, or_eq_false_iff]
  rcases mem_append.1 he with he | he
  · rcases mem_append.1 he with he | he
    · obtain ⟨⟨pin, s⟩, hmem, rfl⟩ := mem_map.1 he
      obtain ⟨hmem, hc⟩ := mem_filter.1 hmem
      rw [and_eq_true, and_eq_true, not_eq_true'] at hc
      obtain ⟨⟨hn, hout⟩, -⟩ := hc
      refine ⟨?_, ?_⟩
      · change pin.isOut m.id = false
        cases hm' : pin.isOut m.id with
        | false => rfl
        | true =>
          rw [h.edge _ hmem m hm x.1 hx hm' hn] at hm'
          exact absurd (hm'.symm.trans hout) (by simp)
      · obtain ⟨p, rfl⟩ := isNode_iff.1 hn
        exact hsi p
    · obtain ⟨⟨pin, s⟩, hmem, rfl⟩ := mem_map.1 he
      obtain ⟨-, hc⟩ := mem_filter.1 hmem
      rw [and_eq_true] at hc
      obtain ⟨p, rfl⟩ := isNode_iff.1 hc.1
      obtain ⟨q, rfl⟩ := isOut_iff.1 hc.2
      exact ⟨hpin q, hsi p⟩
  · obtain ⟨⟨pin, s⟩, hmem, rfl⟩ := mem_map.1 he
    obtain ⟨hmem, hc⟩ := mem_filter.1 hmem
    rw [and_eq_true, not_eq_true'] at hc
    obtain ⟨hn, hout⟩ := hc
    refine ⟨?_, ?_⟩
    · obtain ⟨q, rfl⟩ := isOut_iff.1 hout
      exact hpin q
    · change s.isNode m.id = false
      cases hm' : s.isNode m.id with
      | false => rfl
      | true =>
        rw [← h.edge _ hmem x.1 hx m hm hout hm'] at hm'
        exact absurd (hm'.symm.trans hn) (by simp)

end Apart

/-- Edges that do not touch a member are not moved with it. -/
lemma moved_congr {g h : Graph} {x : Member × Ports} {l : List (Pin × Sink)}
    (hed : h.edges = g.edges ++ l)
    (hl : ∀ e ∈ l, touches x.1 e = false) : moved f h x = moved f g x := by
  have key : ∀ p : Pin × Sink → Bool, (∀ e, p e = true → touches x.1 e = true) →
      h.edges.filter p = g.edges.filter p := by
    intro p hp
    rw [hed, filter_append, (filter_eq_nil_iff (l := l)).2, append_nil]
    intro e he hpe
    exact false_ne_true ((hl e he).symm.trans (hp e hpe))
  rw [moved, moved, externalEdges, externalEdges, carryEdges, carryEdges, readerEdges,
    readerEdges, key, key, key]
  all_goals
    intro e he
    rw [touches]
    cases hout : e.1.isOut x.1.id <;> cases hn : e.2.isNode x.1.id <;> simp_all

lemma foldl_moveMember_edges (h : Apart g f ms) {ps : List (Member × Ports)}
    (hps : ∀ x ∈ ps, x.1 ∈ ms) {g' : Graph}
    (hmo : ∀ x ∈ ps, moved f g' x = moved f g x) :
    (ps.foldl (moveMember f) g').edges = g'.edges ++ ps.flatMap (moved f g) := by
  induction ps generalizing g' with
  | nil => exact (append_nil _).symm
  | cons x ps ih =>
    have hx := hmo x (.head _)
    have hst : (moveMember f g' x).edges = g'.edges ++ moved f g x := by
      rw [← hx]
      rfl
    rw [foldl_cons, ih (fun y hy => hps y (.tail _ hy)), hst, flatMap_cons, append_assoc]
    intro y hy
    rw [moved_congr hst fun e he => h.touches_moved (hps x (.head _)) (hps y (.tail _ hy)) he]
    exact hmo y (.tail _ hy)

lemma foldl_delNode_edges (ms : List Member) (g : Graph) :
    (ms.foldl (fun g m => g.delNode m.id) g).edges = g.edges.filter fun e =>
    ms.all fun m => !touches m e := by
  induction ms generalizing g with
  | nil => simp
  | cons m ms ih =>
    rw [foldl_cons, ih, Graph.delNode, filter_filter]
    refine filter_congr fun e _ => ?_
    rw [all_cons, touches, Bool.not_or, Bool.and_comm]

lemma foldl_moveMember_nodes (ps : List (Member × Ports)) (g : Graph) :
    (ps.foldl (moveMember f) g).nodes = g.nodes := by
  induction ps generalizing g with
  | nil => rfl
  | cons x ps ih => exact ih _

lemma foldl_delNode_attrs (ms : List Member) (g : Graph) :
    (ms.foldl (fun g m => g.delNode m.id) g).attrs = g.attrs := by
  induction ms generalizing g with
  | nil => rfl
  | cons m ms ih => exact ih _

/-! ## Renaming -/

section

variable {ps : List (Member × Ports)} {x : Member × Ports}

section

variable (hnodup : (ps.map (·.1.id)).Nodup) (hx : x ∈ ps)
include hnodup hx

lemma find?_part : ps.find? (·.1.id == x.1.id) = some x := (find?_map_eq_some hnodup).2 ⟨hx, rfl⟩

lemma renamePin_of_mem (q : ℕ) : renamePin f ps (.out x.1.id q) = .out f (x.2.output q) := by
  rw [renamePin, find?_part hnodup hx]

lemma renameSink_of_mem (p : ℕ) : renameSink f ps (.node x.1.id p) = .node f (x.2.input p) := by
  rw [renameSink, find?_part hnodup hx]

end

lemma renamePin_of_not {pin : Pin} (h : ∀ x ∈ ps, pin.isOut x.1.id = false) :
    renamePin f ps pin = pin := by
  cases pin with
  | out n q =>
    rw [renamePin]
    split
    next x hx =>
      have hn := find?_some hx
      have := h x (mem_of_find?_eq_some hx)
      rw [isOut_out, BEq.comm, hn] at this
      exact absurd this (by simp)
    next => rfl
  | _ => rfl

lemma renameSink_of_not {s : Sink} (h : ∀ x ∈ ps, s.isNode x.1.id = false) :
    renameSink f ps s = s := by
  cases s with
  | node n p =>
    rw [renameSink]
    split
    next x hx =>
      have hn := find?_some hx
      have := h x (mem_of_find?_eq_some hx)
      rw [isNode_node, BEq.comm, hn] at this
      exact absurd this (by simp)
    next => rfl
  | output p => rfl

end

/-! ## The whole -/

/-- The edges that are kept. -/
def kept (ps : List (Member × Ports)) (e : Pin × Sink) : Bool := ps.all fun x => !indexEdge x.1 e

lemma indexEdge_isNode {m : Member} {e : Pin × Sink} (h : indexEdge m e = true) :
    e.2.isNode m.id = true ∧ e.1.isOut m.id = false := by
  rw [indexEdge] at h
  split at h
  next n p hs =>
    rw [and_eq_true, and_eq_true, not_eq_true'] at h
    rw [hs]
    exact h.1
  next => exact absurd h false_ne_true

namespace Apart

variable {ps : List (Member × Ports)} {x y : Member × Ports} {e : Pin × Sink}

section

variable (h : Apart g f (ps.map (·.1)))
include h

lemma touches_unique (hx : x ∈ ps) (hy : y ∈ ps) (he : e ∈ g.edges)
    (hex : touches x.1 e = true) (hey : touches y.1 e = true) : x.1.id = y.1.id := by
  have hx := mem_map_of_mem (f := (·.1)) hx
  have hy := mem_map_of_mem (f := (·.1)) hy
  rcases or_eq_true_iff.1 hex with hex | hex <;> rcases or_eq_true_iff.1 hey with hey | hey
  · obtain ⟨q, hq⟩ := isOut_iff.1 hex
    rw [hq] at hey
    exact beq_iff_eq.1 hey
  · exact h.edge e he _ hx _ hy hex hey
  · exact (h.edge e he _ hy _ hx hey hex).symm
  · obtain ⟨q, hq⟩ := isNode_iff.1 hex
    rw [hq] at hey
    exact beq_iff_eq.1 hey

lemma nodup_ids : (ps.map (·.1.id)).Nodup := by
  have := h.nodup
  rw [map_map] at this
  exact this

/-- The edges of a member that are kept. -/
lemma perm_touches (hx : x ∈ ps) :
    (externalEdges g x.1 ++ carryEdges g x.1 ++ readerEdges g x.1).Perm
    ((g.edges.filter (kept ps)).filter (touches x.1)) := by
  have hke : ∀ e ∈ g.edges, touches x.1 e = true → kept ps e = !indexEdge x.1 e := by
    intro e he hex
    rw [kept, Bool.eq_iff_iff, all_eq_true]
    constructor
    · exact fun hall => hall x hx
    · intro hnot y hy
      cases hey : indexEdge y.1 e with
      | false => rfl
      | true =>
        have hto : touches y.1 e = true := by rw [touches, (indexEdge_isNode hey).1, Bool.or_true]
        have hxy := inj_on_of_nodup_map h.nodup_ids hx hy (h.touches_unique hx hy he hex hto)
        rw [← hxy] at hey
        rwa [hey] at hnot
  rw [perm_iff_count]
  intro e
  by_cases he : e ∈ g.edges
  · rw [count_append, count_append, externalEdges, carryEdges, readerEdges, filter_filter]
    have hc : ∀ p : Pin × Sink → Bool, (g.edges.filter p).count e = if p e then g.edges.count e
        else 0 := by
      intro p
      cases hp : p e with
      | true => rw [count_filter hp]; rfl
      | false =>
        refine count_eq_zero.2 fun hmem => ?_
        rw [(mem_filter.1 hmem).2] at hp
        exact absurd hp (by simp)
    rw [hc, hc, hc, hc]
    have hin := indexEdge_isNode (m := x.1) (e := e)
    cases hto : touches x.1 e with
    | false =>
      obtain ⟨hout, hn⟩ := or_eq_false_iff.1 hto
      rw [hout, hn]
      rfl
    | true =>
      rw [hke e he hto]
      rw [touches] at hto
      cases hout : e.1.isOut x.1.id <;> cases hn : e.2.isNode x.1.id <;> cases hi :
        indexEdge x.1 e <;> simp_all
  · have h0 : ∀ p : Pin × Sink → Bool, (g.edges.filter p).count e = 0 :=
      fun p => count_eq_zero.2 fun hmem => he (mem_filter.1 hmem).1
    rw [count_append, count_append, filter_filter, externalEdges, carryEdges,
      readerEdges, h0, h0, h0, h0]

lemma moved_eq (hx : x ∈ ps) :
    moved f g x = (externalEdges g x.1 ++ carryEdges g x.1 ++ readerEdges g x.1).map
      (Prod.map (renamePin f ps) (renameSink f ps)) := by
  have hid := h.nodup_ids
  have hpin : ∀ pin : Pin, pin.isOut x.1.id = true → movePin f x pin = renamePin f ps pin := by
    intro pin hpin
    obtain ⟨q, rfl⟩ := isOut_iff.1 hpin
    rw [renamePin_of_mem hid hx, movePin, if_pos rfl]
  have hsi : ∀ s : Sink, s.isNode x.1.id = true → moveSink f x s = renameSink f ps s := by
    intro s hs
    obtain ⟨p, rfl⟩ := isNode_iff.1 hs
    rw [renameSink_of_mem hid hx, moveSink, if_pos rfl]
  rw [moved, map_append, map_append]
  congr 1
  · congr 1
    · refine map_congr_left fun e he => Prod.ext ?_ ?_
      · obtain ⟨he, hc⟩ := mem_filter.1 he
        rw [and_eq_true, and_eq_true, not_eq_true'] at hc
        refine (renamePin_of_not fun y hy => ?_).symm
        cases hout : e.1.isOut y.1.id with
        | false => exact hout
        | true =>
          have := h.edge e he _ (mem_map_of_mem hy) _ (mem_map_of_mem hx) hout hc.1.1
          rw [this] at hout
          exact absurd (hout.symm.trans hc.1.2) (by simp)
      · obtain ⟨-, hc⟩ := mem_filter.1 he
        rw [and_eq_true, and_eq_true] at hc
        exact hsi _ hc.1.1
    · refine map_congr_left fun e he => ?_
      obtain ⟨-, hc⟩ := mem_filter.1 he
      rw [and_eq_true] at hc
      exact Prod.ext (hpin _ hc.2) (hsi _ hc.1)
  · refine map_congr_left fun e he => Prod.ext ?_ ?_
    · obtain ⟨-, hc⟩ := mem_filter.1 he
      rw [and_eq_true] at hc
      exact hpin _ hc.2
    · obtain ⟨he, hc⟩ := mem_filter.1 he
      rw [and_eq_true, not_eq_true'] at hc
      refine (renameSink_of_not fun y hy => ?_).symm
      cases hn : e.2.isNode y.1.id with
      | false => exact hn
      | true =>
        have := h.edge e he _ (mem_map_of_mem hx) _ (mem_map_of_mem hy) hc.2 hn
        rw [← this] at hn
        exact absurd (hn.symm.trans hc.1) (by simp)

/-- The edges that are left and those that are moved are the kept ones with both ends renamed. -/
lemma edges_perm : ((g.edges.filter fun e => (ps.map (·.1)).all fun m => !touches m e) ++
    ps.flatMap (moved f g)).Perm
      ((g.edges.filter (kept ps)).map (Prod.map (renamePin f ps) (renameSink f ps))) := by
  have hpr : ps.Pairwise fun x y =>
      ∀ e ∈ g.edges.filter (kept ps), touches x.1 e = true → touches y.1 e = false := by
    have hne := pairwise_map.1 h.nodup_ids
    rw [pairwise_iff_forall_sublist] at hne ⊢
    intro x y hxy e he hex
    have hx := hxy.subset (.head _)
    have hy := hxy.subset (.tail _ (.head _))
    cases hey : touches y.1 e with
    | false => rfl
    | true => exact absurd (h.touches_unique hx hy (mem_filter.1 he).1 hex hey) (hne hxy)
  have hpa := (perm_filter_append_flatMap hpr).map (Prod.map (renamePin f ps) (renameSink f ps))
  · rw [map_append, map_flatMap] at hpa
    refine .trans (.append (.of_eq ?_) (.flatMap_left _ fun x hx => ?_)) hpa
    · have hun : ∀ e : Pin × Sink, ((ps.map (·.1)).all fun m => !touches m e) = ps.all fun x =>
          !touches x.1 e := by
        intro e
        rw [all_map]
        rfl
      rw [filter_filter, ← map_id (g.edges.filter _)]
      have hfi : (g.edges.filter fun e => (ps.map (·.1)).all fun m => !touches m e) =
          g.edges.filter fun e => (ps.all fun x => !touches x.1 e) && kept ps e := by
        refine filter_congr fun e _ => ?_
        rw [hun, Bool.eq_iff_iff, and_eq_true, iff_self_and]
        intro hall
        refine all_eq_true.2 fun x hx => ?_
        have hx := all_eq_true.1 hall x hx
        cases hi : indexEdge x.1 e with
        | false => rfl
        | true => rwa [touches, (indexEdge_isNode hi).1, Bool.or_true] at hx
      rw [hfi]
      refine map_congr_left fun e he => ?_
      have hall := all_eq_true.1 (and_eq_true _ _ ▸ (mem_filter.1 he).2).1
      have hnot : ∀ x ∈ ps, e.1.isOut x.1.id = false ∧ e.2.isNode x.1.id = false :=
        fun x hx => or_eq_false_iff.1 (not_eq_true' _ ▸ hall x hx)
      exact (Prod.ext (renamePin_of_not fun x hx => (hnot x hx).1)
        (renameSink_of_not fun x hx => (hnot x hx).2)).symm
    · rw [h.moved_eq hx]
      exact (h.perm_touches hx).map _

end

end Apart

end LiveHD.Sim.Fuse
