import LiveHD.Lib.Topological

/-!
# The emission order

`comb_emit_order` of `split_selfref.cpp`: a stable topological sort of the nodes that a backend
places, which forces an instance when it stalls on a cycle and appends what no instance can cut.
-/

namespace LiveHD.EmitOrder

open Relation Function List

/-- The kinds of `Ntype_op` that the placement tells apart. -/
inductive Op where
  | io | clockCell
  /-- `Flop`, `Latch`, `Memory` and `Fflop`. -/
  | register
  | sub
  /-- Any other cell. -/
  | comb
deriving DecidableEq

/-- The nodes of a body in storage order, their kinds, and for each node the masters of the drivers
of its sinks, in the order of its pins; an invalid or a constant driver has none. -/
structure Body where
  nodes : List ℕ
  op : ℕ → Op
  drivers : ℕ → List (Option ℕ)
  nodup : nodes.Nodup

def Op.placeable : Op → Bool
  | .io | .clockCell | .register => false
  | .sub | .comb => true

namespace Body

variable (g : Body)

/-- The local `nodes`; a node is known by its index in it. -/
def placed : List ℕ := g.nodes.filter fun n => (g.op n).placeable

def total : ℕ := g.placed.length

/-- The drivers of the node at index `i` that count, with one entry a sink edge. -/
def preds (i : ℕ) : List ℕ :=
  match g.placed[i]? with
  | none => []
  | some n => (g.drivers n).filterMap fun d => d.bind fun m =>
    if m ∈ g.placed ∧ g.placed.idxOf m ≠ i then some (g.placed.idxOf m) else none

/-- `succ`, with one entry a sink edge. -/
def succ (i : ℕ) : List ℕ := (List.range g.total).flatMap fun j =>
    ((g.preds j).filter (· = i)).map fun _ => j

def isSub (i : ℕ) : Bool := (g.placed[i]?).any fun n => g.op n == .sub

end Body

/-- The variables of the loop; `done` is the length of `order`. -/
structure State where
  indeg : ℕ → ℤ
  ready : List ℕ
  emitted : ℕ → Bool
  order : List ℕ
  cut : List ℕ

namespace State

variable (g : Body) (s : State)

/-- The lowest instance that is not emitted. -/
def forced : Option ℕ := (List.range g.total).find? fun i => !s.emitted i && g.isSub i

/-- One decrement after an emission. -/
def release (s : State) (j : ℕ) : State :=
  let indeg := Function.update s.indeg j (s.indeg j - 1)
  { s with indeg, ready := if indeg j = 0 ∧ s.emitted j = false then s.ready ++ [j] else s.ready }

/-- The end of an iteration, `i` being taken from the queue. -/
def emit (i : ℕ) : State :=
  if s.emitted i then s
  else (g.succ i).foldl release { s with
      emitted := Function.update s.emitted i true
      order := s.order ++ [i] }

/-- A stalled loop forces an instance through the queue; `none` when there is none. -/
def stall : Option State :=
  if s.ready = [] then (s.forced g).map fun i =>
    { s with ready := [i], cut := s.cut ++ [i] } else some s

/-- One iteration of the loop, which takes the least entry of the queue; `none` when it breaks. -/
def step : Option State :=
  (s.stall g).bind fun s => s.ready.min?.map fun i =>
    ({ s with ready := s.ready.erase i } : State).emit g i

/-- The loop, `none` when it is not over after `fuel` iterations. -/
def loop : ℕ → State → Option State
  | 0, s => if s.order.length < g.total then none else some s
  | fuel + 1, s =>
    if s.order.length < g.total then
      match s.step g with
      | none => some s
      | some s' => loop fuel s'
    else some s

end State

def start (g : Body) : State where
  indeg i := (g.preds i).length
  ready := (List.range g.total).filter fun i => ((g.preds i).length : ℤ) = 0
  emitted _ := false
  order := []
  cut := []

/-- What `comb_emit_order` leaves in its arguments. -/
structure Emission where
  order : List ℕ
  cutSubs : List ℕ
  residual : List ℕ
deriving DecidableEq

/-- The nodes at the indices. -/
def Body.nodesAt (g : Body) (is : List ℕ) : List ℕ := is.filterMap fun i => g.placed[i]?

/-- `comb_emit_order`; the loop emits a node in each iteration. -/
def combEmitOrder (g : Body) : Option Emission :=
  ((start g).loop g g.total).map fun s =>
    let residual := (List.range g.total).filter fun i => !s.emitted i
    { order := g.nodesAt (s.order ++ residual)
      cutSubs := g.nodesAt s.cut
      residual := g.nodesAt residual }

/-! ## The loop -/

section

variable {g : Body} {s : State}

/-- The drivers of `i` that are not emitted. -/
def unplaced (g : Body) (s : State)
    (i : ℕ) : List ℕ := (g.preds i).filter fun p => decide (p ∉ s.order)

/-- `p` drives `q`, which is not cut. -/
def Before (g : Body) (s : State) (p q : ℕ) : Prop := p ∈ g.preds q ∧ q ∉ s.cut

/-- What holds when the releases of `pending` are still to come. -/
structure Inv (g : Body) (s : State) (pending : List ℕ) : Prop where
  nodup : s.order.Nodup
  lt : ∀ i ∈ s.order, i < g.total
  emitted : ∀ i, s.emitted i = true ↔ i ∈ s.order
  indeg : ∀ i < g.total, s.indeg i = (unplaced g s i).length + pending.count i
  ready_nodup : s.ready.Nodup
  ready : ∀ i, i ∈ s.ready ↔ i < g.total ∧ i ∉ s.order ∧ s.indeg i = 0
  topological : Topological (Before g s) s.order

lemma Inv.start (g : Body) : Inv g (start g) [] where
  nodup := nodup_nil
  lt _ h := nomatch h
  emitted _ := by simp [EmitOrder.start]
  indeg i _ := by simp [EmitOrder.start, unplaced]
  ready_nodup := nodup_range.filter _
  ready i := by simp [EmitOrder.start]
  topological := .nil

variable {j : ℕ}

lemma Inv.release {pending : List ℕ} (h : Inv g s (j :: pending)) (hj : j < g.total) :
    Inv g (s.release j) pending := by
  have hin : ∀ i < g.total, (s.release j).indeg i = (unplaced g s i).length + pending.count i := by
    intro i hi
    change update s.indeg j (s.indeg j - 1) i = _
    by_cases hij : i = j
    · subst hij
      rw [update_self, h.indeg i hi, count_cons_self]
      omega
    · rw [update_of_ne hij, h.indeg i hi, count_cons_of_ne (Ne.symm hij)]
  have hpos : s.indeg j ≠ 0 := by
    rw [h.indeg j hj, count_cons_self]
    omega
  have hnot : j ∉ s.ready := fun hmem => hpos ((h.ready j).1 hmem).2.2
  have ho : ∀ i ≠ j, (s.release j).indeg i = s.indeg i := fun i hi => update_of_ne hi _ _
  have hem : s.emitted j = false ↔ j ∉ s.order := by rw [← h.emitted j, Bool.not_eq_true]
  have hr : (s.release j).ready = if (s.release j).indeg j = 0 ∧ s.emitted j = false then
    s.ready ++ [j] else s.ready := rfl
  refine ⟨h.nodup, h.lt, h.emitted, hin, ?_, fun i => ?_, h.topological⟩
  · rw [hr]
    split
    · exact nodup_append.2 ⟨h.ready_nodup, nodup_singleton j, fun a ha b hb hab =>
        hnot (mem_singleton.1 hb ▸ hab ▸ ha)⟩
    · exact h.ready_nodup
  · change i ∈ (s.release j).ready ↔ i < g.total ∧ i ∉ s.order ∧ (s.release j).indeg i = 0
    rw [hr]
    by_cases hij : i = j
    · subst hij
      split
      next h0 =>
        exact ⟨fun _ => ⟨hj, hem.1 h0.2, h0.1⟩, fun _ => mem_append_right _ (mem_singleton_self i)⟩
      next h0 =>
        exact ⟨fun hmem => absurd hmem hnot, fun hmem => absurd ⟨hmem.2.2, hem.2 hmem.2.1⟩ h0⟩
    · rw [ho i hij, ← h.ready i]
      split
      · rw [mem_append, mem_singleton, or_iff_left hij]
      · rfl

lemma Inv.releases {pending : List ℕ} (h : Inv g s pending) (hlt : ∀ j ∈ pending, j < g.total) :
    Inv g (pending.foldl State.release s) [] ∧ (pending.foldl State.release s).order = s.order ∧
      (pending.foldl State.release s).cut = s.cut := by
  induction pending generalizing s with
  | nil => exact ⟨h, rfl, rfl⟩
  | cons j pending ih => exact ih (h.release (hlt j (.head _))) fun i hi => hlt i (.tail _ hi)

variable {i : ℕ}

lemma mem_succ : j ∈ g.succ i ↔ j < g.total ∧ i ∈ g.preds j := by
  simp only [Body.succ, mem_flatMap, mem_range, mem_map, mem_filter, decide_eq_true_eq]
  constructor
  · rintro ⟨k, hk, p, ⟨hp, rfl⟩, rfl⟩
    exact ⟨hk, hp⟩
  · rintro ⟨hj, hi⟩
    exact ⟨j, hj, i, ⟨hi, rfl⟩, rfl⟩

lemma count_succ (hj : j < g.total) : (g.succ i).count j = (g.preds j).count i := by
  have hse : ∀ k, (((g.preds k).filter (· = i)).map fun _ => k).count j = if k = j then
      (g.preds k).count i else 0 := by
    intro k
    rw [map_const', count_replicate, count_eq_length_filter]
    by_cases hkj : k = j
    · rw [if_pos hkj, if_pos (beq_iff_eq.2 hkj)]
      rfl
    · rw [if_neg hkj, if_neg (by rw [beq_iff_eq]; exact hkj)]
  have key : ∀ l : List ℕ, l.Nodup →
      (l.flatMap fun k => ((g.preds k).filter (· = i)).map fun _ => k).count j = if j ∈ l then
      (g.preds j).count i else 0 := by
    intro l hl
    induction l with
    | nil => rfl
    | cons k l ih =>
      obtain ⟨hk, hl⟩ := nodup_cons.1 hl
      rw [flatMap_cons, count_append, hse, ih hl]
      by_cases hkj : k = j
      · subst hkj
        rw [if_pos rfl, if_neg hk, if_pos (.head _), add_zero]
      · rw [if_neg hkj, zero_add]
        by_cases hjl : j ∈ l
        · rw [if_pos hjl, if_pos (.tail _ hjl)]
        · rw [if_neg hjl, if_neg fun h => hjl ((mem_cons.1 h).resolve_left (Ne.symm hkj))]
  rw [Body.succ, key _ nodup_range, if_pos (mem_range.2 hj)]

/-- Once `i` is emitted, one edge of each of its readers is released for each that it drives. -/
lemma length_unplaced (hi : i ∉ s.order) :
    (unplaced g s j).length = ((g.preds j).filter fun p => decide (p ∉ s.order ++ [i])).length +
    (g.preds j).count i := by
  rw [unplaced]
  induction g.preds j with
  | nil => rfl
  | cons p l ih =>
    rw [filter_cons, filter_cons, count_cons]
    by_cases hp : p ∈ s.order
    · have hne : ¬(p == i) = true := by
        rw [beq_iff_eq]
        rintro rfl
        exact hi hp
      rw [if_neg (by simpa using hp), if_neg (by simpa using fun h => absurd hp h),
        if_neg hne, ih, add_zero]
    · rw [if_pos (by simpa using hp), length_cons]
      by_cases hpi : p = i
      · rw [if_neg (by simpa using fun _ => hpi), if_pos (beq_iff_eq.2 hpi)]
        omega
      · rw [if_pos (by simp [hp, hpi]), if_neg (by simpa using hpi), length_cons]
        omega

/-- An iteration takes an index of which all drivers are emitted, the least one of the queue, or an
instance that it cuts because the queue is empty. -/
def Takes (g : Body) (s s' : State) (i : ℕ) : Prop :=
  (i ∈ s.ready ∧ (∀ j ∈ s.ready, i ≤ j) ∧ s'.cut = s.cut) ∨
    (s.ready = [] ∧ s.forced g = some i ∧ s'.cut = s.cut ++ [i])

lemma Inv.emit (h : Inv g s []) (ready cut : List ℕ) (hi : i < g.total)
    (hnot : i ∉ s.order) (hnd : ready.Nodup)
    (hr : ∀ j, j ∈ ready ↔ j ∈ s.ready ∧ j ≠ i) (hcut : ∀ j ∈ s.cut, j ∈ cut)
    (hpr : i ∈ cut ∨ ∀ p ∈ g.preds i, p ∈ s.order) :
    Inv g { s with ready, cut, emitted := update s.emitted i true, order := s.order ++ [i] }
    (g.succ i) where
  nodup := nodup_append.2 ⟨h.nodup, nodup_singleton i,
    fun a ha b hb hab => hnot (mem_singleton.1 hb ▸ hab ▸ ha)⟩
  lt j hj := by
    rcases mem_append.1 hj with hj | hj
    · exact h.lt j hj
    · exact mem_singleton.1 hj ▸ hi
  emitted j := by
    change update s.emitted i true j = true ↔ j ∈ s.order ++ [i]
    rw [mem_append, mem_singleton]
    by_cases hji : j = i
    · rw [hji, update_self]
      exact iff_of_true rfl (.inr rfl)
    · rw [update_of_ne hji, or_iff_left hji]
      exact h.emitted j
  indeg j hj := by
    rw [h.indeg j hj, length_unplaced hnot, count_succ hj]
    exact add_zero _
  ready_nodup := hnd
  ready j := by
    rw [hr, h.ready, mem_append, mem_singleton]
    tauto
  topological := by
    have hsub : ∀ p q, Before g { s with
        ready
        cut
        emitted := update s.emitted i true
        order := s.order ++ [i] } p q →
        Before g s p q := fun p q hpq => ⟨hpq.1, fun hq => hpq.2 (hcut q hq)⟩
    refine .concat (fun before j after heq p hp => h.topological before j after heq p (hsub p j hp))
      fun p hp => ?_
    exact (hpr.resolve_left hp.2) p hp.1

lemma Inv.emit_eq (h : Inv g s []) (hnot : i ∉ s.order) (ready cut : List ℕ) :
    ({ s with ready, cut } : State).emit g i = (g.succ i).foldl State.release
      { s with ready, cut, emitted := update s.emitted i true, order := s.order ++ [i] } := by
  rw [State.emit, if_neg]
  exact fun hem => hnot ((h.emitted i).1 hem)

lemma Inv.step (h : Inv g s []) (hs : s.ready ≠ [] ∨ s.forced g ≠ none) :
    ∃ i s', s.step g = some s' ∧ Inv g s' [] ∧ s'.order = s.order ++ [i] ∧ Takes g s s' i := by
  have hlt : ∀ i, ∀ j ∈ g.succ i, j < g.total := fun i j hj => (mem_succ.1 hj).1
  by_cases hem : s.ready = []
  · obtain ⟨i, hfo⟩ := Option.ne_none_iff_exists'.1 (hs.resolve_left (not_not.2 hem))
    have hf := find?_some hfo
    have hi := mem_range.1 (mem_of_find?_eq_some hfo)
    rw [Bool.and_eq_true, Bool.not_eq_true'] at hf
    have hnot : i ∉ s.order := by
      rw [← h.emitted i, hf.1]
      exact Bool.false_ne_true
    have hinv := h.emit [] (s.cut ++ [i]) hi hnot nodup_nil
      (fun j => by rw [hem]; simp) (fun j hj => mem_append_left _ hj)
        (.inl (mem_append_right _ (mem_singleton_self i)))
    obtain ⟨hin', hor, hcut⟩ := hinv.releases (hlt i)
    refine ⟨i, _, ?_, hin', hor, .inr ⟨hem, hfo, hcut⟩⟩
    rw [State.step, State.stall, if_pos hem, hfo]
    change some (State.emit g { s with ready := [i].erase i, cut := s.cut ++ [i] } i) = _
    rw [erase_cons_head, h.emit_eq hnot]
  · cases hmin : s.ready.min? with
    | none => exact absurd (min?_eq_none_iff.1 hmin) hem
    | some i =>
      obtain ⟨hmem, hle⟩ := min?_eq_some_iff.1 hmin
      obtain ⟨hi, hnot, h0⟩ := (h.ready i).1 hmem
      have hpr : ∀ p ∈ g.preds i, p ∈ s.order := by
        intro p hp
        by_contra hpo
        have hpos : 0 < (unplaced g s i).length :=
          length_pos_of_mem (mem_filter.2 ⟨hp, decide_eq_true hpo⟩)
        rw [h.indeg i hi] at h0
        omega
      have hinv := h.emit (s.ready.erase i) s.cut hi hnot (h.ready_nodup.erase i)
        (fun j => by rw [h.ready_nodup.mem_erase_iff, and_comm]) (fun j hj => hj) (.inr hpr)
      obtain ⟨hin', hor, hcut⟩ := hinv.releases (hlt i)
      refine ⟨i, _, ?_, hin', hor, .inl ⟨hmem, hle, hcut⟩⟩
      rw [State.step, State.stall, if_neg hem]
      change (s.ready.min?.map _) = _
      rw [hmin]
      exact congrArg some (h.emit_eq hnot _ _)

/-- A cut index is an instance, and when it was taken every index that was left waited for
another. -/
def Forced (g : Body) (s : State) (i : ℕ) : Prop :=
  g.isSub i = true ∧ i ∈ s.order ∧ ∀ before after, s.order = before ++ i :: after →
    ∀ j < g.total, j ∉ before → ∃ p ∈ g.preds j, p ∉ before

lemma Inv.waits (h : Inv g s []) (hr : s.ready = []) (hj : j < g.total) (hnot : j ∉ s.order) :
    ∃ p ∈ g.preds j, p ∉ s.order := by
  have hpos : s.indeg j ≠ 0 := by
    intro h0
    have hmem := (h.ready j).2 ⟨hj, hnot, h0⟩
    rw [hr] at hmem
    exact not_mem_nil hmem
  rw [h.indeg j hj, count_nil] at hpos
  obtain ⟨p, hp⟩ := exists_mem_of_length_pos (l := unplaced g s j) (by omega)
  obtain ⟨hp, hpo⟩ := mem_filter.1 hp
  exact ⟨p, hp, of_decide_eq_true hpo⟩

lemma Inv.step_forced (h : Inv g s []) {s' : State} (hs' : Inv g s' [])
    (horder : s'.order = s.order ++ [i])
    (htakes : Takes g s s' i) (hf : ∀ c ∈ s.cut, Forced g s c) : ∀ c ∈ s'.cut, Forced g s' c := by
  have hnd := hs'.nodup
  rw [horder] at hnd
  have hnot : i ∉ s.order := fun hi => (nodup_append.1 hnd).2.2 i hi i (.head _) rfl
  have hold : ∀ c ∈ s.cut, Forced g s' c := by
    intro c hc
    obtain ⟨hsub, hmem, hwait⟩ := hf c hc
    refine ⟨hsub, horder ▸ mem_append_left _ hmem, fun before after heq => ?_⟩
    rw [horder] at heq
    rcases eq_nil_or_concat' after with rfl | ⟨after, x, rfl⟩
    · obtain ⟨-, hci⟩ := append_inj' heq rfl
      exact absurd hmem (singleton_inj.1 hci ▸ hnot)
    · rw [← cons_append, ← append_assoc] at heq
      exact hwait before after (append_inj' heq rfl).1
  rcases htakes with ⟨-, -, hcut⟩ | ⟨hr, hforced, hcut⟩
  · rwa [hcut]
  · rw [hcut]
    refine forall_mem_append.2 ⟨hold,
      forall_mem_singleton.2 ⟨?_, ?_, fun before after heq j hj hjb => ?_⟩⟩
    · have hfind := find?_some hforced
      rw [Bool.and_eq_true] at hfind
      exact hfind.2
    · exact horder ▸ mem_append_right _ (mem_singleton_self i)
    · have hbefore : before = s.order := by
        rw [horder] at heq
        exact ((append_cons_inj_of_notMem hnot not_mem_nil).1 heq).1.symm
      subst hbefore
      exact h.waits hr hj hjb

/-- Every index is emitted, or no index is ready and no instance is left. -/
def Ended (g : Body) (s : State) : Prop := g.total ≤ s.order.length ∨
    s.ready = [] ∧ s.forced g = none

/-- The loop emits a node in each iteration, so it ends. -/
lemma Inv.loop (h : Inv g s []) (hf : ∀ c ∈ s.cut, Forced g s c) (fuel : ℕ)
    (hfu : g.total ≤ s.order.length + fuel) :
    ∃ s', s.loop g fuel = some s' ∧ Inv g s' [] ∧ Ended g s' ∧ ∀ c ∈ s'.cut, Forced g s' c := by
  induction fuel generalizing s with
  | zero => exact ⟨s, if_neg (Nat.not_lt.2 hfu), h, .inl hfu, hf⟩
  | succ fuel ih =>
    rw [State.loop]
    by_cases hdo : s.order.length < g.total
    · rw [if_pos hdo]
      by_cases hs : s.ready ≠ [] ∨ s.forced g ≠ none
      · obtain ⟨i, s', hst, hinv, hor, htakes⟩ := h.step hs
        rw [hst]
        refine ih hinv (h.step_forced hinv hor htakes hf) ?_
        rw [hor, length_append, length_singleton]
        omega
      · obtain ⟨hr, hfo⟩ := not_or.1 hs
        rw [not_not] at hr hfo
        have hbr : s.step g = none := by rw [State.step, State.stall, if_pos hr, hfo]; rfl
        rw [hbr]
        exact ⟨s, rfl, h, .inr ⟨hr, hfo⟩, hf⟩
    · rw [if_neg hdo]
      exact ⟨s, rfl, h, .inl (Nat.not_lt.1 hdo), hf⟩

/-- What the loop leaves for the tail. -/
def rest (g : Body) (s : State) : List ℕ := (List.range g.total).filter fun i => !s.emitted i

lemma Inv.mem_rest (h : Inv g s []) : i ∈ rest g s ↔ i < g.total ∧ i ∉ s.order := by
  rw [rest, mem_filter, mem_range, Bool.not_eq_true', ← Bool.not_eq_true, h.emitted]

lemma Inv.perm (h : Inv g s []) : (s.order ++ rest g s).Perm (List.range g.total) := by
  refine (perm_ext_iff_of_nodup (nodup_append.2 ⟨h.nodup, nodup_range.filter _, ?_⟩) nodup_range).2
    fun i => ?_
  · rintro i hi j hj rfl
    exact (h.mem_rest.1 hj).2 hi
  · rw [mem_append, mem_range]
    change i ∈ s.order ∨ i ∈ rest g s ↔ _
    rw [h.mem_rest]
    exact ⟨fun hi => hi.elim (h.lt i) (·.1),
      fun hi => (em (i ∈ s.order)).imp_right fun hnot => ⟨hi, hnot⟩⟩

/-- What is left when the loop ends is driven by what is left, and holds no instance. -/
lemma Inv.rest_driven (h : Inv g s []) (hend : Ended g s) (hi : i ∈ rest g s) :
    g.isSub i = false ∧ ∃ p ∈ g.preds i, p ∉ s.order := by
  obtain ⟨hlt, hnot⟩ := h.mem_rest.1 hi
  rcases hend with hlen | ⟨hr, hfo⟩
  · have hle := h.perm.length_eq
    rw [length_append, length_range] at hle
    have := length_pos_of_mem hi
    omega
  · constructor
    · by_contra hsub
      refine find?_eq_none.1 hfo i (mem_range.2 hlt) ?_
      rw [Bool.and_eq_true, Bool.not_eq_true', ← Bool.not_eq_true, h.emitted]
      exact ⟨hnot, Bool.eq_true_of_not_eq_false hsub⟩
    · exact h.waits hr hlt hnot

/-- In a storage order that is topological already, the least index that is not emitted is always
ready. -/
lemma Inv.sorted (h : Inv g s []) (hsrt : ∀ i, ∀ p ∈ g.preds i, p < i) {k : ℕ}
    (hor : s.order = List.range k)
    (hcut : s.cut = []) {fuel : ℕ} {s' : State} (hlo : s.loop g fuel = some s') (hk : k ≤ g.total) :
    s'.order = List.range g.total ∧ s'.cut = [] := by
  induction fuel generalizing s k with
  | zero =>
    rw [State.loop] at hlo
    split at hlo
    · cases hlo
    · cases hlo
      rename_i hlen
      rw [hor, length_range] at hlen
      rw [hor, hcut, le_antisymm hk (Nat.not_lt.1 hlen)]
      exact ⟨rfl, rfl⟩
  | succ fuel ih =>
    rw [State.loop] at hlo
    split at hlo
    next hlen =>
      rw [hor, length_range] at hlen
      have hmem : k ∈ s.ready := by
        refine (h.ready k).2 ⟨hlen, ?_, ?_⟩
        · rw [hor, mem_range]
          exact lt_irrefl k
        · rw [h.indeg k hlen]
          have hnil : unplaced g s k = [] := by
            refine filter_eq_nil_iff.2 fun p hp hpo => of_decide_eq_true hpo ?_
            rw [hor, mem_range]
            exact hsrt k p hp
          rw [hnil]
          rfl
      obtain ⟨i, s₁, hst, hinv, hemi, hta⟩ := h.step (.inl (ne_nil_of_mem hmem))
      rw [hst] at hlo
      rcases hta with ⟨hi, hle, hcu'⟩ | ⟨hem, -⟩
      · have hik : i = k := by
          refine le_antisymm (hle k hmem) ?_
          have hnot := ((h.ready i).1 hi).2.1
          rw [hor, mem_range] at hnot
          exact Nat.not_lt.1 hnot
        subst hik
        refine ih hinv ?_ (hcu'.trans hcut) hlo hlen
        rw [hemi, hor, range_succ]
      · rw [hem] at hmem
        cases hmem
    · cases hlo
      rename_i hlen
      rw [hor, length_range] at hlen
      rw [hor, hcut, le_antisymm hk (Nat.not_lt.1 hlen)]
      exact ⟨rfl, rfl⟩

/-! ## The nodes -/

/-- An edge between two placeable nodes. -/
def Body.Edge (g : Body) (u v : ℕ) : Prop := u ∈ g.placed ∧ v ∈ g.placed ∧
    u ≠ v ∧ some u ∈ g.drivers v

/-- An edge that no instance can cut. -/
def Body.CombEdge (g : Body) (u v : ℕ) : Prop := g.Edge u v ∧ g.op u ≠ .sub ∧ g.op v ≠ .sub

lemma placed_nodup (g : Body) : g.placed.Nodup := g.nodup.filter _

variable {v : ℕ}

lemma Body.Edge.mem_preds {u : ℕ} (h : g.Edge u v) (hi : g.placed[i]? = some u)
    (hj : g.placed[j]? = some v) : i ∈ g.preds j := by
  obtain ⟨hu, -, hne, hdr⟩ := h
  have hiu : g.placed.idxOf u = i := by
    obtain ⟨hlt, rfl⟩ := List.getElem?_eq_some_iff.1 hi
    exact (placed_nodup g).idxOf_getElem i hlt
  have hij : g.placed.idxOf u ≠ j := by
    rw [hiu]
    rintro rfl
    exact hne (Option.some.inj (hi.symm.trans hj))
  rw [preds, hj]
  refine mem_filterMap.2 ⟨some u, hdr, ?_⟩
  change (if u ∈ g.placed ∧ g.placed.idxOf u ≠ j then some (g.placed.idxOf u) else none) = some i
  rw [if_pos ⟨hu, hij⟩, hiu]

lemma edge_of_mem_preds (h : i ∈ g.preds j) :
    ∃ u v, g.placed[i]? = some u ∧ g.placed[j]? = some v ∧ g.Edge u v := by
  rw [Body.preds] at h
  cases hj : g.placed[j]? with
  | none =>
    rw [hj] at h
    cases h
  | some v =>
    rw [hj] at h
    obtain ⟨d, hd, hbi⟩ := mem_filterMap.1 h
    obtain ⟨u, rfl, hif⟩ := Option.bind_eq_some_iff.1 hbi
    split at hif
    next hu =>
      cases hif
      have hi := getElem?_idxOf hu.1
      refine ⟨u, v, hi, rfl, hu.1, mem_of_getElem? hj, ?_, hd⟩
      rintro rfl
      obtain ⟨hlt, hget⟩ := List.getElem?_eq_some_iff.1 hj
      refine hu.2 ?_
      rw [← hget]
      exact (placed_nodup g).idxOf_getElem j hlt
    · cases hif

variable {is : List ℕ}

lemma mem_nodesAt : v ∈ g.nodesAt is ↔ ∃ i ∈ is, g.placed[i]? = some v := mem_filterMap

lemma nodesAt_append (is js : List ℕ) :
    g.nodesAt (is ++ js) = g.nodesAt is ++ g.nodesAt js := filterMap_append

lemma nodesAt_range (g : Body) : g.nodesAt (List.range g.total) = g.placed := by
  have key : ∀ l : List ℕ, (range l.length).filterMap (fun i => l[i]?) = l := by
    intro l
    induction l with
    | nil => rfl
    | cons a l ih =>
      rw [length_cons, range_succ_eq_map, filterMap_cons_some getElem?_cons_zero, filterMap_map]
      exact congrArg _ ih
  exact key g.placed

/-- Membership of a node is membership of its index. -/
lemma mem_nodesAt_iff (hi : g.placed[i]? = some v) : v ∈ g.nodesAt is ↔ i ∈ is := by
  rw [mem_nodesAt]
  refine ⟨fun ⟨j, hj, hjv⟩ => ?_, fun h => ⟨i, h, hi⟩⟩
  obtain ⟨hlt, -⟩ := List.getElem?_eq_some_iff.1 hi
  have heq := (getElem?_inj hlt (placed_nodup g)).1 (hi.trans hjv.symm)
  rwa [heq]

lemma idxOf_lt_idxOf {l before after : List ℕ} {u : ℕ} (hl : l = before ++ v :: after)
    (hnd : l.Nodup) (hu : u ∈ before) :
    l.idxOf u < l.idxOf v := by
  have hv : v ∉ before := by
    intro hv
    rw [hl] at hnd
    exact (nodup_append.1 hnd).2.2 v hv v (.head _) rfl
  rw [hl, idxOf_append_of_mem hu, idxOf_append_of_notMem hv, idxOf_cons_self]
  exact idxOf_lt_length_iff.2 hu

/-- `order` holds each placeable node once, each after what drives it unless it is cut or part of
the tail. -/
structure Schedules (g : Body) (e : Emission) : Prop where
  perm : e.order.Perm g.placed
  before : ∀ u v, g.Edge u v → v ∉ e.cutSubs → v ∉ e.residual → e.order.idxOf u < e.order.idxOf v
  /-- An instance is cut only when every node that is left is driven by one that is left. -/
  cut : ∀ v ∈ e.cutSubs, g.op v = .sub ∧ ∀ before after, e.order = before ++ v :: after →
    ∀ w ∈ v :: after, ∃ u ∉ before, g.Edge u w
  tail : ∃ emitted, e.order = emitted ++ e.residual ∧ e.residual.Sublist g.placed
  residual : (∀ v, ¬TransGen g.CombEdge v v) → e.residual = []
  storage : (∀ u v, g.Edge u v → g.placed.idxOf u < g.placed.idxOf v) → e.order = g.placed ∧
    e.cutSubs = [] ∧ e.residual = []

/-- The edges out of the tail stay in the tail, and none of its nodes is an instance. -/
lemma Inv.tail_driven (h : Inv g s []) (hend : Ended g s) (hv : v ∈ g.nodesAt (rest g s)) :
    ∃ u ∈ g.nodesAt (rest g s), g.CombEdge u v := by
  have hno : ∀ {i w}, i ∈ rest g s → g.placed[i]? = some w → g.op w ≠ .sub := by
    intro i w hi hw hsub
    have hf := (h.rest_driven hend hi).1
    rw [Body.isSub, hw, Option.any_some, hsub] at hf
    cases hf
  obtain ⟨j, hj, hjv⟩ := mem_nodesAt.1 hv
  obtain ⟨i, hi, hnot⟩ := (h.rest_driven hend hj).2
  obtain ⟨u, w, hiu, hjw, hed⟩ := edge_of_mem_preds hi
  cases (hjv.symm.trans hjw)
  have hr := h.mem_rest.2 ⟨(List.getElem?_eq_some_iff.1 hiu).1, hnot⟩
  exact ⟨u, mem_nodesAt.2 ⟨i, hr, hiu⟩, hed, hno hr hiu, hno hj hjv⟩

/-- A cut node is an instance, and every node from it on waits for one of them. -/
lemma Inv.cut_spec (h : Inv g s []) (hforced : ∀ c ∈ s.cut, Forced g s c)
    (hv : v ∈ g.nodesAt s.cut) :
    g.op v = .sub ∧ ∀ before after, g.nodesAt (s.order ++ rest g s) = before ++ v :: after →
      ∀ w ∈ v :: after, ∃ u ∉ before, g.Edge u w := by
  obtain ⟨i, hi, hiv⟩ := mem_nodesAt.1 hv
  obtain ⟨hsub, hmem, hwait⟩ := hforced i hi
  rw [Body.isSub, hiv, Option.any_some, beq_iff_eq] at hsub
  refine ⟨hsub, fun before after heq w hw => ?_⟩
  obtain ⟨is, js, horder⟩ := append_of_mem hmem
  have hnd : (before ++ v :: after).Nodup := by
    rw [← heq]
    exact ((h.perm.filterMap _).trans (.of_eq (nodesAt_range g))).nodup_iff.2 (placed_nodup g)
  have hsplit : before = g.nodesAt is := by
    rw [horder, append_assoc, cons_append, nodesAt_append] at heq
    have hcons : g.nodesAt (i :: (js ++ rest g s)) =
      v :: g.nodesAt (js ++ rest g s) := filterMap_cons_some hiv
    rw [hcons] at heq
    have hnd' := hnd
    rw [← heq] at hnd'
    refine ((append_cons_inj_of_notMem (fun hv => ?_) fun hv => ?_).1 heq).1.symm
    · exact (nodup_append.1 hnd').2.2 v hv v (.head _) rfl
    · exact (nodup_cons.1 (nodup_append.1 hnd').2.1).1 hv
  have hwp : w ∈ g.placed := by
    have hall : w ∈ g.nodesAt (s.order ++ rest g s) := heq ▸ mem_append_right _ hw
    rw [← nodesAt_range g]
    exact (h.perm.filterMap _).mem_iff.1 hall
  obtain ⟨j, hj⟩ := mem_iff_getElem?.1 hwp
  have hjb : j ∉ is := by
    intro hji
    exact (nodup_append.1 hnd).2.2 w (hsplit ▸ (mem_nodesAt_iff hj).2 hji) w hw rfl
  obtain ⟨p, hp, hpb⟩ := hwait is js horder j (List.getElem?_eq_some_iff.1 hj).1 hjb
  obtain ⟨u, w', hu, hw', hedge⟩ := edge_of_mem_preds hp
  cases hj.symm.trans hw'
  exact ⟨u, fun hub => hpb ((mem_nodesAt_iff hu).1 (hsplit ▸ hub)), hedge⟩

/-- The emission order is a safe schedule. -/
theorem combEmitOrder_schedules (g : Body) : ∃ e, combEmitOrder g = some e ∧ Schedules g e := by
  obtain ⟨s, hloop, hinv, hend, hforced⟩ := (Inv.start g).loop nofun g.total (Nat.le_add_left _ _)
  have hperm : (g.nodesAt (s.order ++ rest g s)).Perm g.placed := by
    rw [← nodesAt_range g]
    exact hinv.perm.filterMap _
  refine ⟨⟨g.nodesAt (s.order ++ rest g s), g.nodesAt s.cut,
    g.nodesAt (rest g s)⟩, by rw [combEmitOrder, hloop]; rfl, ?_⟩
  refine ⟨hperm, fun u v hedge hcut hrest => ?_, fun v hv => hinv.cut_spec hforced hv,
    ⟨g.nodesAt s.order, nodesAt_append _ _, ?_⟩, fun hacyclic => ?_, fun hstorage => ?_⟩
  · obtain ⟨i, hi⟩ := mem_iff_getElem?.1 hedge.1
    obtain ⟨j, hj⟩ := mem_iff_getElem?.1 hedge.2.1
    rw [mem_nodesAt_iff hj] at hcut hrest
    have hmem : j ∈ s.order := by
      by_contra hnot
      exact hrest (hinv.mem_rest.2 ⟨(List.getElem?_eq_some_iff.1 hj).1, hnot⟩)
    obtain ⟨before, after, heq⟩ := append_of_mem hmem
    have hbefore := hinv.topological before j after heq i ⟨hedge.mem_preds hi hj, hcut⟩
    have hsplit : g.nodesAt (s.order ++ rest g s) =
        g.nodesAt before ++ v :: g.nodesAt (after ++ rest g s) := by
      rw [heq, append_assoc, nodesAt_append]
      exact congrArg _ (filterMap_cons_some hj)
    exact idxOf_lt_idxOf hsplit (hperm.nodup_iff.2 (placed_nodup g))
      ((mem_nodesAt_iff hi).2 hbefore)
  · have hsub : (g.nodesAt (rest g s)).Sublist (g.nodesAt (range g.total)) :=
      filter_sublist.filterMap _
    rwa [nodesAt_range] at hsub
  · by_contra hne
    obtain ⟨v, hcycle⟩ := exists_transGen_self (exists_mem_of_ne_nil _ hne) fun v hv =>
      hinv.tail_driven hend hv
    exact hacyclic v hcycle
  · have hsorted : ∀ j, ∀ i ∈ g.preds j, i < j := by
      intro j i hi
      obtain ⟨u, v, hiu, hjv, hedge⟩ := edge_of_mem_preds hi
      have hlt := hstorage u v hedge
      obtain ⟨hi', rfl⟩ := List.getElem?_eq_some_iff.1 hiu
      obtain ⟨hj', rfl⟩ := List.getElem?_eq_some_iff.1 hjv
      rwa [(placed_nodup g).idxOf_getElem, (placed_nodup g).idxOf_getElem] at hlt
    obtain ⟨horder, hcut⟩ := (Inv.start g).sorted hsorted rfl rfl hloop (Nat.zero_le _)
    have hrest : rest g s = [] := by
      refine eq_nil_iff_forall_not_mem.2 fun i hi => ?_
      obtain ⟨hlt, hnot⟩ := hinv.mem_rest.1 hi
      exact hnot (by rw [horder]; exact mem_range.2 hlt)
    rw [hrest, hcut, horder, append_nil, nodesAt_range]
    exact ⟨rfl, rfl, rfl⟩

end

end LiveHD.EmitOrder
