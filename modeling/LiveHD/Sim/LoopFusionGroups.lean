import LiveHD.Sim.LoopFusionMarks
import LiveHD.Lib.Lists

/-!
# The groups of loops

The traversal visits the nodes in a topological order and keeps, for each node, the loops that reach
it.  What is left when every node is visited are groups of plain loops of one domain, in the order
of the visit and with no path between two members.
-/

namespace LiveHD.Sim.Fuse

open Relation List Option TransGen

variable (lib : Library) (g : Graph)

/-- The dependency of the traversal. -/
def Needs (p s : ℕ) : Prop := (p, s) ∈ deps g

def loopsOf (order : List ℕ) : List ℕ := order.filter fun id => (g.loop? id).isSome

variable {lib g}

lemma mem_successors {id x : ℕ} : x ∈ successors g id ↔ Needs g id x := by
  constructor
  · intro h
    obtain ⟨⟨p, s⟩, hd, rfl⟩ := mem_map.1 h
    obtain ⟨hd, hp⟩ := mem_filter.1 hd
    rwa [← of_decide_eq_true hp]
  · intro h
    exact mem_map.2 ⟨(id, x), mem_filter.2 ⟨h, decide_eq_true rfl⟩, rfl⟩

lemma Needs.live {p s : ℕ} (h : Needs g p s) : p ∈ g.live ∧ s ∈ g.live := by
  obtain ⟨sink, hsi, h⟩ := mem_flatMap.1 h
  obtain ⟨e, -, h⟩ := mem_filterMap.1 h
  split at h
  next =>
    split at h
    next hc =>
      cases (Option.some.inj h)
      exact ⟨hc.2.2, hsi⟩
    next => exact absurd h (by simp)
  next => exact absurd h (by simp)

/-! ## The queue -/

/-- The visited nodes are in topological order, and a node in the queue waits for no other. -/
structure Queue (g : Graph) (s : Visit) : Prop where
  nodup : (s.visited ++ s.ready).Nodup
  live : ∀ id ∈ s.visited ++ s.ready, id ∈ g.live
  topological : Topological (Needs g) s.visited
  indegree : ∀ x, s.indegree x = (deps g).countP fun d => d.2 = x ∧ d.1 ∉ s.visited
  ready : ∀ x ∈ s.ready, ∀ p, Needs g p x → p ∈ s.visited

lemma count_successors (id x : ℕ) : (successors g id).count x = (deps g).countP fun d =>
    d.2 = x ∧ d.1 = id := by
  rw [successors, count_eq_countP, countP_map, countP_filter]
  refine countP_congr fun d _ => ?_
  simp

lemma countP_visited {l : List (ℕ × ℕ)} {order : List ℕ} {id : ℕ} (hid : id ∉ order) (x : ℕ) :
    (l.countP fun d => d.2 = x ∧ d.1 ∉ order) =
      (l.countP fun d => d.2 = x ∧ d.1 ∉ order ++ [id]) + l.countP fun d => d.2 = x ∧ d.1 = id := by
  induction l with
  | nil => rfl
  | cons d l ih =>
    rw [countP_cons, countP_cons, countP_cons, ih]
    by_cases hd : d.1 = id
    · by_cases hx : d.2 = x
      · simp [hd, hid]
        omega
      · simp [hx]
    · simp [hd]
      omega

namespace Queue

variable {s : Visit} {id : ℕ} {ready : List ℕ}

section

variable (h : Queue g s) (hready : s.ready = id :: ready)
include h hready

lemma not_mem_visited : id ∉ s.visited := by
  intro hid
  refine (nodup_append.1 h.nodup).2.2 id hid id ?_ rfl
  rw [hready]
  exact .head _

/-- A node that still waits is neither visited nor ready. -/
lemma not_mem_of_needs {x : ℕ} (hx : Needs g id x) : x ∉ s.visited ++ s.ready := by
  have hid := h.not_mem_visited hready
  intro hmem
  rcases mem_append.1 hmem with hmem | hmem
  · obtain ⟨l₁, l₂, heq⟩ := append_of_mem hmem
    refine hid ?_
    rw [heq]
    exact mem_append_left _ (h.topological l₁ x l₂ heq id hx)
  · exact hid (h.ready x hmem id hx)

/-- One visit, whatever it does to the groups and the ancestors. -/
lemma visitNode {t : Visit} (hv : t.visited = s.visited ++ [id]) (hi : t.indegree = s.indegree)
    (hr : t.ready = ready) :
    Queue g ((successors g id).foldl (release g id) t) ∧
    ((successors g id).foldl (release g id) t).visited = s.visited ++ [id] := by
  have hid := h.not_mem_visited hready
  have hvi : ∀ (l : List ℕ) (t : Visit), (l.foldl (release g id) t).visited = t.visited := by
    intro l
    induction l with
    | nil => exact fun _ => rfl
    | cons x l ih => exact fun t => ih _
  have hf : ∀ x, Needs g id x → x ∉ s.visited ++ s.ready := fun x hx => h.not_mem_of_needs hready hx
  have hnd : (s.visited ++ [id] ++ ready).Nodup := by
    have := h.nodup
    rw [hready] at this
    rw [append_assoc]
    exact this
  obtain ⟨hind, hmem, hnd'⟩ := releases_queue (g := g) id (successors g id) t
    (fun x => by rw [hi, h.indegree x, countP_visited hid x, count_successors]; omega)
    (fun x hx hxr => hf x (mem_successors.1 hx)
      (mem_append_right _ (by rw [hready, ← hr]; exact .tail _ hxr)))
    (by rw [hr]; exact (nodup_append.1 hnd).2.1)
  have hla : ∀ x, t.indegree x = (successors g id).count x → ∀ p, Needs g p x →
      p ∈ s.visited ++ [id] := by
    intro x hx p hp
    rw [hi, h.indegree x, countP_visited hid x, count_successors,
      add_eq_right, countP_eq_zero] at hx
    by_contra hnot
    exact hx _ hp (decide_eq_true ⟨rfl, hnot⟩)
  refine ⟨⟨?_, ?_, ?_, ?_, ?_⟩, (hvi _ _).trans hv⟩
  · rw [hvi, hv]
    refine nodup_append.2 ⟨(nodup_append.1 hnd).1, hnd', fun a ha b hb hab => ?_⟩
    subst hab
    rcases (hmem a).1 hb with hb | ⟨hb, -⟩
    · rw [hr] at hb
      exact (nodup_append.1 hnd).2.2 a ha a hb rfl
    · refine hf a (mem_successors.1 hb) ?_
      rw [hready]
      rcases mem_append.1 ha with ha | ha
      · exact mem_append_left _ ha
      · rw [mem_singleton.1 ha]
        exact mem_append_right _ (.head _)
  · rw [hvi, hv]
    intro x hx
    rcases mem_append.1 hx with hx | hx
    · refine h.live x ?_
      rw [hready]
      rcases mem_append.1 hx with hx | hx
      · exact mem_append_left _ hx
      · rw [mem_singleton.1 hx]
        exact mem_append_right _ (.head _)
    · rcases (hmem x).1 hx with hx | ⟨hx, -⟩
      · refine h.live x (mem_append_right _ ?_)
        rw [hready, ← hr]
        exact .tail _ hx
      · exact (mem_successors.1 hx).live.2
  · rw [hvi, hv]
    refine h.topological.concat fun p hp => h.ready id ?_ p hp
    rw [hready]
    exact .head _
  · intro x
    rw [hind x, hvi, hv, hi, h.indegree x, countP_visited hid x,
      count_successors, Nat.add_sub_cancel]
  · rw [hvi, hv]
    intro x hx p hp
    rcases (hmem x).1 hx with hx | ⟨-, hx⟩
    · refine mem_append_left _ (h.ready x ?_ p hp)
      rw [hready, ← hr]
      exact .tail _ hx
    · exact hla x hx p hp

end

end Queue

lemma Queue.start : Queue g (start g) where
  nodup := nodup_range.filter _ |>.filter _
  live id hid := (mem_filter.1 hid).1
  topological := .nil
  indegree x := by simp [Fuse.start]
  ready x hx p hp := by
    have := of_decide_eq_true (mem_filter.1 hx).2
    rw [countP_eq_zero] at this
    exact absurd (decide_eq_true rfl) (this _ hp)

/-! ## The ancestors -/

/-- The bit of a loop stands in the row of the loop itself and of what it reaches. -/
def Marked (g : Graph) (loops order : List ℕ) (a : ℕ → BitVec 64) : Prop :=
  ∀ x bit, bit / 64 < words g → (testAncestor g a x bit = true ↔
    ∃ l, loops[bit]? = some l ∧ (l = x ∨ ∃ p ∈ order, Needs g p x ∧ ReflTransGen (Needs g) l p))

namespace Marked

variable {loops order : List ℕ} {a : ℕ → BitVec 64} {id : ℕ}

/-- The bit of a new loop. -/
lemma concat (h : Marked g loops order a) (htop : Topological (Needs g) order) (hid : id ∉ order)
    (hwo : loops.length / 64 < words g) :
    Marked g (loops ++ [id]) order (Function.update a (id * words g + loops.length / 64)
      (a (id * words g + loops.length / 64) ||| 1#64 <<< (loops.length % 64))) := by
  intro x bit hbit
  rw [testAncestor_set a id hwo hbit x, Bool.or_eq_true, h x bit hbit, Bool.and_eq_true,
    decide_eq_true_iff, decide_eq_true_iff]
  constructor
  · rintro (⟨l, hl, hx⟩ | ⟨rfl, rfl⟩)
    · exact ⟨l, by rw [getElem?_append_left (List.getElem?_eq_some_iff.1 hl).1, hl], hx⟩
    · exact ⟨x, getElem?_concat_length, .inl rfl⟩
  · rintro ⟨l, hl, hx⟩
    rw [getElem?_append] at hl
    split at hl
    next => exact .inl ⟨l, hl, hx⟩
    next hlen =>
      rw [getElem?_singleton] at hl
      split at hl
      next h0 =>
        cases hl
        rcases hx with rfl | ⟨p, hp, -, hidp⟩
        · exact .inr ⟨rfl, (Nat.sub_eq_zero_iff_le.1 h0).antisymm (not_lt.1 hlen)⟩
        · exact absurd (htop.mem_of_reflTransGen hidp hp) hid
      next => exact absurd hl (by simp)

/-- The rows of the successors of a visited node. -/
lemma visit (h : Marked g loops order a) {s : Visit} (hs : s.ancestors = a) (hid : id ∉ order)
    (hready : ∀ p, Needs g p id → p ∈ order) :
    Marked g loops (order ++ [id]) ((successors g id).foldl (release g id) s).ancestors := by
  have hse : id ∉ successors g id := fun hmem => hid (hready id (mem_successors.1 hmem))
  have hrow : ∀ bit, bit / 64 < words g →
      (testAncestor g a id bit = true ↔
        ∃ l, loops[bit]? = some l ∧ ReflTransGen (Needs g) l id) := by
    intro bit hbit
    rw [h id bit hbit]
    refine exists_congr fun l => and_congr_right fun _ => ?_
    constructor
    · rintro (rfl | ⟨p, -, hp, hlp⟩)
      · exact .refl
      · exact hlp.tail hp
    · intro hl
      rcases ReflTransGen.cases_tail hl with rfl | ⟨p, hlp, hp⟩
      · exact .inl rfl
      · exact .inr ⟨p, hready p hp, hp, hlp⟩
  intro x bit hbit
  rw [testAncestor_releases hse s hbit x, hs, Bool.or_eq_true, Bool.and_eq_true,
    decide_eq_true_iff, h x bit hbit,
    hrow bit hbit, mem_successors]
  constructor
  · rintro (⟨l, hl, rfl | ⟨p, hp, hpx, hlp⟩⟩ | ⟨hx, l, hl, hlid⟩)
    · exact ⟨l, hl, .inl rfl⟩
    · exact ⟨l, hl, .inr ⟨p, mem_append_left _ hp, hpx, hlp⟩⟩
    · exact ⟨l, hl, .inr ⟨id, mem_append_right _ (.head _), hx, hlid⟩⟩
  · rintro ⟨l, hl, rfl | ⟨p, hp, hpx, hlp⟩⟩
    · exact .inl ⟨l, hl, .inl rfl⟩
    · rcases mem_append.1 hp with hp | hp
      · exact .inl ⟨l, hl, .inr ⟨p, hp, hpx, hlp⟩⟩
      · rw [mem_singleton.1 hp] at hpx hlp
        exact .inr ⟨hpx, l, hl, hlp⟩

/-- A loop whose bit is clear does not reach a node that is ready. -/
lemma not_transGen (h : Marked g loops order a) (hready : ∀ p, Needs g p id → p ∈ order) {l bit : ℕ}
    (hl : loops[bit]? = some l) (hbit : bit / 64 < words g)
    (hcl : testAncestor g a id bit = false) :
    ¬TransGen (Needs g) l id := by
  intro hlid
  obtain ⟨p, hlp, hp⟩ := tail'_iff.1 hlid
  refine Bool.false_ne_true (hcl.symm.trans
    ((h id bit hbit).2 ⟨l, hl, .inr ⟨p, hready p hp, hp, hlp⟩⟩))

end Marked

/-! ## The groups -/

variable (lib g) in
/-- The loops of a group share a plain domain, have bodies and do not reach each other. -/
structure Fusable (group : List ℕ) : Prop where
  loop : ∀ id ∈ group, ∃ c L, g.node id = some (.loop c L) ∧ L.plain = true ∧ (lib.graph c).isSome
  domain : ∀ a ∈ group, ∀ b ∈ group, ∀ L M, g.loop? a = some L →
    g.loop? b = some M → L.sameDomain M = true
  antichain : Antichain (Needs g) {id | id ∈ group}

lemma sameDomain_iff {L M : SubnodeLoop} : L.sameDomain M = true ↔
    L.first = M.first ∧ L.step = M.step ∧ L.count = M.count := by
  rw [SubnodeLoop.sameDomain, Bool.and_eq_true, Bool.and_eq_true, beq_iff_eq,
    beq_iff_eq, beq_iff_eq, and_assoc]

lemma loop?_eq_some_iff {id : ℕ} {L : SubnodeLoop} : g.loop? id = some L ↔
    ∃ c, g.node id = some (.loop c L) := by
  rw [Graph.loop?]
  split
  next c M h =>
    rw [h]
    constructor
    · intro h
      exact ⟨c, by rw [Option.some.inj h]⟩
    · rintro ⟨_, h⟩
      exact congrArg some (Node.loop.inj (some.inj h)).2
  next h =>
    constructor
    · exact fun h => absurd h (by simp)
    · rintro ⟨c, hc⟩
      exact absurd hc (h c L)

lemma eligible_iff {id : ℕ} {L : SubnodeLoop} (hL : g.loop? id = some L) :
    eligible lib g id L = true ↔ ∃ c, g.node id = some (.loop c L) ∧ L.plain = true ∧
    (lib.graph c).isSome := by
  obtain ⟨c, hc⟩ := loop?_eq_some_iff.1 hL
  rw [eligible, Graph.callee?, hc, Bool.and_eq_true]
  constructor
  · exact fun h => ⟨c, rfl, h⟩
  · rintro ⟨d, hd, h⟩
    rwa [← (Node.loop.inj (Option.some.inj hd)).1] at h

variable (lib g) in
/-- The groups closed so far and the current one follow the order of the loops. -/
structure Grouped (loops : List ℕ) (s : Visit) : Prop where
  sublist : (s.groups.flatten ++ s.group).Sublist loops
  bits : Forall₂ (fun id bit => loops[bit]? = some id) s.group s.groupBits
  group : Fusable lib g s.group
  closed : ∀ group ∈ s.groups, Fusable lib g group
  loopBit : s.loopBit = loops.length

lemma Fusable.nil : Fusable lib g [] where
  loop _ h := nomatch h
  domain _ h := nomatch h
  antichain _ h := nomatch h

namespace Grouped

variable {loops : List ℕ} {s : Visit} {id : ℕ} {L : SubnodeLoop}

lemma closeGroup (h : Grouped lib g loops s) : Grouped lib g loops (closeGroup s) where
  sublist := by
    change ((if 1 < s.group.length then s.groups ++ [s.group] else s.groups).flatten ++ []).Sublist
      loops
    rw [append_nil]
    split
    · rw [flatten_append, flatten_singleton]
      exact h.sublist
    · exact (sublist_append_left _ _).trans h.sublist
  bits := .nil
  group := .nil
  closed group hgr := by
    change group ∈ (if 1 < s.group.length then s.groups ++ [s.group] else s.groups) at hgr
    split at hgr
    · rcases mem_append.1 hgr with hgr | hgr
      · exact h.closed group hgr
      · rw [mem_singleton.1 hgr]
        exact h.group
    · exact h.closed group hgr
  loopBit := h.loopBit

/-- A loop that none of a compatible group reaches, nor reaches any of it, joins the group. -/
lemma fusable_concat (h : Fusable lib g s.group) (hL : g.loop? id = some L)
    (hel : eligible lib g id L = true)
    (hfr : ∀ front ∈ s.group.head?, ((g.loop? front).map L.sameDomain).getD false = true)
    (hto : ∀ a ∈ s.group, ¬TransGen (Needs g) a id) (hfro : ∀ a ∈ s.group, ¬TransGen (Needs g) id a)
    (hse : ¬TransGen (Needs g) id id) : Fusable lib g (s.group ++ [id]) := by
  have hdo : ∀ a ∈ s.group, ∀ M, g.loop? a = some M → L.sameDomain M = true := by
    intro a ha M hM
    cases hgr : s.group with
    | nil =>
      rw [hgr] at ha
      cases ha
    | cons front rest =>
      have hmem : front ∈ s.group := by
        rw [hgr]
        exact .head _
      obtain ⟨c, N, hN, -, -⟩ := h.loop front hmem
      have hN := loop?_eq_some_iff.2 ⟨c, hN⟩
      have hLN := hfr front (by rw [hgr]; rfl)
      rw [hN, map_some, getD_some, sameDomain_iff] at hLN
      have hNM := sameDomain_iff.1 (h.domain front hmem a ha N M hN hM)
      exact sameDomain_iff.2 ⟨hLN.1.trans hNM.1, hLN.2.1.trans hNM.2.1, hLN.2.2.trans hNM.2.2⟩
  refine ⟨fun a ha => ?_, fun a ha b hb M N hM hN => ?_, fun a ha b hb => ?_⟩
  · rcases mem_append.1 ha with ha | ha
    · exact h.loop a ha
    · rw [mem_singleton.1 ha]
      obtain ⟨c, hc⟩ := (eligible_iff hL).1 hel
      exact ⟨c, L, hc⟩
  · rcases mem_append.1 ha with ha | ha
    · rcases mem_append.1 hb with hb | hb
      · exact h.domain a ha b hb M N hM hN
      · rw [mem_singleton.1 hb, hL] at hN
        have := sameDomain_iff.1 (hdo a ha M hM)
        rw [← some.inj hN]
        exact sameDomain_iff.2 ⟨this.1.symm, this.2.1.symm, this.2.2.symm⟩
    · rw [mem_singleton.1 ha, hL] at hM
      rw [← Option.some.inj hM]
      rcases mem_append.1 hb with hb | hb
      · exact hdo b hb N hN
      · rw [mem_singleton.1 hb, hL] at hN
        rw [← Option.some.inj hN]
        exact sameDomain_iff.2 ⟨rfl, rfl, rfl⟩
  · rcases mem_append.1 ha with ha | ha
    · rcases mem_append.1 hb with hb | hb
      · exact h.antichain a ha b hb
      · rw [mem_singleton.1 hb]
        exact hto a ha
    · rw [mem_singleton.1 ha]
      rcases mem_append.1 hb with hb | hb
      · exact hfro b hb
      · rwa [mem_singleton.1 hb]

section

variable (h : Grouped lib g loops s)
include h

lemma concat_loop (id : ℕ) : Grouped lib g (loops ++ [id]) { s with loopBit := s.loopBit + 1 } where
  sublist := h.sublist.trans (sublist_append_left _ _)
  bits := h.bits.imp fun _ _ hbit => by
    rw [getElem?_append_left (List.getElem?_eq_some_iff.1 hbit).1, hbit]
  group := h.group
  closed := h.closed
  loopBit := by rw [length_append, ← h.loopBit]; rfl

lemma join (hfu : Fusable lib g (s.group ++ [id])) : Grouped lib g (loops ++ [id])
    { s with
      group := s.group ++ [id]
      groupBits := s.groupBits ++ [s.loopBit]
      loopBit := s.loopBit + 1 } where
  sublist := by
    rw [← append_assoc]
    exact h.sublist.append (List.Sublist.refl _)
  bits := by
    refine rel_append (h.concat_loop id).bits (.cons ?_ Forall₂.nil)
    rw [h.loopBit]
    exact getElem?_concat_length
  group := hfu
  closed := h.closed
  loopBit := (h.concat_loop id).loopBit

lemma congr {t : Visit} (hgro : t.groups = s.groups) (hgr : t.group = s.group)
    (hb : t.groupBits = s.groupBits) (hbit : t.loopBit = s.loopBit) : Grouped lib g loops t where
  sublist := by
    rw [hgro, hgr]
    exact h.sublist
  bits := by
    rw [hgr, hb]
    exact h.bits
  group := by
    rw [hgr]
    exact h.group
  closed := by
    rw [hgro]
    exact h.closed
  loopBit := hbit.trans h.loopBit

lemma visitLoop {order : List ℕ} (hma : Marked g loops order s.ancestors)
    (htop : Topological (Needs g) order) (hlo : ∀ l ∈ loops, l ∈ order)
    (hready : ∀ p, Needs g p id → p ∈ order)
    (hid : id ∉ order) (hwo : loops.length / 64 < words g) (hL : g.loop? id = some L) :
    Grouped lib g (loops ++ [id]) (visitLoop lib g id L s) := by
  have hse : ¬TransGen (Needs g) id id := by
    intro hse
    obtain ⟨p, hidp, hp⟩ := tail'_iff.1 hse
    exact hid (htop.mem_of_reflTransGen hidp (hready p hp))
  have hjo : ∀ t : Visit, Grouped lib g loops t → t.ancestors = s.ancestors →
      eligible lib g id L = true →
      (∀ front ∈ t.group.head?, ((g.loop? front).map L.sameDomain).getD false = true) →
      (∀ bit ∈ t.groupBits, testAncestor g s.ancestors id bit = false) →
      Fusable lib g (t.group ++ [id]) := by
    intro t ht hanc hel hfr hb
    have hmem : ∀ a ∈ t.group, a ∈ loops := fun a ha => ht.sublist.subset (mem_append_right _ ha)
    refine fusable_concat ht.group hL hel hfr (fun a ha => ?_) (fun a ha hida => ?_) hse
    · obtain ⟨bit, hbit, hl⟩ := ht.bits.exists_of_mem_left ha
      refine hma.not_transGen hready hl ?_ (hb bit hbit)
      exact (Nat.div_le_div_right (List.getElem?_eq_some_iff.1 hl).1.le).trans_lt hwo
    · exact hid (htop.mem_of_reflTransGen hida.to_reflTransGen (hlo a (hmem a ha)))
  refine congr (s := { joinGroup lib g id L
    s with loopBit := (joinGroup lib g id L s).loopBit + 1 }) ?_ rfl rfl rfl rfl
  cases hel : eligible lib g id L with
  | false =>
    have hco : compatible lib g id L s = false := by
      rw [compatible, hel]
      rfl
    rw [joinGroup, hel, hco]
    exact h.closeGroup.concat_loop id
  | true =>
    rw [joinGroup, hel]
    cases hco : compatible lib g id L s with
    | false =>
      refine h.closeGroup.join (hjo _ h.closeGroup rfl hel (fun front hfr => ?_) fun bit hbit => ?_)
      · exact absurd hfr (by simp [Fuse.closeGroup])
      · cases hbit
    | true =>
      rw [compatible, Bool.and_eq_true] at hco
      have hr := hco.2
      refine h.join (hjo s h rfl hel (fun front hfr => ?_) fun bit hbit => ?_)
      · rw [mem_def.1 hfr] at hr
        exact (Bool.and_eq_true _ _ ▸ hr).1
      · cases hgr : s.group with
        | nil =>
          have := h.bits
          rw [hgr] at this
          rw [forall₂_nil_left_iff.1 this] at hbit
          cases hbit
        | cons front rest =>
          rw [hgr] at hr
          have := (Bool.and_eq_true _ _ ▸ hr).2
          exact Bool.not_eq_true' _ ▸ all_eq_true.1 this bit hbit

end

end Grouped

/-! ## The traversal -/

variable (lib g) in
structure Traversed (s : Visit) : Prop where
  queue : Queue g s
  marked : Marked g (loopsOf g s.visited) s.visited s.ancestors
  grouped : Grouped lib g (loopsOf g s.visited) s

lemma releases_groups (id : ℕ) (sinks : List ℕ) (s : Visit) : let t := sinks.foldl (release g id) s
    t.groups = s.groups ∧ t.group = s.group ∧ t.groupBits = s.groupBits ∧
      t.loopBit = s.loopBit := by
  induction sinks generalizing s with
  | nil => exact ⟨rfl, rfl, rfl, rfl⟩
  | cons sink sinks ih => exact ih (release g id s sink)

variable (lib g) in
lemma visitLoop_queue (id : ℕ) (L : SubnodeLoop) (s : Visit) :
    (visitLoop lib g id L s).visited = s.visited ∧ (visitLoop lib g id L s).indegree = s.indegree ∧
      (visitLoop lib g id L s).ready = s.ready ∧ (joinGroup lib g id L s).ancestors = s.ancestors ∧
      (joinGroup lib g id L s).loopBit = s.loopBit := by
  rw [visitLoop, joinGroup]
  split <;> split <;> exact ⟨rfl, rfl, rfl, rfl, rfl⟩

lemma length_loopsOf_lt {order : List ℕ} {id : ℕ} (hnd : (order ++ [id]).Nodup)
    (hlv : ∀ x ∈ order ++ [id], x ∈ g.live)
    {L : SubnodeLoop} (hL : g.loop? id = some L) : (loopsOf g order).length < loopCount g := by
  have hla : loopsOf g (order ++ [id]) = loopsOf g order ++ [id] := by
    rw [loopsOf, filter_append, filter_singleton, hL]
    rfl
  have hsub : loopsOf g (order ++ [id]) ⊆ g.live.filter fun id => (g.loop? id).isSome := by
    intro x hx
    obtain ⟨hx, hlo⟩ := mem_filter.1 hx
    exact mem_filter.2 ⟨hlv x hx, hlo⟩
  have hlen : (loopsOf g (order ++ [id])).length ≤ loopCount g :=
    ((hnd.filter _).subperm hsub).length_le
  rw [hla, length_append] at hlen
  exact hlen

lemma Traversed.visitNode {s : Visit} (h : Traversed lib g s) {id : ℕ} {ready : List ℕ}
    (hready : s.ready = id :: ready) :
    Traversed lib g (visitNode lib g id { s with ready := ready }) ∧
      (visitNode lib g id { s with ready := ready }).visited = s.visited ++ [id] := by
  have hid := h.queue.not_mem_visited hready
  have hpr : ∀ p, Needs g p id → p ∈ s.visited := by
    refine h.queue.ready id ?_
    rw [hready]
    exact .head _
  rw [Fuse.visitNode]
  cases hL : g.loop? id with
  | none =>
    have hlo : loopsOf g (s.visited ++ [id]) = loopsOf g s.visited := by
      rw [loopsOf, filter_append, filter_singleton, hL]
      exact append_nil _
    obtain ⟨hqu, hvi⟩ :=
      h.queue.visitNode hready (t := { s with ready := ready, visited := s.visited ++ [id] }) rfl
        rfl rfl
    refine ⟨⟨hqu, ?_, ?_⟩, hvi⟩
    · rw [hvi, hlo]
      exact h.marked.visit rfl hid hpr
    · obtain ⟨h₁, h₂, h₃, h₄⟩ := releases_groups (g := g) id (successors g id)
        { s with ready := ready, visited := s.visited ++ [id] }
      rw [hvi, hlo]
      exact h.grouped.congr h₁ h₂ h₃ h₄
  | some L =>
    have hlo : loopsOf g (s.visited ++ [id]) = loopsOf g s.visited ++ [id] := by
      rw [loopsOf, filter_append, filter_singleton, hL]
      rfl
    have hmem : ∀ x ∈ s.visited ++ [id], x ∈ s.visited ++ s.ready := by
      intro x hx
      rw [hready]
      rcases mem_append.1 hx with hx | hx
      · exact mem_append_left _ hx
      · rw [mem_singleton.1 hx]
        exact mem_append_right _ (.head _)
    have hlt : (loopsOf g s.visited).length < loopCount g := by
      refine length_loopsOf_lt (nodup_append.2
        ⟨(nodup_append.1 h.queue.nodup).1, nodup_singleton _, ?_⟩)
        (fun x hx => h.queue.live x (hmem x hx)) hL
      intro a ha b hb hab
      rw [hab, mem_singleton.1 hb] at ha
      exact hid ha
    have hwo : (loopsOf g s.visited).length / 64 < words g := by
      rw [words]
      omega
    obtain ⟨hv, hi, hr, hanc, hbit⟩ :=
      visitLoop_queue lib g id L { s with ready := ready, visited := s.visited ++ [id] }
    have hgr := Grouped.visitLoop (s := { s with ready := ready, visited := s.visited ++ [id] })
      (h.grouped.congr rfl rfl rfl rfl)
      h.marked h.queue.topological (fun l hl => (mem_filter.1 hl).1) hpr hid hwo hL
    have hma : Marked g (loopsOf g s.visited ++ [id]) s.visited
        (Fuse.visitLoop lib g id L { s with
            ready := ready
            visited := s.visited ++ [id] }).ancestors := by
      have := h.marked.concat h.queue.topological hid hwo
      rw [← h.grouped.loopBit] at this
      rw [Fuse.visitLoop]
      rw [hanc, hbit]
      exact this
    obtain ⟨hqu, hvi⟩ := h.queue.visitNode hready hv hi hr
    refine ⟨⟨hqu, ?_, ?_⟩, hvi⟩
    · rw [hvi, hlo]
      exact hma.visit rfl hid hpr
    · obtain ⟨h₁, h₂, h₃, h₄⟩ := releases_groups (g := g) id (successors g id)
        (Fuse.visitLoop lib g id L { s with ready := ready, visited := s.visited ++ [id] })
      rw [hvi, hlo]
      exact hgr.congr h₁ h₂ h₃ h₄

lemma Traversed.start : Traversed lib g (start g) where
  queue := .start
  marked x bit _ := by
    constructor
    · intro h
      rw [testAncestor_eq] at h
      exact absurd h (by simp [Fuse.start])
    · rintro ⟨l, hl, -⟩
      exact absurd hl (by simp [Fuse.start, loopsOf])
  grouped := ⟨List.Sublist.refl _, .nil, .nil, nofun, rfl⟩

lemma Traversed.visit {s : Visit} (h : Traversed lib g s) (n : ℕ) :
    Traversed lib g (visit lib g n s) ∧
    ((visit lib g n s).ready = [] ∨ (visit lib g n s).visited.length = s.visited.length + n) := by
  induction n generalizing s with
  | zero => exact ⟨h, .inr rfl⟩
  | succ n ih =>
    rw [Fuse.visit]
    split
    next hready => exact ⟨h, .inl hready⟩
    next id ready hready =>
      obtain ⟨hn, hvi⟩ := h.visitNode hready
      obtain ⟨ht, hend⟩ := ih hn
      refine ⟨ht, hend.imp_right fun hlen => ?_⟩
      rw [hlen, hvi, length_append, length_singleton]
      omega

variable (lib g) in
lemma traversed : Traversed lib g (traversal lib g) := (Traversed.start.visit _).1

/-- A traversal of every node has met no cycle. -/
lemma not_transGen_self_of_length (h : (traversal lib g).visited.length = g.live.length) (a : ℕ) :
    ¬TransGen (Needs g) a a := by
  intro haa
  have hqu := (traversed lib g).queue
  have hnd := (nodup_append.1 hqu.nodup).1
  have hpe : (traversal lib g).visited.Perm g.live :=
    (hnd.subperm fun x hx => hqu.live x (mem_append_left _ hx)).perm_of_length_le h.ge
  obtain ⟨p, -, hp⟩ := TransGen.tail'_iff.1 haa
  exact hqu.topological.not_transGen_self hnd (hpe.mem_iff.2 hp.live.2) haa

/-- What the groups are. -/
structure Chosen (lib : Library) (g : Graph) (gs : List (List ℕ)) : Prop where
  fusable : ∀ group ∈ gs, Fusable lib g group
  nodup : gs.flatten.Nodup
  /-- No member reaches one of an earlier group. -/
  later : gs.Pairwise fun G H => ∀ a ∈ H, ∀ b ∈ G, ¬TransGen (Needs g) a b
  acyclic : gs ≠ [] → ∀ a, ¬TransGen (Needs g) a a

lemma groups_chosen (lib : Library) (g : Graph) : Chosen lib g (groups lib g) := by
  rw [groups]
  split
  · exact ⟨nofun, nodup_nil, .nil, fun h => absurd rfl h⟩
  split
  · exact ⟨nofun, nodup_nil, .nil, fun h => absurd rfl h⟩
  next hlen =>
    have ht := traversed lib g
    have hcl := ht.grouped.closeGroup
    have hnd := (nodup_append.1 ht.queue.nodup).1
    have hsub : (closeGroup (traversal lib g)).groups.flatten.Sublist (traversal lib g).visited :=
      (sublist_append_left _ _).trans (hcl.sublist.trans filter_sublist)
    refine ⟨hcl.closed, hnd.sublist hsub, ?_, fun _ => not_transGen_self_of_length (not_not.1 hlen)⟩
    refine (pairwise_flatten.1 ((ht.queue.topological.pairwise_not_transGen hnd).sublist
      hsub)).2.imp ?_
    intro G H h a ha b hb
    exact h b hb a ha

end LiveHD.Sim.Fuse
