import LiveHD.Usyn.ResidualSound

/-!
# The cost of a residual sweep

The ledger of a sweep is exact for the graph built so far.  A node that is built costs at most what
it cost in the source, a replacement is kept only when it costs no more, and what is compacted in
the end was counted.
-/

namespace LiveHD.Usyn

open Pass hiding onBudget spend trySpend
open Function List Builds Ledger Meters Nat Node Or RefCount.Exact Xag Yields

open RefCount (counted)

/-! ## Gates -/

section

variable {o : ResidualOptions} {g h : Xag} {a b : Xsignal} {kind : Kind}

/-- What an operation over two nodes does to a graph: it answers with a node it was given, or with a
gate over the two. -/
def Appended (kind : Kind) (i j : ℕ) (g h : Xag) (r : ℕ) : Prop :=
  h = g ∧ (r = 0 ∨ r = i ∨ r = j) ∨ (h.node r).kind = kind ∧
    (∀ n, (h.node r).reads n ≠ 0 → n = i ∨ n = j) ∧
    (h = g ∨ h.size = g.size + 1 ∧ r = g.size)

lemma Appended.swap {i j r : ℕ} (hr : Appended kind i j g h r) : Appended kind j i g h r := by
  rcases hr with ⟨heq, hr⟩ | ⟨hk, hrd, hr⟩
  · exact .inl ⟨heq, hr.imp_right symm⟩
  · exact .inr ⟨hk, fun n hn => (hrd n hn).symm, hr⟩

/-- A gate with the key of an operation reads its operands. -/
lemma reads_of_key {n : Node} (hkey : n.key = ⟨kind, a, b⟩) {i : ℕ} (hi : n.reads i ≠ 0) :
    i = a.id ∨ i = b.id := by
  have hin : n.inputs.1 = a ∧ n.inputs.2 = b := ⟨congrArg Key.a hkey, congrArg Key.b hkey⟩
  rw [reads, hin.1, hin.2] at hi
  by_cases ha : a.id = i
  · exact .inl ha.symm
  · by_cases hb : b.id = i
    · exact .inr hb.symm
    · rw [if_neg ha, if_neg hb] at hi
      exact absurd (ite_self _) hi

lemma Xag.intern_appended (hg : g.Wf) (ha : a.id < g.size) (hb : b.id < g.size) :
    Builds anyArena (intern kind a b) g fun h r => Appended kind a.id b.id g h r.id := by
  have hor : ∀ a b : Xsignal, a.id < g.size → b.id < g.size →
      Builds anyArena (internOrdered kind a b) g fun h r => Appended kind a.id b.id g h r.id := by
    intro a b ha hb
    refine (Builds.get trivial).bind fun _ h _ _ heq => ?_
    obtain ⟨rfl, rfl⟩ := heq
    cases hidx : h.index ⟨kind, a, b⟩ with
    | some id =>
      obtain ⟨-, -, hkey⟩ := (hg.hashed _ _).1 hidx
      exact pure trivial (inr ⟨congrArg Key.kind hkey, fun n hn => reads_of_key hkey hn, inl rfl⟩)
    | none =>
      refine ite (fun _ => throw trivial) fun _ => ?_
      refine (set (A := anyArena) trivial trivial).bind fun t _ _ _ heq => ?_
      subst heq
      have hno := node_pushGate kind h ha hb
      refine pure trivial (inr ⟨congrArg Node.kind hno, fun n hn => ?_,
        inr ⟨size_pushGate kind h, rfl⟩⟩)
      exact reads_of_key (congrArg key hno) hn
  exact ite (fun _ => (hor b a hb ha).mono fun _ _ _ _ hr => hr.swap) fun _ => hor a b ha hb

lemma Xag.check_any {α : Type} {s : Xsignal} {k : XagM α} {P : Xag → α → Prop}
    (hk : s.id < g.size → Builds anyArena k g P) :
    Builds anyArena (check s >>= fun _ => k) g P := by
  have hch : Builds anyArena (check s) g fun h _ => h = g ∧ s.id < g.size := by
    refine (Builds.get trivial).bind fun _ h _ _ heq => ?_
    obtain ⟨rfl, rfl⟩ := heq
    exact .ite (fun _ => .throw trivial) fun hlt => .pure trivial ⟨rfl, not_le.1 hlt⟩
  refine hch.bind fun h _ _ _ hP => ?_
  obtain ⟨rfl, hlt⟩ := hP
  exact hk hlt

lemma Xag.land_appended (hg : g.Wf) (a b : Xsignal) : Builds anyArena (land a b) g fun h r =>
    a.id < g.size ∧ b.id < g.size ∧ Appended .andGate a.id b.id g h r.id := by
  refine check_any fun ha => check_any fun hb => ?_
  have hpu : ∀ r : Xsignal, r.id = 0 ∨ r.id = a.id ∨ r.id = b.id →
      Builds anyArena (pure r : XagM Xsignal) g fun h r =>
      a.id < g.size ∧ b.id < g.size ∧ Appended .andGate a.id b.id g h r.id := fun r hr =>
      .pure trivial ⟨ha, hb, .inl ⟨rfl, hr⟩⟩
  refine .ite (fun _ => hpu _ ?_) fun _ => .ite (fun _ => hpu _ ?_) fun _ =>
    .ite (fun _ => hpu _ ?_) fun _ => ?_
  · exact .inr (by split; exacts [inr rfl, .inl rfl])
  · exact .inr (by split; exacts [inl rfl, .inr rfl])
  · split
    · exact .inr (.inl rfl)
    · exact .inl rfl
  · exact (intern_appended hg ha hb).mono fun _ _ _ _ hr => ⟨ha, hb, hr⟩

lemma Xag.lxor_appended (hg : g.Wf) (a b : Xsignal) : Builds anyArena (lxor a b) g fun h r =>
    a.id < g.size ∧ b.id < g.size ∧ Appended .xorGate a.id b.id g h r.id := by
  refine check_any fun ha => check_any fun hb => ?_
  have hpu : ∀ r : Xsignal, r.id = 0 ∨ r.id = a.id ∨ r.id = b.id →
      Builds anyArena (pure r : XagM Xsignal) g fun h r =>
      a.id < g.size ∧ b.id < g.size ∧ Appended .xorGate a.id b.id g h r.id := fun r hr =>
      .pure trivial ⟨ha, hb, .inl ⟨rfl, hr⟩⟩
  refine .ite (fun _ => hpu _ (.inl rfl)) fun _ => .ite (fun _ => hpu _ (.inr ?_)) fun _ => ?_
  · split
    · exact .inl rfl
    · exact .inr rfl
  · refine (intern_appended (a := ⟨a.id, false⟩) (b := ⟨b.id, false⟩) hg ha hb).map
      fun _ _ _ _ hr => ⟨ha, hb, hr⟩

/-- A gate of a pass; what it builds on is in the graph. -/
lemma Pass.gate_appended {s : PassState} (hs : s.candidate.Wf)
    (hk : kind.isGate = true) (a b : Xsignal) :
    Builds passArena (gate kind a b) s fun t r =>
    a.id < s.candidate.size ∧ b.id < s.candidate.size ∧ r.id < t.candidate.size ∧
      Appended kind a.id b.id s.candidate t.candidate r.id := by
  have hwf : Builds arena (if kind = .andGate then land a b else lxor a b) s.candidate fun h r =>
      r.id < h.size :=
    ite (fun _ => (land_builds hs a b).mono fun _ _ _ _ h => h.2.2.lt) fun _ =>
      (lxor_builds hs a b).mono fun _ _ _ _ h => h.2.2.lt
  have hap : Builds anyArena (if kind = .andGate then land a b else lxor a b) s.candidate fun h r =>
      a.id < s.candidate.size ∧ b.id < s.candidate.size ∧
      Appended kind a.id b.id s.candidate h r.id := by
    cases kind with
    | constant => cases hk
    | source => cases hk
    | andGate => exact land_appended hs a b
    | xorGate => exact lxor_appended hs a b
  exact (onGraph_builds (hwf.and hap) hs).mono fun _ _ _ _ hr => ⟨hr.2.1, hr.2.2.1, hr.1, hr.2.2.2⟩

/-- The weight of all gates. -/
def Xag.price (o : ResidualOptions)
    (g : Xag) : ℕ := ∑ m ∈ Finset.range g.size, weight o (g.node m).kind

/-- A gate adds its weight when it is new. -/
lemma Appended.price (he : g.Extends h) {i j r : ℕ} (hr : Appended kind i j g h r) :
    h.price o = if h.size ≠ g.size then g.price o + weight o kind else g.price o := by
  have hsa : h = g → h.price o = if h.size ≠ g.size then g.price o + weight o kind
      else g.price o := by
    rintro rfl
    simp
  rcases hr with ⟨heq, -⟩ | ⟨hk, -, heq | ⟨hsz, rfl⟩⟩
  · exact hsa heq
  · exact hsa heq
  · rw [if_pos (by omega), Xag.price, hsz, Finset.sum_range_succ, hk]
    congr 1
    exact Finset.sum_congr rfl fun m hm => by rw [he.kind (Finset.mem_range.1 hm)]

end

/-! ## Changes of a pass -/

section

variable {o : ResidualOptions} (hand : 0 < o.andCost) (hxor : 0 < o.xorCost) {s : PassState}
  {l : Ledger} {anchors : ℕ → ℤ}

/-- Nodes that are not in the graph are not counted. -/
lemma Ledger.Exact.refs_eq_zero {g : Xag} (hg : g.Wf) (hl : l.Exact o g anchors fun _ => 0)
    {n : ℕ} (hn : g.size ≤ n)
    (han : anchors n = 0) : l.refs n = 0 := by
  have hc := hl.count n
  have hrd : counted g.size l.refs (fun m => (g.node m).reads n) = 0 := by
    refine Finset.sum_eq_zero fun m hm => ?_
    have hm := Finset.mem_range.1 hm
    split
    · rfl
    · by_contra hne
      exact absurd (reads_lt hg hm hne) (by omega)
  omega

/-- A ledger stays exact when the graph grows. -/
lemma Ledger.Exact.extend {g h : Xag} (hg : g.Wf) (he : g.Extends h)
    (hl : l.Exact o g anchors fun _ => 0)
    (han : ∀ n, g.size ≤ n → anchors n = 0) : l.Exact o h anchors fun _ => 0 := by
  refine .grow hl he.size (fun m hm => ?_) (fun m hm => ?_) fun m hm =>
    hl.refs_eq_zero hg hm (han m hm)
  · funext n
    rw [← Xag.Node.reads_core, he.core m hm, Xag.Node.reads_core]
  · rw [he.kind hm]

include hand hxor

section

variable (hs : s.candidate.Wf) {id : ℕ} (hid : id < s.candidate.size) (amount : ℤ)
  (hl : l.Exact o s.candidate anchors fun _ => 0)
include hs hid hl

lemma Pass.change_builds : Builds passArena (change o id amount l) s fun t r =>
      t.candidate = s.candidate ∧ r.2.rollback = l.rollback ∧
        (r.1 = true → r.2.Exact o s.candidate
          (fun n => anchors n + if n = id then amount else 0) fun _ => 0) := by
  refine ⟨hs, .refl _, fun r hr => ?_⟩
  obtain rfl : ((l.change o s.candidate [(id, amount)] s.work).1,
      (l.change o s.candidate [(id, amount)] s.work).2.1) = r :=
    Except.ok.inj hr
  refine ⟨rfl, rollback_change _ _ _, .change hand hxor hs _ _ _ (forall_mem_singleton.2 hid) ?_⟩
  refine (ask hl fun n => if n = id then amount else 0).congr (fun _ => rfl) fun n => ?_
  rw [dueOf, map_singleton, sum_singleton, zero_add]

lemma Pass.mustChange_builds : Builds passArena (mustChange o id amount l) s fun t l' =>
      t.candidate = s.candidate ∧ l'.Exact o s.candidate
      (fun n => anchors n + if n = id then amount else 0) fun _ => 0 := by
  refine (change_builds hand hxor hs hid amount hl).bind fun t r ht _ hr => ?_
  obtain ⟨hca, -, hexa⟩ := hr
  refine .ite (fun hok => .pure ht ⟨hca, hexa hok⟩) fun _ => .throw ht

end

end

/-! ## Replacements -/

section

variable {o : ResidualOptions} {base : ℕ → ℤ} {place : Place} {bound : ℕ} {s : PassState} {p : Pick}

/-- A node with its replacement so far, anchored beside `base`; the ledger costs no more than
`bound`. -/
structure Picked (o : ResidualOptions) (base : ℕ → ℤ) (place : Place) (bound : ℕ)
    (g : Xag) (p : Pick) : Prop where
  lt : p.chosen.id < g.size
  outside : ∀ n, g.size ≤ n → base n = 0
  exact : p.ledger.Exact o g (fun n => base n + if n = p.chosen.id then (place.anchors : ℤ)
    else 0) fun _ => 0
  cost : p.ledger.cost ≤ bound

lemma Picked.extend {g h : Xag} (hp : Picked o base place bound g p) (hg : g.Wf)
    (he : g.Extends h) : Picked o base place bound h p where
  lt := hp.lt.trans_le he.size
  outside n hn := hp.outside n (he.size.trans hn)
  exact := by
    refine hp.exact.extend hg he fun n hn => ?_
    rw [hp.outside n hn, if_neg (hp.lt.trans_le hn).ne', add_zero]
  cost := hp.cost

/-- A refusal changes nothing. -/
structure Restored (p q : Pick) : Prop where
  refs : q.ledger.refs = p.ledger.refs
  cost : q.ledger.cost = p.ledger.cost
  chosen : q.chosen = p.chosen

lemma Restored.of_rollback {l : Ledger} (hl : l.rollback = p.ledger.begin.rollback) :
    Restored p { p with ledger := l.rollback } where
  refs := by rw [hl, (rollback_begin _).1]
  cost := by rw [hl, (rollback_begin _).2]
  chosen := rfl

lemma Picked.restored {g : Xag} {q : Pick} (hp : Picked o base place bound g p)
    (hq : Restored p q) : Picked o base place bound g q where
  lt := hq.chosen ▸ hp.lt
  outside := hp.outside
  exact := by
    rw [Ledger.Exact, hq.refs, hq.cost, hq.chosen]
    exact hp.exact
  cost := hq.cost ▸ hp.cost

lemma Pass.rollback_change (id : ℕ) (amount : ℤ) (l : Ledger) (s : PassState) :
    Builds meterArena (change o id amount l) s fun _ r => r.2.rollback = l.rollback := by
  refine ⟨trivial, rfl, fun r hr => ?_⟩
  obtain rfl : ((l.change o s.candidate [(id, amount)] s.work).1,
      (l.change o s.candidate [(id, amount)] s.work).2.1) = r :=
    Except.ok.inj hr
  exact Ledger.rollback_change _ _ _

/-- A candidate that is not taken leaves the counts and the cost as they were. -/
lemma consider_restores (place : Place) (candidate : Xsignal) (p : Pick) (s : PassState) :
    Builds meterArena (consider o place candidate p) s fun _ r => r.1 = false → Restored p r.2 := by
  have hgr : Builds meterArena graph s fun _ _ => True := ⟨trivial, rfl, fun _ _ => trivial⟩
  refine hgr.bind fun _ g _ _ _ => ?_
  refine .ite (fun _ => .pure trivial fun _ => ⟨rfl, rfl, rfl⟩) fun _ => ?_
  refine (rollback_change _ _ _ _).bind fun t r _ _ hr =>
    .ite (fun _ => .pure trivial fun _ => ?_) fun _ => ?_
  · exact Restored.of_rollback hr
  · refine (rollback_change _ _ _ _).bind fun t r' _ _ hr' =>
      .ite (fun _ => .pure trivial fun _ => ?_) fun _ => ?_
    · exact Restored.of_rollback (hr'.trans hr)
    · exact .pure trivial nofun

variable (hand : 0 < o.andCost) (hxor : 0 < o.xorCost)

include hand hxor

lemma consider_builds (hs : s.candidate.Wf)
    (hp : Picked o base place bound s.candidate p) (candidate : Xsignal) :
    Builds passArena (consider o place candidate p) s fun t r =>
    t.candidate = s.candidate ∧ Picked o base place bound s.candidate r.2 := by
  refine graph_bind hs ?_
  refine .ite (fun _ => .pure hs ⟨rfl, hp⟩) fun hfit => ?_
  have hca := not_le.1 (not_or.1 hfit).1
  have hbe : p.ledger.begin.Exact o s.candidate
      (fun n => base n + if n = p.chosen.id then (place.anchors : ℤ) else 0) fun _ => 0 :=
    hp.exact
  refine (change_builds hand hxor hs hca place.anchors hbe).bind fun u r hu _ hr => ?_
  obtain ⟨hcn, hba, hexa⟩ := hr
  refine .ite (fun _ => .pure hu ⟨hcn, hp.restored (.of_rollback hba)⟩) fun hok => ?_
  have hlt := hcn ▸ hp.lt
  have hexa := hexa (Bool.eq_true_of_not_eq_false hok)
  rw [← hcn] at hexa
  refine (change_builds hand hxor hu hlt (-place.anchors) hexa).bind fun v r' hv _ hr' => ?_
  obtain ⟨hca', hba', hex'⟩ := hr'
  refine .ite (fun _ => .pure hv ⟨hca'.trans hcn, hp.restored (.of_rollback (hba'.trans hba))⟩)
    fun hke => ?_
  rw [not_or, not_or] at hke
  refine .pure hv ⟨hca'.trans hcn, hca, hp.outside, ?_, (not_lt.1 hke.2.1).trans hp.cost⟩
  -- the anchors go from the old choice to the candidate
  have hmo := hex' (Bool.eq_true_of_not_eq_false hke.1)
  rw [hcn] at hmo
  refine .congr hmo (fun n => ?_) fun _ => rfl
  split <;> split <;> omega

/-- A search of any length keeps the ledger exact and does not raise the cost. -/
lemma runSearch_builds (search : Search) (hs : s.candidate.Wf)
    (hp : Picked o base place bound s.candidate p) :
    Builds passArena (runSearch o place search p) s fun t q =>
    Picked o base place bound t.candidate q := by
  induction search generalizing s p with
  | done => exact .pure hs hp
  | spend amount k ih =>
    refine ((Meters.trySpend amount).builds hs).bind fun t granted ht _ hr => ih granted ht ?_
    rwa [hr.1]
  | gate kind a b k ih =>
    have hg : Builds passArena (gate kind a b) s fun _ _ => True :=
      onGraph_builds (.ite (fun _ => (land_builds hs a b).mono fun _ _ _ _ _ => trivial) fun _ =>
        (lxor_builds hs a b).mono fun _ _ _ _ _ => trivial) hs
    exact hg.bind fun t r ht he _ => ih r ht (hp.extend hs he)
  | consider candidate k ih =>
    refine (consider_builds hand hxor hs hp candidate).bind fun t r ht _ hr => ih r.1 ht ?_
    rw [hr.1]
    exact hr.2

end

/-! ## Anchors -/

section

variable (source : Xag) (outputs : List ResidualOutput)

/-- The outputs and the unbuilt nodes that read a node of the source. -/
def demand (post : List ℕ) (i : ℕ) : ℕ :=
  outputs.countP (·.signal.id = i) + (post.map fun x => (source.node x).reads i).sum

/-- The anchors of a node: what is still to read the nodes of the source that became it. -/
def pending (map : ℕ → Xsignal) (post : List ℕ) (n : ℕ) : ℕ :=
  counted source.size (fun i => if i ∈ post then 0 else 1) fun i =>
    if (map i).id = n then demand source outputs post i else 0

/-- An order of nodes that do not read what comes later, with the readers of each. -/
def Queued (references : ℕ → ℕ) : List ℕ → Prop
  | [] => True
  | id :: rest => id < source.size ∧ id ∉ rest ∧
      (∀ i, (source.node id).reads i ≠ 0 → i ∉ id :: rest) ∧
      references id = demand source outputs rest id ∧ Queued references rest

variable {source outputs} {references : ℕ → ℕ} {map : ℕ → Xsignal} {id : ℕ} {rest : List ℕ}

lemma demand_cons (i : ℕ) : demand source outputs (id :: rest) i =
    demand source outputs rest i + (source.node id).reads i := by
  rw [demand, demand, map_cons, sum_cons, add_assoc, add_comm ((source.node id).reads i)]

/-- What a node reads, by what that became. -/
def spent (source : Xag) (map : ℕ → Xsignal) (id n : ℕ) : ℕ :=
  counted source.size (fun _ => 1) fun i => if (map i).id = n then (source.node id).reads i else 0

lemma spent_of_gate (hsrc : source.Wf) (hid : id < source.size)
    (hg : (source.node id).kind.isGate = true) (n : ℕ) :
    spent source map id n = (if n = (translated map (source.node id).inputs.1).id then 1 else 0) +
      if n = (translated map (source.node id).inputs.2).id then 1 else 0 := by
  obtain ⟨h1, h2⟩ := (hsrc.canonical id hid hg).older
  have hsp : ∀ i, (if (map i).id = n then (source.node id).reads i else 0) =
      (if i = (source.node id).inputs.1.id then if (map i).id = n then 1 else 0 else 0) +
        if i = (source.node id).inputs.2.id then if (map i).id = n then 1 else 0 else 0 := by
    intro i
    rw [reads]
    simp only [eq_comm (a := i)]
    split <;> split <;> split <;> simp
  have hsum : spent source map id n = ∑ i ∈ Finset.range source.size,
        ((if i = (source.node id).inputs.1.id then if (map i).id = n then 1 else 0 else 0) +
        if i = (source.node id).inputs.2.id then if (map i).id = n then 1 else 0 else 0) := by
    rw [spent]
    exact Finset.sum_congr rfl fun i _ => (if_neg one_ne_zero).trans (hsp i)
  rw [hsum, Finset.sum_add_distrib, Finset.sum_ite_eq', Finset.sum_ite_eq',
    if_pos (Finset.mem_range.2 (h1.trans hid)),
    if_pos (Finset.mem_range.2 (h2.trans hid)), id_translated, id_translated]
  simp only [eq_comm (a := n)]

lemma spent_of_source (hk : (source.node id).kind.isGate = false) (n : ℕ) :
    spent source map id n = 0 := by
  rw [spent]
  refine Finset.sum_eq_zero fun i _ => ?_
  simp [reads_eq_zero hk]

/-- A node that is built takes its reads back and is anchored by its readers. -/
lemma pending_step (hqu : Queued source outputs references (id :: rest)) (s : Xsignal) (n : ℕ) :
    pending source outputs (Function.update map id s) rest n + spent source map id n =
      pending source outputs map (id :: rest) n + if n = s.id then references id else 0 := by
  obtain ⟨hid, hnot, hrd, hrf, -⟩ := hqu
  have hmem := Finset.mem_range.2 hid
  have hse : (source.node id).reads id = 0 := by
    by_contra hne
    exact hrd id hne (.head _)
  rw [pending, pending, spent, counted, counted, counted, ← Finset.sum_add_distrib,
    ← Finset.add_sum_erase _ _ hmem, ← Finset.add_sum_erase _
      (fun m => if (if m ∈ id :: rest then 0 else 1) = 0 then 0 else _) hmem]
  have hr : ∀ i ∈ (Finset.range source.size).erase id,
      ((if (if i ∈ rest then 0 else 1) = 0 then 0
        else if (update map id s i).id = n then demand source outputs rest i else 0) +
        if (1 : ℕ) = 0 then 0 else if (map i).id = n then (source.node id).reads i else 0) =
      if (if i ∈ id :: rest then 0 else 1) = 0 then 0
        else if (map i).id = n then demand source outputs (id :: rest) i else 0 := by
    intro i hi
    have hne := Finset.ne_of_mem_erase hi
    rw [update_of_ne hne, demand_cons]
    by_cases hmem : i ∈ rest
    · have h0 : (source.node id).reads i = 0 := by
        by_contra hre
        exact hrd i hre (.tail _ hmem)
      simp [hmem, h0]
    · have hme' : i ∉ id :: rest := fun h => (mem_cons.1 h).elim hne hmem
      simp only [hmem, if_false, one_ne_zero]
      split <;> rfl
  rw [Finset.sum_congr rfl hr, hse, ← hrf]
  simp [hnot, eq_comm (a := n), add_comm]

/-- What an unbuilt node reads is anchored. -/
lemma pending_pos (hqu : Queued source outputs references (id :: rest)) (hsrc : source.Wf) {i : ℕ}
    (hi : (source.node id).reads i ≠ 0) :
    0 < pending source outputs map (id :: rest) (map i).id := by
  obtain ⟨hid, -, hrd, -⟩ := hqu
  have hlt := (reads_lt hsrc hid hi).trans hid
  have hbu : (if i ∈ id :: rest then 0 else 1) ≠ 0 := by
    rw [if_neg (hrd i hi)]
    exact one_ne_zero
  have hle := @RefCount.le_counted _ (fun i => if i ∈ id :: rest then 0 else 1) _ hlt hbu
    fun j => if (map j).id = (map i).id then demand source outputs (id :: rest) j else 0
  rw [if_pos rfl, demand_cons] at hle
  rw [pending]
  omega

lemma pending_outside {g : Xag} {post : List ℕ} (hmap : ∀ i, (map i).id < g.size)
    {n : ℕ} (hn : g.size ≤ n) :
    pending source outputs map post n = 0 := by
  rw [pending, counted]
  refine Finset.sum_eq_zero fun i _ => ?_
  rw [if_neg ((hmap i).trans_le hn).ne, ite_self]

/-- When all is built the anchors are the outputs. -/
lemma pending_nil (hout : ∀ output ∈ outputs, output.signal.id < source.size) (n : ℕ) :
    pending source outputs map [] n = outputs.countP fun output =>
    (map output.signal.id).id = n := by
  rw [pending, counted]
  simp only [not_mem_nil, if_false, one_ne_zero, demand, map_nil, sum_nil, add_zero]
  induction outputs with
  | nil => simp
  | cons output outputs ih =>
    obtain ⟨hlt, hout⟩ := forall_mem_cons.1 hout
    have hsp : ∀ i, (if (map i).id = n then (output :: outputs).countP (·.signal.id = i) else 0) =
        (if (map i).id = n then outputs.countP (·.signal.id = i) else 0) + if i = output.signal.id
        then if (map i).id = n then 1 else 0 else 0 := by
      intro i
      rw [countP_cons]
      simp only [eq_comm (a := i), decide_eq_true_eq]
      split <;> split <;> simp
    rw [Finset.sum_congr rfl fun i _ => hsp i, Finset.sum_add_distrib, ih hout, Finset.sum_ite_eq',
      if_pos (Finset.mem_range.2 hlt), countP_cons]
    simp

end

/-! ## Sweeps -/

section

variable {o : ResidualOptions} {source : Xag} {outputs : List ResidualOutput} {plan : Schedule}
  {post rest : List ℕ} {id : ℕ}
  {st : SweepRun} {s : PassState} {p : Pick} {α : Type}

/-- A sweep with the nodes of `post` still to build. -/
structure Sweeping (o : ResidualOptions) (source : Xag) (outputs : List ResidualOutput)
    (plan : Schedule) (post : List ℕ) (g : Xag)
    (st : SweepRun) : Prop where
  lt : ∀ i, (st.map i).id < g.size
  exact : st.ledger.Exact o g (fun n => pending source outputs st.map post n) fun _ => 0
  cost : st.ledger.cost + (post.map fun id => weight o (source.node id).kind).sum ≤ plan.cost

/-- The anchors that stay when a node takes its reads back. -/
def kept (source : Xag) (outputs : List ResidualOutput) (map : ℕ → Xsignal) (id : ℕ)
    (rest : List ℕ) (n : ℕ) : ℤ :=
  (pending source outputs map (id :: rest) n : ℤ) - spent source map id n

lemma Sweeping.outside (h : Sweeping o source outputs plan post s.candidate st) {n : ℕ}
    (hn : s.candidate.size ≤ n) :
    (pending source outputs st.map post n : ℤ) = 0 := by
  simp [pending_outside h.lt hn]

/-- A node that was built, with its choice. -/
lemma Picked.sweeping {g h : Xag}
    (hsw : Sweeping o source outputs plan (id :: rest) g st) (he : g.Extends h)
    (hqu : Queued source outputs plan.references (id :: rest)) {place : Place}
    (hpl : place.anchors = plan.references id)
    (hp : Picked o (kept source outputs st.map id rest) place
      (st.ledger.cost + weight o (source.node id).kind) h p) {st' : SweepRun}
    (hmap : st'.map = Function.update st.map id p.chosen) (hle : st'.ledger = p.ledger) :
    Sweeping o source outputs plan rest h st' where
  lt i := by
    rw [hmap]
    rcases eq_or_ne i id with rfl | hne
    · rw [update_self]
      exact hp.lt
    · rw [update_of_ne hne]
      exact (hsw.lt i).trans_le he.size
  exact := by
    rw [hle, hmap]
    refine .congr hp.exact (fun n => ?_) fun _ => rfl
    have hst := congrArg (Nat.cast : ℕ → ℤ) (@pending_step _ _ _ st.map _ _ hqu p.chosen n)
    push_cast at hst
    rw [kept]
    omega
  cost := by
    have hco := hsw.cost
    have hpi := hp.cost
    rw [map_cons, sum_cons] at hco
    rw [hle]
    omega

variable (hand : 0 < o.andCost) (hxor : 0 < o.xorCost)

/-- The cost of a node that was built: its operands are counted, so nothing else comes to life. -/
lemma Sweeping.cost_le {g h : Xag} (hsrc : source.Wf) (hg : g.Wf) (hh : h.Wf) (he : g.Extends h)
    (hsw : Sweeping o source outputs plan (id :: rest) g st)
    (hqu : Queued source outputs plan.references (id :: rest))
    (hga : (source.node id).kind.isGate = true) {r : ℕ}
    (hr : Appended (source.node id).kind (translated st.map (source.node id).inputs.1).id
      (translated st.map (source.node id).inputs.2).id g h r)
    {l : Ledger} (hl : l.Exact o h (fun n => kept source outputs st.map id rest n + if n = r then
      (plan.references id : ℤ) else 0) fun _ => 0) :
    l.cost ≤ st.ledger.cost + weight o (source.node id).kind := by
  have hexa := hsw.exact.extend hg he fun n hn => by simp [pending_outside hsw.lt hn]
  have han : ∀ n, (0 : ℤ) ≤ pending source outputs st.map (id :: rest) n := fun n =>
    Int.natCast_nonneg _
  have hrd : ∀ m < h.size, ∀ n, (h.node m).reads n ≠ 0 → n < m := fun m hm n hn => reads_lt hh hm hn
  have hpos : ∀ i, i = (source.node id).inputs.1.id ∨ i = (source.node id).inputs.2.id →
      st.ledger.refs (st.map i).id ≠ 0 := by
    intro i hi
    refine hexa.pos_of_anchor (Int.natCast_pos.2 (pending_pos hqu hsrc ?_))
    exact (reads_inputs hga).2 hi
  have hop : ∀ n, n = (translated st.map (source.node id).inputs.1).id ∨
      n = (translated st.map (source.node id).inputs.2).id →
      st.ledger.refs n ≠ 0 := by
    rintro n (rfl | rfl)
    · rw [id_translated]
      exact hpos _ (.inl rfl)
    · rw [id_translated]
      exact hpos _ (.inr rfl)
  have hsz : ∀ n, n = (translated st.map (source.node id).inputs.1).id ∨
      n = (translated st.map (source.node id).inputs.2).id →
      n < h.size := by
    rintro n (rfl | rfl)
    · rw [id_translated]
      exact (hsw.lt _).trans_le he.size
    · rw [id_translated]
      exact (hsw.lt _).trans_le he.size
  have hold : ∀ n, n ≠ r → 0 < kept source outputs st.map id rest n +
      (if n = r then (plan.references id : ℤ) else 0) →
      (0 : ℤ) < pending source outputs st.map (id :: rest) n := by
    intro n hn hlt
    rw [kept] at hlt
    omega
  have hro : ∀ n, (h.node r).reads n ≠ 0 → st.ledger.refs n ≠ 0 := by
    intro n hn
    rcases hr with ⟨-, rfl | hr⟩ | ⟨-, hin, -⟩
    · exact absurd (reads_lt hh hh.pos hn) (not_lt_zero n)
    · exact hexa.pos_of_reads han (hsz r hr) (hop r hr) hn
    · exact hop n (hin n hn)
  refine (hexa.cost_le han hrd hl hold hro).trans (Nat.add_le_add_left ?_ _)
  split
  next hde =>
    rcases hr with ⟨-, rfl | hr⟩ | ⟨hk, -⟩
    · rw [(hh.constant 0 hh.pos).2 rfl]
      exact zero_le _
    · exact absurd hde (hop r hr)
    · rw [hk]
  · exact zero_le _

include hand hxor

lemma buildNode_builds (hsrc : source.Wf) (hs : s.candidate.Wf)
    (hsw : Sweeping o source outputs plan (id :: rest) s.candidate st)
    (hqu : Queued source outputs plan.references (id :: rest))
    (hg : (source.node id).kind.isGate = true) (place : Place)
    (hpl : place.anchors = plan.references id) :
    Builds passArena (buildNode o source plan st id) s fun t p =>
      Picked o (kept source outputs st.map id rest) place
      (st.ledger.cost + weight o (source.node id).kind) t.candidate p := by
  refine (gate_appended hs hg _ _).bind fun t root ht he hr => ?_
  obtain ⟨ha, hb, hro, hr⟩ := hr
  change s.candidate.Extends t.candidate at he
  have hexa : st.ledger.begin.Exact o t.candidate
      (fun n => pending source outputs st.map (id :: rest) n) fun _ => 0 :=
    hsw.exact.extend hs he fun n hn => hsw.outside hn
  refine (mustChange_builds hand hxor ht hro _ hexa).bind fun u l hu _ hl => ?_
  obtain ⟨hca, hl⟩ := hl
  rw [← hca] at hl he hr hro
  refine (mustChange_builds hand hxor hu (ha.trans_le he.size) _ hl).bind fun v l hv _ hl => ?_
  obtain ⟨hca, hl⟩ := hl
  rw [← hca] at hl he hr hro
  refine (mustChange_builds hand hxor hv (hb.trans_le he.size) _ hl).bind fun x l hx _ hl => ?_
  obtain ⟨hca, hl⟩ := hl
  rw [← hca] at hl he hr hro
  have hmo : l.Exact o x.candidate (fun n => kept source outputs st.map id rest n +
      if n = root.id then (plan.references id : ℤ) else 0) fun _ => 0 := by
    refine .congr hl (fun n => ?_) fun _ => rfl
    have hsp := congrArg (Nat.cast : ℕ → ℤ) (@spent_of_gate _ st.map _ hsrc hqu.1 hg n)
    rw [kept, hsp]
    split <;> split <;> split <;> omega
  refine .pure hx ⟨hro, fun n hn => ?_, hpl ▸ hmo, hsw.cost_le hsrc hs hx he hqu hg hr hmo⟩
  have hout := @pending_outside source outputs _ _ (id :: rest) hsw.lt _ (he.size.trans hn)
  have hsp := @spent_of_gate _ st.map _ hsrc hqu.1 hg n
  have hna := (ha.trans_le (he.size.trans hn)).ne'
  have hnb := (hb.trans_le (he.size.trans hn)).ne'
  rw [if_neg hna, if_neg hnb] at hsp
  rw [kept, hout, hsp]
  rfl

omit hand hxor in
lemma Pass.sliced_builds {m : PassM α} {P : Xag → α → Prop}
    (h : ∀ w, Builds passArena m { s with work := w } fun t a => P t.candidate a)
    (hs : s.candidate.Wf) (cap divisor reserve : ℕ) :
    Builds passArena (sliced cap divisor reserve m) s fun t a => P t.candidate a := by
  refine (get (A := passArena) hs).bind fun _ u hu _ heq => ?_
  obtain ⟨rfl, rfl⟩ := heq
  obtain ⟨hinv, hle, hP⟩ := h (u.work.slice cap divisor reserve)
  have hset := set (A := passArena) (ε := Stop) (s := u)
      (t := { (m.run.run { u with work := u.work.slice cap divisor reserve }).2 with
    work := u.work.absorb (m.run.run { u with work := u.work.slice cap divisor reserve }).2.work })
      hinv hle
  refine hset.bind fun t _ ht _ heq => ?_
  subst heq
  split
  next a ha => exact pure ht (hP a ha)
  · exact throw ht

omit hand hxor in
lemma Meters.onBudget (f : Budget → α × Budget) : Meters (Pass.onBudget f) fun _ => True :=
  fun _ => ⟨trivial, rfl, fun _ _ => trivial⟩

omit hand hxor in
lemma admitsWindow_meters (share : CreditShare) (completion : ℕ) (st : SweepRun) :
    Meters (admitsWindow o share completion st) fun _ => True :=
  ite (fun _ => (Meters.onBudget _).bind fun _ _ =>
      .ite (fun _ => (Meters.onBudget _).bind fun _ _ =>
    ite (fun _ => .onBudget _) fun _ => .pure trivial) fun _ => .pure trivial) fun _ =>
    .pure trivial

section

variable (search : Xag → Pick → Xsignal → ℕ → Search) (share : CreditShare)
include search share

/-- A window keeps the ledger exact, whatever it searches for. -/
lemma replaceNode_builds (remaining : ℕ) (hs : s.candidate.Wf)
    {base : ℕ → ℤ} {bound : ℕ} (hp : Picked o base ⟨plan.references id,
      (source.node id).level + o.depthSlack⟩ bound s.candidate p) :
    Builds passArena (replaceNode o source outputs search plan share remaining st id p) s fun t r =>
      Picked o base ⟨plan.references id, (source.node id).level + o.depthSlack⟩ bound t.candidate
      r.1 ∧ r.2.map = st.map := by
  refine graph_bind hs ?_
  refine ((admitsWindow_meters share _ st).builds hs).bind fun u admitted hu _ hca => ?_
  rw [← hca.1] at hp
  refine .ite (fun _ => ?_) fun _ => .pure hu ⟨hp, rfl⟩
  refine ((Meters.onBudget _).builds hu).bind fun v cap hv _ hca => ?_
  rw [← hca.1] at hp
  have hwi : ∀ w, Builds passArena
      (runSearch o ⟨plan.references id, (source.node id).level + o.depthSlack⟩
      (search s.candidate p p.chosen remaining) p >>=
        fun p => do let s ← get; pure (p, s.work.budget.consumed)) { v with work := w }
      fun s r => Picked o base ⟨plan.references id, (source.node id).level + o.depthSlack⟩
        bound s.candidate r.1 := by
    intro w
    refine (runSearch_builds (s := { v with work := w }) hand hxor _ hv hp).bind fun x q hx _ hq =>
      ?_
    refine (get (A := passArena) hx).bind fun _ y hy _ heq => ?_
    obtain ⟨rfl, rfl⟩ := heq
    exact .pure hy hq
  exact (sliced_builds (P := fun g r => Picked o base _ bound g r.1) hwi hv _ _ _).bind
    fun x r hx _ hr => .pure hx ⟨hr, rfl⟩

lemma sweepStep_builds (remaining : ℕ) (hsrc : source.Wf)
    (hs : s.candidate.Wf) (hsw : Sweeping o source outputs plan (id :: rest) s.candidate st)
    (hqu : Queued source outputs plan.references (id :: rest))
    (hg : (source.node id).kind.isGate = true) :
    Builds passArena (sweepStep o source outputs search plan share remaining st id) s fun t st' =>
      Sweeping o source outputs plan rest t.candidate st' := by
  refine ((Meters.spend 1).builds hs).bind fun t _ ht _ hca => ?_
  rw [← hca.1] at hsw
  refine graph_bind ht ?_
  refine (require.builds ht).bind fun v _ hv _ hca => ?_
  rw [← hca.1] at hsw
  refine (buildNode_builds hand hxor hsrc hv hsw hqu hg ⟨_, (source.node id).level + o.depthSlack⟩
    rfl).bind fun x p hx he hp => ?_
  refine (replaceNode_builds hand hxor search share remaining hx hp).bind fun y r hy he' hr =>
    .pure hy ?_
  refine hr.1.sweeping hsw (.trans he he') hqu rfl ?_ rfl
  exact congrArg (update · id r.1.chosen) hr.2

/-- Any number of nodes of a sweep. -/
lemma sweepNodes_builds (later : ℕ) (hsrc : source.Wf) (pre : List ℕ)
    (hs : s.candidate.Wf) (hsw : Sweeping o source outputs plan (pre ++ rest) s.candidate st)
    (hqu : Queued source outputs plan.references (pre ++ rest))
    (hga : ∀ id ∈ pre, (source.node id).kind.isGate = true) :
    Builds passArena (sweepNodes o source outputs search plan share later pre st) s fun t st' =>
      Sweeping o source outputs plan rest t.candidate st' := by
  induction pre generalizing s st with
  | nil => exact .pure hs hsw
  | cons id pre ih =>
    obtain ⟨hg, hga⟩ := forall_mem_cons.1 hga
    refine (sweepStep_builds hand hxor search share _ hsrc hs hsw hqu hg).bind fun t st ht _ hst =>
      ?_
    exact ih ht hst hqu.2.2.2.2 hga

end

end

/-! ## Queues -/

section

variable {o : ResidualOptions} {source : Xag} {outputs : List ResidualOutput}
  {plan : Schedule} {id : ℕ}

/-- The sources from a node on. -/
def laterSources (source : Xag) (id : ℕ) : List ℕ :=
  (List.range' id (source.size - id)).filter fun i => (source.node i).kind = .source

lemma laterSources_step (hid : id < source.size) : laterSources source id =
    if (source.node id).kind = .source then id :: laterSources source (id + 1)
    else laterSources source (id + 1) := by
  obtain ⟨n, hn⟩ : ∃ n, source.size - id = n + 1 := ⟨source.size - id - 1, by omega⟩
  have hn' : source.size - (id + 1) = n := by omega
  rw [laterSources, laterSources, hn, hn', range'_succ, filter_cons]
  simp

lemma laterSources_size : laterSources source source.size = [] := by
  rw [laterSources, Nat.sub_self]
  rfl

lemma mem_laterSources {i : ℕ} : i ∈ laterSources source id ↔
    id ≤ i ∧ i < source.size ∧ (source.node i).kind = .source := by
  rw [laterSources, mem_filter, mem_range'_1, decide_eq_true_eq]
  constructor
  · rintro ⟨⟨h1, h2⟩, h3⟩
    exact ⟨h1, by omega, h3⟩
  · rintro ⟨h1, h2, h3⟩
    exact ⟨⟨h1, by omega⟩, h3⟩

lemma demand_sources (srcs : List ℕ) (hsr : ∀ i ∈ srcs, (source.node i).kind = .source)
    (post : List ℕ) (i : ℕ) :
    demand source outputs (srcs ++ post) i = demand source outputs post i := by
  induction srcs with
  | nil => rfl
  | cons x srcs ih =>
    obtain ⟨hx, hsr⟩ := forall_mem_cons.1 hsr
    simp [demand_cons, ih hsr, reads_eq_zero (by rw [hx]; rfl)]

variable (hplan : plan.Ok o source outputs)

include hplan

lemma Schedule.Ok.references_eq (id : ℕ) :
    plan.references id = demand source outputs plan.order id := hplan.references id

/-- What an order reads is not in it later. -/
lemma Schedule.Ok.reads_not_mem {pre post : List ℕ} (hsp : plan.order = pre ++ id :: post) {i : ℕ}
    (hi : (source.node id).reads i ≠ 0) : i ∉ id :: post := by
  intro hmem
  have hor : i ∈ plan.order := by
    rw [hsp]
    exact mem_append_right _ hmem
  have hpre := hplan.older pre id post hsp i hi (hplan.gates i hor).2
  have hnd := hplan.nodup
  rw [hsp] at hnd
  exact (nodup_append.1 hnd).2.2 i hpre i hmem rfl

/-- The readers of a node come after it. -/
lemma Schedule.Ok.demand_eq {pre post : List ℕ} (hsp : plan.order = pre ++ id :: post) :
    plan.references id = demand source outputs post id := by
  have hse : (source.node id).reads id = 0 := by
    by_contra hne
    exact hplan.reads_not_mem hsp hne (.head _)
  have h0 : (pre.map fun x => (source.node x).reads id).sum = 0 := by
    refine sum_eq_zero fun n hn => ?_
    obtain ⟨x, hx, rfl⟩ := mem_map.1 hn
    by_contra hne
    obtain ⟨pre', post', rfl⟩ := append_of_mem hx
    have hsp' : plan.order = pre' ++ x :: (post' ++ id :: post) := by simp [hsp]
    refine hplan.reads_not_mem hsp' hne ?_
    exact .tail _ (mem_append_right _ (.head _))
  rw [hplan.references id, hsp, map_append, sum_append_nat, map_cons, sum_cons, h0,
    hse, zero_add, zero_add]
  rfl

lemma Schedule.Ok.queued (pre post : List ℕ) (hsp : plan.order = pre ++ post) :
    Queued source outputs plan.references post := by
  induction post generalizing pre with
  | nil => trivial
  | cons id post ih =>
    have hmem : id ∈ plan.order := by
      rw [hsp]
      exact mem_append_right _ (.head _)
    refine ⟨(hplan.gates id hmem).1, ?_, fun i hi => hplan.reads_not_mem hsp hi,
      hplan.demand_eq hsp, ih (pre ++ [id]) ?_⟩
    · have hnd := hplan.nodup
      rw [hsp] at hnd
      exact (nodup_cons.1 (nodup_append.1 hnd).2.1).1
    · rw [hsp, append_assoc]
      rfl

lemma Schedule.Ok.queued_sources (srcs : List ℕ) (hnd : srcs.Nodup)
    (hsr : ∀ i ∈ srcs, i < source.size ∧ (source.node i).kind = .source) :
    Queued source outputs plan.references (srcs ++ plan.order) := by
  induction srcs with
  | nil => exact hplan.queued [] plan.order rfl
  | cons id srcs ih =>
    obtain ⟨hid, hsr⟩ := forall_mem_cons.1 hsr
    obtain ⟨hnot, hnd⟩ := nodup_cons.1 hnd
    refine ⟨hid.1, fun hmem => ?_,
      fun i hi => absurd (reads_eq_zero (by rw [hid.2]; rfl) i) hi, ?_, ih hnd hsr⟩
    · rcases mem_append.1 hmem with hmem | hmem
      · exact hnot hmem
      · have hg := (hplan.gates id hmem).2
        rw [hid.2] at hg
        cases hg
    · exact (hplan.references_eq id).trans
        (demand_sources srcs (fun i hi => (hsr i hi).2) plan.order id).symm

lemma Schedule.Ok.queued_later (id : ℕ) :
    Queued source outputs plan.references (laterSources source id ++ plan.order) :=
  hplan.queued_sources _ (.filter _ (nodup_range')) fun _ hi => (mem_laterSources.1 hi).2

/-- A gate that is not in the order has no readers. -/
lemma Schedule.Ok.demand_dead {i : ℕ}
    (hg : (source.node i).kind.isGate = true) (hi : i ∉ plan.order) :
    demand source outputs plan.order i = 0 := by
  have hout : outputs.countP (·.signal.id = i) = 0 := by
    refine countP_eq_zero.2 fun output hmem heq => hi ?_
    obtain rfl := of_decide_eq_true heq
    exact hplan.roots output hmem hg
  have hrd : (plan.order.map fun x => (source.node x).reads i).sum = 0 := by
    refine sum_eq_zero fun n hn => ?_
    obtain ⟨x, hx, rfl⟩ := mem_map.1 hn
    by_contra hne
    obtain ⟨pre, post, hsp⟩ := append_of_mem hx
    refine hi ?_
    rw [hsp]
    exact mem_append_left _ (hplan.older pre x post hsp i hne hg)
  rw [demand, hout, hrd]

/-- Before any source is copied only the constant is anchored. -/
lemma Schedule.Ok.pending_start (hsrc : source.Wf) (n : ℕ) :
    pending source outputs (fun _ => {})
    (laterSources source 1 ++ plan.order) n = if n = 0 then plan.references 0 else 0 := by
  have h0 : (0 : ℕ) ∉ laterSources source 1 ++ plan.order := by
    rw [mem_append, not_or]
    refine ⟨fun hmem => absurd (mem_laterSources.1 hmem).1 (by omega), fun hmem => ?_⟩
    have hg := (hplan.gates 0 hmem).2
    rw [(hsrc.constant 0 hsrc.pos).2 rfl] at hg
    cases hg
  have hsr : ∀ i ∈ laterSources source 1, (source.node i).kind = .source := fun i hi =>
    (mem_laterSources.1 hi).2.2
  rw [pending, counted, Finset.sum_eq_single 0]
  · rw [if_neg h0, if_neg one_ne_zero, demand_sources _ hsr, hplan.references_eq]
    simp only [eq_comm (a := n)]
  · intro i hi hne
    have hi := Finset.mem_range.1 hi
    by_cases hmem : i ∈ laterSources source 1 ++ plan.order
    · rw [if_pos hmem, if_pos rfl]
    · rw [mem_append, not_or] at hmem
      have hg := hsrc.gate_of_ne hi hne fun hk =>
        hmem.1 (mem_laterSources.2 ⟨one_le_iff_ne_zero.2 hne, hi, hk⟩)
      simp [demand_sources _ hsr, hplan.demand_dead hg hmem.2]
  · intro hnot
    exact absurd (Finset.mem_range.2 hsrc.pos) hnot

end

/-! ## The sources of a sweep -/

section

variable {o : ResidualOptions} {source : Xag} {outputs : List ResidualOutput} {plan : Schedule}
  {id : ℕ} {st : SweepRun} {s : PassState}

lemma Xag.input_pushes (name : String) (g : Xag) :
    Builds anyArena (input name) g fun h r => h = g.pushSource name ∧ r = ⟨g.size, false⟩ := by
  refine (Builds.get trivial).bind fun _ h _ _ heq => ?_
  obtain ⟨rfl, rfl⟩ := heq
  refine .ite (fun _ => .throw trivial) fun _ => ?_
  refine (set (A := anyArena) trivial trivial).bind fun t _ _ _ heq => ?_
  exact pure trivial ⟨heq, rfl⟩

lemma Pass.copySource_kind (hs : s.candidate.Wf) (id : ℕ) :
    Builds passArena (copySource source id) s fun t r =>
    r.id < t.candidate.size ∧ (t.candidate.node r.id).kind = .source := by
  have hwf := input_builds hs (source.names.getD (source.node id).sourceIndex "")
  have hpu := input_pushes (source.names.getD (source.node id).sourceIndex "") s.candidate
  refine (onGraph_builds (hwf.and hpu) hs).mono fun t r _ _ hr => ?_
  obtain ⟨⟨-, -, his, -⟩, hgr, rfl⟩ := hr
  refine ⟨his.lt, ?_⟩
  rw [hgr, node_pushSource]

variable (hand : 0 < o.andCost) (hxor : 0 < o.xorCost)

include hand hxor

lemma sweepSource_builds (hs : s.candidate.Wf) (hplan : plan.Ok o source outputs)
    (hid : id < source.size)
    (hsw : Sweeping o source outputs plan (laterSources source id ++ plan.order) s.candidate st) :
    Builds passArena (sweepSource o source plan st id) s fun t st' =>
      Sweeping o source outputs plan
      (laterSources source (id + 1) ++ plan.order) t.candidate st' := by
  have hqu := hplan.queued_later id
  rw [laterSources_step hid] at hsw hqu
  refine .ite (fun hk => ?_) fun hk => ?_
  · rw [if_pos hk] at hsw hqu
    have hno : (source.node id).kind.isGate = false := by
      rw [hk]
      rfl
    refine (copySource_kind hs id).bind fun t r ht he hr => ?_
    obtain ⟨hlt, hsrc⟩ := hr
    have hexa : st.ledger.begin.Exact o t.candidate
        (fun n => pending source outputs st.map
          (id :: (laterSources source (id + 1) ++ plan.order)) n) fun _ => 0 :=
      hsw.exact.extend hs he fun n hn => hsw.outside hn
    refine (mustChange_builds hand hxor ht hlt _ hexa).bind fun u l hu _ hl => ?_
    obtain ⟨hca, hl⟩ := hl
    rw [← hca] at hl hexa hsrc hlt
    have hrd := reads_eq_zero (by rw [hsrc]; rfl)
    have hco := hexa.cost_le (fun n => Int.natCast_nonneg _) (fun m hm n hn => reads_lt hu hm hn) hl
      (r := r.id) (fun n hn hpos => by rwa [if_neg hn, add_zero] at hpos) fun n hn =>
        absurd (hrd n) hn
    have hpi : Picked o (kept source outputs st.map id (laterSources source (id + 1) ++ plan.order))
        ⟨plan.references id, 0⟩
        (st.ledger.cost + weight o (source.node id).kind) u.candidate ⟨l, r⟩ := by
      have hext : s.candidate.Extends u.candidate := hca ▸ he
      refine ⟨hlt, fun n hn => ?_, ?_, ?_⟩
      · rw [kept, spent_of_source hno, pending_outside hsw.lt (hext.size.trans hn)]
        rfl
      · refine .congr hl (fun n => ?_) fun _ => rfl
        simp [kept, spent_of_source hno]
      · rw [hsrc] at hco
        refine hco.trans (Nat.add_le_add_left ?_ _)
        split <;> exact zero_le _
    exact .pure hu (hpi.sweeping hsw (hca ▸ he) hqu rfl rfl rfl)
  · rw [if_neg hk] at hsw
    exact .pure hs hsw

/-- The constant and any number of sources. -/
lemma sweepSources_builds (hsrc : source.Wf) (hplan : plan.Ok o source outputs) {n : ℕ}
    (hn : n < source.size) (w : Work) :
    Builds passArena (sweepSources o source plan n) { work := w } fun t st =>
      Sweeping o source outputs plan
      (laterSources source (1 + n) ++ plan.order) t.candidate st := by
  have hem : ({} : Ledger).Exact o ({} : Xag) (fun _ => 0) fun _ => 0 := by
    refine ⟨fun n => ?_, ?_⟩
    · simp [counted]
    · simp [counted]
  refine (mustChange_builds (s := { work := w }) hand hxor wf_empty one_pos _ hem).bind
    fun t l ht _ hl => ?_
  obtain ⟨hca, hl⟩ := hl
  have hsta : Sweeping o source outputs plan (laterSources source 1 ++ plan.order) t.candidate
      { map := fun _ => {}, ledger := l } → _ :=
    fun h0 => foldlM_range' (Q := fun i t st => Sweeping o source outputs plan
      (laterSources source i ++ plan.order) t.candidate st) 1 n
      ht h0 fun i _ hi u st hu _ hst => sweepSource_builds hand hxor hu hplan (by omega) hst
  refine hsta ⟨fun _ => ht.pos, ?_, ?_⟩
  · rw [hca]
    refine congr hl (fun n => ?_) fun _ => rfl
    rw [hplan.pending_start hsrc n, zero_add]
    split <;> rfl
  · have hfr : l.cost = 0 := by
      rw [hl.price]
      refine Finset.sum_eq_zero fun m hm => ?_
      obtain rfl : m = 0 := lt_one_iff.1 (Finset.mem_range.1 hm)
      split <;> rfl
    have hss : ((laterSources source 1).map fun id => weight o (source.node id).kind).sum = 0 := by
      refine sum_eq_zero fun n hn => ?_
      obtain ⟨i, hi, rfl⟩ := mem_map.1 hn
      rw [(mem_laterSources.1 hi).2.2]
      rfl
    simp [hfr, hss, hplan.cost]

end

end LiveHD.Usyn
