import LiveHD.Usyn.Residual

/-!
# The accounting of a residual sweep

The ledger of a sweep is exact between any two transactions, so that what a sweep returns costs no
more than what it was given.
-/

namespace LiveHD.Usyn

open Function List Ledger Node Or Planning Visit Yields

open RefCount (counted)

/-! ## The ledger -/

section

variable {o : ResidualOptions} {g h : Xag} {l : Ledger} {w : Work} {anchors : ℕ → ℤ}

/-- The counts of a ledger are right but for a list of changes. -/
def Ledger.Exact (o : ResidualOptions) (g : Xag) (anchors due : ℕ → ℤ) (l : Ledger) : Prop :=
  RefCount.Exact g.size (fun m n => (g.node m).reads n) (fun m => weight o (g.node m).kind)
    anchors due l.refs l.cost

/-- What a list of changes asks of a node. -/
def dueOf (todo : List (ℕ × ℤ)) (n : ℕ) : ℤ := (todo.map fun p => if n = p.1 then p.2 else 0).sum

lemma weight_eq_zero (hand : 0 < o.andCost) (hxor : 0 < o.xorCost) {kind : Kind}
    (h : weight o kind = 0) : kind.isGate = false := by
  cases kind with
  | constant => rfl
  | source => rfl
  | andGate => exact absurd h hand.ne'
  | xorGate => exact absurd h hxor.ne'

lemma reads_eq_zero {n : Node} (h : n.kind.isGate = false) (id : ℕ) : n.reads id = 0 := by
  rw [reads, if_neg (by rw [h]; exact Bool.false_ne_true)]

lemma reads_of_gate {n : Node} (h : n.kind.isGate = true) (id : ℕ) :
    (n.reads id : ℤ) = (if id = n.inputs.1.id then 1 else 0) + if id = n.inputs.2.id then 1
    else 0 := by
  rw [reads, if_pos h]
  push_cast
  simp only [eq_comm]

/-- One change, with what it asks of the inputs. -/
lemma Ledger.Exact.put (hand : 0 < o.andCost) (hxor : 0 < o.xorCost) {id : ℕ}
    {delta : ℤ} {todo : List (ℕ × ℤ)}
    (hl : l.Exact o g anchors (dueOf ((id, delta) :: todo))) (hid : id < g.size)
    (hpos : ¬(l.refs id : ℤ) + delta < 0) :
    (l.put o g id ((l.refs id : ℤ) + delta).toNat).Exact o g anchors
    (dueOf (l.spread o g id ((l.refs id : ℤ) + delta).toNat ++ todo)) := by
  have hv : (((l.refs id : ℤ) + delta).toNat : ℤ) = l.refs id + delta :=
    Int.toNat_of_nonneg (Int.not_lt.1 hpos)
  generalize ((l.refs id : ℤ) + delta).toNat = after at hv
  have hle : l.refs id ≠ 0 → weight o (g.node id).kind ≤ l.cost := fun hne =>
    (RefCount.le_counted hid hne fun m => weight o (g.node m).kind).trans_eq hl.price.symm
  have hcs : (l.put o g id after).cost + (if l.refs id = 0 then 0 else weight o (g.node id).kind) =
      l.cost + if after = 0 then 0 else weight o (g.node id).kind := by
    change (if l.refs id = 0 ∧ after ≠ 0 then l.cost + weight o (g.node id).kind
      else if l.refs id ≠ 0 ∧ after = 0 then l.cost - weight o (g.node id).kind else l.cost) + _ = _
    by_cases h1 : l.refs id = 0 <;> by_cases h2 : after = 0
    · simp [h1, h2]
    · simp [h1, h2]
    · simp only [h1, h2, false_and, ne_eq, not_false_eq_true, and_self, if_true, if_false]
      omega
    · simp [h1, h2]
  refine (RefCount.Exact.step hl hid hv hcs).congr (fun _ => rfl) fun n => ?_
  have hdue : dueOf (l.spread o g id after) n =
      ((if after = 0 then 0 else (g.node id).reads n : ℕ) : ℤ) - (if l.refs id = 0 then 0
        else (g.node id).reads n : ℕ) := by
    rw [spread]
    by_cases hki : (g.node id).kind.isGate = true
    · have hw : ¬weight o (g.node id).kind = 0 := fun h0 => by
        rw [weight_eq_zero hand hxor h0] at hki
        cases hki
      by_cases h1 : l.refs id = 0 <;> by_cases h2 : after = 0
      · simp [dueOf, h1, h2]
      · simp [dueOf, h1, h2, hw, reads_of_gate hki, add_comm]
      · simp [dueOf, h1, h2, hw, reads_of_gate hki]
        split <;> split <;> rfl
      · simp [dueOf, h1, h2]
    · rw [Bool.not_eq_true] at hki
      have hw : weight o (g.node id).kind = 0 := by
        cases hk : (g.node id).kind <;> rw [hk] at hki <;> first | rfl | cases hki
      simp [dueOf, hw, reads_eq_zero hki]
  have hap : dueOf (l.spread o g id after ++ todo) n =
      dueOf (l.spread o g id after) n + dueOf todo n := by
    rw [dueOf, map_append, sum_append]
    rfl
  have hco : dueOf ((id, delta) :: todo) n = (if n = id then delta else 0) + dueOf todo n := by
    rfl
  rw [hap, hdue, hco]
  ring

/-- A change that succeeds makes the ledger exact. -/
lemma Ledger.Exact.change (hand : 0 < o.andCost) (hxor : 0 < o.xorCost) (hg : g.Wf)
    (todo : List (ℕ × ℤ)) (l : Ledger) (w : Work)
    (hto : ∀ p ∈ todo, p.1 < g.size) (hl : l.Exact o g anchors (dueOf todo))
    (hok : (l.change o g todo w).1 = true) :
    (l.change o g todo w).2.1.Exact o g anchors fun _ => 0 := by
  induction todo, l, w using change.induct o g with
  | case1 l w => rwa [Ledger.change]
  | case2 l w id delta todo hsp hneg =>
    rw [Ledger.change, dif_pos hsp, if_pos hneg] at hok
    cases hok
  | case3 l w id delta todo hsp hneg after ih =>
    obtain ⟨hid, hto⟩ := forall_mem_cons.1 hto
    rw [Ledger.change, dif_pos hsp, if_neg hneg] at hok ⊢
    refine ih (forall_mem_append.2 ⟨fun p hp => ?_, hto⟩) (hl.put hand hxor hid hneg) hok
    rw [spread] at hp
    split at hp
    · nomatch hp
    next hspr =>
      have hga : (g.node id).kind.isGate = true := by
        by_contra hga
        refine hspr (.inr ?_)
        cases hk : (g.node id).kind <;> rw [hk] at hga <;> first | rfl | exact absurd rfl hga
      obtain ⟨h1, h2⟩ := (hg.canonical id hid hga).older
      rcases mem_cons.1 hp with rfl | hp
      · exact h2.trans hid
      · obtain rfl := mem_singleton.1 hp
        exact h1.trans hid
  | case4 l w id delta todo hsp =>
    rw [Ledger.change, dif_neg hsp] at hok
    cases hok

/-- A change, failed or not, can be taken back. -/
lemma Ledger.rollback_change (todo : List (ℕ × ℤ)) (l : Ledger) (w : Work) :
    (l.change o g todo w).2.1.rollback = l.rollback := by
  induction todo, l, w using change.induct o g with
  | case1 l w => rw [change]
  | case2 l w id delta todo hsp hneg => rw [change, dif_pos hsp, if_pos hneg]
  | case3 l w id delta todo hsp hneg after ih =>
    rw [change, dif_pos hsp, if_neg hneg]
    refine ih.trans ?_
    rw [rollback, rollback, put]
    rw [foldl_cons, update_idem, update_eq_self]
  | case4 l w id delta todo hsp => rw [change, dif_neg hsp]

lemma Ledger.rollback_begin (l : Ledger) :
    l.begin.rollback.refs = l.refs ∧ l.begin.rollback.cost = l.cost := ⟨rfl, rfl⟩

end

/-! ## Schedules -/

section

variable {o : ResidualOptions} {g : Xag} {outputs : List ResidualOutput}

/-- An order in which every live gate stands once, after what it reads. -/
structure Schedule.Ok (o : ResidualOptions) (g : Xag) (outputs : List ResidualOutput)
    (s : Schedule) : Prop where
  nodup : s.order.Nodup
  gates : ∀ id ∈ s.order, id < g.size ∧ (g.node id).kind.isGate = true
  older : ∀ pre id post, s.order = pre ++ id :: post → ∀ i, (g.node id).reads i ≠ 0 →
    (g.node i).kind.isGate = true → i ∈ pre
  roots : ∀ output ∈ outputs, (g.node output.signal.id).kind.isGate = true →
    output.signal.id ∈ s.order
  references : ∀ i, s.references i =
    outputs.countP (·.signal.id = i) + (s.order.map fun id => (g.node id).reads i).sum
  cost : s.cost = (s.order.map fun id => weight o (g.node id).kind).sum
  /-- What holds of the outputs and of what a gate reads holds of the order. -/
  reached : ∀ P : ℕ → Prop, (∀ output ∈ outputs, P output.signal.id) →
    (∀ m < g.size, (g.node m).kind.isGate = true → P m →
    ∀ i, (g.node m).reads i ≠ 0 → P i) → ∀ id ∈ s.order, P id

variable {seen seen' : ℕ → Visit} {above above' stack : List ℕ}

/-- Nothing more is to be done for a node. -/
def Settled (g : Xag) (seen : ℕ → Visit)
    (i : ℕ) : Prop := (g.node i).kind.isGate = true → seen i = .black

/-- What a node in progress reads is settled or above it, and everything above it is older. -/
def Walks (g : Xag) (seen : ℕ → Visit) : List ℕ → List ℕ → Prop
  | _, [] => True
  | above, x :: rest => (seen x = .gray → x ∉ above →
      (∀ i, (g.node x).reads i ≠ 0 → Settled g seen i ∨ i ∈ above) ∧ ∀ y ∈ above, y < x) ∧
      Walks g seen (x :: above) rest

lemma Walks.mono (h : Walks g seen above stack)
    (hgr : ∀ x, seen' x = .gray → x ∉ above' → seen x = .gray ∧ x ∉ above)
    (hse : ∀ i, Settled g seen i → Settled g seen' i)
    (hco : ∀ i ∈ above, i ∈ above' ∨ Settled g seen' i)
    (hsm : ∀ y ∈ above', y ∈ above ∨ ∃ z ∈ above, y < z) : Walks g seen' above' stack := by
  induction stack generalizing above above' with
  | nil => trivial
  | cons x rest ih =>
    refine ⟨fun hx hab => ?_, ih h.2 (fun y hy hnot => ?_) (fun i hi => ?_) fun y hy => ?_⟩
    · obtain ⟨hgr, hnot⟩ := hgr x hx hab
      obtain ⟨hrd, hlt⟩ := h.1 hgr hnot
      refine ⟨fun i hi => ?_, fun y hy => ?_⟩
      · rcases hrd i hi with hi | hi
        · exact .inl (hse i hi)
        · exact (hco i hi).symm
      · rcases hsm y hy with hy | ⟨z, hz, hyz⟩
        · exact hlt y hy
        · exact hyz.trans (hlt z hz)
    · rw [mem_cons, not_or] at hnot ⊢
      exact ⟨(hgr y hy hnot.2).1, hnot.1, (hgr y hy hnot.2).2⟩
    · rcases mem_cons.1 hi with rfl | hi
      · exact .inl (.head _)
      · exact (hco i hi).imp_left (mem_cons_of_mem _)
    · rcases mem_cons.1 hy with rfl | hy
      · exact .inl (.head _)
      · rcases hsm y hy with hy | ⟨z, hz, hyz⟩
        · exact .inl (.tail _ hy)
        · exact .inr ⟨z, .tail _ hz, hyz⟩

lemma Walks.lt_of_gray (h : Walks g seen above stack) {x : ℕ} (hx : x ∈ stack)
    (hgr : seen x = .gray) (hnot : x ∉ above) :
    ∀ y ∈ above, y < x := by
  induction stack generalizing above with
  | nil => nomatch hx
  | cons z rest ih =>
    rcases eq_or_ne x z with rfl | hne
    · exact (h.1 hgr hnot).2
    · intro y hy
      refine ih h.2 ((mem_cons.1 hx).resolve_left hne) ?_ y (.tail _ hy)
      exact fun hmem => (mem_cons.1 hmem).elim hne hnot

/-- Where a schedule stands that was asked for `roots`. -/
structure Plans (o : ResidualOptions) (g : Xag) (base : ℕ → ℕ) (P : ℕ → Prop) (roots stack : List ℕ)
    (st : Planning) : Prop where
  length : st.seen.length = g.size
  lt : ∀ x ∈ stack, x < g.size ∧ P x
  gates : ∀ x < g.size, st.at x ≠ .white → (g.node x).kind.isGate = true
  order : ∀ x, x ∈ st.order ↔ x < g.size ∧ st.at x = .black
  nodup : st.order.Nodup
  older : ∀ pre id post, st.order = pre ++ id :: post → ∀ i, (g.node id).reads i ≠ 0 →
    (g.node i).kind.isGate = true → i ∈ pre
  references : ∀ i, st.references i =
    base i + counted g.size (fun m => if st.at m = .white then 0 else 1) fun m => (g.node m).reads i
  cost : st.cost = (st.order.map fun id => weight o (g.node id).kind).sum
  gray : ∀ x, st.at x = .gray → x ∈ stack
  walks : Walks g st.at [] stack
  reached : ∀ x ∈ st.order, P x
  roots : ∀ x ∈ roots, x ∈ stack ∨ (g.node x).kind.isGate = false ∨ st.at x ≠ .white

variable {base : ℕ → ℕ} {P : ℕ → Prop} {roots : List ℕ} {st : Planning} {id : ℕ}

lemma reads_lt (hg : g.Wf) {i : ℕ} (hid : id < g.size) (hi : (g.node id).reads i ≠ 0) : i < id := by
  cases hga : (g.node id).kind.isGate with
  | false => exact absurd (reads_eq_zero hga i) hi
  | true =>
    obtain ⟨h1, h2⟩ := (hg.canonical id hid hga).older
    rw [reads, if_pos hga] at hi
    by_cases heq1 : (g.node id).inputs.1.id = i
    · exact heq1 ▸ h1
    · by_cases heq2 : (g.node id).inputs.2.id = i
      · exact heq2 ▸ h2
      · rw [if_neg heq1, if_neg heq2] at hi
        exact absurd rfl hi

lemma reads_inputs (hg : (g.node id).kind.isGate = true) {i : ℕ} :
    (g.node id).reads i ≠ 0 ↔ i = (g.node id).inputs.1.id ∨ i = (g.node id).inputs.2.id := by
  rw [reads, if_pos hg]
  by_cases h1 : (g.node id).inputs.1.id = i <;> by_cases h2 : (g.node id).inputs.2.id = i <;>
    simp [h1, eq_comm (a := i)]

lemma Plans.skip (h : Plans o g base P roots (id :: stack) st) (hid : Settled g st.at id) :
    Plans o g base P roots stack st := by
  refine ⟨h.length, fun x hx => h.lt x (.tail _ hx), h.gates, h.order, h.nodup, h.older,
    h.references, h.cost, ?_, ?_,
    h.reached, fun x hx => ?_⟩
  · intro x hx
    refine (mem_cons.1 (h.gray x hx)).resolve_left ?_
    rintro rfl
    have hg := h.gates x (h.lt x (.head _)).1 (by rw [hx]; exact noConfusion)
    rw [hid hg] at hx
    cases hx
  · refine h.walks.2.mono (fun x hx hnot => ⟨hx, ?_⟩) (fun _ hi => hi) (fun i hi => .inr ?_) nofun
    · rw [mem_singleton]
      rintro rfl
      have hg := h.gates x (h.lt x (.head _)).1 (by rw [hx]; exact noConfusion)
      rw [hid hg] at hx
      cases hx
    · rwa [mem_singleton.1 hi]
  · rcases h.roots x hx with hmem | hmem
    · rcases mem_cons.1 hmem with rfl | hmem
      · cases hg : (g.node x).kind.isGate with
        | false => exact .inr (.inl rfl)
        | true => exact .inr (.inr (by rw [hid hg]; exact noConfusion))
      · exact .inl hmem
    · exact .inr hmem

lemma Planning.at_enter (hid : id < st.seen.length) :
    (st.enter g id).at = update st.at id .gray := getD_set hid _ _

lemma Planning.at_finish (hid : id < st.seen.length) :
    (st.finish o g id).at = update st.at id .black := getD_set hid _ _

/-- Marking a node adds what it reads. -/
lemma counted_mark (hid : id < g.size) (hwh : seen id = .white) {v : Visit}
    (hv : v ≠ .white) (f : ℕ → ℕ) :
    counted g.size (fun m => if update seen id v m = .white then 0 else 1) f =
      counted g.size (fun m => if seen m = .white then 0 else 1) f + f id := by
  have hfun : (fun m => if update seen id v m = .white then 0 else 1) =
      update (fun m => if seen m = .white then 0 else 1) id 1 := by
    funext m
    rcases eq_or_ne m id with rfl | hne
    · rw [update_self, update_self, if_neg hv]
    · rw [update_of_ne hne, update_of_ne hne]
  have hup := @RefCount.counted_update _ (fun m => if seen m = .white then 0 else 1) _ hid 1 f
  rw [hfun]
  simpa [hwh] using hup

lemma Plans.enter (hg : g.Wf) (hP : ∀ m < g.size, (g.node m).kind.isGate = true → P m →
    ∀ i, (g.node m).reads i ≠ 0 → P i)
    (h : Plans o g base P roots (id :: stack) st) (hga : (g.node id).kind.isGate = true)
    (hwhi : st.at id = .white) :
    Plans o g base P roots (st.unseen g id ++ id :: stack) (st.enter g id) := by
  obtain ⟨hid, hpid⟩ := h.lt id (.head _)
  have hlt := h.length.symm ▸ hid
  have hat := at_enter (g := g) hlt
  have hwh : ∀ x, (st.enter g id).at x ≠ .white ↔ x = id ∨ st.at x ≠ .white := by
    intro x
    rw [hat]
    rcases eq_or_ne x id with rfl | hne
    · rw [update_self]
      exact iff_of_true noConfusion (inl rfl)
    · rw [update_of_ne hne]
      exact ⟨inr, fun h => h.resolve_left hne⟩
  have hun : ∀ x ∈ st.unseen g id, (g.node id).reads x ≠ 0 := by
    intro x hx
    have hmem := mem_of_mem_filter hx
    refine (reads_inputs hga).2 ?_
    rcases mem_cons.1 hmem with rfl | hmem
    · exact inr rfl
    · exact Or.inl (mem_singleton.1 hmem)
  have hbl : ∀ x, (st.enter g id).at x = .black ↔ st.at x = .black := by
    intro x
    rw [hat]
    rcases eq_or_ne x id with rfl | hne
    · rw [update_self, hwhi]
      exact iff_of_false noConfusion noConfusion
    · rw [update_of_ne hne]
  refine ⟨length_set.trans h.length, ?_, fun x hx hne => ?_, fun x => ?_, h.nodup, h.older, fun i =>
    ?_, h.cost, fun x hx => ?_, ?_,
    h.reached, fun x hx => ?_⟩
  · refine forall_mem_append.2 ⟨fun x hx => ?_, h.lt⟩
    exact ⟨(reads_lt hg hid (hun x hx)).trans hid, hP id hid hga hpid x (hun x hx)⟩
  · rcases (hwh x).1 hne with rfl | hne
    · exact hga
    · exact h.gates x hx hne
  · rw [hbl]
    exact h.order x
  · have hc := @counted_mark g st.at _ hid hwhi .gray noConfusion fun m => (g.node m).reads i
    change refer (refer st.references (g.node id).inputs.1.id) (g.node id).inputs.2.id i = _
    rw [hat, hc, ← add_assoc, ← h.references i, reads, if_pos hga, refer, refer]
    by_cases h1 : (g.node id).inputs.1.id = i <;> by_cases h2 : (g.node id).inputs.2.id = i <;>
      simp [h1, h2, eq_comm (a := i)]
  · refine mem_append_right _ ?_
    rcases eq_or_ne x id with rfl | hne
    · exact .head _
    · rw [hat, update_of_ne hne] at hx
      exact h.gray x hx
  · have hgr : ∀ x ∈ stack, st.at x = .gray → x ≠ id → id < x := fun x hx hgra hne =>
      h.walks.2.lt_of_gray hx hgra (fun hmem => hne (mem_singleton.1 hmem)) id (.head _)
    -- an input is not in progress: those nodes are younger
    have hin : ∀ i, (g.node id).reads i ≠ 0 → Settled g (st.enter g id).at i ∨
        i ∈ st.unseen g id := by
      intro i hi
      have hilt := reads_lt hg hid hi
      have hine := hilt.ne
      cases hv : st.at i with
      | white =>
        refine inr (mem_filter.2 ⟨?_, decide_eq_true ?_⟩)
        · rcases (reads_inputs hga).1 hi with rfl | rfl
          · exact .tail _ (.head _)
          · exact .head _
        · rw [hat, update_of_ne hine, hv]
      | gray =>
        have hmem := (mem_cons.1 (h.gray i hv)).resolve_left hine
        exact absurd (hgr i hmem hv hine) hilt.not_gt
      | black => exact inl fun _ => (hbl i).2 hv
    have hla : Walks g (st.enter g id).at (id :: (st.unseen g id).reverse) stack := by
      refine h.walks.2.mono (fun x hx hnot => ?_) (fun i hi hga => (hbl i).2 (hi hga))
        (fun i hi => ?_) fun y hy => ?_
      · have hne : x ≠ id := fun heq => hnot (heq ▸ (.head _))
        rw [hat, update_of_ne hne] at hx
        exact ⟨hx, fun hmem => hne (mem_singleton.1 hmem)⟩
      · exact inl (mem_singleton.1 hi ▸ (.head _))
      · rcases mem_cons.1 hy with rfl | hy
        · exact inl (.head _)
        · exact inr ⟨id, .head _, reads_lt hg hid (hun y (mem_reverse.1 hy))⟩
    have hn : Walks g (st.enter g id).at (st.unseen g id).reverse (id :: stack) :=
      ⟨fun _ _ => ⟨fun i hi => (hin i hi).imp_right mem_reverse.2,
        fun y hy => reads_lt hg hid (hun y (mem_reverse.1 hy))⟩, hla⟩
    have hpu : ∀ (l above : List ℕ), (∀ x ∈ l, (st.enter g id).at x = .white) →
        Walks g (st.enter g id).at (l.reverse ++ above) (id :: stack) →
        Walks g (st.enter g id).at above (l ++ id :: stack) := by
      intro l
      induction l with
      | nil => exact fun above _ hw => hw
      | cons x l ih =>
        intro above hl hw
        refine ⟨fun hx => ?_, ih (x :: above) (fun y hy => hl y (.tail _ hy)) ?_⟩
        · rw [hl x mem_cons_self] at hx
          cases hx
        · rwa [reverse_cons, append_assoc] at hw
    refine hpu _ [] (fun x hx => of_decide_eq_true (mem_filter.1 hx).2) ?_
    rwa [append_nil]
  · rcases h.roots x hx with hmem | hmem | hmem
    · exact inl (mem_append_right _ hmem)
    · exact inr (inl hmem)
    · exact inr (inr ((hwh x).2 (inr hmem)))

lemma Plans.finish (h : Plans o g base P roots (id :: stack) st) (hgr : st.at id = .gray) :
    Plans o g base P roots stack (st.finish o g id) := by
  obtain ⟨hid, hpid⟩ := h.lt id (.head _)
  have hlt := h.length.symm ▸ hid
  have hat := at_finish (o := o) (g := g) hlt
  have hwh : ∀ x, (st.finish o g id).at x = .white ↔ st.at x = .white := by
    intro x
    rw [hat]
    rcases eq_or_ne x id with rfl | hne
    · rw [update_self, hgr]
      exact iff_of_false noConfusion noConfusion
    · rw [update_of_ne hne]
  have hbl : ∀ x, (st.finish o g id).at x = .black ↔ x = id ∨ st.at x = .black := by
    intro x
    rw [hat]
    rcases eq_or_ne x id with rfl | hne
    · rw [update_self]
      exact iff_of_true rfl (inl rfl)
    · rw [update_of_ne hne]
      exact ⟨inr, fun h => h.resolve_left hne⟩
  have hnew : id ∉ st.order := by
    intro hmem
    have hbl := ((h.order id).1 hmem).2
    rw [hgr] at hbl
    cases hbl
  have ho : ∀ x, (st.finish o g id).at x = .gray → x ≠ id ∧ st.at x = .gray := by
    intro x hx
    have hne : x ≠ id := by
      rintro rfl
      rw [hat, update_self] at hx
      cases hx
    rw [hat, update_of_ne hne] at hx
    exact ⟨hne, hx⟩
  refine ⟨length_set.trans h.length, fun x hx => h.lt x (.tail _ hx),
    fun x hx hne => ?_, fun x => ?_, ?_,
    fun pre x post hsp i hi hg => ?_, fun i => ?_, ?_, fun x hx => ?_, ?_, ?_, fun x hx => ?_⟩
  · exact h.gates x hx fun hw => hne ((hwh x).2 hw)
  · change x ∈ st.order ++ [id] ↔ _
    rw [mem_append, mem_singleton, hbl, h.order x]
    constructor
    · rintro (⟨hx, hb⟩ | rfl)
      · exact ⟨hx, inr hb⟩
      · exact ⟨hid, inl rfl⟩
    · rintro ⟨hx, rfl | hb⟩
      · exact inr rfl
      · exact inl ⟨hx, hb⟩
  · refine nodup_append.2 ⟨h.nodup, pairwise_singleton _ _, fun x hx y hy heq => hnew ?_⟩
    rwa [← mem_singleton.1 hy, ← heq]
  · change st.order ++ [id] = pre ++ x :: post at hsp
    rcases eq_nil_or_concat post with rfl | ⟨post', y, rfl⟩
    · obtain ⟨rfl, hx⟩ := append_inj' hsp rfl
      obtain rfl := singleton_inj.1 hx
      rcases (h.walks.1 hgr not_mem_nil).1 i hi with hse | hmem
      · have hsm : i < g.size := by
          by_contra hge
          rw [Xag.node, getD_eq_default _ _ (Nat.le_of_not_lt hge)] at hg
          cases hg
        exact (h.order i).2 ⟨hsm, hse hg⟩
      · cases hmem
    · have hla : st.order ++ [id] = (pre ++ x :: post') ++ [y] := by
        rw [hsp, append_assoc, concat_eq_append]
        rfl
      exact h.older pre x post' (append_inj' hla rfl).1 i hi hg
  · have hfun : (fun m => if (st.finish o g id).at m = .white then 0 else 1) = fun m =>
        if st.at m = .white then 0 else 1 := by
      simp only [hwh]
    rw [hfun]
    exact h.references i
  · change st.cost + _ = ((st.order ++ [id]).map _).sum
    rw [h.cost, map_append, sum_append, map_singleton, sum_singleton]
  · obtain ⟨hne, hx⟩ := ho x hx
    exact (mem_cons.1 (h.gray x hx)).resolve_left hne
  · refine h.walks.2.mono (fun x hx _ => ?_) (fun i hi hg => (hbl i).2 (inr (hi hg)))
      (fun i hi => inr ?_) (by simp)
    · obtain ⟨hne, hx⟩ := ho x hx
      exact ⟨hx, fun hmem => hne (mem_singleton.1 hmem)⟩
    · exact fun _ => (hbl i).2 (inl (mem_singleton.1 hi))
  · exact forall_mem_append.2 ⟨h.reached, forall_mem_singleton.2 hpid⟩
  · rcases h.roots x hx with hmem | hmem | hmem
    · rcases mem_cons.1 hmem with rfl | hmem
      · exact inr (inr fun hw => by rw [(hwh x).1 hw] at hgr; cases hgr)
      · exact inl hmem
    · exact inr (inl hmem)
    · exact inr (inr fun hw => hmem ((hwh x).1 hw))

lemma scheduleLoop_yields (hand : 0 < o.andCost) (hxor : 0 < o.xorCost) (hg : g.Wf)
    (hP : ∀ m < g.size, (g.node m).kind.isGate = true → P m → ∀ i, (g.node m).reads i ≠ 0 → P i)
    (stack : List ℕ) (st : Planning)
    (h : Plans o g base P roots stack st) :
    Yields (scheduleLoop o g stack st) (Plans o g base P roots []) := by
  induction stack, st using scheduleLoop.induct o g with
  | case1 st =>
    rw [scheduleLoop]
    exact .pure h
  | case2 st id rest ihskip ihenter ihfinish =>
    rw [scheduleLoop]
    refine (WorkM.spend_yields 1).bind fun _ _ =>
      ite (fun hdo => ihskip (h.skip fun hga => ?_)) fun hop => ?_
    · refine hdo.resolve_right fun hw => ?_
      rw [weight_eq_zero hand hxor hw] at hga
      cases hga
    · rw [not_or] at hop
      have hga : (g.node id).kind.isGate = true := by
        by_contra hga
        refine hop.2 ?_
        cases hk : (g.node id).kind <;> rw [hk] at hga <;> first | rfl | exact absurd rfl hga
      split
      next hwh => exact ihenter hwh (h.enter hg hP hga hwh)
      next hwh =>
        refine ihfinish (h.finish ?_)
        cases hv : st.at id with
        | white => exact absurd hv hwh
        | gray => rfl
        | black => exact absurd hv hop.1

lemma Plans.ask (h : Plans o g base P roots [] st) {root : ℕ} (hlt : root < g.size) (hr : P root) :
    Plans o g base P (roots ++ [root]) [root] st := by
  have hno : ∀ x, st.at x ≠ .gray := fun x hx => nomatch h.gray x hx
  refine ⟨h.length, forall_mem_singleton.2 ⟨hlt, hr⟩, h.gates, h.order, h.nodup,
    h.older, h.references, h.cost,
    fun x hx => absurd hx (hno x), ⟨fun hx => absurd hx (hno root), trivial⟩, h.reached, ?_⟩
  refine forall_mem_append.2 ⟨fun x hx => .inr ((h.roots x hx).resolve_left not_mem_nil),
    forall_mem_singleton.2 ?_⟩
  exact .inl (.head _)

lemma refer_foldl (outputs : List ResidualOutput) (references : ℕ → ℕ) (i : ℕ) :
    outputs.foldl (fun references output => refer references output.signal.id) references i =
      references i + outputs.countP (·.signal.id = i) := by
  induction outputs generalizing references with
  | nil => rfl
  | cons output outputs ih =>
    rw [foldl_cons, ih, countP_cons, refer, update_apply]
    simp only [eq_comm (a := i), decide_eq_true_eq]
    split
    next heq =>
      rw [heq]
      omega
    · omega

lemma mem_prioritized {output : ResidualOutput} :
    output ∈ prioritized outputs ↔ output ∈ outputs := by
  rw [prioritized, mem_append, mem_filter, mem_filter]
  cases output.endpointInput <;> simp

/-- What a complete plan says of its order. -/
lemma Plans.ok (h : ∀ P : ℕ → Prop, (∀ output ∈ outputs, P output.signal.id) →
      (∀ m < g.size, (g.node m).kind.isGate = true → P m → ∀ i, (g.node m).reads i ≠ 0 → P i) →
      Plans o g (fun i => outputs.countP (·.signal.id = i)) P (outputs.map (·.signal.id)) [] st) :
      st.toSchedule.Ok o g outputs := by
  have hall := h (fun _ => True) (fun _ _ => trivial) fun _ _ _ _ _ _ => trivial
  have hno : ∀ x, st.at x ≠ .gray := fun x hx => by cases hall.gray x hx
  have hbl : ∀ x, st.at x ≠ .white → st.at x = .black := by
    intro x hx
    cases hv : st.at x with
    | white => exact absurd hv hx
    | gray => exact absurd hv (hno x)
    | black => rfl
  have hga : ∀ x ∈ st.order, x < g.size ∧ (g.node x).kind.isGate = true := fun x hx => by
    obtain ⟨hlt, hv⟩ := (hall.order x).1 hx
    exact ⟨hlt, hall.gates x hlt (by rw [hv]; exact noConfusion)⟩
  refine ⟨hall.nodup, hga, hall.older, fun output hmem hg => ?_, fun i => ?_, hall.cost,
    fun P hout hP => (h P hout hP).reached⟩
  · have hlt : output.signal.id < g.size := by
      by_contra hge
      rw [Xag.node, getD_eq_default _ _ (Nat.le_of_not_lt hge)] at hg
      cases hg
    rcases hall.roots _ (mem_map.2 ⟨output, hmem, rfl⟩) with hmem | hmem | hmem
    · cases hmem
    · rw [hg] at hmem
      cases hmem
    · exact (hall.order _).2 ⟨hlt, hbl _ hmem⟩
  · rw [hall.references i, counted, ← sum_toFinset _ hall.nodup]
    congr 1
    have hsub : st.order.toFinset ⊆ Finset.range g.size := fun x hx =>
      Finset.mem_range.2 (hga x (mem_toFinset.1 hx)).1
    rw [← Finset.sum_subset hsub fun x hx hnot => ?_]
    · refine Finset.sum_congr rfl fun x hx => ?_
      rw [((hall.order x).1 (mem_toFinset.1 hx)).2]
      rfl
    · have hwh : st.at x = .white := by
        by_contra hne
        exact hnot (mem_toFinset.2 ((hall.order x).2 ⟨Finset.mem_range.1 hx, hbl x hne⟩))
      rw [hwh]
      rfl

lemma schedule_yields (hand : 0 < o.andCost) (hxor : 0 < o.xorCost) (hg : g.Wf)
    (hlt : ∀ output ∈ outputs, output.signal.id < g.size) :
    Yields (schedule o g outputs) (Schedule.Ok o g outputs) := by
  refine (WorkM.spend_yields _).bind fun _ _ =>
      map (P := fun st => ∀ P : ℕ → Prop, (∀ output ∈ outputs, P output.signal.id) →
      (∀ m < g.size, (g.node m).kind.isGate = true → P m → ∀ i, (g.node m).reads i ≠ 0 → P i) →
      Plans o g (fun i => outputs.countP (·.signal.id = i)) P
        ((prioritized outputs).map (·.signal.id)) [] st) ?_ fun st hst => ?_
  · intro s st hst P hout hP
    refine foldlM (Q := fun pre st => Plans o g (fun i => outputs.countP (·.signal.id = i)) P
      (pre.map (·.signal.id)) [] st)
      ?_ (fun pre output post hsp st hst => ?_) s st hst
    · have hse : ∀ x < g.size, (replicate g.size white).getD x .black = .white := by
        intro x hx
        rw [getD_eq_getElem?_getD, getElem?_replicate, if_pos hx]
        rfl
      have hout : ∀ x, ¬x < g.size → (replicate g.size white).getD x .black = .black := fun x hx =>
        getD_eq_default _ _ (by rw [length_replicate]; exact Nat.le_of_not_lt hx)
      refine ⟨length_replicate, nofun, fun x hx hne => absurd (hse x hx) hne, fun x => ?_,
        nodup_nil, fun pre x post hsp => ?_,
        fun i => ?_, rfl, fun x hx => ?_, trivial, nofun, nofun⟩
      · refine iff_of_false not_mem_nil ?_
        rintro ⟨hx, hv⟩
        rw [Planning.at, hse x hx] at hv
        cases hv
      · exact absurd (congrArg length hsp) (by simp)
      · have h0 : counted g.size (fun m => if (replicate g.size white).getD m .black = .white
            then 0 else 1)
            (fun m => (g.node m).reads i) = 0 := by
          refine Finset.sum_eq_zero fun m hm => if_pos ?_
          exact if_pos (hse m (Finset.mem_range.1 hm))
        refine (refer_foldl outputs _ i).trans ?_
        rw [zero_add]
        exact congrArg (outputs.countP (·.signal.id = i) + ·) h0.symm
      · by_cases hlt : x < g.size
        · rw [Planning.at, hse x hlt] at hx
          cases hx
        · rw [Planning.at, hout x hlt] at hx
          cases hx
    · have hmem : output ∈ outputs := by
        rw [← mem_prioritized, hsp]
        exact mem_append_right _ (.head _)
      rw [map_append]
      exact scheduleLoop_yields hand hxor hg hP _ st (hst.ask (hlt output hmem) (hout output hmem))
  · refine Plans.ok fun P hout hP => ?_
    have hpl := hst P hout hP
    refine ⟨hpl.length, hpl.lt, hpl.gates, hpl.order, hpl.nodup, hpl.older,
      hpl.references, hpl.cost, hpl.gray,
      hpl.walks, hpl.reached, fun x hx => hpl.roots x ?_⟩
    obtain ⟨output, hmem, rfl⟩ := mem_map.1 hx
    exact mem_map.2 ⟨output, mem_prioritized.2 hmem, rfl⟩

end

end LiveHD.Usyn
