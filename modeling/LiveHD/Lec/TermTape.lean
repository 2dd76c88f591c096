import LiveHD.Lec.TermSim
import LiveHD.Lib.Lists

/-!
# The tape of the term simulator

What `build` guarantees of a tape that it accepts: a node for a term comes after the nodes of
its operands, with the operation and the sort of that term.
-/

namespace LiveHD.Lec

open Words Function List LiveHD.Frame Nat Option Sim

variable {T : Terms} {s s' : Sim} {t : ℕ} {n : Node}

/-- A node's sort is that of its term. -/
def SortFor (n : Node) : Srt → Prop
  | .bool => n.sort = .bool ∧ n.width = 1
  | .bv w => n.sort = .bv ∧ n.width = w
  | .array _ e => n.sort = .array ∧ n.width = e
  | .other => False

lemma SortFor.width {σ : Srt} (h : SortFor n σ) : n.width = σ.width := by
  cases σ with
  | other => cases h
  | _ => exact h.2

/-- A node's operation is that of its term. -/
def OpFor (T : Terms) (n : Node) (t : ℕ) : Prop := match (T.term t).kind with
  | .constant => if n.kids = [] then n.op = .leaf else n.op = .alias
  | .constBoolean | .constBitvector => n.op = .const
  | .constArray => n.op = .constArray
  | .fn f => n.op = .fn f ∧ ∀ w ks, evalFn w n.p0 n.p1 ks f =
    evalFn w (T.term t).indices.1 (T.term t).indices.2 ks f
  | .other _ => False

/-- A node and what it refers to. -/
structure Made (T : Terms) (s : Sim) (id : ℕ) : Prop where
  mark : s.nodeOf (s.origOf id) = some (.node id)
  sort : SortFor (s.node id) (T.sort (s.origOf id))
  op : OpFor T (s.node id) (s.origOf id)
  nw : (s.node id).sort ≠ .array → (s.node id).nw = nwords (s.node id).width
  kids : Forall₂ (fun k o => k < id ∧ s.origOf k = o) (s.node id).kids
    (operands T s.defs (s.origOf id))
  accepts : ∀ f, (s.node id).op = .fn f →
    f.accepts ((s.node id).kids.map fun k => (s.node k).sort) = true
  leaf : (s.node id).op = .leaf → (s.node id).leaf < s.leaves.length ∧
    s.leafOf (s.node id).leaf = (s.node id).leafFor (s.origOf id) id

/-- Every node of a tape was made from its term. -/
structure Tape (T : Terms) (s : Sim) : Prop where
  origLength : s.orig.length = s.nodes.length
  marked : ∀ t id, s.nodeOf t = some (.node id) → id < s.nodes.length ∧ s.origOf id = t
  made : ∀ id < s.nodes.length, Made T s id
  leaves : ∀ l < s.leaves.length, (s.leafOf l).node < s.nodes.length ∧
    (s.node (s.leafOf l).node).op = .leaf ∧
    (s.node (s.leafOf l).node).leaf = l

/-- The words that an evaluation starts from. -/
structure Written (T : Terms) (s : Sim) : Prop where
  wordsLength : s.words.length = s.nodes.length
  consts : ∀ id < s.nodes.length, (s.node id).op = .const →
    s.wordsOf id = Sim.initialWords T (s.origOf id) (s.node id)
  leafWords : ∀ id < s.nodes.length, (s.node id).op = .leaf → (s.node id).sort ≠ .array →
    (s.wordsOf id).length = (s.node id).nw

/-! ## A new node -/

lemma sortFor_of_nodeSort {σ : Srt} {sort : NodeSort} {w i : ℕ} (h : nodeSort σ = some (sort, w, i))
    (hso : n.sort = sort) (hw : n.width = w) :
    SortFor n σ := by
  cases σ with
  | other => cases h
  | _ =>
    cases h
    exact ⟨hso, hw⟩

lemma nodeOp_ok {sort : NodeSort} {w : ℕ} {kids : List ℕ} {op : Op}
    (h : s.nodeOp T t sort w kids = .ok op) (hop : n.op = op) (hks : n.kids = kids)
    (hin : ∀ f, op = .fn f → ∀ w ks, evalFn w n.p0 n.p1 ks f =
      evalFn w (T.term t).indices.1 (T.term t).indices.2 ks f) :
    OpFor T n t ∧ ∀ f, n.op = .fn f → f.accepts (kids.map fun k => (s.node k).sort) = true := by
  unfold nodeOp at h
  rw [OpFor, hop, hks]
  cases hk : (T.term t).kind with
  | constant =>
    rw [hk] at h
    cases kids with
    | nil =>
      cases h
      exact ⟨rfl, nofun⟩
    | cons k kids =>
      dsimp only at h
      split at h
      · cases h
        exact ⟨rfl, nofun⟩
      · cases h
  | constBoolean =>
    rw [hk] at h
    cases h
    exact ⟨rfl, nofun⟩
  | constBitvector =>
    rw [hk] at h
    cases h
    exact ⟨rfl, nofun⟩
  | constArray =>
    rw [hk] at h
    cases h
    exact ⟨rfl, nofun⟩
  | fn f =>
    rw [hk] at h
    dsimp only at h
    split at h
    next hac =>
      cases h
      refine ⟨⟨rfl, hin f rfl⟩, fun g hg => ?_⟩
      cases hg
      exact hac
    · cases h
  | other c =>
    rw [hk] at h
    cases h

/-- What `makeNode` returns. -/
lemma makeNode_ok (h : s.makeNode T t = .ok n) :
    SortFor n (T.sort t) ∧ OpFor T n t ∧ (n.sort ≠ .array → n.nw = nwords n.width) ∧
    Forall₂ (fun k o => s.nodeOf o = some (.node k)) n.kids (operands T s.defs t) ∧
    (∀ f, n.op = .fn f → f.accepts (n.kids.map fun k => (s.node k).sort) = true) ∧
    (n.op = .leaf → n.leaf = s.leaves.length) := by
  rw [makeNode] at h
  cases hso : nodeSort (T.sort t) with
  | none =>
    rw [hso] at h
    cases h
  | some r =>
    obtain ⟨sort, width, index⟩ := r
    rw [hso] at h
    cases hks : (operands T s.defs t).mapM s.operandNode with
    | error e =>
      rw [hks] at h
      cases h
    | ok kids =>
      rw [hks] at h
      cases hop : s.nodeOp T t sort width kids with
      | error e =>
        simp only [bind, Except.bind, hop] at h
        cases h
      | ok op =>
        simp only [bind, Except.bind, hop] at h
        have hn := Except.ok.inj h
        have hopF := nodeOp_ok (n := n) hop (by rw [← hn]) (by rw [← hn]) (by
          rintro f rfl w ks
          rw [← hn]
          exact (by cases f <;> rfl))
        subst hn
        obtain ⟨hopF, hac⟩ := hopF
        refine ⟨sortFor_of_nodeSort hso rfl rfl, hopF, fun hne => if_neg hne, ?_,
          hac, fun hl => if_pos hl⟩
        refine (forall₂_of_mapM_eq_ok hks).flip.imp fun k o hk => ?_
        rw [operandNode] at hk
        split at hk
        next id hid =>
          cases hk
          exact hid
        · cases hk

section Push

lemma node_push {id : ℕ} (hid : id < s.nodes.length) :
    (s.push T t n).node id = s.node id := getD_append _ _ _ _ hid

variable (hs : Tape T s)
include hs

lemma Tape.origOf_push {id : ℕ} (hid : id < s.nodes.length) :
    (s.push T t n).origOf id = s.origOf id :=
  getD_append _ _ _ _ (hs.origLength ▸ hid)

omit hs in
lemma node_push_self : (s.push T t n).node s.nodes.length = n := by
  rw [Sim.node, push, getD_append_right _ _ _ _ le_rfl, Nat.sub_self]
  rfl

lemma Tape.origOf_push_self : (s.push T t n).origOf s.nodes.length = t := by
  rw [Sim.origOf, push, getD_append_right _ _ _ _ hs.origLength.le, hs.origLength, Nat.sub_self]
  rfl

omit hs in
lemma leafOf_push {l : ℕ} (hl : l < s.leaves.length) : (s.push T t n).leafOf l = s.leafOf l := by
  change getD (if n.op = .leaf then s.leaves ++ [_] else s.leaves) l {} = _
  split
  · exact getD_append _ _ _ _ hl
  · rfl

omit hs in
lemma leaves_push_le : s.leaves.length ≤ (s.push T t n).leaves.length := by
  change _ ≤ length (if n.op = .leaf then s.leaves ++ [_] else s.leaves)
  split
  · rw [length_append]
    exact Nat.le_add_right _ _
  · exact le_rfl

lemma Made.push (hbu : s.nodeOf t = some .busy) {id : ℕ} (hid : id < s.nodes.length) :
    Made T (s.push T t n) id := by
  have h := hs.made id hid
  have hks : ∀ k ∈ (s.node id).kids, k < id := fun k hk => by
    obtain ⟨o, -, ho⟩ := h.kids.exists_of_mem_left hk
    exact ho.1
  constructor
  · rw [hs.origOf_push hid]
    refine (update_of_ne (fun heq => ?_) _ _).trans h.mark
    have hma := h.mark
    rw [heq, hbu] at hma
    cases hma
  · rw [node_push hid, hs.origOf_push hid]
    exact h.sort
  · rw [node_push hid, hs.origOf_push hid]
    exact h.op
  · rw [node_push hid]
    exact h.nw
  · rw [node_push hid, hs.origOf_push hid]
    refine h.kids.imp fun k o hko => ⟨hko.1, ?_⟩
    rw [hs.origOf_push (hko.1.trans hid)]
    exact hko.2
  · intro f hf
    rw [node_push hid] at hf ⊢
    rw [map_congr_left fun k hk => by rw [node_push ((hks k hk).trans hid)]]
    exact h.accepts f hf
  · intro hl
    rw [node_push hid] at hl ⊢
    obtain ⟨hlt, heq⟩ := h.leaf hl
    refine ⟨hlt.trans_le leaves_push_le, ?_⟩
    rwa [leafOf_push hlt, hs.origOf_push hid]

/-- The node that was made for a term. -/
lemma Made.push_self (hn : s.makeNode T t = .ok n) : Made T (s.push T t n) s.nodes.length := by
  obtain ⟨hso, hop, hnw, hks, hac, hle⟩ := makeNode_ok hn
  have hlt : ∀ k ∈ n.kids, k < s.nodes.length := fun k hk => by
    obtain ⟨o, -, ho⟩ := hks.exists_of_mem_left hk
    exact (hs.marked o k ho).1
  constructor
  · rw [hs.origOf_push_self]
    exact update_self ..
  · rwa [node_push_self, hs.origOf_push_self]
  · rwa [node_push_self, hs.origOf_push_self]
  · rwa [node_push_self]
  · rw [node_push_self, hs.origOf_push_self]
    refine hks.imp fun k o hko => ?_
    obtain ⟨hk, hor⟩ := hs.marked o k hko
    exact ⟨hk, (hs.origOf_push hk).trans hor⟩
  · intro f hf
    rw [node_push_self] at hf ⊢
    rw [map_congr_left fun k hk => by rw [node_push (hlt k hk)]]
    exact hac f hf
  · intro hop
    rw [node_push_self] at hop ⊢
    have hl : (s.push T t n).leaves = s.leaves ++ [n.leafFor t s.nodes.length] := if_pos hop
    rw [hle hop, leafOf, hl, length_append, getD_append_right _ _ _ _ le_rfl,
      Nat.sub_self, hs.origOf_push_self]
    exact ⟨Nat.lt_succ_self _, rfl⟩

lemma Tape.push (hbu : s.nodeOf t = some .busy) (hn : s.makeNode T t = .ok n) :
    Tape T (s.push T t n) := by
  have hlen : (s.push T t n).nodes.length = s.nodes.length + 1 := length_append
  constructor
  · rw [hlen]
    change (s.orig ++ [t]).length = _
    rw [length_append, hs.origLength]
    rfl
  · intro u id hu
    change update s.nodeOf t (some (.node s.nodes.length)) u = _ at hu
    rcases eq_or_ne u t with rfl | hne
    · rw [update_self] at hu
      obtain rfl := Mark.node.inj (some.inj hu)
      exact ⟨hlen ▸ lt_succ_self _, hs.origOf_push_self⟩
    · rw [update_of_ne hne] at hu
      obtain ⟨hid, hor⟩ := hs.marked u id hu
      exact ⟨hlen ▸ lt_succ_of_lt hid, (hs.origOf_push hid).trans hor⟩
  · intro id hid
    rw [hlen] at hid
    rcases Nat.lt_succ_iff_lt_or_eq.1 hid with hlt | rfl
    · exact .push hs hbu hlt
    · exact .push_self hs hn
  · intro l hl
    by_cases hlt : l < s.leaves.length
    · obtain ⟨hno, hop, hlf⟩ := hs.leaves l hlt
      rw [leafOf_push hlt, node_push hno, hlen]
      exact ⟨lt_succ_of_lt hno, hop, hlf⟩
    · by_cases hop : n.op = .leaf
      · have hma := (Made.push_self hs hn).leaf (by rw [node_push_self]; exact hop)
        have hnl := (makeNode_ok hn).2.2.2.2.2 hop
        have hle : (s.push T t n).leaves.length = s.leaves.length + 1 := by
          change length (if n.op = .leaf then s.leaves ++ [_] else s.leaves) = _
          rw [if_pos hop, length_append]
          rfl
        obtain rfl : l = s.leaves.length := by omega
        rw [node_push_self, hnl] at hma
        rw [hma.2]
        refine ⟨hlen ▸ Nat.lt_succ_self _, ?_, ?_⟩
        · change ((s.push T t n).node s.nodes.length).op = _
          rw [node_push_self, hop]
        · change ((s.push T t n).node s.nodes.length).leaf = _
          rw [node_push_self, hnl]
      · have hle : (s.push T t n).leaves = s.leaves := if_neg hop
        rw [hle] at hl
        exact absurd hl hlt

end Push

lemma Tape.mark (hs : Tape T s) (hno : s.nodeOf t = none) : Tape T (s.mark t) := by
  constructor
  · exact hs.origLength
  · intro u id hu
    change update s.nodeOf t (some .busy) u = _ at hu
    rcases eq_or_ne u t with rfl | hne
    · rw [update_self] at hu
      cases hu
    · rw [update_of_ne hne] at hu
      exact hs.marked u id hu
  · intro id hid
    have h := hs.made id hid
    refine ⟨?_, h.sort, h.op, h.nw, h.kids, h.accepts, h.leaf⟩
    refine (update_of_ne (fun heq => ?_) _ _).trans h.mark
    have hma := h.mark
    rw [show s.origOf id = t from heq, hno] at hma
    cases hma
  · exact hs.leaves

lemma Written.push (hs : Tape T s) (hw : Written T s) : Written T (s.push T t n) := by
  have hlen : (s.push T t n).nodes.length = s.nodes.length + 1 := length_append
  have hold : ∀ {id : ℕ}, id < s.nodes.length →
      (s.push T t n).wordsOf id = s.wordsOf id := fun hid =>
    getD_append _ _ _ _ (hw.wordsLength ▸ hid)
  have hnew : (s.push T t n).wordsOf s.nodes.length = initialWords T t n := by
    rw [wordsOf, Sim.push, getD_append_right _ _ _ _ hw.wordsLength.le,
      hw.wordsLength, Nat.sub_self]
    rfl
  constructor
  · rw [hlen]
    change (s.words ++ [_]).length = _
    rw [length_append, hw.wordsLength]
    rfl
  · intro id hid hop
    rw [hlen] at hid
    rcases Nat.lt_succ_iff_lt_or_eq.1 hid with hlt | rfl
    · rw [node_push hlt] at hop ⊢
      rw [hold hlt, hs.origOf_push hlt]
      exact hw.consts id hlt hop
    · rw [hnew, node_push_self, hs.origOf_push_self]
  · intro id hid hop hso
    rw [hlen] at hid
    rcases Nat.lt_succ_iff_lt_or_eq.1 hid with hlt | rfl
    · rw [node_push hlt] at hop hso ⊢
      rw [hold hlt]
      exact hw.leafWords id hlt hop hso
    · rw [node_push_self] at hop hso ⊢
      rw [hnew, Sim.initialWords, hop]
      cases hn : n.sort with
      | array => exact absurd hn hso
      | bool => exact length_replicate
      | bv => exact length_replicate

/-! ## The loop -/

/-- The exit frames of the stack are those of the busy terms. -/
structure Pending (s : Sim) (stack : List (Frame ℕ)) : Prop where
  busy : ∀ t, s.nodeOf t = some .busy ↔ ⟨t, true⟩ ∈ stack
  nodup : (stack.filter exit).Nodup

/-- What a step of `build` keeps. -/
structure Extends (T : Terms) (s s' : Sim) : Prop where
  tape : Tape T s'
  written : Written T s'
  defs : s'.defs = s.defs
  roots : s'.roots = s.roots
  constraints : s'.constraints = s.constraints
  keeps : ∀ t id, s.nodeOf t = some (.node id) → s'.nodeOf t = some (.node id)

namespace Pending

variable {stack : List (Frame ℕ)}

lemma push (h : Pending s (⟨t, true⟩ :: stack)) : Pending (s.push T t n) stack := by
  have hnd := h.nodup
  rw [filter_cons_of_pos rfl, nodup_cons] at hnd
  refine ⟨fun u => ?_, hnd.2⟩
  change update s.nodeOf t (some (.node s.nodes.length)) u = _ ↔ _
  rcases eq_or_ne u t with rfl | hne
  · rw [update_self]
    exact iff_of_false nofun fun hmem => hnd.1 (mem_filter.2 ⟨hmem, rfl⟩)
  · rw [update_of_ne hne, h.busy, mem_cons, or_iff_right]
    exact fun heq => hne (congrArg Frame.id heq)

lemma skip (h : Pending s (⟨t, false⟩ :: stack)) : Pending s stack := by
  refine ⟨fun u => ?_, h.nodup⟩
  rw [h.busy, mem_cons, or_iff_right]
  exact fun heq => Bool.noConfusion (congrArg Frame.exit heq)

lemma enter (h : Pending s (⟨t, false⟩ :: stack)) (hno : s.nodeOf t = none) (ops : List ℕ) :
    Pending (s.mark t) (ops.map (⟨·, false⟩) ++ ⟨t, true⟩ :: stack) := by
  have hr := h.skip
  have hen : ∀ u, (⟨u, true⟩ : Frame ℕ) ∉ ops.map (⟨·, false⟩) := fun u hu => by
    obtain ⟨o, -, ho⟩ := mem_map.1 hu
    cases congrArg exit ho
  refine ⟨fun u => ?_, ?_⟩
  · change update s.nodeOf t (some .busy) u = _ ↔ _
    rw [mem_append, or_iff_right (hen u), mem_cons]
    rcases eq_or_ne u t with rfl | hne
    · rw [update_self]
      exact iff_of_true rfl (.inl rfl)
    · rw [update_of_ne hne, hr.busy, or_iff_right]
      exact fun heq => hne (congrArg Frame.id heq)
  · have hfi : (ops.map (⟨·, false⟩ : ℕ → Frame ℕ)).filter Frame.exit = [] :=
        filter_eq_nil_iff.2 fun f hf => by
      obtain ⟨o, -, rfl⟩ := mem_map.1 hf
      exact Bool.false_ne_true
    rw [filter_append, hfi, nil_append, filter_cons_of_pos rfl, nodup_cons]
    refine ⟨fun hmem => ?_, hr.nodup⟩
    have hbu := (hr.busy t).2 (mem_filter.1 hmem).1
    rw [hno] at hbu
    cases hbu

end Pending

lemma addLoop_extends (stack : List (Frame ℕ)) (s : Sim) (hs : Tape T s)
    (hw : Written T s) (hp : Pending s stack)
    (h : addLoop T stack s = .ok s') :
    Extends T s s' ∧ Pending s' [] ∧ ∀ t, ⟨t, true⟩ ∈ stack →
    ∃ id, s'.nodeOf t = some (.node id) := by
  induction stack, s using addLoop.induct T with
  | case1 s =>
    rw [addLoop] at h
    cases h
    exact ⟨⟨hs, hw, rfl, rfl, rfl, fun _ _ ht => ht⟩, hp, nofun⟩
  | case2 s t rest why hwhy =>
    rw [addLoop, hwhy] at h
    cases h
  | case3 s t rest n hn ih =>
    rw [addLoop, hn] at h
    have hbu := (hp.busy t).2 (.head _)
    obtain ⟨hext, hdo, hns⟩ := ih (hs.push hbu hn) (hw.push hs) hp.push h
    have hke : ∀ u id, s.nodeOf u = some (.node id) →
        (s.push T t n).nodeOf u = some (.node id) := by
      intro u id hu
      refine (update_of_ne (fun heq => ?_) _ _).trans hu
      rw [heq, hbu] at hu
      cases hu
    refine ⟨⟨hext.tape, hext.written, hext.defs, hext.roots, hext.constraints,
      fun u id hu => hext.keeps u id (hke u id hu)⟩, hdo, ?_⟩
    intro u hu
    rcases mem_cons.1 hu with heq | hu
    · obtain rfl : u = t := congrArg Frame.id heq
      exact ⟨_, hext.keeps u _ (update_self ..)⟩
    · exact hns u hu
  | case4 s t rest m hm ih =>
    rw [addLoop] at h
    split at h
    · obtain ⟨hext, hdo, hns⟩ := ih hs hw hp.skip h
      refine ⟨hext, hdo, fun u hu => hns u ((mem_cons.1 hu).resolve_left ?_)⟩
      exact fun heq => Bool.noConfusion (congrArg exit heq)
    next hno =>
      rw [hm] at hno
      cases hno
  | case5 s t rest hno mark ops hany =>
    rw [addLoop] at h
    split at h
    next hm =>
      rw [hno] at hm
      cases hm
    · rw [if_pos hany] at h
      cases h
  | case6 s t rest hno mark ops hany ih =>
    rw [addLoop] at h
    split at h
    next hm =>
      rw [hno] at hm
      cases hm
    · rw [if_neg hany] at h
      obtain ⟨hext, hdo, hns⟩ := ih (hs.mark hno) ⟨hw.wordsLength, hw.consts,
        hw.leafWords⟩ (hp.enter hno _) h
      refine ⟨⟨hext.tape, hext.written, hext.defs, hext.roots, hext.constraints,
        fun u id hu => hext.keeps u id ?_⟩, hdo, fun u hu => hns u ?_⟩
      · refine (update_of_ne (fun heq => ?_) _ _).trans hu
        rw [heq, hno] at hu
        cases hu
      · refine mem_append_right _ (.tail _ ((mem_cons.1 hu).resolve_left ?_))
        exact fun heq => Bool.noConfusion (congrArg Frame.exit heq)

/-- `add_node` makes a node for the term. -/
lemma add_extends (hs : Tape T s) (hw : Written T s) (hp : Pending s []) {r : ℕ}
    (h : Sim.add T r s = .ok s') :
    Extends T s s' ∧ Pending s' [] ∧ s'.nodeOf r = some (.node (s'.nodeId r)) := by
  have hn : ∀ {s : Sim}, (∃ id, s.nodeOf r = some (.node id)) →
      s.nodeOf r = some (.node (s.nodeId r)) := by
    rintro s ⟨id, hid⟩
    rw [nodeId, hid]
  rw [Sim.add] at h
  split at h
  next hsm =>
    cases h
    refine ⟨⟨hs, hw, rfl, rfl, rfl, fun _ _ ht => ht⟩, hp, hn ?_⟩
    obtain ⟨m, hm⟩ := isSome_iff_exists.1 hsm
    cases m with
    | busy => nomatch (hp.busy r).1 hm
    | node id => exact ⟨id, hm⟩
  next hsm =>
    have hno := not_isSome_iff_eq_none.1 hsm
    rw [addLoop] at h
    split at h
    next hm =>
      rw [hno] at hm
      cases hm
    · dsimp only at h
      split at h
      · cases h
      · have hst : Pending s [⟨r, false⟩] := ⟨fun t => by rw [hp.busy]; simp, nodup_nil⟩
        obtain ⟨hext, hdo, hns⟩ := addLoop_extends _ _ (hs.mark hno) ⟨hw.wordsLength, hw.consts,
          hw.leafWords⟩ (hst.enter hno _) h
        refine ⟨⟨hext.tape, hext.written, hext.defs, hext.roots, hext.constraints,
          fun u id hu => hext.keeps u id ?_⟩, hdo, hn (hns r ?_)⟩
        · refine (update_of_ne (fun heq => ?_) _ _).trans hu
          rw [heq, hno] at hu
          cases hu
        · exact mem_append_right _ (.head _)

/-! ## Roots and constraints -/

/-- The nodes of a list of terms. -/
def NodesOf (s : Sim) (ids ts : List ℕ) : Prop :=
  Forall₂ (fun id t => s.nodeOf t = some (.node id)) ids ts

lemma addRoots_ok (hs : Tape T s) (hw : Written T s) (hp : Pending s []) {rs : List ℕ}
    (h : Sim.addRoots T rs s = .ok s') :
    Tape T s' ∧ Written T s' ∧ Pending s' [] ∧ s'.defs = s.defs ∧ s'.constraints = s.constraints ∧
    (∀ t id, s.nodeOf t = some (.node id) → s'.nodeOf t = some (.node id)) ∧
    ∃ ids, s'.roots = s.roots ++ ids ∧ NodesOf s' ids rs := by
  induction rs generalizing s with
  | nil =>
    cases h
    exact ⟨hs, hw, hp, rfl, rfl, fun _ _ ht => ht, [], (append_nil _).symm, .nil⟩
  | cons r rs ih =>
    rw [addRoots] at h
    cases hadd : Sim.add T r s with
    | error e =>
      rw [hadd] at h
      cases h
    | ok s₁ =>
      rw [hadd] at h
      obtain ⟨hext, hp₁, hn⟩ := add_extends hs hw hp hadd
      have hta := hext.tape
      obtain ⟨hs', hw', hp', hde, hco, hke, ids, hids, hns⟩ :=
        @ih { s₁ with roots := s₁.roots ++ [s₁.nodeId r] }
          ⟨hta.origLength, hta.marked, fun id hid => (hta.made id hid).recOn
            fun a b c d e f g => ⟨a, b, c, d, e, f, g⟩, hta.leaves⟩
          ⟨hext.written.wordsLength, hext.written.consts,
            hext.written.leafWords⟩ ⟨hp₁.busy, hp₁.nodup⟩ h
      refine ⟨hs', hw', hp', hde.trans hext.defs, hco.trans hext.constraints, fun t id ht =>
        hke t id (hext.keeps t id ht),
        s₁.nodeId r :: ids, ?_, .cons (hke r _ hn) hns⟩
      rw [hids, hext.roots, append_assoc]
      rfl

lemma addConstraints_ok (hs : Tape T s) (hw : Written T s) (hp : Pending s []) {cs : List ℕ}
    (h : Sim.addConstraints T cs s = .ok s') :
    Tape T s' ∧ Written T s' ∧ s'.defs = s.defs ∧ s'.roots = s.roots ∧
    (∀ t id, s.nodeOf t = some (.node id) → s'.nodeOf t = some (.node id)) ∧
    (∀ c ∈ cs, T.sort c = .bool) ∧
    ∃ ids, s'.constraints = s.constraints ++ ids ∧ NodesOf s' ids cs := by
  induction cs generalizing s with
  | nil =>
    cases h
    exact ⟨hs, hw, rfl, rfl, fun _ _ ht => ht, nofun, [], (append_nil _).symm, .nil⟩
  | cons c cs ih =>
    rw [addConstraints] at h
    by_cases hso : T.sort c = .bool
    · rw [if_neg (not_not.2 hso)] at h
      cases hadd : Sim.add T c s with
      | error e =>
        rw [hadd] at h
        cases h
      | ok s₁ =>
        rw [hadd] at h
        obtain ⟨hext, hp₁, hn⟩ := add_extends hs hw hp hadd
        have hta := hext.tape
        obtain ⟨hs', hw', hde, hro, hke, hsr, ids, hids, hns⟩ :=
          @ih { s₁ with constraints := s₁.constraints ++ [s₁.nodeId c] }
            ⟨hta.origLength, hta.marked, fun id hid => (hta.made id hid).recOn
              fun a b c d e f g => ⟨a, b, c, d, e, f, g⟩, hta.leaves⟩
            ⟨hext.written.wordsLength, hext.written.consts,
              hext.written.leafWords⟩ ⟨hp₁.busy, hp₁.nodup⟩ h
        refine ⟨hs', hw', hde.trans hext.defs, hro.trans hext.roots, fun t id ht =>
          hke t id (hext.keeps t id ht),
          forall_mem_cons.2 ⟨hso, hsr⟩, s₁.nodeId c :: ids, ?_, .cons (hke c _ hn) hns⟩
        rw [hids, hext.constraints, append_assoc]
        rfl
    · rw [if_pos hso] at h
      cases h

/-- A simulator whose tape was accepted. -/
structure Ready (T : Terms) (assertions roots : List ℕ) (s : Sim) : Prop where
  tape : Tape T s
  written : Written T s
  refsLength : s.refs.length = s.nodes.length
  seedsLength : s.seeds.length = s.leaves.length
  defs : s.defs = (splitAssertions T assertions (fun _ => none, [])).1
  roots : NodesOf s s.roots roots
  constraints : NodesOf s s.constraints (splitAssertions T assertions (fun _ => none, [])).2
  booleans : ∀ c ∈ (splitAssertions T assertions (fun _ => none, [])).2, T.sort c = .bool

lemma build_ready {assertions roots : List ℕ} (h : Sim.build T assertions roots = .ok s) :
    Ready T assertions roots s := by
  have hem : Tape T { defs := (splitAssertions T assertions (fun _ => none, [])).1 } :=
    ⟨rfl, nofun, nofun, nofun⟩
  rw [build] at h
  cases hro : addRoots T roots { defs := (splitAssertions T assertions (fun _ => none, [])).1 } with
  | error e =>
    simp only [hro] at h
    cases h
  | ok s₁ =>
    simp only [bind, Except.bind, hro] at h
    obtain ⟨hs₁, hw₁, hp₁, hdefs₁, hcons₁, -, ids, hids, hns⟩ :=
      addRoots_ok hem ⟨rfl, nofun, nofun⟩ ⟨fun t => iff_of_false nofun nofun, nodup_nil⟩ hro
    cases hco : addConstraints T (splitAssertions T assertions (fun _ => none, [])).2 s₁ with
    | error e =>
      rw [hco] at h
      cases h
    | ok s₂ =>
      rw [hco] at h
      obtain ⟨hs₂, hw₂, hdefs₂, hroots₂, hke, hso, cids, hci, hcn⟩ :=
        addConstraints_ok hs₁ hw₁ hp₁ hco
      cases h
      constructor
      · exact ⟨hs₂.origLength, hs₂.marked, fun id hid => (hs₂.made id hid).recOn
          fun a b c d e f g => ⟨a, b, c, d, e, f, g⟩, hs₂.leaves⟩
      · exact ⟨hw₂.wordsLength, hw₂.consts, hw₂.leafWords⟩
      · exact length_replicate
      · exact length_replicate
      · exact hdefs₂.trans hdefs₁
      · rw [hroots₂, hids]
        exact hns.imp fun id t ht => hke t id ht
      · rwa [hci, hcons₁]
      · exact hso

end LiveHD.Lec
