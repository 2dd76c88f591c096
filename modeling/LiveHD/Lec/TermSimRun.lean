import LiveHD.Lec.TermSimSound

/-!
# Runs of the term simulator

After `build`, the leaves are written and the tape is evaluated in any order.  Each
evaluation gives every node the SMT-LIB value of its term.
-/

namespace LiveHD.Lec

open Words

variable {T : Terms} {s s' : Sim} {assertions roots : List ℕ}

/-! ## Calls -/

/-- A simulator between two calls. -/
structure Usable (T : Terms) (s : Sim) : Prop where
  accepted : Accepted T s
  written : Written T s
  refsLength : s.refs.length = s.nodes.length

lemma Ready.usable (hT : T.Ok)
    (hr : Ready T assertions roots s) : Usable T s := ⟨hr.accepted hT, hr.written, hr.refsLength⟩

lemma evaluated_of_usable (hT : T.Ok) (h : Usable T s) (record : Bool) :
    Evaluated s s.nodes.length (s.evalNodes record) :=
  evalNodes_evaluated hT h.accepted h.written.wordsLength h.refsLength record

lemma Usable.eval (hT : T.Ok) (h : Usable T s) (record : Bool) : Usable T (s.evalNodes record) := by
  have hF := evaluated_of_usable hT h record
  have hn := hF.same.node
  refine ⟨hF.same.accepted h.accepted, ⟨?_, ?_, ?_⟩, ?_⟩
  · rw [hF.wordsLength, hF.same.nodes, h.written.wordsLength]
  · intro id hid hop
    rw [hF.same.nodes] at hid
    have hse := hF.settled id hid
    rw [result_const _ _ hop] at hse
    rw [hn] at hop ⊢
    have hke : s.wordsOf id = (s.evalNodes record).wordsOf id := congrArg Prod.fst hse
    rw [← hke, hF.same.origOf]
    exact h.written.consts id hid hop
  · intro id hid hop hs
    rw [hF.same.nodes] at hid
    have hse := hF.settled id hid
    rw [result_leaf _ _ hop, if_neg hs] at hse
    rw [hn] at hop hs ⊢
    have hcl : clearTop (s.wordsOf id) _ = (s.evalNodes record).wordsOf id := congrArg Prod.fst hse
    rw [← hcl, length_clearTop]
    exact h.written.leafWords id hid hop hs
  · rw [hF.refsLength, hF.same.nodes, h.refsLength]

/-- New words for a leaf. -/
lemma Usable.write (h : Usable T s) {l : ℕ} (hl : l < s.leaves.length) {f : List Word → List Word}
    (hf : ∀ ws, ws.length = (s.node (s.leafOf l).node).nw →
      (f ws).length = (s.node (s.leafOf l).node).nw) :
    Usable T { s with words := s.words.modify (s.leafOf l).node f } := by
  obtain ⟨hlt, hop, -⟩ := h.accepted.tape.leaves l hl
  have hsa : SameTape s { s with words := s.words.modify (s.leafOf l).node f } :=
    ⟨rfl, rfl, rfl, rfl, rfl, rfl, rfl⟩
  have hwo : ∀ id, id < s.nodes.length → (s.words.modify (s.leafOf l).node f).getD id [] =
      if id = (s.leafOf l).node then f (s.wordsOf id) else s.wordsOf id := by
    intro id hid
    rw [← h.written.wordsLength] at hid
    rw [List.getD_eq_getElem?_getD, List.getElem?_modify, Sim.wordsOf, List.getD_eq_getElem _ _ hid,
      List.getElem?_eq_getElem hid]
    change (if (s.leafOf l).node = id then f (s.words[id]) else s.words[id]) = _
    by_cases heq : id = (s.leafOf l).node
    · rw [if_pos heq, if_pos heq.symm]
    · rw [if_neg heq, if_neg (Ne.symm heq)]
  refine ⟨hsa.accepted h.accepted, ⟨?_, ?_, ?_⟩, h.refsLength⟩
  · exact (List.length_modify ..).trans h.written.wordsLength
  · intro id hid hop'
    rw [Sim.wordsOf, hwo id hid, if_neg]
    · exact h.written.consts id hid hop'
    · rintro rfl
      change (s.node _).op = .const at hop'
      rw [hop] at hop'
      cases hop'
  · intro id hid hop' hs
    rw [Sim.wordsOf, hwo id hid]
    split
    next heq =>
      subst heq
      exact hf _ (h.written.leafWords _ hid hop' hs)
    · exact h.written.leafWords id hid hop' hs

lemma Usable.call (hT : T.Ok) (h : Usable T s) {leaves : ℕ}
    (hl : s.leaves.length = leaves) (c : Sim.Call leaves) :
    Usable T (s.call c) ∧ SameTape s (s.call c) := by
  have hlt : ∀ l : Fin leaves, (l : ℕ) < s.leaves.length := fun l => hl ▸ l.isLt
  cases c with
  | word l i x =>
    refine ⟨h.write (hlt l) fun ws hws => ?_, ⟨rfl, rfl, rfl, rfl, rfl, rfl, rfl⟩⟩
    rw [List.length_set, hws]
  | value l b hex =>
    rw [Sim.call]
    split
    · refine ⟨h.write (hlt l) fun ws hws => ?_, ⟨rfl, rfl, rfl, rfl, rfl, rfl, rfl⟩⟩
      rw [List.length_set, hws]
    · refine ⟨?_, ⟨rfl, rfl, rfl, rfl, rfl, rfl, rfl⟩⟩
      rw [List.set_eq_modify]
      exact h.write (hlt l) fun ws _ => length_parseHex _ _
    · exact ⟨h, .refl s⟩
  | seed l x =>
    have hsa : SameTape s (s.call (.seed l x)) := ⟨rfl, rfl, rfl, rfl, rfl, rfl, rfl⟩
    exact ⟨⟨hsa.accepted h.accepted,
      ⟨h.written.wordsLength, h.written.consts, h.written.leafWords⟩, h.refsLength⟩, hsa⟩
  | eval record => exact ⟨h.eval hT record, (evaluated_of_usable hT h record).same⟩

/-- Calls in any order keep the simulator usable. -/
lemma Usable.run (hT : T.Ok) (h : Usable T s) (calls : List (Sim.Call s.leaves.length)) :
    Usable T (s.run calls) ∧ SameTape s (s.run calls) := by
  have hrun : ∀ (leaves : ℕ) (calls : List (Sim.Call leaves)) (s : Sim), Usable T s →
      s.leaves.length = leaves →
      Usable T (s.run calls) ∧ SameTape s (s.run calls) := by
    intro leaves calls
    induction calls with
    | nil => exact fun s h _ => ⟨h, .refl s⟩
    | cons c calls ih =>
      intro s h hl
      obtain ⟨hca, hsa⟩ := h.call hT hl c
      obtain ⟨hr, hsa'⟩ := ih (s.call c) hca (by rw [hsa.leaves, hl])
      exact ⟨hr, hsa.trans hsa'⟩
  exact hrun _ calls s h rfl

/-! ## Assignments -/

/-- An assignment of the symbols that gives every leaf its value, and every defined symbol of
the tape the value of its definition. -/
structure Models (T : Terms) (s : Sim) (ρ : ℕ → Value) : Prop where
  leaf : ∀ l < s.leaves.length, ρ (s.leafOf l).term =
    s.leafValue (s.leafOf l).node (T.sort (s.leafOf l).term)
  defined : ∀ x t id, s.nodeOf x = some (.node id) → s.defs x = some t → ρ x = T.denote ρ t

/-- What is known of an alias. -/
lemma alias_view (hT : T.Ok) (hr : Accepted T s) {id k : ℕ} (hid : id < s.nodes.length)
    (hop : (s.node id).op = .alias)
    (hks : (s.node id).kids = [k]) :
    k < id ∧ s.defs (s.origOf id) = some (s.origOf k) ∧
    T.sort (s.origOf k) = T.sort (s.origOf id) := by
  cases nodeView hT hr hid with
  | defined k' hop' hki hks' hk hdef hs' =>
    obtain rfl : k = k' := List.head_eq_of_cons_eq (hks.symm.trans hks')
    exact ⟨hk, hdef, hs'⟩
  | leaf hop' _ => nomatch hop.symm.trans hop'
  | const hop' _ => nomatch hop.symm.trans hop'
  | constArray _ _ _ hop' => nomatch hop.symm.trans hop'
  | iteArray _ _ _ _ _ hop' => nomatch hop.symm.trans hop'
  | select _ _ _ _ hop' => nomatch hop.symm.trans hop'
  | store _ _ _ _ _ hop' => nomatch hop.symm.trans hop'
  | fn _ hop' => nomatch hop.symm.trans hop'

/-- The assignment that reads every symbol back from its node. -/
noncomputable def readBack (T : Terms) (s F : Sim) (t : ℕ) : Value := match s.nodeOf t with
  | some (.node id) => F.nodeValue id (T.sort t)
  | _ => default

section Values

variable {F : Sim} {ρ : ℕ → Value} {id : ℕ}

lemma readBack_of_made (hma : Made T s id) :
    readBack T s F (s.origOf id) = F.nodeValue id (T.sort (s.origOf id)) := by
  rw [readBack, hma.mark]

variable (hT : T.Ok) (h : Usable T s) (hF : Evaluated s s.nodes.length F)
include hT h hF

/-- Under a model every node shows the value of its term. -/
lemma Models.shown (hρ : Models T s ρ) (hid : id < s.nodes.length) : Shown T s F ρ id := by
  refine shown_all hT h.accepted h.written hF (fun id hid hop => ?_)
    (fun id hid k hop hks hs _ => ?_) hid
  · obtain ⟨hlt, heq⟩ := (h.accepted.tape.made id hid).leaf hop
    have hl := hρ.leaf _ hlt
    rwa [heq] at hl
  · exact hρ.defined _ _ id (h.accepted.tape.made id hid).mark
      (alias_view hT h.accepted hid hop hks).2.1

lemma readBack_leaf (hid : id < s.nodes.length) (hop : (s.node id).op = .leaf)
    (hk : (T.term (s.origOf id)).kind = .constant) :
    readBack T s F (s.origOf id) = s.leafValue id (T.sort (s.origOf id)) := by
  obtain ⟨hs, hsh⟩ := shown_leaf (ρ := fun _ => s.leafValue id (T.sort (s.origOf id))) hT h.accepted
    hF hid h.written hop hk rfl
  have hden : T.denote (fun _ => s.leafValue id (T.sort (s.origOf id))) (s.origOf id) =
      s.leafValue id (T.sort (s.origOf id)) := by
    rw [Terms.denote, hk]
  rw [readBack_of_made (h.accepted.tape.made id hid), ← hden,
    hsh.eq_nodeValue (by rw [hs]; exact hT.sorts _), hs]

lemma readBack_alias {k : ℕ} (hid : id < s.nodes.length) (hop : (s.node id).op = .alias)
    (hki : (s.node id).kids = [k])
    (hk : Shown T s F ρ k) : readBack T s F (s.origOf id) = T.denote ρ (s.origOf k) := by
  obtain ⟨hlt, -, hs⟩ := alias_view hT h.accepted hid hop hki
  obtain ⟨hks, hksh⟩ := hk
  have hma := h.accepted.tape.made id hid
  have hn := hF.same.node id
  have hse := hF.settled id hid
  rw [result_alias _ _ (hn ▸ hop) (hn ▸ hki), hn] at hse
  rw [readBack_of_made hma, hksh.eq_nodeValue (by rw [hks]; exact hT.sorts _), hks, hs]
  by_cases harr : (s.node id).sort = .array
  · obtain ⟨i, e, hie⟩ := hma.sort.array_iff.1 harr
    rw [if_pos harr] at hse
    have href : F.ref k = F.ref id := congrArg Prod.snd hse
    rw [hie, Sim.nodeValue, Sim.nodeValue, href]
  · rw [if_neg harr] at hse
    have hwo : F.wordsOf k = F.wordsOf id := congrArg Prod.fst hse
    have hkid : F.kid id = F.kid k := by
      rw [kid_eq h.accepted hF hid, kid_eq h.accepted hF (hlt.trans hid), hs, hwo]
    cases hσ : T.sort (s.origOf id) with
    | bool => rw [Sim.nodeValue, Sim.nodeValue, hkid]
    | bv w => rw [Sim.nodeValue, Sim.nodeValue, hwo]
    | array i e => exact absurd (hma.sort.array_iff.2 ⟨i, e, hσ⟩) harr
    | other => rfl

/-- There is an assignment of the symbols for every assignment of the leaves. -/
lemma readBack_models : Models T s (readBack T s F) := by
  have hvi : ∀ id < s.nodes.length, (s.node id).op = .leaf →
      (T.term (s.origOf id)).kind = .constant := by
    intro id hid hop
    cases nodeView hT h.accepted hid with
    | leaf _ hki => exact hki
    | defined _ _ hki => exact hki
    | const hop' _ => nomatch hop.symm.trans hop'
    | constArray _ _ _ hop' => nomatch hop.symm.trans hop'
    | iteArray _ _ _ _ _ hop' => nomatch hop.symm.trans hop'
    | select _ _ _ _ hop' => nomatch hop.symm.trans hop'
    | store _ _ _ _ _ hop' => nomatch hop.symm.trans hop'
    | fn _ hop' => nomatch hop.symm.trans hop'
  have hsh : ∀ id < s.nodes.length, Shown T s F (readBack T s F) id := fun id hid =>
    shown_all hT h.accepted h.written hF
    (fun id hid hop => readBack_leaf hT h hF hid hop (hvi id hid hop))
      (fun id hid k hop hks _ hk => readBack_alias hT h hF hid hop hks hk) hid
  constructor
  · intro l hl
    obtain ⟨hid, hop, hl'⟩ := h.accepted.tape.leaves l hl
    obtain ⟨-, hle⟩ := (h.accepted.tape.made _ hid).leaf hop
    have hte : (s.leafOf l).term = s.origOf (s.leafOf l).node := by
      rw [hl'] at hle
      exact congrArg Leaf.term hle
    rw [hte]
    exact readBack_leaf hT h hF hid hop (hvi _ hid hop)
  · intro x t id hx hdef
    obtain ⟨hid, rfl⟩ := h.accepted.tape.marked x id hx
    have hma := h.accepted.tape.made id hid
    have hki := (h.accepted.defs _ _ hdef).1
    have hks := hma.kids
    have hop := hma.op
    rw [operands, hki, hdef] at hks
    obtain ⟨k, hk, hlt, rfl⟩ := forall₂_one hks
    rw [OpFor, hki] at hop
    rw [hk] at hop
    exact readBack_alias hT h hF hid hop hk (hsh k (hlt.trans hid))

omit hT hF in
/-- The words of a node that shows a value; the bits above its width are zero. -/
lemma Shown.words (hid : id < s.nodes.length) (hs : Shown T s F ρ id)
    (hfl : (s.node id).sort ≠ .array) :
    (F.wordsOf id).length = nwords (s.node id).width ∧
    value (F.wordsOf id) < 2 ^ (s.node id).width := by
  have hma := h.accepted.tape.made id hid
  have hw := hma.sort.width
  have hrep := hs.2.rep
  rw [hw]
  cases hσ : T.sort (s.origOf id) with
  | bool =>
    obtain ⟨p, -, hp⟩ := hrep.isBool (hs.1.trans hσ)
    have hwo : F.wordsOf id = [flag p] := congrArg Kid.words hp
    rw [hwo, value_singleton, toNat_flag]
    exact ⟨rfl, Bool.toNat_lt p⟩
  | bv w =>
    obtain ⟨x, -, -, hx⟩ := hrep.isBv (hs.1.trans hσ)
    exact ⟨hx.length, hx.lt⟩
  | array i e => exact absurd (hma.sort.array_iff.2 ⟨i, e, hσ⟩) hfl
  | other =>
    have hso := hma.sort
    rw [hσ] at hso
    cases hso

end Values

/-! ## SMT-LIB semantics -/

/-- The evaluation of a tape: there is an assignment of the symbols for the leaves as they
are; under it every node shows the value of its term, no word has a bit above the width, the
result says whether the constraints hold, and the paths for short vectors agree with the
loops. -/
structure Correct (T : Terms) (assertions roots : List ℕ) (u : Sim) (r : Sim × Bool) : Prop where
  model : ∃ ρ, Models T u ρ
  values : ∀ ρ, Models T u ρ → ∀ id < r.1.nodes.length, Shown T r.1 r.1 ρ id
  words : ∀ id < r.1.nodes.length, (r.1.node id).sort ≠ .array →
    (r.1.wordsOf id).length = nwords (r.1.node id).width ∧
    value (r.1.wordsOf id) < 2 ^ (r.1.node id).width
  roots : ∀ t ∈ roots, ∃ id < r.1.nodes.length, r.1.origOf id = t
  constraints : ∀ ρ, Models T u ρ →
    (r.2 = true ↔ ∀ c ∈ (splitAssertions T assertions (fun _ => none, [])).2,
      (T.denote ρ c).truth = true)
  paths : ∀ id < r.1.nodes.length, ∀ f, (r.1.node id).op = .fn f →
    (r.1.node id).sort ≠ .array → f ≠ .select →
    r.1.wordsOf id = wide (r.1.node id).width (T.term (r.1.origOf id)).indices.1
    (T.term (r.1.origOf id)).indices.2
      ((r.1.node id).kids.map r.1.kid) f

lemma NodesOf.same {ids ts : List ℕ} (hsa : SameTape s s')
    (h : NodesOf s ids ts) : NodesOf s' ids ts := by
  rwa [NodesOf, hsa.nodeOf]

/-- An evaluation of a usable simulator is correct. -/
lemma eval_correct (hT : T.Ok) (hr : Ready T assertions roots s) (hsa : SameTape s s')
    (h : Usable T s') (record : Bool) :
    Correct T assertions roots s' (s'.eval record) := by
  have hF := evaluated_of_usable hT h record
  have hns : (s'.eval record).1.nodes = s'.nodes := hF.same.nodes
  have hor : ∀ id, (s'.eval record).1.origOf id = s'.origOf id := hF.same.origOf
  have hn : ∀ id, (s'.eval record).1.node id = s'.node id := hF.same.node
  have hmo := readBack_models hT h hF
  have hsh : ∀ ρ, Models T s' ρ → ∀ id < s'.nodes.length, Shown T s' (s'.evalNodes record) ρ id :=
    fun ρ hρ id hid => hρ.shown hT h hF hid
  constructor
  · exact ⟨_, hmo⟩
  · intro ρ hρ id hid
    rw [hns] at hid
    rw [Shown, hor]
    exact hsh ρ hρ id hid
  · intro id hid hfl
    rw [hns] at hid
    rw [hn] at hfl ⊢
    exact (hsh _ hmo id hid).words h hid hfl
  · intro t ht
    obtain ⟨id, -, hid⟩ := (hr.roots.same hsa).exists_of_mem_right ht
    obtain ⟨hlt, heq⟩ := h.accepted.tape.marked t id hid
    exact ⟨id, by rw [hns]; exact hlt, (hor id).trans heq⟩
  · intro ρ hρ
    have hcs : NodesOf s' s'.constraints _ := hsa.constraints ▸ hr.constraints.same hsa
    have htr : ∀ c t, s'.nodeOf t = some (.node c) → T.sort t = .bool →
        ((s'.evalNodes record).kid c).truth = (T.denote ρ t).truth := by
      intro c t hc hs
      obtain ⟨hlt, rfl⟩ := h.accepted.tape.marked t c hc
      obtain ⟨hkso, hks⟩ := hsh ρ hρ c hlt
      exact (hks.rep.isBool (hkso.trans hs)).truth
    change ((s'.evalNodes record).constraints.all _) = true ↔ _
    rw [hF.same.constraints, List.all_eq_true]
    constructor
    · intro hall t ht
      obtain ⟨c, hc, hct⟩ := hcs.exists_of_mem_right ht
      rw [← htr c t hct (hr.booleans t ht)]
      exact hall c hc
    · intro hall c hc
      obtain ⟨t, ht, hct⟩ := hcs.exists_of_mem_left hc
      rw [htr c t hct (hr.booleans t ht)]
      exact hall t ht
  · intro id hid f hop hfl hf
    rw [hns] at hid
    rw [hn] at hop hfl ⊢
    rw [hor]
    have hma := h.accepted.tape.made id hid
    cases nodeView hT h.accepted hid with
    | fn f' hop' hkn hfl' hki hso hmem =>
      obtain rfl : f = f' := Op.fn.inj (hop.symm.trans hop')
      exact words_eq_wide hT h.accepted hF hid hop hkn hfl hki hso hmem fun k hk =>
        hsh _ hmo k (hk.trans hid)
    | leaf hop' _ => cases hop.symm.trans hop'
    | defined _ hop' => cases hop.symm.trans hop'
    | const hop' _ => cases hop.symm.trans hop'
    | constArray _ _ _ hop' => cases hop.symm.trans hop'
    | iteArray _ _ _ i e hop' _ _ _ _ hs => exact absurd (hma.sort.array_iff.2 ⟨i, e, hs⟩) hfl
    | select _ _ _ _ hop' => exact absurd (Op.fn.inj (hop.symm.trans hop')) hf
    | store _ _ _ i e hop' _ _ _ _ hs => exact absurd (hma.sort.array_iff.2 ⟨i, e, hs⟩) hfl

/-- The term simulator implements SMT-LIB, in every evaluation of a run. -/
theorem eval_smtlib (hT : T.Ok) (hb : Sim.build T assertions roots = .ok s)
    (calls : List (Sim.Call s.leaves.length)) (record : Bool) :
    Correct T assertions roots (s.run calls) ((s.run calls).eval record) ∧
    ∀ (w : ℕ) (a b : List Word), 0 < w → a.length = nwords w → b.length = nwords w →
    value a < 2 ^ w → value b ≠ 0 →
      udivrem a b w = udivremLoop a b w := by
  have hr := build_ready hb
  obtain ⟨husable, hsame⟩ := (hr.usable hT).run hT calls
  exact ⟨eval_correct hT hr hsame husable record,
    fun w a b hw ha hb hlt hne => udivrem_eq_loop hw ha hb hlt hne⟩

/-- An element of a free memory at an index of 70 bits, its quotient by itself under a name, and
the constraint that the two are equal. -/
def memoryTerms : Terms :=
  [{ kind := .constant, sort := .bv 70 }, { kind := .constant, sort := .array 70 8 },
   { kind := .fn .select, sort := .bv 8, children := [1, 0] },
   { kind := .fn .bvUdiv, sort := .bv 8, children := [2, 2] },
   { kind := .constant, sort := .bv 8 },
   { kind := .fn .eq, sort := .bool, children := [4, 3] },
   { kind := .fn .eq, sort := .bool, children := [2, 4] }]

lemma memoryTerms_ok : memoryTerms.Ok := by
  have hw : ∀ w ∈ [8, 70], WidthOk w := by simp [WidthOk]
  have h8 := hw 8 (by decide)
  have h70 := hw 70 (by decide)
  refine .of_lt fun t ht => ?_
  match t, ht with
  | 0, _ => exact ⟨nofun, h70, trivial⟩
  | 1, _ => exact ⟨nofun, ⟨h70, h8⟩, trivial⟩
  | 2, _ => exact ⟨by decide, h8, 70, 8, rfl, rfl⟩
  | 3, _ => exact ⟨by decide, h8, 8, rfl, rfl⟩
  | 4, _ => exact ⟨nofun, h8, trivial⟩
  | 5, _ => exact ⟨by decide, trivial, rfl, le_rfl, .bv 8, by decide⟩
  | 6, _ => exact ⟨by decide, trivial, rfl, le_rfl, .bv 8, by decide⟩

theorem eval_smtlib_memory : ∃ s, Sim.build memoryTerms [5, 6] [3] = .ok s ∧
    Correct memoryTerms [5, 6] [3] (@Sim.run s s.leaves.length [.eval true])
    ((@Sim.run s s.leaves.length [.eval true]).eval true) := by
  have hok : (Sim.build memoryTerms [5, 6] [3]).isOk = true := by decide +kernel
  cases hb : Sim.build memoryTerms [5, 6] [3] with
  | error why =>
    rw [hb] at hok
    cases hok
  | ok s => exact ⟨s, rfl, (eval_smtlib memoryTerms_ok hb [.eval true] true).1⟩

end LiveHD.Lec
