import LiveHD.Lec.ConeExpand

/-!
# The expansion keeps the meaning

Over any meaning of the operators that are not built in, an expanded term has the value of the term
under every assignment in which the definitions hold.
-/

namespace LiveHD.Lec

open List

/-! ## Values of terms -/

/-- The meaning of the kinds that are not built in, by their code, indices, sort and arguments. -/
abbrev Meaning := ℕ → ℕ × ℕ → Srt → List Value → Value

/-- A meaning respects the sorts that have values. -/
def Meaning.Sorted (sem : Meaning) : Prop := ∀ code indices s args, s ≠ .other →
    (sem code indices s args).sort = s

variable {x : Term}

namespace Term

/-- A term with an operator over its children. -/
def IsOp (x : Term) : Prop := match x.kind with
  | .fn _ | .other _ => True
  | _ => False

/-- The meaning of a term's operator. -/
noncomputable def apply (sem : Meaning) (x : Term) (args : List Value) : Value := match x.kind with
  | .fn f => f.denote x.indices.1 x.indices.2 args
  | .other code => sem code x.indices x.sort args
  | _ => default

lemma isOp_of_fn {f : Fn} (h : x.kind = .fn f) : x.IsOp := by
  rw [IsOp, h]
  trivial

lemma isOp_of_other {code : ℕ} (h : x.kind = .other code) : x.IsOp := by
  rw [IsOp, h]
  trivial

lemma IsOp.ne_constant (h : x.IsOp) : x.kind ≠ .constant := by
  intro hk
  rwa [IsOp, hk] at h

lemma IsOp.ne_constBitvector (h : x.IsOp) : x.kind ≠ .constBitvector := by
  intro hk
  rwa [IsOp, hk] at h

lemma IsOp.ne_constArray (h : x.IsOp) : x.kind ≠ .constArray := by
  intro hk
  rwa [IsOp, hk] at h

lemma apply_fn {f : Fn} (h : x.kind = .fn f) (sem : Meaning) (args : List Value) :
    x.apply sem args = f.denote x.indices.1 x.indices.2 args := by
  rw [apply, h]

end Term

namespace Terms

variable (T : Terms) (sem : Meaning) (ρ : ℕ → Value)

/-- The value of a term under an assignment of the symbols. -/
noncomputable def eval (t : ℕ) : Value := match (T.term t).kind with
  | .constant => ρ t
  | .constBoolean => .bool (T.term t).boolean
  | .constBitvector => match T.sort t with
    | .bv w => .bv w (BitVec.ofNat w (digitsValue (T.term t).hex.reverse))
    | _ => default
  | .constArray => match T.sort t with
    | .array i e => .array i e fun _ =>
      ((if _h : (T.term t).base < t then eval (T.term t).base else default).bits e)
    | _ => default
  | .fn f => f.denote (T.term t).indices.1 (T.term t).indices.2
    ((T.term t).children.map fun c => if _h : c < t then eval c else default)
  | .other code => sem code (T.term t).indices (T.sort t)
    ((T.term t).children.map fun c => if _h : c < t then eval c else default)
termination_by t

/-- The symbols have values of their sorts. -/
def Respects : Prop := ∀ t, (T.term t).kind = .constant → T.sort t ≠ .other → (ρ t).sort = T.sort t

variable {T sem ρ}

variable {t : ℕ}

lemma Ok.kids_older (hT : T.Ok) {c : ℕ} (hk : (T.term t).kind ≠ .constArray)
    (hc : c ∈ (T.term t).children) : c < t :=
  hT.older t c (by rw [parts, if_neg hk]; exact hc)

/-- A term with an operator has the meaning of its operator. -/
lemma Ok.eval_apply (hT : T.Ok) (hop : (T.term t).IsOp) :
    T.eval sem ρ t = (T.term t).apply sem ((T.term t).children.map (T.eval sem ρ)) := by
  have ha : (T.term t).kind ≠ .constArray → ((T.term t).children.map fun c => if _h : c < t then
      T.eval sem ρ c else default) = (T.term t).children.map (T.eval sem ρ) :=
    fun hk => map_congr_left fun c hc => dif_pos (hT.kids_older hk hc)
  rw [eval, Term.apply]
  rw [Term.IsOp] at hop
  split
  next hk =>
    rw [hk] at hop
    exact hop.elim
  next hk =>
    rw [hk] at hop
    exact hop.elim
  next hk =>
    rw [hk] at hop
    exact hop.elim
  next hk =>
    rw [hk] at hop
    exact hop.elim
  next f hk => rw [hk, ha (by rw [hk]; exact Kind.noConfusion)]
  next code hk =>
    rw [hk, ha (by rw [hk]; exact Kind.noConfusion)]
    rfl

/-- An operator that makes a value takes values, apart from comparisons. -/
lemma ne_other_of_typed {f : Fn} {p0 p1 : ℕ} {args : List Srt} {s : Srt} (h : f.Typed p0 p1 args s)
    (hs : s ≠ .other) (heq : f ≠ .eq)
    (hd : f ≠ .distinct) : ∀ a ∈ args, a ≠ .other := by
  intro a ha
  cases f
  case eq => exact absurd rfl heq
  case distinct => exact absurd rfl hd
  case not | implies =>
    obtain ⟨rfl, -⟩ := h
    simp only [mem_cons, not_mem_nil, or_false, or_self] at ha
    rw [ha]
    exact Srt.noConfusion
  case and | or | xor =>
    rw [h.2.1 a ha]
    exact Srt.noConfusion
  case ite =>
    rw [show args = [.bool, s, s] from h] at ha
    simp only [mem_cons, not_mem_nil, or_false, or_self] at ha
    rcases ha with rfl | rfl
    · exact Srt.noConfusion
    · exact hs
  case bvNot | bvNeg | rotl | rotr | bvNand | bvNor | bvXnor | bvUdiv | bvUrem | bvSdiv |
      bvSrem | bvSmod | bvShl | bvLshr | bvAshr | zext | sext | repeated | bvUlt | bvUle |
      bvUgt | bvUge | bvSlt | bvSle | bvSgt | bvSge | bvComp | bvUltbv | bvSltbv | bvRedor |
      bvRedand =>
    obtain ⟨w, rfl, -⟩ := h
    simp only [mem_cons, not_mem_nil, or_false, or_self] at ha
    rw [ha]
    exact Srt.noConfusion
  case bvAnd | bvOr | bvXor | bvAdd | bvSub | bvMul =>
    obtain ⟨w, -, har, -⟩ := h
    rw [har a ha]
    exact Srt.noConfusion
  case extract =>
    obtain ⟨w, rfl, -⟩ := h
    rw [mem_singleton.1 ha]
    exact Srt.noConfusion
  case concat =>
    obtain ⟨ws, -, rfl, -⟩ := h
    obtain ⟨w, -, rfl⟩ := mem_map.1 ha
    exact Srt.noConfusion
  case select | store =>
    obtain ⟨i, e, rfl, -⟩ := h
    simp only [mem_cons, not_mem_nil, or_false] at ha
    rcases ha with rfl | ha
    · exact Srt.noConfusion
    · rcases ha with rfl | rfl <;> exact Srt.noConfusion

/-- A term has a value of its sort. -/
lemma Ok.sort_eval (hT : T.Ok) (hsem : sem.Sorted) (hρ : T.Respects ρ) (t : ℕ)
    (ht : T.sort t ≠ .other) : (T.eval sem ρ t).sort = T.sort t := by
  induction t using Nat.strong_induction_on with
  | _ t ih =>
    have hwe := hT.sorted t
    unfold WellSorted at hwe
    cases hk : (T.term t).kind with
    | constant =>
      rw [eval, hk]
      exact hρ t hk ht
    | constBoolean =>
      rw [hk] at hwe
      rw [eval, hk, hwe]
      rfl
    | constBitvector =>
      rw [hk] at hwe
      obtain ⟨w, hw, -⟩ := hwe
      rw [eval, hk, hw]
      rfl
    | constArray =>
      rw [hk] at hwe
      obtain ⟨i, e, hie, -⟩ := hwe
      rw [eval, hk, hie]
      rfl
    | other code =>
      rw [hT.eval_apply (Term.isOp_of_other hk), Term.apply, hk]
      exact hsem _ _ _ _ ht
    | fn f =>
      rw [hk] at hwe
      rw [hT.eval_apply (Term.isOp_of_fn hk), Term.apply_fn hk]
      by_cases heq : f = .eq
      · subst heq
        exact hwe.1.symm
      by_cases hd : f = .distinct
      · subst hd
        exact hwe.1.symm
      refine Fn.sort_denote ?_
      have ha : ((T.term t).children.map (T.eval sem ρ)).map Value.sort =
          (T.term t).children.map T.sort := by
        rw [map_map]
        refine map_congr_left fun c hc =>
          ih c (hT.kids_older (by rw [hk]; exact Kind.noConfusion) hc) ?_
        exact ne_other_of_typed hwe ht heq hd _ (mem_map_of_mem hc)
      rwa [ha]

/-! ## Tables that grow -/

variable {T' : Terms}

section

variable (h : T <+: T') (ht : t < T.length)
include h ht

lemma term_mono : T'.term t = T.term t := by
  obtain ⟨l, rfl⟩ := h
  exact getD_append _ _ _ _ ht

lemma sort_mono : T'.sort t = T.sort t := by
  rw [sort, sort, term_mono h ht]

/-- A term keeps its value when others are made. -/
lemma eval_mono : T'.eval sem ρ t = T.eval sem ρ t := by
  induction t using Nat.strong_induction_on with
  | _ t ih =>
    have hif : ∀ c, (if _h : c < t then T'.eval sem ρ c else default) = if _h : c < t then
        T.eval sem ρ c else default := by
      intro c
      split
      next hc => exact ih c hc (hc.trans ht)
      · rfl
    conv_lhs => rw [eval, term_mono h ht, sort_mono h ht]
    conv_rhs => rw [eval]
    simp only [hif]

end

lemma term_append (x : Term) : (T ++ [x]).term T.length = x := by
  rw [term, getD_append_right _ _ _ _ le_rfl, Nat.sub_self]
  rfl

/-- The term that is made is the one that was asked for, in a table with no fewer terms. -/
lemma mkTerm_spec (T : Terms) (x : Term) :
    T <+: (T.mkTerm x).1 ∧ (T.mkTerm x).2 < (T.mkTerm x).1.length ∧
    (T.mkTerm x).1.term (T.mkTerm x).2 = x := by
  rw [mkTerm]
  split
  next i hfi =>
    obtain ⟨hi, heq, -⟩ := findIdx?_eq_some_iff_getElem.1 hfi
    refine ⟨prefix_refl _, hi, ?_⟩
    rw [term, getD_eq_getElem _ _ hi]
    exact of_decide_eq_true heq
  · refine ⟨prefix_append _ _, ?_, term_append x⟩
    rw [length_append]
    exact Nat.lt_succ_self _

/-- What is kept of the terms of a solver: leaves have no children, and equal constants are one
term. -/
structure Sound (T : Terms) : Prop where
  ok : T.Ok
  leaf : ∀ t, ¬(T.term t).IsOp → (T.term t).children = []
  shared : ∀ a b, a < T.length → b < T.length → T.isBitVectorValue a = true →
    T.isBitVectorValue b = true → T.sort a = T.sort b →
    digitsValue (T.term a).hex.reverse = digitsValue (T.term b).hex.reverse → a = b

/-- A table with more terms, and no more symbols. -/
structure Grown (T T' : Terms) : Prop where
  le : T <+: T'
  sound : T'.Sound
  respects : ∀ ρ, T.Respects ρ → T'.Respects ρ

lemma Grown.refl (h : T.Sound) : T.Grown T := ⟨prefix_refl _, h, fun _ => id⟩

lemma Grown.trans {T'' : Terms} (h : T.Grown T') (h' : T'.Grown T'') : T.Grown T'' :=
  ⟨h.le.trans h'.le, h'.sound, fun ρ hρ => h'.respects ρ (h.respects ρ hρ)⟩

lemma eq_of_lt_append (ht : t < (T ++ [x]).length) (hlt : ¬t < T.length) : t = T.length := by
  rw [length_append, length_singleton] at ht
  omega

/-- Terms of the table are sorted as before. -/
lemma WellSorted.append (hT : T.Ok) (ht : t < T.length) (x : Term) : (T ++ [x]).WellSorted t := by
  have hext : T <+: T ++ [x] := prefix_append _ _
  have hwe := hT.sorted t
  unfold WellSorted at hwe ⊢
  rw [term_mono hext ht, sort_mono hext ht]
  cases hk : (T.term t).kind with
  | constArray =>
    rw [hk] at hwe
    obtain ⟨i, e, hie, hba⟩ := hwe
    exact ⟨i, e, hie, (sort_mono hext
      ((hT.older t _ (by rw [parts, if_pos hk]; exact mem_singleton_self _)).trans ht)).trans hba⟩
  | fn f =>
    rw [hk] at hwe
    have hks : (T.term t).children.map (T ++ [x]).sort = (T.term t).children.map T.sort :=
      map_congr_left fun c hc => sort_mono hext
        ((hT.kids_older (by rw [hk]; exact Kind.noConfusion) hc).trans ht)
    rwa [hks]
  | constant => trivial
  | constBoolean => rw [hk] at hwe; exact hwe
  | constBitvector => rw [hk] at hwe; exact hwe
  | other => trivial

/-- A new term with an operator over terms of the table. -/
structure Fits (T : Terms) (x : Term) : Prop where
  op : x.IsOp
  children : ∀ c ∈ x.children, c < T.length
  sort : x.sort.Ok
  typed : ∀ f, x.kind = .fn f → f.Typed x.indices.1 x.indices.2 (x.children.map T.sort) x.sort

lemma Fits.ok (hx : T.Fits x) (h : T.Ok) : (T ++ [x]).Ok := by
  have hext : T <+: T ++ [x] := prefix_append _ _
  refine .of_lt fun t ht => ?_
  by_cases hlt : t < T.length
  · refine ⟨?_, ?_, .append h hlt x⟩
    · rw [parts, term_mono hext hlt]
      exact h.older t
    · rw [sort_mono hext hlt]
      exact h.sorts t
  · obtain rfl := eq_of_lt_append ht hlt
    refine ⟨?_, ?_, ?_⟩
    · rw [parts, term_append, if_neg hx.op.ne_constArray]
      exact hx.children
    · rw [Terms.sort, term_append]
      exact hx.sort
    · unfold WellSorted
      rw [term_append]
      split
      · trivial
      next hk =>
        have := hx.op
        rw [Term.IsOp, hk] at this
        exact this.elim
      next hk => exact absurd hk hx.op.ne_constBitvector
      next hk => exact absurd hk hx.op.ne_constArray
      next f hk =>
        rw [Terms.sort, term_append, map_congr_left fun c hc => sort_mono hext (hx.children c hc)]
        exact hx.typed f hk
      · trivial

section

variable (hx : T.Fits x) (h : T.Sound)
include hx h

lemma Fits.grown : T.Grown (T ++ [x]) := by
  have hext : T <+: T ++ [x] := prefix_append _ _
  refine ⟨hext, ⟨hx.ok h.ok, ?_, ?_⟩, ?_⟩
  · intro t hop
    by_cases hlt : t < T.length
    · rw [term_mono hext hlt] at hop ⊢
      exact h.leaf t hop
    · by_cases ht : t < (T ++ [x]).length
      · obtain rfl := eq_of_lt_append ht hlt
        rw [term_append] at hop
        exact absurd hx.op hop
      · rw [term_eq_default (not_lt.1 ht)]
  · intro a b ha hb hva hvb hs hv
    -- The new term is not a constant.
    have hold : ∀ t, t < (T ++ [x]).length →
        (T ++ [x]).isBitVectorValue t = true → t < T.length := by
      intro t ht hval
      by_contra hlt
      obtain rfl := eq_of_lt_append ht hlt
      rw [isBitVectorValue, term_append] at hval
      exact hx.op.ne_constBitvector (of_decide_eq_true hval)
    have ha' := hold a ha hva
    have hb' := hold b hb hvb
    rw [sort_mono hext ha', sort_mono hext hb'] at hs
    rw [isBitVectorValue, term_mono hext ha'] at hva
    rw [isBitVectorValue, term_mono hext hb'] at hvb
    rw [term_mono hext ha', term_mono hext hb'] at hv
    exact h.shared a b ha' hb' hva hvb hs hv
  · intro ρ hρ t hk hso
    by_cases hlt : t < T.length
    · rw [term_mono hext hlt] at hk
      rw [sort_mono hext hlt] at hso ⊢
      exact hρ t hk hso
    · by_cases ht : t < (T ++ [x]).length
      · obtain rfl := eq_of_lt_append ht hlt
        rw [term_append] at hk
        exact absurd hk hx.op.ne_constant
      · rw [term_eq_default (not_lt.1 ht)] at hk
        exact Kind.noConfusion hk

lemma Fits.mkTerm : T.Grown (T.mkTerm x).1 ∧ (T.mkTerm x).2 < (T.mkTerm x).1.length ∧
    (T.mkTerm x).1.term (T.mkTerm x).2 = x := by
  refine ⟨?_, (mkTerm_spec T x).2⟩
  rw [Terms.mkTerm]
  split
  · exact .refl h
  · exact hx.grown h

/-- The new term has the sort and the meaning of its operator. -/
lemma Fits.sort_mkTerm : (T.mkTerm x).1.sort (T.mkTerm x).2 = x.sort := by
  rw [Terms.sort, (hx.mkTerm h).2.2]

lemma Fits.eval_mkTerm : (T.mkTerm x).1.eval sem ρ (T.mkTerm x).2 =
    x.apply sem (x.children.map (T.eval sem ρ)) := by
  obtain ⟨hgr, -, hte⟩ := hx.mkTerm h
  rw [hgr.sound.ok.eval_apply (by rw [hte]; exact hx.op), hte]
  congr 1
  exact map_congr_left fun c hc => eval_mono hgr.le (hx.children c hc)

end

end Terms

end LiveHD.Lec
