import LiveHD.Lec.ConeExpandSound

/-!
# Reads of a written array

A read over a chain of writes has the value of the latest write at its address, if there is one.
-/

namespace LiveHD.Lec

open Function List Nat

namespace Terms

/-! ## The writes of an array -/

variable {T : Terms} {sem : Meaning} {ρ : ℕ → Value}

variable {i e a : ℕ}

/-- The children of a write. -/
lemma Ok.store_children (hT : T.Ok) (hk : (T.term a).kind = .fn .store)
    (hso : T.sort a = .array i e) :
    (T.term a).children = [T.child a 0, T.child a 1, T.child a 2] ∧
      T.sort (T.child a 0) = .array i e ∧ T.sort (T.child a 1) = .bv i ∧
      T.sort (T.child a 2) = .bv e := by
  have hwe := hT.sorted a
  unfold WellSorted at hwe
  rw [hk] at hwe
  obtain ⟨i', e', ha, hs⟩ := hwe
  cases (hso.symm.trans hs)
  obtain ⟨b, l, hb, hsb, ht⟩ := map_eq_cons_iff.1 ha
  obtain ⟨x, l', rfl, hsx, ht⟩ := map_eq_cons_iff.1 ht
  obtain ⟨v, rfl, hsv⟩ := map_eq_singleton_iff.1 ht
  unfold child
  rw [hb]
  exact ⟨rfl, hsb, hsx, hsv⟩

variable {t : ℕ}

/-- The children of a read. -/
lemma Ok.select_children (hT : T.Ok) (hk : (T.term t).kind = .fn .select) :
    (T.term t).children = [T.child t 0, T.child t 1] ∧
      ∃ i e, T.sort (T.child t 0) = .array i e ∧
      T.sort (T.child t 1) = .bv i ∧ T.sort t = .bv e := by
  have hwe := hT.sorted t
  unfold WellSorted at hwe
  rw [hk] at hwe
  obtain ⟨i, e, ha, hs⟩ := hwe
  obtain ⟨b, l, hb, hsb, ht⟩ := map_eq_cons_iff.1 ha
  obtain ⟨x, rfl, hsx⟩ := map_eq_singleton_iff.1 ht
  unfold child
  rw [hb]
  exact ⟨rfl, i, e, hsb, hsx, hs⟩

/-- An array after writes, the latest first. -/
noncomputable def writes (T : Terms) (sem : Meaning) (ρ : ℕ → Value) (stores : List (ℕ × ℕ))
    (array : Value) : Value :=
  stores.foldr (fun w acc => acc.store (T.eval sem ρ w.1) (T.eval sem ρ w.2)) array

lemma writes_cons (w : ℕ × ℕ) (ws : List (ℕ × ℕ)) (array : Value) :
    T.writes sem ρ (w :: ws) array = (T.writes sem ρ ws array).store (T.eval sem ρ w.1)
    (T.eval sem ρ w.2) := rfl

/-- A chain of writes over an array of its sort. -/
structure Chain (T : Terms) (i e bound : ℕ) (chain : List (ℕ × ℕ) × ℕ) : Prop where
  base_lt : chain.2 < bound
  base : T.sort chain.2 = .array i e
  lt : ∀ w ∈ chain.1, w.1 < bound ∧ w.2 < bound
  sorts : ∀ w ∈ chain.1, T.sort w.1 = .bv i ∧ T.sort w.2 = .bv e

lemma Chain.mono {bound bound' : ℕ} {chain : List (ℕ × ℕ) × ℕ} (h : T.Chain i e bound chain)
    (hle : bound ≤ bound') :
    T.Chain i e bound' chain :=
  ⟨h.base_lt.trans_le hle, h.base,
    fun w hw => ⟨(h.lt w hw).1.trans_le hle, (h.lt w hw).2.trans_le hle⟩, h.sorts⟩

/-- The array is the one below its writes, written to. -/
lemma Ok.stores_spec (hT : T.Ok) (a : ℕ) (hs : T.sort a = .array i e) :
    T.Chain i e (a + 1) (T.stores a) ∧
    ∀ sem ρ, T.eval sem ρ a = T.writes sem ρ (T.stores a).1 (T.eval sem ρ (T.stores a).2) := by
  induction a using Nat.strong_induction_on with
  | _ a ih =>
    rw [stores]
    split
    next hk =>
      obtain ⟨hch, hs0, hs1, hs2⟩ := hT.store_children hk hs
      have hold : ∀ c ∈ [T.child a 0, T.child a 1, T.child a 2], c < a := fun c hc =>
        hT.kids_older (by rw [hk]; exact Kind.noConfusion) (by rw [hch]; exact hc)
      have h0 := hold _ (.head _)
      have h1 := hold (T.child a 1) (by simp)
      have h2 := hold (T.child a 2) (by simp)
      rw [dif_pos h0]
      obtain ⟨hcha, hev⟩ := ih _ h0 hs0
      have hc' := hcha.mono (succ_le_succ h0.le)
      refine ⟨⟨hc'.base_lt, hc'.base, ?_, ?_⟩, ?_⟩
      · intro w hw
        rcases mem_cons.1 hw with rfl | hw
        · exact ⟨lt_succ_of_lt h1, lt_succ_of_lt h2⟩
        · exact hc'.lt w hw
      · intro w hw
        rcases mem_cons.1 hw with rfl | hw
        · exact ⟨hs1, hs2⟩
        · exact hc'.sorts w hw
      · intro sem ρ
        rw [hT.eval_apply (Term.isOp_of_fn hk), Term.apply_fn hk, hch]
        change (T.eval sem ρ (T.child a 0)).store (T.eval sem ρ (T.child a 1))
          (T.eval sem ρ (T.child a 2)) = _
        rw [hev]
        rfl
    · exact ⟨⟨Nat.lt_succ_self _, hs, by simp, by simp⟩, fun _ _ => rfl⟩

/-! ## The value that is read -/

variable {v : Value}

lemma eq_array_of_sort (h : v.sort = .array i e) : ∃ f, v = .array i e f := by
  cases v with
  | array i' e' f =>
    cases h
    exact ⟨f, rfl⟩
  | bool _ => cases h
  | bv _ _ => cases h

lemma eq_bv_of_sort {w : ℕ} (h : v.sort = .bv w) : ∃ x, v = .bv w x := by
  cases v with
  | bv w' x =>
    cases h
    exact ⟨x, rfl⟩
  | bool _ => cases h
  | array _ _ _ => cases h

open Classical in
/-- A read after a write: what was written at its address, else what was there. -/
lemma select_store {a x y : Value} (ha : a.sort = .array i e) (hx : x.sort = .bv i)
    (hv : v.sort = .bv e) (hy : y.sort = .bv i) :
    (a.store x v).select y = if x = y then v else a.select y := by
  obtain ⟨f, rfl⟩ := eq_array_of_sort ha
  obtain ⟨x, rfl⟩ := eq_bv_of_sort hx
  obtain ⟨v, rfl⟩ := eq_bv_of_sort hv
  obtain ⟨y, rfl⟩ := eq_bv_of_sort hy
  simp only [Value.store, Value.select, Value.bits_bv]
  by_cases hxy : x = y
  · subst hxy
    rw [update_self, if_pos rfl]
  · have hne : Value.bv i x ≠ Value.bv i y := fun h => hxy (eq_of_heq (Value.bv.inj h).2)
    rw [update_of_ne (Ne.symm hxy), if_neg hne]

lemma sort_store {a x : Value} (ha : a.sort = .array i e) : (a.store x v).sort = .array i e := by
  obtain ⟨f, rfl⟩ := eq_array_of_sort ha
  rfl

lemma sort_writes {array : Value} (ha : array.sort = .array i e) (stores : List (ℕ × ℕ)) :
    (T.writes sem ρ stores array).sort = .array i e := by
  induction stores with
  | nil => exact ha
  | cons w ws ih => exact sort_store ih

open Classical in
/-- The value of the latest write at the address, else the value of the array. -/
noncomputable def mostRecent (T : Terms) (sem : Meaning) (ρ : ℕ → Value) (stores : List (ℕ × ℕ))
    (array address : Value) : Value :=
  match stores.find? fun w => T.eval sem ρ w.1 = address with
  | some w => T.eval sem ρ w.2
  | none => array.select address

open Classical in
lemma mostRecent_cons (w : ℕ × ℕ) (ws : List (ℕ × ℕ)) (array address : Value) :
    T.mostRecent sem ρ (w :: ws) array address = if T.eval sem ρ w.1 = address then T.eval sem ρ w.2
    else T.mostRecent sem ρ ws array address := by
  rw [mostRecent, mostRecent, find?_cons]
  by_cases heq : T.eval sem ρ w.1 = address
  · rw [if_pos heq, decide_eq_true heq]
  · rw [if_neg heq, decide_eq_false heq]

/-- A read of a written array gives the latest write at its address. -/
lemma select_writes {stores : List (ℕ × ℕ)} {array address : Value} (ha : array.sort = .array i e)
    (had : address.sort = .bv i)
    (hst : ∀ w ∈ stores, (T.eval sem ρ w.1).sort = .bv i ∧ (T.eval sem ρ w.2).sort = .bv e) :
    (T.writes sem ρ stores array).select address = T.mostRecent sem ρ stores array address := by
  induction stores with
  | nil => rfl
  | cons w ws ih =>
    obtain ⟨hw, hws⟩ := forall_mem_cons.1 hst
    rw [writes_cons, select_store (sort_writes ha ws) hw.1 hw.2 had, ih hws, mostRecent_cons]

/-! ## The loop over the writes -/

/-- A term for a term, in a table that has grown: it has the sort, and the value wherever `P`
holds. -/
structure Means (P : Meaning → (ℕ → Value) → Prop) (T T' : Terms) (t r : ℕ) : Prop where
  lt : r < T'.length
  sort : T'.sort r = T.sort t
  eval : ∀ sem ρ, P sem ρ → T'.eval sem ρ r = T.eval sem ρ t

/-- A meaning of the operators and an assignment of the symbols, by the sorts. -/
def Proper (T : Terms) (sem : Meaning) (ρ : ℕ → Value) : Prop := sem.Sorted ∧ T.Respects ρ

lemma Grown.proper {T' : Terms} (h : T.Grown T')
    (hp : T.Proper sem ρ) : T'.Proper sem ρ := ⟨hp.1, h.respects ρ hp.2⟩

lemma Grown.means {T' : Terms} (h : T.Grown T') (ht : t < T.length)
    (P : Meaning → (ℕ → Value) → Prop) : Means P T T' t t :=
  ⟨ht.trans_le h.le.length_le, sort_mono h.le ht, fun _ _ _ => eval_mono h.le ht⟩

lemma Means.grow {T' T'' : Terms} {r : ℕ} {P : Meaning → (ℕ → Value) → Prop} (h : T.Means P T' t r)
    (hgr : T'.Grown T'') : T.Means P T'' t r :=
  ⟨h.lt.trans_le hgr.le.length_le, (sort_mono hgr.le h.lt).trans h.sort, fun sem ρ hP =>
    (eval_mono hgr.le h.lt).trans (h.eval sem ρ hP)⟩

variable {b : ℕ}

/-- Distinct constants of a sort have distinct values. -/
lemma Sound.eval_ne (h : T.Sound) {w : ℕ} (ha : a < T.length) (hb : b < T.length)
    (hva : T.isBitVectorValue a = true)
    (hvb : T.isBitVectorValue b = true) (hsa : T.sort a = .bv w) (hsb : T.sort b = .bv w)
    (hne : a ≠ b) : T.eval sem ρ a ≠ T.eval sem ρ b := by
  have hv : ∀ {c}, T.isBitVectorValue c = true → T.sort c = .bv w →
      T.eval sem ρ c = .bv w (BitVec.ofNat w (digitsValue (T.term c).hex.reverse)) ∧
      digitsValue (T.term c).hex.reverse < 2 ^ w := by
    intro c hc hs
    have hk := of_decide_eq_true hc
    have hwe := h.ok.sorted c
    unfold WellSorted at hwe
    rw [hk] at hwe
    obtain ⟨w', hw', hlt⟩ := hwe
    obtain rfl := Srt.bv.inj (hs.symm.trans hw')
    rw [eval, hk, hs]
    exact ⟨rfl, hlt⟩
  intro heq
  obtain ⟨hea, hla⟩ := hv hva hsa
  obtain ⟨heb, hlb⟩ := hv hvb hsb
  rw [hea, heb] at heq
  have hnat := congrArg BitVec.toNat (eq_of_heq (Value.bv.inj heq).2)
  rw [BitVec.toNat_ofNat, BitVec.toNat_ofNat, Nat.mod_eq_of_lt hla, Nat.mod_eq_of_lt hlb] at hnat
  exact hne (h.shared a b ha hb hva hvb (hsa.trans hsb.symm) hnat)

/-- A term that was made: its sort, and its value over the terms there were. -/
structure Gives (T : Terms) (s : Srt) (value : Meaning → (ℕ → Value) → Value)
    (r : Terms × ℕ) : Prop where
  grown : T.Grown r.1
  lt : r.2 < r.1.length
  sort : r.1.sort r.2 = s
  eval : ∀ sem ρ, r.1.eval sem ρ r.2 = value sem ρ

lemma Fits.gives {x : Term} (hx : T.Fits x) (h : T.Sound) :
    T.Gives x.sort (fun sem ρ => x.apply sem (x.children.map (T.eval sem ρ))) (T.mkTerm x) :=
  ⟨(hx.mkTerm h).1, (hx.mkTerm h).2.1, hx.sort_mkTerm h, fun _ _ => hx.eval_mkTerm h⟩

lemma Sound.mkSelect (h : T.Sound) (ha : a < T.length) (hb : b < T.length)
    (hsa : T.sort a = .array i e) (hsb : T.sort b = .bv i) :
    T.Gives (.bv e) (fun sem ρ => (T.eval sem ρ a).select (T.eval sem ρ b)) (mkSelect T a b) := by
  have hok := h.ok.sorts a
  rw [hsa] at hok
  rw [LiveHD.Lec.mkSelect, hsa]
  have hfi : T.Fits { kind := .fn .select, sort := .bv e, children := [a, b] } := by
    refine ⟨trivial, ?_, hok.2, ?_⟩
    · simp only [mem_cons, not_mem_nil, or_false]
      rintro c (rfl | rfl)
      · exact ha
      · exact hb
    · intro f hf
      cases hf
      refine ⟨i, e, ?_, rfl⟩
      rw [map_cons, map_singleton, hsa, hsb]
  exact hfi.gives h

open Classical in
lemma Sound.mkEqual (h : T.Sound) (ha : a < T.length) (hb : b < T.length)
    (hso : T.sort b = T.sort a) :
    T.Gives .bool (fun sem ρ => .bool (decide (T.eval sem ρ a = T.eval sem ρ b)))
    (mkEqual T a b) := by
  have hfi : T.Fits { kind := .fn .eq, sort := .bool, children := [a, b] } := by
    refine ⟨trivial, ?_, trivial, ?_⟩
    · simp only [mem_cons, not_mem_nil, or_false]
      rintro c (rfl | rfl)
      · exact ha
      · exact hb
    · intro f hf
      cases hf
      refine ⟨rfl, le_rfl, T.sort a, ?_⟩
      simp only [map_cons, map_nil, mem_cons, not_mem_nil, or_false]
      rintro s (rfl | rfl)
      · rfl
      · exact hso
  obtain ⟨hgr, hlt, hs, hev⟩ := hfi.gives h
  refine ⟨hgr, hlt, hs, fun sem ρ => (hev sem ρ).trans ?_⟩
  simp [Term.apply, Fn.denote]

lemma Sound.mkIte (h : T.Sound) {c : ℕ} (hc : c < T.length) (ha : a < T.length) (hb : b < T.length)
    (hsc : T.sort c = .bool)
    (hs : T.sort b = T.sort a) :
    T.Gives (T.sort a) (fun sem ρ => if (T.eval sem ρ c).truth then T.eval sem ρ a
      else T.eval sem ρ b) (mkIte T c a b) := by
  have hfi : T.Fits { kind := .fn .ite, sort := T.sort a, children := [c, a, b] } := by
    refine ⟨trivial, ?_, h.ok.sorts a, ?_⟩
    · simp only [mem_cons, not_mem_nil, or_false]
      rintro d (rfl | rfl | rfl)
      · exact hc
      · exact ha
      · exact hb
    · intro f hf
      cases hf
      change [T.sort c, T.sort a, T.sort b] = [.bool, T.sort a, T.sort a]
      rw [hsc, hs]
  exact hfi.gives h

open Classical in
/-- One write before a read. -/
lemma Gives.readStep {r : Terms × ℕ} {address : ℕ} {value : Meaning → (ℕ → Value) → Value}
    (h : T.Gives (.bv e) value r) (had : address < T.length)
    (hsr : T.sort address = .bv i) {w : ℕ × ℕ} (hlt : w.1 < T.length ∧ w.2 < T.length)
    (hso : T.sort w.1 = .bv i ∧ T.sort w.2 = .bv e) :
    T.Gives (.bv e) (fun sem ρ => if T.eval sem ρ w.1 = T.eval sem ρ address then T.eval sem ρ w.2
      else value sem ρ) (readStep address w r) := by
  have hle := h.grown.le
  have hlt' : ∀ {t}, t < T.length → t < r.1.length := fun ht => ht.trans_le hle.length_le
  have hs' : ∀ {t s}, t < T.length → T.sort t = s → r.1.sort t = s := fun ht hs =>
    (sort_mono hle ht).trans hs
  rw [LiveHD.Lec.readStep]
  split
  next heq =>
    refine ⟨h.grown, hlt' hlt.2, hs' hlt.2 hso.2, fun sem ρ => ?_⟩
    rw [if_pos (by rw [heq])]
    exact eval_mono hle hlt.2
  next hne =>
    split
    next hc =>
      refine ⟨h.grown, h.lt, h.sort, fun sem ρ => ?_⟩
      have hd : r.1.eval sem ρ w.1 ≠ r.1.eval sem ρ address :=
        h.grown.sound.eval_ne (hlt' hlt.1) (hlt' had) hc.1 hc.2 (hs' hlt.1 hso.1) (hs' had hsr) hne
      rw [eval_mono hle hlt.1, eval_mono hle had] at hd
      rw [if_neg hd]
      exact h.eval sem ρ
    · have hco := h.grown.sound.mkEqual (hlt' had) (hlt' hlt.1)
        ((hs' hlt.1 hso.1).trans (hs' had hsr).symm)
      have hle' := hco.grown.le
      have hite := hco.grown.sound.mkIte hco.lt ((hlt' hlt.2).trans_le hle'.length_le)
        (h.lt.trans_le hle'.length_le) hco.sort
        (((sort_mono hle' h.lt).trans h.sort).trans
          ((sort_mono hle' (hlt' hlt.2)).trans (hs' hlt.2 hso.2)).symm)
      refine ⟨h.grown.trans (hco.grown.trans hite.grown), hite.lt, hite.sort.trans ?_,
        fun sem ρ => (hite.eval sem ρ).trans ?_⟩
      · exact (sort_mono hle' (hlt' hlt.2)).trans (hs' hlt.2 hso.2)
      · rw [hco.eval, eval_mono hle' (hlt' hlt.2), eval_mono hle' h.lt, h.eval,
          eval_mono hle hlt.2, eval_mono hle had,
          eval_mono hle hlt.1]
        simp only [Value.truth, decide_eq_true_eq, @eq_comm _ (T.eval sem ρ address)]

/-- The loop over the writes, from the oldest on. -/
lemma Sound.foldr_readStep (h : T.Sound) {address : ℕ} {chain : List (ℕ × ℕ) × ℕ}
    (hc : T.Chain i e T.length chain) (had : address < T.length)
    (hs : T.sort address = .bv i) :
    T.Gives (.bv e)
    (fun sem ρ => T.mostRecent sem ρ chain.1 (T.eval sem ρ chain.2) (T.eval sem ρ address))
      (chain.1.foldr (readStep address) (LiveHD.Lec.mkSelect T chain.2 address)) := by
  obtain ⟨stores, base⟩ := chain
  induction stores with
  | nil => exact h.mkSelect hc.base_lt had hc.base hs
  | cons w ws ih =>
    have hr : T.Chain i e T.length (ws, base) :=
        ⟨hc.base_lt, hc.base, fun v hv => hc.lt v (.tail _ hv), fun v hv =>
      hc.sorts v (.tail _ hv)⟩
    have hst := (ih hr).readStep had hs (hc.lt w (.head _)) (hc.sorts w (.head _))
    refine ⟨hst.grown, hst.lt, hst.sort, fun sem ρ => (hst.eval sem ρ).trans ?_⟩
    rw [mostRecent_cons]

/-- A read has the value of the latest write at its address. -/
lemma Sound.eval_select (h : T.Sound) (hk : (T.term t).kind = .fn .select) (hp : T.Proper sem ρ) :
    T.eval sem ρ t = T.mostRecent sem ρ (T.stores (T.child t 0)).1
    (T.eval sem ρ (T.stores (T.child t 0)).2) (T.eval sem ρ (T.child t 1)) := by
  obtain ⟨hch, i, e, hs0, hs1, -⟩ := h.ok.select_children hk
  obtain ⟨hc, hev⟩ := h.ok.stores_spec _ hs0
  have hso : ∀ {c s}, T.sort c = s → s ≠ .other →
      (T.eval sem ρ c).sort = s := fun {c s} hs hne => by
    rw [h.ok.sort_eval hp.1 hp.2 c (by rwa [hs]), hs]
  rw [h.ok.eval_apply (Term.isOp_of_fn hk), Term.apply_fn hk, hch]
  change (T.eval sem ρ (T.child t 0)).select (T.eval sem ρ (T.child t 1)) = _
  rw [hev]
  refine select_writes (hso hc.base Srt.noConfusion) (hso hs1 Srt.noConfusion) fun w hw => ?_
  exact ⟨hso (hc.sorts w hw).1 Srt.noConfusion, hso (hc.sorts w hw).2 Srt.noConfusion⟩

/-- A read off the writes stands for the read. -/
lemma Sound.readOverWrite (h : T.Sound) (ht : t < T.length) :
    T.Grown (readOverWrite T t).1 ∧
    Means T.Proper T (readOverWrite T t).1 t (readOverWrite T t).2 := by
  rw [LiveHD.Lec.readOverWrite]
  split
  next hk =>
    dsimp only
    split
    · exact ⟨.refl h, (Grown.refl h).means ht _⟩
    · obtain ⟨hch, i, e, hs0, hs1, hs⟩ := h.ok.select_children hk
      have hold : ∀ c ∈ [T.child t 0, T.child t 1], c < t := fun c hc =>
        h.ok.kids_older (by rw [hk]; exact Kind.noConfusion) (by rw [hch]; exact hc)
      have h0 := hold _ (.head _)
      have h1 := hold (T.child t 1) (by simp)
      have hgi := h.foldr_readStep ((h.ok.stores_spec _ hs0).1.mono (h0.trans ht)) (h1.trans ht) hs1
      exact ⟨hgi.grown, hgi.lt, hgi.sort.trans hs.symm,
        fun sem ρ hp => (hgi.eval sem ρ).trans (h.eval_select hk hp).symm⟩
  · exact ⟨.refl h, (Grown.refl h).means ht _⟩

end Terms

end LiveHD.Lec
