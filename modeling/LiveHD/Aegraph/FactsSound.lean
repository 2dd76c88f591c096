import LiveHD.Aegraph.FactsOf

/-!
# Where the facts are right

Every fact `facts_rec` returns is right about the value of its class, whatever the depth
and whatever sound entries the cache holds, unless a shift by a constant is rounded the wrong
way: just below `kInf` `shl_dn` and `shl_up` already saturate, and a bound that should be
weaker becomes stronger.
-/

namespace LiveHD.Aegraph

open IntBits Facts Function Option

section

variable {eg : Egraph} {ρ : Valuation eg} {get : ClassId → Query Facts} {I : AnalysisCache → Prop}

lemma konstFacts_sound (k : Dlop) : (konstFacts k).Sound k.val := by
  have := kInf_pos
  cases k with
  | boolean b => exact top_sound
  | integer v =>
    simp only [konstFacts]
    split
    · exact ofConst_sound ‹_›
    split
    · exact ⟨.of_le ‹_›, hiOk_unbounded, kzOk_zero, koOk_zero,
        kInf_pos, by show -kInf < kInf; omega⟩
    · refine ⟨loOk_unbounded, .of_le ?_, kzOk_zero, koOk_zero, ?_, ?_⟩
      · show v ≤ -1
        omega
      · show -kInf < kInf
        omega
      · norm_num [kInf]

/-- A class whose value a constant shift saturates. -/
def SaturatesAt (ρ : Valuation eg) (c : ClassId) : Prop :=
  ∃ n w, eg.cls c = .node n ∧ (∃ a k, IsConstShl eg n a k) ∧ ρ.val c = some w ∧ Saturates w

variable {cache : AnalysisCache}

/-- The facts of a class, other than a shift by a constant. -/
lemma classFacts_answers (hget : ∀ c, AnswersIn I ρ c (get c)) (hca : cache.Sound ρ) {c : ClassId}
    (hno : ∀ n a k, eg.cls c = .node n → ¬IsConstShl eg n a k) :
    AnswersIn I ρ c (classFacts eg get cache.seeds c) := by
  unfold classFacts
  split
  next k hc =>
    refine .pure fun v hv => ?_
    cases (hv.symm.trans (ρ.konst c k hc))
    exact konstFacts_sound k
  next n hc =>
    cases hval : ρ.val c with
    | none =>
      refine .mono (nodeFacts_keeps (fun c => (hget c).mono fun _ _ => trivial) n) ?_
      intro f _ v hv
      rw [hval] at hv
      cases hv
    | some w =>
      have hn := (ρ.node c n hc).symm.trans hval
      refine .mono (nodeFacts_sound hget hn fun a k => hno n a k hc) ?_
      intro f hf v hv
      exact some.inj (hval.symm.trans hv) ▸ hf
  next a b hc =>
    obtain ⟨ha, hb⟩ := ρ.uni c a b hc
    refine .bind (hget a) fun fa hfa => .bind (hget b) fun fb hfb => .pure fun v hv => ?_
    exact meet_sound (hfa v (ha ▸ hv)) (hfb v (by rw [hb, ← ha, hv]))
  · refine .pure fun v hv => ?_
    cases hs : cache.seeds c with
    | none => exact top_sound
    | some f => exact hca.seeds c f v hs hv
  · exact .pure fun v _ => top_sound

variable {c a : ClassId} {n : Enode} {k : ℕ}

lemma length_of_binary {ops : List Operand} {b : ClassId}
    (h : binary ops = some (a, b)) : ops.length = 2 := by
  by_contra hne
  rw [binary, if_neg hne] at h
  cases h

/-- The value of a constant shift. -/
lemma val_isConstShl (hc : eg.cls c = .node n) (hn : IsConstShl eg n a k) :
    (∀ v, ρ.val c = some v → ∃ x, ρ.val a = some x ∧ v = x * 2 ^ k) ∧ ∀ x, ρ.val a = some x →
    ρ.val c = some (x * 2 ^ k) := by
  obtain ⟨op, ops⟩ := n
  obtain ⟨rfl, b, hab, hk⟩ := hn
  dsimp only at hab
  have hb := ρ.constI64 (constAmount_eq hk).1
  refine ⟨fun v hv => ?_, fun x hx => ?_⟩
  · obtain ⟨l, hl, hval⟩ := ρ.exists_reads .shl rfl ((ρ.node c _ hc).symm.trans hv)
    obtain ⟨x, y, hx, hxv, hy, hyv⟩ := reads_binary hl hab
    cases (hyv.symm.trans hb)
    refine ⟨x, hxv, ?_⟩
    simpa [Cell.evalKnown, hx, hy, eq_comm] using hval
  · obtain ⟨o, o', rfl⟩ := List.length_eq_two.1 (length_of_binary hab)
    obtain ⟨h0, h1⟩ := binary_eq hab
    rw [ρ.node c _ hc, Cell.evalOp_of_strict rfl]
    by_cases ho : o.bank = 0
    · by_cases ho' : o'.bank = 1
      · simp_all [Egraph.byBank, Cell.known, Cell.evalKnown, Cell.byBank]
      · simp [Egraph.byBank, ho, beq_false_of_ne ho'] at h1
    · by_cases ho' : o'.bank = 0
      · by_cases ho1 : o.bank = 1
        · simp_all [Egraph.byBank, Cell.known, Cell.evalKnown, Cell.byBank]
        · simp [Egraph.byBank, ho', beq_false_of_ne ho1] at h1
      · simp [Egraph.byBank, beq_false_of_ne ho, beq_false_of_ne ho'] at h0

/-- The facts of a constant shift, from those of its operand. -/
lemma run_classFacts_shl (hc : eg.cls c = .node n) (hn : IsConstShl eg n a k)
    (seeds : ClassId → Option Facts) (cache : AnalysisCache) :
    (classFacts eg get seeds c).run cache =
    ((shlFacts k ((get a).run cache).1).refine, ((get a).run cache).2) := by
  obtain ⟨op, ops⟩ := n
  obtain ⟨rfl, b, hab, hk⟩ := hn
  dsimp only at hab
  simp only [classFacts, hc, nodeFacts, opFacts, shiftQuery, hab, hk]
  rfl

lemma remember_answers {f : Facts} (hf : ∀ v, ρ.val c = some v → f.Sound v) (depth : ℕ) :
    Answers ρ c (remember c depth f) := by
  refine .bind (P := fun _ => True) (.modify fun cache hca => ?_) fun _ _ => .pure hf
  refine ⟨hca.seeds, hca.wideSeeds, ?_, hca.layouts⟩
  intro c' entry v hen hv
  change update cache.facts c (some (f, depth)) c' = some entry at hen
  by_cases hcc : c' = c
  · subst hcc
    rw [update_self] at hen
    cases hen
    exact hf v hv
  · rw [update_of_ne hcc] at hen
    exact hca.facts c' entry v hen hv

/-- A question about facts changes the facts that are remembered, and nothing else. -/
lemma factsRec_keeps (hI : ∀ cache facts, I cache → I { cache with facts := facts })
    (depth : ℕ) (c : ClassId) :
    Keeps I (factsRec eg depth c) fun _ => True := by
  induction depth generalizing c with
  | zero => exact .pure trivial
  | succ depth ih =>
    refine .bind Keeps.get fun cache _ => ?_
    split
    · exact .pure trivial
    · refine .bind (P := fun _ => True) ?_ fun f _ =>
        .bind (P := fun _ => True) (.modify fun cache => hI cache _) fun _ _ => .pure trivial
      unfold classFacts
      split
      · exact .pure trivial
      · exact nodeFacts_keeps ih _
      · exact .bind (ih _) fun _ _ => .bind (ih _) fun _ _ => .pure trivial
      · exact .pure trivial
      · exact .pure trivial

/-! ## Runs of questions -/

/-- The caches that questions about facts leave, from `s` on. -/
inductive Asked (eg : Egraph) (s : AnalysisCache) : AnalysisCache → Prop where
  | start : Asked eg s s
  | facts {cache : AnalysisCache} (depth : ℕ) (c : ClassId) :
    Asked eg s cache → Asked eg s ((factsRec eg depth c).run cache).2

/-- A question about `c` with a budget of `depth + 1` shifts the facts of `a` by `k`: it is not
answered from the memo. -/
structure ShiftStep (eg : Egraph) (cache : AnalysisCache) (depth : ℕ)
    (c a : ClassId) (k : ℕ) : Prop where
  shl : ∃ n, eg.cls c = .node n ∧ IsConstShl eg n a k
  miss : (cache.facts c).filter (fun entry => decide (depth + 1 ≤ entry.2)) = none

lemma run_factsRec (depth : ℕ) : (factsRec eg (depth + 1) c).run cache =
    StateT.run (match (cache.facts c).filter (fun entry => decide (depth + 1 ≤ entry.2)) with
    | some (f, _) => pure f
    | none => classFacts eg (factsRec eg depth) cache.seeds c >>=
      remember c (depth + 1)) cache := rfl

/-- Where the shifts of a run are rounded the right way, its questions are answered rightly. -/
lemma factsRec_asked {s : AnalysisCache}
    (hround : ∀ cache, Asked eg s cache → ∀ depth c a k x, ShiftStep eg cache depth c a k →
      ρ.val a = some x → ((factsRec eg depth a).run cache).1.Sound x →
        ((factsRec eg depth a).run cache).1.Rounds k x)
    (depth : ℕ) (c : ClassId) : AnswersIn (fun cache => Asked eg s cache ∧ cache.Sound ρ) ρ c
    (factsRec eg depth c) := by
  induction depth generalizing c with
  | zero => exact .pure fun v _ => top_sound
  | succ depth ih =>
    rintro cache ⟨hasked, hcache⟩
    have hanswer : (∀ v, ρ.val c = some v → ((factsRec eg (depth + 1) c).run cache).1.Sound v) ∧
        ((factsRec eg (depth + 1) c).run cache).2.Sound ρ := by
      rw [run_factsRec]
      split
      next f d hen =>
        obtain ⟨hen, -⟩ := filter_eq_some_iff.1 hen
        exact ⟨fun v hv => hcache.facts c _ v hen hv, hcache⟩
      next hmiss =>
        have hclass : (∀ v, ρ.val c = some v →
            ((classFacts eg (factsRec eg depth) cache.seeds c).run cache).1.Sound v) ∧
            ((classFacts eg (factsRec eg depth) cache.seeds c).run cache).2.Sound ρ := by
          by_cases hshl : ∃ n a k, eg.cls c = .node n ∧ IsConstShl eg n a k
          · obtain ⟨n, a, k, hc, hn⟩ := hshl
            obtain ⟨hg, -, hsound⟩ := ih a cache ⟨hasked, hcache⟩
            rw [run_classFacts_shl hc hn]
            refine ⟨fun v hv => ?_, hsound⟩
            obtain ⟨x, hx, rfl⟩ := (val_isConstShl hc hn).1 v hv
            exact refine_sound (shlFacts_sound (hg x hx)
              (hround cache hasked depth c a k x ⟨⟨n, hc, hn⟩, hmiss⟩ hx (hg x hx)))
          · obtain ⟨hright, -, hsound⟩ := classFacts_answers ih hcache
              (fun n a k hc hn => hshl ⟨n, a, k, hc, hn⟩) cache ⟨hasked, hcache⟩
            exact ⟨hright, hsound⟩
        exact remember_answers hclass.1 (depth + 1) _ hclass.2
    exact ⟨hanswer.1, .facts (depth + 1) c hasked, hanswer.2⟩

/-- Where no constant shift saturates, every question is answered rightly, at every depth and from
every sound cache. -/
lemma factsRec_answers (h : ∀ c, ¬SaturatesAt ρ c) (depth : ℕ) (c : ClassId) :
    Answers ρ c (factsRec eg depth c) := by
  intro cache hcache
  have hround : ∀ c a k x, (∃ n, eg.cls c = .node n ∧ IsConstShl eg n a k) → ρ.val a = some x →
      ¬Saturates (x * 2 ^ k) := by
    rintro c a k x ⟨n, hc, hn⟩ hx hsat
    exact h c ⟨n, _, hc, ⟨a, k, hn⟩, (val_isConstShl hc hn).2 x hx, hsat⟩
  obtain ⟨hright, -, hsound⟩ := factsRec_asked (s := cache)
    (fun _ _ _ c a k x hstep hx hg => hg.rounds (hround c a k x hstep.shl hx)) depth
      c cache ⟨.start, hcache⟩
  exact ⟨hright, hsound⟩

/-- Every question of every run from `s` on is answered rightly exactly when every shift by a
constant that a run takes is rounded the right way. -/
theorem factsRec_sound_iff (ρ : Valuation eg) {s : AnalysisCache} (hs : s.Sound ρ) :
    (∀ cache, Asked eg s cache → ∀ depth c v, ρ.val c = some v →
      ((factsRec eg depth c).run cache).1.Sound v) ↔
      ∀ cache, Asked eg s cache → ∀ depth c a k x, ShiftStep eg cache depth c a k →
      ρ.val a = some x →
        ((factsRec eg depth a).run cache).1.Rounds k x := by
  constructor
  · intro h cache hasked depth c a k x hstep hx
    obtain ⟨n, hc, hn⟩ := hstep.shl
    have hsound := h cache hasked (depth + 1) c _ ((val_isConstShl hc hn).2 x hx)
    have hrun : ((factsRec eg (depth + 1) c).run cache).1 =
        (shlFacts k ((factsRec eg depth a).run cache).1).refine := by
      rw [run_factsRec, hstep.miss]
      exact congrArg Prod.fst (run_classFacts_shl hc hn cache.seeds cache)
    rw [hrun] at hsound
    exact (shlFacts_refine_sound_iff (h cache hasked depth a x hx)).1 hsound
  · intro h cache hasked
    have hround := fun cache hasked depth c a k x hstep hx
        (_ : ((factsRec eg depth a).run cache).1.Sound x) => h cache hasked depth c a k x hstep hx
    have hsound : cache.Sound ρ := by
      induction hasked with
      | start => exact hs
      | facts depth c hasked ih => exact (factsRec_asked hround depth c _ ⟨hasked, ih⟩).2.2
    exact fun depth c v hv => (factsRec_asked hround depth c cache ⟨hasked, hsound⟩).1 v hv

/-- The values a pin of `bits` physical bits declares. -/
def Declared (bits : ℕ) (isUnsigned : Bool) (v : ℤ) : Prop :=
  if isUnsigned then 0 ≤ v ∧ v < 2 ^ bits else -2 ^ (bits - 1) ≤ v ∧ v < 2 ^ (bits - 1)

/-- Seeding a leaf whose value is in its declared domain keeps the cache sound. -/
lemma seedLeaf_sound (hca : cache.Sound ρ) {bits : ℕ} {isUnsigned : Bool}
    (hc : ∀ v, ρ.val c = some v → Declared bits isUnsigned v) :
    (seedLeaf cache c bits isUnsigned).Sound ρ := by
  unfold seedLeaf
  split
  next hwi =>
    refine ⟨hca.seeds, ?_, hca.facts, hca.layouts⟩
    intro d n v hd hv
    change update cache.wideSeeds c (some bits) d = some n at hd
    by_cases hdc : d = c
    · subst hdc
      rw [update_self] at hd
      cases hd
      simpa [Declared, hwi.2] using hc v hv
    · rw [update_of_ne hdc] at hd
      exact hca.wideSeeds d n v hd hv
  split
  · exact hca
  next hb =>
    refine ⟨?_, hca.wideSeeds, hca.facts, hca.layouts⟩
    intro d f v hd hv
    by_cases hdc : d = c
    · subst hdc
      change update cache.seeds d _ d = some f at hd
      rw [update_self] at hd
      cases hd
      refine refine_sound ?_
      have hinf := kInf_pos
      have hpos := two_pow_pos (bits - 1)
      have hde := hc v hv
      cases isUnsigned with
      | true => exact ⟨.of_le hde.1, .maskW hde.2, kzOk_zero, koOk_zero, hinf, lt_maskW _⟩
      | false =>
        exact ⟨.of_le hde.1, .of_le (Int.le_sub_one_of_lt hde.2), kzOk_zero, koOk_zero,
          by show -2 ^ (bits - 1) < kInf; omega, by show -kInf < 2 ^ (bits - 1) - 1; omega⟩
    · change update cache.seeds c _ d = some f at hd
      rw [update_of_ne hdc] at hd
      exact hca.seeds d f v hd hv

/-- The caches before the first question: leaves are seeded with domains that hold their values. -/
inductive Seeded (ρ : Valuation eg) : AnalysisCache → Prop where
  | empty : Seeded ρ {}
  | seed {cache : AnalysisCache} (c : ClassId) (bits : ℕ) (isUnsigned : Bool) :
    Seeded ρ cache → (∀ v, ρ.val c = some v → Declared bits isUnsigned v) →
      Seeded ρ (seedLeaf cache c bits isUnsigned)

lemma Seeded.sound {s : AnalysisCache} (h : Seeded ρ s) : s.Sound ρ := by
  induction h with
  | empty => exact AnalysisCache.sound_empty ρ
  | seed c bits isUnsigned _ hc ih => exact seedLeaf_sound ih hc

end

/-! ## A product just below the limit -/

/-- `SHL(Or(u, 1), 99)` of a one-bit leaf `u`. -/
def shlEgraph : Egraph where
  classes := [.leaf, .konst (.integer 1), .node ⟨.or, [⟨0, 0⟩, ⟨0, 1⟩]⟩, .konst (.integer 99),
    .node ⟨.shl, [⟨0, 2⟩, ⟨1, 3⟩]⟩]
  operandsFirst := by decide

/-- The leaf is 0, so the shift is `2 ^ 99`. -/
def shlValuation : Valuation shlEgraph :=
  .ofList [some 0, some 1, some 1, some 99, some (2 ^ 99)] (by decide) (by decide)

lemma seeded_shl : Seeded shlValuation (seedLeaf {} 0 1 true) := by
  refine .seed 0 1 true .empty fun v hv => ?_
  obtain rfl : 0 = v := some.inj hv
  simp [Declared]

/-- The runs of questions about the shift, after seeding the leaf. -/
theorem factsRec_sound_iff_shl :
    (∀ cache, Asked shlEgraph (seedLeaf {} 0 1 true) cache →
      ∀ depth c v, shlValuation.val c = some v →
      ((factsRec shlEgraph depth c).run cache).1.Sound v) ↔
    ∀ cache, Asked shlEgraph (seedLeaf {} 0 1 true) cache →
    ∀ depth c a k x, ShiftStep shlEgraph cache depth c a k →
      shlValuation.val a = some x → ((factsRec shlEgraph depth a).run cache).1.Rounds k x :=
  factsRec_sound_iff shlValuation seeded_shl.sound

/-- The lower bound of the shift, after seeding the leaf, is above its value. -/
theorem factsOf_shl_unsound : Seeded shlValuation (seedLeaf {} 0 1 true) ∧
    shlValuation.val 4 = some (2 ^ 99) ∧
    ¬((factsOf shlEgraph 4).run (seedLeaf {} 0 1 true)).1.Sound (2 ^ 99) := by
  refine ⟨seeded_shl, rfl, fun hsound => ?_⟩
  have hlo : ((factsOf shlEgraph 4).run (seedLeaf {} 0 1 true)).1.lo = 2 ^ 100 - 1 := rfl
  have := hsound.lo
  rw [hlo] at this
  norm_num [LoOk, kInf] at this

end LiveHD.Aegraph
