import LiveHD.Lib.Lists
import LiveHD.Aegraph.FactsOf

/-!
# Widths of non-negative classes

`unsigned_bits` and `storage_unsigned_bits` of `runtime/analyses.cpp`: a number of bits
the value of a class fits, not limited to the range of `Facts`, and the number of bits
its structural realisations carry.  Only the first says something about the value.
-/

namespace LiveHD.Aegraph

open IntBits Option Cell List MonadState LiveHD.Aegraph.Valuation

/-- Layout lanes and window constants stay below this. -/
def kMaxLaneBit : ℤ := 2 ^ 24

/-- The smaller of two widths, where each may be unknown. -/
def keep : Option ℕ → Option ℕ → Option ℕ
  | none, n => n
  | some b, none => some b
  | some b, some n => some (min b n)

section

variable (eg : Egraph) (get : ClassId → Query (Option ℕ))

/-- The widest operand of an `Or` or `Xor`. -/
def widestBits : List Operand → Query (Option ℕ)
  | [] => pure (some 0)
  | o :: ops =>
    if o.bank = 0 then get o.cls >>= fun b => match b with
      | none => pure none
      | some b => Option.map (max b) <$> widestBits ops
    else pure none

/-- The width an e-node shows, from those of its operands. -/
def enodeBits (n : Enode) : Query (Option ℕ) :=
  match n.op with
  | .getMask => pure <| if n.operands.length = 3 then
      (eg.constWindow n.operands (2 ^ 63)).bind fun w =>
        if (w.2 - w.1 : ℕ) ≤ kMaxLaneBit then some (w.2 - w.1) else none
    else none
  | .concat => pure <| if n.operands.isEmpty then none else
      (eg.concatLanes kMaxLaneBit 0 n.operands).bind fun lanes =>
        if ((lanes.map (·.2)).sum : ℕ) ≤ kMaxLaneBit then some (lanes.map (·.2)).sum else none
  | .or | .xor => widestBits get n.operands
  | .and => (foldl keep none) <$> (n.operands.filter (·.bank == 0)).mapM fun o => get o.cls
  | .shl => match binary n.operands with
    | some (a, b) => match eg.constAmount b kMaxLaneBit with
      | some k => Option.map (· + k) <$> get a
      | none => pure none
    | none => pure none
  | .sra => match binary n.operands with
    | some (a, b) => match eg.constAmount b (2 ^ 63) with
      | some k => Option.map (· - k) <$> get a
      | none => pure none
    | none => pure none
  | _ => pure none

/-- The width a member of a class shows. -/
def memberBits (m : ClassId) : Query (Option ℕ) := match eg.enodeOf m with
  | some n => enodeBits eg get n
  | none => pure none

end

/-- The width the bounds of a class show. -/
def boundBits (f : Facts) : Option ℕ :=
  if f.nonneg = true ∧ f.hi < kInf then some (bitlen f.hi) else none

/-- The width from the facts and the declared width of a class. -/
def declaredBits (eg : Egraph) (c : ClassId) : Query (Option ℕ) := do
  let f ← factsRec eg 2 c
  let cache ← get
  pure (keep (boundBits f) (cache.wideSeeds c))

def unsignedBitsRec (eg : Egraph) : ℕ → ClassId → Query (Option ℕ)
  | 0, c => declaredBits eg c
  | depth + 1, c => do
    let best ← declaredBits eg c
    let found ← (eg.members c 8).mapM (memberBits eg (unsignedBitsRec eg depth))
    pure (found.foldl keep best)

/-- A bit count `n` with `0 ≤ value < 2 ^ n`, when one is known. -/
def unsignedBits (eg : Egraph) (c : ClassId) : Query (Option ℕ) := unsignedBitsRec eg 3 c

/-! ## Structural widths -/

section

variable (eg : Egraph) (get : ClassId → Query (Option ℕ))

/-- The widest of some classes, when there is one and all widths are known. -/
def widestStorage : Option ℕ → List ClassId → Query (Option ℕ)
  | widest, [] => pure widest
  | widest, c :: cs => get c >>= fun b => match b with
    | none => pure none
    | some b => widestStorage (some (max (widest.getD 0) b)) cs

def storageOp (n : Enode) : Query (Option ℕ) :=
  match n.op with
  | .getMask | .concat => enodeBits eg (fun _ => pure none) n
  | .and | .or | .xor => widestStorage get none (n.operands.map (·.cls))
  | .mux => widestStorage get none ((n.operands.filter (·.bank != 0)).map (·.cls))
  | .shl => match binary n.operands with
    | some (a, b) => match eg.constAmount b kMaxLaneBit with
      | some k => (fun w => w.bind fun w => if (w + k : ℕ) ≤ kMaxLaneBit then some (w + k)
        else none) <$> get a
      | none => pure none
    | none => pure none
  | .sra => match binary n.operands with
    | some (a, b) => match eg.constAmount b kMaxLaneBit with
      | some k => Option.map (fun w => max 1 (w - k)) <$> get a
      | none => pure none
    | none => pure none
  | .eq | .lt | .gt | .ror | .rxor => pure (some 1)
  | _ => pure none

end

/-- Remember a structural width with the budget it had. -/
def rememberStorage (c : ClassId) (depth : ℕ) (bits : Option ℕ) : Query (Option ℕ) := do
  modify fun cache =>
    { cache with storageWidths := Function.update cache.storageWidths c (some (bits, depth)) }
  pure bits

/-- The structural width of a class from its kind; `get` is absent when the budget is spent. -/
def storageClass (eg : Egraph) (get : Option (ClassId → Query (Option ℕ)))
    (c : ClassId) : Query (Option ℕ) :=
  match eg.cls c, get with
  | .leaf, _ | .konst _, _ => unsignedBitsRec eg 0 c
  | .uni a b, some get => do
    -- extraction may select either shape, including the wider one
    let wa ← get a
    let wb ← get b
    pure (wa.bind fun wa => wb.map (max wa))
  | .node n, some get => storageOp eg get n
  | _, _ => pure none

def storageBitsRec (eg : Egraph) : ℕ → ClassId → Query (Option ℕ)
  | 0, c => do
    let cache ← get
    match cache.storageWidths c with
    | some (bits, _) => pure bits
    | none => storageClass eg none c >>= rememberStorage c 0
  | depth + 1, c => do
    let cache ← get
    match (cache.storageWidths c).filter fun entry => depth + 1 ≤ entry.2 with
    | some (bits, _) => pure bits
    | none => storageClass eg (some (storageBitsRec eg depth)) c >>= rememberStorage c (depth + 1)

def storageUnsignedBits (eg : Egraph) (c : ClassId) : Query (Option ℕ) := storageBitsRec eg kDepth c

/-! ## What a width says -/

section

variable {eg : Egraph} {ρ : Valuation eg}

/-- The value of a class is non-negative and fits `n` bits. -/
def Valuation.Fits (ρ : Valuation eg) (c : ClassId) (n : ℕ) : Prop :=
  ∀ v, ρ.val c = some v → 0 ≤ v ∧ v < 2 ^ n

/-- A width of `c` that is right when it is known. -/
def Valuation.Wide (ρ : Valuation eg) (c : ClassId)
    (r : Option ℕ) : Prop := ∀ n, r = some n → ρ.Fits c n

lemma Valuation.wide_none (c : ClassId) : ρ.Wide c none := fun _ h => by cases h

variable {c : ClassId}

lemma Valuation.Fits.mono {m n : ℕ} (h : ρ.Fits c m) (hmn : m ≤ n) : ρ.Fits c n := fun v hv =>
  ⟨(h v hv).1, (h v hv).2.trans_le (pow_le_pow_right₀ (by norm_num) hmn)⟩

variable {v : ℤ}

lemma Valuation.Fits.testBit {n : ℕ} (h : ρ.Fits c n) (hv : ρ.val c = some v) {i : ℕ}
    (hi : n ≤ i) : v.testBit i = false :=
  (lt_two_pow_iff (h v hv).1).1 (h v hv).2 i hi

lemma Valuation.fits_of_testBit {n : ℕ}
    (h : ∀ v, ρ.val c = some v → ∀ i, n ≤ i → v.testBit i = false) : ρ.Fits c n := fun v hv =>
  ⟨nonneg_of_testBit (h v hv), (lt_two_pow_iff (nonneg_of_testBit (h v hv))).2 (h v hv)⟩

lemma Valuation.Wide.keep {a b : Option ℕ} (ha : ρ.Wide c a) (hb : ρ.Wide c b) :
    ρ.Wide c (keep a b) := by
  cases a with
  | none => exact hb
  | some a =>
    cases b with
    | none => exact ha
    | some b =>
      rintro n ⟨⟩
      rcases min_choice a b with h | h
      · rw [h]
        exact ha a rfl
      · rw [h]
        exact hb b rfl

lemma Valuation.Wide.foldl_keep {a : Option ℕ} {rs : List (Option ℕ)} (ha : ρ.Wide c a)
    (h : ∀ r ∈ rs, ρ.Wide c r) : ρ.Wide c (rs.foldl Aegraph.keep a) := by
  induction rs generalizing a with
  | nil => exact ha
  | cons r rs ih =>
    obtain ⟨hr, hrs⟩ := forall_mem_cons.1 h
    exact ih (ha.keep hr) hrs

lemma boundBits_wide {f : Facts} (h : ∀ v, ρ.val c = some v → f.Sound v) :
    ρ.Wide c (boundBits f) := by
  rintro n hn v hv
  unfold boundBits at hn
  split at hn
  next hf =>
    cases hn
    exact ⟨(h v hv).nonneg hf.1, ((h v hv).hi hf.2).trans_lt lt_two_pow_bitlen⟩
  · cases hn

/-- A strict e-node with a value reads operands that have values. -/
lemma Valuation.exists_reads_enodeOf {m : ClassId} {n : Enode} (hm : eg.enodeOf m = some n)
    (hop : isStrict n.op = true) (hv : ρ.val m = some v) :
    ∃ l, ρ.Reads n.operands l ∧ evalKnown n.op l = some v :=
  ρ.exists_reads _ hop ((ρ.enodeOf hm).symm.trans hv)

lemma Valuation.Reads.exists_value {ops : List Operand} {l : List (ℕ × ℤ)}
    (h : ρ.Reads ops l) {o : Operand}
    (ho : o ∈ ops) : ∃ x, (o.bank, x) ∈ l ∧ ρ.val o.cls = some x := by
  obtain ⟨a, ha, hb, hv⟩ := h.exists_of_mem_left ho
  exact ⟨a.2, hb ▸ ha, hv⟩

variable {get : ClassId → Query (Option ℕ)}

lemma widestBits_keeps {I : AnalysisCache → Prop}
    (hget : ∀ c, Keeps I (get c) (ρ.Wide c)) (ops : List Operand) :
    Keeps I (widestBits get ops) fun r => ∀ n, r = some n → ∀ o ∈ ops, ρ.Fits o.cls n := by
  induction ops with
  | nil => exact .pure fun n _ o ho => by cases ho
  | cons o ops ih =>
    refine .ite (fun _ => ?_) fun _ => .pure fun n hn => by cases hn
    refine .bind (hget o.cls) fun b hb => ?_
    cases b with
    | none => exact .pure fun n hn => by cases hn
    | some b =>
      refine .map ih fun r hr n hn => ?_
      obtain ⟨m, rfl, rfl⟩ := map_eq_some_iff.1 hn
      refine forall_mem_cons.2 ⟨(hb b rfl).mono (le_max_left _ _), fun o' ho' => ?_⟩
      exact (hr m rfl o' ho').mono (le_max_right _ _)

section

variable {m : ClassId} {ops : List Operand} {n : ℕ}

lemma fits_or (hm : eg.enodeOf m = some ⟨.or, ops⟩)
    (h : ∀ o ∈ ops, ρ.Fits o.cls n) : ρ.Fits m n := by
  refine fits_of_testBit fun v hv i hi => ?_
  obtain ⟨l, hl, hv⟩ := exists_reads_enodeOf hm rfl hv
  cases hv
  rw [testBit_foldr_lor, List.any_eq_false]
  rintro x hx
  obtain ⟨a, ha, rfl⟩ := mem_map.1 hx
  obtain ⟨o, ho, -, hov⟩ := hl.exists_of_mem_right ha
  simpa using (h o ho).testBit hov hi

lemma fits_xor (hm : eg.enodeOf m = some ⟨.xor, ops⟩)
    (h : ∀ o ∈ ops, ρ.Fits o.cls n) : ρ.Fits m n := by
  refine fits_of_testBit fun v hv => ?_
  obtain ⟨l, hl, hv⟩ := exists_reads_enodeOf hm rfl hv
  cases hv
  refine testBit_foldr_xor_of_high fun x hx i hi => ?_
  obtain ⟨a, ha, rfl⟩ := mem_map.1 hx
  obtain ⟨o, ho, -, hov⟩ := hl.exists_of_mem_right ha
  exact (h o ho).testBit hov hi

/-- A term without high bits clears those of an `And`. -/
lemma fits_and (hm : eg.enodeOf m = some ⟨.and, ops⟩) {o : Operand} (ho : o ∈ ops)
    (h : ρ.Fits o.cls n) : ρ.Fits m n := by
  refine fits_of_testBit fun v hv i hi => ?_
  obtain ⟨l, hl, hv⟩ := exists_reads_enodeOf hm rfl hv
  cases hv
  obtain ⟨x, hx, hxv⟩ := hl.exists_value ho
  rw [testBit_foldr_land, List.all_eq_false]
  exact ⟨x, mem_map.2 ⟨_, hx, rfl⟩, by simp [h.testBit hxv hi]⟩

lemma fits_getMask (hm : eg.enodeOf m = some ⟨.getMask, ops⟩) {limit : ℤ} {lo hi : ℕ}
    (hw : eg.constWindow ops limit = some (lo, hi)) : ρ.Fits m (hi - lo) := by
  intro v hv
  obtain ⟨l, hl, hv⟩ := exists_reads_enodeOf hm rfl hv
  obtain ⟨-, h2, h3, hr⟩ := reads_window hl hw
  simp only [evalKnown, h2, h3, hr, bind_eq_bind, bind_some, bind_eq_some_iff, some.injEq] at hv
  obtain ⟨x, -, rfl⟩ := hv
  exact ⟨window_nonneg _ _ _, window_lt _ _ _⟩

lemma fits_concat (hm : eg.enodeOf m = some ⟨.concat, ops⟩) {limit : ℤ} {lanes : List (ClassId × ℕ)}
    (hla : eg.concatLanes limit 0 ops = some lanes) : ρ.Fits m (lanes.map (·.2)).sum := by
  intro v hv
  obtain ⟨l, hl, hv⟩ := exists_reads_enodeOf hm rfl hv
  obtain ⟨vals, hva, hrel⟩ := concatLanes_vals hla hl
  simp only [evalKnown, hva] at hv
  split at hv
  · cases hv
    rw [hrel.width]
    exact ⟨concat_nonneg vals, concat_lt vals⟩
  · cases hv

variable {a b : ClassId} {k : ℕ}

/-- The operands of a shift by a constant, and its value. -/
lemma val_shl (hm : eg.enodeOf m = some ⟨.shl, ops⟩) (hab : binary ops = some (a, b))
    (hk : eg.constI64 b = some (k : ℤ)) (hv : ρ.val m = some v) :
    ∃ x, ρ.val a = some x ∧ v = x * 2 ^ k := by
  obtain ⟨l, hl, hv⟩ := exists_reads_enodeOf hm rfl hv
  obtain ⟨x, y, hx, hxv, hy, hyv⟩ := reads_binary hl hab
  cases (hyv.symm.trans (ρ.constI64 hk))
  refine ⟨x, hxv, ?_⟩
  simpa [evalKnown, hx, hy, eq_comm] using hv

lemma val_sra (hm : eg.enodeOf m = some ⟨.sra, ops⟩) (hab : binary ops = some (a, b))
    (hk : eg.constI64 b = some (k : ℤ)) (hv : ρ.val m = some v) :
    ∃ x, ρ.val a = some x ∧ v = x / 2 ^ k := by
  obtain ⟨l, hl, hv⟩ := exists_reads_enodeOf hm rfl hv
  obtain ⟨x, y, hx, hxv, hy, hyv⟩ := reads_binary hl hab
  cases (hyv.symm.trans (ρ.constI64 hk))
  refine ⟨x, hxv, ?_⟩
  simpa [evalKnown, hx, hy, eq_comm] using hv

lemma fits_shl (hm : eg.enodeOf m = some ⟨.shl, ops⟩) (hab : binary ops = some (a, b))
    (hk : eg.constI64 b = some (k : ℤ)) (h : ρ.Fits a n) : ρ.Fits m (n + k) := by
  refine fits_of_testBit fun v hv i hi => ?_
  obtain ⟨x, hx, rfl⟩ := val_shl hm hab hk hv
  rw [testBit_shiftLeft, h.testBit hx (by omega), Bool.and_false]

lemma fits_sra (hm : eg.enodeOf m = some ⟨.sra, ops⟩) (hab : binary ops = some (a, b))
    (hk : eg.constI64 b = some (k : ℤ)) (h : ρ.Fits a n) : ρ.Fits m (n - k) := by
  refine fits_of_testBit fun v hv i hi => ?_
  obtain ⟨x, hx, rfl⟩ := val_sra hm hab hk hv
  rw [testBit_shiftRight, h.testBit hx (by omega)]

end

section

variable {I : AnalysisCache → Prop} (hget : ∀ c, Keeps I (get c) (ρ.Wide c))
include hget

lemma enodeBits_keeps {m : ClassId} {n : Enode} (hm : eg.enodeOf m = some n) :
    Keeps I (enodeBits eg get n) (ρ.Wide m) := by
  obtain ⟨op, ops⟩ := n
  have hno : Keeps I (pure none : Query (Option ℕ)) (ρ.Wide m) := .pure (wide_none m)
  cases op with
  | getMask =>
    refine .pure fun w hw => ?_
    split at hw
    · obtain ⟨⟨lo, hi⟩, hwin, hw⟩ := bind_eq_some_iff.1 hw
      split at hw
      · exact some.inj hw ▸ fits_getMask hm hwin
      · cases hw
    · cases hw
  | concat =>
    refine .pure fun w hw => ?_
    split at hw
    · cases hw
    · obtain ⟨lanes, hl, hw⟩ := bind_eq_some_iff.1 hw
      split at hw
      · exact some.inj hw ▸ fits_concat hm hl
      · cases hw
  | or => exact .mono (widestBits_keeps hget ops) fun r hr w hw => fits_or hm (hr w hw)
  | xor => exact .mono (widestBits_keeps hget ops) fun r hr w hw => fits_xor hm (hr w hw)
  | and =>
    refine .map (.mapM fun o _ => hget o.cls) fun rs hrs => ?_
    refine (wide_none m).foldl_keep fun r hr => ?_
    obtain ⟨o, ho, hwi⟩ := hrs.exists_of_mem_right hr
    exact fun w hw => fits_and hm (mem_of_mem_filter ho) (hwi w hw)
  | shl =>
    simp only [enodeBits]
    cases hab : binary ops with
    | none => exact hno
    | some ab =>
      cases hk : eg.constAmount ab.2 kMaxLaneBit with
      | none => simpa only [hk] using hno
      | some k =>
        simp only [hk]
        refine .map (hget ab.1) fun r hr w hw => ?_
        obtain ⟨w', rfl, rfl⟩ := map_eq_some_iff.1 hw
        exact fits_shl hm hab (constAmount_eq hk).1 (hr w' rfl)
  | sra =>
    simp only [enodeBits]
    cases hab : binary ops with
    | none => exact hno
    | some ab =>
      cases hk : eg.constAmount ab.2 (2 ^ 63) with
      | none => simpa only [hk] using hno
      | some k =>
        simp only [hk]
        refine .map (hget ab.1) fun r hr w hw => ?_
        obtain ⟨w', rfl, rfl⟩ := map_eq_some_iff.1 hw
        exact fits_sra hm hab (constAmount_eq hk).1 (hr w' rfl)
  | _ => exact hno

lemma memberBits_keeps (m : ClassId) : Keeps I (memberBits eg get m) (ρ.Wide m) := by
  unfold memberBits
  cases hm : eg.enodeOf m with
  | none => exact .pure (wide_none m)
  | some n => exact enodeBits_keeps hget hm

end

section

variable (hfacts : ∀ depth c, Answers ρ c (factsRec eg depth c))
include hfacts

lemma declaredBits_keeps (c : ClassId) :
    Keeps (AnalysisCache.Sound ρ) (declaredBits eg c) (ρ.Wide c) := by
  refine .bind (hfacts 2 c) fun f hf => .bind Keeps.get fun cache hca => .pure ?_
  exact (boundBits_wide hf).keep fun n hn v hv => hca.wideSeeds c n v hn hv

/-- Where the facts are right, so are the widths of the values, at every depth and from every sound
cache. -/
lemma unsignedBitsRec_keeps (depth : ℕ) (c : ClassId) :
    Keeps (AnalysisCache.Sound ρ) (unsignedBitsRec eg depth c) (ρ.Wide c) := by
  induction depth generalizing c with
  | zero => exact declaredBits_keeps hfacts c
  | succ depth ih =>
    refine .bind (declaredBits_keeps hfacts c) fun best hbe => ?_
    refine .bind (.mapM fun m _ => memberBits_keeps ih m) fun found hf => .pure ?_
    refine hbe.foldl_keep fun r hr n hn v hv => ?_
    obtain ⟨m, hm, hwi⟩ := hf.exists_of_mem_right hr
    exact hwi n hn v ((ρ.members hm).trans hv)

lemma unsignedBits_keeps (c : ClassId) :
    Keeps (AnalysisCache.Sound ρ) (unsignedBits eg c) (ρ.Wide c) :=
  unsignedBitsRec_keeps hfacts 3 c

end

/-! ## What a question about a width keeps -/

section

variable {I : AnalysisCache → Prop}

section

variable (hget : ∀ c, Keeps I (get c) fun _ => True)
include hget

lemma memberBits_frame (m : ClassId) : Keeps I (memberBits eg get m) fun _ => True := by
  have hno : Keeps I (pure none : Query (Option ℕ)) fun _ => True := .pure trivial
  have hone : ∀ (f : Option ℕ → Option ℕ) c, Keeps I (f <$> get c) fun _ => True := fun f c =>
    .map (hget c) fun _ _ => trivial
  have hwidest : ∀ ops, Keeps I (widestBits get ops) fun _ => True := by
    intro ops
    induction ops with
    | nil => exact .pure trivial
    | cons o ops ih =>
      refine .ite (fun _ => .bind (hget o.cls) fun b _ => ?_) fun _ => hno
      cases b with
      | none => exact hno
      | some b => exact .map ih fun _ _ => trivial
  unfold memberBits
  split
  next n _ =>
    obtain ⟨op, ops⟩ := n
    cases op with
    | or | xor => exact hwidest ops
    | and => exact .map (.mapM fun o _ => hget o.cls) fun _ _ => trivial
    | shl | sra =>
      simp only [enodeBits]
      split
      · split
        · exact hone _ _
        · exact hno
      · exact hno
    | _ => exact .pure trivial
  · exact hno

end

lemma unsignedBitsRec_frame (hfacts : ∀ depth c, Keeps I (factsRec eg depth c) fun _ => True)
    (depth : ℕ) (c : ClassId) :
    Keeps I (unsignedBitsRec eg depth c) fun _ => True := by
  have hdeclared : ∀ c, Keeps I (declaredBits eg c) fun _ => True := fun c =>
    .bind (hfacts 2 c) fun _ _ => .bind Keeps.get fun _ _ => .pure trivial
  induction depth generalizing c with
  | zero => exact hdeclared c
  | succ depth ih =>
    exact .bind (hdeclared c) fun _ _ =>
      .bind (.mapM fun m _ => memberBits_frame ih m) fun _ _ => .pure trivial

end

/-! ## Structural widths keep the cache -/

section

variable {I : AnalysisCache → Prop} (hget : ∀ c, Keeps I (get c) fun _ => True)
include hget

lemma widestStorage_keeps (widest : Option ℕ) (cs : List ClassId) :
    Keeps I (widestStorage get widest cs) fun _ => True := by
  induction cs generalizing widest with
  | nil => exact .pure trivial
  | cons c cs ih =>
    refine .bind (hget c) fun b _ => ?_
    cases b with
    | none => exact .pure trivial
    | some b => exact ih _

lemma storageOp_keeps (n : Enode) : Keeps I (storageOp eg get n) fun _ => True := by
  obtain ⟨op, ops⟩ := n
  have hno : Keeps I (pure none : Query (Option ℕ)) fun _ => True := .pure trivial
  have hsh : ∀ f : ℕ → Option ℕ → Option ℕ, Keeps I (match binary ops with
      | some (a, b) => match eg.constAmount b kMaxLaneBit with
        | some k => f k <$> get a
        | none => pure none
      | none => pure none) fun _ => True := by
    intro f
    split
    · split
      · exact .map (hget _) fun _ _ => trivial
      · exact hno
    · exact hno
  cases op with
  | getMask | concat | eq | lt | gt | ror | rxor => exact .pure trivial
  | and | or | xor | mux => exact widestStorage_keeps hget _ _
  | shl => exact hsh fun k w => w.bind fun w =>
    if (w + k : ℕ) ≤ kMaxLaneBit then some (w + k) else none
  | sra => exact hsh fun k => Option.map fun w => max 1 (w - k)
  | _ => exact hno

end

section

variable (hfacts : ∀ depth c, Answers ρ c (factsRec eg depth c))
include hfacts

lemma storageClass_keeps {get : Option (ClassId → Query (Option ℕ))}
    (hget : ∀ g, get = some g → ∀ c, Keeps (AnalysisCache.Sound ρ) (g c) fun _ => True)
    (c : ClassId) :
    Keeps (AnalysisCache.Sound ρ) (storageClass eg get c) fun _ => True := by
  have hb := (unsignedBitsRec_keeps hfacts 0 c).mono fun _ _ => trivial
  unfold storageClass
  split
  · exact hb
  · exact hb
  next g _ => exact .bind (hget g rfl _) fun _ _ => .bind (hget g rfl _) fun _ _ => .pure trivial
  next g _ => exact storageOp_keeps (hget g rfl) _
  · exact .pure trivial

omit hfacts in
lemma rememberStorage_keeps (c : ClassId) (depth : ℕ) (bits : Option ℕ) :
    Keeps (AnalysisCache.Sound ρ) (rememberStorage c depth bits) fun _ => True := by
  refine .bind (P := fun _ => True) (.modify fun cache hca => ?_) fun _ _ => .pure trivial
  exact ⟨hca.seeds, hca.wideSeeds, hca.facts, hca.layouts⟩

lemma storageBitsRec_keeps (depth : ℕ) (c : ClassId) :
    Keeps (AnalysisCache.Sound ρ) (storageBitsRec eg depth c) fun _ => True := by
  induction depth generalizing c with
  | zero =>
    refine .bind Keeps.get fun cache _ => ?_
    split
    · exact .pure trivial
    · exact .bind (storageClass_keeps hfacts (fun g hg => by cases hg) c) fun _ _ =>
        rememberStorage_keeps c 0 _
  | succ depth ih =>
    refine .bind Keeps.get fun cache _ => ?_
    split
    · exact .pure trivial
    · refine .bind (storageClass_keeps hfacts (fun g hg => ?_) c) fun _ _ =>
        rememberStorage_keeps c _ _
      cases hg
      exact ih

end

end

end LiveHD.Aegraph
