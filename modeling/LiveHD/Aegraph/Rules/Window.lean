import LiveHD.Aegraph.Ctx

/-!
# Window reads

The hand-written rules of `rules/mask.cpp` that read a window: through the lane layout of
a packed word, of a value that fits, and of an n-ary operator some of whose terms do not
reach the window.
-/

namespace LiveHD.Aegraph

open Int hiding testBit
open Option hiding all all_eq_false
open IntBits List

section

variable {σ : Type} (eg : Egraph) (B : Builder σ)

def replaceBy (m : RuleM σ ClassId) : RuleM σ (Option Result) := (fun c => some (.subsume c)) <$> m

/-- A lane that is exactly its window and already fits it, in its value and in its carrier. -/
def laneFits (src : ClassId) (lo hi : ℕ) : RuleM σ Bool :=
  if lo = 0 then ask (storageUnsignedBits eg src) >>= fun storage =>
    if storage.any (decide <| · ≤ hi) then ask (factsOf eg src) >>= fun f =>
      if f.fits hi then pure true
      else (fun bits => bits.any (decide <| · ≤ hi)) <$> ask (unsignedBits eg src)
    else pure false
  else pure false

def getmaskLane (root : Root) : RuleM σ (Option Result) :=
  match getMaskWindow eg root.ops with
  | none => pure none
  | some (x, lo, hi) => ask (layoutOf eg x) >>= fun layout => match findLane layout lo hi with
    | none => pure none
    | some lane => match lane.src with
      | none => replaceBy (konst B 0)
      | some src =>
        -- the identity lane of a class without structure
        if src = x then pure none
        else
          let slo := (lane.off + (lo - lane.lo)).toNat
          let shi := slo + (hi - lo)
          laneFits eg src slo shi >>= fun fits =>
            if fits then pure (some (.subsume src)) else replaceBy (makeGetMask B src slo shi)

def getmaskFits (root : Root) : RuleM σ (Option Result) :=
  match getMaskWindow eg root.ops with
  | none => pure none
  | some (y, lo, hi) =>
    if lo ≠ 0 then pure none
    else ask (factsOf eg y) >>= fun f =>
      if f.fits hi then ask (storageUnsignedBits eg y) >>= fun storage =>
        if storage.any (decide <| · ≤ hi) = true ∧ eg.cls y ≠ .leaf then
          memberNode eg y (·.op == .sum) >>= fun arith =>
            if arith.isSome then pure none else pure (some (.subsume y))
        else pure none
      else pure none

/-- A term whose low `hi` bits are zero. -/
def lowZero (hi : ℕ) (t : ClassId) : RuleM σ Bool := do
  let shl ← memberSome eg t fun n =>
    if n.op = .shl then (pair n.operands).bind fun ab =>
    (eg.constI64 ab.2).filter ((hi : ℤ) ≤ ·) else none
  if shl.isSome then pure true
  else if hi ≤ 64 then (fun f => decide (f.kz &&& lowMask hi = lowMask hi)) <$> ask (factsOf eg t)
  else pure false

/-- A non-negative term below `2 ^ lo`. -/
def belowWindow (lo : ℕ) (t : ClassId) : RuleM σ Bool :=
  if lo = 0 then pure false
  else ask (factsOf eg t) >>= fun f =>
    if f.fits lo then pure true else
    (fun bits => bits.any (decide <| · ≤ lo)) <$> ask (unsignedBits eg t)

def deadTerm (op : NtypeOp) (lo hi : ℕ)
    (t : ClassId) : RuleM σ Bool := lowZero eg hi t >>= fun zero =>
  if zero then pure true else if op ≠ .sum then belowWindow eg lo t else pure false

/-- The terms that reach the window; `none` when a dead term clears an `And`. -/
def liveTerms (op : NtypeOp) (lo hi : ℕ) : List Operand → RuleM σ (Option (List Operand))
  | [] => pure (some [])
  | t :: terms => deadTerm eg op lo hi t.cls >>= fun dead =>
    if dead then if op = .and then pure none else liveTerms op lo hi terms
    else Option.map (t :: ·) <$> liveTerms op lo hi terms

/-- The window of the terms that are left, replacing the read when that duplicates nothing. -/
def narrowedWindow (op : NtypeOp) (x : ClassId) (lo hi terms : ℕ) (rest : List Operand) :
    RuleM σ (Option Result) :=
  (if rest.isEmpty then konst B 0 else makeBank B op rest) >>= fun narrowed => do
  let window ← makeGetMask B narrowed lo hi
  let single ← singleUse B x
  pure (some (if single = true ∨ rest.length ≤ 1 ∨ 2 * rest.length ≤ terms then .subsume window
    else .add window))

def getmaskDropTerms (root : Root) : RuleM σ (Option Result) :=
  match getMaskWindow eg root.ops with
  | none => pure none
  | some (x, lo, hi) =>
    if kMaxLaneBit < hi then pure none
    else memberNode eg x (fun n => isBank n.op) >>= fun bank => match bank with
      | none => pure none
      | some n =>
        if n.operands.length < 2 ∨ 4096 < n.operands.length then pure none
        else do
          grantFuel (n.operands.length * 6)
          let rest ← liveTerms eg n.op lo hi n.operands
          match rest with
          | none => replaceBy (konst B 0)
          | some rest =>
            if rest.length = n.operands.length ∨ n.op = .and then pure none
            else narrowedWindow B n.op x lo hi n.operands.length rest

/-- The class under a `Sext` that keeps at least `hi` bits. -/
def sextSource (hi : ℕ) (c : ClassId) : RuleM σ (Option ClassId) := memberSome eg c fun n =>
  if n.op = .sext then (pair n.operands).bind fun ab =>
  ((eg.constI64 ab.2).filter ((hi : ℤ) ≤ ·)).map fun _ => ab.1
  else none

/-- A class that is equal modulo `2 ^ hi`: under a low window or a `Sext` of at least `hi` bits. -/
def moduloSource (hi : ℕ) (c : ClassId) : RuleM σ (Option ClassId) := sliceOf eg c >>= fun s =>
  match s.filter fun s => s.2.1 = 0 ∧ hi ≤ s.2.2 with
  | some s => pure (some s.1)
  | none => sextSource eg hi c

/-- The operands of a `Sum` member of a class. -/
def sumTerms (y : Option ClassId) : RuleM σ (Option (ClassId × List Operand)) := match y with
  | none => pure none
  | some y => (fun n => n.map fun n => (y, n.operands)) <$> memberNode eg y (·.op == .sum)

/-- Facts that put a value into `n` bits, sign included. -/
def Facts.signedFits (f : Facts) (n : ℕ) : Bool :=
  f.bounded && decide (-2 ^ min (n - 1) 99 ≤ f.lo) && decide (f.hi < 2 ^ min (n - 1) 99)

def narrowTerm (hi : ℕ) (o : Operand) : RuleM σ Bool := do
  let bits ← ask (unsignedBits eg o.cls)
  let f ← ask (factsOf eg o.cls)
  pure (bits.any (decide <| · ≤ hi) || f.signedFits hi)

def narrowTerms (hi : ℕ) (ys : List Operand) : RuleM σ Bool :=
  (fun rs => decide (ys.length ≤ 16) && rs.all id) <$> ys.mapM (narrowTerm eg hi)

/-- An operand of a `Sum` in slot `t`: under a subtracted slot its sign flips. -/
def inSlot (t o : Operand) : Operand :=
  ⟨if t.bank = 0 then o.bank else if o.bank = 0 then 1 else 0, o.cls⟩

/-- What the sum chain has gathered. -/
structure Chain where
  merged : List Operand := []
  peeled : Bool := false
  /-- Every merged window is read by this `Sum` only. -/
  privateInner : Bool := true

def Chain.keep (chain : Chain) (t : Operand) : Chain := { chain with merged := chain.merged ++ [t] }

/-- Peel the inner sums of a stack of operands. -/
def peel (hi : ℕ) (pending : List Operand) (expanded : List ClassId)
    (chain : Chain) : RuleM σ Chain :=
  match pending with
  | [] => pure chain
  | t :: rest => (moduloSource eg hi t.cls >>= sumTerms eg) >>= fun inner => match inner with
    | none => peel hi rest expanded (chain.keep t)
    | some (y, ys) =>
      if _h : y ∈ expanded ∨ 64 ≤ expanded.length then peel hi rest expanded (chain.keep t)
      else narrowTerms eg hi ys >>= fun narrow =>
        if narrow then do
          grantFuel (ys.length * 8)
          let own ← singleUse B t.cls
          let inner ← singleUse B y
          peel hi ((ys.map (inSlot t)).reverse ++ rest) (y :: expanded)
            { chain with peeled := true, privateInner := chain.privateInner && own && inner }
        else peel hi rest expanded (chain.keep t)
termination_by (64 - expanded.length, pending.length)
decreasing_by
  · exact Prod.Lex.right _ (Nat.lt_succ_self _)
  · exact Prod.Lex.right _ (Nat.lt_succ_self _)
  · refine Prod.Lex.left _ _ ?_
    rw [length_cons]
    omega
  · exact Prod.Lex.right _ (Nat.lt_succ_self _)

def getmaskSumChain (root : Root) : RuleM σ (Option Result) :=
  match getMaskWindow eg root.ops with
  | none => pure none
  | some (x, lo, hi) =>
    if lo ≠ 0 ∨ 4096 < hi then pure none
    else memberNode eg x (·.op == .sum) >>= fun sum => match sum with
      | none => pure none
      | some n =>
        if n.operands.length < 2 ∨ 64 < n.operands.length then pure none
        else do
          grantFuel (n.operands.length * 8)
          let chain ← peel eg B hi n.operands.reverse [x] {}
          if chain.peeled then do
            let sum ← makeBank B .sum chain.merged
            let merged ← makeGetMask B sum 0 hi
            pure (some (if chain.privateInner then .subsume merged else .add merged))
          else pure none

/-- The width of a non-negative class. -/
def valueBits (x : ClassId) : RuleM σ (Option ℕ) := ask (factsOf eg x) >>= fun f =>
  if f.nonneg = true ∧ f.hi < kInf then pure (some (bitlen f.hi)) else ask (unsignedBits eg x)

def sraLane (root : Root) : RuleM σ (Option Result) :=
  match (pair root.ops).bind fun ab => (eg.constAmount ab.2 kMaxLaneBit).map fun k => (ab.1, k) with
  | none => pure none
  | some (x, k) =>
    if k = 0 then pure none
    else valueBits eg x >>= fun n => match n with
      | none => pure none
      | some n =>
        if n ≤ k then replaceBy (konst B 0)
        else ask (layoutOf eg x) >>= fun layout => match findLane layout k n with
          | none => pure none
          | some lane => if lane.src = some x then pure none else replaceBy (makeGetMask B x k n)

end

/-! ## Exactness -/

section

variable {σ : Type} {eg : Egraph} {ρ : Valuation eg} {B : Builder σ}

/-- The answer of a rule, if any, has the value `v`. -/
def Replaces (ρ : Valuation eg) (v : ℤ)
    (r : Option Result) : Prop := ∀ res, r = some res → ρ.val res.cls = some v

variable {v : ℤ}

lemma keeps_none : Keeps (Run.Sound (σ := σ) ρ) (pure none) (Replaces ρ v) :=
  .pure (fun _ h => by cases h)

lemma replaceBy_keeps {m : RuleM σ ClassId} (h : Keeps (Run.Sound ρ) m fun c => ρ.val c = some v) :
    Keeps (Run.Sound ρ) (replaceBy m) (Replaces ρ v) :=
  Keeps.map h fun c hc res hres => by
    cases hres
    exact hc

variable {hi lo : ℕ}

/-- The lane of a window and the value it shows. -/
lemma findLane_val {L : Layout} {x : ClassId} (hL : L.Describes ρ x) (hlt : lo < hi) {lane : Lane}
    (h : findLane L lo hi = some lane) {y : ℤ} (hy : ρ.val x = some y) :
    (lane.src = none → window y lo (hi - lo) = 0) ∧ ∀ s, lane.src = some s → ∃ w, ρ.val s = some w ∧
      window y lo (hi - lo) = window w (lane.off + (lo - lane.lo)).toNat (hi - lo) := by
  have hmem := mem_of_find?_eq_some h
  obtain ⟨hlo, hhi⟩ : lane.lo ≤ lo ∧ (hi : ℤ) ≤ lane.hi := by simpa using find?_some h
  have hb : ∀ i, i < hi - lo → lane.Holds ρ y (lo + i) := fun i hi' =>
    hL.bits y hy lane hmem (lo + i) (by push_cast; omega) (.inl (by push_cast; omega))
  refine ⟨fun hsrc => ?_, fun s hsrc => ?_⟩
  · refine ext fun i => ?_
    rw [testBit_window, testBit_zero]
    by_cases hi' : i < hi - lo
    · simp [(Lane.holds_none hsrc).1 (hb i hi')]
    · rw [decide_eq_false hi', Bool.false_and]
  · obtain ⟨w, hw, -⟩ := (Lane.holds_some hsrc).1 (hb 0 (by omega))
    refine ⟨w, hw, ext fun i => ?_⟩
    rw [testBit_window, testBit_window]
    by_cases hi' : i < hi - lo
    · obtain ⟨w', hw', hbit⟩ := (Lane.holds_some hsrc).1 (hb i hi')
      cases (hw.symm.trans hw')
      have hoff := hL.off lane hmem
      rw [hbit]
      congr 2
      omega
    · rw [decide_eq_false hi', Bool.false_and, Bool.false_and]

variable {root : Root}

section

variable (ha : SoundAnalyses ρ)
include ha

lemma unsignedBits_any_keeps (c : ClassId) (n : ℕ) :
    Keeps (Run.Sound (σ := σ) ρ) ((fun bits => Option.any (decide <| · ≤ n) bits) <$>
      ask (unsignedBits eg c))
      fun r => r = true → ρ.Fits c n := by
  refine .map (ask_keeps (unsignedBits_keeps ha.facts c)) fun bits hb hr => ?_
  cases bits with
  | none => cases hr
  | some m => exact (hb m rfl).mono (by simpa using hr)

lemma laneFits_keeps (src : ClassId) (lo hi : ℕ) :
    Keeps (Run.Sound (σ := σ) ρ) (laneFits eg src lo hi)
    fun r => r = true → lo = 0 ∧ ρ.Fits src hi := by
  have hfa : Keeps (Run.Sound (σ := σ) ρ) (pure false) fun r => r = true → lo = 0 ∧ ρ.Fits src hi :=
    Keeps.pure fun h => by cases h
  refine .ite (fun hlo => ?_) fun _ => hfa
  refine .bind (ask_keeps (storageBitsRec_keeps ha.facts kDepth src)) fun storage _ => ?_
  refine .ite (fun _ => ?_) fun _ => hfa
  refine .bind (ask_keeps (ha.facts kDepth src)) fun f hf => ?_
  refine .ite (fun hfi => ?_) fun _ => ?_
  · exact .pure fun _ => ⟨hlo, fun v hv => (hf v hv).lt_of_fits hfi⟩
  · exact (unsignedBits_any_keeps ha src hi).mono fun r hr h => ⟨hlo, hr h⟩

lemma getmaskLane_keeps (hB : B.Lawful ρ) (hr : Cell.evalOp .getMask (ρ.args root.ops) = some v) :
    Keeps (Run.Sound ρ) (getmaskLane eg B root) (Replaces ρ v) := by
  unfold getmaskLane
  split
  · exact keeps_none
  rename_i x lo hi hwin
  obtain ⟨hlt, hval⟩ := getMaskWindow_val (ρ := ρ) hwin
  obtain ⟨y, hy, rfl⟩ := hval v hr
  refine .bind (ask_keeps (ha.layout x)) fun layout hla => ?_
  split
  · exact keeps_none
  rename_i lane hln
  obtain ⟨hze, hsrc⟩ := findLane_val hla hlt hln hy
  split
  next hno =>
    rw [hze hno]
    exact replaceBy_keeps (konst_keeps hB 0)
  rename_i src hsm
  obtain ⟨w, hw, hwi⟩ := hsrc src hsm
  refine .ite (fun _ => keeps_none) fun _ => ?_
  refine .bind (laneFits_keeps ha src _ _) fun fits hfi => .ite (fun hf => .pure ?_) fun _ => ?_
  · -- the whole source is the window
    intro res hres
    cases hres
    obtain ⟨hslo, hbo⟩ := hfi hf
    obtain ⟨h0, hlt⟩ := hbo w hw
    rw [hslo, zero_add] at hlt
    rwa [hwi, hslo, window_zero_of_lt h0 hlt]
  · refine replaceBy_keeps ((makeGetMask_keeps hB src (by omega)).mono fun c hc => ?_)
    simp [hc w hw, hwi]

lemma getmaskFits_keeps (hr : Cell.evalOp .getMask (ρ.args root.ops) = some v) :
    Keeps (Run.Sound (σ := σ) ρ) (getmaskFits eg root) (Replaces ρ v) := by
  unfold getmaskFits
  split
  · exact keeps_none
  rename_i y lo hi hwin
  obtain ⟨hlt, hval⟩ := getMaskWindow_val (ρ := ρ) hwin
  obtain ⟨x, hx, rfl⟩ := hval v hr
  refine .ite (fun _ => keeps_none) fun hlo => .bind (ask_keeps (ha.facts kDepth y)) fun f hf => ?_
  obtain rfl : lo = 0 := not_not.1 hlo
  refine .ite (fun hfi => ?_) fun _ => keeps_none
  refine .bind (ask_keeps (storageBitsRec_keeps ha.facts kDepth y)) fun storage _ => ?_
  refine .ite (fun _ => ?_) fun _ => keeps_none
  refine .bind (memberNode_keeps y _) fun arith _ => .ite (fun _ => keeps_none) fun _ => .pure ?_
  intro res hres
  cases hres
  obtain ⟨h0, hlt⟩ := (hf x hx).lt_of_fits hfi
  rwa [Nat.sub_zero, window_zero_of_lt h0 hlt]

end

/-! ## Terms that do not reach a window -/

/-- The value of an n-ary operator. -/
def bankVal (op : NtypeOp) (l : List (ℕ × ℤ)) : ℤ :=
  match op with
  | .sum => (l.map summand).sum
  | .and => (l.map (·.2)).foldr Int.land (-1)
  | .or => (l.map (·.2)).foldr Int.lor 0
  | .xor => (l.map (·.2)).foldr Int.xor 0
  | _ => 0

variable {op : NtypeOp}

lemma evalKnown_bank (hop : isBank op = true) (l : List (ℕ × ℤ)) :
    Cell.evalKnown op l = some (bankVal op l) := by
  cases op with
  | sum => exact congrArg some (sum_summand l).symm
  | and | or | xor => rfl
  | _ => cases hop

lemma isStrict_of_isBank (hop : isBank op = true) : Cell.isStrict op = true := by
  cases op <;> first | rfl | cases hop

/-- A term that adds nothing to the bits `[lo, hi)`; in a sum it must not carry into them either. -/
def Dead (op : NtypeOp) (lo hi : ℕ) (x : ℤ) : Prop :=
  if op = .sum then 2 ^ hi ∣ x else ∀ i, lo ≤ i → i < hi → x.testBit i = false

/-- Values that agree on the bits `[lo, hi)`; sums agree below `hi`. -/
def SameWindow (op : NtypeOp) (lo hi : ℕ) (x y : ℤ) : Prop :=
  if op = .sum then x ≡ y [ZMOD 2 ^ hi] else ∀ i, lo ≤ i → i < hi → x.testBit i = y.testBit i

variable {x : ℤ}

lemma dead_of_dvd (h : 2 ^ hi ∣ x) : Dead op lo hi x := by
  unfold Dead
  split
  · exact h
  · exact fun i _ hi' => dvd_two_pow_iff.1 h i hi'

lemma dead_of_lt (hop : op ≠ .sum) (h0 : 0 ≤ x) (h : x < 2 ^ lo) : Dead op lo hi x := by
  rw [Dead, if_neg hop]
  exact fun i hlo _ => (lt_two_pow_iff h0).1 h i hlo

lemma testBit_of_modEq {y : ℤ} (h : x ≡ y [ZMOD 2 ^ hi]) {i : ℕ} (hi' : i < hi) :
    x.testBit i = y.testBit i := by
  have := congrArg (·.testBit i) (show x % 2 ^ hi = y % 2 ^ hi from h)
  simpa only [testBit_mod, decide_eq_true hi', Bool.true_and] using this

lemma SameWindow.window_eq {y : ℤ} (h : SameWindow op lo hi x y) :
    window x lo (hi - lo) = window y lo (hi - lo) := by
  have hb : ∀ i, lo ≤ i → i < hi → x.testBit i = y.testBit i := by
    unfold SameWindow at h
    split at h
    · exact fun i _ hi' => testBit_of_modEq h hi'
    · exact h
  refine ext fun i => ?_
  rw [testBit_window, testBit_window]
  by_cases hi' : i < hi - lo
  · rw [hb (lo + i) (by omega) (by omega)]
  · rw [decide_eq_false hi', Bool.false_and, Bool.false_and]

lemma sameWindow_refl (op : NtypeOp) (lo hi : ℕ) (x : ℤ) : SameWindow op lo hi x x := by
  unfold SameWindow
  split
  · exact Int.ModEq.refl x
  · exact fun _ _ _ => rfl

variable {l : List (ℕ × ℤ)}

/-- A term in front of both lists. -/
lemma SameWindow.cons (hop : isBank op = true) {l' : List (ℕ × ℤ)}
    (h : SameWindow op lo hi (bankVal op l) (bankVal op l')) (a : ℕ × ℤ) :
    SameWindow op lo hi (bankVal op (a :: l)) (bankVal op (a :: l')) := by
  cases op with
  | sum => exact Int.ModEq.add_left (summand a) h
  | and =>
    intro i hlo hhi
    simp only [bankVal, map_cons, foldr_cons, testBit_land]
    exact congrArg _ (h i hlo hhi)
  | or =>
    intro i hlo hhi
    simp only [bankVal, map_cons, foldr_cons, testBit_lor]
    exact congrArg _ (h i hlo hhi)
  | xor =>
    intro i hlo hhi
    simp only [bankVal, map_cons, foldr_cons, testBit_lxor]
    exact congrArg _ (h i hlo hhi)
  | _ => cases hop

/-- A dead term in front of the first list. -/
lemma SameWindow.cons_dead (hop : isBank op = true) (hand : op ≠ .and)
    {l' : List (ℕ × ℤ)} (h : SameWindow op lo hi (bankVal op l) (bankVal op l')) {a : ℕ × ℤ}
    (ha : Dead op lo hi a.2) : SameWindow op lo hi (bankVal op (a :: l)) (bankVal op l') := by
  cases op with
  | sum =>
    have h0 : summand a ≡ 0 [ZMOD 2 ^ hi] := by
      refine modEq_zero_iff_dvd.2 ?_
      unfold summand
      split
      · exact ha
      · exact (dvd_neg).2 ha
    have := h0.add h
    rwa [zero_add] at this
  | or =>
    intro i hlo hhi
    simp only [bankVal, map_cons, foldr_cons, testBit_lor]
    rw [ha i hlo hhi]
    exact h i hlo hhi
  | xor =>
    intro i hlo hhi
    simp only [bankVal, map_cons, foldr_cons, testBit_lxor]
    rw [ha i hlo hhi, Bool.false_xor]
    exact h i hlo hhi
  | and => exact absurd rfl hand
  | _ => cases hop

section

variable (ha : SoundAnalyses ρ)
include ha

lemma lowZero_keeps (hi : ℕ) (t : ClassId) : Keeps (Run.Sound (σ := σ) ρ) (lowZero eg hi t)
    fun r => r = true → ∀ x, ρ.val t = some x → 2 ^ hi ∣ x := by
  refine .bind (memberSome_keeps t _) fun shl hshl => ?_
  refine .ite (fun hsm => .pure fun _ x hx => ?_) fun _ => ?_
  · obtain ⟨k, hk⟩ := isSome_iff_exists.1 hsm
    obtain ⟨⟨op, ops⟩, hrd, hval⟩ := hshl k hk
    split at hrd
    next hop =>
      obtain rfl : op = .shl := hop
      obtain ⟨⟨a, b⟩, hab, hrd⟩ := bind_eq_some_iff.1 hrd
      obtain ⟨hc, hle⟩ := filter_eq_some_iff.1 hrd
      rw [decide_eq_true_eq] at hle
      obtain ⟨n, rfl⟩ := eq_ofNat_of_zero_le ((natCast_nonneg hi).trans hle)
      rw [hx, pair_eq hab] at hval
      obtain ⟨y, -, rfl⟩ := shl_val hc hval.symm
      exact Dvd.dvd.mul_left (pow_dvd_pow 2 (Int.ofNat_le.1 hle)) y
    · cases hrd
  refine .ite (fun h64 => ?_) fun _ => .pure fun h => by cases h
  refine .map (ask_keeps (ha.facts kDepth t)) fun f hf hma x hx => ?_
  rw [decide_eq_true_eq] at hma
  refine dvd_two_pow_iff.2 fun i hi' => (hf x hx).kz i ?_
  have := congrArg (·.getLsbD i) hma
  rw [BitVec.getLsbD_and, getLsbD_lowMask, decide_eq_true (by omega : i < 64),
    decide_eq_true hi'] at this
  simpa using this

lemma belowWindow_keeps (lo : ℕ) (t : ClassId) : Keeps (Run.Sound (σ := σ) ρ) (belowWindow eg lo t)
    fun r => r = true → ρ.Fits t lo := by
  refine .ite (fun _ => .pure fun h => by cases h) fun _ => ?_
  refine .bind (ask_keeps (ha.facts kDepth t)) fun f hf =>
    .ite (fun hfi => .pure fun _ => ?_) fun _ => ?_
  · exact fun v hv => (hf v hv).lt_of_fits hfi
  · exact unsignedBits_any_keeps ha t lo

lemma deadTerm_keeps (op : NtypeOp) (lo hi : ℕ) (t : ClassId) :
    Keeps (Run.Sound (σ := σ) ρ) (deadTerm eg op lo hi t)
      fun r => r = true → ∀ x, ρ.val t = some x → Dead op lo hi x := by
  refine .bind (lowZero_keeps ha hi t) fun zero hze => ?_
  refine .ite (fun hz => .pure fun _ x hx => dead_of_dvd (hze hz x hx)) fun _ => ?_
  refine .ite (fun hop => ?_) fun _ => .pure fun h => by cases h
  refine (belowWindow_keeps ha lo t).mono fun r hr h x hx => ?_
  obtain ⟨h0, hlt⟩ := hr h x hx
  exact dead_of_lt hop h0 hlt

lemma liveTerms_keeps (hop : isBank op = true) (lo hi : ℕ) (ops : List Operand) :
    Keeps (Run.Sound (σ := σ) ρ) (liveTerms eg op lo hi ops) fun r =>
      (r = none → op = .and ∧ ∃ t ∈ ops, ∀ x, ρ.val t.cls = some x → Dead op lo hi x) ∧
      ∀ rest, r = some rest → ∀ l, ρ.Reads ops l → ∃ l', ρ.Reads rest l' ∧
      SameWindow op lo hi (bankVal op l) (bankVal op l') := by
  induction ops with
  | nil =>
    refine .pure ⟨nofun, fun rest hre l hl => ?_⟩
    cases hre
    exact ⟨l, hl, sameWindow_refl _ _ _ _⟩
  | cons t ops ih =>
    refine .bind (deadTerm_keeps ha op lo hi t.cls) fun dead hde => ?_
    refine .ite (fun hd => .ite (fun hand => .pure ?_) fun hand => ?_) fun _ => ?_
    · exact ⟨fun _ => ⟨hand, t, .head _, hde hd⟩, nofun⟩
    · refine ih.mono fun r hr => ⟨fun h => absurd (hr.1 h).1 hand, fun rest hre l hl => ?_⟩
      cases hl with
      | cons hta hl =>
        obtain ⟨l', hl', hsa⟩ := hr.2 rest hre _ hl
        exact ⟨l', hl', hsa.cons_dead hop hand (hde hd _ hta.2)⟩
    · refine .map ih fun r hr => ⟨fun h => ?_, fun rest hre l hl => ?_⟩
      · obtain ⟨hand, t', ht', hx⟩ := hr.1 (map_eq_none_iff.1 h)
        exact ⟨hand, t', .tail _ ht', hx⟩
      · obtain ⟨rest', rfl, rfl⟩ := map_eq_some_iff.1 hre
        cases hl with
        | cons hta hl =>
          obtain ⟨l', hl', hsa⟩ := hr.2 rest' rfl _ hl
          exact ⟨_, .cons hta hl', hsa.cons hop _⟩

omit ha in
lemma narrowedWindow_keeps (hB : B.Lawful ρ) (hop : isBank op = true)
    (hand : op ≠ .and) (x : ClassId)
    (hlt : lo < hi) (terms : ℕ) {rest : List Operand} (hl : ρ.Reads rest l) :
    Keeps (Run.Sound ρ) (narrowedWindow B op x lo hi terms rest)
      (Replaces ρ (window (bankVal op l) lo (hi - lo))) := by
  have hna : Keeps (Run.Sound ρ) (if rest.isEmpty then konst B 0 else makeBank B op rest)
      fun c => ρ.val c = some (bankVal op l) := by
    refine .ite (fun hem => ?_) fun _ => ?_
    · obtain rfl := List.isEmpty_iff.1 hem
      cases hl
      have hun : bankVal op [] = 0 := by
        cases op <;> first | rfl | exact absurd rfl hand
      rw [hun]
      exact konst_keeps hB 0
    · refine (makeBank_keeps hB hop rest).mono fun c hc => hc _ ?_
      rw [hl.evalOp (isStrict_of_isBank hop), evalKnown_bank hop]
  refine .bind hna fun narrowed hn => ?_
  refine .bind (makeGetMask_keeps hB narrowed hlt) fun w hw => ?_
  refine .bind (singleUse_keeps x) fun single _ => .pure fun res hres => ?_
  have hcls : res.cls = w := by
    cases hres
    split <;> rfl
  rw [hcls, hw _ hn]

lemma getmaskDropTerms_keeps (hB : B.Lawful ρ)
    (hro : Cell.evalOp .getMask (ρ.args root.ops) = some v) :
    Keeps (Run.Sound ρ) (getmaskDropTerms eg B root) (Replaces ρ v) := by
  unfold getmaskDropTerms
  split
  · exact keeps_none
  rename_i x lo hi hwin
  obtain ⟨hlt, hval⟩ := getMaskWindow_val (ρ := ρ) hwin
  obtain ⟨y, hy, rfl⟩ := hval v hro
  refine .ite (fun _ => keeps_none) fun _ => .bind (memberNode_keeps x _) fun bank hba => ?_
  cases bank with
  | none => exact keeps_none
  | some n =>
    obtain ⟨hop, hn⟩ := hba n rfl
    obtain ⟨l, hl, hlv⟩ := ρ.exists_reads _ (isStrict_of_isBank hop) (hn.symm.trans hy)
    rw [evalKnown_bank hop] at hlv
    cases hlv
    refine .ite (fun _ => keeps_none) fun _ => .bind (grantFuel_keeps _) fun _ _ => ?_
    refine .bind (liveTerms_keeps ha hop lo hi n.operands) fun rest hr => ?_
    cases rest with
    | none =>
      -- a term without a bit in the window clears it
      obtain ⟨hand, t, ht, hde⟩ := hr.1 rfl
      obtain ⟨z, hz, hzv⟩ := hl.exists_value ht
      have h0 : window (bankVal n.op l) lo (hi - lo) = 0 := by
        have hb := hde z hzv
        rw [hand] at hb ⊢
        refine ext fun i => ?_
        rw [testBit_window, testBit_zero]
        by_cases hi' : i < hi - lo
        · rw [decide_eq_true hi', Bool.true_and, bankVal, testBit_foldr_land, all_eq_false]
          exact ⟨z, mem_map.2 ⟨_, hz, rfl⟩, by simp [hb (lo + i) (by omega) (by omega)]⟩
        · rw [decide_eq_false hi', Bool.false_and]
      rw [h0]
      exact replaceBy_keeps (konst_keeps hB 0)
    | some rest =>
      refine .ite (fun _ => keeps_none) fun hch => ?_
      obtain ⟨l', hl', hsa⟩ := hr.2 rest rfl l hl
      rw [hsa.window_eq]
      exact narrowedWindow_keeps hB hop (fun h => hch (.inr h)) x hlt _ hl'

end

/-! ## Sums under a low window -/

/-- The value of a `Sum`. -/
def sumVal (l : List (ℕ × ℤ)) : ℤ := (l.map summand).sum

lemma sumVal_append (l m : List (ℕ × ℤ)) : sumVal (l ++ m) = sumVal l + sumVal m := by simp [sumVal]

lemma sumVal_reverse (l : List (ℕ × ℤ)) : sumVal l.reverse = sumVal l := by simp [sumVal]

/-- The values of operands in a slot. -/
lemma reads_inSlot {ys : List Operand} (h : ρ.Reads ys l) (t : Operand) :
    ∃ l', ρ.Reads (ys.map (inSlot t)) l' ∧
    sumVal l' = if t.bank = 0 then sumVal l else -sumVal l := by
  induction h with
  | nil => exact ⟨[], .nil, by simp [sumVal]⟩
  | @cons o a ys l hoa _ ih =>
    obtain ⟨l', hl', hsum⟩ := ih
    refine ⟨((inSlot t o).bank, a.2) :: l', .cons ⟨rfl, hoa.2⟩ hl', ?_⟩
    have hco : ∀ (b : ℕ × ℤ) (m : List (ℕ × ℤ)), sumVal (b :: m) =
        summand b + sumVal m := fun b m => by
      simp [sumVal]
    rw [hco, hco, hsum]
    by_cases ht : t.bank = 0
    · simp [inSlot, ht, hoa.1]
    · by_cases ho : a.1 = 0
      · simp [inSlot, ht, summand, hoa.1, ho]
        ring
      · simp [inSlot, ht, summand, hoa.1, ho]
        ring

lemma moduloSource_keeps (hpos : 0 < hi) (c : ClassId) :
    Keeps (Run.Sound (σ := σ) ρ) (moduloSource eg hi c) fun r =>
    ∀ y, r = some y → ∀ v, ρ.val c = some v →
      ∃ w, ρ.val y = some w ∧ v ≡ w [ZMOD 2 ^ hi] := by
  refine .bind (sliceOf_keeps c) fun s hs => ?_
  split
  next s' hfi =>
    obtain ⟨⟨y, lo, shi⟩, rfl⟩ : ∃ t, s' = t := ⟨s', rfl⟩
    obtain ⟨hsm, hco⟩ := filter_eq_some_iff.1 hfi
    obtain ⟨rfl, hle⟩ : lo = 0 ∧ hi ≤ shi := by simpa using hco
    obtain ⟨-, hval⟩ := hs y 0 shi hsm
    refine .pure fun y' hy' v hv => ?_
    cases hy'
    obtain ⟨w, hw, rfl⟩ := hval v hv
    refine ⟨w, hw, ?_⟩
    rw [window_zero]
    exact emod_emod_of_dvd w (pow_dvd_pow 2 hle)
  · refine (memberSome_keeps c _).mono fun r hr y hy v hv => ?_
    obtain ⟨⟨op, ops⟩, hrd, hval⟩ := hr y hy
    split at hrd
    next hop =>
      obtain rfl : op = .sext := hop
      obtain ⟨⟨a, b⟩, hab, hrd⟩ := bind_eq_some_iff.1 hrd
      obtain ⟨k, hk, rfl⟩ := map_eq_some_iff.1 hrd
      obtain ⟨hc, hle⟩ := filter_eq_some_iff.1 hk
      rw [decide_eq_true_eq] at hle
      rw [hv, pair_eq hab, Valuation.args, map_cons, map_cons, map_nil, ρ.constI64 hc] at hval
      cases hx : ρ.val a with
      | none =>
        rw [hx] at hval
        cases hval
      | some x =>
        rw [hx, Cell.evalOp_sext, if_pos (by omega)] at hval
        cases hval
        refine ⟨x, rfl, Int.ModEq.of_dvd ?_ (sext_mod x k.toNat)⟩
        exact pow_dvd_pow 2 (by omega)
    · cases hrd

lemma memberSum_keeps (c : ClassId) :
    Keeps (Run.Sound (σ := σ) ρ) (memberNode eg c (·.op == .sum)) fun r =>
    ∀ n, r = some n → ∀ v, ρ.val c = some v → ∃ l, ρ.Reads n.operands l ∧ v = sumVal l := by
  refine (memberNode_keeps c _).mono fun r hr n hn v hv => ?_
  obtain ⟨hop, hval⟩ := hr n hn
  obtain ⟨op, ops⟩ := n
  obtain rfl : op = .sum := by simpa using hop
  obtain ⟨l, hl, hlv⟩ := ρ.exists_reads .sum rfl (hval.symm.trans hv)
  rw [evalKnown_bank (by rfl)] at hlv
  exact ⟨l, hl, (Option.some.inj hlv).symm⟩

/-- The inner sum of an operand is equal to it modulo `2 ^ hi`. -/
lemma innerTerms_keeps (hpos : 0 < hi) (c : ClassId) :
    Keeps (Run.Sound (σ := σ) ρ) (moduloSource eg hi c >>= sumTerms eg) fun r =>
      ∀ z ys, r = some (z, ys) → ∀ v, ρ.val c = some v → ∃ l, ρ.Reads ys l ∧ v ≡
      sumVal l [ZMOD 2 ^ hi] := by
  refine .bind (moduloSource_keeps hpos c) fun y hy => ?_
  cases y with
  | none => exact .pure nofun
  | some y =>
    refine .map (memberSum_keeps y) fun r hr z ys h v hv => ?_
    obtain ⟨n, hn, hzy⟩ := map_eq_some_iff.1 h
    cases hzy
    obtain ⟨w, hw, hmod⟩ := hy y rfl v hv
    obtain ⟨l, hl, rfl⟩ := hr n hn w hw
    exact ⟨l, hl, hmod⟩

section

variable (ha : SoundAnalyses ρ)
include ha

lemma narrowTerms_keeps (hi : ℕ) (ys : List Operand) :
    Keeps (Run.Sound (σ := σ) ρ) (narrowTerms eg hi ys) fun _ => True := by
  refine .map (.mapM (R := fun _ _ => True) fun o _ => ?_) fun _ _ => trivial
  refine .bind (ask_keeps (unsignedBits_keeps ha.facts o.cls)) fun _ _ => ?_
  exact .bind (ask_keeps (ha.facts kDepth o.cls)) fun _ _ => .pure trivial

/-- Peeling keeps the sum of what is gathered and what is pending, modulo `2 ^ hi`. -/
lemma peel_keeps (hpos : 0 < hi) (pending : List Operand) (expanded : List ClassId) (chain : Chain)
    {lp lm : List (ℕ × ℤ)} (hlp : ρ.Reads pending lp) (hlm : ρ.Reads chain.merged lm) :
    Keeps (Run.Sound ρ) (peel eg B hi pending expanded chain) fun c => ∃ l, ρ.Reads c.merged l ∧
      sumVal l ≡ sumVal lp + sumVal lm [ZMOD 2 ^ hi] := by
  unfold peel
  cases hlp with
  | nil => exact .pure ⟨lm, hlm, by simp [sumVal]⟩
  | @cons t a rest lp hta hlp =>
    have hco : sumVal (a :: lp) = summand a + sumVal lp := by simp [sumVal]
    -- the operand joins the gathered ones
    have hke : Keeps (Run.Sound ρ) (peel eg B hi rest expanded (chain.keep t)) fun c =>
        ∃ l, ρ.Reads c.merged l ∧
        sumVal l ≡ sumVal (a :: lp) + sumVal lm [ZMOD 2 ^ hi] := by
      refine (peel_keeps hpos rest expanded (chain.keep t) hlp
        (rel_append hlm (.cons hta Forall₂.nil))).mono fun c hc => ?_
      obtain ⟨l, hl, hsum⟩ := hc
      refine ⟨l, hl, hsum.trans ?_⟩
      rw [sumVal_append, hco, show sumVal [a] = summand a by simp [sumVal]]
      exact congrArg (· % 2 ^ hi) (by ring)
    refine .bind (innerTerms_keeps hpos t.cls) fun inner hin => ?_
    cases inner with
    | none => exact hke
    | some zys =>
      obtain ⟨z, ys⟩ := zys
      dsimp only
      split
      · exact hke
      refine .bind (narrowTerms_keeps ha hi ys) fun narrow _ => .ite (fun _ => ?_) fun _ => hke
      refine .bind (grantFuel_keeps _) fun _ _ => .bind (singleUse_keeps t.cls) fun own _ => ?_
      refine .bind (singleUse_keeps z) fun inner _ => ?_
      -- the operands of the inner sum take the slot of `t`
      obtain ⟨l, hl, hmod⟩ := hin z ys rfl _ hta.2
      obtain ⟨l', hl', hsu'⟩ := reads_inSlot hl t
      have hsl : sumVal l' ≡ summand a [ZMOD 2 ^ hi] := by
        rw [hsu', summand, hta.1]
        split
        · exact hmod.symm
        · exact hmod.symm.neg
      have hpe : ρ.Reads ((ys.map (inSlot t)).reverse ++ rest) (l'.reverse ++ lp) :=
        rel_append (forall₂_reverse_iff.2 hl') hlp
      refine (peel_keeps hpos _ (z :: expanded)
        { chain with peeled := true, privateInner := _ } hpe hlm).mono ?_
      rintro c ⟨m, hm, hsum⟩
      refine ⟨m, hm, hsum.trans ?_⟩
      rw [sumVal_append, sumVal_reverse]
      exact (hsl.add_right _).add_right _
termination_by (64 - expanded.length, pending.length)
decreasing_by
  · exact Prod.Lex.right _ (Nat.lt_succ_self _)
  · refine Prod.Lex.left _ _ ?_
    rw [length_cons]
    omega

lemma getmaskSumChain_keeps (hB : B.Lawful ρ)
    (hr : Cell.evalOp .getMask (ρ.args root.ops) = some v) :
    Keeps (Run.Sound ρ) (getmaskSumChain eg B root) (Replaces ρ v) := by
  unfold getmaskSumChain
  split
  · exact keeps_none
  rename_i x lo hi hwin
  obtain ⟨hlt, hval⟩ := getMaskWindow_val (ρ := ρ) hwin
  obtain ⟨y, hy, rfl⟩ := hval v hr
  refine .ite (fun _ => keeps_none) fun hco => .bind (memberSum_keeps x) fun sum hsum => ?_
  obtain rfl : lo = 0 := by
    by_contra h
    exact hco (.inl h)
  cases sum with
  | none => exact keeps_none
  | some n =>
    obtain ⟨l, hl, rfl⟩ := hsum n rfl y hy
    refine .ite (fun _ => keeps_none) fun _ => .bind (grantFuel_keeps _) fun _ _ => ?_
    refine .bind (peel_keeps ha hlt _ [x] {} (forall₂_reverse_iff.2 hl) Forall₂.nil) fun chain hc =>
      ?_
    obtain ⟨m, hm, hmod⟩ := hc
    refine .ite (fun _ => ?_) fun _ => keeps_none
    refine .bind (makeBank_keeps hB (show isBank .sum = true from rfl) chain.merged) fun s hs => ?_
    refine .bind (makeGetMask_keeps hB s hlt) fun w hw => .pure fun res hres => ?_
    have hcls : res.cls = w := by
      cases hres
      split <;> rfl
    have hval : ρ.val s = some (sumVal m) := hs _ (by rw [hm.evalOp rfl, evalKnown_bank rfl]; rfl)
    have hsa : SameWindow .sum 0 hi (sumVal m) (sumVal l) := by
      simpa [SameWindow, sumVal] using hmod
    rw [hcls, hw _ hval, hsa.window_eq]

lemma valueBits_keeps (x : ClassId) : Keeps (Run.Sound (σ := σ) ρ) (valueBits eg x) (ρ.Wide x) := by
  refine .bind (ask_keeps (ha.facts kDepth x)) fun f hf => .ite (fun hb => .pure ?_) fun _ => ?_
  · rintro n hn v hv
    cases hn
    exact ⟨(hf v hv).nonneg hb.1, ((hf v hv).hi hb.2).trans_lt lt_two_pow_bitlen⟩
  · exact ask_keeps (unsignedBits_keeps ha.facts x)

lemma sraLane_keeps (hB : B.Lawful ρ) (hr : Cell.evalOp .sra (ρ.args root.ops) = some v) :
    Keeps (Run.Sound ρ) (sraLane eg B root) (Replaces ρ v) := by
  unfold sraLane
  split
  · exact keeps_none
  rename_i x k hrd
  obtain ⟨⟨a, b⟩, hab, hrd⟩ := bind_eq_some_iff.1 hrd
  obtain ⟨k', hk, hxk⟩ := map_eq_some_iff.1 hrd
  obtain ⟨rfl, rfl⟩ := Prod.mk.inj hxk
  obtain ⟨hco, -⟩ := constAmount_eq hk
  rw [pair_eq hab, Valuation.args, map_cons, map_cons, ρ.constI64 hco] at hr
  obtain ⟨y, hy, rfl⟩ : ∃ y, ρ.val a = some y ∧ v = y / 2 ^ k' := by
    cases hy : ρ.val a with
    | none =>
      rw [hy] at hr
      cases hr
    | some y =>
      rw [hy] at hr
      exact ⟨y, rfl, (Option.some.inj hr).symm⟩
  refine .ite (fun _ => keeps_none) fun _ => .bind (valueBits_keeps ha a) fun n hn => ?_
  cases n with
  | none => exact keeps_none
  | some n =>
    obtain ⟨h0, hlt⟩ := hn n rfl y hy
    refine .ite (fun hnk => ?_) fun hnk => ?_
    · have hze := ediv_eq_zero_of_lt h0 (hlt.trans_le (pow_le_pow_right₀ (by norm_num) hnk))
      rw [hze]
      exact replaceBy_keeps (konst_keeps hB 0)
    refine .bind (ask_keeps (ha.layout a)) fun layout _ => ?_
    split
    · exact keeps_none
    refine .ite (fun _ => keeps_none) fun _ => ?_
    refine replaceBy_keeps ((makeGetMask_keeps hB a (not_le.1 hnk)).mono fun c hc => ?_)
    have hwi : window y k' (n - k') = y / 2 ^ k' := by
      refine emod_eq_of_lt (ediv_nonneg h0 (two_pow_pos k').le)
        (Int.ediv_lt_of_lt_mul (two_pow_pos k') ?_)
      rwa [← pow_add, Nat.sub_add_cancel (not_le.1 hnk).le]
    rw [hc y hy, hwi]

end

end

end LiveHD.Aegraph
