import LiveHD.Synth.Arith.Div
import LiveHD.Lib.PairTree

/-!
# The comparators `build_lt` and `build_eq`

The comparison tree joins groups of positions from the low end up.  A group is a span of the carry
chain of `~a + b`: it generates when the group of `a` is less and propagates when the groups are
equal.
-/

namespace LiveHD.Synth

open List BitAlgebra Carry Carry.Span Int Ops

universe u v

/-- `Group` of `build_lt`. -/
structure LtGroup (Bit : Type u) where
  less : Bit
  equal : Bit

namespace Ops

variable {Bit : Type u} (ops : Ops Bit)

/-- The group of one position; signed order reverses the sign bits. -/
def ltGroup (a b : List Bit) (isUnsigned : Bool) (i : ℕ) : LtGroup Bit :=
  let x := ops.get a i
  let y := ops.get b i
  ⟨if !isUnsigned && i + 1 == a.length then ops.and_ x (ops.inv y)
    else ops.and_ (ops.inv x) y, ops.inv (ops.xor_ x y)⟩

def joinGroups (lo hi : LtGroup Bit) : LtGroup Bit :=
  ⟨ops.or_ hi.less (ops.and_ hi.equal lo.less), ops.and_ hi.equal lo.equal⟩

/-- `build_lt`. -/
def buildLt (kind : AdderKind) (blockSize : ℕ) (a b : List Bit) (isUnsigned : Bool) : Bit :=
  if kind = .parallelPrefix then
    let level := (List.range a.length).map (ops.ltGroup a b isUnsigned)
    ((PairTree.reduce ops.joinGroups level).headD ⟨ops.zero, ops.one⟩).less
  else
    let diff := ops.buildAdd kind blockSize a (b.map ops.inv) ops.one
    if isUnsigned then ops.inv diff.carryOut else ops.get diff.sum (a.length - 1)

/-- Whether the operands agree, position by position, with the first one. -/
def eqMatches (first : List Bit) (rest : List (List Bit)) : List Bit :=
  rest.flatMap fun v => (List.range first.length).map fun b =>
    ops.inv (ops.xor_ (ops.get v b) (ops.get first b))

/-- `build_eq`. -/
def buildEq (operands : List (List Bit)) (balanced : Bool) : Bit :=
  match operands with
  | [] => ops.one
  | first :: rest =>
    if balanced then (PairTree.reduce ops.and_ (ops.eqMatches first rest)).headD ops.one
    else (ops.eqMatches first rest).foldl ops.and_ ops.one

end Ops

namespace BitAlgebra

variable {Bit : Type u} {Env : Type v} {A : BitAlgebra Bit Env} {ρ : Env} {a b : List Bit}

/-! ## The comparison tree -/

/-- The bits of an operand as the tree orders them. -/
def ordered (A : BitAlgebra Bit Env) (ρ : Env) (v : List Bit) (isUnsigned : Bool) (i : ℕ) : Bool :=
  A.bit ρ v i ^^ (!isUnsigned && i + 1 == v.length)

/-- What a group says of its positions. -/
def groupSpan (A : BitAlgebra Bit Env) (ρ : Env) (g : LtGroup Bit) : Carry.Span :=
  ⟨A.eval ρ g.less, A.eval ρ g.equal⟩

lemma groupSpan_ltGroup (h : b.length = a.length) (isUnsigned : Bool) (i : ℕ) :
    A.groupSpan ρ (A.ltGroup a b isUnsigned i) =
      spanAt (fun i => !A.ordered ρ a isUnsigned i) (A.ordered ρ b isUnsigned) i := by
  simp only [groupSpan, Ops.ltGroup, Carry.spanAt, ordered, h, bit]
  cases !isUnsigned && i + 1 == a.length <;> cases ha : A.eval ρ (A.get a i) <;> cases hb :
    A.eval ρ (A.get b i) <;>
    simp [ha, hb]

lemma buildLt_tree (bs : ℕ) (h : b.length = a.length) (isUnsigned : Bool) :
    A.eval ρ (A.buildLt .parallelPrefix bs a b isUnsigned) =
      decide (bitsVal (A.ordered ρ a isUnsigned) a.length <
        bitsVal (A.ordered ρ b isUnsigned) a.length) := by
  have key := PairTree.reduce_headD (f := A.joinGroups) (h := A.groupSpan ρ)
    (g := fun lo hi => hi.comp lo)
    (e := ⟨false, true⟩) (fun lo hi => by simp [groupSpan, joinGroups, comp])
    (fun a b c => (comp_assoc c b a).symm) (fun s => by ext <;> simp [comp])
    (d := ⟨A.zero, A.one⟩) (by simp [groupSpan])
      ((List.range a.length).map (A.ltGroup a b isUnsigned))
  have hsp : ((List.range a.length).map (A.ltGroup a b isUnsigned)).map (A.groupSpan ρ) =
        (range' 0 a.length).map
        (spanAt (fun i => !A.ordered ρ a isUnsigned i) (A.ordered ρ b isUnsigned)) := by
    rw [map_map, range_eq_range']
    exact map_congr_left fun i _ => groupSpan_ltGroup h isUnsigned i
  rw [hsp, foldr_range'_span] at key
  have hca := carry_span (fun i => !A.ordered ρ a isUnsigned i)
    (A.ordered ρ b isUnsigned) false 0 a.length
  rw [zero_add, carry_not, ← key] at hca
  simpa [Ops.buildLt, groupSpan, Carry.Span.out, Carry.carry] using hca.symm

lemma bitsVal_ordered_unsigned (v : List Bit) :
    Carry.bitsVal (A.ordered ρ v true) v.length = A.value ρ v :=
  bitsVal_congr fun i _ => by simp [ordered]

variable {v : List Bit}

/-- Reversing the sign bit biases the signed value. -/
lemma bitsVal_ordered_signed {n : ℕ} (hv : v.length = n + 1) :
    (bitsVal (A.ordered ρ v false) (n + 1) : ℤ) = A.intValue ρ true v + 2 ^ n := by
  have hlow : bitsVal (A.ordered ρ v false) n = bitsVal (A.bit ρ v) n := by
    refine bitsVal_congr fun i hi => ?_
    simp [ordered, hv, beq_false_of_ne hi.ne]
  rw [bitsVal_succ, hlow, A.intValue_signed v hv]
  simp only [ordered, hv, beq_self_eq_true]
  cases A.bit ρ v n <;> simp

/-! ## The subtractor -/

/-- The sign bit of a number that fits. -/
lemma Holds.sign {n : ℕ} {z : ℤ} (h : A.Holds ρ (n + 1) v z) (hlo : -2 ^ n ≤ z) (hhi : z < 2 ^ n) :
    A.bit ρ v n = decide (z < 0) := by
  have hval := h.eq_emod
  have hlow : (Carry.bitsVal (A.bit ρ v) n : ℤ) < 2 ^ n := by
    exact_mod_cast Carry.bitsVal_lt (A.bit ρ v) n
  rw [BitAlgebra.value, h.length, bitsVal_succ] at hval
  push_cast at hval
  by_cases hz : z < 0
  · rw [← add_emod_right, emod_eq_of_lt (by omega) (by omega)] at hval
    rw [decide_eq_true hz]
    cases hb : A.bit ρ v n with
    | true => rfl
    | false =>
      simp only [hb, Bool.toNat_false] at hval
      omega
  · rw [emod_eq_of_lt (by omega) (by omega)] at hval
    rw [decide_eq_false hz]
    cases hb : A.bit ρ v n with
    | false => rfl
    | true =>
      simp only [hb, Bool.toNat_true] at hval
      omega

lemma Holds.intValue (isSigned : Bool) (v : List Bit) :
    A.Holds ρ v.length v (A.intValue ρ isSigned v) := by
  refine (Holds.self v).congr (modEq_iff_dvd.2 ?_)
  rw [BitAlgebra.intValue]
  split
  · exact ⟨-1, by ring⟩
  · exact ⟨0, by ring⟩

variable (kind : AdderKind) (bs : ℕ)

/-- `a + ~b + 1`. -/
lemma subtract_holds (h : b.length = a.length) (isSigned : Bool) :
    A.Holds ρ a.length (A.buildAdd kind bs a (b.map A.inv) A.one).sum
    (A.intValue ρ isSigned a - A.intValue ρ isSigned b) := by
  have hb := Holds.intValue (A := A) (ρ := ρ) isSigned b
  have hinv : A.Holds ρ a.length (b.map A.inv) (-A.intValue ρ isSigned b - 1) := by
    refine ⟨(length_map _).trans h, ?_⟩
    have hsum : (A.value ρ (b.map A.inv) : ℤ) + A.value ρ b + 1 = 2 ^ b.length := by
      exact_mod_cast value_map_inv (A := A) (ρ := ρ) b
    have hval : (A.value ρ (b.map A.inv) : ℤ) = 2 ^ a.length + (-A.value ρ b - 1) := by
      rw [← h]; linarith
    rw [hval]
    refine (Int.add_modEq_left).trans ?_
    have := hb.value.neg.sub_right 1
    rwa [h] at this
  refine (Holds.buildAdd kind bs A.one (Holds.intValue isSigned a) hinv).congr ?_
  rw [eval_one, Bool.toNat_true, Nat.cast_one,
    show A.intValue ρ isSigned a + (-A.intValue ρ isSigned b - 1) + 1 =
    A.intValue ρ isSigned a - A.intValue ρ isSigned b by ring]

lemma buildLt_unsigned (h : b.length = a.length) :
    A.eval ρ (A.buildLt kind bs a b true) = decide (A.value ρ a < A.value ρ b) := by
  by_cases hk : kind = .parallelPrefix
  · subst hk
    have hb : bitsVal (A.ordered ρ b true) a.length = A.value ρ b := h ▸ bitsVal_ordered_unsigned b
    rw [buildLt_tree bs h, bitsVal_ordered_unsigned, hb]
  · have hc : A.Chain ρ a (b.map A.inv) A.one a.length (A.buildAdd kind bs a (b.map A.inv) A.one) :=
      buildAdd_chain kind bs
    have hbi : ∀ i < a.length, A.bit ρ (b.map A.inv) i = !A.bit ρ b i := by
      intro i hi
      simp [bit, Ops.get, h ▸ hi]
    rw [buildLt, if_neg hk]
    simp only [if_true, eval_inv]
    rw [hc.2, carry, carry_comm, carry_congr hbi fun _ _ => rfl, carry_not, eval_one]
    rw [value_eq h.le, ← decide_not]
    exact decide_eq_decide.2 (by rw [Bool.toNat_true, Nat.lt_succ_iff, not_le]; rfl)

lemma buildLt_signed {n : ℕ} (ha : a.length = n + 1) (h : b.length = a.length)
    (hfit : kind ≠ .parallelPrefix → -2 ^ n ≤ A.intValue ρ true a - A.intValue ρ true b ∧
      A.intValue ρ true a - A.intValue ρ true b < 2 ^ n) :
    A.eval ρ (A.buildLt kind bs a b false) =
    decide (A.intValue ρ true a < A.intValue ρ true b) := by
  by_cases hk : kind = .parallelPrefix
  · subst hk
    have hx := bitsVal_ordered_signed (A := A) (ρ := ρ) ha
    have hy := bitsVal_ordered_signed (A := A) (ρ := ρ) (h.trans ha)
    rw [buildLt_tree bs h, ha]
    exact decide_eq_decide.2 (by omega)
  · have hsub := A.subtract_holds (ρ := ρ) kind bs h true
    rw [ha] at hsub
    rw [Ops.buildLt, if_neg hk, ha]
    exact (hsub.sign (hfit hk).1 (hfit hk).2).trans (decide_eq_decide.2 sub_neg)

/-! ## Guarded operands -/

section

variable {isSigned : Bool} {n : ℕ} (h : v.length + (!isSigned).toNat ≤ n)
include h

/-- Twice the value of an operand that leaves room for a guard bit fits. -/
lemma guarded_range : -2 ^ n ≤ 2 * A.intValue ρ isSigned v ∧
    2 * A.intValue ρ isSigned v < 2 ^ n := by
  have hpow : (2 : ℤ) ^ (v.length + (!isSigned).toNat) ≤ 2 ^ n := by
    exact_mod_cast Nat.pow_le_pow_right two_pos h
  cases isSigned with
  | false =>
    have hlt : (A.value ρ v : ℤ) < 2 ^ v.length := by exact_mod_cast A.value_lt (ρ := ρ) v
    rw [Bool.not_false, Bool.toNat_true, pow_succ] at hpow
    rw [intValue_unsigned]
    omega
  | true =>
    cases v with
    | nil =>
      have hnil : A.intValue ρ true ([] : List Bit) = 0 := by simp [intValue, bit, Ops.get]
      rw [hnil]
      have := pow_pos (zero_lt_two' ℤ) n
      omega
    | cons x v =>
      have hlow : (bitsVal (A.bit ρ (x :: v)) v.length : ℤ) < 2 ^ v.length := by
        exact_mod_cast bitsVal_lt (A.bit ρ (x :: v)) v.length
      rw [Bool.not_true, Bool.toNat_false, Nat.add_zero, length_cons, pow_succ] at hpow
      rw [intValue_signed (x :: v) rfl]
      cases A.bit ρ (x :: v) v.length <;>
        simp only [Bool.toNat_true, Bool.toNat_false, Nat.cast_zero, Nat.cast_one] <;>
        omega

lemma intValue_extend : A.intValue ρ true (A.extend v isSigned (n + 1)) =
    A.intValue ρ isSigned v := by
  obtain ⟨hlo, hhi⟩ := guarded_range (A := A) (ρ := ρ) h
  exact (A.extend_holds v isSigned (n + 1)).intValue_signed (abs_lt.2 ⟨by omega, by omega⟩)

end

/-! ## Equality -/

lemma all_eqMatches (first : List Bit) (rest : List (List Bit)) :
    (A.eqMatches first rest).all (A.eval ρ) =
    decide (∀ v ∈ rest, ∀ i < first.length, A.bit ρ v i = A.bit ρ first i) := by
  rw [Bool.eq_iff_iff, decide_eq_true_iff]
  simp only [eqMatches, all_eq_true, mem_flatMap, mem_map, mem_range]
  constructor
  · intro h v hv i hi
    simpa [bit] using h _ ⟨v, hv, i, hi, rfl⟩
  · rintro h _ ⟨v, hv, i, hi, rfl⟩
    simpa [bit] using h v hv i hi

lemma eval_foldl_and (l : List Bit) (d : Bit) :
    A.eval ρ (l.foldl A.and_ d) = (A.eval ρ d && l.all (A.eval ρ)) := by
  induction l generalizing d with
  | nil => simp
  | cons x l ih => rw [foldl_cons, ih, eval_and, all_cons, Bool.and_assoc]

lemma buildEq_eval (balanced : Bool) (first : List Bit) (rest : List (List Bit)) :
    A.eval ρ (A.buildEq (first :: rest) balanced) =
      decide (∀ v ∈ rest, ∀ i < first.length, A.bit ρ v i = A.bit ρ first i) := by
  rw [← all_eqMatches]
  cases balanced with
  | true => exact PairTree.reduce_all (A.eval_and ρ) (A.eval_one ρ) _
  | false => exact (eval_foldl_and _ _).trans (by rw [eval_one, Bool.true_and])

/-- Vectors of one length are equal numbers when they agree bit by bit. -/
lemma value_eq_iff {u : List Bit} (h : u.length = v.length) :
    A.value ρ u = A.value ρ v ↔ ∀ i < v.length, A.bit ρ u i = A.bit ρ v i := by
  constructor
  · intro heq i hi
    have := congrArg (Nat.testBit · i) heq
    rwa [value, value, h, testBit_bitsVal hi, testBit_bitsVal hi] at this
  · intro hb
    rw [value, h]
    exact Carry.bitsVal_congr hb

end BitAlgebra

/-- The comparison tree, the subtractor of every adder and the order of the values agree, and so do
the two forms of `build_eq`.  Signed operands of the subtractor leave room for their difference, as
the guard bit of the callers ensures. -/
theorem comparators_agree {Bit : Type u} {Env : Type v} (A : BitAlgebra Bit Env)
    (ρ : Env) (kind : AdderKind)
    (blockSize : ℕ) (a b : List Bit) (hlen : b.length = a.length) (hw : 1 ≤ a.length) :
    (A.eval ρ (A.buildLt .parallelPrefix blockSize a b true) =
      A.eval ρ (A.buildLt kind blockSize a b true) ∧
      A.eval ρ (A.buildLt kind blockSize a b true) = decide (A.value ρ a < A.value ρ b)) ∧
    A.eval ρ (A.buildLt .parallelPrefix blockSize a b false) =
    decide (A.intValue ρ true a < A.intValue ρ true b) ∧
    (-2 ^ (a.length - 1) ≤ A.intValue ρ true a - A.intValue ρ true b →
      A.intValue ρ true a - A.intValue ρ true b < 2 ^ (a.length - 1) →
      A.eval ρ (A.buildLt .parallelPrefix blockSize a b false) = A.eval ρ
      (A.buildLt kind blockSize a b false) ∧
      A.eval ρ (A.buildLt kind blockSize a b false) =
        decide (A.intValue ρ true a < A.intValue ρ true b)) ∧
    (∀ (x y : List Bit) (xSigned ySigned : Bool), x.length + (!xSigned).toNat < a.length →
      y.length + (!ySigned).toNat < a.length → a = A.extend x xSigned a.length →
      b = A.extend y ySigned a.length →
      A.eval ρ (A.buildLt kind blockSize a b false) =
        decide (A.intValue ρ xSigned x < A.intValue ρ ySigned y)) ∧
    ∀ (n : ℕ) (operands : List (List Bit)), (∀ v ∈ operands, v.length = n) →
      A.eval ρ (A.buildEq operands true) = A.eval ρ (A.buildEq operands false) ∧
      A.eval ρ (A.buildEq operands true) =
      decide (∀ u ∈ operands, ∀ v ∈ operands, A.value ρ u = A.value ρ v) := by
  obtain ⟨n, hn⟩ := Nat.exists_eq_add_of_le' hw
  have hpre := BitAlgebra.buildLt_signed (A := A) (ρ := ρ) .parallelPrefix blockSize hn
    hlen fun h => absurd rfl h
  have hkind := buildLt_signed (A := A) (ρ := ρ) kind blockSize hn hlen
  rw [hn]
  refine ⟨⟨?_, buildLt_unsigned kind blockSize hlen⟩, hpre, ?_, ?_, ?_⟩
  · rw [buildLt_unsigned _ _ hlen, buildLt_unsigned _ _ hlen]
  · intro hlo hhi
    have := hkind fun _ => ⟨hlo, hhi⟩
    exact ⟨hpre.trans this.symm, this⟩
  · intro x y xSigned ySigned hx hy ha hb
    have hxv := intValue_extend (A := A) (ρ := ρ) (Nat.lt_succ_iff.1 hx)
    have hyv := intValue_extend (A := A) (ρ := ρ) (Nat.lt_succ_iff.1 hy)
    have hxr := guarded_range (A := A) (ρ := ρ) (Nat.lt_succ_iff.1 hx)
    have hyr := guarded_range (A := A) (ρ := ρ) (Nat.lt_succ_iff.1 hy)
    rw [← ha] at hxv
    rw [← hb] at hyv
    rw [hkind fun _ => by omega, hxv, hyv]
  · intro n operands hlength
    cases operands with
    | nil => simp [buildEq]
    | cons first rest =>
      refine ⟨(buildEq_eval true first rest).trans (buildEq_eval false first rest).symm, ?_⟩
      rw [buildEq_eval]
      have hfirst : ∀ v ∈ first :: rest,
          (A.value ρ v = A.value ρ first ↔ ∀ i < first.length, A.bit ρ v i = A.bit ρ first i) :=
        fun v hv => value_eq_iff ((hlength v hv).trans (hlength first (.head _)).symm)
      refine decide_eq_decide.2 ⟨fun h u hu v hv => ?_, fun h v hv => ?_⟩
      · have hall : ∀ v ∈ first :: rest, A.value ρ v = A.value ρ first :=
          forall_mem_cons.2 ⟨rfl, fun v hv => (hfirst v (.tail _ hv)).2 (h v hv)⟩
        rw [hall u hu, hall v hv]
      · exact (hfirst v (.tail _ hv)).1 (h v (.tail _ hv) first (.head _))

/-- Minus two against an unsigned three. -/
theorem comparators_agree_mixed :
    boolAlgebra.eval ()
    (boolAlgebra.buildLt .brent 1 [false, true, true, true] [true, true, false, false] false) =
      decide ((-2 : ℤ) < 3) :=
  (comparators_agree boolAlgebra () .brent 1 [false, true, true, true]
    [true, true, false, false] rfl
    (by decide)).2.2.2.1 [false, true] [true, true] true false (by decide) (by decide) rfl rfl

end LiveHD.Synth
