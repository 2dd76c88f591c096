import LiveHD.Lec.TermEval
import LiveHD.Lib.Lists

/-!
# Operators of the term simulator compute their SMT-LIB values

One lemma for each operation on words, then the operators: operands that hold the values of
the arguments give words that hold the value of the result.
-/

namespace LiveHD.Lec

open BitVec hiding and_self cast getElem_replicate mul_succ ofNat replicate replicate_succ' toNat
open Words List Bool Value

variable {w : ℕ} {a b d : List Word} {x y z : BitVec w}

/-- Words that hold a bit vector; the bits above the width are zero. -/
structure Holds (ws : List Word) {w : ℕ} (x : BitVec w) : Prop where
  length : ws.length = nwords w
  value : value ws = x.toNat

namespace Holds

lemma lt (h : Holds a x) : Words.value a < 2 ^ w := h.value.trans_lt x.isLt

lemma bit (h : Holds a x) (i : ℕ) : bit a i = x.getLsbD i := by
  rw [← testBit_value, h.value]
  rfl

lemma of_bit (hlen : d.length = nwords w)
    (h : ∀ i, Words.bit d i = x.getLsbD i) : Holds d x := ⟨hlen, value_eq_of_bit h⟩

/-- A vector is held in one way. -/
lemma unique (ha : Holds a x) (hb : Holds b x) : a = b :=
  value_inj (ha.length.trans hb.length.symm) (ha.value.trans hb.value.symm)

lemma lengths_eq (ha : Holds a x)
    (hb : Holds b y) : a.length = b.length := ha.length.trans hb.length.symm

lemma eq_ofNat (h : Holds a x) : BitVec.ofNat w (Words.value a) = x := by
  rw [h.value, BitVec.ofNat_toNat, setWidth_eq]

lemma inj (ha : Holds a x) (hb : Holds b y) : Words.value a = Words.value b ↔ x = y := by
  rw [ha.value, hb.value]
  exact toNat_inj

lemma clearTop (hw : 0 < w) (hlen : d.length = nwords w) (h : BitVec.ofNat w (Words.value d) = x) :
    Holds (clearTop d w) x where
  length := (length_clearTop d w).trans hlen
  value := by rw [value_clearTop hw hlen, ← h, toNat_ofNat]

lemma clearTop_of_bit (hw : 0 < w) (hlen : d.length = nwords w)
    (h : ∀ i < w, Words.bit d i = x.getLsbD i) : Holds (Lec.clearTop d w) x := by
  refine .clearTop hw hlen (eq_of_getLsbD_eq fun i hi => ?_)
  rw [getLsbD_ofNat, decide_eq_true hi, Bool.true_and, testBit_value, h i hi]

lemma msb (h : Holds a x) : getBit a (w - 1) = x.msb := by
  rw [getBit_eq, h.bit, BitVec.msb_eq_getLsbD_last]

end Holds

lemma nwords_one : nwords 1 = 1 := rfl

lemma holds_flag (p : Bool) : Holds [flag p] (BitVec.ofBool p) := by
  cases p <;> exact ⟨rfl, rfl⟩

/-- The words that hold a vector. -/
def wordsFor (x : BitVec w) : List Word := (List.range (nwords w)).map fun i =>
    x.extractLsb' (64 * i) 64

lemma holds_wordsFor (hw : 0 < w) (x : BitVec w) : Holds (wordsFor x) x := by
  have hlen : (wordsFor x).length = nwords w := by rw [wordsFor, length_map, length_range]
  refine .of_bit hlen fun i => ?_
  by_cases hi : i < 64 * nwords w
  · rw [wordsFor, bit_map_range _ hi, getLsbD_extractLsb',
      decide_eq_true (Nat.mod_lt _ (by decide)), Bool.true_and, Nat.div_add_mod]
  · rw [bit_of_le (by rw [hlen]; exact not_lt.1 hi),
      BitVec.getLsbD_of_ge _ _ ((nwords_bounds hw).2.trans (not_lt.1 hi))]

/-! ## Bitwise operations -/

lemma bit_map (f : Word → Word) (g : Bool → Bool)
    (hf : ∀ x : Word, ∀ i < 64, (f x).getLsbD i = g (x.getLsbD i)) {i : ℕ}
    (hi : i < 64 * a.length) : bit (a.map f) i = g (bit a i) := by
  have hlt := Nat.div_lt_of_lt_mul hi
  rw [bit, bit, getD_eq_getElem _ _ (by rwa [length_map]), getD_eq_getElem _ _ hlt, getElem_map]
  exact hf _ _ (Nat.mod_lt _ (by decide))

lemma bit_zipWith (f : Word → Word → Word) (g : Bool → Bool → Bool)
    (hf : ∀ x y : Word, ∀ i < 64, (f x y).getLsbD i = g (x.getLsbD i) (y.getLsbD i))
    (hlen : a.length = b.length) {i : ℕ}
    (hi : i < 64 * a.length) : bit (a.zipWith f b) i = g (bit a i) (bit b i) := by
  have hlt := Nat.div_lt_of_lt_mul hi
  rw [bit, bit, bit, getD_eq_getElem _ _ (by rwa [length_zipWith, ← hlen, min_self]),
    getD_eq_getElem _ _ hlt,
    getD_eq_getElem _ _ (hlen ▸ hlt), getElem_zipWith]
  exact hf _ _ _ (Nat.mod_lt _ (by decide))

lemma Holds.map (hw : 0 < w) (f : Word → Word) (g : Bool → Bool)
    (hf : ∀ x : Word, ∀ i < 64, (f x).getLsbD i = g (x.getLsbD i))
    (hz : ∀ i < w, z.getLsbD i = g (x.getLsbD i)) (h : Holds a x) :
    Holds (Lec.clearTop (a.map f) w) z := by
  refine .clearTop_of_bit hw (by rw [length_map, h.length]) fun i hi => ?_
  have hbo := nwords_bounds hw
  rw [bit_map f g hf (by rw [h.length]; omega), h.bit, hz i hi]

section

variable (hw : 0 < w) (f : Word → Word → Word) (g : Bool → Bool → Bool)
include hw

lemma Holds.zipWith (hf : ∀ x y : Word, ∀ i < 64, (f x y).getLsbD i = g (x.getLsbD i) (y.getLsbD i))
    (hz : ∀ i < w, z.getLsbD i = g (x.getLsbD i) (y.getLsbD i)) (ha : Holds a x) (hb : Holds b y) :
    Holds (Lec.clearTop (a.zipWith f b) w) z := by
  refine .clearTop_of_bit hw (by rw [length_zipWith, ← ha.lengths_eq hb, min_self, ha.length])
    fun i hi => ?_
  have hbo := nwords_bounds hw
  rw [bit_zipWith f g hf (ha.lengths_eq hb) (by rw [ha.length]; omega), ha.bit, hb.bit, hz i hi]

/-- An operation that keeps zeros needs no mask. -/
lemma Holds.zipWith_pure (hg : g false false = false)
    (hf : ∀ x y : Word, ∀ i < 64, (f x y).getLsbD i = g (x.getLsbD i) (y.getLsbD i))
    (hz : ∀ i < w, z.getLsbD i = g (x.getLsbD i) (y.getLsbD i)) (ha : Holds a x) (hb : Holds b y) :
    Holds (a.zipWith f b) z := by
  have hlen : (a.zipWith f b).length = a.length := by
    rw [length_zipWith, ← ha.lengths_eq hb, min_self]
  refine .of_bit (hlen.trans ha.length) fun i => ?_
  by_cases hi : i < 64 * a.length
  · rw [bit_zipWith f g hf (ha.lengths_eq hb) hi, ha.bit, hb.bit]
    by_cases hlt : i < w
    · exact (hz i hlt).symm
    · rw [getLsbD_of_ge _ _ (not_lt.1 hlt), getLsbD_of_ge _ _ (not_lt.1 hlt),
        getLsbD_of_ge _ _ (not_lt.1 hlt), hg]
  · have hbo := nwords_bounds hw
    rw [bit_of_le (by rw [hlen]; omega), BitVec.getLsbD_of_ge _ _ (by rw [ha.length] at hi; omega)]

end

/-! ## Arithmetic -/

lemma ofNat_mod_words (hw : 0 < w) (n : ℕ) :
    BitVec.ofNat w (n % 2 ^ (64 * nwords w)) = BitVec.ofNat w n := by
  refine BitVec.eq_of_toNat_eq ?_
  rw [toNat_ofNat, toNat_ofNat, Nat.mod_mod_of_dvd _ (pow_dvd_words hw)]

/-- Words that hold a vector up to bits above its width. -/
structure HoldsLow (ws : List Word) {w : ℕ} (x : BitVec w) : Prop where
  length : ws.length = nwords w
  value : BitVec.ofNat w (value ws) = x

namespace HoldsLow

lemma of_holds (h : Holds a x) : HoldsLow a x := ⟨h.length, h.eq_ofNat⟩

lemma clearTop (hw : 0 < w) (h : HoldsLow a x) : Holds (clearTop a w) x :=
  .clearTop hw h.length h.value

section

variable (hw : 0 < w) (ha : HoldsLow a x)
include hw ha

lemma add (hb : HoldsLow b y) : HoldsLow (add a b) (x + y) := by
  have hlen := ha.length.trans hb.length.symm
  refine ⟨(length_add hlen).trans ha.length, ?_⟩
  rw [value_add hlen, ha.length, ofNat_mod_words hw, BitVec.ofNat_add, ha.value, hb.value]

lemma sub (hb : HoldsLow b y) : HoldsLow (sub a b) (x - y) := by
  have hlen := ha.length.trans hb.length.symm
  refine ⟨(length_sub hlen).trans ha.length, ?_⟩
  obtain ⟨k, -, hk⟩ := value_subFrom false a b hlen
  have hsum : BitVec.ofNat w (Words.value (Lec.sub a b)) + y = x := by
    rw [← hb.value, ← ofNat_add, Lec.sub, ← ha.value, ← ofNat_mod_words hw (Words.value a), ←
      Nat.add_mul_mod_self_left (Words.value a) _ k,
      ← ha.length, ← hk, ha.length, ofNat_mod_words hw]
    rfl
  rw [← hsum, BitVec.add_sub_cancel]

lemma neg : HoldsLow (neg a) (-x) := by
  refine ⟨(length_neg a).trans ha.length, ?_⟩
  obtain ⟨k, -, hk⟩ := value_negFrom true a
  have hsum : BitVec.ofNat w (Words.value (Lec.neg a)) + x = 0#w := by
    have hmul : Words.value (negFrom true a) + Words.value a = 2 ^ (64 * nwords w) * k := by
      rw [ha.length, toNat_true] at hk
      omega
    rw [← ha.value, ← ofNat_add, Lec.neg, hmul, ← ofNat_mod_words hw, Nat.mul_mod_right]
  rw [← BitVec.add_sub_cancel (BitVec.ofNat w (Words.value (Lec.neg a))) x, hsum, BitVec.zero_sub]

lemma mul (hb : HoldsLow b y) : HoldsLow (mul a b) (x * y) := by
  have hlen := ha.length.trans hb.length.symm
  refine ⟨(length_mul hlen).trans ha.length, ?_⟩
  rw [value_mul hlen, ha.length, ofNat_mod_words hw, BitVec.ofNat_mul, ha.value, hb.value]

end

end HoldsLow

lemma toNat_eq_zero : x.toNat = 0 ↔ x = 0#w := by
  rw [← BitVec.toNat_inj, toNat_ofNat, Nat.zero_mod]

section

variable (hw : 0 < w) (ha : Holds a x)
include hw ha

lemma Holds.negTop : Holds (negTop a w) (-x) := ((HoldsLow.of_holds ha).neg hw).clearTop hw

lemma Holds.magnitude : Holds (magnitude a w) (if x.msb then -x else x) := by
  rw [Lec.magnitude, ha.msb]
  split
  · exact ha.negTop hw
  · exact ha

lemma holds_udiv (hb : Holds b y) : Holds (udivrem a b w).1 (x.smtUDiv y) := by
  obtain ⟨hquo, -, hlen, -⟩ := value_udivrem hw ha.length hb.length ha.lt
  refine ⟨hlen, ?_⟩
  rw [hquo, ha.value, hb.value, smtUDiv_eq]
  by_cases hy : y = 0#w
  · rw [if_pos hy, if_pos (toNat_eq_zero.2 hy), toNat_allOnes]
  · rw [if_neg hy, if_neg (mt toNat_eq_zero.1 hy), BitVec.toNat_udiv]

lemma holds_urem (hb : Holds b y) : Holds (udivrem a b w).2 (x % y) := by
  obtain ⟨-, hrem, -, hlen⟩ := value_udivrem hw ha.length hb.length ha.lt
  refine ⟨hlen, ?_⟩
  rw [hrem, ha.value, hb.value, BitVec.toNat_umod]

lemma holds_sdiv (hb : Holds b y) : Holds (sdiv a b w) (x.smtSDiv y) := by
  have hdiv := holds_udiv hw (ha.magnitude hw) (hb.magnitude hw)
  rw [sdiv, ha.msb, hb.msb, BitVec.smtSDiv_eq]
  generalize x.msb = p at hdiv ⊢
  generalize y.msb = q at hdiv ⊢
  cases p <;> cases q
  · exact hdiv
  · exact hdiv.negTop hw
  · exact hdiv.negTop hw
  · exact hdiv

lemma holds_srem (hb : Holds b y) : Holds (srem a b w) (x.srem y) := by
  have hrem := holds_urem hw (ha.magnitude hw) (hb.magnitude hw)
  rw [srem, ha.msb, BitVec.srem_eq]
  generalize x.msb = p at hrem ⊢
  generalize y.msb = q at hrem ⊢
  cases p <;> cases q
  · exact hrem
  · exact hrem
  · exact hrem.negTop hw
  · exact hrem.negTop hw

end

lemma Holds.isZero (ha : Holds a x) : isZero a = decide (x = 0#w) := by
  rw [Bool.eq_iff_iff, isZero_iff, ha.value, decide_eq_true_iff]
  exact toNat_eq_zero

open HoldsLow

lemma holds_smod (hw : 0 < w) (ha : Holds a x) (hb : Holds b y) :
    Holds (smod a b w) (x.smod y) := by
  have hrem := holds_urem hw (ha.magnitude hw) (hb.magnitude hw)
  rw [smod, ha.msb, hb.msb, smod_eq]
  generalize (udivrem (magnitude a w) (magnitude b w) w).2 = r at hrem ⊢
  generalize x.msb = p at hrem ⊢
  generalize y.msb = q at hrem ⊢
  have h0 := hrem.isZero
  have hlow := of_holds hrem
  cases p <;> cases q
  · rw [Bool.not_false, Bool.and_self, Bool.or_true]
    exact hlow.clearTop hw
  · change isZero r = decide (x % -y = 0#w) at h0
    change Holds (clearTop (if isZero r || false then r else add r b) w)
      (if x % -y = 0#w then x % -y else x % -y + y)
    rw [Bool.or_false, h0]
    by_cases hu : x % -y = 0#w
    · rw [if_pos hu, if_pos (decide_eq_true hu)]
      exact hlow.clearTop hw
    · rw [if_neg hu, if_neg (hu ∘ of_decide_eq_true)]
      exact (hlow.add hw (of_holds hb)).clearTop hw
  · change isZero r = decide (-x % y = 0#w) at h0
    change Holds (clearTop (if isZero r || false then r else sub b r) w)
      (if -x % y = 0#w then -x % y else y - -x % y)
    rw [Bool.or_false, h0]
    by_cases hu : -x % y = 0#w
    · rw [if_pos hu, if_pos (decide_eq_true hu)]
      exact hlow.clearTop hw
    · rw [if_neg hu, if_neg (hu ∘ of_decide_eq_true)]
      exact ((of_holds hb).sub hw hlow).clearTop hw
  · change isZero r = decide (-x % -y = 0#w) at h0
    change Holds (clearTop (if isZero r || false then r else neg r) w) (-(-x % -y))
    rw [Bool.or_false, h0]
    by_cases hu : -x % -y = 0#w
    · rw [if_pos (decide_eq_true hu), hu, BitVec.neg_zero, ← hu]
      exact hlow.clearTop hw
    · rw [if_neg (hu ∘ of_decide_eq_true)]
      exact (hlow.neg hw).clearTop hw

/-! ## Comparisons -/

section

variable (ha : Holds a x) (hb : Holds b y)
include ha hb

lemma Holds.equal : equal a b = (x == y) := by
  rw [Bool.eq_iff_iff, equal_iff (ha.lengths_eq hb), ha.inj hb, beq_iff_eq]

lemma Holds.ult : ult a b = x.ult y := by
  rw [Bool.eq_iff_iff, ult_iff (ha.lengths_eq hb), ha.value, hb.value,
    BitVec.ult_iff_lt, BitVec.lt_def]

lemma Holds.slt : slt a b w = x.slt y := by
  rw [Lec.slt, ha.msb, hb.msb, ha.ult hb, slt_eq_ult]
  cases hx : x.msb <;> cases hy : y.msb
  · exact (false_xor _).symm
  · have hlt : x.ult y = true := by
      rw [ult_eq_decide, decide_eq_true_iff]
      rw [msb_eq_decide, decide_eq_false_iff_not] at hx
      rw [msb_eq_decide, decide_eq_true_iff] at hy
      omega
    rw [hlt]
    rfl
  · have hlt : x.ult y = false := by
      rw [ult_eq_decide, decide_eq_false_iff_not]
      rw [msb_eq_decide, decide_eq_true_iff] at hx
      rw [BitVec.msb_eq_decide, decide_eq_false_iff_not] at hy
      omega
    rw [hlt]
    rfl
  · exact (false_xor _).symm

end

/-! ## Shifts -/

lemma Holds.shiftAmount (hw : WidthOk w) (hb : Holds b y) : shiftAmount b w = min y.toNat w := by
  rw [shiftAmount_eq (by rw [hb.length]; exact nwords_pos w)
    ((Nat.le_add_right w 63).trans_lt (hw.2.trans (by decide))), hb.value]

section Shifts

variable (hw : WidthOk w) (ha : Holds a x) (hb : Holds b y)
include hw ha hb

lemma holds_shl : Holds (shl a (Lec.shiftAmount b w) w) (x <<< y) := by
  refine ⟨length_shl _ _ _, ?_⟩
  rw [value_shl hw.1, hb.shiftAmount hw, ha.value, BitVec.shiftLeft_eq',
    BitVec.toNat_shiftLeft, Nat.shiftLeft_eq]
  rcases le_total y.toNat w with hle | hle
  · rw [min_eq_left hle]
  · obtain ⟨k, hk⟩ := Nat.exists_eq_add_of_le hle
    rw [min_eq_right hle, Nat.mul_mod_left, hk, pow_add, ← mul_assoc,
      mul_right_comm, Nat.mul_mod_left]

lemma holds_lshr : Holds (lshr a (Lec.shiftAmount b w) w) (x >>> y) := by
  refine ⟨length_lshr _ _ _, ?_⟩
  rw [value_lshr ha.length ha.lt, hb.shiftAmount hw, ha.value, ushiftRight_eq', toNat_ushiftRight,
    Nat.shiftRight_eq_div_pow]
  rcases le_total y.toNat w with hle | hle
  · rw [min_eq_left hle]
  · rw [min_eq_right hle, Nat.div_eq_of_lt x.isLt,
      Nat.div_eq_of_lt (x.isLt.trans_le (Nat.pow_le_pow_right (by decide) hle))]

lemma holds_ashr : Holds (ashr a (Lec.shiftAmount b w) w) (x.sshiftRight' y) := by
  refine .of_bit (length_ashr _ _ _) fun i => ?_
  rw [bit_ashr hw.1 ha.length ha.lt, hb.shiftAmount hw, ha.bit, ← msb_eq_getLsbD_last,
    getLsbD_sshiftRight', ha.value,
    Nat.testBit_div_two_pow]
  by_cases hi : i < w
  · rw [decide_eq_false (not_le.2 hi), Bool.not_false, Bool.true_and]
    by_cases hlt : y.toNat + i < w
    · rw [if_pos hlt, Nat.min_eq_left (by omega), decide_eq_false (by omega), Bool.and_false,
        Bool.or_false, Nat.add_comm]
      rfl
    · rw [if_neg hlt, decide_eq_true (by omega), Bool.and_true,
        Nat.testBit_lt_two_pow (x.isLt.trans_le (Nat.pow_le_pow_right (by decide) (by omega))),
          Bool.false_or]
  · rw [decide_eq_true (not_lt.1 hi), decide_eq_false (by omega), Bool.and_false, Bool.or_false,
      Nat.testBit_lt_two_pow (x.isLt.trans_le (Nat.pow_le_pow_right (by decide) (by omega)))]
    rfl

end Shifts

/-! ## Parts and copies -/

lemma holds_extract (ha : Holds a x) (p0 p1 : ℕ) :
    Holds (orBits (zero (nwords (p0 - p1 + 1))) 0 a p1 (p0 - p1 + 1)) (x.extractLsb p0 p1) := by
  refine ⟨by rw [length_orBits, zero, length_replicate], ?_⟩
  rw [value_orBits_zero _ _ _ (nwords_bounds (Nat.succ_pos _)).2, ha.value, BitVec.extractLsb_toNat,
    Nat.shiftRight_eq_div_pow]

section

variable (hw : 0 < w) (ha : Holds a x)
include hw ha

/-- The bits of words that were cleared beyond another list. -/
lemma holds_extendWords {v : ℕ} (hle : w ≤ v) :
    Holds (extendWords ⟨w, a⟩ (nwords v)) (x.setWidth v) := by
  have hnw : nwords w ≤ nwords v := by
    rw [nwords, nwords, if_neg hw.ne', if_neg (by omega)]
    omega
  have hta : a.take (Kid.nw ⟨w, a⟩) = a := take_of_length_le ha.length.le
  refine ⟨?_, ?_⟩
  · rw [extendWords, hta, length_append, ha.length, zero, length_replicate]
    exact Nat.add_sub_cancel' hnw
  · rw [extendWords, hta, value_append, zero, value_replicate_zero, Nat.mul_zero, add_zero,
      ha.value, BitVec.toNat_setWidth_of_le hle]

lemma holds_signExtend {v : ℕ} (hle : w ≤ v) : Holds (signExtend ⟨w, a⟩ v) (x.signExtend v) := by
  have hext := holds_extendWords hw ha hle
  have hbo := nwords_bounds (hw.trans_le hle)
  rw [signExtend]
  dsimp only
  rw [ha.msb]
  cases hmsb : x.msb with
  | false => rwa [signExtend_eq_setWidth_of_msb_false hmsb]
  | true =>
    rw [if_pos rfl]
    refine .of_bit ((length_setBits _ _ _).trans hext.length) fun i => ?_
    rw [bit_setBits (by rw [hext.length]; exact hbo.2), hext.bit, getLsbD_setWidth,
      getLsbD_signExtend, hmsb]
    by_cases hi : i < v
    · rw [decide_eq_true hi, Bool.true_and, Bool.true_and]
      by_cases hlt : i < w
      · rw [if_pos hlt, decide_eq_false (by omega), Bool.or_false]
      · rw [if_neg hlt, decide_eq_true ⟨not_lt.1 hlt, hi⟩, Bool.or_true]
    · rw [decide_eq_false hi, decide_eq_false (by omega)]
      rfl

lemma holds_rotate {r : ℕ} (hr : r < w) : Holds (rotate a r w) (x.rotateLeft r) := by
  have hbo := nwords_bounds hw
  have hlen : (orBits (zero (nwords w)) r a 0 (w - r)).length = nwords w := by
    rw [length_orBits, zero, length_replicate]
  refine .of_bit (by rw [rotate, length_orBits, hlen]) fun i => ?_
  rw [rotate, bit_orBits _ _ _ _ _ (by rw [hlen]; omega),
    bit_orBits _ _ _ _ _ (by rw [zero, length_replicate]; omega), zero,
    bit_replicate_zero, Bool.false_or, ha.bit, ha.bit, getLsbD_rotateLeft, Nat.mod_eq_of_lt hr]
  by_cases hi : i < r
  · rw [decide_eq_true hi, decide_eq_false (by omega), decide_eq_true (by omega), Bool.false_and,
      Bool.false_or, Bool.true_and, Nat.sub_zero,
      add_comm i]
    rfl
  · rw [decide_eq_false hi, decide_eq_false (by omega : ¬(0 ≤ i ∧ i < 0 + r)),
      Bool.false_and, Bool.or_false]
    congr 1
    rw [decide_eq_decide]
    omega

lemma holds_rotateRight (r : ℕ) : Holds (rotate a ((w - r % w) % w) w) (x.rotateRight r) := by
  have hrot : x.rotateRight r = x.rotateLeft ((w - r % w) % w) := by
    refine eq_of_getLsbD_eq fun i hi => ?_
    rw [getLsbD_rotateLeft, getLsbD_rotateRight, Nat.mod_mod]
    rcases eq_zero_or_pos (r % w) with h0 | hpos
    · rw [h0, Nat.sub_zero, Nat.mod_self, decide_eq_true hi, Nat.zero_add]
      rfl
    · rw [Nat.mod_eq_of_lt (show w - r % w < w by omega)]
      by_cases hlt : i < w - r % w
      · rw [show w - (w - r % w) = r % w by omega]
      · rw [decide_eq_false hlt]
        rfl
  rw [hrot]
  exact holds_rotate hw ha (Nat.mod_lt _ hw)

end

lemma bit_repeatBits (ha : Holds a x) (hw : 0 < w) {nw : ℕ} (k : ℕ) (hle : w * k ≤ 64 * nw) :
    (repeatBits nw ⟨w, a⟩ k).length = nw ∧
    ∀ i, bit (repeatBits nw ⟨w, a⟩ k) i = (decide (i < w * k) && x.getLsbD (i % w)) := by
  induction k with
  | zero =>
    refine ⟨length_replicate, fun i => ?_⟩
    rw [repeatBits, zero, bit_replicate_zero, Nat.mul_zero,
      decide_eq_false (Nat.not_lt_zero i), Bool.false_and]
  | succ k ih =>
    rw [Nat.mul_succ] at hle ⊢
    obtain ⟨hlen, hbit⟩ := ih (by omega)
    refine ⟨by rw [repeatBits, length_orBits, hlen], fun i => ?_⟩
    have hco := mul_comm k w
    rw [repeatBits]
    dsimp only
    rw [bit_orBits _ _ _ _ _ (by rw [hlen]; omega), hbit, ha.bit, add_zero, hco]
    by_cases hi : i < w * k
    · rw [decide_eq_true hi, decide_eq_true (show i < w * k + w by omega),
        decide_eq_false (show ¬(w * k ≤ i ∧ i < w * k + w) by omega),
        Bool.false_and, Bool.or_false]
    · rw [decide_eq_false hi, Bool.false_and, Bool.false_or]
      by_cases hlt : i < w * k + w
      · rw [decide_eq_true hlt, decide_eq_true (by omega)]
        have hmod : i % w = i - w * k := by
          rw [← Nat.sub_mul_mod (show w * k ≤ i by omega), Nat.mod_eq_of_lt (by omega)]
        rw [hmod]
      · rw [decide_eq_false hlt, decide_eq_false (by omega), Bool.false_and, Bool.false_and]

lemma holds_repeatBits (ha : Holds a x) (hw : 0 < w) {n : ℕ} (hn : 0 < w * n) :
    Holds (repeatBits (nwords (w * n)) ⟨w, a⟩ n) (x.replicate n) := by
  obtain ⟨hlen, hbit⟩ := bit_repeatBits ha hw n (nwords_bounds hn).2
  refine .of_bit hlen fun i => ?_
  rw [hbit, BitVec.getLsbD_replicate]

lemma Holds.redand (hw : 0 < w) (ha : Holds a x) : redand ⟨w, a⟩ = (x == BitVec.allOnes w) := by
  have hbo := nwords_bounds hw
  have hpos := nwords_pos w
  have hon : Holds (Lec.clearTop (replicate (nwords w) (BitVec.allOnes 64)) w)
      (BitVec.allOnes w) := by
    refine Holds.clearTop_of_bit hw length_replicate fun i hi => ?_
    rw [Words.bit, getD_eq_getElem _ _ (by rw [length_replicate]; omega),
      getElem_replicate, BitVec.getLsbD_allOnes,
      getLsbD_allOnes, decide_eq_true hi, decide_eq_true (Nat.mod_lt _ (by decide))]
  have hsp : Lec.clearTop (replicate (nwords w) (allOnes 64)) w =
      replicate (nwords w - 1) (allOnes 64) ++ [topMask w] := by
    have hrep : replicate (nwords w) (allOnes 64) =
        replicate (nwords w - 1) (allOnes 64) ++ [allOnes 64] := by
      rw [← replicate_succ', Nat.sub_add_cancel hpos]
    have hmod := modify_append_length (replicate (nwords w - 1) (allOnes 64))
      (allOnes 64) [] (· &&& topMask w)
    rw [length_replicate] at hmod
    rw [Lec.clearTop, hrep, hmod, allOnes_and]
  have hla : a = a.take (nwords w - 1) ++ [a.getD (nwords w - 1) 0] := by
    have hlt : nwords w - 1 < a.length := by rw [ha.length]; omega
    rw [getD_eq_getElem _ _ hlt, take_append_getElem, take_of_length_le (by rw [ha.length]; omega)]
  rw [Bool.eq_iff_iff, beq_iff_eq, ← ha.inj hon, ← equal_iff (ha.lengths_eq hon), Lec.equal,
    beq_iff_eq, hsp, Lec.redand, Bool.and_eq_true,
    all_eq_true, beq_iff_eq]
  constructor
  · rintro ⟨hall, htop⟩
    rw [hla]
    congr 1
    · refine eq_replicate_iff.2 ⟨by rw [length_take, ha.length]; omega, fun v hv => ?_⟩
      exact beq_iff_eq.1 (hall v hv)
    · exact congrArg (fun v => [v]) htop
  · intro heq
    refine ⟨fun v hv => ?_, ?_⟩
    · rw [heq] at hv
      change v ∈ take (nwords w - 1) _ at hv
      rw [take_left' length_replicate] at hv
      rw [beq_iff_eq]
      exact eq_of_mem_replicate hv
    · change a.getD (nwords w - 1) 0 = topMask w
      rw [heq, getD_append_right _ _ _ _ (by rw [length_replicate]), length_replicate, Nat.sub_self]
      rfl

/-! ## Operands -/

/-- An operand that holds a value. -/
def Kid.Rep (k : Kid) : Value → Prop
  | .bool p => k = ⟨1, [flag p]⟩
  | .bv w x => k.width = w ∧ Holds k.words x
  | .array _ _ _ => True

/-- An operand that holds a vector of a width. -/
def Kid.IsBv (w : ℕ) (k : Kid) (v : Value) : Prop := ∃ x : BitVec w, v = .bv w x ∧
    k.width = w ∧ Holds k.words x

def Kid.IsBool (k : Kid) (v : Value) : Prop := ∃ p, v = .bool p ∧ k = ⟨1, [flag p]⟩

lemma truth_flag (p : Bool) : Kid.truth ⟨1, [flag p]⟩ = p := by
  cases p <;> rfl

section Operands

variable {k : Kid} {v : Value} {ks : List Kid} {vs : List Value}

lemma Kid.IsBool.truth (h : k.IsBool v) : k.truth = v.truth := by
  obtain ⟨p, rfl, rfl⟩ := h
  exact truth_flag p

lemma Kid.IsBv.holds (h : k.IsBv w v) : Holds k.words (v.bits w) := by
  obtain ⟨x, rfl, -, hx⟩ := h
  rwa [Value.bits_bv]

lemma Kid.Rep.isBv (h : k.Rep v) (hv : v.sort = .bv w) : k.IsBv w v := by
  cases v with
  | bv u x =>
    obtain rfl : u = w := Srt.bv.inj hv
    exact ⟨x, rfl, h.1, h.2⟩
  | bool _ => cases hv
  | array _ _ _ => cases hv

lemma Kid.Rep.isBool (h : k.Rep v) (hv : v.sort = .bool) : k.IsBool v := by
  cases v with
  | bool p => exact ⟨p, rfl, h⟩
  | bv _ _ => cases hv
  | array _ _ _ => cases hv

section

variable (h : Forall₂ Kid.Rep ks vs)
include h

lemma isBv_of_rep (hvs : ∀ s ∈ vs.map Value.sort, s = .bv w) : Forall₂ (Kid.IsBv w) ks vs := by
  induction h with
  | nil => exact .nil
  | cons hkv _ ih =>
    rw [map_cons, forall_mem_cons] at hvs
    exact .cons (hkv.isBv hvs.1) (ih hvs.2)

lemma isBool_of_rep (hvs : ∀ s ∈ vs.map Value.sort, s = .bool) : Forall₂ Kid.IsBool ks vs := by
  induction h with
  | nil => exact .nil
  | cons hkv _ ih =>
    rw [map_cons, forall_mem_cons] at hvs
    exact .cons (hkv.isBool hvs.1) (ih hvs.2)

/-- The operands of an operator with a single vector. -/
lemma rep_unary (hvs : vs.map sort = [.bv w]) :
    ∃ (a : List Word) (x : BitVec w), ks = [⟨w, a⟩] ∧ vs = [.bv w x] ∧
    Holds a ((Value.bv w x).bits w) := by
  have hbv := isBv_of_rep h (by rw [hvs]; exact fun s hs => mem_singleton.1 hs)
  obtain ⟨v, rfl, -⟩ := map_eq_singleton_iff.1 hvs
  obtain ⟨k, l, ⟨x, rfl, hkw, hk⟩, hl, rfl⟩ := forall₂_cons_right_iff.1 hbv
  obtain rfl := forall₂_nil_right_iff.1 hl
  exact ⟨k.words, x, by rw [← hkw], rfl, by rwa [bits_bv]⟩

/-- The operands of an operator with two vectors. -/
lemma rep_binary (hvs : vs.map sort = [.bv w, .bv w]) :
    ∃ (a b : List Word) (x y : BitVec w), ks = [⟨w, a⟩, ⟨w, b⟩] ∧ vs = [.bv w x, .bv w y] ∧
    Holds a ((Value.bv w x).bits w) ∧
      Holds b ((Value.bv w y).bits w) := by
  obtain ⟨v, vs', rfl, hv, ht⟩ := map_eq_cons_iff.1 hvs
  obtain ⟨k, l, hk, hl, rfl⟩ := forall₂_cons_right_iff.1 h
  obtain ⟨x, rfl, hkw, hk⟩ := Kid.Rep.isBv hk hv
  obtain ⟨b, y, rfl, rfl, hb⟩ := rep_unary hl ht
  exact ⟨k.words, b, x, y, by rw [← hkw], rfl, by rwa [bits_bv], hb⟩

/-- The operands of an operator with any number of vectors. -/
lemma rep_nary (hne : vs.map sort ≠ []) (hvs : ∀ s ∈ vs.map sort, s = .bv w) :
    ∃ (a : List Word) (x : BitVec w) (ks' : List Kid) (vs' : List Value), ks = ⟨w, a⟩ :: ks' ∧
    vs = .bv w x :: vs' ∧
      Holds a ((Value.bv w x).bits w) ∧ Forall₂ (Kid.IsBv w) ks' vs' := by
  cases isBv_of_rep h hvs with
  | nil => exact absurd rfl hne
  | cons hkv ht =>
    obtain ⟨x, rfl, hkw, hk⟩ := hkv
    exact ⟨_, x, _, _, by rw [← hkw], rfl, by rwa [bits_bv], ht⟩

end

end Operands

end LiveHD.Lec
