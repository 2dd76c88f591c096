import LiveHD.Lec.WordOps

/-!
# What the word helpers compute

Each helper on words, by the values of its operands.
-/

namespace LiveHD.Lec

open Bool hiding decide_false decide_true eq_iff_iff
open Nat hiding and_or_distrib_right bit
open Words List

variable {a b d : List Word} {w n : ℕ}

lemma nwords_pos (w : ℕ) : 0 < nwords w := by
  unfold nwords
  split
  · exact one_pos
  · omega

/-- The words of a positive width: all but the last are full. -/
lemma nwords_bounds (hw : 0 < w) : 64 * (nwords w - 1) < w ∧ w ≤ 64 * nwords w := by
  rw [nwords, if_neg hw.ne']
  omega

lemma pow_le_words (hw : 0 < w) :
    2 ^ w ≤ 2 ^ (64 * nwords w) := Nat.pow_le_pow_right (by decide) (nwords_bounds hw).2

lemma pow_dvd_words (hw : 0 < w) :
    2 ^ w ∣ 2 ^ (64 * nwords w) := Nat.pow_dvd_pow 2 (nwords_bounds hw).2

/-! ## Bits and masks -/

lemma getBit_eq (a : List Word) (i : ℕ) : getBit a i = bit a i := by
  rw [getBit, bit]
  generalize a.getD (i / 64) 0 = x
  have hbit : (x >>> (i % 64) &&& 1#64 != 0#64) = ((x >>> (i % 64) &&& 1#64).toNat != 0) := by
    rw [Bool.eq_iff_iff, bne_iff_ne, bne_iff_ne, ne_eq, ← BitVec.toNat_inj]
    rfl
  rw [hbit, BitVec.toNat_and, Nat.and_comm]
  rfl

/-- The low bits of a word. -/
lemma getLsbD_lowMask {k : ℕ} (hk : k < 64) (i : ℕ) :
    (1#64 <<< k - 1).getLsbD i = decide (i < k) := by
  have hlt : 2 ^ k < 2 ^ 64 := Nat.pow_lt_pow_right (by decide) hk
  have hpos := Nat.two_pow_pos k
  have hsh : (1#64 <<< k).toNat = 2 ^ k := by
    rw [BitVec.toNat_shiftLeft, shiftLeft_eq, BitVec.toNat_ofNat,
      mod_eq_of_lt (by decide : 1 < 2 ^ 64), one_mul, mod_eq_of_lt hlt]
  have hval : (1#64 <<< k - 1).toNat = 2 ^ k - 1 := by
    rw [BitVec.toNat_sub_of_le, hsh]
    · rfl
    · rwa [BitVec.le_def, hsh]
  rw [BitVec.getLsbD, hval, testBit_two_pow_sub_one]

lemma getLsbD_topMask (hw : 0 < w) {i : ℕ} (hi : i < 64) :
    (topMask w).getLsbD i = decide (64 * (nwords w - 1) + i < w) := by
  have hbo := nwords_bounds hw
  unfold topMask
  split
  next hr =>
    rw [BitVec.getLsbD_allOnes, Bool.eq_iff_iff, decide_eq_true_iff, decide_eq_true_iff]
    omega
  next hr =>
    rw [getLsbD_lowMask (Nat.mod_lt _ (by decide)), Bool.eq_iff_iff,
      decide_eq_true_iff, decide_eq_true_iff]
    omega

lemma length_clearTop (d : List Word) (w : ℕ) :
    (clearTop d w).length = d.length := length_modify _ _ _

lemma value_clearTop (hw : 0 < w) (hd : d.length = nwords w) :
    value (clearTop d w) = value d % 2 ^ w := by
  have hbo := nwords_bounds hw
  refine value_eq_of_bit fun i => ?_
  rw [testBit_mod_two_pow, testBit_value, clearTop, bit_modify d (nwords w - 1) (by omega)]
  split
  next hi =>
    rw [BitVec.getLsbD_and, getLsbD_topMask hw (Nat.mod_lt _ (by decide)), bit, hi, Bool.and_comm]
    rw [show 64 * (nwords w - 1) + i % 64 = i by omega]
  next hi =>
    by_cases hlt : i < w
    · rw [decide_eq_true hlt, Bool.true_and]
    · rw [bit_of_le (by omega), Bool.and_false]

lemma bit_setBit {i : ℕ} (hi : i / 64 < d.length) (j : ℕ) :
    bit (setBit d i) j = (bit d j || decide (j = i)) := by
  rw [setBit, bit_modify d _ hi]
  split
  next heq =>
    rw [BitVec.getLsbD_or, bit, heq]
    congr 1
    rw [BitVec.getLsbD_shiftLeft, BitVec.getLsbD_one, Bool.eq_iff_iff]
    simp only [and_eq_true, decide_eq_true_eq, not_eq_true', decide_eq_false_iff_not]
    omega
  next hne =>
    have hij : j ≠ i := fun heq => hne (by rw [heq])
    rw [decide_eq_false hij, Bool.or_false]

lemma length_setBit (d : List Word) (i : ℕ) : (setBit d i).length = d.length := length_modify _ _ _

lemma length_setBits (d : List Word) (lo hi : ℕ) : (setBits d lo hi).length = d.length := by
  rw [setBits]
  generalize range' lo (hi - lo) = l
  induction l generalizing d with
  | nil => rfl
  | cons i l ih => simp [ih, length_setBit]

lemma bit_setBits {lo hi : ℕ} (hle : hi ≤ 64 * d.length) (j : ℕ) :
    bit (setBits d lo hi) j = (bit d j || decide (lo ≤ j ∧ j < hi)) := by
  have hma : ∀ (k lo : ℕ) (d : List Word), lo + k ≤ 64 * d.length →
      bit ((range' lo k).foldl setBit d) j = (bit d j || decide (lo ≤ j ∧ j < lo + k)) := by
    intro k
    induction k with
    | zero =>
      intro lo d _
      rw [decide_eq_false (by omega), Bool.or_false]
      rfl
    | succ k ih =>
      intro lo d hd
      rw [range'_succ, foldl_cons, ih (lo + 1) _ (by rw [length_setBit]; omega),
        bit_setBit (by omega), Bool.or_assoc]
      congr 1
      rw [← decide_or, decide_eq_decide]
      omega
  rw [setBits]
  by_cases hlo : lo ≤ hi
  · rw [hma _ _ _ (by omega), Nat.add_sub_cancel' hlo]
  · rw [Nat.sub_eq_zero_of_le (not_le.1 hlo).le, decide_eq_false (by omega), Bool.or_false]
    rfl

/-! ## Comparisons -/

lemma isZero_iff (a : List Word) : isZero a = true ↔ value a = 0 := by
  induction a with
  | nil => exact iff_of_true rfl rfl
  | cons x a ih =>
    rw [isZero, all_cons, and_eq_true, value_cons]
    have hx : (x == 0) = true ↔ x.toNat = 0 := by
      rw [beq_iff_eq, ← BitVec.toNat_inj]
      rfl
    rw [hx]
    have ih : a.all (· == 0) = true ↔ value a = 0 := ih
    rw [ih]
    omega

lemma equal_iff (hlen : a.length = b.length) : equal a b = true ↔ value a = value b := by
  rw [equal, beq_iff_eq]
  exact ⟨fun h => h ▸ rfl, value_inj hlen⟩

lemma ultFrom_iff (a b : List Word) (hlen : a.length = b.length) : ultFrom a b = true ↔
    value a.reverse < value b.reverse := by
  induction a generalizing b with
  | nil =>
    obtain rfl := length_eq_zero_iff.1 hlen.symm
    exact iff_of_false false_ne_true (lt_irrefl _)
  | cons x a ih =>
    cases b with
    | nil => cases hlen
    | cons y b =>
      have ht := Nat.succ.inj hlen
      have ha := value_lt a.reverse
      have hb := value_lt b.reverse
      rw [reverse_cons, reverse_cons, value_append, value_append, value_singleton,
        value_singleton, ultFrom,
        length_reverse, length_reverse, ht]
      rw [length_reverse, ht] at ha
      rw [length_reverse] at hb
      generalize 2 ^ (64 * b.length) = m at ha hb ⊢
      split
      next hne =>
        rw [BitVec.ult, decide_eq_true_iff]
        have hne' : x.toNat ≠ y.toNat := fun h => hne (BitVec.eq_of_toNat_eq h)
        constructor
        · intro hlt
          have hmul : m * x.toNat + m ≤ m * y.toNat := by exact mul_le_mul_left m hlt
          omega
        · intro hlt
          by_contra hge
          have hmul : m * y.toNat + m ≤ m * x.toNat := by
            rw [← mul_succ]
            exact mul_le_mul_left m (by omega)
          omega
      next heq =>
        obtain rfl := not_not.1 heq
        rw [ih b ht]
        omega

lemma ult_iff (hlen : a.length = b.length) : ult a b = true ↔ value a < value b := by
  rw [ult, ultFrom_iff _ _ (by rw [length_reverse, length_reverse, hlen]),
    reverse_reverse, reverse_reverse]

/-! ## Sums -/

lemma toNat_flag (b : Bool) : (flag b).toNat = b.toNat := by
  cases b <;> rfl

/-- A word of a sum with its carry. -/
lemma add_word (x y : Word) (c : Bool) :
    (x + y + flag c).toNat + 2 ^ 64 * ((x + y).ult x || (x + y + flag c).ult (x + y)).toNat =
    x.toNat + y.toNat + c.toNat := by
  have hc := toNat_lt c
  have hs := BitVec.toNat_add x y
  have hd : (x + y + flag c).toNat = ((x + y).toNat + c.toNat) % 2 ^ 64 := by simp [toNat_flag]
  have h1 : ((x + y).ult x) = decide ((x + y).toNat < x.toNat) := rfl
  have h2 : ((x + y + flag c).ult (x + y)) = decide ((x + y + flag c).toNat < (x + y).toNat) := rfl
  rw [h1, h2]
  by_cases hc1 : (x + y).toNat < x.toNat <;> by_cases hc2 :
    (x + y + flag c).toNat < (x + y).toNat <;> simp only [hc1, hc2, decide_true,
    decide_false, Bool.or_true, Bool.or_false, toNat_true, toNat_false] <;> omega

lemma length_addFrom (c : Bool) (a b : List Word) (hlen : a.length = b.length) :
    (addFrom c a b).length = a.length := by
  induction a generalizing b c with
  | nil => rfl
  | cons x a ih =>
    cases b with
    | nil => cases hlen
    | cons y b => exact congrArg succ (ih _ b (Nat.succ.inj hlen))

lemma value_addFrom (c : Bool) (a b : List Word) (hlen : a.length = b.length) :
    value (addFrom c a b) = (value a + value b + c.toNat) % 2 ^ (64 * a.length) := by
  induction a generalizing b c with
  | nil => exact (mod_one _).symm
  | cons x a ih =>
    cases b with
    | nil => cases hlen
    | cons y b =>
      have hwo := add_word x y c
      rw [addFrom, value_cons, ih _ b (Nat.succ.inj hlen), digit_mod (BitVec.isLt _),
        length_cons, pow_words_succ]
      congr 1
      rw [value_cons, value_cons]
      omega

lemma value_add (hlen : a.length = b.length) :
    value (add a b) = (value a + value b) % 2 ^ (64 * a.length) := value_addFrom false a b hlen

lemma length_add (hlen : a.length = b.length) :
    (add a b).length = a.length := length_addFrom false a b hlen

/-! ## Differences -/

/-- A word of a difference with its borrow. -/
lemma sub_word (x y : Word) (c : Bool) : (x - y - flag c).toNat + y.toNat + c.toNat =
    x.toNat + 2 ^ 64 * (x.ult y || (x - y).ult (flag c)).toNat := by
  have hc := toNat_lt c
  have hs := BitVec.toNat_sub x y
  have hd : (x - y - flag c).toNat = (2 ^ 64 - c.toNat + (x - y).toNat) % 2 ^ 64 := by
    simp [toNat_flag]
  have h1 : x.ult y = decide (x.toNat < y.toNat) := rfl
  have h2 : (x - y).ult (flag c) = decide ((x - y).toNat < c.toNat) := by
    rw [BitVec.ult, toNat_flag]
  rw [h1, h2]
  by_cases hc1 : x.toNat < y.toNat <;> by_cases hc2 : (x - y).toNat < c.toNat <;>
    simp only [hc1, hc2, decide_true,
    decide_false, Bool.or_true, Bool.or_false, toNat_true, toNat_false] <;> omega

lemma length_subFrom (c : Bool) (a b : List Word) (hlen : a.length = b.length) :
    (subFrom c a b).length = a.length := by
  induction a generalizing b c with
  | nil => rfl
  | cons x a ih =>
    cases b with
    | nil => cases hlen
    | cons y b => exact congrArg succ (ih _ b (Nat.succ.inj hlen))

/-- A difference and what was taken off add up again, up to a borrow out of the top. -/
lemma value_subFrom (c : Bool) (a b : List Word) (hlen : a.length = b.length) :
    ∃ k ≤ 1, value (subFrom c a b) + value b + c.toNat = value a + 2 ^ (64 * a.length) * k := by
  induction a generalizing b c with
  | nil =>
    obtain rfl := length_eq_zero_iff.1 hlen.symm
    refine ⟨c.toNat, le_of_lt_succ (toNat_lt c), ?_⟩
    simp [subFrom]
  | cons x a ih =>
    cases b with
    | nil => cases hlen
    | cons y b =>
      have hwo := sub_word x y c
      obtain ⟨k, hk, ht⟩ := ih (x.ult y || (x - y).ult (flag c)) b (Nat.succ.inj hlen)
      refine ⟨k, hk, ?_⟩
      rw [subFrom, value_cons, value_cons, value_cons, length_cons, pow_words_succ, mul_assoc]
      omega

lemma length_sub (hlen : a.length = b.length) :
    (sub a b).length = a.length := length_subFrom false a b hlen

lemma value_sub (hlen : a.length = b.length) :
    value (sub a b) = (2 ^ (64 * a.length) - value b + value a) % 2 ^ (64 * a.length) := by
  obtain ⟨k, hk, h⟩ := value_subFrom false a b hlen
  have hb := value_lt b
  have hd := value_lt (subFrom false a b)
  rw [← hlen] at hb
  rw [length_subFrom false a b hlen] at hd
  rw [sub]
  rw [toNat_false] at h
  generalize 2 ^ (64 * a.length) = m at *
  obtain rfl | rfl : k = 0 ∨ k = 1 := by omega
  · rw [show m - value b + value a =
      value (subFrom false a b) + m by omega, add_mod_right, mod_eq_of_lt hd]
  · rw [show m - value b + value a = value (subFrom false a b) by omega, mod_eq_of_lt hd]

/-- A difference that does not borrow. -/
lemma value_sub_of_le (hlen : a.length = b.length) (hle : value b ≤ value a) :
    value (sub a b) = value a - value b := by
  have ha := value_lt a
  rw [value_sub hlen, show 2 ^ (64 * a.length) - value b + value a =
    value a - value b + 2 ^ (64 * a.length) by omega, add_mod_right,
    mod_eq_of_lt (by omega)]

lemma neg_word (x : Word) (c : Bool) :
    (~~~x + flag c).toNat + x.toNat + 1 + 2 ^ 64 * (c && (~~~x + flag c) == 0).toNat =
    c.toNat + 2 ^ 64 := by
  have hd : (~~~x + flag c).toNat = (2 ^ 64 - 1 - x.toNat + c.toNat) % 2 ^ 64 := by
    simp [toNat_flag]
  have h0 : ((~~~x + flag c) == 0) = decide ((~~~x + flag c).toNat = 0) := by
    rw [Bool.eq_iff_iff, beq_iff_eq, decide_eq_true_iff, ← BitVec.toNat_inj]
    rfl
  rw [h0]
  cases c with
  | false =>
    rw [Bool.false_and, toNat_false]
    rw [toNat_false] at hd
    omega
  | true =>
    rw [Bool.true_and, toNat_true]
    rw [toNat_true] at hd
    by_cases hca : (~~~x + flag true).toNat = 0
    · rw [decide_eq_true hca, toNat_true]
      omega
    · rw [decide_eq_false hca, toNat_false]
      omega

lemma length_negFrom (c : Bool) (a : List Word) : (negFrom c a).length = a.length := by
  induction a generalizing c with
  | nil => rfl
  | cons x a ih => exact congrArg succ (ih _)

lemma length_neg (a : List Word) : (neg a).length = a.length := length_negFrom true a

/-- A number and its complement add up to the carry, up to one out of the top. -/
lemma value_negFrom (c : Bool) (a : List Word) :
    ∃ k ≤ 1, value (negFrom c a) + value a + 1 = c.toNat + 2 ^ (64 * a.length) * k := by
  induction a generalizing c with
  | nil =>
    cases c with
    | false => exact ⟨1, le_rfl, rfl⟩
    | true => exact ⟨0, zero_le 1, rfl⟩
  | cons x a ih =>
    have hwo := neg_word x c
    obtain ⟨k, hk, ht⟩ := ih (c && (~~~x + flag c) == 0)
    refine ⟨k, hk, ?_⟩
    rw [negFrom, value_cons, value_cons, length_cons, pow_words_succ, mul_assoc]
    omega

/-! ## Products -/

lemma length_mulRow (x c : Word) (b d : List Word) (hlen : d.length ≤ b.length) :
    (mulRow x c b d).length = d.length := by
  induction d generalizing b c with
  | nil => cases b <;> rfl
  | cons y d ih =>
    cases b with
    | nil => exact absurd hlen (not_succ_le_zero _)
    | cons z b => exact congrArg succ (ih _ b (le_of_succ_le_succ hlen))

lemma value_mulRow (x c : Word) (b d : List Word) (hlen : d.length ≤ b.length) :
    value (mulRow x c b d) = (value d + x.toNat * value b + c.toNat) % 2 ^ (64 * d.length) := by
  induction d generalizing b c with
  | nil =>
    have hnil : mulRow x c b [] = [] := by cases b <;> rfl
    rw [hnil]
    exact (mod_one _).symm
  | cons y d ih =>
    cases b with
    | nil => exact absurd hlen (not_succ_le_zero _)
    | cons z b =>
      rw [mulRow, value_cons, ih _ b (le_of_succ_le_succ hlen), length_cons, pow_words_succ]
      -- a product of two words with two more words still fits two words
      have hpr : x.toNat * z.toNat ≤ (2 ^ 64 - 1) * (2 ^ 64 - 1) :=
        Nat.mul_le_mul (by omega) (by omega)
      generalize ht : x.toNat * z.toNat + y.toNat + c.toNat = t
      have htlt : t / 2 ^ 64 < 2 ^ 64 := by
        refine Nat.div_lt_of_lt_mul ?_
        omega
      rw [BitVec.toNat_ofNat, BitVec.toNat_ofNat, digit_mod (mod_lt _ (by decide))]
      congr 1
      rw [value_cons, value_cons]
      have hexp : x.toNat * (z.toNat + 2 ^ 64 * value b) =
        x.toNat * z.toNat + 2 ^ 64 * (x.toNat * value b) := by ring
      omega

lemma value_mulRows (b a d : List Word) (hlen : a.length = d.length) (hle : d.length ≤ b.length) :
    value (mulRows b a d) = (value d + value a * value b) % 2 ^ (64 * d.length) ∧
    (mulRows b a d).length = d.length := by
  induction a generalizing d with
  | nil =>
    obtain rfl := length_eq_zero_iff.1 hlen.symm
    exact ⟨(mod_one _).symm, rfl⟩
  | cons x a ih =>
    have hrow : value (if x = 0 then d else mulRow x 0 b d) =
        (value d + x.toNat * value b) % 2 ^ (64 * d.length) ∧
        (if x = 0 then d else mulRow x 0 b d).length = d.length := by
      split
      next hx =>
        subst hx
        refine ⟨?_, rfl⟩
        rw [show BitVec.toNat (0 : Word) = 0 from rfl, zero_mul, add_zero,
          mod_eq_of_lt (value_lt d)]
      · refine ⟨?_, length_mulRow x 0 b d hle⟩
        rw [value_mulRow x 0 b d hle, show BitVec.toNat (0 : Word) = 0 from rfl, add_zero]
    rw [mulRows]
    generalize (if x = 0 then d else mulRow x 0 b d) = r at hrow
    obtain ⟨hv, hln⟩ := hrow
    cases r with
    | nil =>
      rw [← hln] at hlen
      cases hlen
    | cons y r =>
      obtain ⟨n, hn⟩ : ∃ n, d.length = n + 1 := ⟨d.length - 1, by rw [← hln, length_cons]; omega⟩
      have hrl : r.length = n := by
        rw [length_cons] at hln
        omega
      have hal : a.length = r.length := by
        rw [length_cons] at hlen
        omega
      obtain ⟨hr, hre⟩ := ih r hal (by omega)
      refine ⟨?_, by rw [length_cons, hre, hrl, hn]⟩
      rw [value_cons, hr, hrl, hn, pow_words_succ, digit_mod (BitVec.isLt _)]
      rw [hn, pow_words_succ, value_cons] at hv
      have hsum : y.toNat + 2 ^ 64 * (value r + value a * value b) =
        y.toNat + 2 ^ 64 * value r + 2 ^ 64 * (value a * value b) := by ring
      have hgo : value d + value (x :: a) * value b =
          value d + x.toNat * value b + 2 ^ 64 * (value a * value b) := by
        rw [value_cons]
        ring
      rw [hsum, hgo, hv, mod_add_mod]

lemma value_mul (hlen : a.length = b.length) :
    value (mul a b) = value a * value b % 2 ^ (64 * a.length) := by
  rw [mul, (value_mulRows b a (zero a.length) length_replicate.symm (by simp [zero, hlen])).1, zero,
    value_replicate_zero, zero_add, length_replicate]

lemma length_mul (hlen : a.length = b.length) : (mul a b).length = a.length := by
  rw [mul, (value_mulRows b a (zero a.length) length_replicate.symm
    (by rw [zero, length_replicate, hlen])).2, zero, length_replicate]

/-! ## Ranges of bits -/

lemma length_orBits (dst : List Word) (doff : ℕ) (src : List Word) (soff n : ℕ) :
    (orBits dst doff src soff n).length = dst.length := by
  induction dst, doff, soff, n using orBits.induct src with
  | case1 dst doff soff => rw [orBits, if_pos rfl]
  | case2 dst doff soff n hn take v v' ih =>
    rw [orBits, if_neg hn]
    exact ih.trans (List.length_modify _ _ _)

/-- A chunk of bits that stays within a word on both sides. -/
lemma bit_chunk (src : List Word) {soff doff take i : ℕ} (hsrc : take ≤ 64 - soff % 64)
    (hi : i / 64 = doff / 64) :
    ((if take < 64 then src.getD (soff / 64) 0 >>> (soff % 64) &&& (1#64 <<< take - 1)
      else src.getD (soff / 64) 0 >>> (soff % 64)) <<< (doff % 64)).getLsbD (i % 64) =
        (decide (doff ≤ i ∧ i < doff + take) && bit src (i - doff + soff)) := by
  have hmod : i % 64 < 64 := mod_lt _ (by decide)
  rw [BitVec.getLsbD_shiftLeft, decide_eq_true hmod, Bool.true_and]
  by_cases hlow : i < doff
  · rw [decide_eq_true (show i % 64 < doff % 64 by omega), decide_eq_false (by omega)]
    rfl
  · rw [decide_eq_false (show ¬i % 64 < doff % 64 by omega), Bool.not_false, Bool.true_and]
    have hpos : i % 64 - doff % 64 = i - doff := by omega
    rw [hpos]
    by_cases hin : i < doff + take
    · have hwo : (i - doff + soff) / 64 = soff / 64 := by omega
      have hr : (i - doff + soff) % 64 = soff % 64 + (i - doff) := by omega
      rw [decide_eq_true (by omega), Bool.true_and, bit, hwo, hr]
      split
      next hta =>
        rw [BitVec.getLsbD_and, getLsbD_lowMask hta, decide_eq_true (by omega), Bool.and_true,
          BitVec.getLsbD_ushiftRight]
      · rw [BitVec.getLsbD_ushiftRight]
    · rw [decide_eq_false (by omega), Bool.false_and]
      split
      next hta =>
        rw [BitVec.getLsbD_and, getLsbD_lowMask hta, decide_eq_false (by omega), Bool.and_false]
      · exact BitVec.getLsbD_of_ge _ _ (by omega)

lemma bit_orBits (dst : List Word) (doff : ℕ) (src : List Word) (soff n : ℕ)
    (hle : doff + n ≤ 64 * dst.length) (i : ℕ) :
    bit (orBits dst doff src soff n) i =
    (bit dst i || (decide (doff ≤ i ∧ i < doff + n) && bit src (i - doff + soff))) := by
  induction dst, doff, soff, n using orBits.induct src with
  | case1 dst doff soff =>
    rw [orBits, if_pos rfl, decide_eq_false (by omega), Bool.false_and, Bool.or_false]
  | case2 dst doff soff n hn take v v' ih =>
    have hwo : doff / 64 < dst.length := by omega
    rw [orBits, if_neg hn]
    change bit (orBits (dst.modify (doff / 64) (· ||| v' <<< (doff % 64))) (doff + take) src
      (soff + take) (n - take)) i = _
    rw [ih (by rw [length_modify]; omega), bit_modify _ _ hwo]
    have hr : bit src (i - (doff + take) + (soff + take)) = bit src (i - doff + soff) ∨
        i < doff + take := by
      by_cases hi : i < doff + take
      · exact .inr hi
      · exact .inl (congrArg (bit src) (by omega))
    have hsp : (decide (doff ≤ i ∧ i < doff + n) && bit src (i - doff + soff)) =
        ((decide (doff ≤ i ∧ i < doff + take) && bit src (i - doff + soff)) ||
          (decide (doff + take ≤ i ∧ i < doff + take + (n - take)) &&
            bit src (i - (doff + take) + (soff + take)))) := by
      rcases hr with hr | hlt
      · rw [hr, ← and_or_distrib_right, ← decide_or]
        congr 2
        rw [eq_iff_iff]
        omega
      · rw [decide_eq_false (show ¬(doff + take ≤ i ∧ i < doff + take + (n - take)) by omega),
          Bool.false_and, Bool.or_false]
        congr 2
        rw [eq_iff_iff]
        omega
    rw [hsp, ← Bool.or_assoc]
    congr 1
    split
    next hi =>
      have hch : (v' <<< (doff % 64)).getLsbD (i % 64) =
          (decide (doff ≤ i ∧ i < doff + take) && bit src (i - doff + soff)) :=
        bit_chunk src (by omega) hi
      rw [BitVec.getLsbD_or, hch, ← hi]
      rfl
    next hi => rw [decide_eq_false (by omega), Bool.false_and, Bool.or_false]

/-- Bits that are taken from an offset on. -/
lemma value_orBits_zero {nw : ℕ} (src : List Word) (soff n : ℕ) (hle : n ≤ 64 * nw) :
    value (orBits (zero nw) 0 src soff n) = value src / 2 ^ soff % 2 ^ n := by
  refine value_eq_of_bit fun i => ?_
  rw [bit_orBits _ _ _ _ _ (by rw [zero, length_replicate]; omega), zero, bit_replicate_zero,
    Bool.false_or, Nat.zero_add,
    testBit_mod_two_pow, testBit_div_two_pow, testBit_value, Nat.sub_zero]
  congr 2
  rw [eq_iff_iff]
  exact and_iff_right (zero_le i)

/-- Bits that are put above those that are there. -/
lemma value_orBits_above (dst : List Word) (doff : ℕ) (src : List Word) (n : ℕ)
    (hle : doff + n ≤ 64 * dst.length)
    (hdst : value dst < 2 ^ doff) :
    value (orBits dst doff src 0 n) = value dst + 2 ^ doff * (value src % 2 ^ n) := by
  refine value_eq_of_bit fun i => ?_
  rw [bit_orBits _ _ _ _ _ hle, add_comm (value dst),
    testBit_two_pow_mul_add _ hdst, ← testBit_value, ← testBit_value]
  by_cases hi : i < doff
  · rw [if_pos hi, decide_eq_false (by omega), Bool.false_and, Bool.or_false]
  · rw [if_neg hi, testBit_mod_two_pow,
      testBit_lt_two_pow (hdst.trans_le (Nat.pow_le_pow_right (by decide) (not_lt.1 hi))),
      Bool.false_or]
    congr 2
    rw [eq_iff_iff]
    omega

/-! ## Shifts -/

lemma shiftAmount_eq (hb : 0 < b.length) (hw : w < 2 ^ 64) : shiftAmount b w = min (value b) w := by
  cases b with
  | nil => cases hb
  | cons x b =>
    rw [shiftAmount, getD_cons_zero, value_cons]
    have hany : b.any (· != 0) = true ↔ value b ≠ 0 := by
      rw [ne_eq, ← isZero_iff, isZero, any_eq_true, all_eq_true]
      simp only [bne_iff_ne, beq_iff_eq, not_forall, exists_prop]
    split
    next hhi =>
      have hne := hany.1 hhi
      omega
    next hlow =>
      have h0 := not_not.1 fun hne => hlow (hany.2 hne)
      split <;> omega

section

variable (a : List Word) (s w : ℕ)

lemma length_shl : (shl a s w).length = nwords w := by
  unfold shl
  split
  · exact length_replicate
  · rw [length_clearTop, length_map, length_range]

lemma length_lshr : (lshr a s w).length = nwords w := by
  unfold lshr
  split
  · exact length_replicate
  · rw [length_map, length_range]

lemma length_ashr : (ashr a s w).length = nwords w := by
  unfold ashr
  split
  · rw [length_setBits, length_lshr]
  · exact length_lshr a s w

end

/-- A list of words by its words. -/
lemma bit_map_range (f : ℕ → Word) {i : ℕ} (hi : i < 64 * n) :
    bit ((List.range n).map f) i = (f (i / 64)).getLsbD (i % 64) := by
  rw [bit, getD_eq_getElem _ _ (by rw [length_map, length_range]; omega),
    getElem_map, getElem_range]

/-- A bit of a word that is moved up from two words. -/
lemma getLsbD_shl (a : List Word) {s i : ℕ} (hwo : s / 64 ≤ i / 64) :
    (if s % 64 ≠ 0 ∧ s / 64 + 1 ≤ i / 64 then
      a.getD (i / 64 - s / 64) 0 <<< (s % 64) ||| a.getD (i / 64 - s / 64 - 1) 0 >>> (64 - s % 64)
      else a.getD (i / 64 - s / 64) 0 <<< (s % 64)).getLsbD (i % 64) =
      (decide (s ≤ i) && bit a (i - s)) := by
  have hmod : i % 64 < 64 := mod_lt _ (by decide)
  have hhi : (a.getD (i / 64 - s / 64) 0 <<< (s % 64)).getLsbD (i % 64) =
      (decide (s % 64 ≤ i % 64) && (a.getD (i / 64 - s / 64) 0).getLsbD (i % 64 - s % 64)) := by
    rw [BitVec.getLsbD_shiftLeft, decide_eq_true hmod, Bool.true_and, ← decide_not]
    congr 2
    rw [not_lt]
  by_cases hle : s % 64 ≤ i % 64
  · have hqu : (i - s) / 64 = i / 64 - s / 64 := by omega
    have hrem : (i - s) % 64 = i % 64 - s % 64 := by omega
    rw [decide_eq_true (show s ≤ i by omega), Bool.true_and, bit, hqu, hrem]
    rw [decide_eq_true hle, Bool.true_and] at hhi
    split
    · rw [BitVec.getLsbD_or, hhi, BitVec.getLsbD_ushiftRight,
        BitVec.getLsbD_of_ge (a.getD (i / 64 - s / 64 - 1) 0) _ (by omega), Bool.or_false]
    · exact hhi
  · rw [decide_eq_false hle, Bool.false_and] at hhi
    split
    · have hqu : (i - s) / 64 = i / 64 - s / 64 - 1 := by omega
      have hrem : (i - s) % 64 = 64 - s % 64 + i % 64 := by omega
      rw [BitVec.getLsbD_or, hhi, Bool.false_or, BitVec.getLsbD_ushiftRight,
        decide_eq_true (show s ≤ i by omega), Bool.true_and, bit,
        hqu, hrem]
    · rw [hhi, decide_eq_false (by omega), Bool.false_and]

lemma value_shl (hw : 0 < w) (a : List Word) (s : ℕ) :
    value (shl a s w) = value a * 2 ^ s % 2 ^ w := by
  unfold shl
  split
  next hs =>
    rw [zero, value_replicate_zero]
    exact (mod_eq_zero_of_dvd (Dvd.dvd.mul_left (pow_dvd_pow 2 hs) _)).symm
  · rw [value_clearTop hw (by simp)]
    refine eq_of_testBit_eq fun i => ?_
    rw [testBit_mod_two_pow, testBit_mod_two_pow]
    by_cases hi : i < w
    · have hbo := nwords_bounds hw
      rw [testBit_value, bit_map_range _ (by omega), testBit_mul_two_pow, testBit_value]
      congr 1
      by_cases hwo : s / 64 ≤ i / 64
      · rw [if_pos hwo]
        exact getLsbD_shl a hwo
      · rw [if_neg hwo, decide_eq_false (by omega)]
        exact BitVec.getLsbD_zero
    · rw [decide_eq_false hi, Bool.false_and, Bool.false_and]

/-- A bit of a word that is moved down from two words. -/
lemma getLsbD_lshr {nw : ℕ} (ha : a.length = nw) (s i : ℕ) :
    (if s % 64 ≠ 0 ∧ i / 64 + s / 64 + 1 < nw then
      a.getD (i / 64 + s / 64) 0 >>> (s % 64) ||| a.getD (i / 64 + s / 64 + 1) 0 <<< (64 - s % 64)
      else a.getD (i / 64 + s / 64) 0 >>> (s % 64)).getLsbD (i % 64) = bit a (i + s) := by
  have hmod : i % 64 < 64 := mod_lt _ (by decide)
  by_cases hle : i % 64 + s % 64 < 64
  · have hqu : (i + s) / 64 = i / 64 + s / 64 := by omega
    have hrem : (i + s) % 64 = s % 64 + i % 64 := by omega
    rw [bit, hqu, hrem]
    split
    · rw [BitVec.getLsbD_or, BitVec.getLsbD_ushiftRight, BitVec.getLsbD_shiftLeft,
        decide_eq_true (show i % 64 < 64 - s % 64 by omega),
        Bool.not_true, Bool.and_false, Bool.false_and, Bool.or_false]
    · exact BitVec.getLsbD_ushiftRight _ _ _
  · have hqu : (i + s) / 64 = i / 64 + s / 64 + 1 := by omega
    have hrem : (i + s) % 64 = i % 64 - (64 - s % 64) := by omega
    rw [bit, hqu, hrem]
    split
    · rw [BitVec.getLsbD_or, BitVec.getLsbD_ushiftRight, BitVec.getLsbD_of_ge _ _ (by omega),
        Bool.false_or, BitVec.getLsbD_shiftLeft,
        decide_eq_true hmod, decide_eq_false (show ¬i % 64 < 64 - s % 64 by omega)]
      rfl
    · rw [BitVec.getLsbD_ushiftRight, BitVec.getLsbD_of_ge _ _ (by omega),
        getD_eq_default _ _ (by omega)]
      exact BitVec.getLsbD_zero.symm

lemma value_lshr (ha : a.length = nwords w) (hlt : value a < 2 ^ w) (s : ℕ) :
    value (lshr a s w) = value a / 2 ^ s := by
  unfold lshr
  split
  next hs =>
    rw [zero, value_replicate_zero]
    exact (div_eq_of_lt (hlt.trans_le (Nat.pow_le_pow_right (by decide) hs))).symm
  · refine value_eq_of_bit_lt ?_ fun i hi => ?_
    · rw [length_map, length_range, ← ha]
      exact (div_le_self _ _).trans_lt (value_lt a)
    · rw [length_map, length_range] at hi
      rw [bit_map_range _ hi, testBit_div_two_pow, testBit_value]
      split
      · exact getLsbD_lshr ha s i
      next hwo =>
        rw [bit_of_le (by omega)]
        exact BitVec.getLsbD_zero

/-- An arithmetic shift, by its bits. -/
lemma bit_ashr (hw : 0 < w) (ha : a.length = nwords w) (hlt : value a < 2 ^ w) (s i : ℕ) :
    bit (ashr a s w) i = ((value a / 2 ^ s).testBit i ||
      (bit a (w - 1) && decide (w ≤ i + s ∧ i < w))) := by
  unfold ashr
  rw [getBit_eq]
  have hbo := nwords_bounds hw
  cases hsi : bit a (w - 1) with
  | false => simp [← testBit_value, value_lshr ha hlt]
  | true =>
    rw [if_pos rfl, bit_setBits (by rw [length_lshr]; exact hbo.2), ← testBit_value,
      value_lshr ha hlt]
    congr 2
    rw [eq_iff_iff]
    split <;> omega

/-! ## Quotients -/

lemma length_shiftIn (c : Bool) (a : List Word) : (shiftIn c a).length = a.length := by
  induction a generalizing c with
  | nil => rfl
  | cons x a ih => exact congrArg succ (ih _)

/-- A word moved up by a bit, with the bit that goes out. -/
lemma shift_word (x : Word) (c : Bool) :
    (x <<< 1 ||| flag c).toNat + 2 ^ 64 * (x.getLsbD 63).toNat = 2 * x.toNat + c.toNat := by
  have htop : (x.getLsbD 63).toNat = x.toNat / 2 ^ 63 := by
    rw [BitVec.getLsbD, testBit_eq_decide_div_mod_eq]
    obtain h | h : x.toNat / 2 ^ 63 = 0 ∨ x.toNat / 2 ^ 63 = 1 := by omega
    · rw [h]
      rfl
    · rw [h]
      rfl
  have hlow : (x <<< 1 ||| flag c).toNat = 2 * x.toNat % 2 ^ 64 + c.toNat := by
    rw [BitVec.toNat_or, BitVec.toNat_shiftLeft, toNat_flag, shiftLeft_eq, mul_comm]
    have hev : 2 * x.toNat % 2 ^ 64 = 2 ^ 1 * (x.toNat % 2 ^ 63) := by omega
    rw [hev, two_pow_add_eq_or_of_lt (toNat_lt c)]
  omega

lemma value_shiftIn (c : Bool) (a : List Word) (hlt : 2 * value a + c.toNat < 2 ^ (64 * a.length)) :
    value (shiftIn c a) = 2 * value a + c.toNat := by
  have hmod : ∀ (c : Bool) (a : List Word), value (shiftIn c a) =
      (2 * value a + c.toNat) % 2 ^ (64 * a.length) := by
    intro c a
    induction a generalizing c with
    | nil => exact (mod_one _).symm
    | cons x a ih =>
      have hwo := shift_word x c
      rw [shiftIn, value_cons, ih, digit_mod (BitVec.isLt _), length_cons, pow_words_succ]
      congr 1
      rw [value_cons]
      omega
  rw [hmod, mod_eq_of_lt hlt]

/-- One more bit of a quotient and a remainder. -/
lemma div_step {x y i : ℕ} (hy : 0 < y) : x / 2 ^ i = 2 * (x / 2 ^ (i + 1)) + (x.testBit i).toNat ∧
    (let r := 2 * (x / 2 ^ (i + 1) % y) + (x.testBit i).toNat
    r < 2 * y ∧ (if r < y then r else r - y) = x / 2 ^ i % y ∧
      x / 2 ^ i / y = 2 * (x / 2 ^ (i + 1) / y) + if r < y then 0 else 1) := by
  have hbit : x / 2 ^ i = 2 * (x / 2 ^ (i + 1)) + (x.testBit i).toNat := by
    rw [Nat.pow_succ, ← Nat.div_div_eq_div_mul, testBit_eq_decide_div_mod_eq]
    obtain h | h := mod_two_eq_zero_or_one (x / 2 ^ i)
    · rw [h]
      simp only [zero_ne_one, decide_false, toNat_false]
      omega
    · rw [h]
      simp only [decide_true, toNat_true]
      omega
  refine ⟨hbit, ?_⟩
  have hb := toNat_lt (x.testBit i)
  rw [hbit]
  generalize x / 2 ^ (i + 1) = q at *
  generalize (x.testBit i).toNat = c at *
  have hmod := mod_lt q hy
  have hdiv := mod_add_div q y
  refine ⟨by omega, ?_⟩
  generalize hm : q % y = m at *
  generalize hk : q / y = k at *
  have hsum : 2 * q + c = (2 * m + c) + y * (2 * k) := by
    rw [← hdiv]
    ring
  rw [hsum, add_mul_mod_self_left, add_mul_div_left _ _ hy]
  split
  next hlt =>
    rw [mod_eq_of_lt hlt, div_eq_of_lt hlt]
    exact ⟨rfl, by omega⟩
  next hge =>
    rw [mod_eq_sub_mod (not_lt.1 hge), mod_eq_of_lt (by omega), div_eq_sub_div hy (not_lt.1 hge),
      div_eq_of_lt (by omega)]
    exact ⟨rfl, by omega⟩

/-- Where the long division stands above bit `i`. -/
structure Dividing (a b : List Word) (nw i : ℕ) (st : List Word × List Word) : Prop where
  remLength : st.1.length = nw + 1
  quoLength : st.2.length = nw
  rem : value st.1 = value a / 2 ^ i % value b
  quo : value st.2 = 2 ^ i * (value a / 2 ^ i / value b)

lemma Dividing.step {nw i : ℕ} {st : List Word × List Word} (h : Dividing a b nw (i + 1) st)
    (hb : b.length = nw) (hpos : 0 < value b)
    (ha : a.length = nw) (hi : i < 64 * nw) : Dividing a b nw i (divStep a (b ++ [0]) st i) := by
  have hblt := value_lt b
  have hwi : 2 ^ (64 * b.length) * 2 ≤ 2 ^ (64 * (nw + 1)) := by
    rw [pow_words_succ, hb, mul_comm]
    exact mul_le_mul_right _ (by decide)
  obtain ⟨-, hlt, hrem, hquo⟩ := div_step (x := value a) (i := i) hpos
  have hbit : (value a).testBit i = getBit a i := by rw [getBit_eq, testBit_value]
  have hsh : value (shiftIn (getBit a i) st.1) =
      2 * (value a / 2 ^ (i + 1) % value b) + ((value a).testBit i).toNat := by
    rw [value_shiftIn, h.rem, hbit]
    rw [h.rem, h.remLength, ← hbit]
    omega
  have hbl : (b ++ [0]).length = nw + 1 := by simp [hb]
  have hbv : value (b ++ [0]) = value b := by
    rw [value_append]
    exact add_zero _
  have hrl : (shiftIn (getBit a i) st.1).length = (b ++ [0]).length := by
    rw [length_shiftIn, h.remLength, hbl]
  have hqu' : 2 ^ (i + 1) * (value a / 2 ^ (i + 1) / value b) =
      2 ^ i * (2 * (value a / 2 ^ (i + 1) / value b)) := by
    rw [pow_succ, mul_assoc]
  rw [divStep]
  have hult := ult_iff hrl
  rw [hsh, hbv] at hult
  split
  next hle =>
    rw [if_pos (hult.1 hle)] at hrem hquo
    refine ⟨by rw [length_shiftIn, h.remLength], h.quoLength, hsh.trans hrem, ?_⟩
    rw [h.quo, hqu', hquo]
    rfl
  next hle =>
    have hnot := fun hlt => hle (hult.2 hlt)
    rw [if_neg hnot] at hrem hquo
    refine ⟨by
      rw [length_sub hrl, length_shiftIn, h.remLength], by rw [length_setBit, h.quoLength], ?_, ?_⟩
    · rwa [value_sub_of_le hrl (by rw [hsh, hbv]; exact not_lt.1 hnot), hsh, hbv]
    · rw [hquo, mul_add, mul_one, ← hqu']
      -- the bits of the quotient so far are above the new one
      refine value_eq_of_bit fun j => ?_
      rw [bit_setBit (by rw [h.quoLength]; omega), ← testBit_value, h.quo,
        testBit_two_pow_mul_add _ (Nat.pow_lt_pow_right (by decide)
        (lt_succ_self i)), testBit_two_pow_mul, testBit_two_pow]
      by_cases hj : j < i + 1
      · rw [if_pos hj, decide_eq_false (by omega), Bool.false_and, Bool.false_or]
        congr 1
        rw [eq_iff_iff]
        exact eq_comm
      · rw [if_neg hj, decide_eq_true (by omega), Bool.true_and,
          decide_eq_false (by omega), Bool.or_false]

lemma Dividing.run {nw : ℕ} (hb : b.length = nw) (hpos : 0 < value b) (ha : a.length = nw)
    (n : ℕ) (hn : n ≤ 64 * nw)
    {st : List Word × List Word} (h : Dividing a b nw n st) :
    Dividing a b nw 0 ((List.range n).reverse.foldl (divStep a (b ++ [0])) st) := by
  induction n generalizing st with
  | zero => exact h
  | succ n ih =>
    rw [range_succ, reverse_append]
    exact ih (by omega) (h.step hb hpos ha (by omega))

lemma value_udivremLoop (hw : 0 < w) (ha : a.length = nwords w) (hb : b.length = nwords w)
    (hlt : value a < 2 ^ w) (hpos : value b ≠ 0) :
    value (udivremLoop a b w).1 = value a / value b ∧
    value (udivremLoop a b w).2 = value a % value b ∧
    (udivremLoop a b w).1.length = nwords w ∧ (udivremLoop a b w).2.length = nwords w := by
  unfold udivremLoop
  have hst : Dividing a b (nwords w) w (zero (nwords w + 1), zero (nwords w)) := by
    refine ⟨length_replicate, length_replicate, ?_, ?_⟩
    · rw [div_eq_of_lt hlt]
      exact value_replicate_zero _
    · rw [div_eq_of_lt hlt, Nat.zero_div]
      exact value_replicate_zero _
  have hdo := hst.run hb (pos_of_ne_zero hpos) ha w (nwords_bounds hw).2
  generalize (range w).reverse.foldl (divStep a (b ++ [0])) (zero (nwords w + 1),
    zero (nwords w)) = st at hdo ⊢
  have hquo := hdo.quo
  have hrem := hdo.rem
  rw [Nat.pow_zero, Nat.div_one] at hquo hrem
  rw [one_mul] at hquo
  refine ⟨hquo, ?_, hdo.quoLength, by rw [length_take, hdo.remLength]; omega⟩
  -- the top word of the remainder is zero
  have hsp := value_append (st.1.take (nwords w)) (st.1.drop (nwords w))
  rw [take_append_drop, length_take, hdo.remLength, min_eq_left (le_succ _)] at hsp
  have hsm : value st.1 < 2 ^ (64 * nwords w) := by
    rw [hrem, ← hb]
    exact (mod_lt _ (pos_of_ne_zero hpos)).trans (value_lt b)
  have h0 : value (st.1.drop (nwords w)) = 0 := by
    by_contra hne
    have hle := Nat.le_mul_of_pos_right (2 ^ (64 * nwords w)) (Nat.pos_of_ne_zero hne)
    omega
  rw [h0, mul_zero, add_zero] at hsp
  rw [← hsp, hrem]

lemma value_pair (x : ℕ) (hx : x < 2 ^ 128) :
    value [BitVec.ofNat 64 x, BitVec.ofNat 64 (x / 2 ^ 64)] = x := by
  rw [value_cons, value_singleton, BitVec.toNat_ofNat, BitVec.toNat_ofNat]
  omega

section

variable (hw : 0 < w) (ha : a.length = nwords w) (hb : b.length = nwords w) (hlt : value a < 2 ^ w)
include hw ha hb hlt

/-- The quotient and the remainder of SMT-LIB. -/
lemma value_udivrem : value (udivrem a b w).1 =
    (if value b = 0 then 2 ^ w - 1 else value a / value b) ∧
    value (udivrem a b w).2 = value a % value b ∧
    (udivrem a b w).1.length = nwords w ∧ (udivrem a b w).2.length = nwords w := by
  have his := isZero_iff b
  unfold udivrem
  dsimp only
  split
  next hz =>
    rw [if_pos (his.1 hz), his.1 hz, mod_zero]
    refine ⟨?_, rfl, by simp [length_clearTop], ha⟩
    rw [value_clearTop hw length_replicate]
    refine eq_of_testBit_eq fun i => ?_
    have hbo := nwords_bounds hw
    rw [testBit_mod_two_pow, testBit_two_pow_sub_one, testBit_value]
    by_cases hi : i < w
    · rw [decide_eq_true hi, Bool.true_and, bit,
        getD_eq_getElem _ _ (by rw [length_replicate]; omega), getElem_replicate,
        BitVec.getLsbD_allOnes]
      exact decide_eq_true (mod_lt _ (by decide))
    · rw [decide_eq_false hi, Bool.false_and]
  next hz =>
    have hpos : value b ≠ 0 := fun h => hz (his.2 h)
    split
    next hone =>
      rw [hone] at ha hb ⊢
      obtain ⟨x, rfl⟩ := length_eq_one_iff.1 ha
      obtain ⟨y, rfl⟩ := length_eq_one_iff.1 hb
      refine ⟨?_, ?_, rfl, rfl⟩
      · exact BitVec.toNat_udiv
      · exact BitVec.toNat_umod
    · split
      next htwo =>
        rw [htwo] at ha hb ⊢
        obtain ⟨x0, x1, rfl⟩ := length_eq_two.1 ha
        obtain ⟨y0, y1, rfl⟩ := length_eq_two.1 hb
        have hx : value [x0, x1] = x1.toNat * 2 ^ 64 + x0.toNat := by
          rw [value_cons, value_singleton]
          omega
        have hy : value [y0, y1] = y1.toNat * 2 ^ 64 + y0.toNat := by
          rw [value_cons, value_singleton]
          omega
        have hsm := value_lt [x0, x1]
        refine ⟨?_, ?_, rfl, rfl⟩
        · rw [hx, hy]
          exact value_pair _ ((div_le_self _ _).trans_lt (hx ▸ hsm))
        · rw [hx, hy]
          exact value_pair _ ((mod_le _ _).trans_lt (hx ▸ hsm))
      · exact value_udivremLoop hw ha hb hlt hpos

/-- The paths for one and for two words agree with the loop. -/
lemma udivrem_eq_loop (hpos : value b ≠ 0) : udivrem a b w = udivremLoop a b w := by
  obtain ⟨hquo, hrem, hqu, hre⟩ := value_udivrem hw ha hb hlt
  obtain ⟨hq', hrm', hqu', hre'⟩ := value_udivremLoop hw ha hb hlt hpos
  rw [if_neg hpos] at hquo
  exact Prod.ext (value_inj (hqu.trans hqu'.symm) (hquo.trans hq'.symm))
    (value_inj (hre.trans hre'.symm) (hrem.trans hrm'.symm))

end

/-! ## Hexadecimal digits -/

lemma hexDigit_lt (c : Char) : hexDigit c < 16 := by
  unfold hexDigit
  split
  next h =>
    have hle : c.toNat ≤ '9'.toNat := h.2
    have h9 : '9'.toNat = 57 := rfl
    have h0 : '0'.toNat = 48 := rfl
    omega
  · split
    next h =>
      have hle : c.toNat ≤ 'f'.toNat := h.2
      have hf : 'f'.toNat = 102 := rfl
      have ha : 'a'.toNat = 97 := rfl
      omega
    · split
      next h =>
        have hle : c.toNat ≤ 'F'.toNat := h.2
        have hf : 'F'.toNat = 70 := rfl
        have ha : 'A'.toNat = 65 := rfl
        omega
      · decide

/-- The number that digits spell, the least significant first. -/
def digitsValue : List Char → ℕ
  | [] => 0
  | c :: cs => hexDigit c + 16 * digitsValue cs

lemma length_parseFrom (d : List Word) (i : ℕ) (s : List Char) :
    (parseFrom d i s).length = d.length := by
  induction s generalizing d i with
  | nil => rfl
  | cons c s ih => exact (ih _ _).trans (length_modify _ _ _)

/-- A digit above the ones that are there. -/
lemma value_digit {d : List Word} {k : ℕ} (hk : 4 * k + 4 ≤ 64 * d.length)
    (hd : value d < 2 ^ (4 * k)) {v : ℕ} (hv : v < 16) :
    value (d.modify (4 * k / 64) (· ||| BitVec.ofNat 64 v <<< (4 * k % 64))) =
    value d + 2 ^ (4 * k) * v := by
  refine value_eq_of_bit fun i => ?_
  rw [bit_modify d _ (by omega), add_comm (value d), testBit_two_pow_mul_add _ hd, ← testBit_value]
  have hvb : ∀ j, 4 ≤ j → v.testBit j = false := fun j hj =>
    testBit_lt_two_pow (hv.trans_le (Nat.pow_le_pow_right (by decide) hj : 2 ^ 4 ≤ 2 ^ j))
  have hhi : 4 * k ≤ i → (value d).testBit i = false := fun hi =>
    testBit_lt_two_pow (hd.trans_le (Nat.pow_le_pow_right (by decide) hi))
  split
  next hwo =>
    have hbit : (d.getD (4 * k / 64) 0).getLsbD (i % 64) = (value d).testBit i := by
      rw [testBit_value, bit, hwo]
    rw [BitVec.getLsbD_or, hbit, BitVec.getLsbD_shiftLeft,
      decide_eq_true (Nat.mod_lt _ (by decide)), Bool.true_and]
    by_cases hi : i < 4 * k
    · rw [if_pos hi, decide_eq_true (by omega), Bool.not_true, Bool.false_and, Bool.or_false]
    · rw [if_neg hi, hhi (not_lt.1 hi), decide_eq_false (by omega), Bool.not_false, Bool.true_and,
        Bool.false_or, BitVec.getLsbD_ofNat,
        decide_eq_true (by omega), Bool.true_and]
      exact congrArg v.testBit (by omega)
  next hwo =>
    by_cases hi : i < 4 * k
    · rw [if_pos hi]
    · rw [if_neg hi, hhi (not_lt.1 hi), hvb _ (by omega)]

lemma value_parseFrom (d : List Word) (k : ℕ) (s : List Char) (hd : value d < 2 ^ (4 * k))
    (hs : value d + 2 ^ (4 * k) * digitsValue s < 2 ^ (64 * d.length)) :
    value (parseFrom d (4 * k) s) = value d + 2 ^ (4 * k) * digitsValue s := by
  induction s generalizing d k with
  | nil => rfl
  | cons c s ih =>
    have hc := hexDigit_lt c
    rw [digitsValue]
    rw [digitsValue] at hs
    have hpow : 2 ^ (4 * (k + 1)) = 2 ^ (4 * k) * 16 := by rw [Nat.mul_succ, Nat.pow_add]
    have hexp : 2 ^ (4 * k) * (hexDigit c + 16 * digitsValue s) =
        2 ^ (4 * k) * hexDigit c + 2 ^ (4 * (k + 1)) * digitsValue s := by
      rw [hpow, mul_add, mul_assoc]
    rw [hexp] at hs ⊢
    by_cases hk : 4 * k + 4 ≤ 64 * d.length
    · have hdi := value_digit hk hd hc
      have hmul : 2 ^ (4 * k) * hexDigit c ≤ 2 ^ (4 * k) * 15 := mul_le_mul_left _ (by omega)
      change value (parseFrom _ (4 * (k + 1)) s) = _
      rw [ih _ (k + 1), hdi, add_assoc]
      · omega
      · rwa [hdi, length_modify, add_assoc]
    · -- a digit past the words is zero, and so are the ones above it
      have hbig : 2 ^ (64 * d.length) ≤ 2 ^ (4 * k) := Nat.pow_le_pow_right (by decide) (by omega)
      have h0 : hexDigit c = 0 := by
        by_contra hne
        have hle := Nat.le_mul_of_pos_right (2 ^ (4 * k)) (Nat.pos_of_ne_zero hne)
        omega
      have hr : digitsValue s = 0 := by
        by_contra hne
        have hle := Nat.le_mul_of_pos_right (2 ^ (4 * (k + 1))) (Nat.pos_of_ne_zero hne)
        omega
      have hsa : d.modify (4 * k / 64)
          (· ||| BitVec.ofNat 64 (hexDigit c) <<< (4 * k % 64)) = d := by
        refine modify_eq_self ?_
        omega
      change value (parseFrom _ (4 * (k + 1)) s) = _
      rw [hsa, ih d (k + 1), h0, mul_zero, zero_add]
      · omega
      · rw [hr]
        exact value_lt d

lemma value_parseHex (s : List Char) (nw : ℕ) (hs : digitsValue s.reverse < 2 ^ (64 * nw)) :
    value (parseHex s nw) = digitsValue s.reverse := by
  have h0 : value (zero nw) = 0 := value_replicate_zero nw
  have hlen : (zero nw).length = nw := length_replicate
  have hpa := value_parseFrom (zero nw) 0 s.reverse (by rw [h0]; exact one_pos)
    (by rw [h0, hlen, pow_zero, zero_add, one_mul]; exact hs)
  rwa [h0, zero_add, pow_zero, one_mul] at hpa

lemma length_parseHex (s : List Char) (nw : ℕ) :
    (parseHex s nw).length = nw := (length_parseFrom _ _ _).trans length_replicate

end LiveHD.Lec
