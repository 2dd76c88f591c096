import Mathlib

/-!
# Integers as infinite two's complement bit strings

Windows (`window`), their replacement (`splice`), sign extension (`sext`) and shifts are arithmetic
here, and each has a lemma that says what its bits are; two integers with the same bits are equal
(`ext`).
-/

namespace LiveHD.IntBits

open Bool Int Nat

lemma testBit_eq (x : ℤ) (i : ℕ) : x.testBit i = decide (x / 2 ^ i % 2 = 1) := by
  cases x with
  | ofNat m =>
    have h : (Int.ofNat m) / 2 ^ i = ((m / 2 ^ i : ℕ) : ℤ) := by rfl
    show m.testBit i = _
    rw [Nat.testBit_eq_decide_div_mod_eq]
    refine decide_eq_decide.2 ?_
    omega
  | negSucc m =>
    have h : (negSucc m) / 2 ^ i = -((m / 2 ^ i : ℕ) : ℤ) - 1 := by
      have hdiv : (m : ℤ).ediv (2 ^ i) = ((m / 2 ^ i : ℕ) : ℤ) := by rfl
      rw [negSucc_ediv _ (by positivity)]
      omega
    show (!m.testBit i) = _
    rw [testBit_eq_decide_div_mod_eq, ← decide_not]
    refine decide_eq_decide.2 ?_
    omega

/-- An integer is determined by its bits. -/
lemma ext {x y : ℤ} (h : ∀ i, x.testBit i = y.testBit i) : x = y := by
  -- a natural number and a negative one differ in some high bit
  have key : ∀ m n : ℕ, ¬∀ i, m.testBit i = !n.testBit i := by
    intro m n hi
    have := hi (m + n)
    rw [testBit_lt_two_pow, testBit_lt_two_pow] at this
    · cases this
    · exact lt_of_le_of_lt (le_add_left n m) Nat.lt_two_pow_self
    · exact lt_of_le_of_lt (le_add_right m n) Nat.lt_two_pow_self
  cases x with
  | ofNat m =>
    cases y with
    | ofNat n => exact congrArg Int.ofNat (Nat.eq_of_testBit_eq h)
    | negSucc n => exact absurd h (key m n)
  | negSucc m =>
    cases y with
    | ofNat n => exact absurd (fun i => (h i).symm) (key n m)
    | negSucc n => exact congrArg negSucc (eq_of_testBit_eq fun i => not_inj (h i))

@[simp] lemma testBit_zero (i : ℕ) : (0 : ℤ).testBit i = false := zero_testBit i

@[simp] lemma testBit_neg_one (i : ℕ) : (-1 : ℤ).testBit i = true := by
  show (!(0 : ℕ).testBit i) = true
  simp

lemma two_pow_pos (n : ℕ) : (0 : ℤ) < 2 ^ n := by positivity

variable (x : ℤ)

lemma testBit_shiftRight (k i : ℕ) : (x / 2 ^ k).testBit i = x.testBit (k + i) := by
  rw [testBit_eq, testBit_eq, ediv_ediv_of_nonneg (two_pow_pos k).le, ← pow_add]

lemma testBit_shiftLeft (k i : ℕ) :
    (x * 2 ^ k).testBit i = (decide (k ≤ i) && x.testBit (i - k)) := by
  by_cases h : k ≤ i
  · obtain ⟨j, rfl⟩ := Nat.exists_eq_add_of_le h
    rw [testBit_eq, testBit_eq, pow_add, mul_comm x]
    simp
  · obtain ⟨j, rfl⟩ := Nat.exists_eq_add_of_le (Nat.le_of_not_le h)
    have hj : j ≠ 0 := by
      rintro rfl
      exact h le_rfl
    obtain ⟨m, rfl⟩ := exists_eq_succ_of_ne_zero hj
    have hx : x * 2 ^ (i + m.succ) = 2 ^ i * (2 * (x * 2 ^ m)) := by
      rw [pow_add, pow_succ]
      ring
    rw [testBit_eq, hx]
    simp

/-- The low `n` bits. -/
lemma testBit_mod (n i : ℕ) : (x % 2 ^ n).testBit i = (decide (i < n) && x.testBit i) := by
  by_cases h : i < n
  · obtain ⟨j, rfl⟩ := Nat.exists_eq_add_of_lt h
    have hmod : x % 2 ^ (i + j + 1) = x - 2 ^ i * (2 * (2 ^ j * (x / 2 ^ (i + j + 1)))) := by
      rw [emod_def]
      ring
    have hdiv : (x - 2 ^ i * (2 * (2 ^ j * (x / 2 ^ (i + j + 1))))) / 2 ^ i =
        x / 2 ^ i - 2 * (2 ^ j * (x / 2 ^ (i + j + 1))) := by
      rw [sub_eq_add_neg, ← mul_neg, add_mul_ediv_left _ _ (two_pow_pos i).ne', sub_eq_add_neg]
    rw [testBit_eq, testBit_eq, hmod, hdiv]
    simp [h]
  · have hle : (2 : ℤ) ^ n ≤ 2 ^ i := pow_le_pow_right₀ (by norm_num) (Nat.le_of_not_lt h)
    have h0 := emod_nonneg x (two_pow_pos n).ne'
    have h1 := emod_lt_of_pos x (two_pow_pos n)
    rw [testBit_eq, ediv_eq_zero_of_lt h0 (lt_of_lt_of_le h1 hle)]
    simp [h]

/-! ## Windows -/

/-- Bits `lo, …, lo + n - 1` of `x`, read as a non-negative number. -/
def window (lo n : ℕ) : ℤ := x / 2 ^ lo % 2 ^ n

lemma window_nonneg (lo n : ℕ) : 0 ≤ window x lo n := emod_nonneg _ (two_pow_pos n).ne'

lemma window_lt (lo n : ℕ) : window x lo n < 2 ^ n := emod_lt_of_pos _ (two_pow_pos n)

lemma testBit_window (lo n i : ℕ) :
    (window x lo n).testBit i = (decide (i < n) && x.testBit (lo + i)) := by
  rw [window, testBit_mod, testBit_shiftRight]

variable (a : ℤ) (lo n : ℕ) (v : ℤ)

/-- Bits `lo, …, lo + n - 1` of `a` replaced by the low `n` bits of `v`. -/
def splice : ℤ := a + (v % 2 ^ n - window a lo n) * 2 ^ lo

lemma splice_mod : splice a lo n v % 2 ^ lo = a % 2 ^ lo := by
  rw [splice, add_mul_emod_self_right]

lemma splice_div : splice a lo n v / 2 ^ lo = a / 2 ^ lo / 2 ^ n * 2 ^ n + v % 2 ^ n := by
  have h := mul_ediv_add_emod (a / 2 ^ lo) (2 ^ n)
  rw [splice, add_mul_ediv_right _ _ (two_pow_pos lo).ne', window]
  linarith

lemma testBit_splice (i : ℕ) : (splice a lo n v).testBit i = if lo ≤ i ∧ i < lo + n then
    v.testBit (i - lo) else a.testBit i := by
  by_cases hlo : i < lo
  · have h := testBit_mod (splice a lo n v) lo i
    rw [splice_mod, testBit_mod] at h
    simp only [hlo, decide_true, Bool.true_and] at h
    rw [if_neg (by omega), h]
  · obtain ⟨j, rfl⟩ := Nat.exists_eq_add_of_le (Nat.le_of_not_lt hlo)
    rw [← testBit_shiftRight, splice_div, ← testBit_shiftRight]
    by_cases hn : j < n
    · have h := testBit_mod (a / 2 ^ lo / 2 ^ n * 2 ^ n + v % 2 ^ n) n j
      rw [add_comm, add_mul_emod_self_right, emod_emod, testBit_mod] at h
      simpa [hn, add_comm] using h.symm
    · rw [if_neg (by omega)]
      obtain ⟨k, rfl⟩ := Nat.exists_eq_add_of_le (Nat.le_of_not_lt hn)
      have h0 := emod_nonneg v (two_pow_pos n).ne'
      have h1 := emod_lt_of_pos v (two_pow_pos n)
      rw [← testBit_shiftRight, ← testBit_shiftRight _ n k, add_comm,
        add_mul_ediv_right _ _ (two_pow_pos n).ne', ediv_eq_zero_of_lt h0 h1, zero_add]

/-! ## Sign extension -/

variable (x : ℤ) (b : ℕ)

/-- The low `b` bits, sign-extended from bit `b - 1`. -/
def sext : ℤ := (x + 2 ^ (b - 1)) % 2 ^ b - 2 ^ (b - 1)

lemma sext_mod : sext x b % 2 ^ b = x % 2 ^ b := by
  rw [sext]
  simp

lemma sext_lower : -2 ^ (b - 1) ≤ sext x b := by
  have := emod_nonneg (x + 2 ^ (b - 1)) (two_pow_pos b).ne'
  rw [sext]
  linarith

lemma sext_upper (x : ℤ) {b : ℕ} (hb : 1 ≤ b) : sext x b < 2 ^ (b - 1) := by
  have := emod_lt_of_pos (x + 2 ^ (b - 1)) (two_pow_pos b)
  obtain ⟨c, rfl⟩ := Nat.exists_eq_add_of_le' hb
  rw [sext]
  simp only [Nat.add_sub_cancel] at this ⊢
  rw [pow_succ] at this ⊢
  linarith

/-- A value of the signed range is its own extension. -/
lemma sext_of_bounds {x : ℤ} {b : ℕ} (hb : 1 ≤ b) (hlo : -2 ^ (b - 1) ≤ x)
    (hhi : x < 2 ^ (b - 1)) : sext x b = x := by
  obtain ⟨c, rfl⟩ := Nat.exists_eq_add_of_le' hb
  simp only [sext, Nat.add_sub_cancel] at *
  rw [emod_eq_of_lt (by linarith) (by rw [pow_succ]; linarith)]
  ring

/-- The bits of a value that fits `n` bits in two's complement repeat its sign. -/
lemma testBit_of_bounds {x : ℤ} {n : ℕ} (hlo : -2 ^ n ≤ x) (hhi : x < 2 ^ n) {i : ℕ} (hi : n ≤ i) :
    x.testBit i = decide (x < 0) := by
  have hle : (2 : ℤ) ^ n ≤ 2 ^ i := pow_le_pow_right₀ (by norm_num) hi
  rw [testBit_eq]
  by_cases hx : x < 0
  · have hdiv : x / 2 ^ i = -1 := by
      rw [ediv_eq_iff_of_pos (two_pow_pos i)]
      constructor <;> linarith
    rw [hdiv]
    simp [hx]
  · rw [ediv_eq_zero_of_lt (by linarith) (by linarith)]
    simp [hx]

lemma testBit_sext (x : ℤ) {b : ℕ} (hb : 1 ≤ b) (i : ℕ) :
    (sext x b).testBit i = x.testBit (min i (b - 1)) := by
  have low : ∀ j < b, (sext x b).testBit j = x.testBit j := by
    intro j hj
    have h := testBit_mod (sext x b) b j
    rw [sext_mod x b, testBit_mod] at h
    simpa [hj] using h.symm
  by_cases hi : i < b
  · rw [low i hi]
    congr 1
    omega
  · have hsi : ∀ j, b - 1 ≤ j → (sext x b).testBit j = decide (sext x b < 0) := fun j hj =>
      testBit_of_bounds (sext_lower x b) (sext_upper x hb) hj
    rw [hsi i (by omega), ← hsi (b - 1) le_rfl, low (b - 1) (by omega)]
    congr 1
    omega

/-! ## Ranges and bits -/

lemma lt_two_pow_iff {x : ℤ} (hx : 0 ≤ x) {n : ℕ} : x < 2 ^ n ↔
    ∀ i, n ≤ i → x.testBit i = false := by
  constructor
  · intro h i hi
    rw [testBit_of_bounds (by have := two_pow_pos n; linarith) h hi]
    simpa using hx
  · intro h
    have hmod : x % 2 ^ n = x := by
      refine ext fun i => ?_
      rw [testBit_mod]
      by_cases hi : i < n
      · simp [hi]
      · simp [h i (Nat.le_of_not_lt hi)]
    rw [← hmod]
    exact emod_lt_of_pos _ (two_pow_pos n)

section

variable {x y : ℤ} (h : ∀ i, ¬(x.testBit i = true ∧ y.testBit i = true))
include h

/-- Summands without a common bit do not carry. -/
lemma add_div_of_disjoint (n : ℕ) : (x + y) / 2 ^ n = x / 2 ^ n + y / 2 ^ n := by
  induction n with
  | zero => simp
  | succ n ih =>
    have hn := h n
    rw [testBit_eq, testBit_eq, decide_eq_true_eq, decide_eq_true_eq] at hn
    rw [pow_succ, ← ediv_ediv_of_nonneg (two_pow_pos n).le,
      ← ediv_ediv_of_nonneg (two_pow_pos n).le, ← ediv_ediv_of_nonneg (two_pow_pos n).le, ih]
    omega

lemma testBit_add_of_disjoint (i : ℕ) : (x + y).testBit i = (x.testBit i || y.testBit i) := by
  have hi := h i
  rw [testBit_eq, testBit_eq] at hi
  rw [testBit_eq, testBit_eq, testBit_eq, add_div_of_disjoint h, ← decide_or]
  refine decide_eq_decide.2 ?_
  simp only [decide_eq_true_eq] at hi
  omega

end

/-! ## How the operations compose -/

variable (x : ℤ)

lemma testBit_not (i : ℕ) : (-x - 1).testBit i = !x.testBit i := by
  have h : -x - 1 = lnot x := by
    cases x with
    | ofNat m => simp [lnot]; omega
    | negSucc m => simp [lnot]
  rw [h, testBit_lnot]

lemma window_window (a n c m : ℕ) :
    window (window x a n) c m = window x (a + c) (min m (n - c)) := by
  refine ext fun i => ?_
  simp only [testBit_window]
  grind

lemma window_shiftLeft_of_le {s lo : ℕ} (h : s ≤ lo) (n : ℕ) :
    window (x * 2 ^ s) lo n = window x (lo - s) n := by
  refine ext fun i => ?_
  simp only [testBit_window, testBit_shiftLeft]
  grind

lemma window_shiftLeft_straddle {s lo n : ℕ} (h : lo ≤ s) :
    window (x * 2 ^ s) lo n = window x 0 (lo + n - s) * 2 ^ (s - lo) := by
  refine ext fun i => ?_
  simp only [testBit_window, testBit_shiftLeft]
  grind

lemma window_shiftRight (s lo n : ℕ) : window (x / 2 ^ s) lo n = window x (s + lo) n := by
  refine ext fun i => ?_
  simp only [testBit_window, testBit_shiftRight]
  grind

variable (a v : ℤ) {slo sn lo n : ℕ}

lemma window_splice_outside (h : lo + n ≤ slo ∨ slo + sn ≤ lo) :
    window (splice a slo sn v) lo n = window a lo n := by
  refine ext fun i => ?_
  simp only [testBit_window, testBit_splice]
  grind

lemma window_splice_inside (h1 : slo ≤ lo) (h2 : lo + n ≤ slo + sn) :
    window (splice a slo sn v) lo n = window v (lo - slo) n := by
  refine ext fun i => ?_
  simp only [testBit_window, testBit_splice]
  grind

lemma splice_splice_of_cover (a v w : ℤ) {lo n lo' n' : ℕ} (h1 : lo' ≤ lo)
    (h2 : lo + n ≤ lo' + n') :
    splice (splice a lo n v) lo' n' w = splice a lo' n' w := by
  refine ext fun i => ?_
  simp only [testBit_splice]
  grind

lemma splice_window_self (a : ℤ) (lo n : ℕ) : splice a lo n (window a lo n) = a := by
  rw [splice, window, emod_emod, sub_self, zero_mul, add_zero]

variable (x : ℤ)

lemma sext_sext {a b : ℕ} (ha : 1 ≤ a) (hb : 1 ≤ b) : sext (sext x a) b = sext x (min a b) := by
  refine ext fun i => ?_
  rw [testBit_sext _ hb, testBit_sext _ ha, testBit_sext _ (by omega)]
  congr 1
  omega

lemma sext_window {b n : ℕ} (hb : 1 ≤ b) (h : b ≤ n) : sext (window x 0 n) b = sext x b := by
  refine ext fun i => ?_
  rw [testBit_sext _ hb, testBit_sext _ hb, testBit_window]
  grind

lemma window_sext {b lo n : ℕ} (hb : 1 ≤ b) (h : lo + n ≤ b) :
    window (sext x b) lo n = window x lo n := by
  refine ext fun i => ?_
  rw [testBit_window, testBit_sext _ hb, testBit_window]
  grind

lemma window_not_window {n m : ℕ} (h : m ≤ n) :
    window (-window x 0 n - 1) 0 m = window (-x - 1) 0 m := by
  refine ext fun i => ?_
  simp only [testBit_window, testBit_not]
  grind

/-- A value `y` of `n` bits below `x`. -/
lemma testBit_append {y : ℤ} {n : ℕ} (h0 : 0 ≤ y) (hn : y < 2 ^ n) (i : ℕ) :
    (x * 2 ^ n + y).testBit i = if i < n then y.testBit i else x.testBit (i - n) := by
  by_cases hi : i < n
  · have h := testBit_mod (x * 2 ^ n + y) n i
    rw [add_comm, add_mul_emod_self_right, emod_eq_of_lt h0 hn] at h
    simpa [hi, add_comm] using h.symm
  · obtain ⟨j, rfl⟩ := Nat.exists_eq_add_of_le (Nat.le_of_not_lt hi)
    rw [← testBit_shiftRight, add_comm, add_mul_ediv_right _ _ (two_pow_pos n).ne',
      ediv_eq_zero_of_lt h0 hn, zero_add]
    simp

lemma window_append (lo n m : ℕ) :
    window x (lo + n) m * 2 ^ n + window x lo n = window x lo (n + m) := by
  refine ext fun i => ?_
  rw [testBit_append _ (window_nonneg _ _ _) (window_lt _ _ _)]
  simp only [testBit_window]
  grind

/-- A window at or above the range of a value. -/
lemma window_of_lt {x : ℤ} {lo : ℕ} (h0 : 0 ≤ x) (h : x < 2 ^ lo) (n : ℕ) : window x lo n = 0 := by
  rw [window, ediv_eq_zero_of_lt h0 h, zero_emod]

lemma window_zero_of_lt {x : ℤ} {n : ℕ} (h0 : 0 ≤ x) (h : x < 2 ^ n) : window x 0 n = x := by
  rw [window, pow_zero, ediv_one, emod_eq_of_lt h0 h]

lemma natCast_testBit (m i : ℕ) : (m : ℤ).testBit i = m.testBit i := rfl

/-- The low `n` bits are zero. -/
lemma dvd_two_pow_iff {x : ℤ} {n : ℕ} : 2 ^ n ∣ x ↔ ∀ i < n, x.testBit i = false := by
  rw [dvd_iff_emod_eq_zero]
  constructor
  · intro h i hi
    have := testBit_mod x n i
    rw [h] at this
    simpa [hi] using this.symm
  · intro h
    refine ext fun i => ?_
    rw [testBit_mod]
    by_cases hi : i < n
    · simp [h i hi]
    · simp [hi]

/-- A value all of whose bits another has is at most the other. -/
lemma le_of_testBit {x y : ℤ} (hx : 0 ≤ x) (hy : 0 ≤ y)
    (h : ∀ i, x.testBit i = true → y.testBit i = true) : x ≤ y := by
  lift x to ℕ using hx
  lift y to ℕ using hy
  have hand : x &&& y = x := by
    refine eq_of_testBit_eq fun i => ?_
    rw [testBit_and]
    cases hi : x.testBit i with
    | false => rfl
    | true => exact h i hi
  have := and_le_right (n := x) (m := y)
  rw [hand] at this
  exact_mod_cast this

lemma nonneg_of_testBit {x : ℤ} {n : ℕ} (h : ∀ i, n ≤ i → x.testBit i = false) : 0 ≤ x := by
  cases x with
  | ofNat m => exact natCast_nonneg m
  | negSucc m =>
    have hbit := h (m + n) (le_add_left n m)
    have hlow : m.testBit (m + n) = false :=
      testBit_lt_two_pow (lt_of_le_of_lt (le_add_right m n) Nat.lt_two_pow_self)
    change (!m.testBit (m + n)) = false at hbit
    rw [hlow] at hbit
    cases hbit

/-- Bits that repeat one sign from `n` on bound the value. -/
lemma bounds_of_testBit {x : ℤ} {n : ℕ} {s : Bool} (h : ∀ i, n ≤ i → x.testBit i = s) :
    -2 ^ n ≤ x ∧ x < 2 ^ n := by
  have hpos := two_pow_pos n
  cases s with
  | false =>
    have h0 := nonneg_of_testBit h
    exact ⟨by linarith, (lt_two_pow_iff h0).2 h⟩
  | true =>
    have hnot : ∀ i, n ≤ i → (-x - 1).testBit i = false := fun i hi => by
      rw [testBit_not, h i hi]; rfl
    have h0 := nonneg_of_testBit hnot
    have h1 := (lt_two_pow_iff h0).2 hnot
    exact ⟨by linarith, by linarith⟩

section

variable {f : Bool → Bool → Bool} {x y z : ℤ} {n : ℕ}
  (hz : ∀ i, z.testBit i = f (x.testBit i) (y.testBit i))
include hz

/-- A bitwise result of two values of one signed width has this width. -/
lemma bitwise_bounds (hx : -2 ^ n ≤ x ∧ x < 2 ^ n) (hy : -2 ^ n ≤ y ∧ y < 2 ^ n) :
    -2 ^ n ≤ z ∧ z < 2 ^ n := by
  have hsi : ∀ i, n ≤ i → z.testBit i = f (decide (x < 0)) (decide (y < 0)) := by
    intro i hi
    rw [hz, testBit_of_bounds hx.1 hx.2 hi, testBit_of_bounds hy.1 hy.2 hi]
  exact bounds_of_testBit hsi

lemma bitwise_lt_two_pow (hf : f false false = false) (hx : 0 ≤ x ∧ x < 2 ^ n)
    (hy : 0 ≤ y ∧ y < 2 ^ n) : 0 ≤ z ∧ z < 2 ^ n := by
  have hbit : ∀ i, n ≤ i → z.testBit i = false := by
    intro i hi
    rw [hz, (lt_two_pow_iff hx.1).1 hx.2 i hi, (lt_two_pow_iff hy.1).1 hy.2 i hi, hf]
  have h0 := nonneg_of_testBit hbit
  exact ⟨h0, (lt_two_pow_iff h0).2 hbit⟩

end

lemma exists_lt_two_pow (x : ℤ) : ∃ n : ℕ, x < 2 ^ n :=
  ⟨x.toNat, lt_of_le_of_lt (self_le_toNat x) (by exact_mod_cast Nat.lt_two_pow_self)⟩

/-- What a value keeps of a nonnegative one is between zero and it. -/
lemma land_bounds {x : ℤ} (hx : 0 ≤ x) (y : ℤ) : 0 ≤ land x y ∧ land x y ≤ x := by
  obtain ⟨n, hn⟩ := exists_lt_two_pow x
  have h0 : 0 ≤ land x y := nonneg_of_testBit fun i (hi : n ≤ i) => by
    rw [Int.testBit_land, (lt_two_pow_iff hx).1 hn i hi, Bool.false_and]
  refine ⟨h0, le_of_testBit h0 hx fun i hi => ?_⟩
  rw [Int.testBit_land, Bool.and_eq_true] at hi
  exact hi.1

lemma le_lor_left {x y : ℤ} (hx : 0 ≤ x) (hy : 0 ≤ y) : x ≤ lor x y := by
  obtain ⟨n, hn⟩ := exists_lt_two_pow (max x y)
  have h0 := (bitwise_lt_two_pow (Int.testBit_lor x y) rfl ⟨hx, (le_max_left _ _).trans_lt hn⟩
    ⟨hy, (le_max_right _ _).trans_lt hn⟩).1
  exact le_of_testBit hx h0 fun i hi => by rw [Int.testBit_lor, hi, Bool.true_or]

lemma testBit_mask (n i : ℕ) : (2 ^ n - 1 : ℤ).testBit i = decide (i < n) := by
  have h : (-1 : ℤ) % 2 ^ n = 2 ^ n - 1 := by
    have := two_pow_pos n
    rw [← add_mul_emod_self_left (-1) (2 ^ n) 1, emod_eq_of_lt (by omega) (by omega)]
    ring
  rw [← h, testBit_mod, testBit_neg_one, Bool.and_true]

/-- The mask of the bits `lo ≤ i < hi`. -/
lemma testBit_mask_sub {lo hi : ℕ} (h : lo ≤ hi) (i : ℕ) :
    (2 ^ hi - 2 ^ lo : ℤ).testBit i = decide (lo ≤ i ∧ i < hi) := by
  obtain ⟨n, rfl⟩ := Nat.exists_eq_add_of_le h
  rw [show (2 ^ (lo + n) - 2 ^ lo : ℤ) =
    (2 ^ n - 1) * 2 ^ lo by rw [pow_add]; ring, testBit_shiftLeft, testBit_mask]
  grind

variable (x : ℤ)

lemma land_mask (n : ℕ) : land x (2 ^ n - 1) = x % 2 ^ n := by
  refine ext fun i => ?_
  rw [Int.testBit_land, testBit_mask, testBit_mod, Bool.and_comm]

lemma window_zero (n : ℕ) : window x 0 n = x % 2 ^ n := by
  rw [window, pow_zero, ediv_one]

lemma land_neg_one : land x (-1) = x := by
  refine ext fun i => ?_
  rw [Int.testBit_land, testBit_neg_one, Bool.and_true]

lemma neg_one_land : land (-1) x = x := by
  refine ext fun i => ?_
  rw [Int.testBit_land, testBit_neg_one, Bool.true_and]

lemma zero_lor : lor 0 x = x := by
  refine ext fun i => ?_
  rw [Int.testBit_lor, testBit_zero, Bool.false_or]

lemma zero_xor : Int.xor 0 x = x := by
  refine ext fun i => ?_
  rw [testBit_lxor, testBit_zero, false_xor]

end LiveHD.IntBits
