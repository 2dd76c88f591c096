import Mathlib

/-!
# Carry chains

The carry into each position of a sum of two bit strings is `carry`; a run of positions has a
*span*, whether it generates and whether it propagates a carry.  Spans of adjacent runs compose
(`span_add`) and give the carries (`carry_span`).
-/

namespace LiveHD.Carry

open Bool Finset Nat

/-- The number with bits `x 0, …, x (n - 1)`, least significant first. -/
def bitsVal (x : ℕ → Bool) (n : ℕ) : ℕ := ∑ i ∈ Finset.range n, 2 ^ i * (x i).toNat

@[simp] lemma bitsVal_zero (x : ℕ → Bool) : bitsVal x 0 = 0 := rfl

lemma bitsVal_succ (x : ℕ → Bool) (n : ℕ) : bitsVal x (n + 1) = bitsVal x n + 2 ^ n * (x n).toNat :=
  sum_range_succ _ n

lemma bitsVal_congr {x y : ℕ → Bool} {n : ℕ} (h : ∀ i < n, x i = y i) : bitsVal x n = bitsVal y n :=
  sum_congr rfl fun i hi => by rw [h i (mem_range.1 hi)]

lemma bitsVal_lt (x : ℕ → Bool) (n : ℕ) : bitsVal x n < 2 ^ n := by
  induction n with
  | zero => exact Nat.one_pos
  | succ n ih =>
    have hb : (x n).toNat ≤ 1 := toNat_le _
    have hm : 2 ^ n * (x n).toNat ≤ 2 ^ n * 1 := mul_le_mul_left _ hb
    rw [bitsVal_succ, pow_succ]
    omega

/-- Bits that are all clear from `n` on add nothing. -/
lemma bitsVal_of_le {x : ℕ → Bool} {n m : ℕ} (hnm : n ≤ m) (h : ∀ i, n ≤ i → x i = false) :
    bitsVal x m = bitsVal x n := by
  refine (sum_subset (range_mono hnm) fun i _ hi => ?_).symm
  rw [h i (Nat.le_of_not_lt fun hlt => hi (mem_range.2 hlt))]
  rfl

/-- The low bits are the residue. -/
lemma bitsVal_mod {x : ℕ → Bool} {n m : ℕ} (hnm : n ≤ m) : bitsVal x m % 2 ^ n = bitsVal x n := by
  induction m, hnm using le_induction with
  | base => exact mod_eq_of_lt (bitsVal_lt x n)
  | succ m hnm ih =>
    obtain ⟨k, rfl⟩ := Nat.exists_eq_add_of_le hnm
    rw [bitsVal_succ, pow_add, Nat.mul_assoc, add_mul_mod_self_left, ih]

/-- Complementing `n` bits is subtraction from `2 ^ n - 1`. -/
lemma bitsVal_not (x : ℕ → Bool) (n : ℕ) : bitsVal (fun i => !x i) n + bitsVal x n + 1 = 2 ^ n := by
  induction n with
  | zero => rfl
  | succ n ih =>
    rw [bitsVal_succ, bitsVal_succ, pow_succ]
    cases x n <;> simp only [Bool.not_true, Bool.not_false, toNat_true, toNat_false] <;>
      omega

/-- A run of `k` equal bits from `n` on. -/
lemma bitsVal_fill (x : ℕ → Bool) (b : Bool) (n k : ℕ) (h : ∀ i, n ≤ i → x i = b) :
    bitsVal x (n + k) + 2 ^ n * b.toNat = bitsVal x n + 2 ^ (n + k) * b.toNat := by
  induction k with
  | zero => rfl
  | succ k ih =>
    have hpow : 2 ^ (n + k + 1) * b.toNat = 2 * (2 ^ (n + k) * b.toNat) := by rw [pow_succ]; ring
    rw [← Nat.add_assoc, bitsVal_succ, h _ (le_add_right n k), hpow]
    omega

/-- Bits moved up by `k` places. -/
lemma bitsVal_shift (x : ℕ → Bool) (k n : ℕ) :
    bitsVal (fun i => if k ≤ i then x (i - k) else false) (k + n) = 2 ^ k * bitsVal x n := by
  induction n with
  | zero =>
    refine sum_eq_zero fun i hi => ?_
    have : i < k := by simpa using hi
    simp [Nat.not_le.2 this]
  | succ n ih =>
    rw [← Nat.add_assoc, bitsVal_succ, ih, bitsVal_succ, Nat.mul_add]
    simp [pow_add, Nat.mul_assoc]

lemma bitsVal_testBit (m n : ℕ) : bitsVal m.testBit n = m % 2 ^ n := by
  induction n with
  | zero => simp [mod_one]
  | succ n ih => rw [bitsVal_succ, ih, mod_pow_succ, toNat_testBit]

lemma testBit_bitsVal {x : ℕ → Bool} {n i : ℕ} (hi : i < n) : (bitsVal x n).testBit i = x i := by
  have hmod : bitsVal x n % 2 ^ (i + 1) = bitsVal x i + 2 ^ i * (x i).toNat := by
    rw [bitsVal_mod hi, bitsVal_succ]
  have hbit := testBit_mod_two_pow (bitsVal x n) (i + 1) i
  rw [hmod, decide_eq_true (lt_succ_self i), Bool.true_and, Nat.add_comm] at hbit
  rw [← hbit]
  cases x i with
  | false => simpa using testBit_lt_two_pow (bitsVal_lt x i)
  | true => simpa [testBit_two_pow_add_eq] using testBit_lt_two_pow (bitsVal_lt x i)

/-! ## The carry -/

/-- The carry into position `i` of `x + y + c`. -/
def carry (x y : ℕ → Bool) (c : Bool) : ℕ → Bool
  | 0 => c
  | i + 1 => x i && y i || carry x y c i && (x i ^^ y i)

/-- Bit `i` of `x + y + c`. -/
def sumBit (x y : ℕ → Bool) (c : Bool) (i : ℕ) : Bool := (x i ^^ y i) ^^ carry x y c i

/-- One position of an addition. -/
lemma fullAdder_val (a b c : Bool) :
    ((a ^^ b) ^^ c).toNat + 2 * (a && b || c && (a ^^ b)).toNat = a.toNat + b.toNat + c.toNat := by
  cases a <;> cases b <;> cases c <;> rfl

section

variable (x y : ℕ → Bool) (c : Bool) (n : ℕ)
include x y c n

/-- The sum bits and the last carry are `x + y + c`. -/
lemma sumBit_val : bitsVal (sumBit x y c) n + 2 ^ n * (carry x y c n).toNat =
    bitsVal x n + bitsVal y n + c.toNat := by
  induction n with
  | zero => simp [carry]
  | succ n ih =>
    have h := fullAdder_val (x n) (y n) (carry x y c n)
    have h' := congrArg (2 ^ n * ·) h
    simp only [Nat.mul_add] at h'
    rw [bitsVal_succ, bitsVal_succ, bitsVal_succ, pow_succ, Nat.mul_assoc]
    simp only [carry, sumBit] at h' ih ⊢
    omega

lemma sumBit_mod : bitsVal (sumBit x y c) n = (bitsVal x n + bitsVal y n + c.toNat) % 2 ^ n := by
  rw [← sumBit_val, add_mul_mod_self_left, mod_eq_of_lt (bitsVal_lt _ n)]

lemma carry_testBit : carry x y c n = (bitsVal x n + bitsVal y n + c.toNat).testBit n := by
  have hlt := bitsVal_lt (sumBit x y c) n
  have hdiv : (bitsVal x n + bitsVal y n + c.toNat) / 2 ^ n = (carry x y c n).toNat := by
    rw [← sumBit_val, add_mul_div_left _ _ (Nat.two_pow_pos n), div_eq_of_lt hlt, Nat.zero_add]
  rw [testBit_eq_decide_div_mod_eq, hdiv]
  cases carry x y c n <;> rfl

lemma carry_comm : carry x y c n = carry y x c n := by
  induction n with
  | zero => rfl
  | succ n ih => rw [carry, carry, ih, Bool.and_comm, Bool.xor_comm]

end

lemma carry_congr {x x' y y' : ℕ → Bool} {c : Bool} {n : ℕ} (hx : ∀ i < n, x i = x' i)
    (hy : ∀ i < n, y i = y' i) :
    carry x y c n = carry x' y' c n := by
  rw [carry_testBit, carry_testBit, bitsVal_congr hx, bitsVal_congr hy]

/-- The carry of `~x + y + c` compares. -/
lemma carry_not (x y : ℕ → Bool) (c : Bool) (n : ℕ) :
    carry (fun i => !x i) y c n = decide (bitsVal x n < bitsVal y n + c.toNat) := by
  have hx := bitsVal_not x n
  have hlt := bitsVal_lt y n
  have hc := toNat_le c
  rw [carry_testBit, testBit_eq_decide_div_mod_eq]
  refine decide_eq_decide.2 ?_
  by_cases h : bitsVal x n < bitsVal y n + c.toNat
  · have : (bitsVal (fun i => !x i) n + bitsVal y n + c.toNat) / 2 ^ n = 1 :=
      Nat.div_eq_of_lt_le (by omega) (by omega)
    simp [this, h]
  · rw [div_eq_of_lt (by omega)]
    simp [h]

/-- Three rows compressed to two: the sum bits and the carries, one place up. -/
lemma compress_val (x y z c : ℕ → Bool) (h0 : c 0 = false)
    (hc : ∀ i, c (i + 1) = (x i && y i || z i && (x i ^^ y i))) (n : ℕ) :
    bitsVal (fun i => (x i ^^ y i) ^^ z i) n + bitsVal c
    (n + 1) = bitsVal x n + bitsVal y n + bitsVal z n := by
  induction n with
  | zero => simp [bitsVal_succ, h0]
  | succ n ih =>
    have h := congrArg (2 ^ n * ·) (fullAdder_val (x n) (y n) (z n))
    simp only [Nat.mul_add, ← hc] at h
    rw [bitsVal_succ, bitsVal_succ c, bitsVal_succ x, bitsVal_succ y, bitsVal_succ z,
      pow_succ, Nat.mul_assoc]
    omega

/-! ## Spans -/

/-- Whether a run of positions generates a carry, and whether it propagates one. -/
@[ext] structure Span where
  gen : Bool
  prop : Bool
deriving DecidableEq

namespace Span

/-- The run `hi` directly above the run `lo`. -/
def comp (hi lo : Span) : Span := ⟨hi.gen || hi.prop && lo.gen, hi.prop && lo.prop⟩

/-- What a run makes of an incoming carry. -/
def out (s : Span) (c : Bool) : Bool := s.gen || s.prop && c

lemma comp_assoc (a b c : Span) : (a.comp b).comp c = a.comp (b.comp c) := by
  ext <;> simp only [comp] <;> grind

lemma out_comp (hi lo : Span) (c : Bool) : (hi.comp lo).out c = hi.out (lo.out c) := by
  simp only [out, comp]; grind

@[simp] lemma comp_empty (s : Span) : s.comp ⟨false, true⟩ = s := by ext <;> simp [comp]

@[simp] lemma empty_out (c : Bool) : out ⟨false, true⟩ c = c := by simp [out]

end Span

/-- The span of the `n` positions from `lo` on. -/
def span (f : ℕ → Span) (lo : ℕ) : ℕ → Span
  | 0 => ⟨false, true⟩
  | n + 1 => (f (lo + n)).comp (span f lo n)

@[simp] lemma span_one (f : ℕ → Span) (lo : ℕ) : span f lo 1 = f lo := Span.comp_empty _

/-- Adjacent spans compose. -/
lemma span_add (f : ℕ → Span) (lo m n : ℕ) :
    span f lo (m + n) = (span f (lo + m) n).comp (span f lo m) := by
  induction n with
  | zero => simp [span, Span.comp]
  | succ n ih =>
    rw [← Nat.add_assoc]
    simp only [span]
    rw [ih, Span.comp_assoc, Nat.add_assoc]

/-- The spans of a run, joined from its low end. -/
lemma foldr_range'_span (f : ℕ → Span) (lo n : ℕ) :
    ((List.range' lo n).map f).foldr (fun lo hi => hi.comp lo) ⟨false, true⟩ = span f lo n := by
  induction n generalizing lo with
  | zero => rfl
  | succ n ih =>
    rw [List.range'_succ, List.map_cons, List.foldr_cons, ih, Nat.add_comm n 1, span_add, span_one]

variable (x y : ℕ → Bool)

/-- The span of one position of `x + y`. -/
def spanAt (i : ℕ) : Span := ⟨x i && y i, x i ^^ y i⟩

lemma carry_succ (c : Bool) (i : ℕ) : carry x y c (i + 1) = (spanAt x y i).out (carry x y c i) := by
  simp only [carry, Span.out, spanAt, Bool.and_comm]

/-- A span turns the carry into its low end into the carry out of its high end. -/
lemma carry_span (c : Bool) (lo n : ℕ) :
    carry x y c (lo + n) = (span (spanAt x y) lo n).out (carry x y c lo) := by
  induction n with
  | zero => simp [span]
  | succ n ih => rw [← Nat.add_assoc, carry_succ, ih, span, Span.out_comp]

end LiveHD.Carry
