import Mathlib

/-!
# Numbers in 64-bit words

A list of words, least significant first, with its value and its bits.
-/

namespace LiveHD.Words

open List Nat

abbrev Word := BitVec 64

def value : List Word → ℕ
  | [] => 0
  | w :: ws => w.toNat + 2 ^ 64 * value ws

/-- A bit of a list of words; there are none above it. -/
def bit (ws : List Word) (i : ℕ) : Bool := (ws.getD (i / 64) 0).getLsbD (i % 64)

variable {ws : List Word} {x : ℕ}

@[simp] lemma value_nil : value [] = 0 := rfl

@[simp] lemma value_cons (w : Word) (ws : List Word) :
    value (w :: ws) = w.toNat + 2 ^ 64 * value ws := rfl

lemma value_singleton (w : Word) : value [w] = w.toNat := by
  rw [value_cons, value_nil, Nat.mul_zero, Nat.add_zero]

lemma value_lt (ws : List Word) : value ws < 2 ^ (64 * ws.length) := by
  induction ws with
  | nil => exact Nat.one_pos
  | cons w ws ih =>
    have hw := w.isLt
    rw [value_cons, length_cons, mul_succ, Nat.pow_add, Nat.mul_comm (2 ^ (64 * ws.length))]
    omega

lemma testBit_value (ws : List Word) (i : ℕ) : (value ws).testBit i = bit ws i := by
  induction ws generalizing i with
  | nil => simp [bit]
  | cons w ws ih =>
    rw [value_cons, Nat.add_comm, testBit_two_pow_mul_add _ w.isLt, bit]
    by_cases hi : i < 64
    · rw [if_pos hi, div_eq_of_lt hi, mod_eq_of_lt hi]
      rfl
    · rw [if_neg hi, ih, bit, show i / 64 =
        (i - 64) / 64 + 1 by omega, show i % 64 = (i - 64) % 64 by omega, getD_cons_succ]

/-- A value is known by its bits. -/
lemma value_eq_of_bit (h : ∀ i, bit ws i = x.testBit i) : value ws = x :=
  eq_of_testBit_eq fun i => (testBit_value ws i).trans (h i)

lemma bit_of_le {i : ℕ} (hi : 64 * ws.length ≤ i) : bit ws i = false := by
  rw [bit, getD_eq_default _ _ (by omega)]
  exact BitVec.getLsbD_zero

/-- A value that fits is known by the bits of its words. -/
lemma value_eq_of_bit_lt (hx : x < 2 ^ (64 * ws.length))
    (h : ∀ i < 64 * ws.length, bit ws i = x.testBit i) : value ws = x := by
  refine value_eq_of_bit fun i => ?_
  by_cases hi : i < 64 * ws.length
  · exact h i hi
  · rw [bit_of_le (not_lt.1 hi), testBit_lt_two_pow
      (hx.trans_le (Nat.pow_le_pow_right (by decide) (not_lt.1 hi)))]

/-- Words of a length are known by their value. -/
lemma value_inj {a b : List Word} (hlen : a.length = b.length) (h : value a = value b) : a = b := by
  induction a generalizing b with
  | nil => exact (length_eq_zero_iff.1 hlen.symm).symm
  | cons x a ih =>
    cases b with
    | nil => cases hlen
    | cons y b =>
      have hx := x.isLt
      have hy := y.isLt
      rw [value_cons, value_cons] at h
      have hhe : x.toNat = y.toNat := by omega
      have ht : value a = value b := by omega
      rw [BitVec.eq_of_toNat_eq hhe, ih (succ.inj hlen) ht]

lemma value_append (a b : List Word) :
    value (a ++ b) = value a + 2 ^ (64 * a.length) * value b := by
  induction a with
  | nil => simp
  | cons w a ih =>
    rw [cons_append, value_cons, value_cons, ih, length_cons, mul_succ, Nat.pow_add]
    ring

@[simp] lemma value_replicate_zero (n : ℕ) : value (replicate n 0) = 0 := by
  induction n with
  | zero => rfl
  | succ n ih =>
    rw [replicate_succ, value_cons, ih]
    rfl

lemma bit_replicate_zero (n i : ℕ) : bit (replicate n 0) i = false := by
  rw [← testBit_value, value_replicate_zero, zero_testBit]

/-- The lowest digit stays when the others are taken modulo. -/
lemma digit_mod {x b : ℕ} (hx : x < b) (y m : ℕ) : x + b * (y % m) = (x + b * y) % (b * m) := by
  rw [mod_mul, add_mul_mod_self_left, mod_eq_of_lt hx, add_mul_div_left _ _ (by omega),
    div_eq_of_lt hx, Nat.zero_add]

lemma pow_words_succ (n : ℕ) : 2 ^ (64 * (n + 1)) = 2 ^ 64 * 2 ^ (64 * n) := by
  rw [mul_succ, Nat.pow_add, Nat.mul_comm]

/-- Bits of a list in which one word was changed. -/
lemma bit_modify (ws : List Word) (k : ℕ) (hk : k < ws.length) (f : Word → Word) (i : ℕ) :
    bit (ws.modify k f) i = if i / 64 = k then (f (ws.getD k 0)).getLsbD
    (i % 64) else bit ws i := by
  rw [bit, bit, getD_eq_getElem?_getD, getElem?_modify]
  split
  next heq =>
    subst heq
    rw [if_pos rfl, getD_eq_getElem _ _ hk, getElem?_eq_getElem hk]
    rfl
  next hne =>
    rw [if_neg (Ne.symm hne), getD_eq_getElem?_getD]
    cases ws[i / 64]? <;> rfl

end LiveHD.Words
