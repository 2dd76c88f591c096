import LiveHD.Lib.IntBits

/-!
# The constant expressions of the rule language

`rulegen/rule_expr.hpp`: `int64_t` values with checked arithmetic.  An overflow, a
negative shift amount or any other undefined result is not `ok` (`none`), and a
guard or `:let` that is not `ok` does not match.
-/

namespace LiveHD.Aegraph

/-- The range of `int64_t`. -/
def isI64 (v : ℤ) : Bool := decide (-2 ^ 63 ≤ v) && decide (v < 2 ^ 63)

/-- A checked `int64_t`: `none` is not `ok`. -/
abbrev Num := Option ℤ

namespace Num

/-- `v` where it is defined. -/
def guard (p : Prop) [Decidable p] (v : ℤ) : Num := if p then some v else none

/-- A result that may overflow. -/
@[simp] def checked (v : ℤ) : Num := guard (isI64 v = true) v

def flag (b : Bool) : Num := some (if b then 1 else 0)

/-- `holds`: ok and nonzero. -/
def holds (n : Num) : Bool := match n with
  | some v => v != 0
  | none => false

end Num

/-- The builtins of one argument. -/
inductive Fn1 where
  | neg | log2 | pow2p | popcount | maskOf | lnot | abs | pow2 | clog2
deriving DecidableEq

/-- The builtins of two arguments; the n-ary ones fold pairwise from the left. -/
inductive Fn2 where
  | add | sub | mul | min | max | lt | le | gt | ge | eq | land | lor | band | div
deriving DecidableEq

/-- Bit length of a positive number: `64 - countl_zero`. -/
def bitLength (a : ℤ) : ℕ := a.toNat.log2 + 1

@[simp] def Fn1.apply : Fn1 → ℤ → Num
  | .neg, a => Num.checked (0 - a)
  | .log2, a => Num.guard (0 < a) (bitLength a - 1 : ℕ)
  | .pow2p, a => Num.flag (decide (0 < a) && Int.land a (a - 1) == 0)
  | .popcount, a => Num.guard (0 ≤ a) ((List.range 64).countP a.testBit)
  | .maskOf, a => Num.guard (0 ≤ a ∧ a ≤ 62) (2 ^ a.toNat - 1)
  | .lnot, a => Num.flag (a == 0)
  | .abs, a => if a < 0 then Num.checked (0 - a) else some a
  | .pow2, a => Num.guard (0 ≤ a ∧ a ≤ 62) (2 ^ a.toNat)
  | .clog2, a => Num.guard (1 ≤ a) (if a = 1 then 0 else bitLength (a - 1))

@[simp] def Fn2.apply : Fn2 → ℤ → ℤ → Num
  | .add, a, b => Num.checked (a + b)
  | .sub, a, b => Num.checked (a - b)
  | .mul, a, b => Num.checked (a * b)
  | .min, a, b => some (if a < b then a else b)
  | .max, a, b => some (if a > b then a else b)
  | .lt, a, b => Num.flag (decide (a < b))
  | .le, a, b => Num.flag (decide (a ≤ b))
  | .gt, a, b => Num.flag (decide (a > b))
  | .ge, a, b => Num.flag (decide (a ≥ b))
  | .eq, a, b => Num.flag (a == b)
  | .land, a, b => Num.flag (a != 0 && b != 0)
  | .lor, a, b => Num.flag (a != 0 || b != 0)
  | .band, a, b => some (Int.land a b)
  | .div, a, b => Num.guard (b ≠ 0 ∧ ¬(a = -2 ^ 63 ∧ b = -1)) (a.tdiv b)

/-- A constant expression. -/
inductive Expr where
  | lit (v : ℤ)
  | var (c : String)
  | fn1 (f : Fn1) (a : Expr)
  | fn2 (f : Fn2) (a b : Expr)
deriving DecidableEq

namespace Expr

instance : Coe String Expr := ⟨var⟩

instance (n : ℕ) : OfNat Expr n := ⟨lit n⟩

variable (a b : Expr)

@[simp] lemma ofNat_eq (n : ℕ) : (OfNat.ofNat n : Expr) = lit n := rfl

@[simp] def log2 : Expr := fn1 .log2 a
@[simp] def clog2 : Expr := fn1 .clog2 a
@[simp] def pow2 : Expr := fn1 .pow2 a
@[simp] def maskOf : Expr := fn1 .maskOf a
@[simp] def add : Expr := fn2 .add a b
@[simp] def sub : Expr := fn2 .sub a b
@[simp] def min : Expr := fn2 .min a b
@[simp] def band : Expr := fn2 .band a b
@[simp] def div : Expr := fn2 .div a b

end Expr

/-- The value of an expression, strict in `ok`. -/
def Expr.eval (const : String → ℤ) : Expr → Num
  | .lit v => some v
  | .var c => some (const c)
  | .fn1 f a => (a.eval const).bind f.apply
  | .fn2 f a b => (a.eval const).bind fun x => (b.eval const).bind fun y => f.apply x y

/-! ## What the checked builtins compute -/

namespace Num

section

variable {p : Prop} [Decidable p] {v : ℤ}

lemma guard_of (h : p) : guard p v = some v := if_pos h

@[simp] lemma isSome_guard : Option.isSome (guard p v) = decide p := by
  unfold guard
  split <;> simp_all

@[simp] lemma guard_bind_eq_some {α : Type*} {f : ℤ → Option α} {w : α} :
    (guard p v).bind f = some w ↔ p ∧ f v = some w := by
  unfold guard
  split <;> simp_all

@[simp] lemma isSome_guard_bind {f : ℤ → Num} :
    ((guard p v).bind f).isSome = (decide p && (f v).isSome) := by
  unfold guard
  split <;> simp_all

@[simp] lemma holds_guard_bind {f : ℤ → Num} :
    holds ((guard p v).bind f) = (decide p && holds (f v)) := by
  unfold guard
  split <;> simp_all [holds]

end

@[simp] lemma holds_flag (b : Bool) : holds (flag b) = b := by
  cases b <;> rfl

@[simp] lemma flag_bind (b : Bool) (f : ℤ → Num) : (flag b).bind f = f (if b then 1 else 0) := rfl

@[simp] lemma holds_none : holds none = false := rfl

end Num

lemma bitLength_le {a : ℤ} (ha : 0 < a) : 2 ^ (bitLength a - 1) ≤ a := by
  have hne : a.toNat ≠ 0 := by omega
  have := Nat.log2_self_le hne
  have hca : ((2 ^ (a.toNat.log2) : ℕ) : ℤ) ≤ (a.toNat : ℤ) := by exact_mod_cast this
  rw [bitLength, Nat.add_sub_cancel]
  push_cast at hca
  omega

lemma lt_two_pow_bitLength {a : ℤ} (ha : 0 < a) : a < 2 ^ bitLength a := by
  have := Nat.lt_log2_self (n := a.toNat)
  have hca : (a.toNat : ℤ) < ((2 ^ (a.toNat.log2 + 1) : ℕ) : ℤ) := by exact_mod_cast this
  rw [bitLength]
  push_cast at hca
  omega

/-- A power of two, as `pow2?` tests it. -/
lemma eq_two_pow_of_land {a : ℤ} (ha : 0 < a) (h : Int.land a (a - 1) = 0) :
    a = 2 ^ (bitLength a - 1) := by
  set n := bitLength a - 1 with hn
  have hlo : 2 ^ n ≤ a := bitLength_le ha
  have hhi : a < 2 ^ (n + 1) := by
    have := lt_two_pow_bitLength ha
    rwa [show bitLength a = n + 1 by rw [hn, bitLength]; rfl] at this
  -- below the leading bit, `a` and `a - 1` share it unless `a` is that bit alone
  by_contra hne
  have hlo' : 2 ^ n ≤ a - 1 := by omega
  have top : ∀ x : ℤ, 2 ^ n ≤ x → x < 2 ^ (n + 1) → x.testBit n = true := by
    intro x h1 h2
    have hdiv : x / 2 ^ n = 1 := by
      rw [Int.ediv_eq_iff_of_pos (IntBits.two_pow_pos n)]
      constructor
      · linarith
      · rw [pow_succ] at h2
        linarith
    rw [IntBits.testBit_eq, hdiv]
    rfl
  have := congrArg (fun x : ℤ => x.testBit n) h
  simp only [Int.testBit_land, top a hlo hhi, top (a - 1) hlo' (by omega),
    IntBits.testBit_zero] at this
  cases this

end LiveHD.Aegraph
