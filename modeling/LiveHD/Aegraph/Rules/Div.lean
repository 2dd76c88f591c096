import LiveHD.Aegraph.Rule

/-!
# Division by constants

The rules of `rules/div.rules`.  `Div` and `Rem` truncate toward zero and have no
value at a zero divisor; `x / x` and `x % x` are refined there, every other rule is
exact.  The multiply-shift rules divide by `c` with the magic number
`m = ⌈2 ^ s / c⌉`.
-/

namespace LiveHD.Aegraph

open Function hiding eval
open Int hiding le_of_mul_le_mul_left lt_of_mul_lt_mul_left
open LiveHD.Aegraph.Num hiding flag
open Cell IntBits Option Analysis LiveHD.Aegraph.Expr Guard Rule

def divOne : Rule where
  name := "div_one"
  lhs := .div "x" 1
  rhs := "x"

def remOne : Rule where
  name := "rem_one"
  lhs := .rem "x" 1
  rhs := 0

def divPow2 : Rule where
  name := "div_pow2"
  lhs := .div "x" (.k "c")
  whens := [.pow2p "c", .gt "c" 1, .analysis .nonneg ["x"] []]
  rhs := .sra "x" (.k (.log2 "c"))

def remPow2 : Rule where
  name := "rem_pow2"
  lhs := .rem "x" (.k "c")
  whens := [.pow2p "c", .gt "c" 1, .analysis .nonneg ["x"] []]
  rhs := .getMask "x" 0 (.k (.log2 "c"))

def divShlPow2 : Rule where
  name := "div_shl_pow2"
  lhs := .div "x" (.shl 1 "y")
  whens := [.analysis .nonneg ["x"] [], .analysis .nonneg ["y"] []]
  rhs := .sra "x" "y"

def divPow2Trunc : Rule where
  name := "div_pow2_trunc"
  lhs := .div "x" (.k "c")
  whens := [.pow2p "c", .gt "c" 1]
  rhs := .sra (.sum ["x", .mux (.lt "x" 0) 0 (.k (.sub "c" 1))] none [] none) (.k (.log2 "c"))

/-- The multiply-shift rule for a dividend of `n` bits. -/
def divMulshift (name : String) (n : ℕ) : Rule where
  name := name
  lhs := .div "x" (.k "c")
  lets := [("s", .add (.lit n) (.clog2 "c")), ("m", .div (.add (.pow2 "s") (.sub "c" 1)) "c")]
  whens := [.gt "c" 2, .notPow2p "c", .le "c" 1073741824, .le "s" 62,
    .analysis .fits ["x"] [.lit n]]
  rhs := .sra (.mult ["x", .k "m"]) (.k "s")

def divMulshift8 : Rule := divMulshift "div_mulshift8" 8
def divMulshift16 : Rule := divMulshift "div_mulshift16" 16
def divMulshift31 : Rule := divMulshift "div_mulshift31" 31

def remViaDiv : Rule where
  name := "rem_via_div"
  lhs := .rem "x" (.k "c")
  whens := [.gt "c" 1, .analysis .nonneg ["x"] [], .analysis .fits ["x"] [31]]
  rhs := .getMask (.sum ["x"] none [.mult [.div "x" (.k "c"), .k "c"]] none) 0 (.k (.clog2 "c"))

/-! ## Powers of two -/

lemma divOne_exact : divOne.Exact := by
  refine exact_of_whens rfl fun env hw hok => ?_
  simp [divOne]

lemma remOne_exact : remOne.Exact := by
  refine exact_of_whens rfl fun env hw hok => ?_
  simp [remOne]

lemma divPow2_exact : divPow2.Exact := by
  refine exact_of_whens rfl fun env hw hok => ?_
  simp [divPow2, spec] at hw ⊢
  obtain ⟨⟨hpos, hla⟩, -, hx⟩ := hw
  simp [guard_of hpos, hpos.ne', ← eq_two_pow_of_land hpos hla, tdiv_eq_ediv_of_nonneg hx]

/-- A power of two above one has a positive logarithm. -/
lemma one_le_log2 {c : ℤ} (hc : 1 < c) : 1 ≤ bitLength c - 1 := by
  rw [bitLength, Nat.add_sub_cancel, Nat.le_log2 (by omega)]
  omega

lemma remPow2_exact : remPow2.Exact := by
  refine exact_of_whens rfl fun env hw hok => ?_
  simp [remPow2, spec] at hw ⊢
  obtain ⟨⟨hpos, hla⟩, hc, hx⟩ := hw
  rw [guard_of hpos, evalOp_getMask, bitRange_of le_rfl (by have := one_le_log2 hc; omega)]
  simp [hpos.ne', window_zero, ← eq_two_pow_of_land hpos hla, tmod_eq_emod_of_nonneg hx]

lemma divShlPow2_exact : divShlPow2.Exact := by
  refine exact_of_whens rfl fun env hw hok => ?_
  simp [divShlPow2, spec] at hw ⊢
  obtain ⟨hx, hy⟩ := hw
  simp [hy, tdiv_eq_ediv_of_nonneg hx]

/-- Rounding a negative dividend up makes the floor a truncation. -/
lemma add_pred_ediv_of_neg {x c : ℤ} (hx : x < 0) (hc : 0 < c) : (x + (c - 1)) / c = x.tdiv c := by
  have h : x.tdiv c = -(-x / c) := by
    rw [← tdiv_eq_ediv_of_nonneg (by omega), Int.neg_tdiv, neg_neg]
  have hlo := emod_nonneg (-x) hc.ne'
  have hhi := emod_lt_of_pos (-x) hc
  have hdiv := mul_ediv_add_emod (-x) c
  rw [h, ediv_eq_iff_of_pos hc]
  constructor <;> linarith

lemma divPow2Trunc_exact : divPow2Trunc.Exact := by
  refine exact_of_whens rfl fun env hw hok => ?_
  simp [divPow2Trunc] at hw hok ⊢
  obtain ⟨⟨hpos, hla⟩, -⟩ := hw
  have hc := eq_two_pow_of_land hpos hla
  refine ⟨hpos.ne', ?_⟩
  rw [guard_of hok.1, guard_of hpos]
  by_cases hx : env.val "x" < 0
  · simp [flag, hx, ← hc]
    exact add_pred_ediv_of_neg hx hpos
  · simp [flag, hx, ← hc, tdiv_eq_ediv_of_nonneg (not_lt.1 hx)]

/-! ## Multiply and shift -/

/-- Division of `x < 2 ^ n` through a magic number rounded up by less than `2 ^ l`, `c ≤ 2 ^ l`. -/
lemma mul_magic_ediv {x c m : ℤ} {n l : ℕ} (hx : 0 ≤ x) (hxn : x < 2 ^ n)
    (hc : 0 < c) (hcl : c ≤ 2 ^ l)
    (hm : 2 ^ (n + l) ≤ m * c) (hm' : m * c < 2 ^ (n + l) + c) : x * m / 2 ^ (n + l) = x / c := by
  have hlo := emod_nonneg x hc.ne'
  have hhi := emod_lt_of_pos x hc
  have hdiv := mul_ediv_add_emod x c
  set q := x / c
  have hpow := two_pow_pos (n + l)
  -- the excess of the magic number is less than one unit of the quotient
  have hexc : x * (m * c - 2 ^ (n + l)) < 2 ^ (n + l) := by
    have h1 : x * (m * c - 2 ^ (n + l)) ≤ x * c := mul_le_mul_of_nonneg_left (by linarith) hx
    have h2 : x * c < 2 ^ n * c := mul_lt_mul_of_pos_right hxn hc
    have h3 : 2 ^ n * c ≤ (2 : ℤ) ^ (n + l) := by
      rw [pow_add]
      exact mul_le_mul_of_nonneg_left hcl (two_pow_pos n).le
    linarith
  rw [ediv_eq_iff_of_pos hpow]
  constructor
  · have h : c * (q * 2 ^ (n + l)) ≤ c * (x * m) := by
      have h1 : (c * q) * 2 ^ (n + l) ≤ x * 2 ^ (n + l) :=
        mul_le_mul_of_nonneg_right (by linarith) hpow.le
      have h2 := mul_le_mul_of_nonneg_left hm hx
      linarith
    exact le_of_mul_le_mul_left h hc
  · have h : c * (x * m) < c * ((q + 1) * 2 ^ (n + l)) := by
      have h1 : (x + 1) * 2 ^ (n + l) ≤ (c * (q + 1)) * 2 ^ (n + l) :=
        mul_le_mul_of_nonneg_right (by linarith) hpow.le
      linarith
    have := lt_of_mul_lt_mul_left h hc.le
    linarith

/-- `ceil (log2 c)`. -/
def ceilLog2 (c : ℤ) : ℕ := bitLength (c - 1)

lemma le_two_pow_ceilLog2 {c : ℤ} (hc : 1 < c) : c ≤ 2 ^ ceilLog2 c := by
  have := lt_two_pow_bitLength (show 0 < c - 1 by omega)
  rw [ceilLog2]
  omega

lemma ceilLog2_le {c : ℤ} (hc : 1 < c) {k : ℕ} (h : c ≤ 2 ^ k) : ceilLog2 c ≤ k := by
  rw [ceilLog2, bitLength, Nat.add_one_le_iff, Nat.log2_lt (by omega)]
  zify
  omega

/-- The magic number of `c`, rounded up. -/
def magic (c : ℤ) (s : ℕ) : ℤ := (2 ^ s + (c - 1)) / c

lemma magic_bounds {c : ℤ} (hc : 0 < c) (s : ℕ) :
    2 ^ s ≤ magic c s * c ∧ magic c s * c < 2 ^ s + c := by
  have hlo := emod_nonneg (2 ^ s + (c - 1)) hc.ne'
  have hhi := emod_lt_of_pos (2 ^ s + (c - 1)) hc
  have hdiv := mul_ediv_add_emod (2 ^ s + (c - 1)) c
  rw [magic]
  constructor <;> linarith

/-- The `:let` values of a multiply-shift rule, in every binding of `c` that its guards admit. -/
lemma divMulshift_lets (name : String) {n : ℕ} (hn : n ≤ 31) {env : RuleEnv}
    (h2 : holds env (.gt "c" 2) = true) (hle : holds env (.le "c" 1073741824) = true) :
    env.bindLets (divMulshift name n).lets = some { env with
      const := update
        (update env.const "s" (n + ceilLog2 (env.const "c") : ℕ)) "m"
        (magic (env.const "c") (n + ceilLog2 (env.const "c"))) } := by
  simp at h2 hle
  have hlog : ceilLog2 (env.const "c") ≤ 30 := ceilLog2_le (by omega) (by norm_num; exact hle)
  have hpow : (2 : ℤ) ^ (n + ceilLog2 (env.const "c")) ≤ 2 ^ 61 :=
    pow_le_pow_right₀ (by norm_num) (by omega)
  have hpos := two_pow_pos (n + ceilLog2 (env.const "c"))
  set l := ceilLog2 (env.const "c") with hl
  have hcl : (if env.const "c" = 1 then 0 else (bitLength (env.const "c" - 1) : ℤ)) = (l : ℤ) := by
    rw [if_neg (by omega), hl, ceilLog2]
  simp only [divMulshift, RuleEnv.bindLets, Expr.eval, add, sub, div, pow2,
    clog2, Fn1.apply, Fn2.apply, checked, bind_some, hcl, update_self,
    update_of_ne (show ("c" : String) ≠ "s" by decide), ofNat_eq]
  rw [guard_of (by omega), bind_some, guard_of (by simp [isI64]; omega), bind_some,
    guard_of (by omega), bind_some, guard_of (by simp [isI64]; omega), bind_some,
    show ((n : ℤ) + l).toNat = n + l by omega, guard_of (by simp [isI64]; omega), bind_some,
    guard_of (by omega), bind_some, tdiv_eq_ediv_of_nonneg (by omega)]
  rfl

lemma divMulshift_exact (name : String) {n : ℕ} (hn : n ≤ 31) : (divMulshift name n).Exact := by
  rintro env env' ⟨hlet, hwh, -⟩
  have hc := RuleEnv.bindLets_const hlet (c := "c") (by simp [divMulshift])
  simp [divMulshift, hc, spec] at hwh
  obtain ⟨h2, -, hle, -, hx, hxn⟩ := hwh
  rw [divMulshift_lets name hn (by simpa using h2) (by simpa using hle)] at hlet
  cases hlet
  obtain ⟨hm, hm'⟩ := magic_bounds (show 0 < env.const "c" by omega) (n + ceilLog2 (env.const "c"))
  refine ⟨(env.val "x").tdiv (env.const "c"), ?_, ?_⟩
  · simp [divMulshift]
    omega
  · have hlt : env.val "x" < 2 ^ n := by simpa [le_sub_one_iff] using hxn
    have hdiv := mul_magic_ediv hx hlt (by omega)
      (le_two_pow_ceilLog2 (by omega)) hm hm'
    simp [divMulshift]
    exact ⟨by omega, by rw [tdiv_eq_ediv_of_nonneg hx, ← hdiv]; rfl⟩

lemma remViaDiv_exact : remViaDiv.Exact := by
  refine exact_of_whens rfl fun env hw hok => ?_
  simp [remViaDiv, spec] at hw hok ⊢
  obtain ⟨hc, hx, -⟩ := hw
  refine ⟨by omega, ?_⟩
  rw [guard_of hok, if_neg (by omega), if_neg (by omega)]
  simp
  refine ⟨_, _, bitRange_of le_rfl (by rw [bitLength]; omega), ?_⟩
  -- the remainder is below `c`, so the window keeps it
  have hrem : env.val "x" - (env.val "x").tdiv (env.const "c") * env.const "c" =
      env.val "x" % env.const "c" := by
    have := mul_ediv_add_emod (env.val "x") (env.const "c")
    rw [tdiv_eq_ediv_of_nonneg hx]
    linarith
  have hlt := emod_lt_of_pos (env.val "x") (show 0 < env.const "c" by omega)
  rw [hrem, tmod_eq_emod_of_nonneg hx]
  exact window_zero_of_lt (emod_nonneg _ (by omega)) (hlt.trans_le (le_two_pow_ceilLog2 hc))

/-- The division rules that are exact. -/
def divRules : List Rule :=
  [divOne, remOne, divPow2, remPow2, divShlPow2, divPow2Trunc, divMulshift8, divMulshift16,
    divMulshift31, remViaDiv]

/-- The division rules with `:let` values, and the width of their dividend. -/
def mulshiftRules : List (ℕ × Rule) := [(8, divMulshift8), (16, divMulshift16), (31, divMulshift31)]

lemma divRules_exact : ∀ r ∈ divRules, r.Exact := by
  simp [divRules, divOne_exact, remOne_exact, divPow2_exact, remPow2_exact, divShlPow2_exact,
    divPow2Trunc_exact, divMulshift8, divMulshift16, divMulshift31,
      divMulshift_exact, remViaDiv_exact]

/-- The division rules compute the truncated quotient and remainder, and the `:let` values of a
multiply-shift rule are in range for every constant its guards admit. -/
theorem divRules_correct : (∀ r ∈ divRules, r.Exact) ∧
    ∀ n r, (n, r) ∈ mulshiftRules → ∀ env : RuleEnv, holds env (.gt "c" 2) = true →
    holds env (.le "c" 1073741824) = true →
      ∃ env', env.bindLets r.lets = some env' ∧
      env'.const "s" = n + ceilLog2 (env.const "c") ∧ env'.const "s" ≤ 62 ∧
        env'.const "m" = magic (env.const "c") (n + ceilLog2 (env.const "c")) := by
  refine ⟨divRules_exact, ?_⟩
  intro n r hr env h2 hle
  have hn : n ≤ 31 ∧ ∃ name, r = divMulshift name n := by
    simp only [mulshiftRules, List.mem_cons, List.not_mem_nil, or_false] at hr
    rcases hr with ⟨rfl, rfl⟩ | ⟨rfl, rfl⟩ | ⟨rfl, rfl⟩ <;> exact ⟨by omega, _, rfl⟩
  obtain ⟨hn, name, rfl⟩ := hn
  have hlog : ceilLog2 (env.const "c") ≤ 30 := by
    simp at h2 hle
    exact ceilLog2_le (by omega) (by norm_num; exact hle)
  refine ⟨_, divMulshift_lets name hn h2 hle, by simp, ?_, by simp⟩
  simp
  omega

/-- Dividing by ten, the dividend just below `2 ^ 31`. -/
def tenEnv : RuleEnv where
  val _ := 2147483647
  const _ := 10
  rest _ := []

theorem divRules_correct_ten :
    ∃ env', divMulshift31.fires tenEnv env' ∧ env'.const "m" = 3435973837 ∧
    ∃ v, divMulshift31.lhs.eval env' = some v ∧ divMulshift31.rhs.eval env' = some v := by
  obtain ⟨env', hlet, -, -, hm⟩ :=
    divRules_correct.2 31 divMulshift31 (by simp [mulshiftRules]) tenEnv
    (by simp [tenEnv]) (by simp [tenEnv])
  have hfires : divMulshift31.fires tenEnv env' := by
    cases (Eq.trans rfl hlet)
    refine ⟨rfl, ?_, ?_⟩
    · decide
    · simp [divMulshift31, divMulshift]
  exact ⟨env', hfires, hm.trans rfl,
    divRules_correct.1 divMulshift31 (by simp [divRules]) _ _ hfires⟩

end LiveHD.Aegraph
