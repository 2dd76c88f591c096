import LiveHD.Aegraph.Rule

/-!
# Bitwise and arithmetic rewrites

The rules of `rules/arith.rules`, and that each is exact.
-/

namespace LiveHD.Aegraph

open Cell IntBits

def notNot : Rule where
  name := "not_not"
  lhs := .not (.not "x")
  rhs := "x"

def notXorAlt : Rule where
  name := "not_xor_alt"
  lhs := .not "x"
  rhs := .xor ["x", .allOnes] none

def multPow2Shl : Rule where
  name := "mult_pow2_shl"
  lhs := .mult ["x", .k "c"]
  whens := [.pow2p "c", .gt "c" 1]
  rhs := .shl "x" (.k (.log2 "c"))

def xorBoolOne : Rule where
  name := "xor_bool_one"
  lhs := .xor ["x", 1] none
  whens := [.analysis .bool01 ["x"] []]
  rhs := .eq "x" 0

def andNotSelf : Rule where
  name := "and_not_self"
  lhs := .and ["x", .not "x"] (some "r")
  rhs := 0

def orNotSelf : Rule where
  name := "or_not_self"
  lhs := .or ["x", .not "x"] (some "r")
  rhs := .allOnes

def xorNotSelf : Rule where
  name := "xor_not_self"
  lhs := .xor ["x", .not "x"] (some "r")
  rhs := .xor [.allOnes] (some "r")

def sumNotSelf : Rule where
  name := "sum_not_self"
  lhs := .sum ["x", .not "x"] (some "r") [] (some "s")
  rhs := .sum [.allOnes] (some "r") [] (some "s")

def sumDouble : Rule where
  name := "sum_double"
  lhs := .sum ["x", "x"] (some "r") [] (some "s")
  rhs := .sum [.shl "x" 1] (some "r") [] (some "s")

/-- `x + c` in a comparison. -/
@[simp] def Pat.plusK : Pat := .sum ["x", .k "c"] none [] none

/-- `x - c` in a comparison. -/
@[simp] def Pat.minusK : Pat := .sum ["x"] none [.k "c"] none

def eqSumConstAdd : Rule where
  name := "eq_sum_const_add"
  lhs := .eq .plusK (.k "d")
  rhs := .eq "x" (.k (.sub "d" "c"))

def eqSumConstSub : Rule where
  name := "eq_sum_const_sub"
  lhs := .eq .minusK (.k "d")
  rhs := .eq "x" (.k (.add "d" "c"))

def ltSumConstAdd : Rule where
  name := "lt_sum_const_add"
  lhs := .lt .plusK (.k "d")
  rhs := .lt "x" (.k (.sub "d" "c"))

def ltSumConstSub : Rule where
  name := "lt_sum_const_sub"
  lhs := .lt .minusK (.k "d")
  rhs := .lt "x" (.k (.add "d" "c"))

def ltConstSumAdd : Rule where
  name := "lt_const_sum_add"
  lhs := .lt (.k "d") .plusK
  rhs := .lt (.k (.sub "d" "c")) "x"

def ltConstSumSub : Rule where
  name := "lt_const_sum_sub"
  lhs := .lt (.k "d") .minusK
  rhs := .lt (.k (.add "d" "c")) "x"

def gtSumConstAdd : Rule where
  name := "gt_sum_const_add"
  lhs := .gt .plusK (.k "d")
  rhs := .gt "x" (.k (.sub "d" "c"))

def gtSumConstSub : Rule where
  name := "gt_sum_const_sub"
  lhs := .gt .minusK (.k "d")
  rhs := .gt "x" (.k (.add "d" "c"))

def gtConstSumAdd : Rule where
  name := "gt_const_sum_add"
  lhs := .gt (.k "d") .plusK
  rhs := .gt (.k (.sub "d" "c")) "x"

def gtConstSumSub : Rule where
  name := "gt_const_sum_sub"
  lhs := .gt (.k "d") .minusK
  rhs := .gt (.k (.add "d" "c")) "x"

def eqMaskedSumConstAdd : Rule where
  name := "eq_masked_sum_const_add"
  lhs := .eq (.getMask .plusK 0 (.k "n")) (.k "d")
  whens := [.gt "n" 0, .le "n" 62, .ge "d" 0, .lt "d" (.pow2 "n")]
  rhs := .eq (.getMask "x" 0 (.k "n")) (.k (.band (.sub "d" "c") (.maskOf "n")))

def eqMaskedSumConstSub : Rule where
  name := "eq_masked_sum_const_sub"
  lhs := .eq (.getMask .minusK 0 (.k "n")) (.k "d")
  whens := [.gt "n" 0, .le "n" 62, .ge "d" 0, .lt "d" (.pow2 "n")]
  rhs := .eq (.getMask "x" 0 (.k "n")) (.k (.band (.add "d" "c") (.maskOf "n")))

def eqDiffZero : Rule where
  name := "eq_diff_zero"
  lhs := .eq (.sum ["x"] none ["y"] none) 0
  rhs := .eq "x" "y"

def eqMaskedDiffZero : Rule where
  name := "eq_masked_diff_zero"
  lhs := .eq (.getMask (.sum ["x"] none ["y"] none) 0 (.k "n")) 0
  whens := [.gt "n" 0]
  rhs := .eq (.getMask "x" 0 (.k "n")) (.getMask "y" 0 (.k "n"))

/-! ## Complements and strength reduction -/

lemma notNot_exact : notNot.Exact := by
  refine Rule.exact_of_whens rfl fun env hw hok => ?_
  simp [notNot]

lemma notXorAlt_exact : notXorAlt.Exact := by
  refine Rule.exact_of_whens rfl fun env hw hok => ?_
  suffices h : -env.val "x" - 1 = Int.xor (env.val "x") (Int.xor (-1) 0) by simp [notXorAlt, h]
  refine ext fun i => ?_
  simp [testBit_not]

lemma multPow2Shl_exact : multPow2Shl.Exact := by
  refine Rule.exact_of_whens rfl fun env hw hok => ?_
  simp [multPow2Shl] at hw hok ⊢
  obtain ⟨⟨hpos, hla⟩, -⟩ := hw
  have hc := eq_two_pow_of_land hpos hla
  simp [Num.guard_of hpos, ← hc]

lemma xorBoolOne_exact : xorBoolOne.Exact := by
  refine Rule.exact_of_whens rfl fun env hw hok => ?_
  simp [xorBoolOne, Analysis.spec] at hw ⊢
  obtain h | h : env.val "x" = 0 ∨ env.val "x" = 1 := by omega
  · rw [h]
    rfl
  · rw [h]
    rfl

lemma notSelfRules_exact : ∀ r ∈ [andNotSelf, orNotSelf, xorNotSelf], r.Exact := by
  simp only [List.forall_mem_cons]
  refine ⟨?_, ?_, ?_, by simp⟩
  all_goals
    refine Rule.exact_of_whens rfl fun env hw hok => ?_
    simp [andNotSelf, orNotSelf, xorNotSelf]
    refine ext fun i => ?_
    cases h : (env.val "x").testBit i <;> simp [testBit_not, h]

lemma sumNotSelf_exact : sumNotSelf.Exact := by
  refine Rule.exact_of_whens rfl fun env hw hok => ?_
  simp [sumNotSelf]
  ring

lemma sumDouble_exact : sumDouble.Exact := by
  refine Rule.exact_of_whens rfl fun env hw hok => ?_
  simp [sumDouble]
  ring

/-! ## Comparisons through an add -/

/-- The comparisons that move a constant summand to the other side. -/
def sumConstRules : List Rule :=
  [eqSumConstAdd, eqSumConstSub, ltSumConstAdd, ltSumConstSub, ltConstSumAdd, ltConstSumSub,
    gtSumConstAdd, gtSumConstSub, gtConstSumAdd, gtConstSumSub]

lemma sumConstRules_exact : ∀ r ∈ sumConstRules, r.Exact := by
  simp only [sumConstRules, List.forall_mem_cons]
  refine ⟨?_, ?_, ?_, ?_, ?_, ?_, ?_, ?_, ?_, ?_, by simp⟩
  all_goals
    refine Rule.exact_of_whens rfl fun env hw hok => ?_
    simp [eqSumConstAdd, eqSumConstSub, ltSumConstAdd, ltSumConstSub, ltConstSumAdd, ltConstSumSub,
      gtSumConstAdd, gtSumConstSub, gtConstSumAdd, gtConstSumSub] at hok ⊢
    simp [Num.guard_of hok, eq_sub_iff_add_eq, sub_eq_iff_eq_add,
      lt_sub_iff_add_lt, sub_lt_iff_lt_add]

lemma eqDiffZero_exact : eqDiffZero.Exact := by
  refine Rule.exact_of_whens rfl fun env hw hok => ?_
  simp [eqDiffZero, sub_eq_zero]

/-- Moving a summand across an equality modulo `2 ^ n`. -/
lemma window_add_eq_iff {x c d : ℤ} {n : ℕ} (h0 : 0 ≤ d) (hn : d < 2 ^ n) :
    window (x + c) 0 n = d ↔ window x 0 n = Int.land (d - c) (2 ^ n - 1) := by
  rw [window_zero, window_zero, land_mask, ← Int.emod_eq_of_lt h0 hn]
  nth_rewrite 2 [Int.emod_eq_of_lt h0 hn]
  rw [Int.emod_eq_emod_iff_emod_sub_eq_zero, Int.emod_eq_emod_iff_emod_sub_eq_zero,
    show x - (d - c) = x + c - d by ring]

lemma eqMaskedSumConstAdd_exact : eqMaskedSumConstAdd.Exact := by
  refine Rule.exact_of_whens rfl fun env hw hok => ?_
  simp [eqMaskedSumConstAdd] at hw hok ⊢
  obtain ⟨hn, -, hd, hn', hd'⟩ := hw
  simp [Num.guard_of hok.1, Num.guard_of hn', bitRange_of le_rfl hn, window_add_eq_iff hd hd']

lemma eqMaskedSumConstSub_exact : eqMaskedSumConstSub.Exact := by
  refine Rule.exact_of_whens rfl fun env hw hok => ?_
  simp [eqMaskedSumConstSub] at hw hok ⊢
  obtain ⟨hn, -, hd, hn', hd'⟩ := hw
  simp [Num.guard_of hok.1, Num.guard_of hn', bitRange_of le_rfl hn, sub_eq_add_neg,
    window_add_eq_iff hd hd']

lemma eqMaskedDiffZero_exact : eqMaskedDiffZero.Exact := by
  refine Rule.exact_of_whens rfl fun env hw hok => ?_
  simp [eqMaskedDiffZero] at hw ⊢
  simp [bitRange_of le_rfl hw, window_zero, Int.emod_eq_emod_iff_emod_sub_eq_zero]

/-- The rules of `rules/arith.rules`. -/
def arithRules : List Rule :=
  [notNot, notXorAlt, multPow2Shl, xorBoolOne, andNotSelf, orNotSelf, xorNotSelf, sumNotSelf,
    sumDouble, eqSumConstAdd, eqSumConstSub, ltSumConstAdd, ltSumConstSub, ltConstSumAdd,
    ltConstSumSub, gtSumConstAdd, gtSumConstSub, gtConstSumAdd, gtConstSumSub, eqMaskedSumConstAdd,
    eqMaskedSumConstSub, eqDiffZero, eqMaskedDiffZero]

lemma arithRules_exact : ∀ r ∈ arithRules, r.Exact := by
  have hnot := notSelfRules_exact
  have hsum := sumConstRules_exact
  simp only [sumConstRules] at hnot hsum
  simp [arithRules, hnot, hsum, notNot_exact, notXorAlt_exact, multPow2Shl_exact, xorBoolOne_exact,
    sumNotSelf_exact, sumDouble_exact, eqMaskedSumConstAdd_exact, eqMaskedSumConstSub_exact,
    eqDiffZero_exact, eqMaskedDiffZero_exact]

end LiveHD.Aegraph
