import LiveHD.Aegraph.Rule

/-!
# Sign extensions and shift chains

The rules of `rules/shift.rules`, and that each is exact.
-/

namespace LiveHD.Aegraph

open Cell IntBits

def sextSext : Rule where
  name := "sext_sext"
  lhs := .sext (.sext "x" (.k "a")) (.k "b")
  whens := [.ge "a" 1, .ge "b" 1]
  rhs := .sext "x" (.k (.min "a" "b"))

def sextGetmask : Rule where
  name := "sext_getmask"
  lhs := .sext (.getMask "y" 0 (.k "hi")) (.k "b")
  whens := [.ge "b" 1, .le "b" "hi"]
  rhs := .sext "y" (.k "b")

def shlShl : Rule where
  name := "shl_shl"
  lhs := .shl (.shl "x" (.k "a")) (.k "b")
  whens := [.ge "a" 0, .ge "b" 0, .le (.add "a" "b") 268435456]
  rhs := .shl "x" (.k (.add "a" "b"))

def sraSra : Rule where
  name := "sra_sra"
  lhs := .sra (.sra "x" (.k "a")) (.k "b")
  whens := [.ge "a" 0, .ge "b" 0, .le (.add "a" "b") 268435456]
  rhs := .sra "x" (.k (.add "a" "b"))

def getmaskSextLow : Rule where
  name := "getmask_sext_low"
  lhs := .getMask (.sext "x" (.k "b")) (.k "lo") (.k "hi")
  whens := [.ge "b" 1, .ge "lo" 0, .gt "hi" "lo", .le "hi" "b"]
  rhs := .getMask "x" (.k "lo") (.k "hi")

lemma sextSext_exact : sextSext.Exact := by
  refine Rule.exact_of_whens rfl fun env hw hok => ?_
  simp [sextSext] at hw ⊢
  obtain ⟨ha, hb⟩ := hw
  rw [if_pos ha, evalOp_sext, if_pos hb, IntBits.sext_sext _ (by omega) (by omega)]
  refine ⟨?_, by split <;> assumption⟩
  congr 2
  split <;> omega

lemma sextGetmask_exact : sextGetmask.Exact := by
  refine Rule.exact_of_whens rfl fun env hw hok => ?_
  simp [sextGetmask] at hw ⊢
  obtain ⟨hb, hhi⟩ := hw
  simp [bitRange_of le_rfl (show (0 : ℤ) < env.const "hi" by omega), hb]
  exact sext_window _ (by omega) (by omega)

lemma shlShl_exact : shlShl.Exact := by
  refine Rule.exact_of_whens rfl fun env hw hok => ?_
  simp [shlShl] at hw ⊢
  obtain ⟨ha, hb, hi, -⟩ := hw
  simp [Num.guard_of hi, ha, hb, Int.toNat_add ha hb, Int.add_nonneg ha hb, pow_add, mul_assoc]

lemma sraSra_exact : sraSra.Exact := by
  refine Rule.exact_of_whens rfl fun env hw hok => ?_
  simp [sraSra] at hw ⊢
  obtain ⟨ha, hb, hi, -⟩ := hw
  simp [Num.guard_of hi, ha, hb, Int.toNat_add ha hb, Int.add_nonneg ha hb, pow_add,
    Int.ediv_ediv_of_nonneg (two_pow_pos _).le]

lemma getmaskSextLow_exact : getmaskSextLow.Exact := by
  refine Rule.exact_of_whens rfl fun env hw hok => ?_
  simp [getmaskSextLow] at hw ⊢
  obtain ⟨hb, hlo, hhi, hle⟩ := hw
  simp [bitRange_of hlo hhi, hb]
  rw [window_sext _ (by omega) (by omega)]

/-- The rules of `rules/shift.rules`. -/
def shiftRules : List Rule := [sextSext, sextGetmask, shlShl, sraSra, getmaskSextLow]

lemma shiftRules_exact : ∀ r ∈ shiftRules, r.Exact := by
  simp [shiftRules, sextSext_exact, sextGetmask_exact, shlShl_exact,
    sraSra_exact, getmaskSextLow_exact]

end LiveHD.Aegraph
