import LiveHD.Aegraph.Rule

/-!
# Windows, packing and facts

The rules of `rules/mask.rules`, and that each is exact.
-/

namespace LiveHD.Aegraph

open LiveHD.Aegraph.Num hiding flag
open Cell IntBits Analysis Int Rule

def getmaskGetmask : Rule where
  name := "getmask_getmask"
  lhs := .getMask (.getMask "y" (.k "a") (.k "b")) (.k "c") (.k "d")
  whens := [.ge "a" 0, .gt "b" "a", .ge "c" 0, .gt "d" "c", .lt "c" (.sub "b" "a")]
  rhs := .getMask "y" (.k (.add "a" "c")) (.k (.min (.add "a" "d") "b"))

def getmaskGetmaskZero : Rule where
  name := "getmask_getmask_zero"
  lhs := .getMask (.getMask "y" (.k "a") (.k "b")) (.k "c") (.k "d")
  whens := [.ge "a" 0, .gt "b" "a", .ge "c" 0, .gt "d" "c", .ge "c" (.sub "b" "a")]
  rhs := 0

/-- A window of a left shift. -/
@[simp] def Pat.maskShl : Pat := .getMask (.shl "x" (.k "s")) (.k "lo") (.k "hi")

def getmaskShlUp : Rule where
  name := "getmask_shl_up"
  lhs := .maskShl
  whens := [.gt "s" 0, .ge "lo" "s", .gt "hi" "lo"]
  rhs := .getMask "x" (.k (.sub "lo" "s")) (.k (.sub "hi" "s"))

def getmaskShlStraddle : Rule where
  name := "getmask_shl_straddle"
  lhs := .maskShl
  whens := [.gt "s" 0, .ge "lo" 0, .lt "lo" "s", .gt "hi" "s"]
  rhs := .shl (.getMask "x" 0 (.k (.sub "hi" "s"))) (.k (.sub "s" "lo"))

def getmaskShlLow : Rule where
  name := "getmask_shl_low"
  lhs := .maskShl
  whens := [.gt "s" 0, .ge "lo" 0, .gt "hi" "lo", .le "hi" "s"]
  rhs := 0

def getmaskSra : Rule where
  name := "getmask_sra"
  lhs := .getMask (.sra "x" (.k "s")) (.k "lo") (.k "hi")
  whens := [.ge "s" 0, .ge "lo" 0, .gt "hi" "lo"]
  rhs := .getMask "x" (.k (.add "lo" "s")) (.k (.add "hi" "s"))

def getmaskAbove : Rule where
  name := "getmask_above"
  lhs := .getMask "y" (.k "lo") (.k "hi")
  whens := [.ge "lo" 0, .gt "hi" "lo", .analysis .fits ["y"] ["lo"]]
  rhs := 0

/-- A window of a written window. -/
@[simp] def Pat.maskSet : Pat :=
  .getMask (.setMask "a" (.k "slo") (.k "shi") "v") (.k "lo") (.k "hi")

def getmaskSetmaskOutside : Rule where
  name := "getmask_setmask_outside"
  lhs := .maskSet
  whens := [.ge "slo" 0, .gt "shi" "slo", .ge "lo" 0, .gt "hi" "lo",
    .expr (.fn2 .lor (.fn2 .le "hi" "slo") (.fn2 .ge "lo" "shi"))]
  rhs := .getMask "a" (.k "lo") (.k "hi")

def getmaskSetmaskInside : Rule where
  name := "getmask_setmask_inside"
  lhs := .maskSet
  whens := [.ge "slo" 0, .gt "shi" "slo", .ge "lo" "slo", .le "hi" "shi", .gt "hi" "lo"]
  rhs := .getMask "v" (.k (.sub "lo" "slo")) (.k (.sub "hi" "slo"))

def setmaskOverwrite : Rule where
  name := "setmask_overwrite"
  lhs := .setMask (.setMask "a" (.k "lo1") (.k "hi1") "v1") (.k "lo2") (.k "hi2") "v2"
  whens := [.ge "lo2" 0, .ge "lo1" 0, .gt "hi1" "lo1", .le "lo2" "lo1", .ge "hi2" "hi1"]
  rhs := .setMask "a" (.k "lo2") (.k "hi2") "v2"

def setmaskOwnBits : Rule where
  name := "setmask_own_bits"
  lhs := .setMask "a" (.k "lo") (.k "hi") (.getMask "a" (.k "lo") (.k "hi"))
  whens := [.ge "lo" 0, .gt "hi" "lo"]
  rhs := "a"

def setmaskZeroNoop : Rule where
  name := "setmask_zero_noop"
  lhs := .setMask "a" (.k "lo") (.k "hi") 0
  whens := [.ge "lo" 0, .gt "hi" "lo", .le "hi" 62,
    .analysis .knownZero ["a"] [.sub (.maskOf "hi") (.maskOf "lo")]]
  rhs := "a"

def concatSingleFits : Rule where
  name := "concat_single_fits"
  lhs := .concat ["x", .k "n"]
  whens := [.gt "n" 0, .analysis .fits ["x"] ["n"]]
  rhs := "x"

def concatZeroTop : Rule where
  name := "concat_zero_top"
  lhs := .concat [0, .k "w", "x", .k "n"]
  whens := [.gt "w" 0, .gt "n" 0, .analysis .fits ["x"] ["n"]]
  rhs := "x"

def concatMergeSlices : Rule where
  name := "concat_merge_slices"
  lhs := .concat [.getMask "v" (.k "m") (.k "h"), .k "w1", .getMask "v" (.k "l") (.k "m"), .k "w2"]
  whens := [.ge "l" 0, .gt "m" "l", .gt "h" "m", .eq "w1" (.sub "h" "m"), .eq "w2" (.sub "m" "l")]
  rhs := .getMask "v" (.k "l") (.k "h")

def ltAlways : Rule where
  name := "lt_always"
  lhs := .lt "x" "y"
  whens := [.analysis .ltAlways ["x", "y"] []]
  rhs := 1

def ltNever : Rule where
  name := "lt_never"
  lhs := .lt "x" "y"
  whens := [.analysis .geAlways ["x", "y"] []]
  rhs := 0

def gtAlways : Rule where
  name := "gt_always"
  lhs := .gt "x" "y"
  whens := [.analysis .ltAlways ["y", "x"] []]
  rhs := 1

def gtNever : Rule where
  name := "gt_never"
  lhs := .gt "x" "y"
  whens := [.analysis .geAlways ["y", "x"] []]
  rhs := 0

def eqDistinct : Rule where
  name := "eq_distinct"
  lhs := .eq "x" "y"
  whens := [.analysis .distinct ["x", "y"] []]
  rhs := 0

def rorBool : Rule where
  name := "ror_bool"
  lhs := .ror "x"
  whens := [.analysis .bool01 ["x"] []]
  rhs := "x"

def sextFits : Rule where
  name := "sext_fits"
  lhs := .sext "x" (.k "b")
  whens := [.ge "b" 1, .analysis .sfits ["x"] ["b"]]
  rhs := "x"

def muxNonzeroSel : Rule where
  name := "mux_nonzero_sel"
  lhs := .mux "s" "f" "t"
  whens := [.analysis .nonzero ["s"] []]
  rhs := "t"

def muxZeroSel : Rule where
  name := "mux_zero_sel"
  lhs := .mux "s" "f" "t"
  whens := [.analysis .zero ["s"] []]
  rhs := "f"

def getmaskNotGetmask : Rule where
  name := "getmask_not_getmask"
  lhs := .getMask (.not (.getMask "y" 0 (.k "n"))) 0 (.k "m")
  whens := [.gt "m" 0, .ge "n" "m"]
  rhs := .getMask (.not "y") 0 (.k "m")

def getmaskNotBit : Rule where
  name := "getmask_not_bit"
  lhs := .getMask (.not "x") 0 1
  whens := [.analysis .bool01 ["x"] []]
  rhs := .eq "x" 0

def getmaskNotFits : Rule where
  name := "getmask_not_fits"
  lhs := .getMask (.not "x") 0 (.k "n")
  whens := [.gt "n" 1, .le "n" 62, .analysis .fits ["x"] ["n"]]
  rhs := .xor ["x", .k (.maskOf "n")] none

/-! ## Windows of windows and shifts -/

lemma getmaskGetmask_exact : getmaskGetmask.Exact := by
  refine exact_of_whens rfl fun env hw hok => ?_
  simp [getmaskGetmask] at hw hok ⊢
  obtain ⟨ha, hb, hc, hd, -, hcb⟩ := hw
  simp [guard_of hok.1, guard_of hok.2, bitRange_of ha hb, bitRange_of hc hd]
  rw [bitRange_of (by omega) (by split <;> omega), window_window]
  refine ⟨_, _, rfl, ?_⟩
  congr 1
  · omega
  · split <;> omega

lemma getmaskGetmaskZero_exact : getmaskGetmaskZero.Exact := by
  refine exact_of_whens rfl fun env hw hok => ?_
  simp [getmaskGetmaskZero] at hw hok ⊢
  obtain ⟨ha, hb, hc, hd, -, hcb⟩ := hw
  simp [bitRange_of ha hb, bitRange_of hc hd]
  rw [window_window, show (env.const "b" - env.const "a").toNat - (env.const "c").toNat =
    0 by omega]
  simp [window]

lemma getmaskShlUp_exact : getmaskShlUp.Exact := by
  refine exact_of_whens rfl fun env hw hok => ?_
  simp [getmaskShlUp] at hw hok ⊢
  obtain ⟨hs, hlo, hhi⟩ := hw
  simp [guard_of hok.1, guard_of hok.2, hs.le,
    bitRange_of (hs.le.trans hlo) hhi, bitRange_of (sub_nonneg.2 hlo) (sub_lt_sub_right hhi _)]
  rw [window_shiftLeft_of_le _ (by omega)]
  congr 1
  omega

lemma getmaskShlStraddle_exact : getmaskShlStraddle.Exact := by
  refine exact_of_whens rfl fun env hw hok => ?_
  simp [getmaskShlStraddle] at hw hok ⊢
  obtain ⟨hs, hlo, hlos, hhi⟩ := hw
  simp [guard_of hok.1, guard_of hok.2, hs.le, hlos.le, bitRange_of hlo (hlos.trans hhi),
    bitRange_of le_rfl (sub_pos.2 hhi)]
  rw [window_shiftLeft_straddle _ (by omega)]
  congr 2 <;> omega

lemma getmaskShlLow_exact : getmaskShlLow.Exact := by
  refine exact_of_whens rfl fun env hw hok => ?_
  simp [getmaskShlLow] at hw hok ⊢
  obtain ⟨hs, hlo, hhi, hle⟩ := hw
  simp [hs.le, bitRange_of hlo hhi]
  rw [window_shiftLeft_straddle _ (by omega),
    show (env.const "lo").toNat + (env.const "hi" - env.const "lo").toNat - (env.const "s").toNat =
      0
      by omega]
  simp [window]

lemma getmaskSra_exact : getmaskSra.Exact := by
  refine exact_of_whens rfl fun env hw hok => ?_
  simp [getmaskSra] at hw hok ⊢
  obtain ⟨hs, hlo, hhi⟩ := hw
  simp [guard_of hok.1, guard_of hok.2, hs, bitRange_of hlo hhi,
    bitRange_of (Int.add_nonneg hlo hs) (Int.add_lt_add_right hhi _)]
  rw [window_shiftRight]
  congr 1
  omega

lemma getmaskAbove_exact : getmaskAbove.Exact := by
  refine exact_of_whens rfl fun env hw hok => ?_
  simp [getmaskAbove, spec] at hw hok ⊢
  obtain ⟨hlo, hhi, -, h0, hy⟩ := hw
  simp [bitRange_of hlo hhi]
  exact window_of_lt h0 (by omega) _

/-! ## Written windows -/

lemma getmaskSetmaskOutside_exact : getmaskSetmaskOutside.Exact := by
  refine exact_of_whens rfl fun env hw hok => ?_
  simp [getmaskSetmaskOutside] at hw hok ⊢
  obtain ⟨hslo, hshi, hlo, hhi, hout⟩ := hw
  simp [bitRange_of hslo hshi, bitRange_of hlo hhi]
  rw [window_splice_outside _ _ (by omega)]

lemma getmaskSetmaskInside_exact : getmaskSetmaskInside.Exact := by
  refine exact_of_whens rfl fun env hw hok => ?_
  simp [getmaskSetmaskInside] at hw hok ⊢
  obtain ⟨hslo, hshi, hlo, hhi, hlt⟩ := hw
  simp [guard_of hok.1, guard_of hok.2, bitRange_of hslo hshi,
    bitRange_of (hslo.trans hlo) hlt, bitRange_of (sub_nonneg.2 hlo) (sub_lt_sub_right hlt _)]
  rw [window_splice_inside _ _ (by omega) (by omega)]
  congr 1
  omega

lemma setmaskOverwrite_exact : setmaskOverwrite.Exact := by
  refine exact_of_whens rfl fun env hw hok => ?_
  simp [setmaskOverwrite] at hw hok ⊢
  obtain ⟨hlo2, hlo1, hhi1, hlo, hhi⟩ := hw
  simp [bitRange_of hlo1 hhi1, bitRange_of hlo2 (lt_of_le_of_lt hlo (hhi1.trans_le hhi))]
  rw [splice_splice_of_cover _ _ _ (by omega) (by omega)]

lemma setmaskOwnBits_exact : setmaskOwnBits.Exact := by
  refine exact_of_whens rfl fun env hw hok => ?_
  simp [setmaskOwnBits] at hw hok ⊢
  simp [bitRange_of hw.1 hw.2, splice_window_self]

lemma setmaskZeroNoop_exact : setmaskZeroNoop.Exact := by
  refine exact_of_whens rfl fun env hw hok => ?_
  simp [setmaskZeroNoop] at hw ⊢
  obtain ⟨hlo, hhi, h62, h0⟩ := hw
  rw [guard_of ⟨by omega, h62⟩, guard_of ⟨hlo, by omega⟩] at h0
  by_cases hI : isI64 (2 ^ (env.const "hi").toNat - 2 ^ (env.const "lo").toNat) = true
  · simp [Num.guard, Analysis.spec, hI] at h0
    refine ⟨_, _, bitRange_of hlo hhi, ext fun i => ?_⟩
    have hbit := congrArg (fun m : ℤ => m.testBit i) h0.2
    simp only [testBit_land, testBit_zero,
      testBit_mask_sub (show (env.const "lo").toNat ≤ (env.const "hi").toNat by omega)] at hbit
    rw [testBit_splice]
    split
    · simpa [show (env.const "lo").toNat ≤ i ∧ i < (env.const "hi").toNat by omega] using hbit.symm
    · rfl
  · simp [Num.guard, hI] at h0

/-! ## Packing -/

lemma concatSingleFits_exact : concatSingleFits.Exact := by
  refine exact_of_whens rfl fun env hw hok => ?_
  simp [concatSingleFits, spec] at hw ⊢
  obtain ⟨hn, -, h0, hx⟩ := hw
  rw [evalOp_concat_one _ hn, emod_eq_of_lt h0 (by omega)]

lemma concatZeroTop_exact : concatZeroTop.Exact := by
  refine exact_of_whens rfl fun env hw hok => ?_
  simp [concatZeroTop, spec] at hw ⊢
  obtain ⟨hw', hn, -, h0, hx⟩ := hw
  rw [evalOp_concat_two _ _ hw' hn, emod_eq_of_lt h0 (by omega)]
  simp

lemma concatMergeSlices_exact : concatMergeSlices.Exact := by
  refine exact_of_whens rfl fun env hw hok => ?_
  simp [concatMergeSlices] at hw ⊢
  obtain ⟨hl, hm, hh, ⟨-, hw1⟩, -, hw2⟩ := hw
  rw [bitRange_of hl hm, bitRange_of (by omega) hh, hw1, hw2]
  refine ⟨_, _, ?_, bitRange_of hl (hm.trans hh)⟩
  rw [Option.map_some, Option.map_some, evalOp_concat_two _ _ (by omega) (by omega),
    emod_eq_of_lt (window_nonneg _ _ _) (window_lt _ _ _),
    emod_eq_of_lt (window_nonneg _ _ _) (window_lt _ _ _),
    show (env.const "m").toNat = (env.const "l").toNat +
      (env.const "m" - env.const "l").toNat by omega,
    window_append]
  congr 2
  omega

/-! ## Decisions by fact -/

lemma factRules_exact : ∀ r ∈ [ltAlways, ltNever, gtAlways, gtNever, eqDistinct, muxNonzeroSel,
    muxZeroSel], r.Exact := by
  simp only [List.forall_mem_cons]
  refine ⟨?_, ?_, ?_, ?_, ?_, ?_, ?_, by simp⟩
  all_goals
    refine exact_of_whens rfl fun env hw hok => ?_
    simp [ltAlways, ltNever, gtAlways, gtNever, eqDistinct, muxNonzeroSel, muxZeroSel, spec] at hw ⊢
    simp [flag, hw]

lemma rorBool_exact : rorBool.Exact := by
  refine exact_of_whens rfl fun env hw hok => ?_
  simp [rorBool, spec] at hw ⊢
  obtain h | h : env.val "x" = 0 ∨ env.val "x" = 1 := by omega
  · rw [h]
    rfl
  · rw [h]
    rfl

lemma sextFits_exact : sextFits.Exact := by
  refine exact_of_whens rfl fun env hw hok => ?_
  simp [sextFits, spec] at hw ⊢
  obtain ⟨hb, hhi, hlo⟩ := hw
  refine ⟨hb, sext_of_bounds (by omega) ?_ ?_⟩ <;> omega

/-! ## Windows of a complement -/

lemma getmaskNotGetmask_exact : getmaskNotGetmask.Exact := by
  refine exact_of_whens rfl fun env hw hok => ?_
  simp [getmaskNotGetmask] at hw ⊢
  obtain ⟨hm, hn⟩ := hw
  simp [bitRange_of le_rfl hm, bitRange_of le_rfl (hm.trans_le hn)]
  exact window_not_window _ (by omega)

lemma getmaskNotBit_exact : getmaskNotBit.Exact := by
  refine exact_of_whens rfl fun env hw hok => ?_
  simp [getmaskNotBit, spec] at hw ⊢
  refine ⟨0, 1, rfl, ?_⟩
  obtain h | h : env.val "x" = 0 ∨ env.val "x" = 1 := by omega
  · rw [h]
    rfl
  · rw [h]
    rfl

lemma getmaskNotFits_exact : getmaskNotFits.Exact := by
  refine exact_of_whens rfl fun env hw hok => ?_
  simp [getmaskNotFits, spec] at hw ⊢
  obtain ⟨hn, h62, hn0, h0, hx⟩ := hw
  refine ⟨_, _, bitRange_of le_rfl (by omega), ?_⟩
  simp [guard_of (show _ ∧ _ from ⟨hn0, h62⟩)]
  refine ext fun i => ?_
  have hbit := (lt_two_pow_iff h0).1 (show env.val "x" < 2 ^ (env.const "n").toNat by omega) i
  simp [testBit_window, testBit_not, testBit_mask]
  grind

/-- The rules of `rules/mask.rules`. -/
def maskRules : List Rule :=
  [getmaskGetmask, getmaskGetmaskZero, getmaskShlUp, getmaskShlStraddle, getmaskShlLow, getmaskSra,
    getmaskAbove, getmaskSetmaskOutside, getmaskSetmaskInside, setmaskOverwrite, setmaskOwnBits,
    setmaskZeroNoop, concatSingleFits, concatZeroTop, concatMergeSlices,
    ltAlways, ltNever, gtAlways,
    gtNever, eqDistinct, rorBool, sextFits, muxNonzeroSel, muxZeroSel, getmaskNotGetmask,
    getmaskNotBit, getmaskNotFits]

lemma maskRules_exact : ∀ r ∈ maskRules, r.Exact := by
  have hfa := factRules_exact
  simp [maskRules, hfa, getmaskGetmask_exact, getmaskGetmaskZero_exact, getmaskShlUp_exact,
    getmaskShlStraddle_exact, getmaskShlLow_exact, getmaskSra_exact, getmaskAbove_exact,
    getmaskSetmaskOutside_exact, getmaskSetmaskInside_exact, setmaskOverwrite_exact,
    setmaskOwnBits_exact, setmaskZeroNoop_exact, concatSingleFits_exact, concatZeroTop_exact,
    concatMergeSlices_exact, rorBool_exact, sextFits_exact, getmaskNotGetmask_exact,
    getmaskNotBit_exact, getmaskNotFits_exact]

end LiveHD.Aegraph
