import LiveHD.Aegraph.Rules.Arith
import LiveHD.Aegraph.Rules.Shift
import LiveHD.Aegraph.Rules.Mask

/-!
# Two-arm selectors

The rules of `rules/mux.rules`; with them every rule of the pattern files but the
division rules is exact.
-/

namespace LiveHD.Aegraph

open Cell IntBits

def muxSelArm : Rule where
  name := "mux_sel_arm"
  lhs := .mux "s" 0 "s"
  rhs := "s"

def muxSelNot : Rule where
  name := "mux_sel_not"
  lhs := .mux (.eq "c" 0) "f" "t"
  whens := [.analysis .bool01 ["c"] []]
  rhs := .mux "c" "t" "f"

def muxLaneVector : Rule where
  name := "mux_lane_vector"
  lhs := .mux "s" (.getMask "x" (.k "a") (.k "h")) (.getMask "y" (.k "b") (.k "j"))
  lets := [("o", .band "a" 63), ("a0", .sub "a" "o"), ("b0", .sub "b" "o")]
  whens := [.ge "a" 0, .ge "b" 0, .eq "h" (.add "a" 1), .eq "j" (.add "b" 1), .ge "b0" 0]
  rhs := .getMask
    (.mux "s" (.getMask "x" (.k "a0") (.k (.add "a0" 64)))
      (.getMask "y" (.k "b0") (.k (.add "b0" 64))))
    (.k "o") (.k (.add "o" 1))

lemma muxSelArm_exact : muxSelArm.Exact := by
  refine Rule.exact_of_whens rfl fun env hw hok => ?_
  by_cases h : env.val "s" = 0 <;> simp [muxSelArm, h]

lemma muxSelNot_exact : muxSelNot.Exact := by
  refine Rule.exact_of_whens rfl fun env hw hok => ?_
  by_cases h : env.val "c" = 0 <;> simp [muxSelNot, flag, h]

/-- Bit `o` of the word that starts at `a - o`. -/
lemma window_word {x a o : ℤ} (ho : 0 ≤ o) (ho' : o < 64) (ha : o ≤ a) :
    window (window x (a - o).toNat 64) o.toNat 1 = window x a.toNat 1 := by
  rw [window_window]
  congr 1 <;> omega

lemma muxLaneVector_exact : muxLaneVector.Exact := by
  rintro env env' ⟨hlet, hwh, hok⟩
  simp [muxLaneVector] at hlet
  obtain ⟨-, -, rfl⟩ := hlet
  simp [muxLaneVector] at hwh hok ⊢
  obtain ⟨ha, hb, ⟨-, hh⟩, ⟨-, hj⟩, hb0⟩ := hwh
  obtain ⟨⟨ha64, hb64⟩, ho1⟩ := hok
  -- the alignment offset is `a mod 64`
  have ho : (env.const "a").land 63 = env.const "a" % 64 := land_mask _ 6
  rw [ho] at hb0 ha64 hb64 ho1
  rw [ho, hh, hj, Num.guard_of ha64, Num.guard_of hb64, Num.guard_of ho1, evalOp_getMask,
    evalOp_getMask, bitRange_of ha (by omega), bitRange_of hb (by omega),
    bitRange_of (by omega) (by omega), bitRange_of (by omega) (by omega)]
  simp only [add_sub_cancel_left, Option.map_some]
  have hr : bitRange (env.const "a" % 64) (env.const "a" % 64 + 1) =
      some ((env.const "a" % 64).toNat, 1) := by
    rw [bitRange_of (by omega) (by omega), add_sub_cancel_left]
    rfl
  by_cases hs : env.val "s" = 0
  · rw [if_pos hs, if_pos hs, evalOp_getMask, hr]
    exact ⟨_, rfl, congrArg some (window_word (by omega) (by omega) (by omega))⟩
  · rw [if_neg hs, if_neg hs, evalOp_getMask, hr]
    exact ⟨_, rfl, congrArg some (window_word (by omega) (by omega) (by omega))⟩

/-- The rules of `rules/mux.rules`. -/
def muxRules : List Rule := [muxSelArm, muxSelNot, muxLaneVector]

lemma muxRules_exact : ∀ r ∈ muxRules, r.Exact := by
  simp [muxRules, muxSelArm_exact, muxSelNot_exact, muxLaneVector_exact]

/-- The pattern rules over the pure cells other than `Div` and `Rem`. -/
def patternRules : List Rule := arithRules ++ shiftRules ++ maskRules ++ muxRules

/-- Every pattern rule is exact over the unbounded integers. -/
theorem patternRules_exact : ∀ r ∈ patternRules, r.Exact := by
  simp only [patternRules, List.forall_mem_append]
  exact ⟨⟨⟨arithRules_exact, shiftRules_exact⟩, maskRules_exact⟩, muxRules_exact⟩

/-- An 8-bit counter compare: `(x + 3) mod 256 = 1` at `x = -2`. -/
def counterEnv : RuleEnv where
  val _ := -2
  const c := if c = "n" then 8 else if c = "c" then 3 else 1
  rest _ := []

theorem patternRules_exact_counter : eqMaskedSumConstAdd.fires counterEnv counterEnv ∧
    ∃ v, eqMaskedSumConstAdd.lhs.eval counterEnv = some v ∧
    eqMaskedSumConstAdd.rhs.eval counterEnv = some v := by
  have hfires : eqMaskedSumConstAdd.fires counterEnv counterEnv :=
    ⟨rfl, by
      simp [eqMaskedSumConstAdd, counterEnv], by simp [eqMaskedSumConstAdd, counterEnv, isI64]⟩
  exact ⟨hfires, patternRules_exact eqMaskedSumConstAdd
    (by simp [patternRules, arithRules]) _ _ hfires⟩

end LiveHD.Aegraph
