import Mathlib

/-!
# Rows of a truth table

A function of finitely many variables is stored as a table.  The row of an assignment has
the value of the `i`-th variable as its bit `i`.
-/

namespace LiveHD

variable {α : Type*} {vars sub : List α} {env : α → Bool}

section

variable (vars : List α) (env : α → Bool)

def rowIndex : ℕ := (BitVec.ofBoolListLE (vars.map env)).toNat

lemma testBit_rowIndex (i : ℕ) : (rowIndex vars env).testBit i = (vars[i]?).any env := by
  rw [rowIndex, ← BitVec.getLsbD, BitVec.getLsbD_ofBoolListLE,
    List.getD_eq_getElem?_getD, List.getElem?_map]
  cases vars[i]? <;> rfl

lemma rowIndex_lt : rowIndex vars env < 2 ^ vars.length := by
  have h := (BitVec.ofBoolListLE (vars.map env)).isLt
  exact h.trans_eq (congrArg (2 ^ ·) (List.length_map env))

end

lemma rowIndex_congr {env' : α → Bool} (h : ∀ v ∈ vars, env v = env' v) :
    rowIndex vars env = rowIndex vars env' := by
  rw [rowIndex, rowIndex, List.map_congr_left h]

lemma rowIndex_singleton (v : α) (env : α → Bool) : rowIndex [v] env = (env v).toNat := by
  change (BitVec.ofBoolListLE [env v]).toNat = _
  cases env v <;> rfl

lemma rowIndex_map {β : Type*} (g : β → α) (vars : List β) (env : α → Bool) :
    rowIndex (vars.map g) env = rowIndex vars (env ∘ g) := by
  rw [rowIndex, rowIndex, List.map_map]

/-- A row read through the position of each variable. -/
lemma rowIndex_restrict {pos : α → ℕ} (hpos : ∀ v ∈ sub, vars[pos v]? = some v) :
    rowIndex sub (fun v => (rowIndex vars env).testBit (pos v)) = rowIndex sub env := by
  refine rowIndex_congr fun v hv => ?_
  rw [testBit_rowIndex, hpos v hv]
  rfl

/-! ## A row without one of its variables -/

/-- Insert a zero at a bit. -/
def spreadRow (i x : ℕ) : ℕ :=
  let low := x &&& (2 ^ i - 1)
  low ||| ((x ^^^ low) <<< 1)

lemma testBit_spreadRow (i x j : ℕ) : (spreadRow i x).testBit j =
    if j < i then x.testBit j else if j = i then false else x.testBit (j - 1) := by
  simp only [spreadRow, Nat.testBit_or, Nat.testBit_shiftLeft, Nat.testBit_xor, Nat.testBit_and,
    Nat.testBit_two_pow_sub_one]
  rcases lt_trichotomy j i with h | rfl | h
  · rw [if_pos h, decide_eq_true h, decide_eq_true (show j - 1 < i by omega)]
    simp
  · rcases Nat.eq_zero_or_pos j with rfl | hpos
    · simp
    · rw [decide_eq_true (show j - 1 < j by omega)]
      simp
  · rw [if_neg (by omega), if_neg h.ne', decide_eq_false (show ¬j < i by omega),
      decide_eq_false (show ¬j - 1 < i by omega), decide_eq_true (show 1 ≤ j by omega)]
    simp

/-- The row of an assignment is the row without a variable, up to that variable. -/
lemma rowIndex_eraseIdx (vars : List α) (env : α → Bool) {i : ℕ} (hi : i < vars.length) :
    rowIndex vars env = spreadRow i (rowIndex (vars.eraseIdx i) env) ∨
      rowIndex vars env = spreadRow i (rowIndex (vars.eraseIdx i) env) ||| 2 ^ i := by
  have hbit : ∀ j, j ≠ i → (rowIndex vars env).testBit j =
      (spreadRow i (rowIndex (vars.eraseIdx i) env)).testBit j := by
    intro j hj
    rw [testBit_spreadRow, testBit_rowIndex, testBit_rowIndex, testBit_rowIndex]
    split
    next hlt => rw [List.getElem?_eraseIdx_of_lt hlt]
    · rw [List.getElem?_eraseIdx_of_ge (by omega), Nat.sub_add_cancel (by omega)]
  have h0 : (spreadRow i (rowIndex (vars.eraseIdx i) env)).testBit i = false := by
    rw [testBit_spreadRow, if_neg (lt_irrefl _), if_pos rfl]
  cases hval : (rowIndex vars env).testBit i with
  | false =>
    refine .inl (Nat.eq_of_testBit_eq fun j => ?_)
    rcases eq_or_ne j i with rfl | hj
    · rw [hval, h0]
    · exact hbit j hj
  | true =>
    refine .inr (Nat.eq_of_testBit_eq fun j => ?_)
    rw [Nat.testBit_or, Nat.testBit_two_pow]
    rcases eq_or_ne j i with rfl | hj
    · rw [hval, h0, decide_eq_true rfl]
      rfl
    · rw [hbit j hj, decide_eq_false (Ne.symm hj), Bool.or_false]

end LiveHD
