import Mathlib

/-!
# Ranges of integer operations

An operation that is monotone or antitone in each argument takes its extremes over a box
at the corners of the box.  Truncated division and shifts are such operations as long as
the divisor keeps its sign.
-/

namespace LiveHD

open Set Int

section

variable {α β γ : Type*} [Preorder α] [Preorder β] [LinearOrder γ]

/-- Monotone or antitone on a set. -/
def OneWayOn (f : α → γ) (s : Set α) : Prop := MonotoneOn f s ∨ AntitoneOn f s

lemma OneWayOn.mono {f : α → γ} {s t : Set α} (h : OneWayOn f t) (hst : s ⊆ t) : OneWayOn f s :=
  h.imp (MonotoneOn.mono · hst) (AntitoneOn.mono · hst)

lemma OneWayOn.between {f : α → γ} {a b x : α} (h : OneWayOn f (Icc a b)) (hx : x ∈ Icc a b) :
    min (f a) (f b) ≤ f x ∧ f x ≤ max (f a) (f b) := by
  have hab := hx.1.trans hx.2
  rcases h with h | h
  · exact ⟨min_le_of_left_le (h (left_mem_Icc.2 hab) hx hx.1),
      le_max_of_le_right (h hx (right_mem_Icc.2 hab) hx.2)⟩
  · exact ⟨min_le_of_right_le (h hx (right_mem_Icc.2 hab) hx.2),
      le_max_of_le_left (h (left_mem_Icc.2 hab) hx hx.1)⟩

/-- The extremes over a box are at its corners. -/
lemma corner_bounds {f : α → β → γ} {a a' x : α} {b b' y : β}
    (hf : ∀ y ∈ Icc b b', OneWayOn (f · y) (Icc a a')) (hg : ∀ x, OneWayOn (f x) (Icc b b'))
    (hx : x ∈ Icc a a') (hy : y ∈ Icc b b') :
    min (min (f a b) (f a b')) (min (f a' b) (f a' b')) ≤ f x y ∧ f x y ≤ max (max (f a b) (f a b'))
    (max (f a' b) (f a' b')) := by
  obtain ⟨hlo, hhi⟩ := (hf y hy).between hx
  obtain ⟨hlo1, hhi1⟩ := (hg a).between hy
  obtain ⟨hlo2, hhi2⟩ := (hg a').between hy
  exact ⟨(min_le_min hlo1 hlo2).trans hlo, hhi.trans (max_le_max hhi1 hhi2)⟩

end

/-! ## Truncated division -/

lemma abs_tdiv_le (x c : ℤ) : |x.tdiv c| ≤ |x| := by
  rw [abs_eq_natAbs, abs_eq_natAbs]
  exact_mod_cast natAbs_tdiv_le_natAbs x c

/-- The remainder is below the divisor in magnitude. -/
lemma abs_tmod_le {c : ℤ} (hc : c ≠ 0) (x : ℤ) : |x.tmod c| ≤ |c| - 1 := by
  have hlt : x.natAbs % c.natAbs < c.natAbs := Nat.mod_lt _ (natAbs_pos.2 hc)
  have hmod := natAbs_tmod x c
  rw [abs_eq_natAbs, abs_eq_natAbs]
  omega

lemma tmod_nonpos {x : ℤ} (c : ℤ) (hx : x ≤ 0) : x.tmod c ≤ 0 := by
  have := tmod_nonneg c (a := -x) (by omega)
  rw [neg_tmod] at this
  omega

lemma abs_tmod_le_self (x c : ℤ) : |x.tmod c| ≤ |x| := by
  have hmod := natAbs_tmod x c
  have := Nat.mod_le x.natAbs c.natAbs
  rw [abs_eq_natAbs, abs_eq_natAbs]
  omega

lemma tmod_le_self {x : ℤ} (c : ℤ) (hx : 0 ≤ x) : x.tmod c ≤ x := by
  have habs := abs_tmod_le_self x c
  rw [abs_of_nonneg hx] at habs
  exact (le_abs_self _).trans habs

lemma tdiv_le_tdiv_left {x y y' : ℤ} (hx : 0 ≤ x) (hy : 0 < y) (h : y ≤ y') :
    x.tdiv y' ≤ x.tdiv y := by
  lift x to ℕ using hx
  lift y to ℕ using hy.le
  lift y' to ℕ using hy.le.trans h
  rw [← ofNat_tdiv, ← ofNat_tdiv]
  exact_mod_cast Nat.div_le_div_left (ofNat_le.1 h) (natCast_pos.1 hy)

/-- By positive divisors a dividend only gets nearer to zero. -/
lemma oneWayOn_tdiv_pos (x : ℤ) : OneWayOn (x.tdiv ·) (Ioi 0) := by
  rcases le_total 0 x with hx | hx
  · exact .inr fun y hy y' _ h => tdiv_le_tdiv_left hx hy h
  · refine .inl fun y hy y' _ h => ?_
    have hneg := tdiv_le_tdiv_left (Int.neg_nonneg_of_nonpos hx) hy h
    rw [Int.neg_tdiv, Int.neg_tdiv] at hneg
    exact Int.neg_le_neg_iff.1 hneg

lemma oneWayOn_tdiv_neg (x : ℤ) : OneWayOn (x.tdiv ·) (Iio 0) := by
  rcases oneWayOn_tdiv_pos x with h | h
  · refine .inl fun y hy y' hy' hle => ?_
    have hpos := h (Int.neg_pos.2 hy') (Int.neg_pos.2 hy) (Int.neg_le_neg hle)
    simp only [Int.tdiv_neg] at hpos
    exact Int.neg_le_neg_iff.1 hpos
  · refine .inr fun y hy y' hy' hle => ?_
    have hpos := h (Int.neg_pos.2 hy') (Int.neg_pos.2 hy) (Int.neg_le_neg hle)
    simp only [Int.tdiv_neg] at hpos
    exact Int.neg_le_neg_iff.1 hpos

/-- A divisor that is not zero keeps or turns the order of dividends. -/
lemma oneWayOn_tdiv_right {y : ℤ} (hy : y ≠ 0) (s : Set ℤ) : OneWayOn (tdiv · y) s := by
  rcases lt_or_gt_of_ne hy with hy | hy
  · refine .inr fun x _ x' _ h => ?_
    have hpos := Int.tdiv_le_tdiv (Int.neg_pos.2 hy) h
    simp only [Int.tdiv_neg] at hpos
    exact Int.neg_le_neg_iff.1 hpos
  · exact .inl fun x _ x' _ h => Int.tdiv_le_tdiv hy h

/-! ## Products and shifts -/

lemma oneWayOn_mul (x : ℤ) (s : Set ℤ) : OneWayOn (x * ·) s := by
  rcases le_total 0 x with hx | hx
  · exact .inl fun y _ y' _ h => mul_le_mul_of_nonneg_left h hx
  · exact .inr fun y _ y' _ h => mul_le_mul_of_nonpos_left h hx

lemma oneWayOn_mul_two_pow (x : ℤ) (s : Set ℕ) : OneWayOn (fun k => x * 2 ^ k) s := by
  have hpow : ∀ {k k' : ℕ}, k ≤ k' → (2 : ℤ) ^ k ≤ 2 ^ k' := fun h => pow_le_pow_right₀ one_le_two h
  rcases le_total 0 x with hx | hx
  · exact .inl fun k _ k' _ h => mul_le_mul_of_nonneg_left (hpow h) hx
  · exact .inr fun k _ k' _ h => mul_le_mul_of_nonpos_left (hpow h) hx

lemma oneWayOn_div_two_pow (x : ℤ) (s : Set ℕ) : OneWayOn (fun k => x / 2 ^ k) s := by
  have hsp : ∀ {k k' : ℕ}, k ≤ k' → ∃ m : ℕ, x / 2 ^ k' = x / 2 ^ k / 2 ^ m := by
    intro k k' h
    obtain ⟨m, rfl⟩ := Nat.exists_eq_add_of_le h
    exact ⟨m, by rw [ediv_ediv_of_nonneg (by positivity), ← pow_add]⟩
  rcases le_or_gt 0 x with hx | hx
  · refine .inr fun k _ k' _ h => ?_
    obtain ⟨m, hm⟩ := hsp h
    exact hm.trans_le (ediv_le_self _ (ediv_nonneg hx (by positivity)))
  · refine .inl fun k _ k' _ h => ?_
    obtain ⟨m, hm⟩ := hsp h
    have hneg : x / 2 ^ k < 0 := ediv_neg_of_neg_of_pos hx (by positivity)
    have hone : (1 : ℤ) ≤ 2 ^ m := one_le_pow₀ one_le_two
    refine le_of_le_of_eq ?_ hm.symm
    rw [Int.le_ediv_iff_mul_le (by positivity)]
    nlinarith

lemma oneWayOn_div_right (k : ℕ) (s : Set ℤ) : OneWayOn (fun x : ℤ => x / 2 ^ k) s :=
  Or.inl fun _ _ _ _ h => Int.ediv_le_ediv (by positivity) h

lemma oneWayOn_mul_right (y : ℤ) (s : Set ℤ) : OneWayOn (· * y) s := by
  simpa only [mul_comm] using oneWayOn_mul y s

/-- A floor division by a power of two is between its dividend and zero or minus one. -/
lemma div_two_pow_bounds {x lo hi : ℤ} (hlo : lo ≤ x) (hhi : x ≤ hi) (hlo0 : lo ≤ 0)
    (hhi0 : -1 ≤ hi) (k : ℕ) :
    lo ≤ x / 2 ^ k ∧ x / 2 ^ k ≤ hi := by
  have hpow : (0 : ℤ) < 2 ^ k := by positivity
  rcases le_or_gt 0 x with hx | hx
  · exact ⟨hlo0.trans (ediv_nonneg hx hpow.le), (ediv_le_self _ hx).trans hhi⟩
  · have hneg := ediv_neg_of_neg_of_pos hx hpow
    refine ⟨?_, by omega⟩
    rw [Int.le_ediv_iff_mul_le hpow]
    nlinarith

/-- Shifting out every bit of a value leaves its sign. -/
lemma div_two_pow_of_le {x : ℤ} {n k : ℕ} (hlo : -2 ^ n ≤ x) (hhi : x < 2 ^ n) (h : n ≤ k) :
    x / 2 ^ k = x / 2 ^ n := by
  have hsi : ∀ m, n ≤ m → x / 2 ^ m = if x < 0 then -1 else 0 := by
    intro m hm
    have hle : (2 : ℤ) ^ n ≤ 2 ^ m := pow_le_pow_right₀ one_le_two hm
    split
    · rw [ediv_eq_iff_of_pos (by positivity)]
      constructor <;> linarith
    · exact ediv_eq_zero_of_lt (by linarith) (by linarith)
  rw [hsi k h, hsi n le_rfl]

end LiveHD
