import LiveHD.Synth.Mask

/-!
# The sets that masks stand for

Every operation of `Mask` word by word, then as an operation on sets of positions.
-/

namespace LiveHD.Synth.Mask

open BitVec hiding getElem?_eq_getElem getElem?_eq_none lt_trichotomy or_assoc shiftLeft_eq
open Bool hiding or_assoc
open List Set

open Words (Word bit)

/-! ## Words and bits -/

lemma getD_resize (ws : List Word) (n k : ℕ) (f d : Word) :
    (resize ws n f).getD k d = if k < n then ws.getD k f else d := by
  rw [resize, getD_eq_getElem?_getD, getElem?_append]
  by_cases hk : k < n
  · rw [if_pos hk, length_take]
    by_cases hl : k < ws.length
    · rw [if_pos (lt_min hk hl), getElem?_take, if_pos hk,
        getD_eq_getElem?_getD, getElem?_eq_getElem hl]
      rfl
    · rw [if_neg fun h => hl (h.trans_le (min_le_right _ _)), getElem?_replicate, if_pos (by omega),
        getD_eq_default _ _ (not_lt.1 hl)]
      rfl
  · rw [if_neg hk, getElem?_take, if_neg hk, getElem?_replicate, length_take,
      if_neg (by omega), if_neg (by omega)]
    rfl

variable (f : ℕ → Word → Word) (a b : ℤ) (ws : List Word)

@[simp] lemma length_resize (ws : List Word) (n : ℕ) (f : Word) : (resize ws n f).length = n := by
  rw [resize, length_append, length_take, length_replicate]
  omega

@[simp] lemma length_updateWords : (updateWords f a b ws).length = ws.length :=
  length_mapIdx

lemma getD_updateWords (k : ℕ) (d : Word) : (updateWords f a b ws).getD k d =
      if k < ws.length then if a ≤ k ∧ k ≤ b then f k (ws.getD k d) else ws.getD k d else d := by
  rw [updateWords, getD_eq_getElem?_getD, getElem?_mapIdx, getD_eq_getElem?_getD]
  by_cases hk : k < ws.length
  · rw [if_pos hk, getElem?_eq_getElem hk]
    rfl
  · rw [if_neg hk, getElem?_eq_none (not_lt.1 hk)]
    rfl

@[simp] lemma getLsbD_allOnes {j : ℕ} (hj : j < 64) : (allOnes 64).getLsbD j = true := by
  rw [BitVec.getLsbD_allOnes, decide_eq_true hj]

lemma getLsbD_lowOnes {n : ℕ} (hn : n < 64) (j : ℕ) : (lowOnes n).getLsbD j = decide (j < n) := by
  have hone : ((1 : Word) <<< n).toNat = 2 ^ n := by
    rw [toNat_shiftLeft, Nat.shiftLeft_eq, show (1 : Word).toNat = 1 from rfl, one_mul]
    exact Nat.mod_eq_of_lt (Nat.pow_lt_pow_right (by decide) hn)
  have hpow : 0 < 2 ^ n := Nat.two_pow_pos n
  have hval : (lowOnes n).toNat = 2 ^ n - 1 := by
    rw [lowOnes, BitVec.toNat_sub, hone]
    change (2 ^ 64 - 1 + 2 ^ n) % 2 ^ 64 = 2 ^ n - 1
    omega
  rw [getLsbD, hval, Nat.testBit_two_pow_sub_one]

/-- The range is met by the word, and its bits are those of the range. -/
lemma getLsbD_rangeBits {lo hi : ℤ} {k j : ℕ}
    (hk : max lo (k * 64) < min hi (k * 64 + 64)) (hj : j < 64) :
    (rangeBits lo hi k).getLsbD j = true ↔ lo ≤ 64 * k + j ∧ (64 * k + j : ℤ) < hi := by
  obtain ⟨start, hst⟩ : ∃ start : ℕ, max lo (k * 64 : ℤ) = k * 64 + start :=
    ⟨(max lo (k * 64) - k * 64).toNat, by omega⟩
  obtain ⟨width, hw⟩ : ∃ width : ℕ, min hi (k * 64 + 64 : ℤ) = k * 64 + start + width :=
    ⟨(min hi (k * 64 + 64) - k * 64 - start).toNat, by omega⟩
  have hst' : max lo (k * 64 : ℤ) - k * 64 = start := by omega
  have hw' : min hi (k * 64 + 64 : ℤ) - k * 64 - start = width := by omega
  rw [rangeBits, hst', hw', Int.toNat_natCast, Int.toNat_natCast, getLsbD_shiftLeft]
  have hbi : j < start ∨ (start ≤ j ∧
      (if (width : ℤ) = 64 then allOnes 64 else lowOnes width).getLsbD (j - start) =
        decide (j - start < width)) := by
    rcases lt_or_ge j start with h | h
    · exact .inl h
    · refine .inr ⟨h, ?_⟩
      split
      · rw [getLsbD_allOnes (by omega), decide_eq_true (by omega)]
      · exact getLsbD_lowOnes (by omega) _
  rcases hbi with h | ⟨h, hb⟩
  · rw [decide_eq_true h, Bool.not_true, Bool.and_false]
    constructor
    · intro hf
      cases hf
    · intro hf
      omega
  · rw [decide_eq_true hj, decide_eq_false (not_lt.2 h), Bool.not_false, Bool.and_true,
      Bool.true_and, hb, decide_eq_true_iff]
    omega

/-! ## The set of a mask -/

variable {m other : Mask} {lo hi i : ℤ} {k j : ℕ}

lemma word_natCast (m : Mask) (k : ℕ) : m.word k = m.words.getD k m.fill := by
  rw [word, if_pos (Int.natCast_nonneg k), Int.toNat_natCast]

lemma getLsbD_fill (m : Mask) (hj : j < 64) : m.fill.getLsbD j = m.tail := by
  unfold fill
  split
  next h => rw [getLsbD_allOnes hj, h]
  next h => exact getLsbD_zero.trans (eq_false_iff.2 h).symm

lemma mem_members_iff (hj : j < 64) : (64 * k + j : ℤ) ∈ m.members ↔
    (m.word k).getLsbD j = true := by
  rw [word_natCast]
  change (0 : ℤ) ≤ 64 * k + j ∧ (if (64 * k + j : ℤ) < 64 * m.words.length then _ else _) ↔ _
  by_cases hk : k < m.words.length
  · rw [if_pos (by omega), bit, show (64 * k + j : ℤ).toNat = 64 * k + j by
      omega, show (64 * k + j) / 64 = k by omega,
      show (64 * k + j) % 64 = j by omega, getD_eq_getElem _ _ hk, getD_eq_getElem _ _ hk]
    exact and_iff_right (by omega)
  · rw [if_neg (by omega), getD_eq_default _ _ (not_lt.1 hk), getLsbD_fill m hj]
    exact and_iff_right (by omega)

lemma nonneg_of_mem (h : i ∈ m.members) : 0 ≤ i := h.1

/-- A position is a word and a bit of it. -/
lemma exists_place (h : 0 ≤ i) : ∃ k j : ℕ, j < 64 ∧ i = 64 * k + j :=
  ⟨(i / 64).toNat, (i % 64).toNat, by omega, by omega⟩

/-- A set of positions is a mask's when every bit of every word tells membership. -/
lemma members_eq {S : Set ℤ} (hS : ∀ i ∈ S, 0 ≤ i)
    (h : ∀ k j : ℕ, j < 64 → ((m.word k).getLsbD j = true ↔ (64 * k + j : ℤ) ∈ S)) :
    m.members = S := by
  ext i
  constructor
  · intro hi
    obtain ⟨k, j, hj, rfl⟩ := exists_place (nonneg_of_mem hi)
    exact (h k j hj).1 ((mem_members_iff hj).1 hi)
  · intro hi
    obtain ⟨k, j, hj, rfl⟩ := exists_place (hS _ hi)
    exact (mem_members_iff hj).2 ((h k j hj).2 hi)

lemma test_iff : m.test i = true ↔ i ∈ m.members := by
  unfold test
  split
  next h => exact iff_of_false false_ne_true fun hi => absurd (nonneg_of_mem hi) (not_le.2 h)
  next h =>
    obtain ⟨k, j, hj, rfl⟩ := exists_place (not_lt.1 h)
    rw [mem_members_iff hj, word_natCast,
      show (64 * k + j : ℤ) / 64 = k by omega, show (64 * k + j : ℤ) % 64 = j by omega,
      Int.toNat_natCast, Int.toNat_natCast]
    split
    next hk => rw [getD_eq_default _ _ (by omega), getLsbD_fill m hj]
    next hk => rw [getD_eq_getElem _ _ (by omega), getD_eq_getElem _ _ (by omega)]

@[simp] lemma getLsbD_zero (j : ℕ) : (0 : Word).getLsbD j = false := BitVec.getLsbD_zero

lemma exists_bit {w : Word} (hw : w ≠ 0) : ∃ j < 64, w.getLsbD j = true := by
  by_contra hall
  refine hw (eq_of_getLsbD_eq fun j hj => ?_)
  rw [getLsbD_zero]
  exact eq_false_iff.2 fun h => hall ⟨j, hj, h⟩

lemma any_iff : m.any = true ↔ m.members.Nonempty := by
  unfold any
  rw [or_eq_true, any_eq_true]
  constructor
  · rintro (ht | ⟨w, hw, hne⟩)
    · refine ⟨64 * m.words.length, by omega, ?_⟩
      rw [if_neg (lt_irrefl _), ht]
    · obtain ⟨k, hk, rfl⟩ := mem_iff_getElem.1 hw
      obtain ⟨j, hj, hbit⟩ := exists_bit (of_decide_eq_true hne)
      refine ⟨64 * k + j, (mem_members_iff hj).2 ?_⟩
      rw [word_natCast, getD_eq_getElem _ _ hk, hbit]
  · rintro ⟨i, hi⟩
    obtain ⟨k, j, hj, rfl⟩ := exists_place (nonneg_of_mem hi)
    rw [mem_members_iff hj, word_natCast] at hi
    by_cases hk : k < m.words.length
    · rw [getD_eq_getElem _ _ hk] at hi
      refine .inr ⟨_, getElem_mem hk, decide_eq_true fun h0 => ?_⟩
      rw [h0, getLsbD_zero] at hi
      cases hi
    · rw [getD_eq_default _ _ (not_lt.1 hk), getLsbD_fill m hj] at hi
      exact .inl hi

/-- The highest bit of the words below `n`, and there is none above it. -/
lemma highestBelow_spec (ws : List Word) (n : ℕ) :
    (highestBelow ws n = -1 ∧ ∀ k < n, ws.getD k 0 = 0) ∨
      ∃ k < n, ∃ j : ℕ, j < 64 ∧ highestBelow ws n = 64 * k + j ∧ (ws.getD k 0).getLsbD j = true ∧
        (∀ j' : ℕ, j < j' → (ws.getD k 0).getLsbD j' = false) ∧ ∀ k', k < k' →
        k' < n → ws.getD k' 0 = 0 := by
  induction n with
  | zero => exact .inl ⟨rfl, fun k hk => absurd hk (Nat.not_lt_zero k)⟩
  | succ n ih =>
    rw [highestBelow]
    by_cases h0 : ws.getD n 0 = 0
    · rw [if_neg (not_not.2 h0)]
      rcases ih with ⟨heq, hall⟩ | ⟨k, hk, j, hj, heq, hbit, hab, hwo⟩
      · refine .inl ⟨heq, fun k hk => ?_⟩
        rcases Nat.lt_succ_iff_lt_or_eq.1 hk with hk | rfl
        · exact hall k hk
        · exact h0
      · refine .inr ⟨k, hk.trans n.lt_succ_self, j, hj, heq, hbit, hab, fun k' hk' hn => ?_⟩
        rcases Nat.lt_succ_iff_lt_or_eq.1 hn with hn | rfl
        · exact hwo k' hk' hn
        · exact h0
    · rw [if_pos h0]
      have hclz : (ws.getD n 0).clz.toNat < 64 := clz_lt_iff_ne_zero.2 h0
      refine .inr ⟨n, n.lt_succ_self, 63 - (ws.getD n 0).clz.toNat, by omega, by omega, ?_, ?_, ?_⟩
      · exact getLsbD_true_clz_of_ne_zero (by decide) h0
      · intro j' hj'
        exact Nat.testBit_lt_two_pow (toNat_lt_two_pow_sub_clz.trans_le
          (Nat.pow_le_pow_right (by decide) (by omega)))
      · intro k' hk' hn
        omega

/-- What `highest` reads: the top of an unbounded set, and else the greatest member. -/
def Tops (h : ℤ) (m : Mask) (S : Set ℤ) : Prop :=
  if m.tail then h = int64Max else (S = ∅ ∧ h = -1) ∨ IsGreatest S h

lemma highest_tops (m : Mask) : Tops m.highest m m.members := by
  unfold Tops highest
  by_cases ht : m.tail = true
  · rw [if_pos ht, if_pos ht]
  · rw [if_neg ht, if_neg ht]
    have hfi : m.fill = 0 := if_neg ht
    rcases highestBelow_spec m.words m.words.length with ⟨heq, hall⟩ | ⟨k, hk, j,
      hj, heq, hbit, hab, hwo⟩
    · refine .inl ⟨eq_empty_of_forall_notMem fun i hi => ?_, heq⟩
      obtain ⟨k, j, hj, rfl⟩ := exists_place (nonneg_of_mem hi)
      rw [mem_members_iff hj, word_natCast, hfi] at hi
      have h0 : m.words.getD k 0 = 0 := by
        by_cases hk : k < m.words.length
        · exact hall k hk
        · exact getD_eq_default _ _ (not_lt.1 hk)
      rw [h0, getLsbD_zero] at hi
      cases hi
    · refine .inr ⟨?_, fun i hi => ?_⟩
      · rw [heq, mem_members_iff hj, word_natCast, hfi, hbit]
      · obtain ⟨k', j', hj', rfl⟩ := exists_place (nonneg_of_mem hi)
        rw [mem_members_iff hj', word_natCast, hfi] at hi
        by_contra hlt
        have hf : (m.words.getD k' 0).getLsbD j' = false := by
          rcases lt_trichotomy k k' with hkk | rfl | hkk
          · have h0 : m.words.getD k' 0 = 0 := by
              by_cases hk' : k' < m.words.length
              · exact hwo k' hkk hk'
              · exact getD_eq_default _ _ (not_lt.1 hk')
            rw [h0, getLsbD_zero]
          · exact hab j' (by omega)
          · omega
        rw [hf] at hi
        cases hi

/-! ## Ranges -/

/-- The words between the first and the last are those that meet the range. -/
lemma overlap (hk : lo / 64 ≤ k ∧ (k : ℤ) ≤ (hi - 1) / 64) (hlt : lo < hi) :
    max lo (k * 64) < min hi (k * 64 + 64) := by
  omega

lemma notMem_range (hj : j < 64) (hk : ¬(lo / 64 ≤ k ∧ (k : ℤ) ≤ (hi - 1) / 64)) :
    (64 * k + j : ℤ) ∉ Set.Ico lo hi := by
  rintro ⟨hle, hlt⟩
  omega

lemma members_orRange {ws : List Word} {t : Bool} (hlo : 0 ≤ lo) (hlt : lo < hi)
    (hro : hi ≤ 64 * ws.length) :
    (⟨orRange lo hi ws, t⟩ : Mask).members = (⟨ws, t⟩ : Mask).members ∪ Set.Ico lo hi := by
  refine members_eq ?_ fun k j hj => ?_
  · rintro i (hi' | hi')
    · exact nonneg_of_mem hi'
    · exact hlo.trans hi'.1
  · rw [mem_union, mem_members_iff hj]
    change ((orRange lo hi ws).getD k (fill ⟨ws, t⟩)).getLsbD j = true ↔
      (ws.getD k (fill ⟨ws, t⟩)).getLsbD j = true ∨ _
    rw [orRange, getD_updateWords]
    by_cases hr : lo / 64 ≤ k ∧ (k : ℤ) ≤ (hi - 1) / 64
    · rw [if_pos (by omega), if_pos hr, getLsbD_or, or_eq_true,
        getLsbD_rangeBits (overlap hr hlt) hj]
      rfl
    · rw [or_iff_left (notMem_range hj hr)]
      split
      · rfl
      next hk => rw [getD_eq_default _ _ (not_lt.1 hk)]

lemma members_resize_zero {ws : List Word} {n : ℕ} (hn : ws.length ≤ n) :
    (⟨resize ws n 0, false⟩ : Mask).members = (⟨ws, false⟩ : Mask).members := by
  refine members_eq (fun _ hi => nonneg_of_mem hi) fun k j hj => ?_
  rw [mem_members_iff hj]
  change ((resize ws n 0).getD k 0).getLsbD j = true ↔ (ws.getD k 0).getLsbD j = true
  rw [getD_resize]
  split
  · rfl
  · rw [getD_eq_default _ _ (by omega)]

lemma setRange_members (m : Mask) (lo hi : ℤ) :
    (m.setRange lo hi).members = m.members ∪ Set.Ico (max lo 0) hi := by
  unfold setRange
  by_cases hem : hi ≤ max lo 0
  · rw [if_pos hem, Set.Ico_eq_empty (not_lt.2 hem), union_empty]
  · rw [if_neg hem]
    have hlt := not_le.1 hem
    have hlo : 0 ≤ max lo 0 := le_max_right _ _
    -- What lies above the storage of a mask with a tail is a member already.
    have hold : ∀ i, m.tail = true → (64 * m.words.length : ℤ) ≤ i →
        i ∈ m.members := fun i ht hi' =>
      ⟨by omega, by rw [if_neg (not_lt.2 hi'), ht]⟩
    by_cases hfi : m.tail = true ∧ (m.words.length : ℤ) ≤ max lo 0 / 64
    · rw [if_pos hfi]
      refine (union_eq_self_of_subset_right fun i hi' => hold i hfi.1 ?_).symm
      have := hi'.1
      omega
    · rw [if_neg hfi]
      by_cases hla : (m.words.length : ℤ) ≤ (hi - 1) / 64
      · rw [if_pos hla]
        by_cases ht : m.tail = true
        · have hst : max lo 0 < (m.words.length : ℤ) * 64 := by
            have hlo' : ¬(m.words.length : ℤ) ≤ max lo 0 / 64 := fun h => hfi ⟨ht, h⟩
            omega
          rw [if_pos ht, if_neg (not_le.2 hst), members_orRange hlo hst (by rw [mul_comm])]
          ext i
          constructor
          · rintro (hi' | hi')
            · exact .inl hi'
            · refine .inr ⟨hi'.1, ?_⟩
              have := hi'.2
              omega
          · rintro (hi' | hi')
            · exact .inl hi'
            · rcases lt_or_ge i (m.words.length * 64) with h | h
              · exact .inr ⟨hi'.1, h⟩
              · exact .inl (hold i ht (by omega))
        · have hbo : m = ⟨m.words, false⟩ := by rw [← eq_false_iff.2 ht]
          have hro : hi ≤ 64 * (resize m.words ((hi - 1) / 64 + 1).toNat 0).length := by
            rw [length_resize]
            omega
          have hgr : m.words.length ≤ ((hi - 1) / 64 + 1).toNat := by omega
          rw [if_neg ht, eq_false_iff.2 ht, members_orRange hlo hlt hro,
            members_resize_zero hgr, ← hbo]
      · rw [if_neg hla]
        exact members_orRange hlo hlt (by omega)

lemma getLsbD_clearWord (old : Word) (hk : max lo (k * 64) < min hi (k * 64 + 64)) (hj : j < 64) :
    (clearWord lo hi k old).getLsbD j = true ↔
    old.getLsbD j = true ∧ (64 * k + j : ℤ) ∉ Set.Ico lo hi := by
  rw [clearWord, getLsbD_and, getLsbD_not, decide_eq_true hj, Bool.true_and,
    and_eq_true, not_eq_true',
    eq_false_iff, Ne, getLsbD_rangeBits hk hj]
  rfl

@[simp] lemma length_clearRange (lo hi : ℤ) (ws : List Word) :
    (clearRange lo hi ws).length = ws.length := by
  unfold clearRange
  split
  · exact length_updateWords ..
  · rfl

lemma getLsbD_clearRange {ws : List Word} (hk : k < ws.length) (hj : j < 64) (d : Word) :
    ((clearRange lo hi ws).getD k d).getLsbD j = true ↔
    (ws.getD k d).getLsbD j = true ∧ (64 * k + j : ℤ) ∉ Set.Ico lo hi := by
  unfold clearRange
  by_cases hlt : lo < hi
  · rw [if_pos hlt, getD_updateWords, if_pos hk]
    by_cases hr : lo / 64 ≤ k ∧ (k : ℤ) ≤ (hi - 1) / 64
    · rw [if_pos hr, getLsbD_clearWord _ (overlap hr hlt) hj]
    · rw [if_neg hr, and_iff_left (notMem_range hj hr)]
  · rw [if_neg hlt, Set.Ico_eq_empty hlt, and_iff_left (notMem_empty _)]

lemma getLsbD_clearTail (old : Word) (hj : j < 64) :
    (clearTail lo hi k old).getLsbD j = true ↔
    old.getLsbD j = true ∧ (64 * k + j : ℤ) ∉ Set.Ico lo hi := by
  unfold clearTail
  split
  · exact getLsbD_clearWord _ (by omega) hj
  · refine (and_iff_left ?_).symm
    rintro ⟨hle, hlt⟩
    omega

lemma without_members (m : Mask) (lo hi : ℤ) :
    (m.without lo hi).members = m.members \ Set.Ico lo hi := by
  refine members_eq (fun i hi' => nonneg_of_mem hi'.1) fun k j hj => ?_
  have hpos : (64 * k + j : ℤ) ∈ Set.Ico (max lo 0) hi ↔ (64 * k + j : ℤ) ∈ Set.Ico lo hi :=
    and_congr_left' ⟨fun h => (le_max_left _ _).trans h, fun h => max_le h (by omega)⟩
  rw [mem_sdiff, mem_members_iff hj, word_natCast, word_natCast, ← hpos]
  unfold without
  by_cases hmo : m.tail = true ∧ (m.words.length : ℤ) * 64 < hi
  · rw [if_pos hmo]
    have hfi : m.fill = allOnes 64 := if_pos hmo.1
    change ((updateWords _ _ _ (resize _ _ _)).getD k m.fill).getLsbD j = true ↔ _
    rw [getD_updateWords, length_resize, getD_resize, hfi]
    by_cases hc : k < ((hi + 63) / 64).toNat
    · rw [if_pos hc, if_pos hc]
      by_cases hk : k < m.words.length
      · rw [if_neg (by omega), getLsbD_clearRange hk hj]
      · rw [if_pos (by omega), getLsbD_clearTail _ hj,
          getD_eq_default _ _ (by rw [length_clearRange]; omega),
          getD_eq_default _ _ (not_lt.1 hk)]
    · rw [if_neg hc, getD_eq_default _ _ (by omega)]
      refine (and_iff_left ?_).symm
      rintro ⟨hle, hlt⟩
      omega
  · rw [if_neg hmo]
    change ((clearRange _ _ _).getD k m.fill).getLsbD j = true ↔ _
    by_cases hk : k < m.words.length
    · exact getLsbD_clearRange hk hj _
    · rw [getD_eq_default _ _ (by rw [length_clearRange]; omega),
        getD_eq_default _ _ (not_lt.1 hk), getLsbD_fill m hj]
      refine (and_iff_left_of_imp fun ht hr => hmo ⟨ht, ?_⟩).symm
      have := hr.2
      omega

/-! ## Unions -/

section

variable (other : Mask) (n : ℕ) (ws : List Word) (changed : Bool)

lemma mergeWords_length : (mergeWords other n ws changed).1.length = ws.length := by
  induction ws generalizing n changed with
  | nil => rfl
  | cons w ws ih => exact congrArg Nat.succ (ih _ _)

lemma getD_mergeWords (d : Word) (hk : k < ws.length) :
    (mergeWords other n ws changed).1.getD k d = ws.getD k d ||| other.word ((n + k : ℕ) : ℤ) := by
  induction ws generalizing n changed k with
  | nil => cases hk
  | cons w ws ih =>
    cases k with
    | zero =>
      rw [mergeWords]
      split
      · rfl
      next h => exact (not_not.1 h).symm
    | succ k =>
      rw [mergeWords, getD_cons_succ, getD_cons_succ, ih _ _ (Nat.lt_of_succ_lt_succ hk),
        show n + 1 + k = n + (k + 1) by omega]

lemma mergeWords_changed : (mergeWords other n ws changed).2 = true ↔
      changed = true ∨ ∃ k < ws.length, ws.getD k 0 ||| other.word
      ((n + k : ℕ) : ℤ) ≠ ws.getD k 0 := by
  induction ws generalizing n changed with
  | nil => exact ⟨.inl, fun h => h.resolve_right fun ⟨_, hk, _⟩ => absurd hk (Nat.not_lt_zero _)⟩
  | cons w ws ih =>
    rw [mergeWords, ih, or_eq_true, decide_eq_true_iff, or_assoc]
    refine or_congr_right ⟨?_, ?_⟩
    · rintro (h | ⟨k, hk, h⟩)
      · exact ⟨0, Nat.succ_pos _, h⟩
      · refine ⟨k + 1, Nat.succ_lt_succ hk, ?_⟩
        rwa [getD_cons_succ, show n + (k + 1) = n + 1 + k by omega]
    · rintro ⟨k, hk, h⟩
      cases k with
      | zero => exact .inl h
      | succ k =>
        refine .inr ⟨k, Nat.lt_of_succ_lt_succ hk, ?_⟩
        rwa [getD_cons_succ, show n + (k + 1) = n + 1 + k by omega] at h

end

/-- The positions of this tail that `merge` takes into storage and fills from the other mask
alone. -/
def mergeGap (m other : Mask) : Set ℤ :=
  if m.tail = true ∧ other.tail = true then
    Set.Ico (64 * m.words.length) (64 * other.words.length) else ∅

/-- The words before the loop of `merge`. -/
def mergeBase (m other : Mask) : List Word :=
  if m.words.length < other.words.length then
    resize m.words other.words.length
      (if (m.tail || (other.tail && !m.tail)) && !other.tail then allOnes 64 else 0)
  else m.words

lemma mergeBase_length : (mergeBase m other).length = max m.words.length other.words.length := by
  unfold mergeBase
  split
  · rw [length_resize, max_eq_right (by omega)]
  · rw [max_eq_left (by omega)]

lemma getLsbD_mergeBase (hk : k < max m.words.length other.words.length) (hj : j < 64) (d : Word) :
    ((mergeBase m other).getD k d).getLsbD j = true ↔
    (64 * k + j : ℤ) ∈ m.members \ mergeGap m other := by
  rw [mem_sdiff, mem_members_iff hj, word_natCast]
  have hgap : ∀ h : k < m.words.length, (64 * k + j : ℤ) ∉ mergeGap m other := by
    intro h hin
    unfold mergeGap at hin
    split at hin
    · have := hin.1
      omega
    · exact hin
  unfold mergeBase
  by_cases hlt : m.words.length < other.words.length
  · rw [if_pos hlt, getD_resize, if_pos (by omega)]
    by_cases hk' : k < m.words.length
    · rw [getD_eq_getElem _ _ hk', getD_eq_getElem _ _ hk', and_iff_left (hgap hk')]
    · rw [getD_eq_default _ _ (not_lt.1 hk'), getD_eq_default _ _ (not_lt.1 hk'), getLsbD_fill m hj]
      unfold mergeGap
      cases hm : m.tail <;> cases ho : other.tail
      · exact iff_of_false (by rw [if_neg (by decide), getLsbD_zero]; decide) fun h =>
          false_ne_true h.1
      · exact iff_of_false (by rw [if_neg (by decide), getLsbD_zero]; decide) fun h =>
          false_ne_true h.1
      · rw [if_pos (by decide), getLsbD_allOnes hj]
        exact iff_of_true rfl ⟨rfl, notMem_empty _⟩
      · refine iff_of_false (by rw [if_neg (by decide), getLsbD_zero]; decide) fun h => h.2 ?_
        exact ⟨by omega, by omega⟩
  · have hk' : k < m.words.length := by omega
    rw [if_neg hlt, getD_eq_getElem _ _ hk', getD_eq_getElem _ _ hk', and_iff_left (hgap hk')]

lemma merge_members (m other : Mask) :
    (m.merge other).1.members = m.members \ mergeGap m other ∪ other.members := by
  refine members_eq ?_ fun k j hj => ?_
  · rintro i (hi | hi)
    · exact nonneg_of_mem hi.1
    · exact nonneg_of_mem hi
  · rw [mem_union, mem_members_iff (m := other) hj]
    change ((mergeWords other 0 (mergeBase m other) _).1.getD k _).getLsbD j = true ↔ _
    by_cases hk : k < max m.words.length other.words.length
    · rw [getD_mergeWords _ _ _ _ _ (hk.trans_eq mergeBase_length.symm), getLsbD_or, or_eq_true,
        getLsbD_mergeBase hk hj, zero_add]
    · rw [getD_eq_default _ _ (by rw [mergeWords_length, mergeBase_length]; omega),
        getLsbD_fill _ hj, mem_sdiff,
        mem_members_iff hj, word_natCast, word_natCast, getD_eq_default _ _ (by omega),
        getD_eq_default _ _ (by omega),
        getLsbD_fill _ hj, getLsbD_fill _ hj]
      have hgap : (64 * k + j : ℤ) ∉ mergeGap m other := by
        unfold mergeGap
        split
        · rintro ⟨-, h⟩
          omega
        · exact notMem_empty _
      rw [and_iff_left hgap]
      change (m.tail || (other.tail && !m.tail)) = true ↔ _
      cases m.tail <;> cases other.tail <;> decide

/-- The return value tells whether the other mask has something outside of what was kept. -/
lemma merge_grew (m other : Mask) : (m.merge other).2 = true ↔
    ¬other.members ⊆ m.members \ mergeGap m other := by
  rw [not_subset]
  change (mergeWords other 0 (mergeBase m other) _).2 = true ↔ _
  rw [mergeWords_changed, mergeBase_length, and_eq_true, not_eq_true']
  constructor
  · rintro (⟨ho, hm⟩ | ⟨k, hk, hne⟩)
    · have hab : (64 * (max m.words.length other.words.length : ℕ) + (0 : ℕ) : ℤ) ∉ m.members := by
        rw [mem_members_iff (by decide), word_natCast, getD_eq_default _ _ (le_max_left _ _),
          getLsbD_fill _ (by decide), hm]
        decide
      refine ⟨_, (mem_members_iff (by decide)).2 ?_, fun h => hab h.1⟩
      rw [word_natCast, getD_eq_default _ _ (le_max_right _ _), getLsbD_fill _ (by decide), ho]
    · by_contra hall
      refine hne (eq_of_getLsbD_eq fun j hj => ?_)
      rw [Nat.zero_add, getLsbD_or, Bool.eq_iff_iff, or_eq_true, or_iff_left_iff_imp,
        getLsbD_mergeBase hk hj]
      intro hot
      by_contra hnot
      exact hall ⟨_, (mem_members_iff hj).2 hot, hnot⟩
  · rintro ⟨i, hi, hnot⟩
    obtain ⟨k, j, hj, rfl⟩ := exists_place (nonneg_of_mem hi)
    rw [mem_members_iff hj] at hi
    by_cases hk : k < max m.words.length other.words.length
    · refine .inr ⟨k, hk, fun heq => hnot ?_⟩
      rw [← getLsbD_mergeBase hk hj 0, ← heq, Nat.zero_add, getLsbD_or, hi, Bool.or_true]
    · left
      rw [word_natCast, getD_eq_default _ _ (by omega), getLsbD_fill _ hj] at hi
      refine ⟨hi, eq_false_iff.2 fun hm => hnot ⟨(mem_members_iff hj).2 ?_, ?_⟩⟩
      · rw [word_natCast, getD_eq_default _ _ (by omega), getLsbD_fill _ hj, hm]
      · unfold mergeGap
        rw [if_pos ⟨hm, hi⟩]
        rintro ⟨-, h⟩
        omega

end LiveHD.Synth.Mask
