import LiveHD.Synth.MaskSound

/-!
# The set algebra of masks

Windows and shifts, and a mask obtained by any sequence of the operations.
-/

namespace LiveHD.Synth.Mask

open List Set

open Words (Word bit)

variable {m other : Mask} {lo hi width distance i : ℤ} {k j : ℕ}

/-! ## Windows -/

lemma mem_bounded {ws : List Word} (p : ℕ) :
    (p : ℤ) ∈ (⟨ws, false⟩ : Mask).members ↔ bit ws p = true := by
  have hp : (p : ℤ) = 64 * (p / 64 : ℕ) + (p % 64 : ℕ) := by omega
  rw [hp, mem_members_iff (Nat.mod_lt _ (by decide))]
  rfl

lemma bit_map_range (f : ℕ → Word) (n p : ℕ) :
    bit ((List.range n).map f) p = (decide (p / 64 < n) && (f (p / 64)).getLsbD (p % 64)) := by
  rw [bit]
  by_cases hp : p / 64 < n
  · rw [getD_eq_getElem _ _ (by rwa [length_map, length_range]), getElem_map, getElem_range,
      decide_eq_true hp, Bool.true_and]
  · rw [getD_eq_default _ _ (by rw [length_map, length_range]; omega), getLsbD_zero,
      decide_eq_false hp, Bool.false_and]

/-- The words of a bounded result without what lies above its width. -/
lemma mem_trim {f : ℕ → Word} (hw : 0 < width) (hj : j < 64) :
    (64 * k + j : ℤ) ∈ (⟨trim width ((List.range ((width + 63) / 64).toNat).map f),
      false⟩ : Mask).members ↔
      (64 * k + j : ℤ) < width ∧ (f k).getLsbD j = true := by
  have hca : (64 * k + j : ℤ) = (64 * k + j : ℕ) := by omega
  have hk : (64 * k + j) / 64 = k := by omega
  have hj' : (64 * k + j) % 64 = j := by omega
  generalize hn : ((width + 63) / 64).toNat = n
  rw [hca, mem_bounded]
  unfold trim
  by_cases hpa : width % 64 = 0
  · rw [if_neg (not_not.2 hpa), bit_map_range, hk, hj', Bool.and_eq_true, decide_eq_true_iff]
    exact and_congr_left' (by omega)
  · rw [if_pos hpa, Words.bit_modify _ _ (by rw [length_map, length_range]; omega),
      length_map, length_range, hk, hj',
      bit_map_range, hk, hj']
    split
    next hla =>
      have hlen : n - 1 < ((range n).map f).length := by
        rw [length_map, length_range]
        omega
      rw [BitVec.getLsbD_and, getLsbD_lowOnes (by omega), getD_eq_getElem _ _ hlen,
        getElem_map, getElem_range, hla,
        Bool.and_eq_true, decide_eq_true_iff, and_comm]
      exact and_congr_left' (by omega)
    · rw [Bool.and_eq_true, decide_eq_true_iff]
      exact and_congr_left' (by omega)

lemma notMem_empty (i : ℤ) : i ∉ empty.members := fun h => absurd (any_iff.2 ⟨i, h⟩) (by decide)

lemma clipped_members (m : Mask) (width : ℤ) :
    (m.clipped width).members = {i ∈ m.members | i < width} := by
  refine Set.ext fun i => ?_
  by_cases hi : 0 ≤ i
  · obtain ⟨k, j, hj, rfl⟩ := exists_place hi
    unfold clipped
    split
    · exact iff_of_false (notMem_empty _) fun h => absurd h.2 (by omega)
    next hw =>
      rw [mem_trim (not_le.1 hw) hj, and_comm, ← mem_members_iff hj]
      rfl
  · exact iff_of_false (fun h => hi (nonneg_of_mem h)) fun h => hi (nonneg_of_mem h.1)

/-- A bit at a distance: a member, or one below zero that the index wraps into the tail. -/
lemma getLsbD_windowWord (m : Mask) (lo : ℤ) (k : ℕ) (hj : j < 64) :
    (m.windowWord lo k).getLsbD j = true ↔
    (64 * k + j + lo ∈ m.members ∨ (64 * k + j + lo < 0 ∧ m.tail = true)) := by
  have hwo : ∀ (n : ℤ) (b : ℕ), b < 64 →
      ((m.word n).getLsbD b = true ↔
        (64 * n + b ∈ m.members ∨ (64 * n + b < 0 ∧ m.tail = true))) := by
    intro n b hb
    rcases lt_or_ge n 0 with hn | hn
    · rw [word, if_neg (not_le.2 hn), getLsbD_fill m hb, and_iff_right (by omega), or_iff_right]
      exact fun h => absurd (nonneg_of_mem h) (by omega)
    · obtain ⟨n, rfl⟩ := Int.eq_ofNat_of_zero_le hn
      rw [← mem_members_iff hb, or_iff_left]
      rintro ⟨h, -⟩
      omega
  have hpl : 64 * (lo / 64 + k) + (j + (lo % 64).toNat : ℕ) = 64 * k + j + lo := by omega
  unfold windowWord
  by_cases hsh : (lo % 64).toNat = 0
  · rw [hsh]
    rw [hsh] at hpl
    rw [← hpl, ← hwo _ _ (by omega)]
    rfl
  · rw [if_pos hsh, BitVec.getLsbD_or, BitVec.getLsbD_ushiftRight, BitVec.getLsbD_shiftLeft,
      decide_eq_true hj, Bool.true_and]
    rcases lt_or_ge (j + (lo % 64).toNat) 64 with hlow | hhi
    · rw [decide_eq_true (by omega : j < 64 - (lo % 64).toNat), Bool.not_true, Bool.false_and,
        Bool.or_false, Nat.add_comm,
        hwo _ _ hlow, hpl]
    · rw [BitVec.getLsbD_of_ge _ _ (by omega), decide_eq_false (by omega), Bool.not_false,
        Bool.true_and, Bool.false_or,
        hwo _ _ (by omega), show 64 * (lo / 64 + k + 1) + (j - (64 - (lo % 64).toNat) : ℕ) =
          64 * k + j + lo by omega]

lemma window_members (m : Mask) (lo hi : ℤ) :
    (m.window lo hi).members = {i | 0 ≤ i ∧ i < hi - lo ∧
      (i + lo ∈ m.members ∨ (i + lo < 0 ∧ m.tail = true))} := by
  refine Set.ext fun i => ?_
  by_cases hi' : 0 ≤ i
  · obtain ⟨k, j, hj, rfl⟩ := exists_place hi'
    unfold window
    split
    · exact iff_of_false (notMem_empty _) fun h => absurd h.2.1 (by omega)
    · rw [mem_trim (by omega) hj, getLsbD_windowWord _ _ _ hj]
      exact (and_iff_right hi').symm
  · exact iff_of_false (fun h => hi' (nonneg_of_mem h)) fun h => hi' h.1

/-! ## Shifts -/

lemma bit_resize {ws : List Word} {n : ℕ} (hn : ws.length ≤ n) (p : ℕ) :
    bit (resize ws n 0) p = bit ws p := by
  rw [bit, bit, getD_resize]
  split
  · rfl
  · rw [getD_eq_default _ _ (by omega)]

lemma bit_orWord (ws : List Word) (w p : ℕ) (hw : w < ws.length) (old : Word) :
    bit (ws.modify w (· ||| old)) p =
    (bit ws p || (decide (p / 64 = w) && old.getLsbD (p % 64))) := by
  rw [Words.bit_modify _ _ hw]
  split
  next h => rw [BitVec.getLsbD_or, bit, h, decide_eq_true rfl, Bool.true_and]
  next h => rw [decide_eq_false h, Bool.false_and, Bool.or_false]

variable (place : ℕ) (out : List Word)

lemma roomFor_length : place + 2 ≤ (roomFor place out).length := by
  unfold roomFor
  split
  · rw [length_resize]
  · omega

lemma bit_roomFor (p : ℕ) : bit (roomFor place out) p = bit out p := by
  unfold roomFor
  split
  · exact bit_resize (by omega) p
  · rfl

/-- The two words that a shifted word covers get its bits. -/
lemma bit_orShifted {place lane : ℕ} (hla : lane < 64) (old : Word) {out : List Word}
    (hro : place + 2 ≤ out.length) (p : ℕ) :
    bit (orShifted place lane old out) p = true ↔
    bit out p = true ∨ ∃ j < 64, old.getLsbD j = true ∧ p = 64 * place + j + lane := by
  have hco : (∃ j < 64, old.getLsbD j = true ∧ p = 64 * place + j + lane) ↔
      (p / 64 = place ∧ lane ≤ p % 64 ∧ old.getLsbD (p % 64 - lane) = true) ∨
        (p / 64 = place + 1 ∧ lane ≠ 0 ∧ old.getLsbD (64 - lane + p % 64) = true) := by
    constructor
    · rintro ⟨j, hj, hbit, hp⟩
      rcases lt_or_ge (j + lane) 64 with h | h
      · refine .inl ⟨by omega, by omega, ?_⟩
        rwa [show p % 64 - lane = j by omega]
      · refine .inr ⟨by omega, by omega, ?_⟩
        rwa [show 64 - lane + p % 64 = j by omega]
    · rintro (⟨hp, hle, hbit⟩ | ⟨hp, hne, hbit⟩)
      · exact ⟨p % 64 - lane, by omega, hbit, by omega⟩
      · have hlt := BitVec.lt_of_getLsbD hbit
        exact ⟨64 - lane + p % 64, hlt, hbit, by omega⟩
  have hlow : bit (out.modify place (· ||| old <<< lane)) p = true ↔
      bit out p = true ∨ (p / 64 = place ∧ lane ≤ p % 64 ∧ old.getLsbD (p % 64 - lane) = true) := by
    rw [bit_orWord _ _ _ (by omega), Bool.or_eq_true, Bool.and_eq_true, decide_eq_true_iff,
      BitVec.getLsbD_shiftLeft,
      decide_eq_true (Nat.mod_lt _ (by decide)), Bool.true_and, Bool.and_eq_true, Bool.not_eq_true',
        decide_eq_false_iff_not, not_lt]
  rw [hco, ← or_assoc, ← hlow, orShifted]
  by_cases hl : lane = 0
  · rw [if_neg (not_not.2 hl)]
    exact (or_iff_left fun h => h.2.1 hl).symm
  · rw [if_pos hl, bit_orWord _ _ _ (by rw [length_modify]; omega), Bool.or_eq_true,
      Bool.and_eq_true, decide_eq_true_iff,
      BitVec.getLsbD_ushiftRight]
    exact or_congr_right (and_congr_right fun _ => (and_iff_right hl).symm)

/-- A word that lands at zero or above adds its bits, shifted. -/
lemma shiftWord_spec {w : ℕ} {old : Word} (out : List Word)
    (hba : old ≠ 0 → 0 ≤ 64 * w + distance) :
    ∃ out', shiftWord distance w old out = some out' ∧
      ∀ p, bit out' p = true ↔ bit out p = true ∨ ∃ j < 64, old.getLsbD j = true ∧
      (p : ℤ) = 64 * w + j + distance := by
  rw [shiftWord]
  by_cases h0 : old = 0
  · rw [if_pos h0]
    refine ⟨out, rfl, fun p => (or_iff_left ?_).symm⟩
    rintro ⟨j, -, hj, -⟩
    rw [h0, getLsbD_zero] at hj
    cases hj
  · have hpos := hba h0
    rw [if_neg h0, if_neg (by omega)]
    refine ⟨_, rfl, fun p => ?_⟩
    rw [bit_orShifted (by omega) old (roomFor_length _ _), bit_roomFor]
    refine or_congr_right (exists_congr fun j => and_congr_right
      fun _ => and_congr_right fun _ => ?_)
    omega

variable (n : ℕ) (ws out : List Word)

lemma shiftWords_spec (hba : ∀ k < ws.length, ws.getD k 0 ≠ 0 →
    0 ≤ 64 * ((n + k : ℕ) : ℤ) + distance) :
    ∃ out', shiftWords distance n ws out = some out' ∧ ∀ p, bit out' p = true ↔
      bit out p = true ∨ ∃ k < ws.length, ∃ j < 64, (ws.getD k 0).getLsbD j = true ∧
      (p : ℤ) = 64 * ((n + k : ℕ) : ℤ) + j + distance := by
  induction ws generalizing n out with
  | nil =>
    exact ⟨out, rfl, fun p => (or_iff_left fun ⟨_, hk, _⟩ => absurd hk (Nat.not_lt_zero _)).symm⟩
  | cons old ws ih =>
    obtain ⟨out₁, hwo, hbits₁⟩ := shiftWord_spec out (hba 0 (Nat.succ_pos _))
    obtain ⟨out₂, hr, hbits₂⟩ := ih (n + 1) out₁ fun k hk hne => by
      have := hba (k + 1) (Nat.succ_lt_succ hk) hne
      rwa [show n + (k + 1) = n + 1 + k by omega] at this
    refine ⟨out₂, ?_, fun p => ?_⟩
    · exact (congrArg (· >>= shiftWords distance (n + 1) ws) hwo).trans hr
    · rw [hbits₂, hbits₁, or_assoc]
      refine or_congr_right ⟨?_, ?_⟩
      · rintro (⟨j, hj, hbit, hp⟩ | ⟨k, hk, j, hj, hbit, hp⟩)
        · exact ⟨0, Nat.succ_pos _, j, hj, hbit, hp⟩
        · refine ⟨k + 1, Nat.succ_lt_succ hk, j, hj, hbit, ?_⟩
          rwa [show n + (k + 1) = n + 1 + k by omega]
      · rintro ⟨k, hk, j, hj, hbit, hp⟩
        cases k with
        | zero => exact .inl ⟨j, hj, hbit, hp⟩
        | succ k =>
          refine .inr ⟨k, Nat.lt_of_succ_lt_succ hk, j, hj, hbit, ?_⟩
          rwa [show n + (k + 1) = n + 1 + k by omega] at hp

/-- A word of a bounded set that would land below zero ends the shift. -/
lemma shiftWords_none (hba : ∃ k < ws.length, ws.getD k 0 ≠ 0 ∧
    64 * ((n + k : ℕ) : ℤ) + distance < 0) :
    shiftWords distance n ws out = none := by
  induction ws generalizing n out with
  | nil =>
    obtain ⟨k, hk, -⟩ := hba
    cases hk
  | cons old ws ih =>
    rw [shiftWords]
    cases hwo : shiftWord distance n old out with
    | none => rfl
    | some out₁ =>
      refine ih (n + 1) out₁ ?_
      obtain ⟨k, hk, hne, hlt⟩ := hba
      cases k with
      | zero =>
        have h0 : old ≠ 0 := hne
        rw [shiftWord, if_neg h0, if_pos (by omega)] at hwo
        cases hwo
      | succ k =>
        refine ⟨k, Nat.lt_of_succ_lt_succ hk, hne, ?_⟩
        rwa [show n + (k + 1) = n + 1 + k by omega] at hlt

/-- No word that holds a member lands below zero. -/
def CanShift (m : Mask) (distance : ℤ) : Prop := ∀ i ∈ m.members, 0 ≤ 64 * (i / 64) + distance

lemma shiftedUp_members {ws : List Word} (h : CanShift ⟨ws, false⟩ distance) :
    ∃ r, shiftedUp ⟨ws, false⟩ distance = some r ∧
    r.members = (· + distance) '' (⟨ws, false⟩ : Mask).members := by
  have hba : ∀ k < ws.length, ws.getD k 0 ≠ 0 → 0 ≤ 64 * ((0 + k : ℕ) : ℤ) + distance := by
    intro k _ hne
    obtain ⟨j, hj, hbit⟩ := exists_bit hne
    have := h (64 * k + j) ((mem_members_iff hj).2 (by rwa [word_natCast]))
    omega
  obtain ⟨out, heq, hb⟩ := shiftWords_spec 0 ws [] hba
  refine ⟨⟨out, false⟩, congrArg (Option.map _) heq, Set.ext fun i => ?_⟩
  rw [Set.mem_image]
  constructor
  · intro hi
    obtain ⟨p, rfl⟩ := Int.eq_ofNat_of_zero_le (nonneg_of_mem hi)
    rw [mem_bounded, hb, or_iff_right (by rw [bit, getD_nil, getLsbD_zero]; decide)] at hi
    obtain ⟨k, -, j, hj, hbit, hp⟩ := hi
    exact ⟨64 * k + j, (mem_members_iff hj).2 (by rwa [word_natCast]), by omega⟩
  · rintro ⟨i', hi', rfl⟩
    have hdi := h i' hi'
    obtain ⟨k, j, hj, rfl⟩ := exists_place (nonneg_of_mem hi')
    obtain ⟨p, hp⟩ : ∃ p : ℕ, (64 * k + j + distance : ℤ) = p :=
      ⟨(64 * k + j + distance).toNat, by omega⟩
    rw [mem_members_iff hj, word_natCast] at hi'
    have hk : k < ws.length := by
      by_contra hk
      rw [getD_eq_default _ _ (not_lt.1 hk), getLsbD_fill _ hj] at hi'
      cases hi'
    rw [hp, mem_bounded, hb]
    exact .inr ⟨k, hk, j, hj, hi', by omega⟩

lemma canShift_iff (hbo : m.tail = false) :
    CanShift m distance ↔ ∃ r, m.shiftedUp distance = some r ∧
    r.members = (· + distance) '' m.members := by
  obtain ⟨ws, tail⟩ := m
  cases hbo
  refine ⟨shiftedUp_members, ?_⟩
  rintro ⟨r, heq, -⟩
  by_contra hnot
  unfold CanShift at hnot
  push Not at hnot
  obtain ⟨i, hi, hlt⟩ := hnot
  obtain ⟨k, j, hj, rfl⟩ := exists_place (nonneg_of_mem hi)
  rw [mem_members_iff hj, word_natCast] at hi
  have hk : k < ws.length := by
    by_contra hk
    rw [getD_eq_default _ _ (not_lt.1 hk), getLsbD_fill _ hj] at hi
    cases hi
  have hne : ws.getD k 0 ≠ 0 := by
    intro h0
    change (ws.getD k 0).getLsbD j = true at hi
    rw [h0, getLsbD_zero] at hi
    cases hi
  have hno := shiftWords_none 0 ws [] ⟨k, hk, hne,
    (by omega : 64 * ((0 + k : ℕ) : ℤ) + distance < 0)⟩
  rw [shiftedUp, hno] at heq
  cases heq

/-! ## Merges that lose nothing -/

/-- There is no gap, or the other mask holds it and has more. -/
def MergeFits (m other : Mask) : Prop :=
  mergeGap m other = ∅ ∨ (mergeGap m other ⊆ other.members ∧ ¬other.members ⊆ m.members)

lemma mergeGap_subset (m other : Mask) : mergeGap m other ⊆ m.members := by
  intro i hi
  unfold mergeGap at hi
  split at hi
  next h => exact ⟨by have := hi.1; omega, by rw [if_neg (not_lt.2 hi.1), h.1]⟩
  · exact hi.elim

lemma merge_keeps_iff : m.members ⊆ (m.merge other).1.members ↔
    mergeGap m other ⊆ other.members := by
  rw [merge_members]
  constructor
  · intro h i hi
    exact (h (mergeGap_subset m other hi)).resolve_left fun hke => hke.2 hi
  · intro h i hi
    by_cases hgap : i ∈ mergeGap m other
    · exact .inr (h hgap)
    · exact .inl ⟨hi, hgap⟩

lemma merge_union_iff : (m.merge other).1.members = m.members ∪ other.members ↔
    mergeGap m other ⊆ other.members := by
  refine ⟨fun h => merge_keeps_iff.1 (h ▸ Set.subset_union_left), fun h => ?_⟩
  refine Set.Subset.antisymm ?_ (union_subset (merge_keeps_iff.2 h) ?_)
  · rw [merge_members]
    exact union_subset_union_left _ sdiff_subset
  · rw [merge_members]
    exact subset_union_right

lemma mergeFits_iff : MergeFits m other ↔ (m.merge other).1.members = m.members ∪ other.members ∧
    ((m.merge other).2 = true ↔ m.members ⊂ m.members ∪ other.members) := by
  have hgr : m.members ⊂ m.members ∪ other.members ↔ ¬other.members ⊆ m.members := by
    rw [Set.ssubset_iff_subset_ne, and_iff_right Set.subset_union_left, Ne, eq_comm, union_eq_left]
  rw [merge_union_iff, merge_grew, hgr]
  constructor
  · rintro (hem | ⟨hgap, hmo⟩)
    · rw [hem, sdiff_empty]
      exact ⟨empty_subset _, .rfl⟩
    · exact ⟨hgap, iff_of_true (fun h => hmo (h.trans sdiff_subset)) hmo⟩
  · rintro ⟨hgap, hfl⟩
    rcases eq_empty_or_nonempty (mergeGap m other) with hem | ⟨i, hi⟩
    · exact .inl hem
    · exact .inr ⟨hgap, hfl.1 fun h => (h (hgap hi)).2 hi⟩

/-- The whole set and a bounded set leave no gap. -/
lemma MergeFits.of_plain (h : other = all ∨ other.tail = false) : MergeFits m other := by
  left
  unfold mergeGap
  split
  next hta =>
    rcases h with rfl | h
    · refine Set.Ico_eq_empty (not_lt.2 ?_)
      change (64 * (0 : ℕ) : ℤ) ≤ _
      omega
    · exact absurd (h.symm.trans hta.2) Bool.false_ne_true
  · rfl

lemma setRange_tail (m : Mask) (lo hi : ℤ) : (m.setRange lo hi).tail = m.tail := by
  unfold setRange
  dsimp only
  split_ifs <;> rfl

lemma effective_plain (wanted : Mask) (width : ℤ) (isUnsigned : Bool) :
    wanted.effective width isUnsigned = all ∨ (wanted.effective width isUnsigned).tail = false := by
  have hcl : (wanted.clipped width).tail = false := by
    unfold clipped
    split <;> rfl
  unfold effective
  split
  · exact .inl rfl
  · right
    split
    · exact (setRange_tail _ _ _).trans hcl
    · exact hcl

lemma addDemand_grows (demand wanted : Mask) (width : ℤ) (isUnsigned : Bool) :
    demand.members ⊆ (addDemand demand wanted width isUnsigned).members := by
  unfold addDemand
  split
  · exact Set.Subset.rfl
  · rw [(mergeFits_iff.1 (.of_plain (effective_plain wanted width isUnsigned))).1]
    exact subset_union_left

/-! ## Masks obtained by operations -/

inductive Script
  | empty
  | all
  | prefixOf (n : ℤ)
  | set (s : Script) (i : ℤ)
  | setRange (s : Script) (lo hi : ℤ)
  | merge (s other : Script)
  | clipped (s : Script) (width : ℤ)
  | window (s : Script) (lo hi : ℤ)
  | shiftedUp (s : Script) (distance : ℤ)
  | without (s : Script) (lo hi : ℤ)

namespace Script

def run : Script → Option Mask
  | empty => some Mask.empty
  | all => some Mask.all
  | prefixOf n => some (Mask.prefixOf n)
  | set s i => s.run.map (·.set i)
  | setRange s lo hi => s.run.map (·.setRange lo hi)
  | merge s other => s.run.bind fun m => other.run.map fun theirs => (m.merge theirs).1
  | clipped s width => s.run.map (·.clipped width)
  | window s lo hi => s.run.map (·.window lo hi)
  | shiftedUp s distance => s.run.bind (·.shiftedUp distance)
  | without s lo hi => s.run.map (·.without lo hi)

/-- The set of positions that the operations are about. -/
def meaning : Script → Set ℤ
  | empty => ∅
  | all => Set.Ici 0
  | prefixOf n => Set.Ico 0 n
  | set s i => s.meaning ∪ Set.Ico (max i 0) (i + 1)
  | setRange s lo hi => s.meaning ∪ Set.Ico (max lo 0) hi
  | merge s other => s.meaning ∪ other.meaning
  | clipped s width => {i ∈ s.meaning | i < width}
  | window s lo hi => {i | 0 ≤ i ∧ i < hi - lo ∧ i + lo ∈ s.meaning}
  | shiftedUp s distance => (· + distance) '' s.meaning
  | without s lo hi => s.meaning \ Set.Ico lo hi

/-- Every merge fits, every window of an unbounded set starts at zero or above, and what is shifted
is bounded and stays there. -/
def Meets : Script → Prop
  | empty | all | prefixOf _ => True
  | set s _ | setRange s _ _ | clipped s _ | without s _ _ => s.Meets
  | merge s other => s.Meets ∧ other.Meets ∧ ∀ m ∈ s.run, ∀ theirs ∈ other.run, MergeFits m theirs
  | window s lo hi => s.Meets ∧ ∀ m ∈ s.run, m.tail = true → 0 ≤ lo ∨ hi ≤ lo
  | shiftedUp s distance => s.Meets ∧ ∀ m ∈ s.run, m.tail = false ∧ CanShift m distance

end Script

lemma window_iff : (m.window lo hi).members = {i | 0 ≤ i ∧ i < hi - lo ∧ i + lo ∈ m.members} ↔
    (m.tail = true → 0 ≤ lo ∨ hi ≤ lo) := by
  rw [window_members]
  constructor
  · intro h ht
    by_contra hneg
    push Not at hneg
    have hwr : (0 : ℤ) ∈ {i | 0 ≤ i ∧ i < hi - lo ∧
        (i + lo ∈ m.members ∨ (i + lo < 0 ∧ m.tail = true))} :=
      ⟨le_rfl, by omega, .inr ⟨by omega, ht⟩⟩
    rw [h] at hwr
    have := nonneg_of_mem hwr.2.2
    omega
  · intro h
    refine Set.ext fun i => and_congr_right fun hi' => and_congr_right fun hlt => or_iff_left ?_
    rintro ⟨hneg, ht⟩
    rcases h ht with h | h <;> omega

lemma all_members : all.members = Set.Ici 0 := by
  refine Set.ext fun i => ⟨nonneg_of_mem, fun hi => ⟨hi, ?_⟩⟩
  have hi' : (0 : ℤ) ≤ i := hi
  change if i < 64 * (0 : ℕ) then _ else _
  rw [if_neg (by omega)]
  rfl

lemma empty_members : empty.members = ∅ := Set.eq_empty_of_forall_notMem notMem_empty

lemma prefixOf_members (n : ℤ) : (prefixOf n).members = Set.Ico 0 n := by
  rw [prefixOf, setRange_members, empty_members, Set.empty_union, max_self]

lemma Script.run_members (s : Script) (h : s.Meets) :
    ∃ m, s.run = some m ∧ m.members = s.meaning := by
  induction s with
  | empty => exact ⟨_, rfl, empty_members⟩
  | all => exact ⟨_, rfl, all_members⟩
  | prefixOf n => exact ⟨_, rfl, prefixOf_members n⟩
  | set s i ih =>
    obtain ⟨m, hrun, hm⟩ := ih h
    exact ⟨m.set i, congrArg (Option.map _) hrun,
      (setRange_members _ _ _).trans (congrArg (· ∪ _) hm)⟩
  | setRange s lo hi ih =>
    obtain ⟨m, hrun, hm⟩ := ih h
    exact ⟨m.setRange lo hi, congrArg (Option.map _) hrun,
      (setRange_members _ _ _).trans (congrArg (· ∪ _) hm)⟩
  | merge s other ihs iho =>
    obtain ⟨m, hrun, hm⟩ := ihs h.1
    obtain ⟨theirs, hru', hm'⟩ := iho h.2.1
    refine ⟨(m.merge theirs).1, ?_, ?_⟩
    · rw [Script.run, hrun, hru']
      rfl
    · rw [(mergeFits_iff.1 (h.2.2 m hrun theirs hru')).1, hm, hm']
      rfl
  | clipped s width ih =>
    obtain ⟨m, hrun, hm⟩ := ih h
    refine ⟨m.clipped width, congrArg (Option.map _) hrun, ?_⟩
    rw [clipped_members, hm]
    rfl
  | window s lo hi ih =>
    obtain ⟨m, hrun, hm⟩ := ih h.1
    refine ⟨m.window lo hi, congrArg (Option.map _) hrun, ?_⟩
    rw [window_iff.2 (h.2 m hrun), hm]
    rfl
  | shiftedUp s distance ih =>
    obtain ⟨m, hrun, hm⟩ := ih h.1
    obtain ⟨hbo, hcan⟩ := h.2 m hrun
    obtain ⟨r, hr, hme⟩ := (canShift_iff hbo).1 hcan
    refine ⟨r, ?_, ?_⟩
    · rwa [Script.run, hrun]
    · rw [hme, hm]
      rfl
  | without s lo hi ih =>
    obtain ⟨m, hrun, hm⟩ := ih h
    exact ⟨m.without lo hi, congrArg (Option.map _) hrun,
      (without_members _ _ _).trans (congrArg (· \ _) hm)⟩

/-- The operations of `Mask` are those of sets: in any sequence of them whose steps lose nothing,
and one by one for every mask. -/
theorem set_algebra (s : Script) : (s.Meets → ∃ m, s.run = some m ∧ m.members = s.meaning ∧
    (∀ i, m.test i = true ↔ i ∈ s.meaning) ∧
      (m.any = true ↔ s.meaning.Nonempty) ∧ Tops m.highest m s.meaning) ∧
    (∀ m other : Mask, MergeFits m other ↔ (m.merge other).1.members = m.members ∪ other.members ∧
      ((m.merge other).2 = true ↔ m.members ⊂ m.members ∪ other.members)) ∧
    (∀ (m : Mask) (lo hi : ℤ), (m.window lo hi).members =
      {i | 0 ≤ i ∧ i < hi - lo ∧ i + lo ∈ m.members} ↔
      (m.tail = true → 0 ≤ lo ∨ hi ≤ lo)) ∧
    (∀ (m : Mask) (distance : ℤ), m.tail = false → (CanShift m distance ↔
      ∃ r, m.shiftedUp distance = some r ∧ r.members = (· + distance) '' m.members)) ∧
    (∀ (m : Mask) (lo hi : ℤ), (m.setRange lo hi).members = m.members ∪ Set.Ico (max lo 0) hi ∧
      (m.without lo hi).members = m.members \ Set.Ico lo hi ∧
        (m.clipped hi).members = {i ∈ m.members | i < hi}) ∧
    (∀ m : Mask, (∀ i, m.test i = true ↔ i ∈ m.members) ∧ (m.any = true ↔ m.members.Nonempty) ∧
      Tops m.highest m m.members) ∧
    ∀ (wanted : List (Mask × ℤ × Bool)) (demand : Mask),
      demand.members ⊆ (wanted.foldl
        (fun demand w => addDemand demand w.1 w.2.1 w.2.2) demand).members := by
  refine ⟨fun h => ?_, fun _ _ => mergeFits_iff, fun _ _ _ => window_iff, fun _ _ => canShift_iff,
    fun _ _ _ => ⟨setRange_members _ _ _, without_members _ _ _, clipped_members _ _⟩,
    fun m => ⟨fun _ => test_iff, any_iff, highest_tops m⟩, fun wanted => ?_⟩
  · obtain ⟨m, hrun, hm⟩ := s.run_members h
    refine ⟨m, hrun, hm, ?_⟩
    rw [← hm]
    exact ⟨fun _ => test_iff, any_iff, highest_tops m⟩
  · induction wanted with
    | nil => exact fun _ => Set.Subset.rfl
    | cons w ws ih => exact fun demand => (addDemand_grows demand w.1 w.2.1 w.2.2).trans (ih _)

/-- Every position, and every position but the first eight: the merge of the two loses those eight,
and tells that it grew. -/
theorem merge_all_without : (all.merge (all.without 0 8)).2 = true ∧
    (all.merge (all.without 0 8)).1.test 3 = false ∧
    all.test 3 = true ∧ (all.merge (all.without 0 8)).1.members ≠ all.members ∪
    (all.without 0 8).members := by
  refine ⟨by decide, by decide, by decide, fun h => ?_⟩
  have hlost : (3 : ℤ) ∉ (all.merge (all.without 0 8)).1.members := fun hin =>
    absurd (test_iff.2 hin) (by decide)
  rw [h] at hlost
  exact hlost (.inl (test_iff.1 (by decide)))

/-- Every position but a range, a merge that fits, a window and a shift. -/
def slices : Script := .shiftedUp (.window (.merge (.without .all 2 66) (.prefixOf 8)) 1 70) 3

/-- The steps meet the conditions, also those on a mask with a tail, and stand for what they say. -/
theorem set_algebra_slices : slices.Meets ∧ ∃ m, slices.run = some m ∧
    m.members = slices.meaning := by
  have hfits : MergeFits (Mask.all.without 2 66) (.prefixOf 8) := .of_plain (.inr (by decide))
  have hmeets : slices.Meets := by
    refine ⟨⟨⟨trivial, trivial, ?_⟩, ?_⟩, ?_⟩
    · rintro m ⟨⟩ theirs ⟨⟩
      exact hfits
    · rintro m ⟨⟩ -
      exact .inl (by decide)
    · rintro m ⟨⟩
      refine ⟨by decide, fun i hi => ?_⟩
      have := nonneg_of_mem hi
      omega
  obtain ⟨m, hrun, hm, -⟩ := (set_algebra slices).1 hmeets
  exact ⟨hmeets, m, hrun, hm⟩

end LiveHD.Synth.Mask
