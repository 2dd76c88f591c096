import LiveHD.Synth.Arith.Div

/-!
# The shift builders

A barrel shifter moves the running data by `2 ^ k` under bit `k` of the amount, in either order of
the stages. The right shifter keeps only the window of bits that the later stages still read; a read
outside it is an error here.  The table select picks the shifted bit of each index value instead.
-/

namespace LiveHD.Synth

open Ops hiding get
open Function List Bool Carry

universe u v

namespace Ops

variable {Bit : Type u} (ops : Ops Bit)

/-- `sh`: the distance of stage `k`, capped at the width. -/
def stageShift (w k : ℕ) : ℕ := if 31 ≤ k ∨ w ≤ 2 ^ k then w else 2 ^ k

/-- The amount bits in the order of the stages. -/
def stages (nb : ℕ) (reverse : Bool) : List ℕ :=
  if reverse then (List.range nb).reverse else List.range nb

/-- One stage of `build_shl`. -/
def shlStage (amount : List Bit) (outW : ℕ) (data : List Bit) (k : ℕ) : List Bit :=
  let sh := stageShift outW k
  (List.range outW).map fun i =>
    ops.select (ops.get amount k) (if sh ≤ i then ops.get data (i - sh)
      else ops.zero) (ops.get data i)

/-- `build_shl`. -/
def buildShl (a amount : List Bit) (outW : ℕ) (reverse : Bool := false) : List Bit :=
  (stages amount.length reverse).foldl (ops.shlStage amount outW)
    ((List.range outW).map fun i => if i < a.length then ops.get a i else ops.zero)

/-- `need`: how many bits of a `w`-bit vector the stages `ks` read for `outW` bits of result. -/
def shrNeed (w outW : ℕ) : List ℕ → ℕ
  | [] => outW
  | k :: ks => if w ≤ stageShift w k then shrNeed w outW ks
    else min w (shrNeed w outW ks + stageShift w k)

/-- The stages of `build_shr_prefix`; `none` is a read past the end of `data`. -/
def shrStages (w : ℕ) (amount : List Bit) (fill : Bit) (outW : ℕ) :
    List ℕ → List Bit → Option (List Bit)
  | [], data => some data
  | k :: ks, data =>
    let sh := stageShift w k
    let next := shrNeed w outW ks
    if ∀ i < next, i < data.length ∧ (i + sh < w → i + sh < data.length) then
      shrStages w amount fill outW ks ((List.range next).map fun i =>
        ops.select (ops.get amount k) (if i + sh < w then ops.get data (i + sh)
          else fill) (ops.get data i))
    else none

/-- `build_shr_prefix`. -/
def buildShrPrefix (a amount : List Bit) (fill : Bit) (outW : ℤ)
    (reverse : Bool := false) : Option (List Bit) :=
  let w := a.length
  let n := (min outW w).toNat
  let ks := stages amount.length reverse
  let need := shrNeed w n ks
  if need ≤ w then ops.shrStages w amount fill n ks (a.take need) else none

/-- One round of the select tree of `build_table_shr_prefix`. -/
def tableRound (level : List Bit) (sel : Bit) : List Bit :=
  (List.range (level.length / 2)).map fun j =>
    ops.select sel (ops.get level (2 * j + 1)) (ops.get level (2 * j))

variable (a index : List Bit) (fill : Bit)

/-- `build_table_shr_prefix`. -/
def buildTableShrPrefix (amounts : List ℕ) (outW : ℤ) : List Bit :=
  let w := a.length
  (List.range (min outW w).toNat).map fun bit =>
    let level := (range (2 ^ index.length)).map fun v =>
      let amt := amounts.getD v w
      if amt < w - bit then ops.get a (bit + amt) else fill
    ops.get (index.foldl ops.tableRound level) 0

/-- An `int64_t` holds the product and the amount of an index value. -/
def amountFits (scale bias : ℤ) (v : ℕ) : Prop :=
  (-2 ^ 63 ≤ scale * v ∧ scale * v < 2 ^ 63) ∧ -2 ^ 63 ≤ bias + scale * v ∧
    bias + scale * v < 2 ^ 63

instance (scale bias : ℤ) : DecidablePred (amountFits scale bias) := fun _ =>
    inferInstanceAs (Decidable (_ ∧ _))

/-- The amount of an index value, past the top when it is negative. -/
def affineAmount (a : List Bit) (scale bias : ℤ) (v : ℕ) : ℕ :=
  if bias + scale * v < 0 then a.length else (bias + scale * v).toNat

/-- `build_affine_shr_prefix`; `none` when an amount overflows, which leaves it without a value. -/
def buildAffineShrPrefix (scale bias : ℤ) (outW : ℤ) : Option (List Bit) :=
  if ∀ v < 2 ^ index.length, amountFits scale bias v then
    some (ops.buildTableShrPrefix a index fill
      ((range (2 ^ index.length)).map (affineAmount a scale bias)) outW)
  else none

end Ops

namespace BitAlgebra

variable {Bit : Type u} {Env : Type v} {A : BitAlgebra Bit Env} {ρ : Env}
  {a amount data : List Bit} {fill : Bit}

lemma bit_map_range {n i : ℕ} (f : ℕ → Bit) (hi : i < n) :
    A.bit ρ ((range n).map f) i = A.eval ρ (f i) := by
  simp [bit, Ops.get, hi]

/-! ## The amount -/

/-- The distance that the stages `ks` shift by. -/
def shifted (A : BitAlgebra Bit Env) (ρ : Env) (amount : List Bit) (ks : List ℕ) : ℕ :=
  (ks.map fun k => 2 ^ k * (A.bit ρ amount k).toNat).sum

lemma shifted_stages (reverse : Bool) :
    A.shifted ρ amount (Ops.stages amount.length reverse) = A.value ρ amount := by
  have hr : ∀ n, A.shifted ρ amount (range n) = bitsVal (A.bit ρ amount) n := by
    intro n
    induction n with
    | zero => rfl
    | succ n ih =>
      rw [bitsVal_succ, ← ih, shifted, range_succ, map_append, sum_append]
      simp [shifted]
  cases reverse with
  | false => exact hr _
  | true =>
    rw [stages, if_pos rfl, shifted, map_reverse, sum_reverse]
    exact hr _

/-- A capped distance is the power of two or moves everything out. -/
lemma stageShift_eq {w : ℕ} (hw : w < 2 ^ 31) (k : ℕ) :
    Ops.stageShift w k = 2 ^ k ∨ Ops.stageShift w k = w ∧ w ≤ 2 ^ k := by
  unfold stageShift
  split
  next h =>
    refine .inr ⟨rfl, ?_⟩
    rcases h with h | h
    · exact hw.le.trans (Nat.pow_le_pow_right two_pos h)
    · exact h
  · exact .inl rfl

/-! ## Left -/

/-- Data that holds the low `outW` bits of `a` moved up by `s`. -/
def ShiftedLeft (A : BitAlgebra Bit Env) (ρ : Env) (a : List Bit) (outW s : ℕ)
    (data : List Bit) : Prop :=
  data.map (A.eval ρ) = (List.range outW).map fun i => decide (s ≤ i) && A.bit ρ a (i - s)

variable (amount) in
lemma ShiftedLeft.stage {outW s : ℕ} (hw : outW < 2 ^ 31)
    (h : A.ShiftedLeft ρ a outW s data) (k : ℕ) :
    A.ShiftedLeft ρ a outW (s + 2 ^ k * (A.bit ρ amount k).toNat)
    (A.shlStage amount outW data k) := by
  unfold ShiftedLeft shlStage
  rw [map_map]
  refine map_congr_left fun i hi => ?_
  have hi := mem_range.1 hi
  have hke : A.eval ρ (A.get data i) = _ := bit_of_map_eq h hi
  rw [comp_apply, eval_select, hke]
  change (if A.bit ρ amount k then _ else _) = _
  cases A.bit ρ amount k with
  | false => simp
  | true =>
    simp only [if_true, toNat_true, mul_one]
    split
    next hle =>
      have hmo : A.eval ρ (A.get data (i - Ops.stageShift outW k)) = _ := bit_of_map_eq h (by omega)
      rw [hmo]
      rcases stageShift_eq hw k with hk | ⟨hk, -⟩
      · rw [hk] at hle ⊢
        rw [Nat.sub_sub, Nat.add_comm (2 ^ k) s]
        congr 1
        exact decide_eq_decide.2 (by omega)
      · exact absurd (hk ▸ hle) (Nat.not_le.2 hi)
    next hlt =>
      have hout : ¬s + 2 ^ k ≤ i := by
        rcases stageShift_eq hw k with hk | ⟨hk, hk'⟩ <;> omega
      simp [hout]

variable (amount) in
lemma foldl_shlStage {outW s : ℕ} (hw : outW < 2 ^ 31) (ks : List ℕ)
    (h : A.ShiftedLeft ρ a outW s data) :
    A.ShiftedLeft ρ a outW (s + A.shifted ρ amount ks)
    (ks.foldl (A.shlStage amount outW) data) := by
  induction ks generalizing s data with
  | nil => exact h
  | cons k ks ih =>
    have := ih (h.stage amount hw k)
    rwa [add_assoc] at this

lemma buildShl_shifted {outW : ℕ} (hw : outW < 2 ^ 31) (reverse : Bool) :
    A.ShiftedLeft ρ a outW (A.value ρ amount) (A.buildShl a amount outW reverse) := by
  have h0 : A.ShiftedLeft ρ a outW 0
      ((range outW).map fun i => if i < a.length then A.get a i else A.zero) := by
    unfold ShiftedLeft
    rw [map_map]
    refine map_congr_left fun i _ => ?_
    by_cases hi : i < a.length <;> simp [hi, bit, Ops.get]
  have := foldl_shlStage amount hw (stages amount.length reverse) h0
  rwa [shifted_stages, Nat.zero_add] at this

lemma ShiftedLeft.value {outW s : ℕ} (h : A.ShiftedLeft ρ a outW s data) :
    data.length = outW ∧ A.value ρ data = A.value ρ a * 2 ^ s % 2 ^ outW := by
  refine ⟨length_of_map_eq h, ?_⟩
  rw [value_of_map_eq h]
  have hsh := bitsVal_shift (A.bit ρ a) s (max a.length outW)
  rw [← value_eq (le_max_left _ _), mul_comm] at hsh
  rw [← hsh, bitsVal_mod ((le_max_right _ _).trans (Nat.le_add_left _ _))]
  refine Carry.bitsVal_congr fun i _ => ?_
  by_cases hi : s ≤ i <;> simp [hi]

/-! ## Right -/

section

variable (A : BitAlgebra Bit Env) (ρ : Env) (a : List Bit) (fill : Bit)

/-- Bit `i` of `a` moved down by `s`, with `fill` above the top. -/
def down (s i : ℕ) : Bool :=
  if i + s < a.length then A.bit ρ a (i + s) else A.eval ρ fill

/-- Data that holds the low `n` bits of `a` moved down by `s`. -/
def ShiftedRight (n s : ℕ) (data : List Bit) : Prop :=
  data.map (A.eval ρ) = (List.range n).map (A.down ρ a fill s)

end

lemma shrNeed_le {w outW : ℕ} (h : outW ≤ w) (ks : List ℕ) : Ops.shrNeed w outW ks ≤ w := by
  induction ks with
  | nil => exact h
  | cons k ks ih =>
    rw [shrNeed]
    split
    · exact ih
    · exact min_le_left _ _

variable (amount) in
lemma shrStages_shifted (hw : a.length < 2 ^ 31) {outW : ℕ}
    (hout : outW ≤ a.length) (ks : List ℕ) {s : ℕ}
    (h : A.ShiftedRight ρ a fill (Ops.shrNeed a.length outW ks) s data) :
    ∃ r, A.shrStages a.length amount fill outW ks data = some r ∧
    A.ShiftedRight ρ a fill outW (s + A.shifted ρ amount ks) r := by
  induction ks generalizing s data with
  | nil => exact ⟨data, rfl, h⟩
  | cons k ks ih =>
    have hlen := length_of_map_eq h
    have hn := shrNeed_le hout ks
    have hrd : ∀ i < shrNeed a.length outW ks, i < data.length ∧
        (i + stageShift a.length k < a.length → i + stageShift a.length k < data.length) := by
      intro i hi
      rw [hlen, shrNeed]
      split
      · exact ⟨hi, fun h => by omega⟩
      · exact ⟨by omega, fun h => by omega⟩
    rw [shrStages]
    simp only [if_pos hrd]
    rw [shifted, map_cons, sum_cons, ← add_assoc]
    refine ih ?_
    unfold ShiftedRight
    rw [map_map]
    refine map_congr_left fun i hi => ?_
    have hi := mem_range.1 hi
    obtain ⟨hin, hmo⟩ := hrd i hi
    have hke : A.eval ρ (A.get data i) = _ := bit_of_map_eq h (hlen ▸ hin)
    rw [comp_apply, eval_select, hke]
    change (if A.bit ρ amount k then _ else _) = _
    cases A.bit ρ amount k with
    | false => simp
    | true =>
      simp only [if_true, toNat_true, mul_one]
      split
      next hlt =>
        have hbit : A.eval ρ (A.get data (i + stageShift a.length k)) = _ :=
          bit_of_map_eq h (hlen ▸ hmo hlt)
        rw [hbit]
        rcases stageShift_eq hw k with hk | ⟨hk, -⟩
        · rw [hk, down, down, add_assoc, add_comm (2 ^ k) s]
        · omega
      next hge =>
        have hout : ¬i + (s + 2 ^ k) < a.length := by
          rcases stageShift_eq hw k with hk | ⟨hk, hk'⟩ <;> omega
        rw [down, if_neg hout]

variable (amount fill) in
lemma buildShrPrefix_shifted (hw : a.length < 2 ^ 31) (outW : ℤ) (reverse : Bool) :
    ∃ r, A.buildShrPrefix a amount fill outW reverse = some r ∧
      A.ShiftedRight ρ a fill (min outW a.length).toNat (A.value ρ amount) r := by
  have hout : (min outW a.length).toNat ≤ a.length := by omega
  have hne := shrNeed_le hout (stages amount.length reverse)
  have h0 : A.ShiftedRight ρ a fill
      (shrNeed a.length (min outW a.length).toNat (stages amount.length reverse)) 0
      (a.take (Ops.shrNeed a.length (min outW a.length).toNat
        (Ops.stages amount.length reverse))) := by
    unfold ShiftedRight
    rw [map_eval_get (length_take_of_le hne)]
    refine map_congr_left fun i hi => ?_
    have hi := mem_range.1 hi
    rw [down, if_pos (by omega)]
    simp [bit, Ops.get, hi]
  obtain ⟨r, hr, hsh⟩ := shrStages_shifted amount hw hout _ h0
  rw [shifted_stages, zero_add] at hsh
  exact ⟨r, (if_pos hne).trans hr, hsh⟩

/-! ## The table -/

lemma foldl_tableRound (index : List Bit) {level : List Bit} (h : level.length = 2 ^ index.length) :
    A.bit ρ (index.foldl A.tableRound level) 0 = A.bit ρ level (A.value ρ index) := by
  induction index generalizing level with
  | nil => rfl
  | cons sel index ih =>
    rw [length_cons, pow_succ] at h
    have hha : level.length / 2 = 2 ^ index.length := by omega
    have hlt := A.value_lt (ρ := ρ) index
    rw [foldl_cons, ih (by simp [tableRound, hha]), tableRound, bit_map_range _ (hha ▸ hlt),
      eval_select, value_cons]
    cases A.eval ρ sel with
    | true => rw [if_pos rfl, toNat_true, add_comm]; rfl
    | false => rw [if_neg Bool.false_ne_true, Bool.toNat_false, Nat.zero_add]; rfl

variable (fill) in
lemma buildTableShrPrefix_shifted (index : List Bit) (amounts : List ℕ) (outW : ℤ) :
    A.ShiftedRight ρ a fill (min outW a.length).toNat (amounts.getD (A.value ρ index) a.length)
      (A.buildTableShrPrefix a index fill amounts outW) := by
  unfold ShiftedRight Ops.buildTableShrPrefix
  rw [map_map]
  refine map_congr_left fun i hi => ?_
  have hi := mem_range.1 hi
  have hlt := A.value_lt (ρ := ρ) index
  rw [comp_apply]
  refine (foldl_tableRound index (by simp)).trans ?_
  rw [bit_map_range _ hlt, down]
  by_cases h : i + amounts.getD (A.value ρ index) a.length < a.length
  · rw [if_pos h, if_pos (by omega)]
    rfl
  · rw [if_neg h, if_neg (by omega)]

end BitAlgebra

open BitAlgebra in
/-- The barrel shifters are the shifts by the value of the amount, in either order of the stages and
without a read outside the window, and the table select is the shift by the amount of the index
value.  The affine select is so exactly when no amount overflows.  Widths are `int`s. -/
theorem shift_builders {Bit : Type u} {Env : Type v} (A : BitAlgebra Bit Env) (ρ : Env)
    (a amount index : List Bit)
    (fill : Bit) (amounts : List ℕ) (scale bias : ℤ) (outW : ℕ) (prefixW : ℤ) (reverse : Bool)
    (hout : outW < 2 ^ 31) (ha : a.length < 2 ^ 31) :
    ((A.buildShl a amount outW reverse).length = outW ∧
      A.value ρ (A.buildShl a amount outW reverse) =
        A.value ρ a * 2 ^ A.value ρ amount % 2 ^ outW) ∧
    (∃ r, A.buildShrPrefix a amount fill prefixW reverse = some r ∧
      A.ShiftedRight ρ a fill (min prefixW a.length).toNat (A.value ρ amount) r ∧
      (amounts.getD (A.value ρ index) a.length = A.value ρ amount →
        r.map (A.eval ρ) = (A.buildTableShrPrefix a index fill amounts prefixW).map (A.eval ρ))) ∧
    A.ShiftedRight ρ a fill (min prefixW a.length).toNat (amounts.getD (A.value ρ index) a.length)
      (A.buildTableShrPrefix a index fill amounts prefixW) ∧
    ((∃ r, A.buildAffineShrPrefix a index fill scale bias prefixW = some r ∧
      A.ShiftedRight ρ a fill (min prefixW a.length).toNat
        (affineAmount a scale bias (A.value ρ index)) r) ↔
        ∀ v < 2 ^ index.length, amountFits scale bias v) := by
  refine ⟨(buildShl_shifted hout reverse).value, ?_,
    buildTableShrPrefix_shifted fill index amounts prefixW, ?_⟩
  · obtain ⟨r, hr, hshift⟩ := buildShrPrefix_shifted (A := A) (ρ := ρ)
      amount fill ha prefixW reverse
    refine ⟨r, hr, hshift, fun h => ?_⟩
    have htable := buildTableShrPrefix_shifted (A := A) (ρ := ρ) (a := a) fill index amounts prefixW
    rw [h] at htable
    exact hshift.trans htable.symm
  · constructor
    · rintro ⟨r, hr, -⟩
      by_contra hfits
      rw [buildAffineShrPrefix, if_neg hfits] at hr
      cases hr
    · intro hfits
      refine ⟨_, if_pos hfits, ?_⟩
      have h := buildTableShrPrefix_shifted (A := A) (ρ := ρ) (a := a) fill index
        ((range (2 ^ index.length)).map (affineAmount a scale bias)) prefixW
      rwa [getD_eq_getElem?_getD, getElem?_map, getElem?_range (A.value_lt index)] at h

theorem shift_builders_five : ((5 : ℕ) < 2 ^ 31 ∧ [true, false, true].length < 2 ^ 31) ∧
    boolAlgebra.value () (boolAlgebra.buildShl [true, false, true] [true, true] 5 true) =
    5 * 2 ^ 3 % 2 ^ 5 ∧
    ∃ r, boolAlgebra.buildAffineShrPrefix [true, false, true] [true] true 2 1 2 = some r ∧
      boolAlgebra.ShiftedRight () [true, false, true] true 2 3 r :=
  have h := shift_builders boolAlgebra () [true, false, true] [true, true] [true] true [2, 1] 2 1 5
    2 true (by decide) (by decide)
  ⟨⟨by decide, by decide⟩, h.1.2, h.2.2.2.2 (by decide)⟩

/-- Index value 4 shifts by `2 ^ 64`, which `int64_t` does not hold. -/
theorem buildAffineShrPrefix_overflows : boolAlgebra.value () [false, false, true] = 4 ∧
    ¬∃ r, boolAlgebra.buildAffineShrPrefix [true, false]
    [false, false, true] false (2 ^ 62) 0 2 = some r ∧
      boolAlgebra.ShiftedRight () [true, false] false 2
      (affineAmount [true, false] (2 ^ 62) 0 4) r := by
  refine ⟨by decide, ?_⟩
  rintro ⟨r, hr, -⟩
  rw [buildAffineShrPrefix, if_neg (by decide)] at hr
  cases hr

end LiveHD.Synth
