import LiveHD.Synth.Arith.Add

/-!
# The n-ary modular sum of `build_sum`

Operands of any width, signed or unsigned, added or subtracted, are extended to the
output width, compressed three rows to two without carry propagation, and finished
by one adder.
-/

namespace LiveHD.Synth

open Function List Carry Int Ops

universe u v

/-- One independently sized operand of an n-input sum. -/
structure SumOperand (Bit : Type u) where
  bits : List Bit
  isSigned : Bool := false
  subtract : Bool := false

namespace Ops

variable {Bit : Type u} (ops : Ops Bit)

variable (v : List Bit) (isSigned : Bool)

/-- The bit a vector is extended with: its last one when it is signed. -/
def fill : Bit :=
  if isSigned && !v.isEmpty then ops.get v (v.length - 1) else ops.zero

/-- A vector sign- or zero-extended, or truncated, to `n` bits. -/
def extend (n : ℕ) : List Bit :=
  (List.range n).map fun i => if i < v.length then ops.get v i else ops.fill v isSigned

/-- The row of an operand; a subtracted one is complemented. -/
def sumRow (outW : ℕ) (o : SumOperand Bit) : List Bit :=
  (ops.extend o.bits o.isSigned outW).map fun b => if o.subtract then ops.inv b else b

/-- The rows of `sum` and `carry` bits of three rows; the last carry is dropped. -/
def compressRows (outW : ℕ) (x y z : List Bit) : List Bit × List Bit :=
  let fa := fun i => ops.fullAdder (ops.get x i) (ops.get y i) (ops.get z i)
  ((List.range outW).map fun i => (fa i).1,
    (List.range outW).map fun i => if i = 0 then ops.zero else (fa (i - 1)).2)

/-- One pass over the rows: every full triple becomes two rows. -/
def compressPass (outW : ℕ) : List (List Bit) → List (List Bit)
  | x :: y :: z :: rows =>
    (ops.compressRows outW x y z).1 :: (ops.compressRows outW x y z).2 :: compressPass outW rows
  | rows => rows

lemma compressPass_length_le (outW : ℕ) (rows : List (List Bit)) :
    (ops.compressPass outW rows).length ≤ rows.length := by
  induction rows using compressPass.induct with
  | case1 x y z rows ih =>
    simp only [compressPass, length_cons]
    omega
  | case2 rows h => rwa [compressPass]

lemma compressPass_length_lt (outW : ℕ) {rows : List (List Bit)} (h : 2 < rows.length) :
    (ops.compressPass outW rows).length < rows.length := by
  match rows, h with
  | x :: y :: z :: rows, _ =>
    have := ops.compressPass_length_le outW rows
    simp only [compressPass, length_cons]
    omega

/-- `while (rows.size() > 2)`. -/
def compressAll (outW : ℕ) (rows : List (List Bit)) : List (List Bit) :=
  if 2 < rows.length then compressAll outW (ops.compressPass outW rows) else rows
termination_by rows.length
decreasing_by exact ops.compressPass_length_lt outW ‹_›

/-- `build_sum`. -/
def buildSum (kind : AdderKind) (blockSize : ℕ) (operands : List (SumOperand Bit))
    (outW : ℕ) : List Bit :=
  if outW = 0 then []
  else
    let rows := operands.map (ops.sumRow outW)
    let negatives := operands.countP (·.subtract)
    let zeros := List.replicate outW ops.zero
    if rows.length ≤ 2 ∧ negatives ≤ 1 then
      -- a binary subtract needs only a carry-in, not a third row
      (ops.buildAdd kind blockSize (rows.getD 0 zeros) (rows.getD 1 zeros)
        (if negatives ≠ 0 then ops.one else ops.zero)).sum
    else
      let correction := (List.range outW).map fun i =>
        if negatives.testBit i then ops.one else ops.zero
      let rows := if negatives ≠ 0 then rows ++ [correction] else rows
      let rows := ops.compressAll outW rows
      (ops.buildAdd kind blockSize (rows.getD 0 zeros) (rows.getD 1 zeros) ops.zero).sum

end Ops

/-! ## Vectors that hold a number -/

namespace BitAlgebra

variable {Bit : Type u} {Env : Type v} (A : BitAlgebra Bit Env) (ρ : Env)

/-- The value of a vector as the caller reads it, signed or unsigned. -/
def intValue (isSigned : Bool) (v : List Bit) : ℤ :=
  A.value ρ v - if isSigned && A.bit ρ v (v.length - 1) then 2 ^ v.length else 0

/-- An `n`-bit vector that holds `z` modulo `2 ^ n`. -/
structure Holds (n : ℕ) (v : List Bit) (z : ℤ) : Prop where
  length : v.length = n
  value : (A.value ρ v : ℤ) ≡ z [ZMOD 2 ^ n]

variable {A ρ}

variable {n : ℕ}

variable {z : ℤ}

lemma Holds.congr {v : List Bit} {y : ℤ} (h : A.Holds ρ n v y) (hz : y ≡ z [ZMOD 2 ^ n]) :
    A.Holds ρ n v z := ⟨h.length, h.value.trans hz⟩

/-- A vector holds its own value. -/
lemma Holds.self (v : List Bit) : A.Holds ρ v.length v (A.value ρ v) := ⟨rfl, .refl _⟩

lemma Holds.eq_emod {v : List Bit} (h : A.Holds ρ n v z) : (A.value ρ v : ℤ) = z % 2 ^ n := by
  have hlt : (A.value ρ v : ℤ) < 2 ^ n := by
    have := A.value_lt (ρ := ρ) v
    rw [h.length] at this
    exact_mod_cast this
  rw [← h.value, Int.emod_eq_of_lt (Int.natCast_nonneg _) hlt]

lemma value_map_range (n : ℕ) (f : ℕ → Bit) :
    A.value ρ ((List.range n).map f) = bitsVal (fun i => A.eval ρ (f i)) n :=
  value_of_map_eq (by rw [map_map]; rfl)

/-- A vector given bit by bit holds the number with these bits. -/
lemma Holds.of_bits {f : ℕ → Bit}
    (h : (Carry.bitsVal (fun i => A.eval ρ (f i)) n : ℤ) ≡ z [ZMOD 2 ^ n]) :
    A.Holds ρ n ((List.range n).map f) z :=
  ⟨by simp, by rw [value_map_range]; exact h⟩

variable {a b : List Bit} {x y : ℤ} (kind : AdderKind) (bs : ℕ)

lemma Holds.buildAdd (cin : Bit) (ha : A.Holds ρ n a x) (hb : A.Holds ρ n b y) :
    A.Holds ρ n (A.buildAdd kind bs a b cin).sum (x + y + (A.eval ρ cin).toNat) := by
  have hc : A.Chain ρ a b cin a.length (A.buildAdd kind bs a b cin) := buildAdd_chain kind bs
  refine ⟨(length_of_map_eq hc.1).trans ha.length, ?_⟩
  have hval : A.value ρ (A.buildAdd kind bs a b cin).sum =
      (A.value ρ a + A.value ρ b + (A.eval ρ cin).toNat) % 2 ^ n := by
    rw [value_of_map_eq hc.1, Carry.sumBit_mod,
      ha.length, ← value_eq ha.length.le, ← value_eq hb.length.le]
  rw [hval]
  push_cast
  exact (Int.mod_modEq _ _).trans ((ha.value.add hb.value).add_right _)

lemma Holds.add (ha : A.Holds ρ n a x) (hb : A.Holds ρ n b y) :
    A.Holds ρ n (A.buildAdd kind bs a b A.zero).sum (x + y) := by
  simpa using Holds.buildAdd kind bs A.zero ha hb

variable (v : List Bit) (isSigned : Bool)

lemma eval_fill : A.eval ρ (A.fill v isSigned) = (isSigned && A.bit ρ v (v.length - 1)) := by
  cases isSigned with
  | false => simp [fill]
  | true =>
    cases v with
    | nil => simp [fill, bit, Ops.get]
    | cons b v => simp [Ops.fill, bit]

/-- Extending (or truncating) a vector keeps its value modulo `2 ^ n`. -/
lemma extend_holds (n : ℕ) : A.Holds ρ n (A.extend v isSigned n) (A.intValue ρ isSigned v) := by
  refine .of_bits ?_
  set b := isSigned && A.bit ρ v (v.length - 1) with hb
  set x : ℕ → Bool := fun i => if i < v.length then A.bit ρ v i else b with hx
  have hev : ∀ i, A.eval ρ (if i < v.length then A.get v i else A.fill v isSigned) = x i := by
    intro i
    by_cases hi : i < v.length
    · simp only [hx, hi, if_true]; rfl
    · simp only [hx, hi, if_false, eval_fill, hb]
  have hlow : bitsVal x v.length = A.value ρ v :=
    bitsVal_congr fun i hi => by simp only [hx, hi, if_true]
  have hval : A.intValue ρ isSigned v = A.value ρ v - 2 ^ v.length * (b.toNat : ℤ) := by
    rw [intValue, ← hb]
    cases b <;> simp
  rw [bitsVal_congr fun i _ => hev i, hval]
  rcases le_total n v.length with hn | hn
  · -- truncation: the sign's weight is a multiple of `2 ^ n`
    rw [← bitsVal_mod hn, hlow]
    push_cast
    refine (mod_modEq _ _).trans ?_
    refine (modEq_iff_dvd.2 ?_)
    rw [sub_sub_cancel_left]
    exact (Dvd.dvd.mul_right (pow_dvd_pow 2 hn) _).neg_right
  · obtain ⟨k, rfl⟩ := Nat.exists_eq_add_of_le hn
    have hfi := bitsVal_fill x b v.length k fun i hi => by
      simp only [hx, Nat.not_lt.2 hi, if_false]
    rw [hlow] at hfi
    have hfi' : (bitsVal x (v.length + k) : ℤ) =
        A.value ρ v - 2 ^ v.length * (b.toNat : ℤ) + 2 ^ (v.length + k) * (b.toNat : ℤ) := by
      have : (bitsVal x (v.length + k) : ℤ) + 2 ^ v.length * (b.toNat : ℤ) =
          A.value ρ v + 2 ^ (v.length + k) * (b.toNat : ℤ) := by exact_mod_cast hfi
      linarith
    rw [hfi']
    exact (Int.modEq_iff_dvd.2 (by rw [sub_add_cancel_left]; exact (Dvd.intro _ rfl).neg_right))

/-- What an operand contributes to the sum. -/
def contribution (A : BitAlgebra Bit Env) (ρ : Env) (o : SumOperand Bit) : ℤ :=
  if o.subtract then -A.intValue ρ o.isSigned o.bits else A.intValue ρ o.isSigned o.bits

/-- A complemented row is short of its contribution by one. -/
lemma sumRow_holds (n : ℕ) (o : SumOperand Bit) :
    A.Holds ρ n (A.sumRow n o) (A.contribution ρ o - if o.subtract then 1 else 0) := by
  have hext := A.extend_holds (ρ := ρ) o.bits o.isSigned n
  cases ho : o.subtract with
  | false => simpa [sumRow, contribution, ho] using hext
  | true =>
    have hlen := hext.length
    have hnot := bitsVal_not (A.bit ρ (A.extend o.bits o.isSigned n)) n
    have hval : A.value ρ (A.sumRow n o) =
        bitsVal (fun i => !A.bit ρ (A.extend o.bits o.isSigned n) i) n := by
      refine value_of_map_eq ?_
      simp only [sumRow, ho, if_true, map_map]
      have := congrArg (map not) (map_eval_get (A := A) (ρ := ρ) hlen)
      simpa [comp_def] using this
    refine ⟨by simp [sumRow, hlen], ?_⟩
    rw [← value_eq hlen.le, ← hval] at hnot
    have hno' : (A.value ρ (A.sumRow n o) : ℤ) =
        2 ^ n - A.value ρ (A.extend o.bits o.isSigned n) - 1 := by
      have : (A.value ρ (A.sumRow n o) : ℤ) +
          A.value ρ (A.extend o.bits o.isSigned n) + 1 = 2 ^ n := by
        exact_mod_cast hnot
      linarith
    rw [hno', contribution, ho]
    simp only [if_true]
    have h0 : (2 : ℤ) ^ n ≡ 0 [ZMOD 2 ^ n] := Int.modEq_zero_iff_dvd.2 (dvd_refl _)
    simpa using (h0.sub hext.value).sub_right 1

/-! ## Rows -/

/-- Rows of `n` bits that sum to `z` modulo `2 ^ n`. -/
structure RowsHold (A : BitAlgebra Bit Env) (ρ : Env) (n : ℕ)
    (rows : List (List Bit)) (z : ℤ) : Prop where
  length : ∀ row ∈ rows, row.length = n
  value : (((rows.map (A.value ρ)).sum : ℕ) : ℤ) ≡ z [ZMOD 2 ^ n]

lemma RowsHold.nil (n : ℕ) : A.RowsHold ρ n [] 0 := ⟨by simp, .refl _⟩

lemma RowsHold.cons {row : List Bit} {rows : List (List Bit)} {y : ℤ}
    (h : A.Holds ρ n row y) (hs : A.RowsHold ρ n rows z) :
    A.RowsHold ρ n (row :: rows) (y + z) where
  length := forall_mem_cons.2 ⟨h.length, hs.length⟩
  value := by exact h.value.add hs.value

lemma RowsHold.append {xs ys : List (List Bit)} {y : ℤ} (hx : A.RowsHold ρ n xs y)
    (hy : A.RowsHold ρ n ys z) : A.RowsHold ρ n (xs ++ ys) (y + z) where
  length row hr := (mem_append.1 hr).elim (hx.length row) (hy.length row)
  value := by
    rw [map_append, sum_append]
    exact hx.value.add hy.value

lemma RowsHold.congr {rows : List (List Bit)} {y : ℤ} (h : A.RowsHold ρ n rows y)
    (hz : y ≡ z [ZMOD 2 ^ n]) : A.RowsHold ρ n rows z := ⟨h.length, h.value.trans hz⟩

/-- Rows whose values add up to another list's hold the same number. -/
lemma RowsHold.of_sum {xs ys : List (List Bit)} (h : A.RowsHold ρ n xs z)
    (hlen : ∀ row ∈ ys, row.length = n)
    (hsum : (ys.map (A.value ρ)).sum ≡ (xs.map (A.value ρ)).sum [MOD 2 ^ n]) :
    A.RowsHold ρ n ys z where
  length := hlen
  value := by
    have := Int.natCast_modEq_iff.2 hsum
    exact_mod_cast this.trans (by exact_mod_cast h.value)

lemma compressRows_value {x y z : List Bit} (hx : x.length = n)
    (hy : y.length = n) (hz : z.length = n) :
    A.value ρ (A.compressRows n x y z).1 + A.value ρ (A.compressRows n x y z).2 ≡
      A.value ρ x + A.value ρ y + A.value ρ z [MOD 2 ^ n] := by
  set c : ℕ → Bool := fun i => A.eval ρ (if i = 0 then A.zero else
    (A.fullAdder (A.get x (i - 1)) (A.get y (i - 1)) (A.get z (i - 1))).2) with hc
  have key := compress_val (A.bit ρ x) (A.bit ρ y) (A.bit ρ z) c (by simp [hc])
    (fun i => by simp [hc, fullAdder, bit]) n
  rw [← value_eq hx.le, ← value_eq hy.le, ← value_eq hz.le, bitsVal_succ] at key
  rw [← key, compressRows, value_map_range, value_map_range]
  have hsum : (fun i => A.eval ρ (A.fullAdder (A.get x i) (A.get y i) (A.get z i)).1) =
      fun i => (A.bit ρ x i ^^ A.bit ρ y i) ^^ A.bit ρ z i := by
    funext i
    simp [Ops.fullAdder, bit]
  rw [hsum, ← add_assoc]
  exact ((Nat.modEq_zero_iff_dvd.2 (Dvd.intro _ rfl)).symm.add_left _)

lemma compressPass_rowsHold {rows : List (List Bit)} (h : A.RowsHold ρ n rows z) :
    A.RowsHold ρ n (A.compressPass n rows) z := by
  have key : (∀ row ∈ rows, row.length = n) → (∀ row ∈ A.compressPass n rows, row.length = n) ∧
      ((A.compressPass n rows).map (A.value ρ)).sum ≡ (rows.map (A.value ρ)).sum [MOD 2 ^ n] := by
    clear h
    induction rows using compressPass.induct with
    | case1 x y z rows ih =>
      intro hlen
      simp only [forall_mem_cons] at hlen
      obtain ⟨hx, hy, hz, hro⟩ := hlen
      obtain ⟨ih1, ih2⟩ := ih hro
      refine ⟨?_, ?_⟩
      · simp only [compressPass, forall_mem_cons]
        exact ⟨by simp [compressRows], by simp [compressRows], ih1⟩
      · simp only [compressPass, map_cons, sum_cons, ← add_assoc]
        exact (compressRows_value hx hy hz).add ih2
    | case2 rows hro =>
      intro hlen
      rw [Ops.compressPass]
      · exact ⟨hlen, .refl _⟩
      · exact hro
  obtain ⟨hlen, hsum⟩ := key h.length
  exact h.of_sum hlen hsum

lemma compressAll_rowsHold (rows : List (List Bit)) (h : A.RowsHold ρ n rows z) :
    A.RowsHold ρ n (A.compressAll n rows) z ∧ (A.compressAll n rows).length ≤ 2 := by
  induction rows using Ops.compressAll.induct A.toOps n with
  | case1 rows hlen ih =>
    rw [compressAll, if_pos hlen]
    exact ih (compressPass_rowsHold h)
  | case2 rows hlen =>
    rw [compressAll, if_neg hlen]
    exact ⟨h, Nat.not_lt.1 hlen⟩

lemma value_zeros (n : ℕ) : A.value ρ (List.replicate n A.zero) = 0 := by
  rw [value]
  refine Finset.sum_eq_zero fun i _ => ?_
  simp [bit, Ops.get]

/-- At most two rows, padded with zeros and added. -/
lemma RowsHold.buildAdd {rows : List (List Bit)} (kind : AdderKind) (bs : ℕ)
    (cin : Bit) (h : A.RowsHold ρ n rows z) (hlen : rows.length ≤ 2) :
    A.Holds ρ n (A.buildAdd kind bs (rows.getD 0 (List.replicate n A.zero))
      (rows.getD 1 (List.replicate n A.zero)) cin).sum (z + (A.eval ρ cin).toNat) := by
  have h0 : A.Holds ρ n (replicate n A.zero) 0 :=
    ⟨length_replicate, by rw [value_zeros]; exact .refl _⟩
  match rows, hlen with
  | [], _ =>
    refine (Holds.buildAdd kind bs cin h0 h0).congr ?_
    simpa using h.value.add_right (A.eval ρ cin).toNat
  | [x], _ =>
    have hx : A.Holds ρ n x (A.value ρ x) := ⟨h.length x (by simp), .refl _⟩
    refine (Holds.buildAdd kind bs cin hx h0).congr ?_
    simpa using h.value.add_right (A.eval ρ cin).toNat
  | [x, y], _ =>
    have hx : A.Holds ρ n x (A.value ρ x) := ⟨h.length x (by simp), .refl _⟩
    have hy : A.Holds ρ n y (A.value ρ y) := ⟨h.length y (by simp), .refl _⟩
    refine (Holds.buildAdd kind bs cin hx hy).congr ?_
    simpa using h.value.add_right (A.eval ρ cin).toNat

/-- The complemented rows of the operands are short by the number of subtractions. -/
lemma sumRows_rowsHold (n : ℕ) (operands : List (SumOperand Bit)) :
    A.RowsHold ρ n (operands.map (A.sumRow n))
      ((operands.map (A.contribution ρ)).sum - operands.countP (·.subtract)) := by
  induction operands with
  | nil => simpa using RowsHold.nil n
  | cons o operands ih =>
    refine (RowsHold.cons (sumRow_holds n o) ih).congr ?_
    rw [map_cons, sum_cons, countP_cons]
    cases o.subtract with
    | false =>
      simp only [Bool.false_eq_true, if_false, sub_zero, add_zero, add_sub_assoc]
      rfl
    | true =>
      simp only [if_true, Nat.cast_add, Nat.cast_one]
      ring_nf
      rfl

/-- The n-ary sum is exact modulo `2 ^ outW`. -/
lemma buildSum_holds (kind : AdderKind) (bs : ℕ) (operands : List (SumOperand Bit)) (outW : ℕ) :
    A.Holds ρ outW (A.buildSum kind bs operands outW) (operands.map (A.contribution ρ)).sum := by
  have hro := sumRows_rowsHold (A := A) (ρ := ρ) outW operands
  set total := (operands.map (A.contribution ρ)).sum
  set negatives := operands.countP (·.subtract) with hneg
  unfold buildSum
  split
  · subst outW
    exact ⟨rfl, by simpa using modEq_one⟩
  · dsimp only
    rw [← hneg]
    split
    next hsm =>
      refine (hro.buildAdd kind bs _ hsm.1).congr ?_
      have : negatives = 0 ∨ negatives = 1 := by omega
      rcases this with h | h <;> simp [h]
    · have hco : A.RowsHold ρ outW (if negatives ≠ 0 then operands.map (A.sumRow outW) ++
          [(List.range outW).map fun i => if negatives.testBit i then A.one else A.zero]
          else operands.map (A.sumRow outW)) total := by
        by_cases h0 : negatives = 0
        · simpa [h0] using hro
        · rw [if_pos h0]
          have hc : A.Holds ρ outW
              ((List.range outW).map fun i => if negatives.testBit i then A.one else A.zero)
              negatives := by
            refine .of_bits ?_
            have hb : (fun i => A.eval ρ (if negatives.testBit i then A.one else A.zero)) =
                negatives.testBit := by
              funext i
              cases negatives.testBit i <;> simp
            rw [hb, bitsVal_testBit]
            push_cast
            exact Int.mod_modEq _ _
          refine (hro.append (.cons hc (.nil outW))).congr ?_
          simp only [add_zero, sub_add_cancel]
          rfl
      obtain ⟨hall, hle⟩ := compressAll_rowsHold _ hco
      simpa using hall.buildAdd kind bs A.zero hle

end BitAlgebra

/-- The n-ary sum is the sum of what its operands contribute, modulo `2 ^ outW`, for every adder. -/
theorem buildSum_value {Bit : Type u} {Env : Type v} (A : BitAlgebra Bit Env)
    (kind : AdderKind) (blockSize : ℕ)
    (operands : List (SumOperand Bit)) (outW : ℕ) (ρ : Env) :
    (A.buildSum kind blockSize operands outW).length = outW ∧
      (A.value ρ (A.buildSum kind blockSize operands outW) : ℤ) =
      (operands.map (A.contribution ρ)).sum % 2 ^ outW :=
  have h := BitAlgebra.buildSum_holds kind blockSize operands outW
  ⟨h.length, h.eq_emod⟩

end LiveHD.Synth
