import LiveHD.Synth.Arith.Mul

/-!
# Restoring division

`build_div` and `build_rem` divide magnitudes bit by bit and restore the signs afterwards.
Each step subtracts the divisor from the shifted partial remainder and keeps the difference
when it did not borrow; one extra bit keeps the partial remainder from overflowing.
-/

namespace LiveHD.Synth

open Nat hiding eq_zero_or_pos zero
open List BitAlgebra Bool Int

universe u v

namespace Ops

variable {Bit : Type u} (ops : Ops Bit)

def select (sel yes no : Bit) : Bit := ops.or_ (ops.and_ sel yes) (ops.and_ (ops.inv sel) no)

variable (kind : AdderKind) (blockSize : ℕ)

def conditionalNegate (value : List Bit) (negative : Bit) : List Bit :=
  (ops.buildAdd kind blockSize (value.map (ops.xor_ · negative))
    (List.replicate value.length ops.zero) negative).sum

/-- One more bit of the dividend, from the top: the remainder and the quotient bits so far. -/
def divStep (inverse : List Bit) (st : List Bit × List Bit) (d : Bit) : List Bit × List Bit :=
  let rem := d :: st.1.dropLast
  let diff := ops.buildAdd kind blockSize rem inverse ops.one
  (List.zipWith (ops.select diff.carryOut) diff.sum rem, diff.carryOut :: st.2)

/-- The remainder and the quotient of magnitudes. -/
def divLoop (dividend divisor : List Bit) : List Bit × List Bit :=
  let inverse := (divisor ++ [ops.zero]).map ops.inv
  dividend.reverse.foldl (ops.divStep kind blockSize inverse)
    (List.replicate (dividend.length + 1) ops.zero, [])

def buildDiv (a b : List Bit) (aSigned bSigned : Bool) (remainder : Bool := false) : List Bit :=
  if a.length = 0 then []
  else
    let aneg := ops.fill a aSigned
    let bneg := ops.fill b bSigned
    let st := ops.divLoop kind blockSize (ops.conditionalNegate kind blockSize a aneg)
      (ops.conditionalNegate kind blockSize b bneg)
    -- a truncated remainder has the sign of the dividend
    if remainder then ops.conditionalNegate kind blockSize (st.1.take a.length) aneg
    else ops.conditionalNegate kind blockSize st.2 (ops.xor_ aneg bneg)

def buildRem (a b : List Bit) (aSigned bSigned : Bool) : List Bit :=
  ops.buildDiv kind blockSize a b aSigned bSigned true

end Ops

namespace BitAlgebra

variable {Bit : Type u} {Env : Type v} {A : BitAlgebra Bit Env} {ρ : Env}

lemma eval_select (sel yes no : Bit) :
    A.eval ρ (A.select sel yes no) = if A.eval ρ sel then A.eval ρ yes else A.eval ρ no := by
  rw [Ops.select, eval_or, eval_and, eval_and, eval_inv]
  cases A.eval ρ sel <;> simp

lemma value_cons (b : Bit) (v : List Bit) :
    A.value ρ (b :: v) = (A.eval ρ b).toNat + 2 * A.value ρ v := by
  rw [value, length_cons, Carry.bitsVal, Finset.sum_range_succ', value, Carry.bitsVal,
    Finset.mul_sum, add_comm]
  congr 1
  · rw [pow_zero, one_mul]
    rfl
  · refine Finset.sum_congr rfl fun i _ => ?_
    rw [pow_succ', mul_assoc]
    rfl

@[simp] lemma value_nil : A.value ρ [] = 0 := rfl

/-- A complemented vector. -/
lemma value_map_inv (v : List Bit) : A.value ρ (v.map A.inv) + A.value ρ v + 1 = 2 ^ v.length := by
  induction v with
  | nil => rfl
  | cons b v ih =>
    rw [map_cons, value_cons, value_cons, eval_inv]
    cases A.eval ρ b <;> simp <;> omega

lemma value_map_xor (v : List Bit) (negative : Bit) : A.value ρ (v.map (A.xor_ · negative)) =
    if A.eval ρ negative then A.value ρ (v.map A.inv) else A.value ρ v := by
  induction v with
  | nil => simp
  | cons b v ih =>
    rw [map_cons, value_cons, ih, eval_xor]
    split
    next h => rw [map_cons, value_cons, eval_inv, h, Bool.xor_true]
    next h => rw [value_cons, eq_false_iff.2 h, Bool.xor_false]

/-- A vector under a sign. -/
lemma conditionalNegate_holds (kind : AdderKind) (bs : ℕ) (v : List Bit) (negative : Bit) :
    A.Holds ρ v.length (A.conditionalNegate kind bs v negative)
      (if A.eval ρ negative then -A.value ρ v else A.value ρ v) := by
  have hto := Holds.self (A := A) (ρ := ρ) (v.map (A.xor_ · negative))
  rw [length_map] at hto
  refine (Holds.buildAdd kind bs negative hto (zeros_holds v.length)).congr ?_
  rw [value_map_xor]
  split
  next h =>
    have hinv : (A.value ρ (v.map A.inv) : ℤ) = 2 ^ v.length - A.value ρ v - 1 := by
      have := value_map_inv (A := A) (ρ := ρ) v
      linarith
    rw [hinv, h]
    refine (modEq_iff_dvd.2 ⟨-1, ?_⟩)
    simp only [toNat_true]
    ring
  next h =>
    rw [Bool.eq_false_iff.2 h]
    exact Int.ModEq.refl _

/-! ## The loop -/

lemma value_select (sel : Bit) {yes no : List Bit} (h : yes.length = no.length) :
    A.value ρ (List.zipWith (A.select sel) yes no) = if A.eval ρ sel then A.value ρ yes
    else A.value ρ no := by
  induction yes generalizing no with
  | nil =>
    obtain rfl := length_eq_zero_iff.1 h.symm
    simp
  | cons y yes ih =>
    cases no with
    | nil => cases h
    | cons n no =>
      rw [zipWith_cons_cons, value_cons, ih (succ.inj h), Ops.select, eval_or,
        eval_and, eval_and, eval_inv]
      split
      next hs =>
        rw [value_cons, hs]
        simp
      next hs =>
        rw [value_cons, Bool.eq_false_iff.2 hs]
        simp

/-- A clear top bit can be dropped. -/
lemma value_dropLast {v : List Bit} {w : ℕ} (hlen : v.length = w + 1) (hlt : A.value ρ v < 2 ^ w) :
    A.value ρ v.dropLast = A.value ρ v := by
  have hne := ne_nil_of_length_eq_add_one hlen
  have hsp := dropLast_append_getLast hne
  have hval := value_concat (A := A) (ρ := ρ) v.dropLast (v.getLast hne)
  rw [hsp, length_dropLast, hlen, Nat.add_sub_cancel] at hval
  rcases eq_false_or_eq_true (A.eval ρ (v.getLast hne)) with h | h
  · rw [h, Bool.toNat_true] at hval
    omega
  · rw [h] at hval
    exact hval.symm

/-- One step of long division: a subtraction that does not borrow is kept. -/
lemma divStep_value (kind : AdderKind) (bs : ℕ) {w : ℕ} {inverse : List Bit}
    (hinv : inverse.length = w + 1)
    {divisor : ℕ} (hdiv : A.value ρ inverse + divisor + 1 = 2 ^ (w + 1)) {st : List Bit × List Bit}
    (hlen : st.1.length = w + 1) (hlt : A.value ρ st.1 < 2 ^ w) (d : Bit) :
    let rem := (A.eval ρ d).toNat + 2 * A.value ρ st.1
    let st' := A.divStep kind bs inverse st d
    st'.1.length = w + 1 ∧ st'.2.length = st.2.length + 1 ∧
      A.value ρ st'.1 = (if divisor ≤ rem then rem - divisor else rem) ∧
      A.value ρ st'.2 = (if divisor ≤ rem then 1 else 0) + 2 * A.value ρ st.2 := by
  intro rem st'
  have hle' : (d :: st.1.dropLast).length = w + 1 := by rw [length_cons, length_dropLast]; omega
  have hrem : A.value ρ (d :: st.1.dropLast) = rem := by rw [value_cons, value_dropLast hlen hlt]
  obtain ⟨hsum, hval, hca⟩ := buildAdd_value A kind bs (d :: st.1.dropLast) inverse A.one
    (hinv.trans hle'.symm) ρ
  have hr : rem < 2 ^ (w + 1) := by
    have := value_lt (A := A) (ρ := ρ) (d :: st.1.dropLast)
    rwa [hrem, hle'] at this
  have hto : A.value ρ (d :: st.1.dropLast) + A.value ρ inverse + (A.eval ρ A.one).toNat =
      rem + 2 ^ (w + 1) - divisor := by
    rw [eval_one, toNat_true]
    omega
  rw [hto, hle'] at hval hca
  have hst :
    st' = (zipWith (A.select (A.buildAdd kind bs (d :: st.1.dropLast) inverse A.one).carryOut)
    (A.buildAdd kind bs (d :: st.1.dropLast) inverse A.one).sum (d :: st.1.dropLast),
    (A.buildAdd kind bs (d :: st.1.dropLast) inverse A.one).carryOut :: st.2) := rfl
  rw [hst]
  refine ⟨?_, by simp, ?_⟩
  · rw [length_zipWith, hsum, hle', min_self]
  · rw [value_select _ hsum, hrem, hval, value_cons]
    by_cases hle : divisor ≤ rem
    · have hsp : rem + 2 ^ (w + 1) - divisor = 2 ^ (w + 1) + (rem - divisor) := by omega
      have hsm : rem - divisor < 2 ^ (w + 1) := by omega
      rw [hsp, testBit_two_pow_add_eq, testBit_lt_two_pow hsm] at hca
      rw [hsp, add_mod_left, mod_eq_of_lt hsm, hca, if_pos hle, if_pos hle]
      simp
    · have hsm : rem + 2 ^ (w + 1) - divisor < 2 ^ (w + 1) := by omega
      rw [Nat.testBit_lt_two_pow hsm] at hca
      rw [hca, if_neg hle, if_neg hle]
      simp

/-- The quotient of magnitudes; all ones when the divisor is zero. -/
def quotient (w dividend divisor : ℕ) : ℕ := if divisor = 0 then 2 ^ w - 1 else dividend / divisor

/-- What a step does to the part that is divided already. -/
lemma shift_mod_add (dividend divisor d : ℕ) :
    d + 2 * dividend = d + 2 * (dividend % divisor) + divisor * (2 * (dividend / divisor)) := by
  have hdm := Nat.mod_add_div dividend divisor
  have hmul : divisor * (2 * (dividend / divisor)) =
    2 * (divisor * (dividend / divisor)) := mul_left_comm _ _ _
  omega

lemma quotient_step (w dividend divisor d : ℕ) (hd : d ≤ 1) :
    quotient (w + 1) (d + 2 * dividend) divisor =
      (if divisor ≤ d + 2 * (dividend % divisor) then 1 else 0) +
      2 * quotient w dividend divisor := by
  unfold quotient
  split
  next h0 =>
    have hpow := Nat.two_pow_pos w
    rw [h0, if_pos (Nat.zero_le _)]
    omega
  next hpos =>
    have hpos := pos_of_ne_zero hpos
    have hlt := mod_lt dividend hpos
    rw [shift_mod_add dividend divisor d, add_mul_div_left _ _ hpos]
    congr 1
    split
    · exact Nat.div_eq_of_lt_le (by omega) (by omega)
    · exact div_eq_of_lt (by omega)

lemma mod_step (dividend divisor d : ℕ) (hd : d ≤ 1) : (d + 2 * dividend) % divisor =
    if divisor ≤ d + 2 * (dividend % divisor) then d + 2 * (dividend % divisor) - divisor
    else d + 2 * (dividend % divisor) := by
  rcases eq_zero_or_pos divisor with rfl | hpos
  · simp
  · have hlt := Nat.mod_lt dividend hpos
    rw [shift_mod_add dividend divisor d, add_mul_mod_self_left]
    split
    next hle => rw [mod_eq_sub_mod hle, mod_eq_of_lt (by omega)]
    next hle => exact mod_eq_of_lt (not_le.1 hle)

/-- The bits of the dividend from the top: the remainder and the quotient of what was read. -/
lemma divSteps_value (kind : AdderKind) (bs : ℕ) {w : ℕ} {divisor : List Bit}
    (hdiv : divisor.length = w)
    (dividend : List Bit) (hle : dividend.length ≤ w) :
    let st := dividend.reverse.foldl (A.divStep kind bs ((divisor ++ [A.zero]).map A.inv))
      (replicate (w + 1) A.zero, [])
    st.1.length = w + 1 ∧ st.2.length = dividend.length ∧
      A.value ρ st.1 = A.value ρ dividend % A.value ρ divisor ∧
      A.value ρ st.2 = quotient dividend.length (A.value ρ dividend) (A.value ρ divisor) := by
  induction dividend with
  | nil =>
    refine ⟨length_replicate, rfl, ?_, ?_⟩
    · exact value_zeros _
    · simp [quotient]
  | cons d dividend ih =>
    intro st
    obtain ⟨hlen, hle', hrem, hquo⟩ := ih (le_of_succ_le hle)
    have hinv : ((divisor ++ [A.zero]).map A.inv).length = w + 1 := by simp [hdiv]
    have hin : A.value ρ ((divisor ++ [A.zero]).map A.inv) + A.value ρ divisor + 1 =
        2 ^ (w + 1) := by
      have hval := value_map_inv (A := A) (ρ := ρ) (divisor ++ [A.zero])
      rwa [value_concat, eval_zero, toNat_false, Nat.mul_zero, add_zero, length_append,
        length_singleton, hdiv] at hval
    -- the partial remainder leaves the top bit clear
    have hlt :
        A.value ρ (dividend.reverse.foldl (A.divStep kind bs ((divisor ++ [A.zero]).map A.inv))
        (replicate (w + 1) A.zero, [])).1 < 2 ^ w := by
      rw [hrem]
      refine lt_of_le_of_lt (mod_le _ _) ((value_lt dividend).trans_le ?_)
      exact Nat.pow_le_pow_right (succ_pos 1) (le_of_succ_le hle)
    have hste := divStep_value kind bs hinv hin hlen hlt d
    have hd : (A.eval ρ d).toNat ≤ 1 := toNat_le _
    have hst : st = A.divStep kind bs ((divisor ++ [A.zero]).map A.inv)
        (dividend.reverse.foldl (A.divStep kind bs ((divisor ++ [A.zero]).map A.inv))
          (replicate (w + 1) A.zero, [])) d := by
      show (d :: dividend).reverse.foldl _ _ = _
      rw [reverse_cons, foldl_append]
      rfl
    rw [← hst, hrem, hquo, hle'] at hste
    obtain ⟨h1, h2, h3, h4⟩ := hste
    refine ⟨h1, h2, ?_, ?_⟩
    · rw [h3, value_cons, mod_step _ _ _ hd]
    · rw [h4, value_cons, length_cons, quotient_step _ _ _ _ hd]

/-! ## Signs -/

lemma value_pos_of_bit {v : List Bit} {i : ℕ} (h : A.bit ρ v i = true) : 0 < A.value ρ v := by
  have hi : i < v.length := by
    by_contra hge
    rw [bit_of_length_le (not_lt.1 hge)] at h
    cases h
  refine lt_of_lt_of_le ?_ (Finset.single_le_sum (fun _ _ => Nat.zero_le _) (Finset.mem_range.2 hi))
  rw [h]
  exact mul_pos (Nat.two_pow_pos i) one_pos

variable (v : List Bit) (isSigned : Bool)

/-- The sign bit is the sign. -/
lemma eval_fill_eq : A.eval ρ (A.fill v isSigned) = decide (A.intValue ρ isSigned v < 0) := by
  have hlt : (A.value ρ v : ℤ) < 2 ^ v.length := by exact_mod_cast value_lt (A := A) (ρ := ρ) v
  rw [intValue, ← eval_fill]
  split
  next h => rw [h, decide_eq_true (by linarith)]
  next h => rw [Bool.eq_false_iff.2 h, decide_eq_false (by linarith)]

lemma value_eq_emod : (A.value ρ v : ℤ) = A.intValue ρ isSigned v % 2 ^ v.length := by
  refine ((Holds.self v).congr ?_).eq_emod
  rw [intValue]
  split
  · exact Int.modEq_iff_dvd.2 ⟨-1, by ring⟩
  · rw [sub_zero]

/-- The magnitude of an operand under its sign. -/
lemma conditionalNegate_fill (kind : AdderKind) (bs : ℕ) (v : List Bit) (isSigned : Bool) :
    A.intValue ρ isSigned v =
      if A.eval ρ (A.fill v isSigned) then
      -(A.value ρ (A.conditionalNegate kind bs v (A.fill v isSigned)) : ℤ)
      else A.value ρ (A.conditionalNegate kind bs v (A.fill v isSigned)) := by
  have hho := conditionalNegate_holds (A := A) (ρ := ρ) kind bs v (A.fill v isSigned)
  have hlt : (A.value ρ v : ℤ) < 2 ^ v.length := by exact_mod_cast value_lt (A := A) (ρ := ρ) v
  rw [hho.eq_emod, intValue, ← eval_fill]
  split
  next hneg =>
    -- the sign bit is set, so the magnitude is not zero and fits
    rw [eval_fill, and_eq_true] at hneg
    have hpos : 0 < (A.value ρ v : ℤ) := by exact_mod_cast value_pos_of_bit hneg.2
    rw [← add_emod_right, emod_eq_of_lt (by linarith) (by linarith)]
    ring
  · rw [sub_zero, Int.emod_eq_of_lt (Int.natCast_nonneg _) hlt]

/-- Truncated division of numbers given by magnitudes and signs. -/
lemma tdiv_of_signs (p q : Bool) (m d : ℕ) :
    (if p then -(m : ℤ) else m).tdiv
    (if q then -(d : ℤ) else d) = if p ^^ q then -((m / d : ℕ) : ℤ) else (m / d : ℕ) := by
  cases p <;> cases q <;> simp

lemma tmod_of_signs (p q : Bool) (m d : ℕ) :
    (if p then -(m : ℤ) else m).tmod
    (if q then -(d : ℤ) else d) = if p then -((m % d : ℕ) : ℤ) else (m % d : ℕ) := by
  rw [Int.ofNat_tmod]
  cases p <;> cases q <;> simp

/-- The quotient bits of a division of any two operands of one width. -/
lemma buildDiv_holds (kind : AdderKind) (bs : ℕ) {a b : List Bit}
    (aSigned bSigned : Bool) (hw : 0 < a.length)
    (hlen : b.length = a.length) :
    let m := A.value ρ (A.conditionalNegate kind bs a (A.fill a aSigned))
    let d := A.value ρ (A.conditionalNegate kind bs b (A.fill b bSigned))
    let p := A.eval ρ (A.fill a aSigned)
    let q := A.eval ρ (A.fill b bSigned)
    A.Holds ρ a.length (A.buildDiv kind bs a b aSigned bSigned)
        (if p ^^ q then -(quotient a.length m d : ℤ) else quotient a.length m d) ∧
      A.Holds ρ a.length (A.buildRem kind bs a b aSigned bSigned)
        (if p then -((m % d : ℕ) : ℤ) else (m % d : ℕ)) := by
  intro m d p q
  have hdi := (conditionalNegate_holds (A := A) (ρ := ρ) kind bs a (A.fill a aSigned)).length
  have hdv := (conditionalNegate_holds (A := A) (ρ := ρ) kind bs b (A.fill b bSigned)).length.trans
    hlen
  obtain ⟨hrem, hquo, hmod, hdiv⟩ := divSteps_value (A := A) (ρ := ρ) kind bs hdv
    (A.conditionalNegate kind bs a (A.fill a aSigned)) hdi.le
  set st := A.divLoop kind bs (A.conditionalNegate kind bs a (A.fill a aSigned))
    (A.conditionalNegate kind bs b (A.fill b bSigned)) with hst
  have hlo : (A.conditionalNegate kind bs a (A.fill a aSigned)).reverse.foldl
      (A.divStep kind bs ((A.conditionalNegate kind bs b (A.fill b bSigned) ++ [A.zero]).map A.inv))
      (replicate (a.length + 1) A.zero, []) = st := by
    rw [hst, Ops.divLoop, hdi]
  rw [hlo] at hrem hquo hmod hdiv
  rw [hdi] at hquo hdiv
  constructor
  · have hneg := conditionalNegate_holds (A := A) (ρ := ρ) kind bs st.2
      (A.xor_ (A.fill a aSigned) (A.fill b bSigned))
    rw [hquo, hdiv, eval_xor] at hneg
    rwa [Ops.buildDiv, if_neg hw.ne']
  · have hta : st.1.take a.length = st.1.dropLast := by
      rw [dropLast_eq_take, hrem, Nat.add_sub_cancel]
    have hlt : A.value ρ st.1 < 2 ^ a.length := by
      rw [hmod]
      refine lt_of_le_of_lt (mod_le _ _) ?_
      have := value_lt (A := A) (ρ := ρ) (A.conditionalNegate kind bs a (A.fill a aSigned))
      rwa [hdi] at this
    have hneg := conditionalNegate_holds (A := A) (ρ := ρ) kind bs
      (st.1.take a.length) (A.fill a aSigned)
    rw [hta, length_dropLast, hrem, value_dropLast hrem hlt, hmod] at hneg
    rw [Ops.buildRem, Ops.buildDiv, if_neg hw.ne']
    show A.Holds ρ a.length (A.conditionalNegate kind bs (st.1.take a.length) (A.fill a aSigned)) _
    rwa [hta]

end BitAlgebra

/-- Division and remainder are truncated, as integers read with either sign; a zero divisor gives
all ones (one for a negative dividend) and the dividend. -/
theorem buildDiv_value {Bit : Type u} {Env : Type v} (A : BitAlgebra Bit Env)
    (kind : AdderKind) (blockSize : ℕ)
    (a b : List Bit) (aSigned bSigned : Bool) (hw : 1 ≤ a.length)
    (hlen : b.length = a.length) (ρ : Env) :
    let x := A.intValue ρ aSigned a
    let y := A.intValue ρ bSigned b
    let q := A.buildDiv kind blockSize a b aSigned bSigned
    let r := A.buildRem kind blockSize a b aSigned bSigned
    q.length = a.length ∧ r.length = a.length ∧
    (y ≠ 0 → (A.value ρ q : ℤ) = x.tdiv y % 2 ^ a.length ∧
      (A.value ρ r : ℤ) = (x - y * x.tdiv y) % 2 ^ a.length) ∧
    (y = 0 → (0 ≤ x → A.value ρ q = 2 ^ a.length - 1) ∧ (x < 0 → A.value ρ q = 1) ∧
      A.value ρ r = A.value ρ a) := by
  intro x y q r
  obtain ⟨hq, hr⟩ := buildDiv_holds (A := A) (ρ := ρ) kind blockSize aSigned bSigned hw hlen
  have hx : x = _ := conditionalNegate_fill (A := A) (ρ := ρ) kind blockSize a aSigned
  have hy : y = _ := conditionalNegate_fill (A := A) (ρ := ρ) kind blockSize b bSigned
  set d := A.value ρ (A.conditionalNegate kind blockSize b (A.fill b bSigned)) with hd
  set p := A.eval ρ (A.fill a aSigned) with hp
  set n := A.eval ρ (A.fill b bSigned) with hn
  have hzero : y = 0 → d = 0 := by
    intro hy0
    split at hy <;> omega
  have hn0 : y = 0 → n = false := by
    intro hy0
    rw [hn, eval_fill_eq]
    exact decide_eq_false (not_lt.2 hy0.ge)
  have hone : (2 : ℤ) ≤ 2 ^ a.length := by
    have hpow := Nat.pow_le_pow_right (succ_pos 1) hw
    exact_mod_cast hpow
  refine ⟨hq.length, hr.length, fun hy0 => ⟨?_, ?_⟩, fun hy0 => ⟨fun hx0 => ?_, fun hx0 => ?_, ?_⟩⟩
  · have hd0 : d ≠ 0 := by
      intro hd0
      rw [hd0] at hy
      refine hy0 (hy.trans ?_)
      split <;> rfl
    rw [quotient, if_neg hd0] at hq
    rw [hq.eq_emod, hx, hy, tdiv_of_signs]
  · rw [hr.eq_emod, ← tmod_def, hx, hy, tmod_of_signs]
  · have hp0 : p = false := by rw [hp, eval_fill_eq, decide_eq_false (not_lt.2 hx0)]
    have hval := hq.eq_emod
    rw [hp0, hn0 hy0, quotient, if_pos (hzero hy0)] at hval
    have hcast : ((2 ^ a.length - 1 : ℕ) : ℤ) = 2 ^ a.length - 1 := by
      rw [cast_sub (Nat.one_le_two_pow)]
      rfl
    simp only [Bool.xor_false, false_eq_true, if_false] at hval
    rw [emod_eq_of_lt (natCast_nonneg _) (by rw [hcast]; linarith)] at hval
    exact_mod_cast hval
  · have hp0 : p = true := by rw [hp, eval_fill_eq, decide_eq_true hx0]
    have hval := hq.eq_emod
    rw [hp0, hn0 hy0, quotient, if_pos (hzero hy0)] at hval
    have hcast : -((2 ^ a.length - 1 : ℕ) : ℤ) = 1 + 2 ^ a.length * (-1) := by
      rw [cast_sub (Nat.one_le_two_pow)]
      push_cast
      ring
    simp only [Bool.xor_false, if_true] at hval
    rw [hcast, add_mul_emod_self_left, emod_eq_of_lt (by norm_num) (by linarith)] at hval
    exact_mod_cast hval
  · have hval := hr.eq_emod
    rw [hzero hy0, mod_zero, ← hx, ← value_eq_emod] at hval
    exact_mod_cast hval

/-- The least number by minus one, and by zero. -/
theorem buildDiv_value_min : (1 ≤ [false, false, true].length ∧
    [true, true, true].length = [false, false, true].length) ∧
    (boolAlgebra.intValue () true [false, false, true] = -4 ∧
      boolAlgebra.intValue () true [true, true, true] = -1 ∧
      boolAlgebra.intValue () true [false, false, false] = 0) ∧
    (boolAlgebra.value () (boolAlgebra.buildDiv .brent 1 [false, false, true] [true,
      true, true] true true) : ℤ) =
      Int.tdiv (-4) (-1) % 2 ^ 3 ∧
    boolAlgebra.value ()
    (boolAlgebra.buildDiv .rca 1 [false, false, true] [false, false, false] true true) = 1 := by
  have hx : boolAlgebra.intValue () true [false, false, true] = -4 := by decide
  have hy : boolAlgebra.intValue () true [true, true, true] = -1 := by decide
  have hz : boolAlgebra.intValue () true [false, false, false] = 0 := by decide
  have hmin := (buildDiv_value boolAlgebra .brent 1 [false, false, true] [true, true, true]
    true true (by decide) rfl
    ()).2.2.1 (by rw [hy]; decide)
  have hzero := (buildDiv_value boolAlgebra .rca 1 [false, false, true] [false, false, false]
    true true (by decide) rfl
    ()).2.2.2 hz
  refine ⟨⟨by decide, rfl⟩, ⟨hx, hy, hz⟩, ?_, hzero.2.1 (by rw [hx]; decide)⟩
  rw [hmin.1]
  rfl

end LiveHD.Synth
