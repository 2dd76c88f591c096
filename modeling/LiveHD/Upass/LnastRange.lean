import LiveHD.Lib.IntBits
import LiveHD.Lib.Ranges

/-!
# The value ranges of the bitwidth pass

A range is a pair of `int64` bounds or unbounded.  Machine arithmetic is partial here: a computation
that leaves its integer type has no value, so a transfer function that returns has not overflowed.
-/

namespace LiveHD.Upass

open Bool hiding not_or
open Int hiding cast_pow
open Set Option IntBits

/-! ## Machine integers -/

/-- The values of a signed integer type of `w` bits. -/
def Fits (w : ℕ) (z : ℤ) : Prop := -2 ^ (w - 1) ≤ z ∧ z ≤ 2 ^ (w - 1) - 1

instance (w : ℕ) (z : ℤ) : Decidable (Fits w z) := inferInstanceAs (Decidable (_ ∧ _))

/-- The least `int64`. -/
def kMin : ℤ := -2 ^ 63

/-- The greatest `int64`. -/
def kMax : ℤ := 2 ^ 63 - 1

/-- A machine result: none when the computation overflows. -/
def fit (w : ℕ) (z : ℤ) : Option ℤ := if Fits w z then some z else none

def i64 (z : ℤ) : Option ℤ := fit 64 z

def i128 (z : ℤ) : Option ℤ := fit 128 z

/-- `a / b` on `int64`, with no value for a zero divisor. -/
def idiv (a b : ℤ) : Option ℤ := if b = 0 then none else i64 (a.tdiv b)

/-- `a % b` on `int64`; it is undefined where the quotient is. -/
def imod (a b : ℤ) : Option ℤ := (idiv a b).map fun _ => a.tmod b

/-! ## The lattice -/

/-- `Lnast_range` -/
structure LnastRange where
  min : ℤ := 0
  max : ℤ := 0
  unbounded : Bool := true
  deriving DecidableEq

namespace LnastRange

def makeUnbounded : LnastRange := { unbounded := true }

def constant (v : ℤ) : LnastRange := { min := v, max := v, unbounded := false }

def bounded (lo hi : ℤ) : LnastRange := { min := lo, max := hi, unbounded := false }

def isConstant (a : LnastRange) : Bool := !a.unbounded && a.min == a.max

def join (a b : LnastRange) : Option LnastRange :=
  if a.unbounded || b.unbounded then some makeUnbounded
  else some (bounded (Min.min a.min b.min) (Max.max a.max b.max))

def meet (a b : LnastRange) : Option LnastRange :=
  if a.unbounded then some b
  else if b.unbounded then some a
  else
    let lo := Max.max a.min b.min
    let hi := Min.min a.max b.max
    if lo > hi then some makeUnbounded
    else some (bounded lo hi)

/-! ### Bitwise -/

/-- The loop of `sbits`, from `k` on. -/
def sbitsFrom (v : ℤ) (k : ℕ) : Option ℕ :=
  if k < 63 then do
    let p ← i64 (2 ^ (k - 1))
    let lo ← i64 (-p)
    let hi ← i64 (p - 1)
    if v < lo ∨ v > hi then sbitsFrom v (k + 1) else some k
  else some k
termination_by 63 - k

def sbits (v : ℤ) : Option ℕ := sbitsFrom v 1

/-- Results of two values of `k` signed bits have `k` signed bits. -/
def signedCover (a b : LnastRange) : Option LnastRange :=
  if a.unbounded || b.unbounded then some makeUnbounded
  else do
    let k0 ← sbits a.min
    let k1 ← sbits a.max
    let k2 ← sbits b.min
    let k3 ← sbits b.max
    let k := Max.max (Max.max k0 k1) (Max.max k2 k3)
    if k ≥ 63 then some makeUnbounded
    else do
      let p ← i64 (2 ^ (k - 1))
      let lo ← i64 (-p)
      let hi ← i64 (p - 1)
      return bounded lo hi

/-- One step `u |= u >> m` on `uint64`. -/
def smear (u m : ℕ) : ℕ := u ||| u >>> m

/-- The smallest mask of ones over `v`, computed on `uint64` and read back as `int64`. -/
def onesCover (v : ℤ) : ℤ :=
  let u := (v % 2 ^ 64).toNat
  let u := smear u 1
  let u := smear u 2
  let u := smear u 4
  let u := smear u 8
  let u := smear u 16
  let u := smear u 32
  (u : ℤ).bmod (2 ^ 64)

def band (a b : LnastRange) : Option LnastRange :=
  if !a.unbounded && !b.unbounded && a.isConstant && b.isConstant then
    some (constant (Int.land a.min b.min))
  else
    let aNonneg := !a.unbounded && decide (a.min ≥ 0)
    let bNonneg := !b.unbounded && decide (b.min ≥ 0)
    if aNonneg && bNonneg then some (bounded 0 (Min.min a.max b.max))
    else if aNonneg || bNonneg then some (bounded 0 (if aNonneg then a.max else b.max))
    else signedCover a b

def bor (a b : LnastRange) : Option LnastRange :=
  if !a.unbounded && !b.unbounded && a.isConstant && b.isConstant then
    some (constant (Int.lor a.min b.min))
  else if a.unbounded || b.unbounded then some makeUnbounded
  else if a.min < 0 ∨ b.min < 0 then signedCover a b
  else some (bounded (Max.max a.min b.min) (onesCover (Max.max a.max b.max)))

def bxor (a b : LnastRange) : Option LnastRange :=
  if !a.unbounded && !b.unbounded && a.isConstant && b.isConstant then
    some (constant (Int.xor a.min b.min))
  else if a.unbounded || b.unbounded then some makeUnbounded
  else if a.min < 0 ∨ b.min < 0 then signedCover a b
  else some (bounded 0 (onesCover (Max.max a.max b.max)))

/-- The endpoints are negated with no test for the least `int64`. -/
def bnot (a : LnastRange) : Option LnastRange :=
  if a.unbounded then some makeUnbounded
  else do
    let nmax ← i64 (-a.max)
    let lo ← i64 (nmax - 1)
    let nmin ← i64 (-a.min)
    let hi ← i64 (nmin - 1)
    return bounded lo hi

/-- The complement of the low `bits` bits. -/
def bnotBits (a : LnastRange) (bits : ℤ) : Option LnastRange :=
  if bits ≤ 0 ∨ bits ≥ 63 then some makeUnbounded
  else do
    let p ← i64 (2 ^ bits.toNat)
    let ones ← i64 (p - 1)
    if !a.unbounded && decide (a.min ≥ 0) && decide (a.max ≤ ones) then do
      let lo ← i64 (ones - a.max)
      let hi ← i64 (ones - a.min)
      return bounded lo hi
    else return bounded 0 ones

/-! ### Arithmetic -/

/-- The range of wide endpoints, unbounded where one leaves `int64`. -/
def narrow (lo hi : ℤ) : LnastRange :=
  if lo < kMin ∨ hi > kMax then makeUnbounded else bounded lo hi

/-- `add_overflow`, `sub_overflow`: a wide result and whether it fits `int64`. -/
def narrowed (r : ℤ) : Option ℤ := if r < kMin ∨ r > kMax then none else some r

def add (a b : LnastRange) : Option LnastRange :=
  if a.unbounded || b.unbounded then some makeUnbounded
  else do
    let lo ← i128 (a.min + b.min)
    let hi ← i128 (a.max + b.max)
    match narrowed lo, narrowed hi with
    | some lo, some hi => return bounded lo hi
    | _, _ => return makeUnbounded

def sub (a b : LnastRange) : Option LnastRange :=
  if a.unbounded || b.unbounded then some makeUnbounded
  else do
    let lo ← i128 (a.min - b.max)
    let hi ← i128 (a.max - b.min)
    match narrowed lo, narrowed hi with
    | some lo, some hi => return bounded lo hi
    | _, _ => return makeUnbounded

def mul (a b : LnastRange) : Option LnastRange :=
  if a.unbounded || b.unbounded then some makeUnbounded
  else do
    let c0 ← i128 (a.min * b.min)
    let c1 ← i128 (a.min * b.max)
    let c2 ← i128 (a.max * b.min)
    let c3 ← i128 (a.max * b.max)
    return narrow (Min.min (Min.min c0 c1) (Min.min c2 c3))
      (Max.max (Max.max c0 c1) (Max.max c2 c3))

def neg (a : LnastRange) : Option LnastRange :=
  if a.unbounded then some makeUnbounded
  else if a.min = kMin then some makeUnbounded
  else do
    let lo ← i64 (-a.max)
    let hi ← i64 (-a.min)
    return bounded lo hi

/-- `v < 0 ? -v : v` -/
def absI64 (v : ℤ) : Option ℤ := if v < 0 then i64 (-v) else some v

/-- The largest magnitude of an endpoint; the inner option is the returned flag. -/
def magnitude (a : LnastRange) : Option (Option ℤ) :=
  if a.min = kMin ∨ a.max = kMin then some none
  else do
    let x ← absI64 a.min
    let y ← absI64 a.max
    return some (Max.max x y)

def div (a b : LnastRange) : Option LnastRange :=
  if a.unbounded then some makeUnbounded
  else if !b.unbounded && a.isConstant && b.isConstant && decide (b.min ≠ 0)
      && !(decide (a.min = kMin) && decide (b.min = -1)) then
    (idiv a.min b.min).map constant
  else if !b.unbounded && (decide (b.min > 0) || decide (b.max < 0)) then
    if a.min = kMin ∧ b.min ≤ -1 ∧ b.max ≥ -1 then some makeUnbounded
    else do
      let c0 ← idiv a.min b.min
      let c1 ← idiv a.min b.max
      let c2 ← idiv a.max b.min
      let c3 ← idiv a.max b.max
      return bounded (Min.min (Min.min c0 c1) (Min.min c2 c3))
        (Max.max (Max.max c0 c1) (Max.max c2 c3))
  else do
    match ← a.magnitude with
    | none => return makeUnbounded
    | some m =>
      if decide (a.min ≥ 0) && !b.unbounded && decide (b.min ≥ 0) then return bounded 0 a.max
      else do
        let lo ← i64 (-m)
        return bounded lo m

/-- The bound on the remainder's magnitude from the divisor; the inner option as in `magnitude`. -/
def modBound (b : LnastRange) (ma : ℤ) : Option (Option ℤ) :=
  if b.unbounded then some (some ma)
  else do
    match ← b.magnitude with
    | none => return none
    | some db =>
      if db = 0 then return none
      else do
        let d ← i64 (db - 1)
        return some (Min.min ma d)

def mod (a b : LnastRange) : Option LnastRange :=
  if a.unbounded then some makeUnbounded
  else if !b.unbounded && a.isConstant && b.isConstant && decide (b.min ≠ 0)
      && !(decide (a.min = kMin) && decide (b.min = -1)) then
    (imod a.min b.min).map constant
  else do
    match ← a.magnitude with
    | none => return makeUnbounded
    | some ma =>
      match ← b.modBound ma with
      | none => return makeUnbounded
      | some bound =>
        if a.min ≥ 0 then return bounded 0 bound
        else do
          let nb ← i64 (-bound)
          if a.max < 0 then return bounded nb 0
          else return bounded nb bound

/-- Both endpoints at both extreme shifts, in 128 bits. -/
def shl (a amt : LnastRange) : Option LnastRange :=
  if a.unbounded || amt.unbounded || decide (amt.min < 0) then some makeUnbounded
  else if amt.min > 62 ∨ amt.max > 62 then some makeUnbounded
  else do
    let c0 ← i128 (a.min * 2 ^ amt.min.toNat)
    let c1 ← i128 (a.min * 2 ^ amt.max.toNat)
    let c2 ← i128 (a.max * 2 ^ amt.min.toNat)
    let c3 ← i128 (a.max * 2 ^ amt.max.toNat)
    return narrow (Min.min (Min.min c0 c1) (Min.min c2 c3))
      (Max.max (Max.max c0 c1) (Max.max c2 c3))

/-- The arithmetic shift keeps the sign, so it is a floor division; shifts are clipped at 63. -/
def sra (a amt : LnastRange) : Option LnastRange :=
  if a.unbounded || amt.unbounded || decide (amt.min < 0) then some makeUnbounded
  else
    let sLo := if amt.min > 63 then 63 else amt.min
    let sHi := if amt.max > 63 then 63 else amt.max
    let c0 := a.min / 2 ^ sLo.toNat
    let c1 := a.min / 2 ^ sHi.toNat
    let c2 := a.max / 2 ^ sLo.toNat
    let c3 := a.max / 2 ^ sHi.toNat
    some (bounded (Min.min (Min.min c0 c1) (Min.min c2 c3))
      (Max.max (Max.max c0 c1) (Max.max c2 c3)))

/-! ## What a range says -/

/-- A known range has `int64` bounds in order. -/
def Valid (a : LnastRange) : Prop := a.unbounded = false → Fits 64 a.min ∧
    Fits 64 a.max ∧ a.min ≤ a.max

/-- An unbounded range holds every integer. -/
def Mem (a : LnastRange) (x : ℤ) : Prop := a.unbounded = false → x ∈ Icc a.min a.max

/-- A computation that returns a valid range with every value of `P`. -/
def Sound (r : Option LnastRange) (P : ℤ → Prop) : Prop := ∃ R, r = some R ∧
    R.Valid ∧ ∀ z, P z → R.Mem z

/-! ### Machine results in range -/

variable {z : ℤ}

lemma fits_64 : Fits 64 z ↔ kMin ≤ z ∧ z ≤ kMax := .rfl

lemma i64_eq (hlo : kMin ≤ z) (hhi : z ≤ kMax) : i64 z = some z := if_pos ⟨hlo, hhi⟩

lemma i128_eq (h : |z| ≤ 2 ^ 126) : i128 z = some z := by
  refine if_pos ?_
  rw [abs_le] at h
  constructor <;> norm_num at h ⊢ <;> omega

lemma abs_le_of_fits (h : Fits 64 z) : |z| ≤ 2 ^ 63 := abs_le.2 ⟨h.1, h.2.trans (by norm_num)⟩

variable {x : ℤ}

section

variable {a b : LnastRange} {P : ℤ → Prop} {lo hi : ℤ}

lemma Sound.makeUnbounded : Sound (some makeUnbounded) P := ⟨_, rfl, nofun, fun _ _ => nofun⟩

lemma Sound.bounded (hlo : kMin ≤ lo) (hhi : hi ≤ kMax) (hle : lo ≤ hi)
    (h : ∀ z, P z → lo ≤ z ∧ z ≤ hi) :
    Sound (some (bounded lo hi)) P :=
  ⟨_, rfl, fun _ => ⟨⟨hlo, hle.trans hhi⟩, ⟨hlo.trans hle, hhi⟩, hle⟩, fun z hz _ => h z hz⟩

lemma Sound.constant {v : ℤ} (hv : Fits 64 v) (h : ∀ z, P z → z = v) :
    Sound (some (constant v)) P :=
  Sound.bounded hv.1 hv.2 le_rfl fun z hz => ⟨(h z hz).ge, (h z hz).le⟩

lemma Sound.narrow (hle : lo ≤ hi) (h : ∀ z, P z → lo ≤ z ∧ z ≤ hi) :
    Sound (some (narrow lo hi)) P := by
  rw [LnastRange.narrow]
  split
  · exact .makeUnbounded
  · exact .bounded (by omega) (by omega) hle h

/-- The bounds of a known range. -/
lemma Valid.bounds (ha : a.Valid) (hk : a.unbounded = false) :
    kMin ≤ a.min ∧ a.min ≤ a.max ∧ a.max ≤ kMax := by
  obtain ⟨hmin, hmax, hle⟩ := ha hk
  exact ⟨hmin.1, hle, hmax.2⟩

lemma Valid.fits (ha : a.Valid) (hk : a.unbounded = false) (hx : a.Mem x) : Fits 64 x := by
  obtain ⟨hmin, -, hmax⟩ := ha.bounds hk
  exact ⟨hmin.trans (hx hk).1, (hx hk).2.trans hmax⟩

lemma known_of_not (h : ¬(a.unbounded || b.unbounded) = true) :
    a.unbounded = false ∧ b.unbounded = false := by
  rwa [Bool.or_eq_true, not_or, Bool.not_eq_true, Bool.not_eq_true] at h

lemma isConstant_iff : a.isConstant = true ↔ a.unbounded = false ∧ a.min = a.max := by
  simp [isConstant]

/-- The only value of a constant range. -/
lemma Mem.eq_min (hx : a.Mem x) (h : a.isConstant = true) : x = a.min := by
  obtain ⟨hk, heq⟩ := isConstant_iff.1 h
  obtain ⟨hlo, hhi⟩ := hx hk
  exact le_antisymm (hhi.trans heq.ge) hlo

end

/-! ### Lattice operations -/

section

variable {a b : LnastRange} (ha : a.Valid) (hb : b.Valid)
include ha hb

lemma join_sound : Sound (a.join b) fun z => ∃ x y, a.Mem x ∧ b.Mem y ∧ (z = x ∨ z = y) := by
  rw [join]
  split
  · exact .makeUnbounded
  · next hk =>
    obtain ⟨hka, hkb⟩ := known_of_not hk
    obtain ⟨ha0, ha1, ha2⟩ := ha.bounds hka
    obtain ⟨hb0, hb1, hb2⟩ := hb.bounds hkb
    refine .bounded (le_min ha0 hb0) (max_le ha2 hb2) (min_le_of_left_le (le_max_of_le_left ha1)) ?_
    rintro z ⟨x, y, hx, hy, rfl | rfl⟩
    · exact ⟨min_le_of_left_le (hx hka).1, le_max_of_le_left (hx hka).2⟩
    · exact ⟨min_le_of_right_le (hy hkb).1, le_max_of_le_right (hy hkb).2⟩

lemma meet_sound : Sound (a.meet b) fun z => ∃ x y, a.Mem x ∧ b.Mem y ∧ z = x ∧ x = y := by
  rw [meet]
  split
  · exact ⟨b, rfl, hb, by rintro z ⟨x, y, -, hy, rfl, rfl⟩; exact hy⟩
  split
  · exact ⟨a, rfl, ha, by rintro z ⟨x, y, hx, -, rfl, rfl⟩; exact hx⟩
  next hka hkb =>
  rw [Bool.not_eq_true] at hka hkb
  obtain ⟨ha0, ha1, ha2⟩ := ha.bounds hka
  dsimp only
  split
  · exact .makeUnbounded
  · next hle =>
    refine .bounded (le_max_of_le_left ha0) (min_le_of_left_le ha2) (not_lt.1 hle) ?_
    rintro z ⟨x, y, hx, hy, rfl, rfl⟩
    exact ⟨max_le (hx hka).1 (hy hkb).1, le_min (hx hka).2 (hy hkb).2⟩

end

/-! ### Bitwise operations -/

variable {n : ℕ}

lemma kMin_le_neg_two_pow (h : n ≤ 63) : kMin ≤ -2 ^ n :=
  neg_le_neg (pow_le_pow_right₀ one_le_two h)

lemma two_pow_sub_one_le_kMax (h : n ≤ 63) : (2 ^ n - 1 : ℤ) ≤ kMax :=
  sub_le_sub_right (pow_le_pow_right₀ one_le_two h) 1

lemma i64_two_pow (h : n ≤ 62) : i64 (2 ^ n) = some (2 ^ n) := by
  have hpow : (2 : ℤ) ^ n ≤ 2 ^ 62 := pow_le_pow_right₀ one_le_two h
  have hpos := IntBits.two_pow_pos n
  refine i64_eq ?_ (hpow.trans (by decide))
  exact le_trans (by decide) hpos.le

lemma i64_neg_two_pow (h : n ≤ 63) : i64 (-2 ^ n) = some (-2 ^ n) := by
  have hpos := IntBits.two_pow_pos n
  exact i64_eq (kMin_le_neg_two_pow h) ((neg_nonpos_of_nonneg hpos.le).trans (by decide))

lemma i64_two_pow_sub_one (h : n ≤ 63) : i64 (2 ^ n - 1) = some (2 ^ n - 1) := by
  have hpos := IntBits.two_pow_pos n
  exact i64_eq (le_trans (by decide) (sub_nonneg_of_le hpos)) (two_pow_sub_one_le_kMax h)

lemma sbitsFrom_eq (v : ℤ) {k : ℕ} (h : k < 63) :
    sbitsFrom v k = if v < -2 ^ (k - 1) ∨ v > 2 ^ (k - 1) - 1 then sbitsFrom v
    (k + 1) else some k := by
  rw [sbitsFrom, if_pos h, i64_two_pow (by omega)]
  simp only [bind_eq_bind, bind_some]
  rw [i64_neg_two_pow (by omega), i64_two_pow_sub_one (by omega)]
  rfl

/-- The loop stops at a width that holds the value, or at 63. -/
lemma sbitsFrom_spec (v : ℤ) {k : ℕ} (h0 : 1 ≤ k) (h : k ≤ 63) :
    ∃ n, sbitsFrom v k = some n ∧ 1 ≤ n ∧
    (n < 63 → -2 ^ (n - 1) ≤ v ∧ v < 2 ^ (n - 1)) := by
  induction h using Nat.decreasingInduction with
  | self =>
    refine ⟨63, ?_, h0, fun h => absurd h (lt_irrefl _)⟩
    simp [sbitsFrom]
  | of_succ k hk ih =>
    rw [sbitsFrom_eq v hk]
    split
    · exact ih (Nat.le_add_left 1 k)
    · next hv =>
      rw [not_or] at hv
      exact ⟨k, rfl, h0, fun _ => ⟨not_lt.1 hv.1, by omega⟩⟩

lemma sbits_spec (v : ℤ) : ∃ n, sbits v = some n ∧ 1 ≤ n ∧
    (n < 63 → -2 ^ (n - 1) ≤ v ∧ v < 2 ^ (n - 1)) :=
  sbitsFrom_spec v le_rfl (by norm_num)

section

variable {a b : LnastRange} {op : ℤ → ℤ → ℤ} {f : Bool → Bool → Bool}
  (hop : ∀ x y i, (op x y).testBit i = f (x.testBit i) (y.testBit i))
include hop

lemma signedCover_sound : Sound (signedCover a b) fun z =>
    ∃ x y, a.Mem x ∧ b.Mem y ∧ z = op x y := by
  rw [signedCover]
  split
  · exact .makeUnbounded
  next hk =>
  obtain ⟨hka, hkb⟩ := known_of_not hk
  obtain ⟨k0, h0, hpos, hk0⟩ := sbits_spec a.min
  obtain ⟨k1, h1, -, hk1⟩ := sbits_spec a.max
  obtain ⟨k2, h2, -, hk2⟩ := sbits_spec b.min
  obtain ⟨k3, h3, -, hk3⟩ := sbits_spec b.max
  rw [h0, h1, h2, h3]
  simp only [bind_eq_bind, bind_some]
  generalize hm : Max.max (Max.max k0 k1) (Max.max k2 k3) = k
  split
  · exact .makeUnbounded
  next hlt =>
  rw [i64_two_pow (by omega), bind_some, i64_neg_two_pow (by omega), i64_two_pow_sub_one (by omega)]
  have hpow : ∀ {n}, n ≤ k → (2 : ℤ) ^ (n - 1) ≤ 2 ^ (k - 1) := fun h =>
    pow_le_pow_right₀ one_le_two (Nat.sub_le_sub_right h 1)
  have hp0 := hpow (n := k0) (by omega)
  have hp1 := hpow (n := k1) (by omega)
  have hp2 := hpow (n := k2) (by omega)
  have hp3 := hpow (n := k3) (by omega)
  have hb0 := hk0 (by omega)
  have hb1 := hk1 (by omega)
  have hb2 := hk2 (by omega)
  have hb3 := hk3 (by omega)
  refine .bounded (kMin_le_neg_two_pow (by omega))
    (two_pow_sub_one_le_kMax (by omega)) (by linarith) ?_
  rintro z ⟨x, y, hx, hy, rfl⟩
  obtain ⟨hx0, hx1⟩ := hx hka
  obtain ⟨hy0, hy1⟩ := hy hkb
  have := IntBits.bitwise_bounds (hop x y) (n := k - 1) ⟨by linarith, by linarith⟩
    ⟨by linarith, by linarith⟩
  exact ⟨this.1, Int.le_sub_one_of_lt this.2⟩

/-- Single points fold exactly. -/
lemma constant_sound (ha : a.Valid) (hb : b.Valid) (hca : a.isConstant = true)
    (hcb : b.isConstant = true) :
    Sound (some (constant (op a.min b.min))) fun z => ∃ x y, a.Mem x ∧ b.Mem y ∧ z = op x y := by
  obtain ⟨ha0, -, -⟩ := ha (isConstant_iff.1 hca).1
  obtain ⟨hb0, -, -⟩ := hb (isConstant_iff.1 hcb).1
  have hfi : ∀ {v : ℤ}, Fits 64 v → -2 ^ 63 ≤ v ∧ v < 2 ^ 63 := fun h =>
    ⟨h.1, Int.lt_of_le_sub_one h.2⟩
  have hbo := IntBits.bitwise_bounds (hop a.min b.min) (hfi ha0) (hfi hb0)
  refine Sound.constant ⟨hbo.1, le_sub_one_of_lt hbo.2⟩ ?_
  rintro z ⟨x, y, hx, hy, rfl⟩
  rw [hx.eq_min hca, hy.eq_min hcb]

end

lemma testBit_smear (u m i : ℕ) : (smear u m).testBit i = (u.testBit i || u.testBit (m + i)) := by
  simp [smear, Nat.testBit_shiftRight]

/-- A step doubles the run of higher bits that a bit stands for. -/
lemma smear_spec {u w m : ℕ} (h : ∀ i, w.testBit i = true ↔
    ∃ d < m, u.testBit (i + d) = true) (i : ℕ) :
    (smear w m).testBit i = true ↔ ∃ d < 2 * m, u.testBit (i + d) = true := by
  rw [testBit_smear, Bool.or_eq_true, h, h]
  constructor
  · rintro (⟨d, hd, hbit⟩ | ⟨d, hd, hbit⟩)
    · exact ⟨d, by omega, hbit⟩
    · exact ⟨m + d, by omega, by rwa [← add_assoc, add_comm i m]⟩
  · rintro ⟨d, hd, hbit⟩
    rcases lt_or_ge d m with hlt | hge
    · exact .inl ⟨d, hlt, hbit⟩
    · refine .inr ⟨d - m, by omega, ?_⟩
      rwa [show m + i + (d - m) = i + d by omega]

/-- After the six steps a bit stands for the 64 bits from it on. -/
lemma smears_spec (u i : ℕ) :
    (smear (smear (smear (smear (smear (smear u 1) 2) 4) 8) 16) 32).testBit i = true ↔
      ∃ d < 64, u.testBit (i + d) = true := by
  have h0 : ∀ i, u.testBit i = true ↔ ∃ d < 1, u.testBit (i + d) = true := fun i =>
    ⟨fun h => ⟨0, one_pos, h⟩, fun ⟨d, hd, h⟩ => by rwa [Nat.lt_one_iff.1 hd] at h⟩
  have h1 := smear_spec h0
  have h2 := smear_spec h1
  have h3 := smear_spec h2
  have h4 := smear_spec h3
  have h5 := smear_spec h4
  exact smear_spec h5 i

/-- Below 64 bits the six steps fill the bits under the top one. -/
lemma smears_eq {v : ℕ} (hsz : v.size ≤ 63) :
    smear (smear (smear (smear (smear (smear v 1) 2) 4) 8) 16) 32 = 2 ^ v.size - 1 := by
  refine Nat.eq_of_testBit_eq fun i => ?_
  rw [Nat.testBit_two_pow_sub_one, Bool.eq_iff_iff, smears_spec, decide_eq_true_iff]
  constructor
  · rintro ⟨d, -, hbit⟩
    by_contra hle
    have hlow : v < 2 ^ (i + d) := Nat.size_le.1 (by omega)
    rw [Nat.testBit_lt_two_pow hlow] at hbit
    cases hbit
  · intro hi
    refine ⟨v.size - 1 - i, by omega, ?_⟩
    rw [show i + (v.size - 1 - i) = v.size - 1 by omega]
    by_contra hbit
    rw [not_eq_true] at hbit
    -- a clear top bit would make the size smaller
    have hlow : v < 2 ^ (v.size - 1) := by
      refine Nat.lt_pow_two_of_testBit v fun j hj => ?_
      rcases eq_or_lt_of_le hj with rfl | hj
      · exact hbit
      · exact Nat.testBit_lt_two_pow (Nat.size_le.1 (by omega))
    have := Nat.size_le.2 hlow
    omega

lemma onesCover_natCast {m : ℕ} (h : m < 2 ^ 64) :
    onesCover m = (smear (smear (smear (smear (smear (smear m 1) 2) 4) 8) 16) 32 : ℤ).bmod
    (2 ^ 64) := by
  have hmod : ((m : ℤ) % 2 ^ 64).toNat = m := by
    rw [Int.emod_eq_of_lt (Int.natCast_nonneg m) (by exact_mod_cast h), toNat_natCast]
  unfold onesCover
  rw [hmod]

/-- The cover of a nonnegative value is the mask up to its top bit. -/
lemma onesCover_eq {v : ℤ} (h0 : 0 ≤ v) (h : v ≤ kMax) :
    ∃ n ≤ 63, onesCover v = 2 ^ n - 1 ∧ v < 2 ^ n := by
  obtain ⟨m, rfl⟩ := Int.eq_ofNat_of_zero_le h0
  have hlt := Int.lt_of_le_sub_one h
  have hlt' : m < 2 ^ 64 := by
    have := hlt.trans (pow_lt_pow_right₀ (one_lt_two (α := ℤ)) (Nat.lt_succ_self 63))
    exact_mod_cast this
  have hsz := Nat.size_le.2 (by exact_mod_cast hlt)
  have hpow : (2 : ℤ) ^ m.size ≤ 2 ^ 63 := pow_le_pow_right₀ one_le_two hsz
  have hca : ((2 ^ m.size - 1 : ℕ) : ℤ) = 2 ^ m.size - 1 := by
    rw [Nat.cast_sub Nat.one_le_two_pow, Nat.cast_pow, Nat.cast_ofNat, Nat.cast_one]
  refine ⟨m.size, hsz, ?_, by exact_mod_cast Nat.lt_size_self m⟩
  rw [onesCover_natCast hlt', smears_eq hsz, hca]
  refine bmod_eq_of_le ?_ ?_
  · omega
  · omega

section

variable {a b : LnastRange} {op : ℤ → ℤ → ℤ} {f : Bool → Bool → Bool}
  (hop : ∀ x y i, (op x y).testBit i = f (x.testBit i) (y.testBit i))
  (hf : f false false = false) (ha : a.Valid) (hb : b.Valid)
include hop hf ha hb

/-- Under the mask of the greater maximum, from any lower bound of the results. -/
lemma onesCover_sound (hka : a.unbounded = false) (hkb : b.unbounded = false) (ha0 : 0 ≤ a.min)
    (hb0 : 0 ≤ b.min) {lo : ℤ}
    (hlo0 : 0 ≤ lo) (hlo1 : lo ≤ Max.max a.max b.max)
    (hlo : ∀ x y, a.Mem x → b.Mem y → lo ≤ op x y) :
    Sound (some (bounded lo (onesCover (Max.max a.max b.max)))) fun z =>
    ∃ x y, a.Mem x ∧ b.Mem y ∧ z = op x y := by
  obtain ⟨-, ha1, ha2⟩ := ha.bounds hka
  obtain ⟨-, hb1, hb2⟩ := hb.bounds hkb
  obtain ⟨n, hn, hco, hlt⟩ := onesCover_eq (le_max_of_le_left (ha0.trans ha1)) (max_le ha2 hb2)
  rw [hco]
  refine .bounded (le_trans (by decide) hlo0) (two_pow_sub_one_le_kMax hn)
    (le_sub_one_of_lt (hlo1.trans_lt hlt)) ?_
  rintro z ⟨x, y, hx, hy, rfl⟩
  have hx' : 0 ≤ x ∧ x < 2 ^ n :=
    ⟨ha0.trans (hx hka).1, ((hx hka).2.trans (le_max_left _ _)).trans_lt hlt⟩
  have hy' : 0 ≤ y ∧ y < 2 ^ n :=
    ⟨hb0.trans (hy hkb).1, ((hy hkb).2.trans (le_max_right _ _)).trans_lt hlt⟩
  exact ⟨hlo x y hx hy, le_sub_one_of_lt (bitwise_lt_two_pow (hop x y) hf hx' hy').2⟩

end

section

variable {a b : LnastRange} (ha : a.Valid) (hb : b.Valid)
include ha hb

lemma band_sound : Sound (a.band b) fun z => ∃ x y, a.Mem x ∧ b.Mem y ∧ z = Int.land x y := by
  have hco : ∀ x y : ℤ, Int.land x y = Int.land y x := fun x y => ext fun i => by
    rw [Int.testBit_land, Int.testBit_land, Bool.and_comm]
  have hno : ∀ {c : LnastRange}, (!c.unbounded && decide (c.min ≥ 0)) = true ↔
      c.unbounded = false ∧ 0 ≤ c.min := by
    intro c
    rw [and_eq_true, not_eq_true', decide_eq_true_iff]
  rw [band]
  split
  · next hc =>
    simp only [and_eq_true] at hc
    exact constant_sound testBit_land ha hb hc.1.2 hc.2
  dsimp only
  split
  · next h =>
    rw [and_eq_true, hno, hno] at h
    obtain ⟨⟨hka, ha0⟩, hkb, hb0⟩ := h
    obtain ⟨-, ha1, ha2⟩ := ha.bounds hka
    obtain ⟨-, hb1, -⟩ := hb.bounds hkb
    refine .bounded (by decide) (min_le_of_left_le ha2) (le_min (ha0.trans ha1) (hb0.trans hb1)) ?_
    rintro z ⟨x, y, hx, hy, rfl⟩
    obtain ⟨h0, hle⟩ := land_bounds (ha0.trans (hx hka).1) y
    have hle' := (land_bounds (hb0.trans (hy hkb).1) x).2
    rw [hco] at hle'
    exact ⟨h0, le_min (hle.trans (hx hka).2) (hle'.trans (hy hkb).2)⟩
  split
  · next h =>
    split
    · next h =>
      obtain ⟨hka, ha0⟩ := hno.1 h
      obtain ⟨-, ha1, ha2⟩ := ha.bounds hka
      refine .bounded (by decide) ha2 (ha0.trans ha1) ?_
      rintro z ⟨x, y, hx, -, rfl⟩
      obtain ⟨h0, hle⟩ := land_bounds (ha0.trans (hx hka).1) y
      exact ⟨h0, hle.trans (hx hka).2⟩
    · next hna =>
      obtain ⟨hkb, hb0⟩ := hno.1 ((or_eq_true _ _ ▸ h).resolve_left hna)
      obtain ⟨-, hb1, hb2⟩ := hb.bounds hkb
      refine .bounded (by decide) hb2 (hb0.trans hb1) ?_
      rintro z ⟨x, y, -, hy, rfl⟩
      obtain ⟨h0, hle⟩ := land_bounds (hb0.trans (hy hkb).1) x
      rw [hco]
      exact ⟨h0, hle.trans (hy hkb).2⟩
  · exact signedCover_sound testBit_land

lemma bor_sound : Sound (a.bor b) fun z => ∃ x y, a.Mem x ∧ b.Mem y ∧ z = Int.lor x y := by
  have hco : ∀ x y : ℤ, Int.lor x y = Int.lor y x := fun x y => ext fun i => by
    rw [Int.testBit_lor, Int.testBit_lor, Bool.or_comm]
  rw [bor]
  split
  · next hc =>
    simp only [and_eq_true] at hc
    exact constant_sound Int.testBit_lor ha hb hc.1.2 hc.2
  split
  · exact .makeUnbounded
  next hk =>
  obtain ⟨hka, hkb⟩ := known_of_not hk
  split
  · exact signedCover_sound testBit_lor
  next hneg =>
  rw [not_or, not_lt, not_lt] at hneg
  obtain ⟨ha0, hb0⟩ := hneg
  refine onesCover_sound testBit_lor rfl ha hb hka hkb ha0 hb0 (le_max_of_le_left ha0)
    (max_le_max (ha.bounds hka).2.1 (hb.bounds hkb).2.1) fun x y hx hy => ?_
  have hx0 := ha0.trans (hx hka).1
  have hy0 := hb0.trans (hy hkb).1
  refine max_le ((hx hka).1.trans (le_lor_left hx0 hy0)) ((hy hkb).1.trans ?_)
  rw [hco]
  exact le_lor_left hy0 hx0

lemma bxor_sound : Sound (a.bxor b) fun z => ∃ x y, a.Mem x ∧ b.Mem y ∧ z = Int.xor x y := by
  rw [bxor]
  split
  · next hc =>
    simp only [Bool.and_eq_true] at hc
    exact constant_sound Int.testBit_lxor ha hb hc.1.2 hc.2
  split
  · exact .makeUnbounded
  next hk =>
  obtain ⟨hka, hkb⟩ := known_of_not hk
  split
  · exact signedCover_sound Int.testBit_lxor
  next hneg =>
  rw [not_or, not_lt, not_lt] at hneg
  obtain ⟨ha0, hb0⟩ := hneg
  refine onesCover_sound testBit_lxor rfl ha hb hka hkb ha0 hb0 le_rfl
    (le_max_of_le_left (ha0.trans (ha.bounds hka).2.1)) fun x y hx hy => ?_
  have hx0 := ha0.trans (hx hka).1
  have hy0 := hb0.trans (hy hkb).1
  obtain ⟨n, hn⟩ := exists_lt_two_pow (Max.max x y)
  exact (bitwise_lt_two_pow (testBit_lxor x y) rfl ⟨hx0, (le_max_left _ _).trans_lt hn⟩
    ⟨hy0, (le_max_right _ _).trans_lt hn⟩).1

end

/-- The complement has no answer exactly when the least `int64` has to be negated. -/
lemma bnot_sound_iff {a : LnastRange} (ha : a.Valid) :
    Sound a.bnot (fun z => ∃ x, a.Mem x ∧ z = -x - 1) ↔ ¬(a.unbounded = false ∧ a.min = kMin) := by
  rw [bnot]
  split
  · next hk =>
    refine iff_of_true Sound.makeUnbounded ?_
    rintro ⟨hk', -⟩
    rw [hk] at hk'
    cases hk'
  next hk =>
  rw [Bool.not_eq_true] at hk
  obtain ⟨h0, h1, h2⟩ := ha.bounds hk
  constructor
  · rintro ⟨R, hR, -, -⟩ ⟨-, hmin⟩
    simp only [bind_eq_bind, bind_eq_some_iff] at hR
    obtain ⟨nmax, -, lo, -, nmin, hneg, -⟩ := hR
    rw [hmin] at hneg
    cases hneg
  · intro hmin
    have hlt := lt_of_le_of_ne h0 fun h => hmin ⟨hk, h.symm⟩
    have hkk : -kMin = kMax + 1 := by decide
    rw [i64_eq (z := -a.max) (by omega) (by omega)]
    simp only [bind_eq_bind, bind_some]
    rw [i64_eq (z := -a.max - 1) (by omega) (by omega), i64_eq (z := -a.min) (by omega) (by omega)]
    simp only [bind_some]
    rw [i64_eq (z := -a.min - 1) (by omega) (by omega)]
    refine .bounded (by omega) (by omega) (by omega) ?_
    rintro z ⟨x, hx, rfl⟩
    obtain ⟨hx0, hx1⟩ := hx hk
    constructor <;> omega

lemma bnotBits_sound {a : LnastRange} (ha : a.Valid) (bits : ℤ) :
    Sound (a.bnotBits bits) fun z => ∃ x, a.Mem x ∧ z = (-x - 1) % 2 ^ bits.toNat := by
  rw [bnotBits]
  split
  · exact .makeUnbounded
  next hbi =>
  have hpos := IntBits.two_pow_pos bits.toNat
  have hmax := two_pow_sub_one_le_kMax (n := bits.toNat) (by omega)
  have hmin : kMin ≤ 0 := by decide
  rw [i64_two_pow (by omega)]
  simp only [bind_eq_bind, bind_some]
  rw [i64_two_pow_sub_one (by omega)]
  simp only [bind_some]
  generalize (2 : ℤ) ^ bits.toNat = p at *
  split
  · next h =>
    rw [and_eq_true, and_eq_true, not_eq_true', decide_eq_true_iff, decide_eq_true_iff] at h
    obtain ⟨⟨hk, h0⟩, h1⟩ := h
    have hle := (ha.bounds hk).2.1
    rw [i64_eq (z := p - 1 - a.max) (by omega) (by omega)]
    rw [i64_eq (z := p - 1 - a.min) (by omega) (by omega)]
    refine .bounded (by omega) (by omega) (by omega) ?_
    rintro z ⟨x, hx, rfl⟩
    obtain ⟨hx0, hx1⟩ := hx hk
    have hval : (-x - 1) % p = p - 1 - x := by
      rw [← add_emod_right, emod_eq_of_lt (by omega) (by omega)]
      ring
    constructor <;> omega
  · refine .bounded hmin hmax (sub_nonneg_of_le hpos) ?_
    rintro z ⟨x, -, rfl⟩
    exact ⟨Int.emod_nonneg _ hpos.ne', Int.le_sub_one_of_lt (Int.emod_lt_of_pos _ hpos)⟩

/-! ### Sums and products -/

variable {y : ℤ}

lemma i128_add (hx : Fits 64 x) (hy : Fits 64 y) : i128 (x + y) = some (x + y) := by
  refine i128_eq ((abs_add_le x y).trans
    ((add_le_add (abs_le_of_fits hx) (abs_le_of_fits hy)).trans ?_))
  norm_num

lemma i128_sub (hx : Fits 64 x) (hy : Fits 64 y) : i128 (x - y) = some (x - y) := by
  refine i128_eq ((abs_sub x y).trans
    ((add_le_add (abs_le_of_fits hx) (abs_le_of_fits hy)).trans ?_))
  norm_num

lemma i128_mul_of_abs (hx : Fits 64 x) (hy : |y| ≤ 2 ^ 63) : i128 (x * y) = some (x * y) := by
  refine i128_eq ?_
  rw [abs_mul]
  exact mul_le_mul (abs_le_of_fits hx) hy (abs_nonneg y) (by norm_num)

lemma i128_mul (hx : Fits 64 x) (hy : Fits 64 y) : i128 (x * y) = some (x * y) :=
  i128_mul_of_abs hx (abs_le_of_fits hy)

lemma Sound.narrowed {P : ℤ → Prop} {lo hi : ℤ} (hle : lo ≤ hi) (h : ∀ z, P z → lo ≤ z ∧ z ≤ hi) :
    Sound (match narrowed lo, narrowed hi with
      | some lo, some hi => some (LnastRange.bounded lo hi)
      | _, _ => some LnastRange.makeUnbounded) P := by
  rw [LnastRange.narrowed, LnastRange.narrowed]
  split_ifs with hlo hhi
  · exact .makeUnbounded
  · exact .makeUnbounded
  · exact .makeUnbounded
  · exact .bounded (by omega) (by omega) hle h

section

variable {a b : LnastRange} (ha : a.Valid) (hb : b.Valid)
include ha hb

lemma add_sound : Sound (a.add b) fun z => ∃ x y, a.Mem x ∧ b.Mem y ∧ z = x + y := by
  rw [add]
  split
  · exact .makeUnbounded
  next hk =>
  obtain ⟨hka, hkb⟩ := known_of_not hk
  obtain ⟨ha0, ha1, ha2⟩ := ha hka
  obtain ⟨hb0, hb1, hb2⟩ := hb hkb
  rw [i128_add ha0 hb0]
  rw [i128_add ha1 hb1]
  refine .narrowed (add_le_add ha2 hb2) ?_
  rintro z ⟨x, y, hx, hy, rfl⟩
  exact ⟨add_le_add (hx hka).1 (hy hkb).1, add_le_add (hx hka).2 (hy hkb).2⟩

lemma sub_sound : Sound (a.sub b) fun z => ∃ x y, a.Mem x ∧ b.Mem y ∧ z = x - y := by
  rw [sub]
  split
  · exact .makeUnbounded
  next hk =>
  obtain ⟨hka, hkb⟩ := known_of_not hk
  obtain ⟨ha0, ha1, ha2⟩ := ha hka
  obtain ⟨hb0, hb1, hb2⟩ := hb hkb
  rw [i128_sub ha0 hb1]
  rw [i128_sub ha1 hb0]
  refine .narrowed (sub_le_sub ha2 hb2) ?_
  rintro z ⟨x, y, hx, hy, rfl⟩
  exact ⟨sub_le_sub (hx hka).1 (hy hkb).2, sub_le_sub (hx hka).2 (hy hkb).1⟩

lemma mul_sound : Sound (a.mul b) fun z => ∃ x y, a.Mem x ∧ b.Mem y ∧ z = x * y := by
  rw [mul]
  split
  · exact .makeUnbounded
  next hk =>
  obtain ⟨hka, hkb⟩ := known_of_not hk
  obtain ⟨ha0, ha1, -⟩ := ha hka
  obtain ⟨hb0, hb1, -⟩ := hb hkb
  rw [i128_mul ha0 hb0, i128_mul ha0 hb1, i128_mul ha1 hb0, i128_mul ha1 hb1]
  refine .narrow (min_le_of_left_le (min_le_of_left_le (le_max_of_le_left (le_max_left _ _)))) ?_
  rintro z ⟨x, y, hx, hy, rfl⟩
  exact corner_bounds (f := (· * ·)) (fun y _ => oneWayOn_mul_right y _)
    (fun x => oneWayOn_mul x _) (hx hka) (hy hkb)

omit hb in
lemma neg_sound : Sound a.neg fun z => ∃ x, a.Mem x ∧ z = -x := by
  rw [neg]
  split
  · exact .makeUnbounded
  split
  · exact .makeUnbounded
  next hk hmin =>
  rw [Bool.not_eq_true] at hk
  obtain ⟨h0, h1, h2⟩ := ha.bounds hk
  have hkk : -kMin = kMax + 1 := by decide
  rw [i64_eq (z := -a.max) (by omega) (by omega), i64_eq (z := -a.min) (by omega) (by omega)]
  refine .bounded (by omega) (by omega) (by omega) ?_
  rintro z ⟨x, hx, rfl⟩
  obtain ⟨hx0, hx1⟩ := hx hk
  constructor <;> omega

end

/-! ### Quotients and remainders -/

/-- Only the least value by minus one leaves `int64`. -/
lemma idiv_eq {c : ℤ} (hx : Fits 64 x) (hc : c ≠ 0) (h : ¬(x = kMin ∧ c = -1)) :
    idiv x c = some (x.tdiv c) ∧ Fits 64 (x.tdiv c) := by
  have hfi : Fits 64 (x.tdiv c) := by
    have habs := abs_le.1 (abs_tdiv_le x c)
    obtain ⟨hx0, hx1⟩ := fits_64.1 hx
    have hkk : -kMin = kMax + 1 := by decide
    rcases eq_or_ne x kMin with rfl | hne
    · rw [abs_of_nonpos (by omega)] at habs
      refine fits_64.2 ⟨by omega, ?_⟩
      rcases lt_or_gt_of_ne hc with hneg | hpos
      · have hle := tdiv_le_tdiv_left (x := -kMin) (by omega) two_pos (show 2 ≤ -c by omega)
        rw [Int.neg_tdiv_neg] at hle
        exact hle.trans (by decide)
      · have := Int.tdiv_nonneg (a := -kMin) (b := c) (by omega) hpos.le
        rw [Int.neg_tdiv] at this
        omega
    · have : |x| ≤ kMax := abs_le.2 ⟨by omega, hx1⟩
      exact fits_64.2 ⟨by omega, by omega⟩
  refine ⟨?_, hfi⟩
  rw [idiv, if_neg hc]
  exact if_pos hfi

/-- The magnitude bounds every value of the range, where it can be taken. -/
lemma magnitude_spec {a : LnastRange} (ha : a.Valid) (hk : a.unbounded = false) :
    a.magnitude = some none ∨ ∃ m, a.magnitude = some (some m) ∧ m ≤ kMax ∧ a.max ≤ m ∧
    ∀ x, a.Mem x → |x| ≤ m := by
  have habs : ∀ {v : ℤ}, kMin < v → v ≤ kMax → absI64 v = some |v| ∧ |v| ≤ kMax := by
    intro v h0 h1
    have hkk : -kMin = kMax + 1 := by decide
    rw [absI64]
    split
    · next hneg =>
      rw [abs_of_neg hneg]
      exact ⟨i64_eq (by omega) (by omega), by omega⟩
    · next hneg =>
      rw [abs_of_nonneg (not_lt.1 hneg)]
      exact ⟨rfl, h1⟩
  obtain ⟨h0, h1, h2⟩ := ha.bounds hk
  rw [magnitude]
  split
  · exact .inl rfl
  next hmin =>
  obtain ⟨hmi', hmi⟩ := habs (v := a.min) (by omega) (by omega)
  obtain ⟨hma', hma⟩ := habs (v := a.max) (by omega) (by omega)
  rw [hmi', hma']
  refine .inr ⟨_, rfl, max_le hmi hma, le_max_of_le_right (le_abs_self _), fun x hx => ?_⟩
  obtain ⟨hx0, hx1⟩ := hx hk
  rw [abs_le]
  constructor
  · have := (neg_le_abs a.min).trans (le_max_left |a.min| |a.max|)
    omega
  · exact hx1.trans ((le_abs_self _).trans (le_max_right _ _))

/-- A divisor range without zero: the extreme quotients are at the corners. -/
lemma corner_tdiv_bounds {a b : LnastRange} (hsi : b.min > 0 ∨ b.max < 0) (hx : x ∈ Icc a.min a.max)
    (hy : y ∈ Icc b.min b.max) :
    Min.min (Min.min (a.min.tdiv b.min) (a.min.tdiv b.max))
    (Min.min (a.max.tdiv b.min) (a.max.tdiv b.max)) ≤ x.tdiv y ∧
      x.tdiv y ≤ Max.max (Max.max (a.min.tdiv b.min) (a.min.tdiv b.max))
      (Max.max (a.max.tdiv b.min) (a.max.tdiv b.max)) := by
  refine corner_bounds (f := tdiv) (fun y hy => oneWayOn_tdiv_right ?_ _) (fun x => ?_) hx hy
  · rcases hsi with h | h
    · exact (h.trans_le hy.1).ne'
    · exact (hy.2.trans_lt h).ne
  · rcases hsi with h | h
    · exact (oneWayOn_tdiv_pos x).mono fun y hy => h.trans_le hy.1
    · exact (oneWayOn_tdiv_neg x).mono fun y hy => hy.2.trans_lt h

/-- Two constants whose quotient can be taken. -/
lemma foldable {a b : LnastRange}
    (h : (!b.unbounded && a.isConstant && b.isConstant && decide (b.min ≠ 0)
      && !(decide (a.min = kMin) && decide (b.min = -1))) = true) :
    a.isConstant = true ∧ b.isConstant = true ∧ b.min ≠ 0 ∧ ¬(a.min = kMin ∧ b.min = -1) := by
  simp only [Bool.and_eq_true, ← Bool.decide_and, not_eq_true', decide_eq_false_iff_not,
    decide_eq_true_iff] at h
  obtain ⟨⟨⟨⟨-, hca⟩, hcb⟩, hb0⟩, hmin⟩ := h
  exact ⟨hca, hcb, hb0, hmin⟩

section

variable {a b : LnastRange} (ha : a.Valid) (hb : b.Valid)
include ha hb

lemma div_sound : Sound (a.div b) fun z => ∃ x y, a.Mem x ∧ b.Mem y ∧ y ≠ 0 ∧ z = x.tdiv y := by
  rw [div]
  split
  · exact .makeUnbounded
  next hka =>
  rw [Bool.not_eq_true] at hka
  obtain ⟨ha0, ha1, hale⟩ := ha hka
  split
  · next hc =>
    obtain ⟨hca, hcb, hb0, hmin⟩ := foldable hc
    obtain ⟨hval, hfi⟩ := idiv_eq ha0 hb0 hmin
    rw [hval]
    refine .constant hfi ?_
    rintro z ⟨x, y, hx, hy, -, rfl⟩
    rw [hx.eq_min hca, hy.eq_min hcb]
  split
  · next hsi =>
    simp only [Bool.and_eq_true, not_eq_true', or_eq_true, decide_eq_true_iff] at hsi
    obtain ⟨hkb, hsi⟩ := hsi
    split
    · exact .makeUnbounded
    next hmin =>
    obtain ⟨hb0, hb1, hble⟩ := hb hkb
    have hmi' : ∀ {x c : ℤ}, a.min ≤ x → Fits 64 x → (b.min ≤ c ∧ c ≤ b.max) → c ≠ 0 ∧
        ¬(x = kMin ∧ c = -1) := by
      intro x c hx hfx hc
      refine ⟨by omega, ?_⟩
      rintro ⟨rfl, rfl⟩
      exact hmin ⟨le_antisymm hx ha0.1, hc.1, hc.2⟩
    obtain ⟨h0, hf0⟩ := idiv_eq ha0 (hmi' le_rfl ha0 ⟨le_rfl, hble⟩).1
      (hmi' le_rfl ha0 ⟨le_rfl, hble⟩).2
    obtain ⟨h1, hf1⟩ := idiv_eq ha0 (hmi' le_rfl ha0 ⟨hble, le_rfl⟩).1
      (hmi' le_rfl ha0 ⟨hble, le_rfl⟩).2
    obtain ⟨h2, hf2⟩ := idiv_eq ha1 (hmi' hale ha1 ⟨le_rfl, hble⟩).1
      (hmi' hale ha1 ⟨le_rfl, hble⟩).2
    obtain ⟨h3, hf3⟩ := idiv_eq ha1 (hmi' hale ha1 ⟨hble, le_rfl⟩).1
      (hmi' hale ha1 ⟨hble, le_rfl⟩).2
    rw [h0, h1, h2, h3]
    refine .bounded (le_min (le_min hf0.1 hf1.1) (le_min hf2.1 hf3.1))
      (max_le (max_le hf0.2 hf1.2) (max_le hf2.2 hf3.2))
      (min_le_of_left_le (min_le_of_left_le (le_max_of_le_left (le_max_left _ _)))) ?_
    rintro z ⟨x, y, hx, hy, -, rfl⟩
    exact corner_tdiv_bounds hsi (hx hka) (hy hkb)
  rcases magnitude_spec ha hka with hm | ⟨m, hm, hmax, hle, hx⟩
  · rw [hm]
    exact .makeUnbounded
  rw [hm]
  have hm0 := (abs_nonneg _).trans (hx a.min fun _ => ⟨le_rfl, hale⟩)
  have hkk : -kMin = kMax + 1 := by decide
  simp only [bind_eq_bind, bind_some]
  split
  · next h =>
    simp only [and_eq_true, not_eq_true', decide_eq_true_iff] at h
    obtain ⟨⟨h0, hkb⟩, hb0⟩ := h
    refine .bounded (by decide) ha1.2 (h0.trans hale) ?_
    rintro z ⟨x, y, hx, hy, -, rfl⟩
    have hx0 := le_trans h0 (hx hka).1
    have hy0 := le_trans hb0 (hy hkb).1
    refine ⟨Int.tdiv_nonneg hx0 hy0, (le_abs_self _).trans ((abs_tdiv_le x y).trans ?_)⟩
    rw [abs_of_nonneg hx0]
    exact (hx hka).2
  · rw [i64_eq (z := -m) (by omega) (by omega)]
    refine .bounded (by omega) hmax (by omega) ?_
    rintro z ⟨x, y, hxa, -, -, rfl⟩
    exact abs_le.1 ((abs_tdiv_le x y).trans (hx x hxa))

omit ha in
/-- What the divisor adds to the dividend's magnitude. -/
lemma modBound_spec {ma : ℤ} (hma : 0 ≤ ma) :
    b.modBound ma = some none ∨ ∃ m, b.modBound ma = some (some m) ∧ 0 ≤ m ∧ m ≤ ma ∧
      ∀ x y, |x| ≤ ma → b.Mem y → y ≠ 0 → |x.tmod y| ≤ m := by
  rw [modBound]
  split
  · exact .inr ⟨ma, rfl, hma, le_rfl, fun x y hx _ _ => (abs_tmod_le_self x y).trans hx⟩
  next hk =>
  rw [Bool.not_eq_true] at hk
  rcases magnitude_spec hb hk with hm | ⟨db, hm, hmax, -, hy⟩
  · rw [hm]
    exact .inl rfl
  rw [hm]
  have hdb := (abs_nonneg _).trans (hy b.min fun _ => ⟨le_rfl, (hb.bounds hk).2.1⟩)
  simp only [bind_eq_bind, bind_some]
  split
  · exact .inl rfl
  · rw [i64_eq (z := db - 1) (le_trans (by decide) (by omega : 0 ≤ db - 1)) (by omega)]
    refine .inr ⟨_, rfl, le_min hma (by omega), min_le_left _ _, fun x y hx hyb hy0 => le_min ?_ ?_⟩
    · exact (abs_tmod_le_self x y).trans hx
    · exact (abs_tmod_le hy0 x).trans (sub_le_sub_right (hy y hyb) 1)

lemma mod_sound : Sound (a.mod b) fun z => ∃ x y, a.Mem x ∧ b.Mem y ∧ y ≠ 0 ∧ z = x.tmod y := by
  rw [mod]
  split
  · exact .makeUnbounded
  next hka =>
  rw [Bool.not_eq_true] at hka
  obtain ⟨ha0, ha1, hale⟩ := ha hka
  split
  · next hc =>
    obtain ⟨hca, hcb, hb0, hmin⟩ := foldable hc
    rw [imod, (idiv_eq ha0 hb0 hmin).1]
    -- the remainder is no larger than the dividend and has its sign
    have hfi : Fits 64 (a.min.tmod b.min) := by
      rw [fits_64] at ha0 ⊢
      have habs := abs_le.1 (abs_tmod_le_self a.min b.min)
      have hmin : kMin ≤ 0 := by decide
      rcases le_total 0 a.min with h | h
      · have := Int.tmod_nonneg b.min h
        rw [abs_of_nonneg h] at habs
        omega
      · have := tmod_nonpos b.min h
        have : (0 : ℤ) ≤ kMax := by decide
        rw [abs_of_nonpos h] at habs
        omega
    refine .constant hfi ?_
    rintro z ⟨x, y, hx, hy, -, rfl⟩
    rw [hx.eq_min hca, hy.eq_min hcb]
  rcases magnitude_spec ha hka with hm | ⟨ma, hm, hmax, -, hx⟩
  · rw [hm]
    exact .makeUnbounded
  have hma := (abs_nonneg _).trans (hx a.min fun _ => ⟨le_rfl, hale⟩)
  rw [hm]
  simp only [bind_eq_bind, bind_some]
  rcases modBound_spec hb hma with hn | ⟨n, hn, hn0, hnle, hbo⟩
  · rw [hn]
    exact .makeUnbounded
  rw [hn]
  have hkk : -kMin = kMax + 1 := by decide
  have hin : ∀ x y, a.Mem x → b.Mem y → y ≠ 0 → -n ≤ x.tmod y ∧
      x.tmod y ≤ n := fun x y hxa hyb hy0 =>
    abs_le.1 (hbo x y (hx x hxa) hyb hy0)
  simp only [bind_some]
  split
  · next h0 =>
    refine .bounded (by decide) (hnle.trans hmax) hn0 ?_
    rintro z ⟨x, y, hxa, hyb, hy0, rfl⟩
    exact ⟨tmod_nonneg _ (le_trans h0 (hxa hka).1), (hin x y hxa hyb hy0).2⟩
  rw [i64_eq (z := -n) (by omega) (by omega)]
  split
  · next hneg =>
    refine .bounded (by omega) (by decide) (by omega) ?_
    rintro z ⟨x, y, hxa, hyb, hy0, rfl⟩
    exact ⟨(hin x y hxa hyb hy0).1, tmod_nonpos y ((hxa hka).2.trans hneg.le)⟩
  · refine .bounded (by omega) (hnle.trans hmax) (by omega) ?_
    rintro z ⟨x, y, hxa, hyb, hy0, rfl⟩
    exact hin x y hxa hyb hy0

/-! ### Shifts -/

omit hb in
lemma shl_sound : Sound (a.shl b) fun z =>
    ∃ x y, a.Mem x ∧ b.Mem y ∧ 0 ≤ y ∧ z = x * 2 ^ y.toNat := by
  rw [shl]
  split
  · exact .makeUnbounded
  next hk =>
  rw [Bool.or_eq_true, not_or] at hk
  obtain ⟨hka, hkb⟩ := known_of_not hk.1
  split
  · exact .makeUnbounded
  next hamt =>
  rw [not_or, not_lt, not_lt] at hamt
  obtain ⟨ha0, ha1, -⟩ := ha hka
  have hpow : ∀ {s : ℤ}, s ≤ 62 → |(2 : ℤ) ^ s.toNat| ≤ 2 ^ 63 := by
    intro s hs
    rw [abs_of_pos (IntBits.two_pow_pos _)]
    exact pow_le_pow_right₀ one_le_two (by omega)
  rw [i128_mul_of_abs ha0 (hpow hamt.1), i128_mul_of_abs ha0 (hpow hamt.2),
    i128_mul_of_abs ha1 (hpow hamt.1),
    i128_mul_of_abs ha1 (hpow hamt.2)]
  refine .narrow (min_le_of_left_le (min_le_of_left_le (le_max_of_le_left (le_max_left _ _)))) ?_
  rintro z ⟨x, y, hx, hy, -, rfl⟩
  exact corner_bounds (f := fun (x : ℤ) (k : ℕ) => x * 2 ^ k) (fun k _ => oneWayOn_mul_right _ _)
    (fun x => oneWayOn_mul_two_pow x _)
    (hx hka) ⟨Int.toNat_le_toNat (hy hkb).1, Int.toNat_le_toNat (hy hkb).2⟩

omit hb in
lemma sra_sound : Sound (a.sra b) fun z =>
    ∃ x y, a.Mem x ∧ b.Mem y ∧ 0 ≤ y ∧ z = x / 2 ^ y.toNat := by
  have hcl : ∀ s : ℤ, (if s > 63 then 63 else s).toNat = Min.min 63 s.toNat := by
    intro s
    split <;> omega
  rw [sra]
  split
  · exact .makeUnbounded
  next hk =>
  rw [Bool.or_eq_true, not_or] at hk
  obtain ⟨hka, hkb⟩ := known_of_not hk.1
  obtain ⟨ha0, ha1, -⟩ := ha hka
  dsimp only
  rw [hcl, hcl]
  have hfi : ∀ {x : ℤ} (k : ℕ), Fits 64 x → kMin ≤ x / 2 ^ k ∧ x / 2 ^ k ≤ kMax := fun k hx =>
    div_two_pow_bounds hx.1 hx.2 (by decide) (by decide) k
  refine .bounded (le_min (le_min (hfi _ ha0).1 (hfi _ ha0).1) (le_min (hfi _ ha1).1 (hfi _ ha1).1))
    (max_le (max_le (hfi _ ha0).2 (hfi _ ha0).2) (max_le (hfi _ ha1).2 (hfi _ ha1).2))
    (min_le_of_left_le (min_le_of_left_le (le_max_of_le_left (le_max_left _ _)))) ?_
  rintro z ⟨x, y, hx, hy, -, rfl⟩
  have hxf := ha.fits hka hx
  -- shifts beyond 63 leave the sign, as the shift by 63 does
  have hval : x / 2 ^ y.toNat = x / 2 ^ Min.min 63 y.toNat := by
    rcases le_total 63 y.toNat with h | h
    · rw [min_eq_left h]
      exact div_two_pow_of_le hxf.1 (lt_of_le_sub_one hxf.2) h
    · rw [min_eq_right h]
  rw [hval]
  exact corner_bounds (f := fun (x : ℤ) (k : ℕ) => x / 2 ^ k) (fun k _ => oneWayOn_div_right k _)
    (fun x => oneWayOn_div_two_pow x _)
    (hx hka) ⟨min_le_min le_rfl (Int.toNat_le_toNat (hy hkb).1),
      min_le_min le_rfl (Int.toNat_le_toNat (hy hkb).2)⟩

end

/-! ## The transfer functions together -/

/-- The operations of the lattice. -/
inductive Transfer where
  | join | meet | band | bor | bxor | bnot
  | bnotBits (bits : ℤ)
  | add | sub | mul | neg | div | mod | shl | sra
  deriving DecidableEq

/-- The range a transfer function returns; a unary one reads the first operand only. -/
def Transfer.apply : Transfer → LnastRange → LnastRange → Option LnastRange
  | join, a, b => a.join b
  | meet, a, b => a.meet b
  | band, a, b => a.band b
  | bor, a, b => a.bor b
  | bxor, a, b => a.bxor b
  | bnot, a, _ => a.bnot
  | bnotBits bits, a, _ => a.bnotBits bits
  | add, a, b => a.add b
  | sub, a, b => a.sub b
  | mul, a, b => a.mul b
  | neg, a, _ => a.neg
  | div, a, b => a.div b
  | mod, a, b => a.mod b
  | shl, a, b => a.shl b
  | sra, a, b => a.sra b

/-- `z` is an exact integer result at `x` and `y`: a join takes either value, a meet a common
one, and quotients, remainders and shifts have none by zero and by a negative amount. -/
def Transfer.Exact : Transfer → ℤ → ℤ → ℤ → Prop
  | join, x, y, z => z = x ∨ z = y
  | meet, x, y, z => z = x ∧ x = y
  | band, x, y, z => z = Int.land x y
  | bor, x, y, z => z = Int.lor x y
  | bxor, x, y, z => z = Int.xor x y
  | bnot, x, _, z => z = -x - 1
  | bnotBits bits, x, _, z => z = (-x - 1) % 2 ^ bits.toNat
  | add, x, y, z => z = x + y
  | sub, x, y, z => z = x - y
  | mul, x, y, z => z = x * y
  | neg, x, _, z => z = -x
  | div, x, y, z => y ≠ 0 ∧ z = x.tdiv y
  | mod, x, y, z => y ≠ 0 ∧ z = x.tmod y
  | shl, x, y, z => 0 ≤ y ∧ z = x * 2 ^ y.toNat
  | sra, x, y, z => 0 ≤ y ∧ z = x / 2 ^ y.toNat

/-- The transfer function runs without overflow and returns a valid range that holds every
exact result of values of the operands. -/
def Transfer.Correct (t : Transfer) (a b : LnastRange) : Prop :=
  Sound (t.apply a b) fun z => ∃ x y, a.Mem x ∧ b.Mem y ∧ t.Exact x y z

lemma Valid.nonempty {b : LnastRange} (hb : b.Valid) : ∃ y, b.Mem y :=
  ⟨b.min, fun hk => ⟨le_rfl, (hb hk).2.2⟩⟩

lemma Sound.unary {r : Option LnastRange} {a b : LnastRange} (hb : b.Valid) {f : ℤ → ℤ} :
    Sound r (fun z => ∃ x y, a.Mem x ∧ b.Mem y ∧ z = f x) ↔ Sound r fun z =>
    ∃ x, a.Mem x ∧ z = f x := by
  obtain ⟨y, hy⟩ := hb.nonempty
  constructor
  · rintro ⟨R, hr, hR, h⟩
    exact ⟨R, hr, hR, fun z ⟨x, hx, hz⟩ => h z ⟨x, y, hx, hy, hz⟩⟩
  · rintro ⟨R, hr, hR, h⟩
    exact ⟨R, hr, hR, fun z ⟨x, _, hx, _, hz⟩ => h z ⟨x, hx, hz⟩⟩

/-- Every transfer function is correct but for the complement of a range from the least
`int64` on, whose endpoint it negates. -/
theorem transfer_correct_iff (t : Transfer) {a b : LnastRange} (ha : a.Valid) (hb : b.Valid) :
    t.Correct a b ↔ ¬(t = .bnot ∧ a.unbounded = false ∧ a.min = kMin) := by
  cases t with
  | bnot =>
    refine (Sound.unary hb).trans ((bnot_sound_iff ha).trans (not_congr ?_))
    exact ⟨fun h => ⟨rfl, h⟩, fun h => h.2⟩
  | join => exact iff_of_true (join_sound ha hb) nofun
  | meet => exact iff_of_true (meet_sound ha hb) nofun
  | band => exact iff_of_true (band_sound ha hb) nofun
  | bor => exact iff_of_true (bor_sound ha hb) nofun
  | bxor => exact iff_of_true (bxor_sound ha hb) nofun
  | bnotBits bits => exact iff_of_true ((Sound.unary hb).2 (bnotBits_sound ha bits)) nofun
  | add => exact iff_of_true (add_sound ha hb) nofun
  | sub => exact iff_of_true (sub_sound ha hb) nofun
  | mul => exact iff_of_true (mul_sound ha hb) nofun
  | neg => exact iff_of_true ((Sound.unary hb).2 (neg_sound ha)) nofun
  | div => exact iff_of_true (div_sound ha hb) nofun
  | mod => exact iff_of_true (mod_sound ha hb) nofun
  | shl => exact iff_of_true (shl_sound ha) nofun
  | sra => exact iff_of_true (sra_sound ha) nofun

theorem transfer_correct_iff_div : (bounded (-9) 9).Valid ∧ (bounded 2 3).Valid ∧
    Transfer.div.apply (bounded (-9) 9) (bounded 2 3) = some (bounded (-4) 4) ∧
    Transfer.div.Correct (bounded (-9) 9) (bounded 2 3) := by
  have ha : (bounded (-9) 9).Valid := fun _ => by decide
  have hb : (bounded 2 3).Valid := fun _ => by decide
  exact ⟨ha, hb, by decide, (transfer_correct_iff .div ha hb).2 nofun⟩

/-- A negation overflows where the range starts at the least `int64`. -/
theorem bnot_kMin_not_correct :
    (bounded kMin 0).Valid ∧ Transfer.bnot.apply (bounded kMin 0) (bounded kMin 0) = none ∧
    ¬Transfer.bnot.Correct (bounded kMin 0) (bounded kMin 0) := by
  have hnone : Transfer.bnot.apply (bounded kMin 0) (bounded kMin 0) = none := by decide
  refine ⟨fun _ => by decide, hnone, ?_⟩
  rintro ⟨R, hR, -, -⟩
  cases hR

end LnastRange

end LiveHD.Upass
