import LiveHD.Aegraph.RuleExpr

/-!
# Value facts

`runtime/analyses.cpp`: an interval `[lo, hi]` of `__int128` bounds and the known bits of
the low 64.  `-kInf` below and `kInf` above mean unbounded.  A fact is `Sound` for an
integer that satisfies it; no bound and no intermediate value leaves `__int128`.
-/

namespace LiveHD.Aegraph

open BitVec hiding not_and not_or
open IntBits Aegraph Int List

/-- The unbounded bound. -/
def kInf : ℤ := 2 ^ 100

structure Facts where
  lo : ℤ := -kInf
  hi : ℤ := kInf
  /-- Bits of the low 64 known to be 0. -/
  kz : BitVec 64 := 0
  /-- Bits of the low 64 known to be 1. -/
  ko : BitVec 64 := 0
deriving DecidableEq

/-! ## Directed interval arithmetic -/

variable (v : ℤ)

def dn : ℤ := if v ≤ -kInf then -kInf else if v ≥ kInf then kInf - 1 else v

def up : ℤ := if v ≥ kInf then kInf else if v ≤ -kInf then -kInf + 1 else v

def unbLo : Bool := decide (v ≤ -kInf)

def unbHi : Bool := decide (v ≥ kInf)

def loAdd (a b : ℤ) : ℤ := if unbLo a || unbLo b then -kInf else dn (a + b)

def hiAdd (a b : ℤ) : ℤ := if unbHi a || unbHi b then kInf else up (a + b)

def loSub (xlo yhi : ℤ) : ℤ := if unbLo xlo || unbHi yhi then -kInf else dn (xlo - yhi)

def hiSub (xhi ylo : ℤ) : ℤ := if unbHi xhi || unbLo ylo then kInf else up (xhi - ylo)

/-- Bits needed by a non-negative value. -/
def bitlen (v : ℤ) : ℕ := if 0 < v then bitLength v else 0

/-- `v * 2 ^ k`, saturated downwards. -/
def shlDn (v : ℤ) (k : ℕ) : ℤ :=
  if v = 0 then 0
  else if 100 ≤ k ∨ 100 ≤ bitlen |v| + k then (if v < 0 then -kInf else kInf - 1)
  else v * 2 ^ k

/-- `v * 2 ^ k`, saturated upwards. -/
def shlUp (v : ℤ) (k : ℕ) : ℤ :=
  if v = 0 then 0
  else if 100 ≤ k ∨ 100 ≤ bitlen |v| + k then (if v < 0 then -kInf + 1 else kInf)
  else v * 2 ^ k

/-- The product of two intervals. -/
def multRange (alo ahi blo bhi : ℤ) : ℤ × ℤ :=
  let limit : ℤ := 2 ^ 62
  if alo ≤ -limit ∨ ahi ≥ limit ∨ blo ≤ -limit ∨ bhi ≥ limit then (-kInf, kInf)
  else
    let lo := min (min (alo * blo) (alo * bhi)) (min (ahi * blo) (ahi * bhi))
    let hi := max (max (alo * blo) (alo * bhi)) (max (ahi * blo) (ahi * bhi))
    if lo ≤ -kInf ∨ hi ≥ kInf then (-kInf, kInf) else (lo, hi)

def maskW (bits : ℕ) : ℤ := if 100 ≤ bits then kInf else 2 ^ bits - 1

def lowMask (bits : ℕ) : BitVec 64 := if 64 ≤ bits then allOnes 64
    else BitVec.ofNat 64 (2 ^ bits - 1)

/-- `countr_one`. -/
def trailingKnownZero (kz : BitVec 64) : ℕ := ((List.range 64).takeWhile kz.getLsbD).length

namespace Facts

def top : Facts := {}

def nonneg (f : Facts) : Bool := decide (0 ≤ f.lo)

def bounded (f : Facts) : Bool := decide (-kInf < f.lo) && decide (f.hi < kInf)

def ofConst (v : ℤ) : Facts where
  lo := v
  hi := v
  kz := ~~~BitVec.ofInt 64 v
  ko := BitVec.ofInt 64 v

/-- Tighten a fact from its own components. -/
def refine (f : Facts) : Facts :=
  if f.lo > f.hi then top
  else if 0 ≤ f.lo ∧ f.hi < kInf ∧ bitlen f.hi < 64 then
    let kz := f.kz ||| ~~~lowMask (bitlen f.hi)
    let possible : ℤ := (~~~kz).toNat
    let hi := min possible f.hi
    let lo := max (f.ko.toNat : ℤ) f.lo
    if lo > hi then top else { lo, hi, kz, ko := f.ko }
  else f

def join (a b : Facts) : Facts where
  lo := min a.lo b.lo
  hi := max a.hi b.hi
  kz := a.kz &&& b.kz
  ko := a.ko &&& b.ko

/-- Both facts hold. -/
def meet (a b : Facts) : Facts :=
  refine { lo := max a.lo b.lo, hi := min a.hi b.hi, kz := a.kz ||| b.kz, ko := a.ko ||| b.ko }

end Facts

/-! ## Soundness of bounds and masks -/

lemma kInf_pos : 0 < kInf := two_pow_pos 100

/-- A lower bound, unless it is the unbounded one. -/
def LoOk (l v : ℤ) : Prop := -kInf < l → l ≤ v

/-- An upper bound, unless it is the unbounded one. -/
def HiOk (h v : ℤ) : Prop := h < kInf → v ≤ h

/-- Every bit of the mask is 0 in `v`. -/
def KzOk (kz : BitVec 64) (v : ℤ) : Prop := ∀ i, kz.getLsbD i = true → v.testBit i = false

/-- Every bit of the mask is 1 in `v`. -/
def KoOk (ko : BitVec 64) (v : ℤ) : Prop := ∀ i, ko.getLsbD i = true → v.testBit i = true

/-- A lower bound is below `kInf` and an upper bound above `-kInf`. -/
structure Facts.InRange (f : Facts) : Prop where
  lo : f.lo < kInf
  hi : -kInf < f.hi

/-- The integer `v` satisfies the fact, whose bounds are in range. -/
structure Facts.Sound (f : Facts) (v : ℤ) : Prop where
  lo : LoOk f.lo v
  hi : HiOk f.hi v
  kz : KzOk f.kz v
  ko : KoOk f.ko v
  range : f.InRange

variable {a b h l v x y : ℤ}

lemma loOk_unbounded : LoOk (-kInf) v := fun h => absurd h (lt_irrefl _)

lemma hiOk_unbounded : HiOk kInf v := fun h => absurd h (lt_irrefl _)

lemma LoOk.of_le (h : l ≤ v) : LoOk l v := fun _ => h

lemma HiOk.of_le (hv : v ≤ h) : HiOk h v := fun _ => hv

lemma LoOk.dn (h : l ≤ v) : LoOk (dn l) v := by
  unfold Aegraph.dn LoOk
  split
  · intro h'
    omega
  · split <;> omega

lemma HiOk.up (hv : v ≤ h) : HiOk (up h) v := by
  unfold Aegraph.up HiOk
  split
  · intro h'
    omega
  · split <;> omega

lemma dn_lt (v : ℤ) : dn v < kInf := by
  have := kInf_pos
  unfold dn
  split
  · omega
  · split <;> omega

lemma lt_up (v : ℤ) : -kInf < up v := by
  have := kInf_pos
  unfold up
  split
  · omega
  · split <;> omega

lemma loAdd_lt (a b : ℤ) : loAdd a b < kInf := by
  have := kInf_pos
  unfold loAdd
  split
  · omega
  · exact dn_lt _

lemma lt_hiAdd (a b : ℤ) : -kInf < hiAdd a b := by
  have := kInf_pos
  unfold hiAdd
  split
  · omega
  · exact lt_up _

lemma loSub_lt (a b : ℤ) : loSub a b < kInf := by
  have := kInf_pos
  unfold loSub
  split
  · omega
  · exact dn_lt _

lemma lt_hiSub (a b : ℤ) : -kInf < hiSub a b := by
  have := kInf_pos
  unfold hiSub
  split
  · omega
  · exact lt_up _

lemma LoOk.add (ha : LoOk a x) (hb : LoOk b y) : LoOk (loAdd a b) (x + y) := by
  unfold loAdd
  split
  · exact loOk_unbounded
  next hn =>
    simp only [unbLo, Bool.or_eq_true, decide_eq_true_eq, not_or, not_le] at hn
    exact .dn (add_le_add (ha hn.1) (hb hn.2))

lemma HiOk.add (ha : HiOk a x) (hb : HiOk b y) : HiOk (hiAdd a b) (x + y) := by
  unfold hiAdd
  split
  · exact hiOk_unbounded
  next hn =>
    simp only [unbHi, Bool.or_eq_true, decide_eq_true_eq, not_or, not_le] at hn
    exact .up (add_le_add (ha hn.1) (hb hn.2))

lemma LoOk.sub (ha : LoOk a x) (hb : HiOk b y) : LoOk (loSub a b) (x - y) := by
  unfold loSub
  split
  · exact loOk_unbounded
  next hn =>
    simp only [unbLo, unbHi, Bool.or_eq_true, decide_eq_true_eq, not_or, not_le] at hn
    exact .dn (sub_le_sub (ha hn.1) (hb hn.2))

lemma HiOk.sub (ha : HiOk a x) (hb : LoOk b y) : HiOk (hiSub a b) (x - y) := by
  unfold hiSub
  split
  · exact hiOk_unbounded
  next hn =>
    simp only [unbLo, unbHi, Bool.or_eq_true, decide_eq_true_eq, not_or, not_le] at hn
    exact .up (sub_le_sub (ha hn.1) (hb hn.2))

lemma bitlen_le {n : ℕ} : bitlen v ≤ n ↔ v < 2 ^ n := by
  unfold bitlen
  split
  next hv =>
    rw [bitLength, Nat.add_one_le_iff, Nat.log2_lt (by omega)]
    zify
    rw [toNat_of_nonneg hv.le]
  · have := two_pow_pos n
    constructor
    · intro _
      omega
    · intro _
      exact Nat.zero_le n

lemma lt_two_pow_bitlen : v < 2 ^ bitlen v := bitlen_le.1 le_rfl

lemma bitlen_mono (h : x ≤ y) : bitlen x ≤ bitlen y := bitlen_le.2 (h.trans_lt lt_two_pow_bitlen)

lemma HiOk.maskW {n : ℕ} (hv : v < 2 ^ n) : HiOk (maskW n) v := by
  unfold Aegraph.maskW
  split
  · exact hiOk_unbounded
  · exact .of_le (by omega)

lemma maskW_nonneg (n : ℕ) : 0 ≤ maskW n := by
  have := kInf_pos
  have := two_pow_pos n
  unfold maskW
  split <;> omega

lemma lt_maskW (n : ℕ) : -kInf < maskW n := by
  have := kInf_pos
  have := maskW_nonneg n
  omega

lemma maskW_min (n : ℕ) : maskW (min n 200) = maskW n := by
  rcases le_total n 200 with h | h
  · rw [min_eq_left h]
  · rw [min_eq_right h, maskW, maskW, if_pos (by norm_num), if_pos (by omega)]

lemma lt_two_pow_of_le_maskW {n : ℕ} (h : v ≤ maskW n) (hv : v < kInf) : v < 2 ^ n := by
  unfold maskW at h
  split at h
  · exact hv.trans_le (pow_le_pow_right₀ (by norm_num) ‹_›)
  · omega

lemma getLsbD_lowMask (n i : ℕ) : (lowMask n).getLsbD i = (decide (i < 64) && decide (i < n)) := by
  unfold lowMask
  split
  · rw [getLsbD_allOnes]
    by_cases hi : i < 64
    · simp [show i < n by omega]
    · simp [hi]
  · rw [getLsbD_ofNat, Nat.testBit_two_pow_sub_one]

lemma getLsbD_ofInt (v : ℤ) (i : ℕ) :
    (BitVec.ofInt 64 v).getLsbD i = (decide (i < 64) && v.testBit i) := by
  have h : (((BitVec.ofInt 64 v).toNat : ℕ) : ℤ) = v % 2 ^ 64 := by
    exact toNat_of_nonneg (emod_nonneg _ (by norm_num))
  rw [← testBit_toNat, ← natCast_testBit, h, testBit_mod]

lemma getLsbD_of_lt_trailing {kz : BitVec 64} {i : ℕ} (hi : i < trailingKnownZero kz) :
    kz.getLsbD i = true := by
  have hlen := hi
  have hmem := all_takeWhile (p := kz.getLsbD) (l := List.range 64)
  have hget : ((List.range 64).takeWhile kz.getLsbD)[i] = i := by
    rw [( takeWhile_prefix kz.getLsbD).getElem hlen, getElem_range]
  have := all_eq_true.1 hmem _ (getElem_mem hlen)
  rwa [hget] at this

/-! ## Soundness of the combinators -/

namespace Facts

variable {f g : Facts}

/-- A fact without bounds. -/
lemma sound_of_masks {kz ko : BitVec 64} (hz : KzOk kz v) (ho : KoOk ko v) :
    ({ kz, ko } : Facts).Sound v where
  lo := loOk_unbounded
  hi := hiOk_unbounded
  kz := hz
  ko := ho
  range := by
    have := kInf_pos
    constructor <;> simp only <;> omega

lemma top_sound : top.Sound v :=
  sound_of_masks (fun i hi => by simp at hi) (fun i hi => by simp at hi)

lemma ofConst_sound (hv : isI64 v = true) : (ofConst v).Sound v where
  lo := .of_le le_rfl
  hi := .of_le le_rfl
  kz i hi := by
    simp only [ofConst, getLsbD_not, getLsbD_ofInt] at hi
    grind
  ko i hi := by
    simp only [ofConst, getLsbD_ofInt] at hi
    grind
  range := by
    simp only [isI64, Bool.and_eq_true, decide_eq_true_eq] at hv
    constructor <;> simp only [ofConst, kInf] <;> omega

lemma join_sound_left (h : f.Sound v) : (join f g).Sound v where
  lo h' := by
    have := h.lo
    simp only [join, LoOk] at *
    omega
  hi h' := by
    have := h.hi
    simp only [join, HiOk] at *
    omega
  kz i hi := h.kz i (by simp only [join] at hi; grind)
  ko i hi := h.ko i (by simp only [join] at hi; grind)
  range := ⟨lt_of_le_of_lt (min_le_left _ _) h.range.lo,
    lt_of_lt_of_le h.range.hi (le_max_left _ _)⟩

lemma join_sound_right (h : g.Sound v) : (join f g).Sound v where
  lo h' := by
    have := h.lo
    simp only [join, LoOk] at *
    omega
  hi h' := by
    have := h.hi
    simp only [join, HiOk] at *
    omega
  kz i hi := h.kz i (by simp only [join] at hi; grind)
  ko i hi := h.ko i (by simp only [join] at hi; grind)
  range := ⟨lt_of_le_of_lt (min_le_right _ _) h.range.lo,
    lt_of_lt_of_le h.range.hi (le_max_right _ _)⟩

lemma refine_sound (h : f.Sound v) : f.refine.Sound v := by
  unfold Facts.refine
  split
  · exact top_sound
  split
  next hc =>
    obtain ⟨hlo, hhi, hnb⟩ := hc
    have h0 := hlo.trans (h.lo (by omega))
    have hvhi := h.hi hhi
    have hlt := lt_of_le_of_lt hvhi lt_two_pow_bitlen
    have hkz : KzOk (f.kz ||| ~~~lowMask (bitlen f.hi)) v := by
      intro i hi
      simp only [getLsbD_or, getLsbD_not, getLsbD_lowMask] at hi
      by_cases hfi : f.kz.getLsbD i = true
      · exact h.kz i hfi
      · exact (lt_two_pow_iff h0).1 hlt i (by grind)
    -- the value is between the bits known to be 1 and the bits that can be 1
    have hpo : v ≤ ((~~~(f.kz ||| ~~~lowMask (bitlen f.hi))).toNat : ℤ) := by
      refine le_of_testBit h0 (natCast_nonneg _) fun i hi => ?_
      rw [natCast_testBit]
      have h64 : i < 64 := by
        by_contra hge
        have := (lt_two_pow_iff h0).1 hlt i (by omega)
        rw [this] at hi
        cases hi
      have := hkz i
      grind
    have hko : (f.ko.toNat : ℤ) ≤ v := by
      refine le_of_testBit (natCast_nonneg _) h0 fun i hi => ?_
      exact h.ko i hi
    simp only
    split
    · exact top_sound
    · refine ⟨.of_le (max_le hko (h.lo (by omega))), .of_le (le_min hpo hvhi), hkz, h.ko,
        max_lt ?_ h.range.lo, lt_min ?_ h.range.hi⟩ <;> omega
  · exact h

lemma meet_sound (hf : f.Sound v) (hg : g.Sound v) : (meet f g).Sound v := by
  refine refine_sound ⟨?_, ?_, ?_, ?_, max_lt hf.range.lo hg.range.lo,
    lt_min hf.range.hi hg.range.hi⟩
  · have := hf.lo
    have := hg.lo
    simp only [LoOk] at *
    omega
  · have := hf.hi
    have := hg.hi
    simp only [HiOk] at *
    omega
  · intro i hi
    rw [getLsbD_or, Bool.or_eq_true] at hi
    exact hi.elim (hf.kz i) (hg.kz i)
  · intro i hi
    rw [getLsbD_or, Bool.or_eq_true] at hi
    exact hi.elim (hf.ko i) (hg.ko i)

end Facts

/-- A product lies between the products with the ends of an interval. -/
lemma mul_between (h1 : a ≤ x) (h2 : x ≤ b) (y : ℤ) :
    min (a * y) (b * y) ≤ x * y ∧ x * y ≤ max (a * y) (b * y) := by
  rcases le_total 0 y with hy | hy
  · exact ⟨min_le_of_left_le (mul_le_mul_of_nonneg_right h1 hy),
      le_max_of_le_right (mul_le_mul_of_nonneg_right h2 hy)⟩
  · exact ⟨min_le_of_right_le (mul_le_mul_of_nonpos_right h2 hy),
      le_max_of_le_left (mul_le_mul_of_nonpos_right h1 hy)⟩

lemma multRange_sound {alo ahi blo bhi : ℤ} (hal : LoOk alo x) (hah : HiOk ahi x)
    (hbl : LoOk blo y) (hbh : HiOk bhi y) :
    LoOk (multRange alo ahi blo bhi).1 (x * y) ∧ HiOk (multRange alo ahi blo bhi).2 (x * y) := by
  unfold multRange
  simp only
  split
  · exact ⟨loOk_unbounded, hiOk_unbounded⟩
  have hinf : (2 : ℤ) ^ 62 < kInf := by norm_num [kInf]
  have hx := mul_between (hal (by omega)) (hah (by omega)) y
  have hlo := mul_between (hbl (by omega)) (hbh (by omega)) alo
  have hhi := mul_between (hbl (by omega)) (hbh (by omega)) ahi
  simp only [mul_comm _ alo, mul_comm _ ahi] at hlo hhi
  split
  · exact ⟨loOk_unbounded, hiOk_unbounded⟩
  · exact ⟨.of_le ((min_le_min hlo.1 hhi.1).trans hx.1),
      HiOk.of_le (hx.2.trans (max_le_max hlo.2 hhi.2))⟩

lemma multRange_inRange (alo ahi blo bhi : ℤ) :
    (multRange alo ahi blo bhi).1 < kInf ∧ -kInf < (multRange alo ahi blo bhi).2 := by
  have := kInf_pos
  unfold multRange
  simp only
  split
  · exact ⟨by omega, by omega⟩
  split
  · exact ⟨by omega, by omega⟩
  · exact ⟨by omega, by omega⟩

/-- The products that `shlDn` and `shlUp` can saturate although they are below `kInf`. -/
def Saturates (w : ℤ) : Prop := 2 ^ 99 ≤ w ∧ w < 2 ^ 100 - 1 ∨ -2 ^ 100 + 1 < w ∧ w ≤ -2 ^ 99

variable {k : ℕ}

/-- A positive number that saturates a shift is at least half of `kInf` after it. -/
lemma two_pow_le_of_saturated (hv : 0 < v) (h : 100 ≤ k ∨ 100 ≤ bitlen v + k) :
    2 ^ 99 ≤ v * 2 ^ k := by
  have hbit : 2 ^ (bitlen v - 1) ≤ v := by
    rw [bitlen, if_pos hv]
    exact bitLength_le hv
  rcases h with h | h
  · have h1 : (2 : ℤ) ^ 99 ≤ 2 ^ k := pow_le_pow_right₀ (by norm_num) (by omega)
    exact h1.trans (le_mul_of_one_le_left (two_pow_pos k).le hv)
  · have h1 : (2 : ℤ) ^ 99 ≤ 2 ^ (bitlen v - 1 + k) := by
      refine pow_le_pow_right₀ (by norm_num) ?_
      omega
    rw [pow_add] at h1
    exact h1.trans (mul_le_mul_of_nonneg_right hbit (two_pow_pos k).le)

/-- A shift of `x`, with the facts `g`, is rounded the right way: a positive lower bound and a
negative upper bound saturate only where the product is past them. -/
structure Facts.Rounds (g : Facts) (k : ℕ) (x : ℤ) : Prop where
  lo : 0 < g.lo → 100 ≤ k ∨ 100 ≤ bitlen |g.lo| + k → kInf - 1 ≤ x * 2 ^ k
  hi : g.hi < 0 → 100 ≤ k ∨ 100 ≤ bitlen |g.hi| + k → x * 2 ^ k ≤ -kInf + 1

/-- Rounding goes wrong only for a product just below `kInf`. -/
lemma Facts.Sound.rounds {g : Facts} (hg : g.Sound x)
    (hw : ¬Saturates (x * 2 ^ k)) : g.Rounds k x := by
  have hpow := two_pow_pos k
  have hinf := kInf_pos
  simp only [Saturates, not_or, not_and, not_lt] at hw
  constructor
  · intro hpos hsat
    rw [abs_of_pos hpos] at hsat
    have hmul := mul_le_mul_of_nonneg_right (hg.lo (by omega)) hpow.le
    exact hw.1 ((two_pow_le_of_saturated hpos hsat).trans hmul)
  · intro hneg hsat
    rw [abs_of_neg hneg] at hsat
    have hmul := mul_le_mul_of_nonneg_right (hg.hi (by omega)) hpow.le
    have hle := two_pow_le_of_saturated (neg_pos.2 hneg) hsat
    by_contra hlt
    exact hw.2 (by linarith [show kInf = 2 ^ 100 from rfl]) (by linarith)

lemma LoOk.shlDn (hl : l ≤ x) (hr : 0 < l → 100 ≤ k ∨ 100 ≤ bitlen |l| + k → kInf - 1 ≤ x * 2 ^ k) :
    LoOk (shlDn l k) (x * 2 ^ k) := by
  have hpow := two_pow_pos k
  have hmul := mul_le_mul_of_nonneg_right hl hpow.le
  unfold Aegraph.shlDn
  split
  next h0 => exact .of_le (by simpa [h0] using hmul)
  split
  next hne hsat =>
    split
    · exact loOk_unbounded
    next hneg => exact .of_le (hr (by omega) hsat)
  · exact .of_le hmul

lemma HiOk.shlUp (hh : x ≤ h) (hr : h < 0 → 100 ≤ k ∨ 100 ≤ bitlen |h| + k →
    x * 2 ^ k ≤ -kInf + 1) :
    HiOk (shlUp h k) (x * 2 ^ k) := by
  have hpow := two_pow_pos k
  have hmul := mul_le_mul_of_nonneg_right hh hpow.le
  unfold Aegraph.shlUp
  split
  next h0 => exact .of_le (by simpa [h0] using hmul)
  split
  next hne hsat =>
    split
    next hneg => exact .of_le (hr hneg hsat)
    · exact hiOk_unbounded
  · exact .of_le hmul

lemma abs_shl_lt (h : ¬(100 ≤ k ∨ 100 ≤ bitlen |v| + k)) : |v * 2 ^ k| < kInf := by
  have hpow := two_pow_pos k
  rw [abs_mul, abs_of_pos hpow]
  calc |v| * 2 ^ k < 2 ^ bitlen |v| * 2 ^ k := mul_lt_mul_of_pos_right lt_two_pow_bitlen hpow
    _ = 2 ^ (bitlen |v| + k) := (pow_add _ _ _).symm
    _ ≤ kInf := pow_le_pow_right₀ (by norm_num) (by omega)

lemma shlDn_lt (v : ℤ) (k : ℕ) : shlDn v k < kInf := by
  have := kInf_pos
  unfold shlDn
  split
  · exact this
  split
  · split <;> omega
  · exact (abs_lt.1 (abs_shl_lt ‹_›)).2

lemma lt_shlUp (v : ℤ) (k : ℕ) : -kInf < shlUp v k := by
  have := kInf_pos
  unfold shlUp
  split
  · omega
  split
  · split <;> omega
  · exact (abs_lt.1 (abs_shl_lt ‹_›)).1

end LiveHD.Aegraph
