import LiveHD.Aegraph.Transfer.Nary
import LiveHD.Lib.Ranges

/-!
# Transfer functions of the positional operators

Windows, shifts, extensions and divisions in `node_facts`.  `SHL` is sound only where its
saturation is: a product that is just below `kInf` must not be rounded up to it.
-/

namespace LiveHD.Aegraph

open IntBits BitVec Bool

/-! ## Windows, shifts and extensions -/

/-- `Get_mask` of the bits `l ≤ i < h`. -/
def getMaskFacts (l h : ℕ) (g : Facts) : Facts :=
  let w := min (h - l) 200
  let f : Facts := {
    lo := 0
    hi := maskW w
    kz := (if l < 64 then g.kz >>> l else 0) ||| ~~~lowMask w
    ko := (if l < 64 then g.ko >>> l else 0) &&& lowMask w }
  if g.nonneg && decide (g.hi < kInf) && decide (l < 100) && decide (g.hi / 2 ^ l ≤ maskW w) then
    -- the mask drops nothing
    { f with lo := g.lo / 2 ^ l, hi := g.hi / 2 ^ l }
  else f

/-- The bits of the low 64 that `Set_mask` writes. -/
def writeWindow (l h : ℕ) : BitVec 64 :=
  if h ≤ 64 then lowMask h &&& ~~~lowMask l else if l < 64 then ~~~lowMask l else 0

def setMaskFacts (l h : ℕ) (ga gv : Facts) : Facts :=
  let win := writeWindow l h
  let f : Facts := {
    kz := (ga.kz &&& ~~~win) ||| (if l < 64 then (gv.kz <<< l) &&& win else 0)
    ko := (ga.ko &&& ~~~win) ||| (if l < 64 then (gv.ko <<< l) &&& win else 0) }
  if ga.nonneg && decide (ga.hi < kInf) then
    { f with lo := 0, hi := maskW (max (bitlen ga.hi) h) }
  else f

/-- `SHL` by a constant. -/
def shlFacts (k : ℕ) (g : Facts) : Facts where
  lo := if unbLo g.lo then -kInf else shlDn g.lo k
  hi := if unbHi g.hi then kInf else shlUp g.hi k
  kz := if k < 64 then g.kz <<< k ||| lowMask k else BitVec.allOnes 64
  ko := if k < 64 then g.ko <<< k else 0

/-- `SHL` by an amount that is not known. -/
def shlAnyFacts (g : Facts) : Facts :=
  if g.nonneg then { lo := g.lo, kz := lowMask (trailingKnownZero g.kz) } else .top

/-- `SRA` by a constant. -/
def sraFacts (k : ℕ) (g : Facts) : Facts where
  lo := if unbLo g.lo then -kInf else g.lo / 2 ^ min k 126
  hi := if unbHi g.hi then kInf else g.hi / 2 ^ min k 126
  kz := if k < 64 then g.kz >>> k else 0
  ko := if k < 64 then g.ko >>> k else 0

def sraAnyFacts (g : Facts) : Facts := if g.nonneg then { lo := 0, hi := g.hi } else .top

def sextFacts (bits : ℕ) (g : Facts) : Facts :=
  let low := lowMask (min (bits - 1) 64)
  let f : Facts := {
    lo := -2 ^ (bits - 1)
    hi := 2 ^ (bits - 1) - 1
    kz := g.kz &&& low
    ko := g.ko &&& low }
  if g.lo ≥ f.lo ∧ g.hi ≤ f.hi then f.meet g else f

/-- A result of 0 or 1. -/
def boolFacts : Facts := { lo := 0, hi := 1 }

def popcountFacts (w : Option ℤ) : Facts := match w with
  | some w => if 0 ≤ w then { lo := 0, hi := w } else { lo := 0 }
  | none => { lo := 0 }

def divFacts (c : ℤ) (g : Facts) : Facts :=
  { lo := if unbLo g.lo then -kInf else g.lo.tdiv c,
    hi := if unbHi g.hi then kInf else g.hi.tdiv c }

def remFacts (c : ℤ) (g : Facts) : Facts :=
  let m := |c| - 1
  let hi := if g.hi < 0 then 0 else m
  { lo := if 0 ≤ g.lo then 0 else -m, hi := if g.nonneg then min hi g.hi else hi }

section

variable {g : Facts} {x : ℤ}

lemma KzOk.shiftRight {kz : BitVec 64} (h : KzOk kz x) (l : ℕ) :
    KzOk (if l < 64 then kz >>> l else 0) (x / 2 ^ l) := by
  intro i hi
  split at hi
  · rw [getLsbD_ushiftRight] at hi
    rw [testBit_shiftRight]
    exact h _ hi
  · simp at hi

lemma KoOk.shiftRight {ko : BitVec 64} (h : KoOk ko x) (l : ℕ) :
    KoOk (if l < 64 then ko >>> l else 0) (x / 2 ^ l) := by
  intro i hi
  split at hi
  · rw [getLsbD_ushiftRight] at hi
    rw [testBit_shiftRight]
    exact h _ hi
  · simp at hi

lemma getMaskFacts_sound (l : ℕ) {h : ℕ} (hg : g.Sound x) :
    (getMaskFacts l h g).Sound (window x l (h - l)) := by
  have hinf := kInf_pos
  have hkz : KzOk ((if l < 64 then g.kz >>> l else 0) ||| ~~~lowMask (min (h - l) 200))
      (window x l (h - l)) := by
    intro i hi
    rw [getLsbD_or, or_eq_true] at hi
    rw [testBit_window]
    rcases hi with hi | hi
    · have := hg.kz.shiftRight l i hi
      rw [testBit_shiftRight] at this
      simp [this]
    · rw [getLsbD_not, getLsbD_lowMask] at hi
      have : ¬i < h - l := by grind
      simp [this]
  have hko : KoOk ((if l < 64 then g.ko >>> l else 0) &&& lowMask (min (h - l) 200))
      (window x l (h - l)) := by
    intro i hi
    rw [getLsbD_and, and_eq_true, getLsbD_lowMask] at hi
    have := hg.ko.shiftRight l i hi.1
    rw [testBit_shiftRight] at this
    rw [testBit_window]
    grind
  have h0 := window_nonneg x l (h - l)
  unfold getMaskFacts
  simp only
  split
  next hc =>
    simp only [and_eq_true, decide_eq_true_eq] at hc
    obtain ⟨⟨⟨hnn, hhi⟩, -⟩, htop⟩ := hc
    have hx0 := hg.nonneg hnn
    have hxhi := hg.hi hhi
    simp only [Facts.nonneg, decide_eq_true_eq] at hnn
    have hdiv := Int.ediv_le_ediv (two_pow_pos l) hxhi
    have hwin : window x l (h - l) = x / 2 ^ l := by
      have hlt : g.hi / 2 ^ l < kInf := lt_of_le_of_lt (Int.ediv_le_self _ (by omega)) hhi
      exact Int.emod_eq_of_lt (Int.ediv_nonneg hx0 (two_pow_pos l).le)
        (lt_of_le_of_lt hdiv (lt_two_pow_of_le_maskW (maskW_min (h - l) ▸ htop) hlt))
    have hlo := Int.ediv_le_ediv (two_pow_pos l) (hg.lo (by omega))
    refine ⟨.of_le (hlo.trans_eq hwin.symm), .of_le (hwin.le.trans hdiv), hkz, hko, ?_, ?_⟩
    · exact lt_of_le_of_lt (Int.ediv_le_self _ hnn) hg.range.lo
    · show -kInf < g.hi / 2 ^ l
      omega
  · refine ⟨.of_le h0, ?_, hkz, hko, hinf, lt_maskW _⟩
    rw [maskW_min]
    exact .maskW (window_lt _ _ _)

lemma getLsbD_writeWindow (l h i : ℕ) :
    (writeWindow l h).getLsbD i = (decide (i < 64) && decide (l ≤ i ∧ i < h)) := by
  unfold writeWindow
  split
  · rw [getLsbD_and, getLsbD_not, getLsbD_lowMask, getLsbD_lowMask]
    grind
  split
  · rw [getLsbD_not, getLsbD_lowMask]
    grind
  · grind

/-- A mask through a written window. -/
lemma getLsbD_write {ma mv : BitVec 64} {l h i : ℕ} (hi : ((ma &&& ~~~writeWindow l h) |||
      (if l < 64 then (mv <<< l) &&& writeWindow l h else 0)).getLsbD i = true) :
    if l ≤ i ∧ i < h then mv.getLsbD (i - l) = true else ma.getLsbD i = true := by
  rw [getLsbD_or, getLsbD_and, getLsbD_not] at hi
  split at hi
  · rw [getLsbD_and, getLsbD_writeWindow] at hi
    grind
  · grind

lemma setMaskFacts_sound {l h : ℕ} (hlh : l ≤ h) {ga gv : Facts} {a v : ℤ} (ha : ga.Sound a)
    (hv : gv.Sound v) : (setMaskFacts l h ga gv).Sound (splice a l (h - l) v) := by
  have hkz : KzOk ((ga.kz &&& ~~~writeWindow l h) |||
      (if l < 64 then (gv.kz <<< l) &&& writeWindow l h else 0)) (splice a l (h - l) v) := by
    intro i hi
    have := getLsbD_write hi
    rw [testBit_splice]
    split
    · exact hv.kz _ (by rwa [if_pos (by omega)] at this)
    · exact ha.kz _ (by rwa [if_neg (by omega)] at this)
  have hko : KoOk ((ga.ko &&& ~~~writeWindow l h) |||
      (if l < 64 then (gv.ko <<< l) &&& writeWindow l h else 0)) (splice a l (h - l) v) := by
    intro i hi
    have := getLsbD_write hi
    rw [testBit_splice]
    split
    · exact hv.ko _ (by rwa [if_pos (by omega)] at this)
    · exact ha.ko _ (by rwa [if_neg (by omega)] at this)
  unfold setMaskFacts
  simp only
  split
  next hc =>
    simp only [and_eq_true, decide_eq_true_eq] at hc
    have h0 := ha.nonneg hc.1
    have hlt := lt_of_le_of_lt (ha.hi hc.2) lt_two_pow_bitlen
    have hhi : ∀ i, max (bitlen ga.hi) h ≤ i → (splice a l (h - l) v).testBit i = false := by
      intro i hi
      rw [testBit_splice, if_neg (by omega)]
      exact (lt_two_pow_iff h0).1 hlt i (by omega)
    have hs0 := nonneg_of_testBit hhi
    exact ⟨.of_le hs0, .maskW ((lt_two_pow_iff hs0).2 hhi), hkz, hko, kInf_pos, lt_maskW _⟩
  · exact Facts.sound_of_masks hkz hko

lemma shlFacts_sound {k : ℕ} (hg : g.Sound x) (hr : g.Rounds k x) :
    (shlFacts k g).Sound (x * 2 ^ k) where
  lo := by
    unfold shlFacts
    split
    · exact loOk_unbounded
    next hn => exact .shlDn (hg.lo (by simpa [unbLo] using hn)) hr.lo
  hi := by
    unfold shlFacts
    simp only
    split
    · exact hiOk_unbounded
    next hn => exact .shlUp (hg.hi (by simpa [unbHi] using hn)) hr.hi
  kz i hi := by
    rw [testBit_shiftLeft]
    by_cases hki : k ≤ i
    · have hbit : g.kz.getLsbD (i - k) = true := by
        simp only [shlFacts] at hi
        split at hi
        · rw [getLsbD_or, getLsbD_lowMask] at hi
          grind
        · have := lt_of_getLsbD hi
          omega
      simp [hg.kz _ hbit]
    · simp [hki]
  ko i hi := by
    simp only [shlFacts] at hi
    split at hi
    · rw [testBit_shiftLeft, hg.ko (i - k) (by grind)]
      grind
    · simp at hi
  range := by
    have := kInf_pos
    unfold shlFacts
    constructor
    · simp only
      split
      · omega
      · exact shlDn_lt _ _
    · simp only
      split
      · omega
      · exact lt_shlUp _ _

lemma Facts.refine_of_unbounded {f : Facts} (h : f.lo ≤ f.hi)
    (hu : f.lo < 0 ∨ kInf ≤ f.hi) : f.refine = f := by
  rw [refine, if_neg (by omega), if_neg (by omega)]

/-- The facts of a constant shift are right exactly when it is rounded the right way. -/
lemma shlFacts_refine_sound_iff {k : ℕ} (hg : g.Sound x) :
    (shlFacts k g).refine.Sound (x * 2 ^ k) ↔ g.Rounds k x := by
  have hinf := kInf_pos
  refine ⟨fun h => ⟨fun hpos hsat => ?_, fun hneg hsat => ?_⟩,
    fun hr => Facts.refine_sound (shlFacts_sound hg hr)⟩
  · have hx := hg.lo (by omega)
    have hlo : (shlFacts k g).lo = kInf - 1 := by
      rw [shlFacts, unbLo, if_neg (by simpa using (by omega : -kInf < g.lo)), shlDn,
        if_neg hpos.ne', if_pos hsat, if_neg (by omega)]
    -- the upper bound saturates too
    have hhi : (shlFacts k g).hi = kInf := by
      rw [shlFacts]
      by_cases hu : unbHi g.hi = true
      · exact if_pos hu
      · have hle := hg.hi (by simpa [unbHi] using hu)
        have hmono := bitlen_mono (hx.trans hle)
        rw [abs_of_pos hpos] at hsat
        refine (if_neg hu).trans ?_
        rw [shlUp, if_neg (by omega), if_pos (by rw [abs_of_pos (by omega)]; omega),
          if_neg (by omega)]
    rw [Facts.refine_of_unbounded (by omega) (by omega)] at h
    exact hlo ▸ h.lo (by omega)
  · have hx := hg.hi (by omega)
    have hhi : (shlFacts k g).hi = -kInf + 1 := by
      rw [shlFacts, unbHi]
      refine (if_neg (by simpa using (by omega : g.hi < kInf))).trans ?_
      rw [shlUp, if_neg hneg.ne, if_pos hsat, if_pos hneg]
    have hlo : (shlFacts k g).lo = -kInf := by
      rw [shlFacts]
      by_cases hu : unbLo g.lo = true
      · exact if_pos hu
      · have hle := hg.lo (by simpa [unbLo] using hu)
        have hmono := bitlen_mono (neg_le_neg (hle.trans hx))
        rw [abs_of_neg hneg] at hsat
        refine (if_neg hu).trans ?_
        rw [shlDn, if_neg (by omega), if_pos (by rw [abs_of_neg (by omega)]; omega),
          if_pos (by omega)]
    rw [Facts.refine_of_unbounded (by omega) (by omega)] at h
    exact hhi ▸ h.hi (by omega)

lemma shlAnyFacts_sound (k : ℕ) (hg : g.Sound x) : (shlAnyFacts g).Sound (x * 2 ^ k) := by
  have := kInf_pos
  unfold shlAnyFacts
  split
  next hnn =>
    have h0 := hg.nonneg hnn
    simp only [Facts.nonneg, decide_eq_true_eq] at hnn
    have hlo := hg.lo (by omega)
    refine ⟨.of_le (hlo.trans (le_mul_of_one_le_right h0 ?_)), hiOk_unbounded,
      KzOk.of_dvd (Dvd.dvd.mul_right hg.kz.dvd _), koOk_zero,
        hg.range.lo, by show -kInf < kInf; omega⟩
    exact one_le_pow₀ (by norm_num)
  · exact Facts.top_sound

/-- Shifting by more than 126 bits leaves only the sign of a bound. -/
lemma ediv_min_le {b : ℤ} (hx : b ≤ x) (hlo : -kInf ≤ b) (hhi : b < kInf) (k : ℕ) :
    b / 2 ^ min k 126 ≤ x / 2 ^ k := by
  rcases le_total k 126 with hk | hk
  · rw [min_eq_left hk]
    exact Int.ediv_le_ediv (two_pow_pos k) hx
  · rw [min_eq_right hk]
    have h126 : kInf < 2 ^ 126 := by norm_num [kInf]
    have hpow : (2 : ℤ) ^ 126 ≤ 2 ^ k := pow_le_pow_right₀ (by norm_num) hk
    rcases le_or_gt 0 b with hb | hb
    · rw [Int.ediv_eq_zero_of_lt hb (by omega)]
      exact Int.ediv_nonneg (hb.trans hx) (two_pow_pos k).le
    · calc b / 2 ^ 126 ≤ -1 := by
            omega
        _ ≤ x / 2 ^ k := (Int.le_ediv_iff_mul_le (two_pow_pos k)).2 (by omega)

lemma le_ediv_min {b : ℤ} (hx : x ≤ b) (hlo : -kInf < b) (hhi : b < kInf) (k : ℕ) :
    x / 2 ^ k ≤ b / 2 ^ min k 126 := by
  -- floor division and complement commute: `-(y / m) - 1 = (-y - 1) / m`
  have hneg : ∀ y m : ℤ, 0 < m → -(y / m) - 1 = (-y - 1) / m := by
    intro y m hm
    have h1 := Int.emod_nonneg y hm.ne'
    have h2 := Int.emod_lt_of_pos y hm
    have h3 := Int.mul_ediv_add_emod y m
    symm
    rw [Int.ediv_eq_iff_of_pos hm]
    constructor <;> linarith
  have h := ediv_min_le (x := -x - 1) (b := -b - 1) (by omega) (by omega) (by omega) k
  rw [← hneg _ _ (two_pow_pos _), ← hneg _ _ (two_pow_pos _)] at h
  omega

lemma ediv_lt_kInf {b : ℤ} (h : b < kInf) (k : ℕ) : b / 2 ^ k < kInf := by
  have := kInf_pos
  rcases le_or_gt 0 b with hb | hb
  · exact lt_of_le_of_lt (Int.ediv_le_self _ hb) h
  · exact (Int.ediv_neg_of_neg_of_pos hb (two_pow_pos k)).trans this

lemma lt_ediv_kInf {b : ℤ} (h : -kInf < b) (k : ℕ) : -kInf < b / 2 ^ k := by
  have hpos := two_pow_pos k
  refine lt_of_lt_of_le (show -kInf < -(kInf - 1) by omega) ?_
  rw [Int.le_ediv_iff_mul_le hpos]
  have : -(kInf - 1) * 2 ^ k ≤ -(kInf - 1) * 1 := by
    refine mul_le_mul_of_nonpos_left (by omega) ?_
    have := kInf_pos
    omega
  omega

lemma sraFacts_sound (k : ℕ) (hg : g.Sound x) : (sraFacts k g).Sound (x / 2 ^ k) where
  lo := by
    unfold sraFacts
    split
    · exact loOk_unbounded
    next hn =>
      have hlo : -kInf < g.lo := by simpa [unbLo] using hn
      exact .of_le (ediv_min_le (hg.lo hlo) hlo.le hg.range.lo k)
  hi := by
    unfold sraFacts
    simp only
    split
    · exact hiOk_unbounded
    next hn =>
      have hhi : g.hi < kInf := by simpa [unbHi] using hn
      exact .of_le (le_ediv_min (hg.hi hhi) hg.range.hi hhi k)
  kz := hg.kz.shiftRight k
  ko := hg.ko.shiftRight k
  range := by
    have := kInf_pos
    unfold sraFacts
    constructor
    · simp only
      split
      · omega
      · exact ediv_lt_kInf hg.range.lo _
    · simp only
      split
      · omega
      · exact lt_ediv_kInf hg.range.hi _

lemma sraAnyFacts_sound (k : ℕ) (hg : g.Sound x) : (sraAnyFacts g).Sound (x / 2 ^ k) := by
  unfold sraAnyFacts
  split
  next hnn =>
    have h0 := hg.nonneg hnn
    exact ⟨.of_le (Int.ediv_nonneg h0 (two_pow_pos k).le),
      fun hlt => (Int.ediv_le_self _ h0).trans (hg.hi hlt), kzOk_zero,
        koOk_zero, kInf_pos, hg.range.hi⟩
  · exact Facts.top_sound

lemma sextFacts_sound {b : ℕ} (hb : 1 ≤ b) (hb' : b ≤ 98) (hg : g.Sound x) :
    (sextFacts b g).Sound (sext x b) := by
  have hpow : (2 : ℤ) ^ (b - 1) < kInf := pow_lt_pow_right₀ (by norm_num) (by omega)
  have hpos := two_pow_pos (b - 1)
  have hlow : ∀ i, (lowMask (min (b - 1) 64)).getLsbD i = true →
      (sext x b).testBit i = x.testBit i := by
    intro i hi
    rw [getLsbD_lowMask] at hi
    rw [testBit_sext x hb, min_eq_left (by grind)]
  have hf : Facts.Sound {
      lo := -2 ^ (b - 1)
      hi := 2 ^ (b - 1) - 1
      kz := g.kz &&& lowMask (min (b - 1) 64)
      ko := g.ko &&& lowMask (min (b - 1) 64) } (sext x b) := by
    refine ⟨.of_le (sext_lower x b), .of_le (Int.le_sub_one_of_lt (sext_upper x hb)), ?_, ?_,
      by show -2 ^ (b - 1) < kInf; omega, by show -kInf < 2 ^ (b - 1) - 1; omega⟩
    · intro i hi
      rw [getLsbD_and, and_eq_true] at hi
      rw [hlow i hi.2]
      exact hg.kz i hi.1
    · intro i hi
      rw [getLsbD_and, and_eq_true] at hi
      rw [hlow i hi.2]
      exact hg.ko i hi.1
  unfold sextFacts
  simp only
  split
  next hfit =>
    have hlo := hg.lo (by omega)
    have hhi := hg.hi (by omega)
    have hx : sext x b = x := sext_of_bounds hb (by omega) (by omega)
    rw [hx] at hf ⊢
    exact Facts.meet_sound hf hg
  · exact hf

lemma boolFacts_sound (b : Bool) : boolFacts.Sound (Cell.flag b) := by
  refine ⟨.of_le ?_, .of_le ?_, kzOk_zero, koOk_zero, kInf_pos, by show -kInf < 1; norm_num [kInf]⟩
  · cases b <;> simp [boolFacts, Cell.flag]
  · cases b <;> simp [boolFacts, Cell.flag]

lemma popcountFacts_sound {w : Option ℤ} {v : ℤ} (h0 : 0 ≤ v)
    (hw : ∀ k, w = some k → isI64 k = true ∧ v ≤ k) :
    (popcountFacts w).Sound v := by
  have := kInf_pos
  unfold popcountFacts
  split
  next k =>
    obtain ⟨hk, hv⟩ := hw k rfl
    split
    · exact ⟨.of_le h0, .of_le hv, kzOk_zero, koOk_zero, kInf_pos, by show -kInf < k; omega⟩
    · exact ⟨.of_le h0, hiOk_unbounded, kzOk_zero, koOk_zero, kInf_pos, by show -kInf < kInf; omega⟩
  · exact ⟨.of_le h0, hiOk_unbounded, kzOk_zero, koOk_zero, kInf_pos, by show -kInf < kInf; omega⟩

lemma divFacts_sound {c : ℤ} (hc : 0 < c) (hg : g.Sound x) : (divFacts c g).Sound (x.tdiv c) := by
  have hinf := kInf_pos
  refine ⟨?_, ?_, kzOk_zero, koOk_zero, ?_, ?_⟩
  · unfold divFacts
    split
    · exact loOk_unbounded
    next hn => exact .of_le (Int.tdiv_le_tdiv hc (hg.lo (by simpa [unbLo] using hn)))
  · unfold divFacts
    simp only
    split
    · exact hiOk_unbounded
    next hn => exact .of_le (Int.tdiv_le_tdiv hc (hg.hi (by simpa [unbHi] using hn)))
  · unfold divFacts
    simp only
    split
    · omega
    next hn =>
      have habs := abs_tdiv_le g.lo c
      have hlo : -kInf < g.lo := by simpa [unbLo] using hn
      have hlt := abs_lt.2 ⟨hlo, hg.range.lo⟩
      exact (abs_lt.1 (habs.trans_lt hlt)).2
  · unfold divFacts
    simp only
    split
    · omega
    next hn =>
      have habs := abs_tdiv_le g.hi c
      have hhi : g.hi < kInf := by simpa [unbHi] using hn
      have hlt := abs_lt.2 ⟨hg.range.hi, hhi⟩
      exact (abs_lt.1 (habs.trans_lt hlt)).1

lemma remFacts_sound {c : ℤ} (hc : c ≠ 0) (hg : g.Sound x) :
    (remFacts c g).Sound (x.tmod c) := by
  have hinf : (2 : ℤ) ^ 64 < kInf := by norm_num [kInf]
  have habs := abs_le.1 (abs_tmod_le hc x)
  have hr := hg.range
  have hle : HiOk (if g.hi < 0 then 0 else |c| - 1) (x.tmod c) := by
    split
    next hneg =>
      have := hg.hi (by omega)
      exact .of_le (tmod_nonpos c (by omega))
    · exact .of_le habs.2
  refine ⟨?_, ?_, kzOk_zero, koOk_zero, ?_, ?_⟩
  · unfold remFacts
    simp only
    split
    · have := hg.lo (by omega)
      exact .of_le (Int.tmod_nonneg c (by omega))
    · exact .of_le habs.1
  · unfold remFacts
    simp only
    split
    next hnn =>
      have hle' := tmod_le_self c (hg.nonneg hnn)
      have hhi := hg.hi
      unfold HiOk at *
      omega
    · exact hle
  · unfold remFacts
    simp only
    split <;> omega
  · unfold remFacts
    simp only
    split
    · exact lt_min (by split <;> omega) hr.hi
    · split <;> omega

end

end LiveHD.Aegraph
