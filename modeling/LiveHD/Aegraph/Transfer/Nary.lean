import LiveHD.Aegraph.Facts
import LiveHD.Graph.Cell

/-!
# Transfer functions of the n-ary operators

The operator cases of `node_facts`, each on the facts of its operands, and that each is
sound: operands that satisfy their facts give a result that satisfies the computed one.
Here the operators that loop over any number of operands.
-/

namespace LiveHD.Aegraph

open IntBits List Bool Cell Facts Int

/-! ## Sums and products -/

/-- The running bounds of a `Sum` or `Mult`, and its known trailing zeros. -/
structure Acc where
  lo : ℤ
  hi : ℤ
  tz : ℕ
deriving DecidableEq

def Acc.facts (acc : Acc) : Facts := { lo := acc.lo, hi := acc.hi, kz := lowMask acc.tz }

def sumStep (acc : Acc) (o : ℕ × Facts) : Acc :=
  let tz := min acc.tz (trailingKnownZero o.2.kz)
  if o.1 = 0 then ⟨loAdd acc.lo o.2.lo, hiAdd acc.hi o.2.hi, tz⟩
  else ⟨loSub acc.lo o.2.hi, hiSub acc.hi o.2.lo, tz⟩

def sumFacts (gs : List (ℕ × Facts)) : Facts := (gs.foldl sumStep ⟨0, 0, 64⟩).facts

def multStep (acc : Acc) (g : Facts) : Acc :=
  let r := multRange acc.lo acc.hi g.lo g.hi
  ⟨r.1, r.2, min 64 (acc.tz + trailingKnownZero g.kz)⟩

def multFacts (gs : List Facts) : Facts := (gs.foldl multStep ⟨1, 1, 0⟩).facts

/-- The running bounds hold of a partial result. -/
structure Acc.Sound (acc : Acc) (v : ℤ) : Prop where
  lo : LoOk acc.lo v
  hi : HiOk acc.hi v
  tz : 2 ^ acc.tz ∣ v
  range : acc.lo < kInf ∧ -kInf < acc.hi

variable {v : ℤ}

lemma KzOk.dvd {kz : BitVec 64} (h : KzOk kz v) : 2 ^ trailingKnownZero kz ∣ v :=
  dvd_two_pow_iff.2 fun i hi => h i (getLsbD_of_lt_trailing hi)

lemma KzOk.of_dvd {n : ℕ} (h : 2 ^ n ∣ v) : KzOk (lowMask n) v := by
  intro i hi
  rw [getLsbD_lowMask] at hi
  exact dvd_two_pow_iff.1 h i (by grind)

lemma koOk_zero : KoOk 0 v := fun i hi => by simp at hi

lemma kzOk_zero : KzOk 0 v := fun i hi => by simp at hi

variable {acc : Acc}

lemma Acc.Sound.facts (h : acc.Sound v) : acc.facts.Sound v :=
  ⟨h.lo, h.hi, .of_dvd h.tz, koOk_zero, h.range.1, h.range.2⟩

lemma Acc.sound_const {n : ℕ} (h : |v| < kInf) (hn : 2 ^ n ∣ v) : (⟨v, v, n⟩ : Acc).Sound v :=
  ⟨.of_le le_rfl, .of_le le_rfl, hn, (abs_lt.1 h).2, (abs_lt.1 h).1⟩

/-- The signed summand of a bank. -/
def summand (a : ℕ × ℤ) : ℤ := if a.1 = 0 then a.2 else -a.2

lemma sum_summand (l : List (ℕ × ℤ)) :
    (l.map summand).sum = (bank l (· == 0)).sum - (bank l (· != 0)).sum := by
  induction l with
  | nil => simp
  | cons a l ih =>
    obtain ⟨b, x⟩ := a
    rw [map_cons, sum_cons, ih]
    by_cases hb : b = 0
    · simp [summand, hb]
      ring
    · simp [summand, hb]
      ring

/-- Facts and values of the same operands. -/
def Operands (gs : List (ℕ × Facts)) (l : List (ℕ × ℤ)) : Prop :=
  Forall₂ (fun g a => g.1 = a.1 ∧ g.2.Sound a.2) gs l

lemma sumStep_sound (h : acc.Sound v) {g : ℕ × Facts} {a : ℕ × ℤ} (hb : g.1 = a.1)
    (hg : g.2.Sound a.2) : (sumStep acc g).Sound (v + summand a) := by
  have hacc : 2 ^ min acc.tz (trailingKnownZero g.2.kz) ∣ v :=
    (pow_dvd_pow 2 (min_le_left _ _)).trans h.tz
  have hop : 2 ^ min acc.tz (trailingKnownZero g.2.kz) ∣ a.2 :=
    (pow_dvd_pow 2 (min_le_right _ _)).trans hg.kz.dvd
  unfold sumStep summand
  simp only [hb]
  split
  · exact ⟨h.lo.add hg.lo, h.hi.add hg.hi, dvd_add hacc hop, loAdd_lt _ _, lt_hiAdd _ _⟩
  · exact ⟨h.lo.sub hg.hi, h.hi.sub hg.lo, dvd_sub hacc hop, loSub_lt _ _, lt_hiSub _ _⟩

section

variable {gs : List (ℕ × Facts)} {l : List (ℕ × ℤ)} (hl : Operands gs l)
include hl

lemma foldl_sumStep_sound (h : acc.Sound v) :
    (gs.foldl sumStep acc).Sound (v + (l.map summand).sum) := by
  induction hl generalizing acc v with
  | nil => simpa using h
  | cons hg _ ih =>
    rw [map_cons, sum_cons, ← add_assoc]
    exact ih (sumStep_sound h hg.1 hg.2)

lemma sumFacts_sound : (sumFacts gs).Sound ((bank l (· == 0)).sum - (bank l (· != 0)).sum) := by
  have h := foldl_sumStep_sound hl (Acc.sound_const (by simpa using kInf_pos) (dvd_zero (2 ^ 64)))
  rw [zero_add, sum_summand] at h
  exact h.facts

end

variable {x : ℤ} {g : Facts}

lemma multStep_sound (h : acc.Sound v) (hg : g.Sound x) : (multStep acc g).Sound (v * x) := by
  obtain ⟨hlo, hhi⟩ := multRange_sound h.lo h.hi hg.lo hg.hi
  refine ⟨hlo, hhi, (pow_dvd_pow 2 (min_le_right _ _)).trans ?_, multRange_inRange _ _ _ _⟩
  rw [pow_add]
  exact mul_dvd_mul h.tz hg.kz.dvd

lemma multFacts_sound {gs : List Facts} {xs : List ℤ} (h : Forall₂ Facts.Sound gs xs) :
    (multFacts gs).Sound xs.prod := by
  have key : ∀ acc v, Acc.Sound acc v → (gs.foldl multStep acc).Sound (v * xs.prod) := by
    induction h with
    | nil => simp
    | cons hg _ ih =>
      intro acc v hacc
      rw [prod_cons, ← mul_assoc]
      exact ih _ _ (multStep_sound hacc hg)
  have := key _ _ (Acc.sound_const (v := 1) (n := 0) (by norm_num [kInf]) (by simp))
  rw [one_mul] at this
  exact this.facts

/-! ## Bitwise operators -/

variable (m : Facts → BitVec 64) (gs : List Facts)

/-- The masks of a list of facts, combined. -/
def orMasks : BitVec 64 := gs.foldl (fun a g => a ||| m g) 0

def andMasks : BitVec 64 :=
  gs.foldl (fun a g => a &&& m g) (BitVec.allOnes 64)

def xorMasks : BitVec 64 := gs.foldl (fun a g => a ^^^ m g) 0

variable (gs : List Facts)

def andFacts : Facts :=
  let cap := (gs.filter nonneg).foldl (fun c g => min c g.hi) kInf
  let magnitude := (gs.filter bounded).foldl (fun m g => max m (max g.hi (-g.lo - 1))) 0
  let limit : ℤ := 2 ^ bitlen magnitude
  let f : Facts := { kz := orMasks kz gs, ko := andMasks ko gs }
  if gs.any nonneg then { f with lo := 0, hi := cap }
  else if !gs.isEmpty && gs.all bounded then { f with lo := -limit, hi := limit - 1 }
  else f

/-- The operands of an `Or` or `Xor` are all non-negative and bounded. -/
def allNonneg : Bool := gs.all fun g => g.nonneg && decide (g.hi < kInf)

def orFacts : Facts :=
  let lo := gs.foldl (fun m g => max m g.lo) 0
  let hi := gs.foldl (fun m g => max m g.hi) 0
  let f : Facts := { kz := andMasks kz gs, ko := orMasks ko gs }
  if allNonneg gs then { f with lo := lo, hi := maskW (bitlen hi) } else f

def xorFacts : Facts :=
  let known := andMasks (fun g => g.kz ||| g.ko) gs
  let value := xorMasks ko gs
  let hi := gs.foldl (fun m g => max m g.hi) 0
  let f : Facts := { kz := known &&& ~~~value, ko := known &&& value }
  if allNonneg gs then { f with lo := 0, hi := maskW (bitlen hi) } else f

def notFacts (g : Facts) : Facts where
  lo := if unbHi g.hi then -kInf else dn (-g.hi - 1)
  hi := if unbLo g.lo then kInf else up (-g.lo - 1)
  kz := g.ko
  ko := g.kz

variable (m : Facts → BitVec 64) (gs : List Facts) (init : BitVec 64) (i : ℕ)

lemma getLsbD_foldl_or : (gs.foldl (fun a g => a ||| m g) init).getLsbD i =
    (init.getLsbD i || gs.any fun g => (m g).getLsbD i) := by
  induction gs generalizing init with
  | nil => simp
  | cons g gs ih => rw [foldl_cons, ih, BitVec.getLsbD_or, any_cons, Bool.or_assoc]

lemma getLsbD_foldl_and : (gs.foldl (fun a g => a &&& m g) init).getLsbD i =
    (init.getLsbD i && gs.all fun g => (m g).getLsbD i) := by
  induction gs generalizing init with
  | nil => simp
  | cons g gs ih => rw [foldl_cons, ih, BitVec.getLsbD_and, all_cons, Bool.and_assoc]

variable {m : Facts → BitVec 64} {gs : List Facts} {i : ℕ}

lemma getLsbD_orMasks : (orMasks m gs).getLsbD i = true ↔ ∃ g ∈ gs, (m g).getLsbD i = true := by
  simp [orMasks, getLsbD_foldl_or]

lemma getLsbD_andMasks (h : (andMasks m gs).getLsbD i = true) :
    ∀ g ∈ gs, (m g).getLsbD i = true := by
  simp only [andMasks, getLsbD_foldl_and, and_eq_true, all_eq_true] at h
  exact h.2

/-- Bounds a fold of `max` keeps. -/
lemma le_foldl_max {α : Type*} (f : α → ℤ) (gs : List α) (init : ℤ) :
    init ≤ gs.foldl (fun m g => max m (f g)) init ∧
      ∀ g ∈ gs, f g ≤ gs.foldl (fun m g => max m (f g)) init := by
  induction gs generalizing init with
  | nil => simp
  | cons g gs ih =>
    obtain ⟨h1, h2⟩ := ih (max init (f g))
    refine ⟨(le_max_left _ _).trans h1, ?_⟩
    intro g' hg'
    rcases mem_cons.1 hg' with rfl | hg'
    · exact (le_max_right _ _).trans h1
    · exact h2 g' hg'

lemma HiOk.foldl_min (gs : List Facts) (h : ∀ g ∈ gs, HiOk g.hi v) {init : ℤ} (hi : HiOk init v) :
    HiOk (gs.foldl (fun c g => min c g.hi) init) v := by
  induction gs generalizing init with
  | nil => exact hi
  | cons g gs ih =>
    obtain ⟨hg, hgs⟩ := forall_mem_cons.1 h
    refine ih hgs ?_
    show HiOk (min init g.hi) v
    unfold HiOk at *
    omega

lemma lt_foldl_min {b : ℤ} (gs : List Facts) (h : ∀ g ∈ gs, b < g.hi) {init : ℤ} (hi : b < init) :
    b < gs.foldl (fun c g => min c g.hi) init := by
  induction gs generalizing init with
  | nil => exact hi
  | cons g gs ih =>
    obtain ⟨hg, hgs⟩ := forall_mem_cons.1 h
    exact ih hgs (lt_min hi hg)

/-- A bound that no element exceeds, none in the fold exceeds. -/
lemma foldl_max_lt {α : Type*} {f : α → ℤ} {b : ℤ} (gs : List α) (h : ∀ g ∈ gs, f g < b) {init : ℤ}
    (hi : init < b) : gs.foldl (fun m g => max m (f g)) init < b := by
  induction gs generalizing init with
  | nil => exact hi
  | cons g gs ih =>
    obtain ⟨hg, hgs⟩ := forall_mem_cons.1 h
    exact ih hgs (max_lt hi hg)

lemma testBit_foldr_land (xs : List ℤ) (i : ℕ) :
    (xs.foldr land (-1)).testBit i = xs.all (·.testBit i) := by
  induction xs with
  | nil => simp
  | cons x xs ih => rw [foldr_cons, testBit_land, ih, all_cons]

lemma testBit_foldr_lor (xs : List ℤ) (i : ℕ) :
    (xs.foldr lor 0).testBit i = xs.any (·.testBit i) := by
  induction xs with
  | nil => simp
  | cons x xs ih => rw [foldr_cons, testBit_lor, ih, any_cons]

section

variable {gs : List Facts} {xs : List ℤ}

/-- Each value has a fact. -/
lemma exists_fact (h : Forall₂ Facts.Sound gs xs) (hx : x ∈ xs) : ∃ g ∈ gs, g.Sound x := by
  induction h with
  | nil => cases hx
  | cons hg _ ih =>
    rcases mem_cons.1 hx with rfl | hx
    · exact ⟨_, .head _, hg⟩
    · obtain ⟨g, hmem, hso⟩ := ih hx
      exact ⟨g, .tail _ hmem, hso⟩

/-- Each fact has a value. -/
lemma exists_value (h : Forall₂ Facts.Sound gs xs) (hg : g ∈ gs) : ∃ x ∈ xs, g.Sound x := by
  induction h with
  | nil => cases hg
  | cons hx _ ih =>
    rcases mem_cons.1 hg with rfl | hg
    · exact ⟨_, .head _, hx⟩
    · obtain ⟨x, hmem, hso⟩ := ih hg
      exact ⟨x, .tail _ hmem, hso⟩

lemma Facts.Sound.nonneg (h : g.Sound x) (hg : g.nonneg = true) : 0 ≤ x := by
  have := kInf_pos
  simp only [Facts.nonneg, decide_eq_true_eq] at hg
  exact hg.trans (h.lo (by omega))

/-- The conjunction is below each non-negative operand. -/
lemma foldr_land_le (hx : x ∈ xs) (h0 : 0 ≤ x) :
    0 ≤ xs.foldr land (-1) ∧ xs.foldr land (-1) ≤ x := by
  have hbit : ∀ i, (xs.foldr land (-1)).testBit i = true → x.testBit i = true := by
    intro i hi
    rw [testBit_foldr_land, all_eq_true] at hi
    exact hi x hx
  have hn : 0 ≤ xs.foldr land (-1) := by
    refine nonneg_of_testBit (n := bitlen x) fun i hi => ?_
    have := (lt_two_pow_iff h0).1 lt_two_pow_bitlen i hi
    by_contra hne
    rw [hbit i (by simpa using hne)] at this
    cases this
  exact ⟨hn, le_of_testBit hn h0 hbit⟩

lemma andFacts_sound (h : Forall₂ Facts.Sound gs xs) :
    (andFacts gs).Sound (xs.foldr land (-1)) := by
  have hinf := kInf_pos
  have hkz : KzOk (orMasks kz gs) (xs.foldr land (-1)) := by
    intro i hi
    obtain ⟨g, hg, hbit⟩ := getLsbD_orMasks.1 hi
    obtain ⟨x, hx, hso⟩ := exists_value h hg
    rw [testBit_foldr_land, all_eq_false]
    exact ⟨x, hx, by simp [hso.kz i hbit]⟩
  have hko : KoOk (andMasks ko gs) (xs.foldr land (-1)) := by
    intro i hi
    rw [testBit_foldr_land, all_eq_true]
    intro x hx
    obtain ⟨g, hg, hso⟩ := exists_fact h hx
    exact hso.ko i (getLsbD_andMasks hi g hg)
  unfold andFacts
  split
  next hany =>
    obtain ⟨g, hg, hnn⟩ := any_eq_true.1 hany
    obtain ⟨x, hx, hso⟩ := exists_value h hg
    refine ⟨.of_le (foldr_land_le hx (hso.nonneg hnn)).1, ?_, hkz, hko, kInf_pos, ?_⟩
    rotate_left
    · refine lt_foldl_min _ (fun g hg => ?_) (by omega)
      obtain ⟨x, -, hso⟩ := exists_value h (mem_filter.1 hg).1
      exact hso.range.hi
    refine .foldl_min _ ?_ hiOk_unbounded
    intro g' hg' hlt
    obtain ⟨hmem, hnn'⟩ := mem_filter.1 hg'
    obtain ⟨x', hx', hso'⟩ := exists_value h hmem
    exact (foldr_land_le hx' (hso'.nonneg hnn')).2.trans (hso'.hi hlt)
  split
  next hbo =>
    rw [and_eq_true, all_eq_true] at hbo
    -- every operand fits the same two's complement width
    set n := bitlen ((gs.filter bounded).foldl (fun m g => max m (max g.hi (-g.lo - 1))) 0)
    have hfit : ∀ x ∈ xs, -2 ^ n ≤ x ∧ x < 2 ^ n := by
      intro x hx
      obtain ⟨g, hg, hso⟩ := exists_fact h hx
      have hb := hbo.2 g hg
      have hmax := (le_foldl_max (fun g : Facts => max g.hi (-g.lo - 1)) (gs.filter bounded) 0).2 g
        (mem_filter.2 ⟨hg, hb⟩)
      simp only [bounded, and_eq_true, decide_eq_true_eq] at hb
      have hlt := lt_of_le_of_lt hmax lt_two_pow_bitlen
      have hlo := hso.lo hb.1
      have hhi := hso.hi hb.2
      change max g.hi (-g.lo - 1) < 2 ^ n at hlt
      omega
    have hsi : ∀ i, n ≤ i → (xs.foldr land (-1)).testBit i = xs.all fun x => decide (x < 0) := by
      intro i hi
      rw [testBit_foldr_land, Bool.eq_iff_iff, all_eq_true, all_eq_true]
      refine forall₂_congr fun x hx => ?_
      rw [testBit_of_bounds (hfit x hx).1 (hfit x hx).2 hi]
    obtain ⟨hlo, hhi⟩ := bounds_of_testBit hsi
    exact ⟨.of_le hlo, .of_le (le_sub_one_of_lt hhi), hkz, hko,
      by
        have := two_pow_pos n; show -2 ^ n <
          kInf; omega, by have := two_pow_pos n; show -kInf < 2 ^ n - 1; omega⟩
  · exact sound_of_masks hkz hko

lemma allNonneg_iff : allNonneg gs = true ↔ ∀ g ∈ gs, g.nonneg = true ∧ g.hi < kInf := by
  simp [allNonneg]

/-- Non-negative operands are below the power of two above their bounds. -/
lemma lt_of_allNonneg (h : Forall₂ Facts.Sound gs xs) (hnn : allNonneg gs = true)
    (hx : x ∈ xs) : 0 ≤ x ∧ x < 2 ^ bitlen (gs.foldl (fun m g => max m g.hi) 0) := by
  obtain ⟨g, hg, hso⟩ := exists_fact h hx
  obtain ⟨h0, hhi⟩ := allNonneg_iff.1 hnn g hg
  have := (le_foldl_max hi gs 0).2 g hg
  exact ⟨hso.nonneg h0, lt_of_le_of_lt ((hso.hi hhi).trans this) lt_two_pow_bitlen⟩

lemma orFacts_sound (h : Forall₂ Facts.Sound gs xs) : (orFacts gs).Sound (xs.foldr lor 0) := by
  have hkz : KzOk (andMasks kz gs) (xs.foldr lor 0) := by
    intro i hi
    rw [testBit_foldr_lor, any_eq_false]
    intro x hx
    obtain ⟨g, hg, hso⟩ := exists_fact h hx
    simp [hso.kz i (getLsbD_andMasks hi g hg)]
  have hko : KoOk (orMasks ko gs) (xs.foldr lor 0) := by
    intro i hi
    obtain ⟨g, hg, hbit⟩ := getLsbD_orMasks.1 hi
    obtain ⟨x, hx, hso⟩ := exists_value h hg
    rw [testBit_foldr_lor, any_eq_true]
    exact ⟨x, hx, hso.ko i hbit⟩
  unfold orFacts
  split
  next hnn =>
    have hhi : ∀ i, bitlen (gs.foldl (fun m g => max m g.hi) 0) ≤ i →
        (xs.foldr lor 0).testBit i = false := by
      intro i hi
      rw [testBit_foldr_lor, any_eq_false]
      intro x hx
      obtain ⟨h0, hlt⟩ := lt_of_allNonneg h hnn hx
      simp [(lt_two_pow_iff h0).1 hlt i hi]
    have h0 := nonneg_of_testBit hhi
    have hle : ∀ x ∈ xs, x ≤ xs.foldr lor 0 := by
      intro x hx
      refine le_of_testBit (lt_of_allNonneg h hnn hx).1 h0 fun i hi => ?_
      rw [testBit_foldr_lor, any_eq_true]
      exact ⟨x, hx, hi⟩
    refine ⟨.of_le (le_of_lt_add_one ?_), .maskW ((lt_two_pow_iff h0).2 hhi), hkz, hko,
      foldl_max_lt gs ?_ kInf_pos, lt_maskW _⟩
    · refine foldl_max_lt gs (fun g hg => lt_add_one_of_le ?_) (lt_add_one_of_le h0)
      obtain ⟨x, hx, hso⟩ := exists_value h hg
      have hinf := kInf_pos
      have hg0 := (allNonneg_iff.1 hnn g hg).1
      simp only [nonneg, decide_eq_true_eq] at hg0
      exact (hso.lo (by omega)).trans (hle x hx)
    · intro g hg
      obtain ⟨x, -, hso⟩ := exists_value h hg
      exact hso.range.lo
  · exact sound_of_masks hkz hko

/-- Where every operand's bit is known, the known ones give the bit of the `Xor`. -/
lemma getLsbD_xorMasks {i : ℕ} (h : Forall₂ Facts.Sound gs xs)
    (hk : ∀ g ∈ gs, (g.kz ||| g.ko).getLsbD i = true) :
    (xorMasks ko gs).getLsbD i = (xs.foldr Int.xor 0).testBit i := by
  have key : ∀ init : BitVec 64, (gs.foldl (fun a g => a ^^^ g.ko) init).getLsbD i =
      (init.getLsbD i ^^ (xs.foldr Int.xor 0).testBit i) := by
    induction h with
    | nil => simp
    | @cons g x gs xs hg _ ih =>
      obtain ⟨hgi, hgs⟩ := forall_mem_cons.1 hk
      intro init
      have hbit : g.ko.getLsbD i = x.testBit i := by
        rw [BitVec.getLsbD_or, or_eq_true] at hgi
        rcases hgi with hz | ho
        · cases hko : g.ko.getLsbD i with
          | false => rw [hg.kz i hz]
          | true => exact (hg.ko i hko).symm
        · rw [ho, hg.ko i ho]
      rw [foldl_cons, ih hgs, BitVec.getLsbD_xor, foldr_cons, testBit_lxor, hbit, Bool.xor_assoc]
  rw [xorMasks, key]
  simp

lemma testBit_foldr_xor_of_high {n : ℕ} (h : ∀ x ∈ xs, ∀ i, n ≤ i → x.testBit i = false) :
    ∀ i, n ≤ i → (xs.foldr Int.xor 0).testBit i = false := by
  induction xs with
  | nil => simp
  | cons x xs ih =>
    intro i hi
    obtain ⟨hx, hxs⟩ := forall_mem_cons.1 h
    rw [foldr_cons, testBit_lxor, hx i hi, ih hxs i hi]
    rfl

lemma xorFacts_sound (h : Forall₂ Facts.Sound gs xs) :
    (xorFacts gs).Sound (xs.foldr Int.xor 0) := by
  have hkz : KzOk (andMasks (fun g => g.kz ||| g.ko) gs &&& ~~~xorMasks ko gs)
      (xs.foldr Int.xor 0) := by
    intro i hi
    rw [BitVec.getLsbD_and, and_eq_true] at hi
    have := getLsbD_xorMasks h (getLsbD_andMasks hi.1)
    grind
  have hko : KoOk (andMasks (fun g => g.kz ||| g.ko) gs &&& xorMasks ko gs)
      (xs.foldr Int.xor 0) := by
    intro i hi
    rw [BitVec.getLsbD_and, and_eq_true] at hi
    rw [← getLsbD_xorMasks h (getLsbD_andMasks hi.1)]
    exact hi.2
  unfold xorFacts
  split
  next hnn =>
    have hhi := testBit_foldr_xor_of_high fun x hx =>
      (lt_two_pow_iff (lt_of_allNonneg h hnn hx).1).1 (lt_of_allNonneg h hnn hx).2
    have h0 := nonneg_of_testBit hhi
    exact ⟨.of_le h0, .maskW ((lt_two_pow_iff h0).2 hhi), hkz, hko, kInf_pos, lt_maskW _⟩
  · exact sound_of_masks hkz hko

end

lemma notFacts_sound (h : g.Sound x) : (notFacts g).Sound (-x - 1) where
  lo := by
    unfold notFacts
    split
    · exact loOk_unbounded
    next hn =>
      have := h.hi (by simpa [unbHi] using hn)
      exact .dn (by omega)
  hi := by
    unfold notFacts
    simp only
    split
    · exact hiOk_unbounded
    next hn =>
      have := h.lo (by simpa [unbLo] using hn)
      exact .up (by omega)
  kz i hi := by rw [testBit_not, h.ko i hi]; rfl
  ko i hi := by rw [testBit_not, h.kz i hi]; rfl
  range := by
    have := kInf_pos
    unfold notFacts
    constructor
    · simp only
      split
      · omega
      · exact dn_lt _
    · simp only
      split
      · omega
      · exact lt_up _

end LiveHD.Aegraph
