import LiveHD.Aegraph.Layout
import LiveHD.Aegraph.FactsSound

/-!
# Where the layouts are right

Each way to build a layout describes the value it is built for: the lanes of a base
around an overlay, the lanes of a shifted base, the lanes of a `Concat`, and the fields of
a packed word, where the fields must not reach the next one.
-/

namespace LiveHD.Aegraph

open Option hiding max_eq_right
open IntBits Function List Int Cell Egraph Lane LiveHD.Aegraph.Valuation

section

variable {eg : Egraph} {ρ : Valuation eg} {v x : ℤ} {c a : ClassId}

variable {l : Lane} {q : ℕ} {s : ClassId}

lemma Lane.holds_some (hs : l.src = some s) :
    l.Holds ρ v q ↔ ∃ w, ρ.val s = some w ∧ v.testBit q = w.testBit (l.off + (q - l.lo)).toNat := by
  simp only [Lane.Holds, hs]

lemma Lane.holds_none (hs : l.src = none) : l.Holds ρ v q ↔ v.testBit q = false := by
  simp only [Lane.Holds, hs]

/-- Two lanes that place the same source at the same bits. -/
lemma Lane.holds_congr {l' : Lane} (hsrc : l'.src = l.src) (hoff : l'.off - l'.lo = l.off - l.lo) :
    l'.Holds ρ v q ↔ l.Holds ρ v q := by
  have h : l'.off + (q - l'.lo) = l.off + (q - l.lo) := by omega
  simp only [Lane.Holds, hsrc, h]

lemma Lane.Holds.of_testBit {w : ℤ} (h : l.Holds ρ v q)
    (hw : w.testBit q = v.testBit q) : l.Holds ρ w q := by
  simpa only [Lane.Holds, hw] using h

lemma identityLayout_describes (c : ClassId) : Layout.Describes ρ (identityLayout c) c where
  spans := ⟨rfl, by show (0 : ℤ) < kLaneInf; norm_num [kLaneInf], rfl⟩
  off := by
    rintro l hl
    rw [mem_singleton.1 hl]
  bits := by
    rintro v hv l hl q - -
    rw [mem_singleton.1 hl]
    exact ⟨v, hv, by simp⟩

lemma Lane.mem_below {m : ℤ} {l' : Lane} (h : l' ∈ l.below m) :
    l'.lo = l.lo ∧ l'.hi ≤ l.hi ∧ l'.hi ≤ m ∧ l'.src = l.src ∧ l'.off = l.off := by
  unfold below at h
  split at h
  · obtain rfl := mem_singleton.1 h
    exact ⟨rfl, le_rfl, ‹_›, rfl, rfl⟩
  split at h
  · obtain rfl := mem_singleton.1 h
    exact ⟨rfl, by show m ≤ l.hi; omega, le_rfl, rfl, rfl⟩
  · cases h

lemma Lane.mem_above {m : ℤ} {l' : Lane} (h : l' ∈ l.above m) :
    l.lo ≤ l'.lo ∧ m ≤ l'.lo ∧ l'.hi = l.hi ∧ l'.src = l.src ∧ l'.off = l.off + (l'.lo - l.lo) := by
  unfold above at h
  split at h
  · obtain rfl := mem_singleton.1 h
    exact ⟨le_rfl, ‹_›, rfl, rfl, by omega⟩
  split at h
  · obtain rfl := mem_singleton.1 h
    exact ⟨by show l.lo ≤ m; omega, le_rfl, rfl, rfl, rfl⟩
  · cases h

/-- A write of a window over a base whose layout is known. -/
lemma overlay_describes {base : Layout} (hba : base.Describes ρ a) {lo hi : ℕ} (hlt : lo < hi)
    (hhi : (hi : ℤ) < kLaneInf)
    (hc : ∀ v, ρ.val c = some v → ∃ x y, ρ.val a = some x ∧ ρ.val s = some y ∧
      v = splice x lo (hi - lo) y) :
    (overlay base ⟨lo, hi, some s, 0⟩).Describes ρ c := by
  obtain ⟨heq, hsp⟩ := hba.spans.overlay_eq ⟨lo, hi, some s, 0⟩ (natCast_nonneg lo)
    (by show (lo : ℤ) < hi; omega) hhi.le
  rw [heq]
  refine ⟨hsp, fun l hl => ?_, fun v hv l hl q hlo hhiq => ?_⟩
  · rcases mem_append.1 hl with hl | hl
    · obtain ⟨b, hb, hl⟩ := mem_flatMap.1 hl
      obtain ⟨-, -, -, -, hoff⟩ := mem_below hl
      exact hoff ▸ hba.off b hb
    rcases mem_cons.1 hl with rfl | hl
    · exact le_rfl
    · obtain ⟨b, hb, hl⟩ := mem_flatMap.1 hl
      obtain ⟨hle, -, -, -, hoff⟩ := mem_above hl
      have := hba.off b hb
      omega
  · obtain ⟨x, y, hx, hy, rfl⟩ := hc v hv
    rcases mem_append.1 hl with hl | hl
    · -- below the window the base is untouched
      obtain ⟨b, hb, hl⟩ := mem_flatMap.1 hl
      obtain ⟨h1, h2, h3, hsrc, hoff⟩ := mem_below hl
      change l.hi ≤ (lo : ℤ) at h3
      refine (holds_congr hsrc (by omega)).2 ?_
      refine (hba.bits x hx b hb q (by omega) (Or.inl (by omega))).of_testBit ?_
      rw [testBit_splice, if_neg (by omega)]
    rcases mem_cons.1 hl with rfl | hl
    · change (lo : ℤ) ≤ q at hlo
      have hq : (q : ℤ) < hi := hhiq.resolve_right hhi.ne
      refine ⟨y, hy, ?_⟩
      rw [testBit_splice, if_pos (by omega)]
      congr 1
      show q - lo = ((0 : ℤ) + (q - lo)).toNat
      omega
    · obtain ⟨b, hb, hl⟩ := mem_flatMap.1 hl
      obtain ⟨h1, h2, h3, hsrc, hoff⟩ := mem_above hl
      change (hi : ℤ) ≤ l.lo at h2
      refine (holds_congr hsrc (by omega)).2 ?_
      refine (hba.bits x hx b hb q (by omega) (h3 ▸ hhiq)).of_testBit ?_
      rw [testBit_splice, if_neg (by omega)]

variable {k : ℕ}

/-- A right shift of a base whose layout is known. -/
lemma lower_describes {base : Layout} (hba : base.Describes ρ a) (hk : (k : ℤ) < kLaneInf)
    (hc : ∀ v, ρ.val c = some v → ∃ x, ρ.val a = some x ∧ v = x / 2 ^ k) :
    Layout.Describes ρ (base.filterMap (lower k)) c := by
  have hmem : ∀ l ∈ base.filterMap (lower k), ∃ b ∈ base, l = b.lowered k ∧
      (b.hi = kLaneInf ∨ (k : ℤ) < b.hi) := by
    intro l hl
    obtain ⟨b, hb, hl⟩ := mem_filterMap.1 hl
    unfold lower at hl
    split at hl
    · cases hl
    · exact ⟨b, hb, (some.inj hl).symm, by omega⟩
  refine ⟨?_, fun l hl => ?_, fun v hv l hl q hlo hhi => ?_⟩
  · have := hba.spans.lower (by norm_num [kLaneInf]) (natCast_nonneg k) hk
    rwa [max_eq_right (by omega)] at this
  · obtain ⟨b, hb, rfl, -⟩ := hmem l hl
    have := hba.off b hb
    show 0 ≤ if b.src = none then 0 else b.off + (max (b.lo - k) 0 + k - b.lo)
    split <;> omega
  · obtain ⟨b, hb, rfl, hbhi⟩ := hmem l hl
    obtain ⟨x, hx, rfl⟩ := hc v hv
    change max (b.lo - k) 0 ≤ (q : ℤ) at hlo
    have hhi' : (q : ℤ) < b.hi - k ∨ b.hi = kLaneInf := by
      by_cases hb' : b.hi = kLaneInf
      · exact .inr hb'
      · left
        simp only [lowered] at hhi
        have := (hba.spans.bounds b hb).2.2
        omega
    have hbi := hba.bits x hx b hb (k + q) (by push_cast; omega) (by push_cast; omega)
    cases hsrc : b.src with
    | none =>
      rw [holds_none hsrc] at hbi
      rw [holds_none (show (b.lowered k).src = none from hsrc), testBit_shiftRight, hbi]
    | some s =>
      obtain ⟨w, hw, hbi⟩ := (holds_some hsrc).1 hbi
      refine (holds_some (show (b.lowered k).src = some s from hsrc)).2 ⟨w, hw, ?_⟩
      rw [testBit_shiftRight, hbi]
      congr 2
      simp only [lowered, hsrc, reduceCtorEq, if_false]
      omega

/-- A left shift: zeros, then the shifted class. -/
lemma shl_describes (hk0 : 0 < k) (hk : (k : ℤ) < kLaneInf)
    (hc : ∀ v, ρ.val c = some v → ∃ x, ρ.val a = some x ∧ v = x * 2 ^ k) :
    Layout.Describes ρ [⟨0, k, none, 0⟩, ⟨k, kLaneInf, some a, 0⟩] c := by
  refine ⟨⟨rfl, by show (0 : ℤ) < k; omega, rfl, hk, rfl⟩, ?_, fun v hv => ?_⟩
  · simp
  · obtain ⟨x, hx, rfl⟩ := hc v hv
    refine forall_mem_cons.2 ⟨fun q _ hhi => ?_, forall_mem_cons.2 ⟨fun q hlo _ => ?_, by simp⟩⟩
    · have hq : (q : ℤ) < k := hhi.resolve_right hk.ne
      rw [holds_none rfl, testBit_shiftLeft]
      simp only [Bool.and_eq_false_imp, decide_eq_true_eq]
      omega
    · change (k : ℤ) ≤ q at hlo
      refine (holds_some rfl).2 ⟨x, hx, ?_⟩
      rw [testBit_shiftLeft, decide_eq_true (by omega), Bool.true_and]
      congr 1
      show q - k = ((0 : ℤ) + (q - k)).toNat
      omega

/-! ## The lanes of a `Concat` -/

variable {lanes : List (ClassId × ℕ)} {ops : List Operand} {limit : ℤ}

lemma concatLanes_pos {i : ℕ} (h : eg.concatLanes limit i ops = some lanes) :
    ∀ l ∈ lanes, 0 < l.2 := by
  induction i, ops using concatLanes.induct generalizing lanes with
  | case1 i =>
    cases h
    exact fun l hl => by cases hl
  | case2 i o => cases h
  | case3 i o w rest hba ih =>
    rw [concatLanes, if_pos hba] at h
    obtain ⟨k, hk, h⟩ := bind_eq_some_iff.1 h
    split at h
    · obtain ⟨lanes', hla, rfl⟩ := map_eq_some_iff.1 h
      exact forall_mem_cons.2 ⟨by show 0 < k.toNat; omega, ih hla⟩
    · cases h
  | case4 i o w rest hba =>
    rw [concatLanes, if_neg hba] at h
    cases h

/-- A lane inside the window of the lanes that follow it keeps its bits. -/
lemma concatAt_bits {vals : List (ℤ × ℕ)} (h : LaneVals ρ lanes vals) :
    ∀ l ∈ concatAt (lanesWidth lanes) lanes, l.off = 0 ∧ l.hi ≤ lanesWidth lanes ∧
      ∀ q : ℕ, l.lo ≤ q → q < l.hi → l.Holds ρ (concat vals) q := by
  induction h with
  | nil => exact fun l hl => by cases hl
  | @cons c x lanes vals hcx hrel ih =>
    obtain ⟨c, w⟩ := c
    obtain ⟨x, w'⟩ := x
    obtain ⟨rfl, hx⟩ := hcx
    have hw : lanesWidth ((c, w) :: lanes) = w + lanesWidth lanes := by simp [lanesWidth]
    have hsub : w + lanesWidth lanes - w = lanesWidth lanes := by omega
    have hva : width vals = lanesWidth lanes := (LaneVals.width hrel).symm
    rw [hw, concatAt, hsub]
    refine forall_mem_cons.2 ⟨⟨rfl, le_rfl, fun q hlo hhi => ?_⟩, fun l hl => ?_⟩
    · change (lanesWidth lanes : ℤ) ≤ q at hlo
      change (q : ℤ) < (w + lanesWidth lanes : ℕ) at hhi
      refine (holds_some rfl).2 ⟨x, hx, ?_⟩
      rw [testBit_concat_cons, hva, if_neg (by omega), decide_eq_true (by omega), Bool.true_and]
      congr 1
      show q - lanesWidth lanes = ((0 : ℤ) + (q - lanesWidth lanes)).toNat
      omega
    · obtain ⟨hoff, hle, hb⟩ := ih l hl
      refine ⟨hoff, by push_cast; omega, fun q hlo hhi => (hb q hlo hhi).of_testBit ?_⟩
      rw [testBit_concat_cons, if_pos (by omega)]

lemma concatAt_off (off : ℕ) (lanes : List (ClassId × ℕ)) :
    ∀ l ∈ concatAt off lanes, l.off = 0 := by
  induction lanes generalizing off with
  | nil => exact fun l hl => by cases hl
  | cons l lanes ih => exact forall_mem_cons.2 ⟨rfl, ih _⟩

lemma concatLayout_describes (hpos : ∀ l ∈ lanes, 0 < l.2) (hto : (lanesWidth lanes : ℤ) < kLaneInf)
    (hc : ∀ v, ρ.val c = some v → ∃ vals, LaneVals ρ lanes vals ∧ v = Cell.concat vals) :
    (concatLayout lanes).Describes ρ c := by
  rw [concatLayout_eq hpos]
  refine ⟨(Layout.Spans.concatAt lanes hpos).append ⟨rfl, hto, rfl⟩, fun l hl => ?_,
    fun v hv l hl q hlo hhi => ?_⟩
  · rcases mem_append.1 hl with hl | hl
    · rw [concatAt_off _ lanes l (mem_reverse.1 hl)]
    · rw [mem_singleton.1 hl]
  · obtain ⟨vals, hrel, rfl⟩ := hc v hv
    rcases mem_append.1 hl with hl | hl
    · obtain ⟨-, hle, hb⟩ := concatAt_bits hrel l (mem_reverse.1 hl)
      exact hb q hlo (hhi.resolve_right (by omega))
    · obtain rfl := mem_singleton.1 hl
      change (lanesWidth lanes : ℤ) ≤ q at hlo
      refine (lt_two_pow_iff (concat_nonneg vals)).1 (concat_lt vals) q ?_
      rw [show width vals = lanesWidth lanes from hrel.width.symm]
      omega

/-! ## Packed fields -/

/-- Fields in ascending order, each within the bits below the next one. -/
def Packed (ρ : Valuation eg) : List (ClassId × ℕ) → Prop
  | [] => True
  | [f] => (f.2 : ℤ) < kLaneInf
  | f :: g :: fields => f.2 < g.2 ∧ ρ.Fits f.1 (g.2 - f.2) ∧ Packed ρ (g :: fields)

/-- The lanes of packed fields. -/
def fieldLanes : List (ClassId × ℕ) → Layout
  | [] => []
  | [f] => [⟨f.2, kLaneInf, some f.1, 0⟩]
  | f :: g :: fields => ⟨f.2, g.2, some f.1, 0⟩ :: fieldLanes (g :: fields)

/-- The values of the fields and their shifts. -/
def FieldVals (ρ : Valuation eg) (fields : List (ClassId × ℕ)) (ps : List (ℤ × ℕ)) : Prop :=
  Forall₂ (fun f p => ρ.val f.1 = some p.1 ∧ f.2 = p.2) fields ps

/-- The sum of shifted fields. -/
def fieldSum (ps : List (ℤ × ℕ)) : ℤ := (ps.map fun p => p.1 * 2 ^ p.2).sum

/-- Bit `q` of the union of shifted fields. -/
def fieldBit (ps : List (ℤ × ℕ)) (q : ℕ) : Bool := ps.any fun p => (p.1 * 2 ^ p.2).testBit q

lemma fieldLanes_off (fields : List (ClassId × ℕ)) : ∀ l ∈ fieldLanes fields, l.off = 0 := by
  induction fields using fieldLanes.induct with
  | case1 => exact fun l hl => by cases hl
  | case2 f => exact forall_mem_singleton.2 rfl
  | case3 f g fields ih => exact forall_mem_cons.2 ⟨rfl, ih⟩

variable {fields : List (ClassId × ℕ)} {f : ClassId × ℕ}

lemma Packed.lt_of_mem (h : Packed ρ (f :: fields)) : ∀ g ∈ fields, f.2 < g.2 := by
  induction fields generalizing f with
  | nil => exact fun g hg => by cases hg
  | cons g fields ih => exact forall_mem_cons.2 ⟨h.1, fun g' hg' => h.1.trans (ih h.2.2 g' hg')⟩

lemma Packed.lt (h : Packed ρ (f :: fields)) : (f.2 : ℤ) < kLaneInf := by
  induction fields generalizing f with
  | nil => exact h
  | cons g fields ih => exact (ofNat_lt.2 h.1).trans (ih h.2.2)

lemma Packed.spans (h : Packed ρ (f :: fields)) :
    (fieldLanes (f :: fields)).Spans f.2 kLaneInf := by
  induction fields generalizing f with
  | nil => exact ⟨rfl, h, rfl⟩
  | cons g fields ih => exact ⟨rfl, ofNat_lt.2 h.1, ih h.2.2⟩

variable {ps : List (ℤ × ℕ)}

/-- Below the lowest field the word is zero. -/
lemma FieldVals.fieldBit_of_lt (hps : FieldVals ρ fields ps) (hq : ∀ f ∈ fields, q < f.2) :
    fieldBit ps q = false := by
  refine any_eq_false.2 fun p hp => ?_
  obtain ⟨f, hf, -, hsh⟩ := hps.exists_of_mem_right hp
  have := hq f hf
  rw [testBit_shiftLeft, decide_eq_false (by omega)]
  simp

/-- The fields of a packed word do not carry into each other, so their sum has the bits of their
union. -/
lemma Packed.testBit_sum (h : Packed ρ fields) (hps : FieldVals ρ fields ps) (q : ℕ) :
    (fieldSum ps).testBit q = fieldBit ps q := by
  induction hps generalizing q with
  | nil => simp [fieldBit, fieldSum]
  | @cons f p fields ps hfp hps ih =>
    obtain ⟨hval, hsh⟩ := hfp
    rw [fieldSum, fieldBit]
    cases hps with
    | nil => simp
    | @cons g p' fields ps hgp hps =>
      have hr := ih h.2.2
      have hps' : FieldVals ρ (g :: fields) (p' :: ps) := .cons hgp hps
      change (_ + fieldSum (p' :: ps)).testBit q = (_ || fieldBit (p' :: ps) q)
      rw [testBit_add_of_disjoint, hr q]
      rintro i ⟨hi, hi'⟩
      rw [hr i] at hi'
      rw [testBit_shiftLeft, Bool.and_eq_true] at hi
      have hlt : i < g.2 := by
        by_contra hge
        rw [h.2.1.testBit hval (by omega)] at hi
        exact absurd hi.2 Bool.false_ne_true
      rw [hps'.fieldBit_of_lt] at hi'
      · cases hi'
      · exact forall_mem_cons.2 ⟨hlt, fun g' hg' => hlt.trans (h.2.2.lt_of_mem g' hg')⟩

/-- Within the lane of a field the word shows that field. -/
lemma Packed.bits (h : Packed ρ fields)
    (hps : FieldVals ρ fields ps) (hv : ∀ q, v.testBit q = fieldBit ps q) :
    ∀ l ∈ fieldLanes fields, ∀ q : ℕ,
      l.lo ≤ q → (q < l.hi ∨ l.hi = kLaneInf) → l.Holds ρ v q := by
  induction hps generalizing v with
  | nil => exact fun l hl => by cases hl
  | @cons f p fields ps hfp hps ih =>
    obtain ⟨hval, hsh⟩ := hfp
    -- bit `q` of the first field, at or above its shift
    have hhe : ∀ q : ℕ, f.2 ≤ q → (p.1 * 2 ^ p.2).testBit q = p.1.testBit (q - f.2) := by
      intro q hq
      rw [testBit_shiftLeft, ← hsh, decide_eq_true hq, Bool.true_and]
    have hla : ∀ q : ℕ, (f.2 : ℤ) ≤ q → fieldBit ps q = false →
        ∀ hi, (⟨f.2, hi, some f.1, 0⟩ : Lane).Holds ρ v q := by
      intro q hlo hr hi
      refine (holds_some rfl).2 ⟨p.1, hval, ?_⟩
      rw [hv q, fieldBit, any_cons, hhe q (by omega)]
      change (_ || fieldBit ps q) = _
      rw [hr, Bool.or_false]
      congr 1
      show q - f.2 = ((0 : ℤ) + (q - f.2)).toNat
      omega
    cases hps with
    | nil =>
      rintro l hl q hlo -
      obtain rfl := mem_singleton.1 hl
      exact hla q hlo rfl _
    | @cons g p' fields ps hgp hps =>
      have hps' : FieldVals ρ (g :: fields) (p' :: ps) := .cons hgp hps
      refine forall_mem_cons.2 ⟨fun q hlo hhi => ?_, fun l hl q hlo hhi => ?_⟩
      · have hq := ofNat_lt.1 (hhi.resolve_right h.2.2.lt.ne)
        refine hla q hlo (hps'.fieldBit_of_lt ?_) _
        exact forall_mem_cons.2 ⟨hq, fun g' hg' => hq.trans (h.2.2.lt_of_mem g' hg')⟩
      · have hq := (h.2.2.spans.bounds l hl).1.trans hlo
        have hwo : ∀ q : ℕ, g.2 ≤ q → v.testBit q = fieldBit (p' :: ps) q := by
          intro q hq
          have hfi := h.2.1.testBit hval (i := q - f.2) (by omega)
          have := h.1
          rw [hv q, fieldBit, any_cons, hhe q (by omega), hfi]
          rfl
        refine (ih h.2.2 (h.2.2.testBit_sum hps') l hl q hlo hhi).of_testBit ?_
        rw [hwo q (by omega), h.2.2.testBit_sum hps']

lemma constShift_eq (h : constShift eg ops = some (a, k)) :
    ∃ b, binary ops = some (a, b) ∧ eg.constI64 b = some (k : ℤ) ∧ 0 < k ∧ (k : ℤ) < kLaneInf := by
  simp only [constShift, bind_eq_bind, bind_eq_some_iff] at h
  obtain ⟨⟨a', b⟩, hab, k', hk, h⟩ := h
  split at h
  · cases (some.inj h)
    obtain ⟨hc, hle⟩ := constAmount_eq hk
    exact ⟨b, hab, hc, ‹_›, hle.trans_lt (by norm_num [kMaxLaneBit, kLaneInf])⟩
  · cases h

lemma shlOf_val (h : shlOf eg c = some (a, k)) (hv : ρ.val c = some v) :
    ∃ x, ρ.val a = some x ∧ v = x * 2 ^ k := by
  obtain ⟨m, hm, h⟩ := exists_of_findSome?_eq_some h
  obtain ⟨⟨op, ops⟩, hn, h⟩ := bind_eq_some_iff.1 h
  split at h
  next hop =>
    obtain rfl : op = .shl := hop
    obtain ⟨b, hab, hk, -⟩ := constShift_eq h
    exact val_shl hn hab hk ((ρ.members hm).trans hv)
  · cases h

/-- The operands of a packed word are its shifted fields. -/
lemma packedFields_vals {ha : Bool} (h : packedFields eg ha ops = some fields)
    {l : List (ℕ × ℤ)} (hl : ρ.Reads ops l) :
    ∃ ps, FieldVals ρ fields ps ∧ (∀ o ∈ l, o.1 = 0) ∧ (l.map (·.2)).sum = fieldSum ps ∧
      ∀ q, (l.map (·.2)).any (·.testBit q) = fieldBit ps q := by
  induction hl generalizing ha fields with
  | nil =>
    cases h
    exact ⟨[], .nil, by simp, rfl, fun q => rfl⟩
  | @cons o y ops l hoy _ ih =>
    obtain ⟨hba, hval⟩ := hoy
    -- one more field `p`, whose shifted value is the operand
    have hco : ∀ {ha : Bool} {f : ClassId × ℕ} {p : ℤ × ℕ}, o.bank = 0 →
        ρ.val f.1 = some p.1 → f.2 = p.2 →
        y.2 = p.1 * 2 ^ p.2 → (packedFields eg ha ops).map (f :: ·) = some fields →
        ∃ ps, FieldVals ρ fields ps ∧ (∀ o ∈ y :: l, o.1 = 0) ∧
        ((y :: l).map (·.2)).sum = fieldSum ps ∧
          ∀ q, ((y :: l).map (·.2)).any (·.testBit q) = fieldBit ps q := by
      intro ha f p hb hp hsh hy hf
      obtain ⟨fields', hf', rfl⟩ := map_eq_some_iff.1 hf
      obtain ⟨ps, hps, h0, hsum, hbi⟩ := ih hf'
      refine ⟨p :: ps, .cons ⟨hp, hsh⟩ hps, forall_mem_cons.2 ⟨hba ▸ hb, h0⟩, ?_, fun q => ?_⟩
      · simp [hsum, hy, fieldSum, fieldSum]
      · simp [hbi q, hy, fieldBit, fieldBit]
    rw [packedFields] at h
    split at h
    · cases h
    rename_i hb
    have hb := not_not.1 hb
    split at h
    · -- a zero operand adds nothing
      rename_i h0
      obtain hy : y.2 = 0 := some.inj (hval.symm.trans (ρ.constI64 h0))
      obtain ⟨ps, hps, h0, hsum, hbi⟩ := ih h
      refine ⟨ps, hps, forall_mem_cons.2 ⟨hba ▸ hb, h0⟩, ?_, fun q => ?_⟩
      · simp [hsum, hy]
      · simp [hbi q, hy, testBit_zero]
    cases hshl : shlOf eg o.cls with
    | some f =>
      obtain ⟨x, hx, hy⟩ := shlOf_val hshl hval
      rw [hshl] at h
      exact hco (p := (x, f.2)) hb hx rfl hy h
    | none =>
      rw [hshl] at h
      change (if ha = true then none else _) = some fields at h
      split at h
      · cases h
      · exact hco (p := (y.2, 0)) hb hval rfl (by simp) h

lemma sum_of_bank_zero {l : List (ℕ × ℤ)} (h : ∀ o ∈ l, o.1 = 0) :
    (bank l (· == 0)).sum - (bank l (· != 0)).sum = (l.map (·.2)).sum := by
  have h0 : l.filter (fun o => o.1 == 0) = l := filter_eq_self.2 fun o ho => by simp [h o ho]
  have h1 : l.filter (fun o => o.1 != 0) = [] := filter_eq_nil_iff.2 fun o ho => by simp [h o ho]
  simp [bank, h0, h1]

lemma leadingZero_spans (f : ClassId × ℕ) (fields : List (ClassId × ℕ)) :
    Layout.Spans 0 f.2 (leadingZero (f :: fields)) ∧
    ∀ l ∈ leadingZero (f :: fields), l.src = none ∧ l.off = 0 := by
  change Layout.Spans 0 f.2 (if 0 < f.2 then [⟨0, f.2, none, 0⟩] else []) ∧
    ∀ l ∈ (if 0 < f.2 then [⟨0, f.2, none, 0⟩] else [] : Layout), l.src = none ∧ l.off = 0
  split
  · exact ⟨⟨rfl, by show (0 : ℤ) < f.2; omega, rfl⟩, forall_mem_singleton.2 ⟨rfl, rfl⟩⟩
  · refine ⟨?_, fun l hl => by cases hl⟩
    show (0 : ℤ) = f.2
    omega

/-- The layout of packed fields, from the bits of the word. -/
lemma packed_describes (h : Packed ρ (f :: fields))
    (hc : ∀ v, ρ.val c = some v → ∃ ps, FieldVals ρ (f :: fields) ps ∧
      ∀ q, v.testBit q = fieldBit ps q) :
    Layout.Describes ρ (leadingZero (f :: fields) ++ fieldLanes (f :: fields)) c := by
  obtain ⟨hsp, hld⟩ := leadingZero_spans f fields
  refine ⟨hsp.append h.spans, fun l hl => ?_, fun v hv l hl q hlo hhi => ?_⟩
  · rcases mem_append.1 hl with hl | hl
    · exact (hld l hl).2.ge
    · exact (fieldLanes_off _ l hl).ge
  · obtain ⟨ps, hps, hb⟩ := hc v hv
    rcases mem_append.1 hl with hl | hl
    · have hle := (hsp.bounds l hl).2.2
      have hq := hhi.resolve_right (hle.trans_lt h.lt).ne
      rw [holds_none (hld l hl).1, hb q]
      refine hps.fieldBit_of_lt (forall_mem_cons.2 ⟨by omega, fun g hg => ?_⟩)
      have := h.lt_of_mem g hg
      omega
    · exact h.bits hps hb l hl q hlo hhi

/-! ## Questions about layouts -/

lemma Egraph.enodeOf_of_node {n : Enode} (hc : eg.cls c = .node n) : eg.enodeOf c = some n := by
  simp only [enodeOf, hc]

section

variable (hfacts : ∀ depth c, Answers ρ c (factsRec eg depth c))
include hfacts

lemma fieldFits_keeps (c : ClassId) (width : ℕ) :
    Keeps (AnalysisCache.Sound ρ) (fieldFits eg c width) fun fits =>
    fits = true → ρ.Fits c width := by
  refine .bind (hfacts kDepth c) fun g hg => .ite (fun hb => .pure fun hfi v hv => ?_) fun _ => ?_
  · rw [decide_eq_true_eq] at hfi
    have hle := (hg v hv).hi hb.2
    have hlt := lt_two_pow_of_le_maskW (hle.trans hfi) (hle.trans_lt hb.2)
    exact ⟨(hg v hv).nonneg hb.1, hlt.trans_le (pow_le_pow_right₀ (by norm_num) (min_le_left _ _))⟩
  · refine .map (unsignedBits_keeps hfacts c) fun bits hbi hfi => ?_
    cases bits with
    | none => cases hfi
    | some n => exact (hbi n rfl).mono (by simpa using hfi)

end

/-- Each field that is found to fit below the next one, by what the cache holds then, does fit. -/
def FieldsFit (ρ : Valuation eg) : List (ClassId × ℕ) → AnalysisCache → Prop
  | f :: g :: fields, cache => f.2 < g.2 → ((fieldFits eg f.1 (g.2 - f.2)).run cache).1 = true →
    ρ.Fits f.1 (g.2 - f.2) ∧ FieldsFit ρ (g :: fields) ((fieldFits eg f.1 (g.2 - f.2)).run cache).2
  | _, _ => True

/-- Where the facts are right, so is what they say about fields. -/
lemma fieldsFit_of_sound (hfacts : ∀ depth c, Answers ρ c (factsRec eg depth c))
    (fields : List (ClassId × ℕ))
    {cache : AnalysisCache} (hcache : cache.Sound ρ) : FieldsFit ρ fields cache := by
  induction fields using fieldLanes.induct generalizing cache with
  | case1 => trivial
  | case2 f => trivial
  | case3 f g fields ih =>
    intro _ hfit
    obtain ⟨hright, hkeep⟩ := fieldFits_keeps hfacts f.1 (g.2 - f.2) cache hcache
    exact ⟨hright hfit, ih hkeep⟩

lemma packedLanes_of_fieldsFit {cache : AnalysisCache} (h : FieldsFit ρ fields cache) {L : Layout}
    (hL : ((packedLanes eg fields).run cache).1 = some L) :
    Packed ρ fields ∧ L = fieldLanes fields := by
  induction fields using fieldLanes.induct generalizing cache L with
  | case1 => exact ⟨trivial, (some.inj hL).symm⟩
  | case2 f =>
    change (if kLaneInf ≤ (f.2 : ℤ) then none else some [_]) = some L at hL
    split at hL
    · cases hL
    · exact ⟨not_le.1 ‹_›, (some.inj hL).symm⟩
  | case3 f g fields ih =>
    rw [packedLanes] at hL
    split at hL
    · cases hL
    next hlt =>
      rw [StateT.run_bind] at hL
      change ((if ((fieldFits eg f.1 (g.2 - f.2)).run cache).1 = true then _
        else _ : Query (Option Layout)).run _).1 = _ at hL
      split at hL
      next hfit =>
        obtain ⟨hright, hrest⟩ := h (not_le.1 hlt) hfit
        obtain ⟨L', hL', rfl⟩ := map_eq_some_iff.1 hL
        obtain ⟨hpacked, rfl⟩ := ih hrest hL'
        exact ⟨⟨not_le.1 hlt, hright, hpacked⟩, rfl⟩
      · cases hL

section

variable {I : AnalysisCache → Prop}

lemma packedLanes_frame (h : ∀ c width, Keeps I (fieldFits eg c width) fun _ => True)
    (fields : List (ClassId × ℕ)) :
    Keeps I (packedLanes eg fields) fun _ => True := by
  induction fields using fieldLanes.induct with
  | case1 => exact .pure trivial
  | case2 f => exact .pure trivial
  | case3 f g fields ih =>
    refine .ite (fun _ => .pure trivial) fun _ => .bind (h _ _) fun fits _ => ?_
    exact .ite (fun _ => .map ih fun _ _ => trivial) fun _ => .pure trivial

/-- An invariant of the questions about layouts: the layouts that are remembered are right, and
fields that are packed fit. -/
structure Laid (ρ : Valuation eg) (I : AnalysisCache → Prop) : Prop where
  layouts : ∀ cache, I cache → ∀ c L, cache.layouts c = some L → L.Describes ρ c
  remember : ∀ cache c L, I cache → L.Describes ρ c →
    I { cache with layouts := update cache.layouts c (some L) }
  packed : ∀ c op ops fields, eg.cls c = .node ⟨op, ops⟩ → op = .or ∨ op = .sum →
    packedFields eg false ops = some fields →
    Keeps I (packedLanes eg (sortFields fields)) fun r =>
    ∀ L, r = some L → Packed ρ (sortFields fields) ∧ L = fieldLanes (sortFields fields)

lemma Laid.sound (hfacts : ∀ depth c, Answers ρ c (factsRec eg depth c)) :
    Laid ρ (AnalysisCache.Sound ρ) where
  layouts cache h := h.layouts
  remember cache c L h hL := by
    refine ⟨h.seeds, h.wideSeeds, h.facts, fun d L' hd => ?_⟩
    by_cases hdc : d = c
    · subst hdc
      cases (update_self ..).symm.trans hd
      exact hL
    · exact h.layouts d L' ((update_of_ne hdc ..).symm.trans hd)
  packed c op ops fields _ _ _ cache h :=
    ⟨fun _ hL => packedLanes_of_fieldsFit (fieldsFit_of_sound hfacts _ h) hL,
      (packedLanes_frame (fun c width => (fieldFits_keeps hfacts c width).mono fun _ _ => trivial)
        _ cache h).2⟩

section

variable (h : Laid ρ I)
include h

/-- The layout of an `Or` or `Sum` of packed fields. -/
lemma packedLayout_keeps {op : NtypeOp} (hop : op = .or ∨ op = .sum)
    (hc : eg.cls c = .node ⟨op, ops⟩) :
    Keeps I (packedLayout eg ops) fun r => ∀ L, r = some L → L.Describes ρ c := by
  unfold packedLayout
  cases hf : packedFields eg false ops with
  | none => exact .pure fun L hL => by cases hL
  | some fields =>
    refine .ite (fun _ => .pure fun L hL => by cases hL) fun hlen => ?_
    refine .map (h.packed c op ops fields hc hop hf) fun r hr L hL => ?_
    obtain ⟨L', rfl, rfl⟩ := map_eq_some_iff.1 hL
    obtain ⟨hpa, rfl⟩ := hr L' rfl
    have hpe : (sortFields fields).Perm fields := perm_insertionSort _ _
    -- the value of the word, in the order of the operands and in the order of the shifts
    have hwo : ∀ v, ρ.val c = some v → ∃ ps, FieldVals ρ (sortFields fields) ps ∧
        ∀ q, v.testBit q = fieldBit ps q := by
      intro v hv
      obtain ⟨l, hl, hv⟩ := exists_reads_enodeOf (enodeOf_of_node hc)
        (by rcases hop with rfl | rfl <;> rfl) hv
      obtain ⟨ps, hps, h0, hsum, hb⟩ := packedFields_vals hf hl
      obtain ⟨ps', hps', hpe'⟩ := perm_comp_forall₂ hpe hps
      refine ⟨ps', hps', fun q => ?_⟩
      rcases hop with rfl | rfl
      · cases hv
        rw [testBit_foldr_lor, hb q, fieldBit, fieldBit, hpe'.any_eq]
      · cases hv
        rw [sum_of_bank_zero h0, hsum, fieldSum, ← (hpe'.map _).sum_eq]
        exact hpa.testBit_sum hps' q
    cases hsrt : sortFields fields with
    | nil =>
      rw [hsrt] at hpe
      rw [← hpe.length_eq] at hlen
      exact absurd (by norm_num) hlen
    | cons f fields' =>
      rw [hsrt] at hpa hwo
      exact packed_describes hpa hwo

end

/-- Every `Concat` with usable lanes ends below `kLaneInf`. -/
def Egraph.ConcatsFit (eg : Egraph) : Prop := ∀ c ops lanes, eg.cls c = .node ⟨.concat, ops⟩ →
  eg.concatLanes kMaxLaneBit 0 ops = some lanes → (lanesWidth lanes : ℤ) < kLaneInf

/-- The values of a `Set_mask` with a constant window. -/
lemma val_setMask (hm : eg.enodeOf c = some ⟨.setMask, ops⟩) {lo hi : ℕ}
    (hw : eg.constWindow ops limit = some (lo, hi)) (ha : byBank ops 0 = some a)
    (hs : byBank ops 4 = some s) (hv : ρ.val c = some v) :
    ∃ x y, ρ.val a = some x ∧ ρ.val s = some y ∧ v = splice x lo (hi - lo) y := by
  obtain ⟨l, hl, hv⟩ := exists_reads_enodeOf hm rfl hv
  obtain ⟨-, h2, h3, hr⟩ := reads_window hl hw
  obtain ⟨x, hx, hxv⟩ := hl.byBank ha
  obtain ⟨y, hy, hyv⟩ := hl.byBank hs
  simp only [evalKnown, h2, h3, hx, hy, hr, bind_eq_bind, bind_some] at hv
  exact ⟨x, y, hxv, hyv, (some.inj hv).symm⟩

/-- The lanes of a `Concat` and its value. -/
lemma val_concat (hm : eg.enodeOf c = some ⟨.concat, ops⟩)
    (hla : eg.concatLanes limit 0 ops = some lanes) (hv : ρ.val c = some v) :
    ∃ vals, LaneVals ρ lanes vals ∧ v = Cell.concat vals := by
  obtain ⟨l, hl, hv⟩ := exists_reads_enodeOf hm rfl hv
  obtain ⟨vals, hva, hrel⟩ := concatLanes_vals hla hl
  simp only [evalKnown, hva] at hv
  split at hv
  · exact ⟨vals, hrel, (some.inj hv).symm⟩
  · cases hv

section

variable (h : Laid ρ I) (hconcat : eg.ConcatsFit)
  {get : ClassId → Query Layout} (hget : ∀ c, Keeps I (get c) (Layout.Describes ρ · c))
include h hconcat hget

lemma nodeLayout_keeps {n : Enode} (hc : eg.cls c = .node n) :
    Keeps I (nodeLayout eg get n) fun r => ∀ L, r = some L → L.Describes ρ c := by
  obtain ⟨op, ops⟩ := n
  have hn := enodeOf_of_node hc
  have hno : Keeps I (pure none : Query (Option Layout)) fun r =>
    ∀ L, r = some L → L.Describes ρ c := Keeps.pure fun L hL => by cases hL
  cases op with
  | concat =>
    refine Keeps.pure fun L hL => ?_
    split at hL
    · cases hL
    · obtain ⟨lanes, hl, rfl⟩ := map_eq_some_iff.1 hL
      exact concatLayout_describes (concatLanes_pos hl) (hconcat c ops lanes hc hl) fun v hv =>
        val_concat hn hl hv
  | setMask =>
    simp only [nodeLayout]
    split
    next lo hi a s hwin ha hs =>
      split at hwin
      · refine Keeps.map (hget a) fun base hba L hL => ?_
        obtain ⟨hlt, hle, -⟩ := constWindow_eq hwin
        split at hL
        · cases hL
        · cases hL
          exact overlay_describes hba hlt
              (hle.trans_lt (by norm_num [kMaxLaneBit, kLaneInf])) fun v hv =>
            val_setMask hn hwin ha hs hv
      · cases hwin
    · exact hno
  | sra =>
    simp only [nodeLayout]
    split
    next a k hsh =>
      obtain ⟨b, hab, hk, -, hlt⟩ := constShift_eq hsh
      refine Keeps.map (hget a) fun base hba L hL => ?_
      cases hL
      exact lower_describes hba hlt fun v hv => val_sra hn hab hk hv
    · exact hno
  | shl =>
    refine Keeps.pure fun L hL => ?_
    obtain ⟨⟨a, k⟩, hsh, rfl⟩ := map_eq_some_iff.1 hL
    obtain ⟨b, hab, hk, hpos, hlt⟩ := constShift_eq hsh
    exact shl_describes hpos hlt fun v hv => val_shl hn hab hk hv
  | or => exact packedLayout_keeps h (Or.inl rfl) hc
  | sum => exact packedLayout_keeps h (Or.inr rfl) hc
  | _ => exact hno

lemma layoutRec_keeps (depth : ℕ) (c : ClassId) :
    Keeps I (layoutRec eg get depth c) fun r => ∀ L, r = some L → L.Describes ρ c := by
  induction depth generalizing c with
  | zero => exact .pure fun L hL => by cases hL
  | succ depth ih =>
    simp only [layoutRec]
    split
    · exact nodeLayout_keeps h hconcat hget ‹_›
    next a b hc =>
      obtain ⟨ha, hb⟩ := ρ.uni c a b hc
      -- a layout of either side describes the union
      have hsi : ∀ {d : ClassId}, ρ.val d = ρ.val c →
          ∀ {L : Layout}, L.Describes ρ d → L.Describes ρ c :=
        fun hd _ hL => ⟨hL.spans, hL.off, fun v hv => hL.bits v (hd.trans hv)⟩
      refine .bind (ih a) fun found hf => ?_
      cases found with
      | some L => exact .pure fun L' hL' => some.inj hL' ▸ hsi ha.symm (hf L rfl)
      | none => exact (ih b).mono fun r hr L hL => hsi (hb.trans ha.symm) (hr L hL)
    · exact .pure fun L hL => by cases hL

lemma warm_keeps (c : ClassId) : Keeps I (warm eg get c) fun _ => True := by
  refine .bind (layoutRec_keeps h hconcat hget 4 c) fun found hf => .modify fun cache hca => ?_
  split
  · exact hca
  · refine h.remember cache c _ hca ?_
    cases found with
    | none => exact identityLayout_describes c
    | some L => exact hf L rfl

end

section

variable (h : Laid ρ I) (hconcat : eg.ConcatsFit)
include h hconcat

lemma layoutFuel_keeps (fuel : ℕ) (c : ClassId) :
    Keeps I (layoutFuel eg fuel c) (Layout.Describes ρ · c) := by
  induction fuel generalizing c with
  | zero => exact .pure (identityLayout_describes c)
  | succ fuel ih =>
    refine .bind Keeps.get fun cache hca => ?_
    cases hL : cache.layouts c with
    | some L => exact .pure (h.layouts cache hca c L hL)
    | none =>
      refine .bind (.forM fun d _ => warm_keeps h hconcat ih d) fun _ _ => ?_
      refine .map Keeps.get fun cache hca => ?_
      cases hL : cache.layouts c with
      | some L => exact h.layouts cache hca c L hL
      | none => exact identityLayout_describes c

lemma layoutOf_keeps (c : ClassId) : Keeps I (layoutOf eg c) (Layout.Describes ρ · c) :=
  layoutFuel_keeps h hconcat (c + 1) c

end

end

/-! ## Runs of questions -/

/-- The caches that questions lead to, from `s` on, also inside a question about a layout. -/
inductive Visited (ρ : Valuation eg) (s : AnalysisCache) : AnalysisCache → Prop where
  | start : Visited ρ s s
  | facts {cache : AnalysisCache} (depth : ℕ) (c : ClassId) :
    Visited ρ s cache → Visited ρ s ((factsRec eg depth c).run cache).2
  | packed {cache : AnalysisCache} {c : ClassId} {n : Enode} {fields : List (ClassId × ℕ)} :
    Visited ρ s cache →
    eg.cls c = .node n → packedFields eg false n.operands = some fields →
    Visited ρ s ((packedLanes eg (sortFields fields)).run cache).2
  | remember {cache : AnalysisCache} {c : ClassId} {L : Layout} :
    Visited ρ s cache → L.Describes ρ c →
    Visited ρ s { cache with layouts := update cache.layouts c (some L) }

section

variable {s : AnalysisCache}

/-- A field is found to fit from the facts alone: no layout is remembered meanwhile. -/
lemma packedLanes_layouts (L : ClassId → Option Layout) (fields : List (ClassId × ℕ)) :
    Keeps (fun cache => cache.layouts = L) (packedLanes eg fields) fun _ => True := by
  have hfacts : ∀ depth c, Keeps (fun cache => cache.layouts = L) (factsRec eg depth c) fun _ =>
      True :=
    factsRec_keeps fun _ _ h => h
  refine packedLanes_frame (fun c width => .bind (hfacts kDepth c) fun g _ => ?_) fields
  exact .ite (fun _ => .pure trivial) fun _ =>
    .map (unsignedBitsRec_frame hfacts 3 c) fun _ _ => trivial

lemma Visited.layouts (hs : ∀ c, s.layouts c = none) {cache : AnalysisCache}
    (h : Visited ρ s cache) :
    ∀ c L, cache.layouts c = some L → L.Describes ρ c := by
  induction h with
  | start =>
    intro c L hL
    rw [hs c] at hL
    cases hL
  | @facts cache depth c _ ih =>
    rwa [(factsRec_keeps (I := fun c => c.layouts = cache.layouts)
      (fun _ _ h => h) depth c cache rfl).2]
  | packed _ _ _ ih => rwa [(packedLanes_layouts _ _ _ rfl).2]
  | @remember cache c L _ hL ih =>
    intro d L' hd
    by_cases hdc : d = c
    · subst hdc
      cases (update_self ..).symm.trans hd
      exact hL
    · exact ih d L' ((update_of_ne hdc ..).symm.trans hd)

/-- Where the facts are right, so is every cache of a run. -/
lemma Visited.sound (hfacts : ∀ depth c, Answers ρ c (factsRec eg depth c))
    (hs : s.Sound ρ) {cache : AnalysisCache}
    (h : Visited ρ s cache) : cache.Sound ρ := by
  induction h with
  | start => exact hs
  | facts depth c _ ih => exact (hfacts depth c _ ih).2
  | packed _ _ _ ih => exact (packedLanes_frame
    (fun c width => (fieldFits_keeps hfacts c width).mono fun _ _ => trivial) _ _ ih).2
  | remember _ hL ih => exact (Laid.sound hfacts).remember _ _ _ ih hL

/-- Where fields that are packed fit, the questions of a run keep the layouts right. -/
lemma laid_visited (hs : ∀ c, s.layouts c = none)
    (hfits : ∀ cache, Visited ρ s cache → ∀ c op ops fields,
      eg.cls c = .node ⟨op, ops⟩ → op = .or ∨ op = .sum → packedFields eg false ops = some fields →
        FieldsFit ρ (sortFields fields) cache) :
    Laid ρ (Visited ρ s) where
  layouts _ h := h.layouts hs
  remember _ _ _ h hL := h.remember hL
  packed c op ops fields hc hop hf cache h :=
    ⟨fun _ hL => packedLanes_of_fieldsFit (hfits cache h c op ops fields hc hop hf) hL,
      h.packed hc hf⟩

end

section

variable {s : AnalysisCache} (hs : ∀ c, s.layouts c = none)
include hs

omit hs in
lemma run_layoutFuel (fuel : ℕ) (c : ClassId) :
    (layoutFuel eg (fuel + 1) c).run s = StateT.run (match s.layouts c with
    | some L => pure L
    | none => do
      (layoutChain eg (fun d => (s.layouts d).isSome) (2 ^ 20) (some c)).reverse.forM
        (warm eg (layoutFuel eg fuel))
      (fun cache => (cache.layouts c).getD (identityLayout c)) <$> MonadState.get) s := rfl

/-- The first question about a `Concat` returns its own lanes. -/
lemma layoutOf_concat (hc : eg.cls c = .node ⟨.concat, ops⟩)
    (hops : ops.isEmpty = false) (hl : eg.concatLanes kMaxLaneBit 0 ops = some lanes) :
    ((layoutOf eg c).run s).1 = concatLayout lanes := by
  have hch : layoutChain eg (fun d => (s.layouts d).isSome) (2 ^ 20) (some c) = [c] := by
    have hba : layoutBase eg c = none := by simp [layoutBase, hc]
    have hcached : (s.layouts c).isSome = false := by rw [hs c]; rfl
    show (if (s.layouts c).isSome then []
      else c :: layoutChain eg _ (2 ^ 20 - 1) (layoutBase eg c)) = [c]
    rw [hba, hcached]
    rfl
  have hwa : ∀ get, (warm eg get c).run s =
      ((), { s with layouts := update s.layouts c (some (concatLayout lanes)) }) := by
    intro get
    have hrec : layoutRec eg get 4 c = pure (some (concatLayout lanes)) := by
      simp only [layoutRec, hc, nodeLayout, hops, hl]
      rfl
    rw [warm, hrec]
    show ((), if (s.layouts c).isSome then s else _) = _
    rw [hs c]
    rfl
  rw [layoutOf, run_layoutFuel, hs c]
  dsimp only
  rw [hch]
  show (((warm eg (layoutFuel eg c) c >>= fun _ => pure ()) >>= fun _ =>
    (fun cache : AnalysisCache => (cache.layouts c).getD (identityLayout c)) <$>
      MonadState.get : Query Layout).run s).1 = _
  rw [StateT.run_bind, StateT.run_bind, hwa]
  show (update s.layouts c (some (concatLayout lanes)) c).getD (identityLayout c) = _
  rw [update_self]
  rfl

/-- Where every field of a packed word that is found to fit does fit, the layout of every class
describes its value after every run of questions exactly when every `Concat` ends below
`kLaneInf`. -/
theorem layoutOf_describes_iff
    (hfits : ∀ cache, Visited ρ s cache → ∀ c op ops fields, eg.cls c = .node ⟨op, ops⟩ →
      op = .or ∨ op = .sum → packedFields eg false ops = some fields →
        FieldsFit ρ (sortFields fields) cache) :
    (∀ cache, Visited ρ s cache → ∀ c, ((layoutOf eg c).run cache).1.Describes ρ c) ↔
    eg.ConcatsFit := by
  constructor
  · intro h c ops lanes hc hlanes
    cases hops : ops.isEmpty with
    | true =>
      obtain rfl := List.isEmpty_iff.1 hops
      cases hlanes
      norm_num [lanesWidth, kLaneInf]
    | false =>
      have hdesc := h s .start c
      rw [layoutOf_concat hs hc hops hlanes] at hdesc
      exact (hdesc.spans.bounds _ (mem_append_right _ (.head _))).2.1
  · intro hconcat cache h c
    exact (layoutOf_keeps (laid_visited hs hfits) hconcat c cache h).1

end

end

/-- A nibble of a `Concat` of two leaves, written over and shifted, and the two leaves packed into a
word. -/
def nibbleEgraph : Egraph where
  classes := [.leaf, .leaf, .konst (.integer 4), .node ⟨.concat, [⟨0, 0⟩, ⟨1, 2⟩, ⟨2, 1⟩, ⟨3, 2⟩]⟩,
    .konst (.integer 8), .node ⟨.setMask, [⟨0, 3⟩, ⟨2, 2⟩, ⟨3, 4⟩, ⟨4, 1⟩]⟩, .konst (.integer 2),
    .node ⟨.sra, [⟨0, 5⟩, ⟨1, 6⟩]⟩, .node ⟨.shl, [⟨0, 1⟩, ⟨1, 2⟩]⟩, .node ⟨.or, [⟨0, 8⟩, ⟨0, 0⟩]⟩]
  operandsFirst := by decide

def nibbleValuation : Valuation nibbleEgraph :=
  .ofList [some 9, some 6, some 4, some 150, some 8, some 102, some 2, some 25, some 96,
    some 105] (by decide) (by decide)

/-- The shape of the layouts of the shifted write and of the packed word, and that every layout is
right. -/
theorem layoutOf_describes_nibble :
    ((layoutOf nibbleEgraph 7).run (seedLeaf {} 0 4 true)).1 =
    [⟨0, 2, some 1, 2⟩, ⟨2, 6, some 1, 0⟩, ⟨6, kLaneInf, none, 0⟩] ∧
    ((layoutOf nibbleEgraph 9).run (seedLeaf {} 0 4 true)).1 =
    [⟨0, 4, some 0, 0⟩, ⟨4, kLaneInf, some 1, 0⟩] ∧
    ∀ cache, Visited nibbleValuation (seedLeaf {} 0 4 true) cache →
    ∀ c, ((layoutOf nibbleEgraph c).run cache).1.Describes nibbleValuation c := by
  have hsat : ∀ c, ¬SaturatesAt nibbleValuation c := by
    rintro c ⟨n, w, hc, ⟨a, k, hop, -⟩, hw, hsat⟩
    have hmem := mem_of_node hc
    simp only [nibbleEgraph, mem_cons, reduceCtorEq, Eclass.node.injEq, not_mem_nil,
      or_false, false_or] at hmem
    rcases hmem with rfl | rfl | rfl | rfl | rfl
    case inr.inr.inr.inl =>
      have hval := (nibbleValuation.node c _ hc).symm.trans hw
      obtain rfl : 96 = w := some.inj hval
      norm_num [Saturates] at hsat
    all_goals cases hop
  have hconcat : nibbleEgraph.ConcatsFit := by
    intro c ops lanes hc hlanes
    have hmem := mem_of_node hc
    simp only [nibbleEgraph, mem_cons, reduceCtorEq, Eclass.node.injEq, Enode.mk.injEq, not_mem_nil,
      or_false, false_or, true_and, false_and] at hmem
    subst hmem
    cases hlanes
    decide
  have hseeded : Seeded nibbleValuation (seedLeaf {} 0 4 true) := by
    refine .seed 0 4 true .empty fun v hv => ?_
    obtain rfl : 9 = v := some.inj hv
    norm_num [Declared]
  have hfits := fun cache (h : Visited nibbleValuation (seedLeaf {} 0 4 true) cache) c op ops fields
      (_ : nibbleEgraph.cls c = .node ⟨op, ops⟩) (_ : op = .or ∨ op = .sum)
        (_ : packedFields nibbleEgraph false ops = some fields) =>
    fieldsFit_of_sound (factsRec_answers hsat) (sortFields fields)
      (h.sound (factsRec_answers hsat) hseeded.sound)
  exact ⟨rfl, rfl, (layoutOf_describes_iff (fun _ => rfl) hfits).2 hconcat⟩

/-! ## A field that is not where its facts put it -/

/-- `Sum(F, SHL(g, 4))` where `F` is the remainder by 16 of `SHL(Or(u, 1), 99) - a - b - c`. -/
def packEgraph : Egraph where
  classes := [.leaf, .konst (.integer 1), .node ⟨.or, [⟨0, 0⟩, ⟨0, 1⟩]⟩, .konst (.integer 99),
    .node ⟨.shl, [⟨0, 2⟩, ⟨1, 3⟩]⟩, .leaf, .leaf, .leaf,
    .node ⟨.sum, [⟨0, 4⟩, ⟨1, 5⟩, ⟨1, 6⟩, ⟨1, 7⟩]⟩,
    .konst (.integer 16), .node ⟨.rem, [⟨0, 8⟩, ⟨1, 9⟩]⟩, .leaf, .konst (.integer 4),
    .node ⟨.shl, [⟨0, 11⟩, ⟨1, 12⟩]⟩, .node ⟨.sum, [⟨0, 10⟩, ⟨0, 13⟩]⟩]
  operandsFirst := by decide

/-- The difference is -1, but its facts say it is at least `2 ^ 98`. -/
def packValuation : Valuation packEgraph :=
  .ofList [some 0, some 1, some 1, some 99, some (2 ^ 99), some (2 ^ 98 - 1),
    some (2 ^ 98 - 1), some 3, some (-1),
    some 16, some (-1), some 0, some 4, some 0, some (-1)] (by decide) (by decide)

/-- The cache after seeding the leaves with their declared widths. -/
def packCache : AnalysisCache :=
  [(0, 1), (5, 98), (6, 98), (7, 98), (11, 1)].foldl (fun cache s => seedLeaf cache s.1 s.2 true) {}

/-- The layout of the packed word reads bit 4 from `g`, which is 0, but the word is -1. -/
theorem layoutOf_pack_unsound : Seeded packValuation packCache ∧ packValuation.val 14 = some (-1) ∧
    packValuation.val 11 = some 0 ∧
    ((layoutOf packEgraph 14).run packCache).1 = [⟨0, 4, some 10, 0⟩, ⟨4, kLaneInf, some 11, 0⟩] ∧
    ¬((layoutOf packEgraph 14).run packCache).1.Describes packValuation 14 := by
  have hlayout : ((layoutOf packEgraph 14).run packCache).1 =
    [⟨0, 4, some 10, 0⟩, ⟨4, kLaneInf, some 11, 0⟩] := rfl
  refine ⟨?_, rfl, rfl, hlayout, fun h => ?_⟩
  · refine .seed 11 1 true (.seed 7 98 true
      (.seed 6 98 true (.seed 5 98 true (.seed 0 1 true .empty ?_) ?_) ?_) ?_) ?_
    all_goals
      intro v hv
      cases hv
      norm_num [Declared]
  · have hlane := h.bits (-1) rfl ⟨4, kLaneInf, some 11, 0⟩ (.tail _ (.head _)) 4 le_rfl
      (.inr rfl)
    obtain ⟨w, hw, hbit⟩ := (holds_some rfl).1 hlane
    obtain rfl : 0 = w := some.inj hw
    cases hbit

end LiveHD.Aegraph
