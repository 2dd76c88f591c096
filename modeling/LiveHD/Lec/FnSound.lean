import LiveHD.Lec.TermEvalSound

/-!
# The operators of the term simulator

Operands that hold the values of the arguments give words that hold the value of an
operator's result, on the path for one word as on the loops over words.
-/

namespace LiveHD.Lec

open Value hiding width
open List hiding beq_eq_decide
open Words BitVec Bool Kid Nat

variable {w p0 p1 : ℕ} {ks : List Kid} {vs : List Value}

/-! ## Concatenation -/

def totalWidth (ks : List Kid) : ℕ := (ks.map Kid.width).sum

/-- The number that operands give one above the other, the first one on top. -/
def concatValue : List Kid → ℕ
  | [] => 0
  | k :: ks => value k.words * 2 ^ totalWidth ks + concatValue ks

def Kid.IsVector (k : Kid) (v : Value) : Prop := 0 < k.width ∧ k.IsBv k.width v

lemma Kid.IsVector.lt {k : Kid} {v : Value} (h : k.IsVector v) : value k.words < 2 ^ k.width := by
  obtain ⟨-, x, -, -, hx⟩ := h
  exact hx.lt

lemma totalWidth_cons (k : Kid) (ks : List Kid) :
    totalWidth (k :: ks) = k.width + totalWidth ks := sum_cons

section

variable (h : Forall₂ Kid.IsVector ks vs)
include h

lemma concatValue_lt : concatValue ks < 2 ^ totalWidth ks := by
  induction h with
  | nil => exact one_pos
  | @cons k v ks vs hkv _ ih =>
    rw [totalWidth_cons, pow_add]
    calc value k.words * 2 ^ totalWidth ks + concatValue ks
      _ < value k.words * 2 ^ totalWidth ks + 2 ^ totalWidth ks := Nat.add_lt_add_left ih _
      _ = (value k.words + 1) * 2 ^ totalWidth ks := (succ_mul _ _).symm
      _ ≤ 2 ^ k.width * 2 ^ totalWidth ks := mul_le_mul_right _ hkv.lt

lemma concatBits_spec {nw : ℕ} (hle : totalWidth ks ≤ 64 * nw) :
    (concatBits nw ks).1.length = nw ∧ (concatBits nw ks).2 = totalWidth ks ∧
    value (concatBits nw ks).1 = concatValue ks := by
  induction h with
  | nil => exact ⟨length_replicate, rfl, value_replicate_zero nw⟩
  | @cons k v ks vs hkv ht ih =>
    rw [totalWidth_cons] at hle
    obtain ⟨hlen, hoff, hval⟩ := ih (by omega)
    have hlt := concatValue_lt ht
    rw [concatBits, totalWidth_cons]
    refine ⟨by rw [length_orBits, hlen], by rw [hoff, add_comm], ?_⟩
    rw [hoff, value_orBits_above _ _ _ _ (by rw [hlen]; omega) (hval ▸ hlt), hval,
      mod_eq_of_lt hkv.lt, concatValue, add_comm, mul_comm]

/-- The value that vectors give one above the other. -/
lemma foldl_append (x : BitVec w) {u : ℕ} (hu : u = w + totalWidth ks) :
    ∃ z : BitVec u, vs.foldl append (.bv w x) = .bv u z ∧
    z.toNat = x.toNat * 2 ^ totalWidth ks + concatValue ks := by
  induction h generalizing w with
  | nil =>
    obtain rfl : u = w := hu
    exact ⟨x, rfl, (mul_one _).symm⟩
  | @cons k v ks vs hkv ht ih =>
    obtain ⟨-, y, rfl, -, hy⟩ := hkv
    rw [totalWidth_cons] at hu
    obtain ⟨z, hz, hval⟩ := ih (x ++ y) (by omega)
    refine ⟨z, hz, ?_⟩
    rw [hval, toNat_append, ← shiftLeft_add_eq_or_of_lt y.isLt, Nat.shiftLeft_eq, concatValue,
      hy.value, totalWidth_cons]
    ring

/-- The path for one word puts the operands one above the other. -/
lemma concat_narrow (r : Word) (n : ℕ) (hr : r.toNat < 2 ^ n) (hle : n + totalWidth ks ≤ 64) :
    (ks.foldl (fun r k => if 64 ≤ k.width then k.word else r <<< k.width ||| k.word) r).toNat =
    r.toNat * 2 ^ totalWidth ks + concatValue ks := by
  induction h generalizing r n with
  | nil => exact (mul_one _).symm
  | @cons k v ks vs hkv ht ih =>
    have hpos := hkv.1
    have hlt := hkv.lt
    obtain ⟨-, x, -, -, hx⟩ := hkv
    rw [totalWidth_cons] at hle
    have hone : nwords k.width = 1 := by
      rw [nwords, if_neg hpos.ne']
      omega
    obtain ⟨y, hy⟩ := length_eq_one_iff.1 (hx.length.trans hone)
    have hwo : k.word = y := by rw [word, hy]; rfl
    have hval : value k.words = y.toNat := by rw [hy, value_singleton]
    rw [hval] at hlt
    rw [foldl_cons, hwo]
    have hmul : r.toNat * 2 ^ k.width + y.toNat < 2 ^ (n + k.width) := by
      rw [pow_add]
      calc r.toNat * 2 ^ k.width + y.toNat
        _ < r.toNat * 2 ^ k.width + 2 ^ k.width := Nat.add_lt_add_left hlt _
        _ = (r.toNat + 1) * 2 ^ k.width := (succ_mul _ _).symm
        _ ≤ 2 ^ n * 2 ^ k.width := mul_le_mul_right _ hr
    have hst : (if 64 ≤ k.width then y else r <<< k.width ||| y).toNat =
        r.toNat * 2 ^ k.width + y.toNat := by
      split
      · -- an operand of a whole word is the first one
        obtain rfl : n = 0 := by omega
        rw [lt_one_iff.1 hr, Nat.zero_mul, Nat.zero_add]
      · have hsm : r.toNat * 2 ^ k.width < 2 ^ 64 := by
          have hl64 : 2 ^ (n + k.width) ≤ 2 ^ 64 := Nat.pow_le_pow_right (by decide) (by omega)
          omega
        rw [toNat_or, toNat_shiftLeft, Nat.shiftLeft_eq,
          mod_eq_of_lt hsm, ← Nat.shiftLeft_eq, ← shiftLeft_add_eq_or_of_lt hlt]
    rw [ih _ (n + k.width) (by rw [hst]; exact hmul) (by omega), hst,
      concatValue, hval, totalWidth_cons]
    ring

end

/-! ## Sums on one word -/

/-- One word and its mask. -/
lemma clearTop_one (h : nwords w = 1) (x : Word) : clearTop [x] w = [x &&& topMask w] := by
  rw [clearTop, h]
  rfl

lemma width_le_of_one (hw : 0 < w) (h : nwords w = 1) : w ≤ 64 := by
  have hbo := nwords_bounds hw
  rw [h] at hbo
  exact hbo.2

lemma Holds.word (hone : nwords w = 1) {a : List Word} {x : BitVec w} (h : Holds a x) :
    a = [a.getD 0 0] ∧ (a.getD 0 0).setWidth w = x := by
  obtain ⟨y, rfl⟩ := length_eq_one_iff.1 (h.length.trans hone)
  refine ⟨rfl, eq_of_toNat_eq ?_⟩
  have hval := h.value
  rw [value_singleton] at hval
  change (y.setWidth w).toNat = x.toNat
  rw [toNat_setWidth, hval, mod_eq_of_lt x.isLt]

section Narrow

variable (hw : 0 < w) (hone : nwords w = 1)
include hw hone

/-- A word under its mask holds its low bits. -/
lemma holds_masked (s : Word) : Holds [s &&& topMask w] (s.setWidth w) := by
  rw [← clearTop_one hone]
  refine .clearTop hw hone.symm ?_
  rw [value_singleton, BitVec.ofNat_toNat]

omit hw in
/-- A fold over the words of the operands. -/
lemma foldl_word (op : ∀ n, BitVec n → BitVec n → BitVec n)
    (hop : ∀ s t : Word, (op 64 s t).setWidth w = op w (s.setWidth w) (t.setWidth w))
    (h : Forall₂ (Kid.IsBv w) ks vs) (s : Word) :
    (ks.foldl (fun s k => op 64 s k.word) s).setWidth w = vs.foldl
    (fun z v => op w z (v.bits w)) (s.setWidth w) := by
  induction h generalizing s with
  | nil => rfl
  | cons hkv _ ih => rw [foldl_cons, foldl_cons, ih, hop, word, (hkv.holds.word hone).2]

end Narrow

/-- A fold over the words of the operands, by loops over words. -/
lemma foldl_words {P : List Word → BitVec w → Prop} {f : List Word → List Word → List Word}
    {op : BitVec w → BitVec w → BitVec w}
    (hst : ∀ {d b : List Word} {z y : BitVec w}, P d z → Holds b y → P (f d b) (op z y))
    (h : Forall₂ (Kid.IsBv w) ks vs)
    {d : List Word} {z : BitVec w} (hd : P d z) :
    P (ks.foldl (fun d k => f d k.words) d) (vs.foldl (fun z v => op z (v.bits w)) z) := by
  induction h generalizing d z with
  | nil => exact hd
  | cons hkv _ ih => exact ih (hst hd hkv.holds)

/-! ## Booleans -/

lemma Kid.Rep.equal {k l : Kid} {v u : Value} (hk : k.Rep v) (hl : l.Rep u)
    (hsort : v.sort = u.sort) (hflat : ∀ i e, v.sort ≠ .array i e) :
    equal k.words l.words = true ↔ v = u := by
  cases v with
  | bool p =>
    obtain ⟨q, rfl, rfl⟩ := hl.isBool hsort.symm
    obtain rfl : k = ⟨1, [flag p]⟩ := hk
    cases p <;> cases q <;> simp [Lec.equal, flag]
  | bv w x =>
    obtain ⟨y, rfl, -, hy⟩ := hl.isBv hsort.symm
    rw [hk.2.equal hy, beq_iff_eq]
    exact ⟨fun h => congrArg _ h, fun h => eq_of_heq (bv.inj h).2⟩
  | array i e g => exact absurd rfl (hflat i e)

section Booleans

variable {t : Srt} (hrep : Forall₂ Kid.Rep ks vs) (hsort : ∀ v ∈ vs, v.sort = t)
  (hflat : ∀ i e, t ≠ .array i e)
include hrep hsort hflat

lemma all_equal_iff {k : Kid} {v : Value} (hk : k.Rep v) (hv : v.sort = t) :
    (ks.all fun l => equal k.words l.words) = true ↔ ∀ u ∈ vs, v = u := by
  induction hrep with
  | nil => exact iff_of_true rfl nofun
  | cons hl _ ih =>
    rw [forall_mem_cons] at hsort
    rw [all_cons, and_eq_true, forall_mem_cons, ih hsort.2,
      hk.equal hl (hv.trans hsort.1.symm) (hv ▸ hflat)]

lemma all_differ_iff {k : Kid} {v : Value} (hk : k.Rep v) (hv : v.sort = t) :
    (ks.all fun l => !equal k.words l.words) = true ↔ ∀ u ∈ vs, v ≠ u := by
  induction hrep with
  | nil => exact iff_of_true rfl nofun
  | cons hl _ ih =>
    rw [forall_mem_cons] at hsort
    rw [all_cons, and_eq_true, forall_mem_cons, ih hsort.2, not_eq_true', ← not_eq_true,
      hk.equal hl (hv.trans hsort.1.symm) (hv ▸ hflat)]

lemma distinct_iff : distinct ks = true ↔ vs.Pairwise (· ≠ ·) := by
  induction hrep with
  | nil => exact iff_of_true rfl List.Pairwise.nil
  | cons hk ht ih =>
    rw [forall_mem_cons] at hsort
    rw [distinct, and_eq_true, pairwise_cons,
      all_differ_iff ht hsort.2 hflat hk hsort.1, ih hsort.2]

end Booleans

lemma isChain_eq_iff {α : Type*} {v : α} {l : List α} :
    (v :: l).IsChain (· = ·) ↔ ∀ u ∈ l, v = u := by
  rw [isChain_iff_pairwise, pairwise_cons]
  refine ⟨fun h => h.1, fun h => ⟨h, pairwise_iff_forall_sublist.2 fun hab => ?_⟩⟩
  have hsub := hab.subset
  exact (h _ (hsub (.head _))).symm.trans (h _ (hsub (.tail _ (.head _))))

lemma flag_xor (p q : Bool) : flag p ^^^ flag q = flag (p ^^ q) := by
  cases p <;> cases q <;> rfl

section Connectives

variable (h : Forall₂ Kid.IsBool ks vs)
include h

lemma all_truth : ks.all truth = vs.all truth := by
  induction h with
  | nil => rfl
  | cons hkv _ ih => rw [all_cons, all_cons, hkv.truth, ih]

lemma any_truth : ks.any truth = vs.any truth := by
  induction h with
  | nil => rfl
  | cons hkv _ ih => rw [any_cons, any_cons, hkv.truth, ih]

lemma foldl_xor (p : Bool) : ks.foldl (fun r k => r ^^^ flag k.truth) (flag p) =
    flag (vs.foldl (fun b v => b ^^ v.truth) p) := by
  induction h generalizing p with
  | nil => rfl
  | cons hkv _ ih => rw [foldl_cons, foldl_cons, hkv.truth, flag_xor, ih]

end Connectives

/-! ## Operators -/

lemma rep_bool {p q : Bool} (h : p = q) : Kid.Rep ⟨1, [flag p]⟩ (.bool q) := h ▸ rfl

lemma rep_bit {p q : Bool} (h : p = q) :
    Kid.Rep ⟨1, [flag p]⟩ (.bv 1 (BitVec.ofBool q)) := h ▸ ⟨rfl, holds_flag p⟩

section Operators

variable {s : Srt} (hs : s.Ok) (hvs : ∀ v ∈ vs, v.sort.Ok) (hrep : Forall₂ Kid.Rep ks vs)

include hrep in
/-- The connectives. -/
lemma wide_rep_bool {f : Fn} (hf : f.Typed p0 p1 (vs.map sort) s)
    (hmem : f = .not ∨ f = .and ∨ f = .or ∨ f = .xor ∨ f = .implies) :
    Kid.Rep ⟨s.width, wide s.width p0 p1 ks f⟩ (f.denote p0 p1 vs) := by
  rcases hmem with rfl | rfl | rfl | rfl | rfl
  · obtain ⟨ha, rfl⟩ := hf
    have h := isBool_of_rep hrep (by rw [ha]; exact fun t ht => mem_singleton.1 ht)
    obtain ⟨v, rfl, -⟩ := map_eq_singleton_iff.1 ha
    obtain ⟨k, l, hk, -, rfl⟩ := forall₂_cons_right_iff.1 h
    exact rep_bool (congrArg not hk.truth)
  · obtain ⟨-, ha, rfl⟩ := hf
    exact rep_bool (all_truth (isBool_of_rep hrep ha))
  · obtain ⟨-, ha, rfl⟩ := hf
    exact rep_bool (any_truth (isBool_of_rep hrep ha))
  · obtain ⟨-, ha, rfl⟩ := hf
    exact congrArg (fun d => Kid.mk 1 [d]) (foldl_xor (isBool_of_rep hrep ha) false)
  · obtain ⟨ha, rfl⟩ := hf
    have h :=
      isBool_of_rep hrep (by rw [ha, forall_mem_cons, forall_mem_singleton]; exact ⟨rfl, rfl⟩)
    obtain ⟨v, vs', rfl, -, hta⟩ := map_eq_cons_iff.1 ha
    obtain ⟨u, rfl, -⟩ := map_eq_singleton_iff.1 hta
    obtain ⟨k, l, hk, hl, rfl⟩ := forall₂_cons_right_iff.1 h
    obtain ⟨k', l', hk', -, rfl⟩ := forall₂_cons_right_iff.1 hl
    exact rep_bool (congrArg₂ (fun p q => !p || q) hk.truth hk'.truth)

open Classical in
include hrep in
/-- Equality and the choice between two values. -/
lemma wide_rep_core {f : Fn} (hf : f.Typed p0 p1 (vs.map sort) s)
    (hflat : ∀ v ∈ vs, ∀ i e, v.sort ≠ .array i e)
    (hmem : f = .eq ∨ f = .distinct ∨ f = .ite) :
    Kid.Rep ⟨s.width, wide s.width p0 p1 ks f⟩ (f.denote p0 p1 vs) := by
  rcases hmem with rfl | rfl | rfl
  · obtain ⟨rfl, hlen, t, ht⟩ := hf
    have hsort : ∀ v ∈ vs, v.sort = t := fun v hv => ht _ (mem_map_of_mem hv)
    cases hrep with
    | nil => nomatch hlen
    | @cons k v ks vs hk hta =>
      rw [forall_mem_cons] at hsort hflat
      refine rep_bool (eq_iff_iff.2 (.trans ?_ decide_eq_true_iff.symm))
      rw [isChain_eq_iff]
      exact all_equal_iff hta hsort.2 (hsort.1 ▸ hflat.1) hk hsort.1
  · obtain ⟨rfl, hlen, t, ht⟩ := hf
    have hsort : ∀ v ∈ vs, v.sort = t := fun v hv => ht _ (mem_map_of_mem hv)
    cases hrep with
    | nil => nomatch hlen
    | @cons k v ks vs hk hta =>
      refine rep_bool (eq_iff_iff.2 (.trans ?_ decide_eq_true_iff.symm))
      have hv := (forall_mem_cons.1 hsort).1
      exact distinct_iff (.cons hk hta) hsort (hv ▸ (forall_mem_cons.1 hflat).1)
  · obtain ⟨c, l, rfl, hc, hta⟩ := map_eq_cons_iff.1 (show vs.map sort = [.bool, s, s] from hf)
    obtain ⟨v, l, rfl, hv, hta⟩ := map_eq_cons_iff.1 hta
    obtain ⟨u, rfl, hu⟩ := map_eq_singleton_iff.1 hta
    obtain ⟨k, l, hk, hl, rfl⟩ := forall₂_cons_right_iff.1 hrep
    obtain ⟨m, l, hm, hl', rfl⟩ := forall₂_cons_right_iff.1 hl
    obtain ⟨n, l, hn, -, rfl⟩ := forall₂_cons_right_iff.1 hl'
    have hwi : ∀ (k : Kid) (v : Value), k.Rep v → v.sort = s → (∀ i e, v.sort ≠ .array i e) →
        Kid.mk s.width k.words = k := by
      rintro ⟨w, a⟩ (p | ⟨w, x⟩ | ⟨i, e, g⟩) hk rfl hflat
      · cases hk
        rfl
      · obtain ⟨rfl, -⟩ := hk
        rfl
      · exact absurd rfl (hflat i e)
    rw [forall_mem_cons, forall_mem_cons, forall_mem_singleton] at hflat
    change Kid.Rep ⟨s.width, if k.truth then m.words else n.words⟩ (if c.truth then v else u)
    rw [(hk.isBool hc).truth]
    split
    · rwa [hwi m v hm hv hflat.2.1]
    · rwa [hwi n u hn hu hflat.2.2]

include hs hrep in
/-- Operators with one vector, or two, and a vector of that width. -/
lemma wide_rep_bv {f : Fn} (hf : f.Typed p0 p1 (vs.map sort) s)
    (hmem : f = .bvNot ∨ f = .bvNeg ∨ f = .rotl ∨ f = .rotr ∨ f = .bvNand ∨ f = .bvNor ∨
      f = .bvXnor ∨ f = .bvUdiv ∨ f = .bvUrem ∨
      f = .bvSdiv ∨ f = .bvSrem ∨ f = .bvSmod ∨ f = .bvShl ∨ f = .bvLshr ∨ f = .bvAshr) :
    Kid.Rep ⟨s.width, wide s.width p0 p1 ks f⟩ (f.denote p0 p1 vs) := by
  rcases hmem with
    rfl | rfl | rfl | rfl | rfl | rfl | rfl | rfl | rfl | rfl | rfl | rfl | rfl | rfl | rfl <;>
    obtain ⟨w, har, rfl⟩ := hf <;> have hw : WidthOk w := hs
  · obtain ⟨a, x, rfl, rfl, ha⟩ := rep_unary hrep har
    refine ⟨rfl, ha.map hw.1 _ not (fun x i hi => ?_) fun i hi => ?_⟩
    · rw [getLsbD_not, decide_eq_true hi, Bool.true_and]
    · change (~~~((bv w x).bits w)).getLsbD i = _
      rw [getLsbD_not, decide_eq_true hi, Bool.true_and]
  · obtain ⟨a, x, rfl, rfl, ha⟩ := rep_unary hrep har
    exact ⟨rfl, ha.negTop hw.1⟩
  · obtain ⟨a, x, rfl, rfl, ha⟩ := rep_unary hrep har
    refine ⟨rfl, ?_⟩
    have hrot : ((bv w x).bits w).rotateLeft p0 = ((bv w x).bits w).rotateLeft (p0 % w) := by
      refine eq_of_getLsbD_eq fun i hi => ?_
      rw [getLsbD_rotateLeft, getLsbD_rotateLeft, mod_mod]
    change Holds _ (((bv w x).bits w).rotateLeft p0)
    rw [hrot]
    exact holds_rotate hw.1 ha (mod_lt _ hw.1)
  · obtain ⟨a, x, rfl, rfl, ha⟩ := rep_unary hrep har
    exact ⟨rfl, holds_rotateRight hw.1 ha p0⟩
  all_goals obtain ⟨a, b, x, y, rfl, rfl, ha, hb⟩ := rep_binary hrep har
  · refine ⟨rfl, ha.zipWith hw.1 _ (fun p q => !(p && q)) (fun x y i hi => ?_) (fun i hi => ?_) hb⟩
    · rw [getLsbD_not, decide_eq_true hi, Bool.true_and, getLsbD_and]
    · change (~~~((bv w x).bits w &&& (bv w y).bits w)).getLsbD i = _
      rw [getLsbD_not, decide_eq_true hi, Bool.true_and, getLsbD_and]
  · refine ⟨rfl, ha.zipWith hw.1 _ (fun p q => !(p || q)) (fun x y i hi => ?_) (fun i hi => ?_) hb⟩
    · rw [getLsbD_not, decide_eq_true hi, Bool.true_and, getLsbD_or]
    · change (~~~((bv w x).bits w ||| (bv w y).bits w)).getLsbD i = _
      rw [getLsbD_not, decide_eq_true hi, Bool.true_and, getLsbD_or]
  · refine ⟨rfl, ha.zipWith hw.1 _ (fun p q => !(p ^^ q)) (fun x y i hi => ?_) (fun i hi => ?_) hb⟩
    · rw [getLsbD_not, decide_eq_true hi, Bool.true_and, getLsbD_xor]
    · change (~~~((bv w x).bits w ^^^ (bv w y).bits w)).getLsbD i = _
      rw [getLsbD_not, decide_eq_true hi, Bool.true_and, getLsbD_xor]
  · exact ⟨rfl, holds_udiv hw.1 ha hb⟩
  · exact ⟨rfl, holds_urem hw.1 ha hb⟩
  · exact ⟨rfl, holds_sdiv hw.1 ha hb⟩
  · exact ⟨rfl, holds_srem hw.1 ha hb⟩
  · exact ⟨rfl, holds_smod hw.1 ha hb⟩
  · exact ⟨rfl, holds_shl hw ha hb⟩
  · exact ⟨rfl, holds_lshr hw ha hb⟩
  · exact ⟨rfl, holds_ashr hw ha hb⟩

include hs hrep in
/-- Operators with any number of vectors. -/
lemma wide_rep_nary {f : Fn} (hf : f.Typed p0 p1 (vs.map sort) s)
    (hmem : f = .bvAnd ∨ f = .bvOr ∨ f = .bvXor ∨ f = .bvAdd ∨ f = .bvSub ∨ f = .bvMul) :
    Kid.Rep ⟨s.width, wide s.width p0 p1 ks f⟩ (f.denote p0 p1 vs) := by
  rcases hmem with rfl | rfl | rfl | rfl | rfl | rfl <;> obtain ⟨w, hne, har, rfl⟩ := hf <;>
    have hw : WidthOk w := hs <;>
    obtain ⟨a, x, ks, vs, rfl, rfl, ha, ht⟩ := rep_nary hrep hne har
  · refine ⟨rfl, foldl_words (P := fun d z => Holds d z) (fun hd hb => ?_) ht ha⟩
    exact hd.zipWith_pure hw.1 _ (· && ·) rfl (fun x y i _ => getLsbD_and)
      (fun i _ => getLsbD_and) hb
  · refine ⟨rfl, foldl_words (P := fun d z => Holds d z) (fun hd hb => ?_) ht ha⟩
    exact hd.zipWith_pure hw.1 _ (· || ·) rfl (fun x y i _ => getLsbD_or) (fun i _ => getLsbD_or) hb
  · refine ⟨rfl, foldl_words (P := fun d z => Holds d z) (fun hd hb => ?_) ht ha⟩
    exact hd.zipWith_pure hw.1 _ (· ^^ ·) rfl (fun x y i _ => getLsbD_xor)
      (fun i _ => getLsbD_xor) hb
  · exact ⟨rfl, (foldl_words (P := fun d z => HoldsLow d z)
      (fun hd hb => hd.add hw.1 (.of_holds hb)) ht (.of_holds ha)).clearTop hw.1⟩
  · exact ⟨rfl, (foldl_words (P := fun d z => HoldsLow d z)
      (fun hd hb => hd.sub hw.1 (.of_holds hb)) ht (.of_holds ha)).clearTop hw.1⟩
  · exact ⟨rfl, (foldl_words (P := fun d z => HoldsLow d z)
      (fun hd hb => hd.mul hw.1 (.of_holds hb)) ht (.of_holds ha)).clearTop hw.1⟩

include hvs hrep in
/-- Comparisons and reductions. -/
lemma wide_rep_test {f : Fn} (hf : f.Typed p0 p1 (vs.map sort) s)
    (hmem : f = .bvRedor ∨ f = .bvRedand ∨ f = .bvUlt ∨ f = .bvUle ∨ f = .bvUgt ∨ f = .bvUge ∨
      f = .bvSlt ∨ f = .bvSle ∨ f = .bvSgt ∨ f = .bvSge ∨
      f = .bvComp ∨ f = .bvUltbv ∨ f = .bvSltbv) :
    Kid.Rep ⟨s.width, wide s.width p0 p1 ks f⟩ (f.denote p0 p1 vs) := by
  rcases hmem with rfl | rfl | rfl | rfl | rfl | rfl | rfl | rfl | rfl | rfl | rfl | rfl | rfl <;>
    obtain ⟨w, har, rfl⟩ := hf
  · obtain ⟨a, x, rfl, rfl, ha⟩ := rep_unary hrep har
    refine rep_bit ?_
    change (!isZero a) = _
    rw [ha.isZero]
    change _ = !((bv w x).bits w == 0#w)
    rw [beq_eq_decide]
  · obtain ⟨a, x, rfl, rfl, ha⟩ := rep_unary hrep har
    have hw := hvs _ (.head _)
    exact rep_bit (ha.redand hw.1)
  all_goals obtain ⟨a, b, x, y, rfl, rfl, ha, hb⟩ := rep_binary hrep har
  · exact rep_bool (ha.ult hb)
  · exact rep_bool ((congrArg not (hb.ult ha)).trans (ule_eq_not_ult _ _).symm)
  · exact rep_bool (hb.ult ha)
  · exact rep_bool ((congrArg not (ha.ult hb)).trans (ule_eq_not_ult _ _).symm)
  · exact rep_bool (ha.slt hb)
  · exact rep_bool ((congrArg not (hb.slt ha)).trans sle_eq_not_slt.symm)
  · exact rep_bool (hb.slt ha)
  · exact rep_bool ((congrArg not (ha.slt hb)).trans sle_eq_not_slt.symm)
  · exact rep_bit (ha.equal hb)
  · exact rep_bit (ha.ult hb)
  · exact rep_bit (ha.slt hb)

include hrep in
/-- The operands of a concatenation. -/
lemma isVector_of_rep (hvs : ∀ v ∈ vs, v.sort.Ok) {ws : List ℕ} (ha : vs.map sort = ws.map .bv) :
    Forall₂ Kid.IsVector ks vs ∧ totalWidth ks = ws.sum := by
  induction hrep generalizing ws with
  | nil =>
    obtain rfl := map_eq_nil_iff.1 ha.symm
    exact ⟨.nil, rfl⟩
  | cons hkv _ ih =>
    obtain ⟨w, ws, rfl, hw, ht⟩ := map_eq_cons_iff.1 ha.symm
    rw [forall_mem_cons] at hvs
    obtain ⟨hvec, hsum⟩ := ih hvs.2 ht.symm
    have hok := hw ▸ hvs.1
    obtain ⟨x, rfl, hkw, hx⟩ := hkv.isBv hw.symm
    refine ⟨.cons ⟨hkw ▸ hok.1, ?_⟩ hvec, ?_⟩
    · rw [hkw]
      exact ⟨x, rfl, hkw, hx⟩
    · rw [totalWidth_cons, hkw, hsum, sum_cons]

include hs hvs hrep in
/-- Parts of a vector and longer ones. -/
lemma wide_rep_shape {f : Fn} (hf : f.Typed p0 p1 (vs.map sort) s)
    (hmem : f = .extract ∨ f = .zext ∨ f = .sext ∨ f = .repeated ∨ f = .concat) :
    Kid.Rep ⟨s.width, wide s.width p0 p1 ks f⟩ (f.denote p0 p1 vs) := by
  rcases hmem with rfl | rfl | rfl | rfl | rfl
  · obtain ⟨w, har, -, -, rfl⟩ := hf
    obtain ⟨a, x, rfl, rfl, ha⟩ := rep_unary hrep har
    exact ⟨rfl, holds_extract ha p0 p1⟩
  · obtain ⟨w, har, rfl⟩ := hf
    obtain ⟨a, x, rfl, rfl, ha⟩ := rep_unary hrep har
    have hw := hvs _ (.head _)
    exact ⟨rfl, holds_extendWords hw.1 ha (le_add_right w p0)⟩
  · obtain ⟨w, har, rfl⟩ := hf
    obtain ⟨a, x, rfl, rfl, ha⟩ := rep_unary hrep har
    have hw := hvs _ (.head _)
    exact ⟨rfl, holds_signExtend hw.1 ha (Nat.le_add_right w p0)⟩
  · obtain ⟨w, har, rfl⟩ := hf
    obtain ⟨a, x, rfl, rfl, ha⟩ := rep_unary hrep har
    have hw := hvs _ (.head _)
    have hpos := hs
    exact ⟨rfl, holds_repeatBits ha hw.1 hpos.1⟩
  · obtain ⟨ws, hne, har, rfl⟩ := hf
    have hpos := hs
    obtain ⟨hvec, hsum⟩ := isVector_of_rep hrep hvs har
    obtain ⟨hlen, -, hval⟩ := concatBits_spec hvec (hsum.trans_le (nwords_bounds hpos.1).2)
    cases hvec with
    | nil => exact absurd (map_eq_nil_iff.1 har.symm) hne
    | @cons k v ks vs hkv ht =>
      obtain ⟨-, x, rfl, -, hx⟩ := hkv
      obtain ⟨z, hz, hzv⟩ := foldl_append ht x hsum.symm
      change Kid.Rep ⟨ws.sum, (concatBits (nwords ws.sum) (k :: ks)).1⟩
        (vs.foldl append (.bv k.width x))
      rw [hz]
      refine ⟨rfl, hlen, ?_⟩
      rw [hval, hzv, concatValue, hx.value]

include hs hvs hrep in
/-- The loops over words compute an operator. -/
lemma wide_rep {f : Fn} (hf : f.Typed p0 p1 (vs.map sort) s)
    (hflat : ∀ v ∈ vs, ∀ i e, v.sort ≠ .array i e) :
    Kid.Rep ⟨s.width, wide s.width p0 p1 ks f⟩ (f.denote p0 p1 vs) := by
  have har : ∀ i e l, vs.map sort ≠ .array i e :: l := by
    intro i e l heq
    obtain ⟨v, l, rfl, hv, -⟩ := map_eq_cons_iff.1 heq
    exact hflat v (.head _) i e hv
  cases f
  case not | and | or | xor | implies => exact wide_rep_bool hrep hf (by decide)
  case eq | distinct | ite => exact wide_rep_core hrep hf hflat (by decide)
  case bvNot | bvNeg | rotl | rotr | bvNand | bvNor | bvXnor | bvUdiv | bvUrem | bvSdiv |
      bvSrem | bvSmod | bvShl | bvLshr | bvAshr =>
    exact wide_rep_bv hs hrep hf (by decide)
  case bvAnd | bvOr | bvXor | bvAdd | bvSub | bvMul => exact wide_rep_nary hs hrep hf (by decide)
  case bvRedor | bvRedand | bvUlt | bvUle | bvUgt | bvUge | bvSlt | bvSle | bvSgt | bvSge |
      bvComp | bvUltbv | bvSltbv =>
    exact wide_rep_test hvs hrep hf (by decide)
  case extract | zext | sext | repeated | concat => exact wide_rep_shape hs hvs hrep hf (by decide)
  case select =>
    obtain ⟨i, e, ha, -⟩ := hf
    exact absurd ha (har i e _)
  case store =>
    obtain ⟨i, e, ha, -⟩ := hf
    exact absurd ha (har i e _)

/-! ## The path for one word -/

lemma setWidth_sub (h : w ≤ 64) (x y : Word) :
    (x - y).setWidth w = x.setWidth w - y.setWidth w := by
  have hsum : (x - y).setWidth w + y.setWidth w = x.setWidth w := by
    rw [← setWidth_add _ _ h, sub_add_cancel]
  rw [← hsum, add_sub_cancel]

/-- A masked fold over the words of the operands. -/
lemma rep_foldl (hw : 0 < w) (hone : nwords w = 1) (op : ∀ n, BitVec n → BitVec n → BitVec n)
    (hop : ∀ s t : Word, (op 64 s t).setWidth w = op w (s.setWidth w) (t.setWidth w))
    {a : List Word} {x : BitVec w}
    (ha : Holds a ((bv w x).bits w)) (ht : Forall₂ (Kid.IsBv w) ks vs) :
    Kid.Rep ⟨w, [ks.foldl (fun s k => op 64 s k.word) (a.getD 0 0) &&& topMask w]⟩
      (.bv w (vs.foldl (fun z v => op w z (v.bits w)) ((bv w x).bits w))) := by
  refine ⟨rfl, ?_⟩
  rw [← (ha.word hone).2, ← foldl_word hone op hop ht]
  exact holds_masked hw hone _

lemma shl_one (hone : nwords w = 1) (h64 : w ≤ 64) (a : List Word) (n : ℕ) :
    shl a n w = [if w ≤ n then 0 else a.getD 0 0 <<< n &&& topMask w] := by
  rw [shl, hone]
  split
  next hle => rfl
  next hlt =>
    have hn := div_eq_of_lt ((not_le.1 hlt).trans_le h64)
    rw [← clearTop_one hone]
    simp [hn, mod_eq_of_lt ((not_le.1 hlt).trans_le h64)]

lemma lshr_one (hone : nwords w = 1) (h64 : w ≤ 64) (a : List Word) (n : ℕ) :
    lshr a n w = [if w ≤ n then 0 else a.getD 0 0 >>> n] := by
  rw [lshr, hone]
  split
  next hle => rfl
  next hlt =>
    have hn := div_eq_of_lt ((not_le.1 hlt).trans_le h64)
    simp [hn, mod_eq_of_lt ((not_le.1 hlt).trans_le h64)]

include hs hvs hrep in
lemma narrow_rep (hone : nwords s.width = 1) {f : Fn}
    (hf : f.Typed p0 p1 (vs.map sort) s) {d : List Word}
    (hd : narrow s.width p0 p1 ks f = some d) : Kid.Rep ⟨s.width, d⟩ (f.denote p0 p1 vs) := by
  cases f <;> try cases hd
  case bvAdd =>
    obtain ⟨w, hne, har, rfl⟩ := hf
    obtain ⟨a, x, ks, vs, rfl, rfl, ha, ht⟩ := rep_nary hrep hne har
    have hrep := rep_foldl hs.1 hone (fun _ => (· + ·))
      (fun s t => setWidth_add s t (width_le_of_one hs.1 hone)) ha ht
    rwa [← BitVec.zero_add (a.getD 0 0)] at hrep
  case bvSub =>
    obtain ⟨w, hne, har, rfl⟩ := hf
    obtain ⟨a, x, ks, vs, rfl, rfl, ha, ht⟩ := rep_nary hrep hne har
    exact rep_foldl (a := a) hs.1 hone (fun _ => (· - ·))
      (fun s t => setWidth_sub (width_le_of_one hs.1 hone) s t) ha ht
  case bvMul =>
    obtain ⟨w, hne, har, rfl⟩ := hf
    obtain ⟨a, x, ks, vs, rfl, rfl, ha, ht⟩ := rep_nary hrep hne har
    exact rep_foldl (a := a) hs.1 hone (fun _ => (· * ·))
      (fun s t => setWidth_mul s t (width_le_of_one hs.1 hone)) ha ht
  case bvShl =>
    obtain ⟨w, har, rfl⟩ := hf
    obtain ⟨a, b, x, y, rfl, rfl, ha, hb⟩ := rep_binary hrep har
    refine ⟨rfl, ?_⟩
    exact shl_one hone (width_le_of_one hs.1 hone) a _ ▸ holds_shl hs ha hb
  case bvLshr =>
    obtain ⟨w, har, rfl⟩ := hf
    obtain ⟨a, b, x, y, rfl, rfl, ha, hb⟩ := rep_binary hrep har
    refine ⟨rfl, ?_⟩
    exact lshr_one hone (width_le_of_one hs.1 hone) a _ ▸ holds_lshr hs ha hb
  case extract =>
    obtain ⟨w, har, hle, hlt, rfl⟩ := hf
    have hw := hs
    obtain ⟨a, x, rfl, rfl, ha⟩ := rep_unary hrep har
    rw [narrow] at hd
    split at hd
    next hkid =>
      cases hd
      obtain ⟨y, rfl⟩ := length_eq_one_iff.1 (ha.length.trans hkid)
      refine ⟨rfl, ?_⟩
      change Holds [y >>> p1 &&& topMask (p0 - p1 + 1)] (((bv w x).bits w).extractLsb p0 p1)
      have hval := ha.value
      rw [value_singleton] at hval
      have hext : (y >>> p1).setWidth (p0 - p1 + 1) = ((Value.bv w x).bits w).extractLsb p0 p1 := by
        refine eq_of_toNat_eq ?_
        rw [toNat_setWidth, toNat_ushiftRight, extractLsb_toNat, hval]
      rw [← hext]
      exact holds_masked hw.1 hone _
    · cases hd
  case concat =>
    obtain ⟨ws, hne, har, rfl⟩ := hf
    have hw := hs
    obtain ⟨hvec, hsum⟩ := isVector_of_rep hrep hvs har
    have hval := concat_narrow hvec 0 0 one_pos
      (by rw [zero_add, hsum]; exact width_le_of_one hw.1 hone)
    have hlt := concatValue_lt hvec
    have hma := holds_masked hw.1 hone
      (ks.foldl (fun r k => if 64 ≤ k.width then k.word else r <<< k.width ||| k.word) 0)
    cases hvec with
    | nil => exact absurd (map_eq_nil_iff.1 har.symm) hne
    | @cons k v ks vs hkv ht =>
      obtain ⟨-, x, rfl, -, hx⟩ := hkv
      rw [hsum] at hlt
      obtain ⟨z, hz, hzv⟩ := foldl_append ht x hsum.symm
      change Kid.Rep _ (vs.foldl append (.bv k.width x))
      rw [hz]
      refine ⟨rfl, hma.length, hma.value.trans ?_⟩
      rw [toNat_setWidth, hval, show BitVec.toNat (0 : Word) = 0 from rfl, Nat.zero_mul,
        Nat.zero_add, mod_eq_of_lt hlt, hzv, concatValue, hx.value]

/-- An operand holds a vector or a Boolean in one way. -/
lemma Kid.Rep.unique {a b : List Word} {v : Value} (ha : Kid.Rep ⟨w, a⟩ v) (hb : Kid.Rep ⟨w, b⟩ v)
    (hflat : ∀ i e, v.sort ≠ .array i e) :
    a = b := by
  cases v with
  | bool p => exact congrArg words (ha.trans hb.symm)
  | bv w x => exact ha.2.unique hb.2
  | array i e g => exact absurd rfl (hflat i e)

section Eval

variable {f : Fn} (hf : f.Typed p0 p1 (vs.map sort) s)
  (hflat : ∀ v ∈ vs, ∀ i e, v.sort ≠ .array i e)
include hs hvs hrep hf hflat

/-- The words of an operator's result hold its value. -/
lemma evalFn_rep : Kid.Rep ⟨s.width, evalFn s.width p0 p1 ks f⟩ (f.denote p0 p1 vs) := by
  have hwi := wide_rep hs hvs hrep hf hflat
  rw [evalFn]
  split
  next hone =>
    cases hd : narrow s.width p0 p1 ks f with
    | none => exact hwi
    | some d => exact narrow_rep hs hvs hrep hone hf hd
  · exact hwi

/-- The path for one word agrees with the loops over words. -/
lemma evalFn_eq_wide (hsort : ∀ i e, (f.denote p0 p1 vs).sort ≠ .array i e) :
    evalFn s.width p0 p1 ks f = wide s.width p0 p1 ks f :=
  (evalFn_rep hs hvs hrep hf hflat).unique (wide_rep hs hvs hrep hf hflat) hsort

end Eval

end Operators

end LiveHD.Lec
