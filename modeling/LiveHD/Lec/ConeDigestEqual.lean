import LiveHD.Lec.ConeDigestSound

/-!
# Terms with equal cone digests

A constant array has no children, and its payload leaves out the element: equal digests say nothing
about the elements of the constant arrays.  Up to these they say that the terms are the same
obligation.
-/

namespace LiveHD.Lec

open Relation List Terms

variable {D : Type*} {hstr : List Char → D} {combine : D → D → D} {T T' : Terms}
  {names names' : ℕ → Option String}
variable {w w' : Walk D} {a b c : ℕ}

/-- The hash functions have no collisions: a digest is that of one payload with one list of
digests. -/
def NoCollision (hstr : List Char → D) (combine : D → D → D) : Prop :=
  ∀ pay pay' ds ds', nodeDigest hstr combine pay ds = nodeDigest hstr combine pay' ds' →
    pay = pay' ∧ ds = ds'

/-- Nodes to which two walks gave one digest. -/
def SameDigest (w w' : Walk D) (a b : ℕ) : Prop := ∃ d, w.memo a = some d ∧ w'.memo b = some d

/-- Symbols with one name, which two walks gave one number. -/
def SameSymbol (names names' : ℕ → Option String) (w w' : Walk D) (a b : ℕ) : Prop :=
  names a = names' b ∧ ∃ ix, w.symIx a = some ix ∧ w'.symIx b = some ix

namespace SameDigest

lemma symm (h : SameDigest w w' a b) : SameDigest w' w b a := by
  obtain ⟨d, ha, hb⟩ := h
  exact ⟨d, hb, ha⟩

variable (hcol : NoCollision hstr combine) (hT : T.Ok) (hT' : T'.Ok)
variable (hw : WalkOk hstr combine T names w) (hw' : WalkOk hstr combine T' names' w')
include hcol hT hT' hw hw'

/-- What one digest says of the nodes. -/
lemma spec (h : SameDigest w w' a b) : SameNode (T.term a) (T'.term b) ∧
    ((T.term a).kind = .constant → SameSymbol names names' w w' a b) ∧
    List.Forall₂ (SameDigest w w') (T.kids a) (T'.kids b) := by
  obtain ⟨d, ha, hb⟩ := h
  obtain ⟨id, ds, hks, hd, hsym⟩ := hw.digest a d ha
  obtain ⟨id', ds', hks', hd', hsy'⟩ := hw'.digest b d hb
  obtain ⟨hpay, rfl⟩ := hcol _ _ _ _ (hd.symm.trans hd')
  obtain ⟨hn, hid⟩ := sameNode_of_payload hT hT' hpay
  refine ⟨hn, ?_, ?_⟩
  · intro hc
    obtain rfl := hid hc
    obtain ⟨hna, hix⟩ := hsym hc
    obtain ⟨hna', hix'⟩ := hsy' (hn.kind ▸ hc)
    exact ⟨hna.trans hna'.symm, id.2, hix, hix'⟩
  · exact hks.join hks'

/-- A symbol has the digest of one symbol. -/
lemma unique (hb : SameDigest w w' a b) (hc : SameDigest w w' a c)
    (hco : (T.term a).kind = .constant) : b = c := by
  obtain ⟨-, hsy, -⟩ := hb.spec hcol hT hT' hw hw'
  obtain ⟨-, hsym, -⟩ := hc.spec hcol hT hT' hw hw'
  obtain ⟨hna, ix, hix, hixb⟩ := hsy hco
  obtain ⟨hna', ix', hix', hixc⟩ := hsym hco
  cases (hix.symm.trans hix')
  exact hw'.apart b c ix hixb hixc (hna.symm.trans hna')

/-- The terms have equally many constant arrays. -/
lemma length_arrayBases (h : SameDigest w w' a b) :
    (T.arrayBases a).length = (T'.arrayBases b).length := by
  induction a using Nat.strong_induction_on generalizing b with
  | _ a ih =>
    obtain ⟨hn, -, hks⟩ := h.spec hcol hT hT' hw hw'
    by_cases har : (T.term a).kind = .constArray
    · rw [arrayBases_of_eq har, arrayBases_of_eq (hn.kind ▸ har),
        length_singleton, length_singleton]
    · rw [hT.arrayBases_of_ne har, hT'.arrayBases_of_ne (hn.kind ▸ har),
        length_flatMap, length_flatMap]
      exact congrArg sum (hks.map_eq_map fun x hx y hxy => ih x (hT.kids_lt hx) hxy)

end SameDigest

/-- Nodes with one digest whose constant arrays have equal elements. -/
def Alike (T T' : Terms) (w w' : Walk D) (a b : ℕ) : Prop := SameDigest w w' a b ∧
    T.arrayBases a = T'.arrayBases b

namespace Alike

lemma symm (h : Alike T T' w w' a b) : Alike T' T w' w b a := ⟨h.1.symm, h.2.symm⟩

variable (hcol : NoCollision hstr combine) (hT : T.Ok) (hT' : T'.Ok)
variable (hw : WalkOk hstr combine T names w) (hw' : WalkOk hstr combine T' names' w')
include hcol hT hT' hw hw'

lemma kids (h : Alike T T' w w' a b) : List.Forall₂ (Alike T T' w w') (T.kids a) (T'.kids b) := by
  obtain ⟨hdi, hba⟩ := h
  obtain ⟨hn, -, hks⟩ := hdi.spec hcol hT hT' hw hw'
  by_cases har : (T.term a).kind = .constArray
  · rw [Terms.kids, Terms.kids, if_pos har, if_pos (hn.kind ▸ har)]
    exact .nil
  · rw [hT.arrayBases_of_ne har, hT'.arrayBases_of_ne (hn.kind ▸ har)] at hba
    have hle := hks.imp fun x y hxy => hxy.length_arrayBases hcol hT hT' hw hw'
    exact .mp (fun x y hxy heq => ⟨hxy, heq⟩) hks (List.forall₂_of_flatMap_eq hle hba)

open Classical in
/-- The renaming that two walks define. -/
lemma builtAlike : ∃ f, BuiltAlike T T' f (Alike T T' w w') := by
  refine ⟨fun a => if h : ∃ b, Alike T T' w w' a b then h.choose else a, ?_, ?_, ?_, ?_⟩
  · intro a b h
    exact (h.1.spec hcol hT hT' hw hw').1
  · intro a b h hc
    have hex : ∃ b, Alike T T' w w' a b := ⟨b, h⟩
    rw [dif_pos hex]
    exact hex.choose_spec.1.unique hcol hT hT' hw hw' h.1 hc
  · intro a b h har
    have hk := (h.1.spec hcol hT hT' hw hw').1.kind
    have hba := h.2
    rw [Terms.arrayBases_of_eq har, Terms.arrayBases_of_eq (hk ▸ har)] at hba
    exact List.singleton_inj.1 hba
  · intro a b h
    exact h.kids hcol hT hT' hw hw'

/-- Terms with one digest whose constant arrays have equal elements are equal up to a renaming. -/
lemma equalUpTo (h : Alike T T' w w' a b) : ∃ f, EqualUpTo T names T' names' f a b := by
  obtain ⟨f, hf⟩ := builtAlike hcol hT hT' hw hw'
  have him : ∀ x ∈ T.symbols a, ∃ y ∈ T'.symbols b, Alike T T' w w' x y ∧ f x = y := by
    rintro x ⟨hre, hc⟩
    obtain ⟨y, hy, hxy⟩ := hf.exists_of_reaches h hre
    exact ⟨y, ⟨hy, (hf.node x y hxy).kind ▸ hc⟩, hxy, hf.symbol x y hxy hc⟩
  refine ⟨f, ⟨?_, ?_, ?_⟩, ?_, ?_, _, h, hf⟩
  · intro x hx
    obtain ⟨y, hy, -, rfl⟩ := him x hx
    exact hy
  · intro x hx x' hx' heq
    obtain ⟨y, hy, hxy, rfl⟩ := him x hx
    obtain ⟨y', -, hxy', rfl⟩ := him x' hx'
    rw [← heq] at hxy'
    exact hxy.1.symm.unique hcol hT' hT hw' hw hxy'.1.symm hy.2
  · rintro y ⟨hre, hc⟩
    obtain ⟨g, hg⟩ := builtAlike hcol hT' hT hw' hw
    obtain ⟨x, hx, hyx⟩ := hg.exists_of_reaches h.symm hre
    have hco := (hg.node y x hyx).kind ▸ hc
    exact ⟨x, ⟨hx, hco⟩, hf.symbol x y hyx.symm hco⟩
  · intro x hx
    obtain ⟨y, -, hxy, rfl⟩ := him x hx
    exact (((hxy.1.spec hcol hT hT' hw hw').2.1 hx.2).1).symm
  · intro x hx
    obtain ⟨y, -, hxy, rfl⟩ := him x hx
    exact (hf.node _ _ hxy).sort.symm

end Alike

/-- Equal digests are of one obligation if and only if the constant arrays have the same elements,
and a term with an unnamed symbol gets none. -/
theorem coneDigest_equal_iff (hcol : NoCollision hstr combine) (hT : T.Ok) (hbase : T.ConstBases)
    (hT' : T'.Ok) (hbase' : T'.ConstBases)
    (names names' : ℕ → Option String) :
    (∀ t, Unnamed T names t → coneDigest hstr combine T names t = none) ∧
    ∀ s t, (coneDigest hstr combine T names s).isSome = true →
    coneDigest hstr combine T names s = coneDigest hstr combine T' names' t →
      ((∃ f, EqualUpTo T names T' names' f s t) ∧ (T.Satisfiable s ↔ T'.Satisfiable t) ↔
        T.arrayBases s = T'.arrayBases t) := by
  constructor
  · intro t h
    exact coneDigest_eq_none hT h
  · intro s t hsome heq
    obtain ⟨d, hd⟩ := Option.isSome_iff_exists.1 hsome
    have hs := coneDigest_spec hstr combine names hT s
    have ht := coneDigest_spec hstr combine names' hT' t
    rw [hd] at hs
    rw [← heq, hd] at ht
    obtain ⟨w, hw, hmemo⟩ := hs
    obtain ⟨w', hw', hmemo'⟩ := ht
    constructor
    · rintro ⟨⟨f, hf⟩, -⟩
      obtain ⟨R, hst, hR⟩ := hf.same
      exact hR.arrayBases_eq hT hT' hst
    · intro hbases
      obtain ⟨f, hf⟩ := Alike.equalUpTo hcol hT hT' hw hw' ⟨⟨d, hmemo, hmemo'⟩, hbases⟩
      exact ⟨⟨f, hf⟩, hf.satisfiable_iff hT hbase hT' hbase'⟩

/-! ### A memory of one word -/

/-- What a hash without collisions computes. -/
inductive Hashed
  | text (pay : List Char)
  | pair (l r : Hashed)
deriving DecidableEq

open Hashed

lemma Hashed.noCollision : NoCollision text pair := by
  intro pay pay' ds ds' h
  rw [nodeDigest, nodeDigest] at h
  induction ds using List.reverseRecOn generalizing ds' with
  | nil =>
    cases ds' using List.reverseRecOn with
    | nil => exact ⟨text.inj h, rfl⟩
    | append_singleton ds' d' =>
      rw [foldl_append] at h
      cases h
  | append_singleton ds d ih =>
    cases ds' using reverseRecOn with
    | nil =>
      rw [foldl_append] at h
      cases h
    | append_singleton ds' d' =>
      rw [foldl_append, foldl_append] at h
      obtain ⟨hin, hla⟩ := pair.inj h
      obtain ⟨hpay, rfl⟩ := ih ds' hin
      exact ⟨hpay, hla ▸ rfl⟩

/-- Whether an element of a constant array is `1`. -/
def arrayTerms (element : Char) : Terms :=
  [{ kind := .constBitvector, sort := .bv 1, hex := [element] },
    { kind := .constArray, sort := .array 1 1, base := 0 },
   { kind := .constant, sort := .bv 1 },
   { kind := .fn .select, sort := .bv 1, children := [1, 2] },
   { kind := .constBitvector, sort := .bv 1, hex := ['1'] },
   { kind := .fn .eq, sort := .bool, children := [3, 4] }]

lemma arrayTerms_ok (element : Char) (h : digitsValue [element] < 2) : (arrayTerms element).Ok := by
  have h1 : WidthOk 1 := by simp [WidthOk]
  refine .of_lt fun t ht => ?_
  change t < 6 at ht
  interval_cases t
  · exact ⟨by rintro _ ⟨⟩, h1, 1, rfl, h⟩
  · exact ⟨List.forall_mem_singleton.2 one_pos, ⟨h1, h1⟩, 1, 1, rfl, rfl⟩
  · exact ⟨by rintro _ ⟨⟩, h1, trivial⟩
  · exact ⟨by simp [Terms.parts, term, arrayTerms], h1, 1, 1, rfl, rfl⟩
  · exact ⟨by rintro _ ⟨⟩, h1, 1, rfl, (by decide : digitsValue ['1'] < 2 ^ 1)⟩
  · exact ⟨by simp [parts, term, arrayTerms], trivial, rfl, le_rfl, .bv 1, by
      simp [sort, term, arrayTerms]⟩

lemma arrayTerms_constant {element : Char} {t : ℕ}
    (ht : ((arrayTerms element).term t).kind = .constant) : t = 2 := by
  rcases lt_or_ge t 6 with hlt | hle
  · match t, hlt with
    | 2, _ => rfl
    | 0, _ | 1, _ | 3, _ | 4, _ | 5, _ => cases ht
  · rw [Terms.term_eq_default hle] at ht
    cases ht

/-- The digest of the term. -/
def arrayDigest (element : Char) : Option Hashed :=
  coneDigest Hashed.text pair (arrayTerms element) (fun _ => some "index") 5

lemma arrayDigest_eq : (arrayDigest '0').isSome = true ∧
    arrayDigest '0' = arrayDigest '1' := by decide +kernel

lemma arrayTerms_arrayBases {element : Char} (h : (arrayTerms element).Ok) :
    (arrayTerms element).arrayBases 5 = [digitsValue [element]] := by
  have har : (arrayTerms element).arrayBases 1 = [digitsValue [element]] :=
    Terms.arrayBases_of_eq rfl
  have hin : (arrayTerms element).arrayBases 2 = [] := h.arrayBases_of_ne Kind.noConfusion
  have hone : (arrayTerms element).arrayBases 4 = [] := h.arrayBases_of_ne Kind.noConfusion
  have hse : (arrayTerms element).arrayBases 3 = [1, 2].flatMap (arrayTerms element).arrayBases :=
    h.arrayBases_of_ne Kind.noConfusion
  have hr : (arrayTerms element).arrayBases 5 = [3, 4].flatMap (arrayTerms element).arrayBases :=
    h.arrayBases_of_ne Kind.noConfusion
  simp [hr, hse, har, hin, hone]

/-- The term compares the element with `1`. -/
lemma arrayTerms_denote {element : Char} (h : (arrayTerms element).Ok) (ρ : ℕ → Value) :
    (arrayTerms element).denote ρ 5 = .bool
    (decide (BitVec.ofNat 1 (digitsValue [element]) = 1#1)) := by
  have hba : (arrayTerms element).denote ρ 0 = .bv 1 (BitVec.ofNat 1 (digitsValue [element])) :=
    h.denote_of_constBitvector rfl
  have hone : (arrayTerms element).denote ρ 4 = .bv 1 1#1 := h.denote_of_constBitvector rfl
  have har : (arrayTerms element).denote ρ 1 = .array 1 1 fun _ =>
      BitVec.ofNat 1 (digitsValue [element]) := by
    rw [h.denote_constArray ρ rfl rfl]
    show Value.array 1 1 (fun _ => ((arrayTerms element).denote ρ 0).bits 1) = _
    rw [hba, Value.bits_bv]
  have hse : (arrayTerms element).denote ρ 3 = .bv 1 (BitVec.ofNat 1 (digitsValue [element])) := by
    rw [h.denote_fn ρ rfl]
    show Fn.select.denote 0 0 [(arrayTerms element).denote ρ 1, (arrayTerms element).denote ρ 2] = _
    rw [har]
    rfl
  rw [h.denote_fn ρ rfl]
  show Fn.eq.denote 0 0 [(arrayTerms element).denote ρ 3, (arrayTerms element).denote ρ 4] = _
  rw [hse, hone]
  simp [Fn.denote]

/-- The constant array of `1` and that of `0` have one digest, and one of the obligations is
satisfiable. -/
theorem coneDigest_array : arrayDigest '0' = arrayDigest '1' ∧ (arrayDigest '0').isSome = true ∧
    (¬∃ f, EqualUpTo (arrayTerms '0') (fun _ => some "index") (arrayTerms '1')
      (fun _ => some "index") f 5 5) ∧
    ¬((arrayTerms '0').Satisfiable 5 ↔ (arrayTerms '1').Satisfiable 5) := by
  have h0 := arrayTerms_ok '0' (by decide)
  have h1 := arrayTerms_ok '1' (by decide)
  refine ⟨arrayDigest_eq.2, arrayDigest_eq.1, ?_, ?_⟩
  · rintro ⟨f, hf⟩
    obtain ⟨R, hst, hR⟩ := hf.same
    have hbases := hR.arrayBases_eq h0 h1 hst
    rw [arrayTerms_arrayBases h0, arrayTerms_arrayBases h1] at hbases
    exact absurd hbases (by decide)
  · have hunsat : ¬(arrayTerms '0').Satisfiable 5 := by
      rintro ⟨ρ, -, htrue⟩
      rw [arrayTerms_denote h0] at htrue
      exact absurd (Value.bool.inj htrue) (by decide)
    have hsat : (arrayTerms '1').Satisfiable 5 := by
      refine ⟨fun _ => .bv 1 0#1, ?_, ?_⟩
      · rintro a ⟨-, hconst⟩
        obtain rfl := arrayTerms_constant hconst
        rfl
      · rw [arrayTerms_denote h1]
        rfl
    rwa [iff_true_right hsat]

/-- Two symbols of one name, compared in one order or the other. -/
def lessTerms (l r : ℕ) : Terms :=
  [{ kind := .constant, sort := .bv 1 }, { kind := .constant, sort := .bv 1 },
   { kind := .fn .bvUlt, sort := .bool, children := [l, r] }]

lemma lessTerms_ok {l r : ℕ} (hl : l < 2) (hr : r < 2) : (lessTerms l r).Ok := by
  have h1 : WidthOk 1 := by simp [WidthOk]
  refine .of_lt fun t ht => ?_
  change t < 3 at ht
  interval_cases t
  · exact ⟨by rintro _ ⟨⟩, h1, trivial⟩
  · exact ⟨by rintro _ ⟨⟩, h1, trivial⟩
  · refine ⟨?_, trivial, ?_⟩
    · simp only [parts, term, lessTerms]
      exact List.forall_mem_cons.2 ⟨hl, List.forall_mem_singleton.2 hr⟩
    · interval_cases l <;> interval_cases r <;> exact ⟨1, rfl, rfl⟩

lemma lessTerms_constBases (l r : ℕ) : (lessTerms l r).ConstBases := by
  intro t ht
  rcases lt_or_ge t 3 with hlt | hle
  · match t, hlt with
    | 0, _ | 1, _ | 2, _ => cases ht
  · rw [Terms.term_eq_default hle] at ht
    cases ht

lemma lessTerms_arrayBases {l r : ℕ} (h : (lessTerms l r).Ok) (hl : l < 2) (hr : r < 2) :
    (lessTerms l r).arrayBases 2 = [] := by
  have h0 : (lessTerms l r).arrayBases 0 = [] := h.arrayBases_of_ne Kind.noConfusion
  have h1 : (lessTerms l r).arrayBases 1 = [] := h.arrayBases_of_ne Kind.noConfusion
  have h2 : (lessTerms l r).arrayBases 2 = [l, r].flatMap (lessTerms l r).arrayBases :=
    h.arrayBases_of_ne Kind.noConfusion
  rw [h2]
  interval_cases l <;> interval_cases r <;> simp [h0, h1]

/-- A comparison has the digest of the one with the symbols exchanged, and an unnamed symbol gives
none. -/
theorem coneDigest_equal_iff_less : Unnamed (lessTerms 0 1) (fun _ => none) 2 ∧
    coneDigest text pair (lessTerms 0 1) (fun _ => none) 2 = none ∧
    ∃ f, EqualUpTo (lessTerms 0 1) (fun _ => some "x") (lessTerms 1 0)
    (fun _ => some "x") f 2 2 := by
  have h0 : (lessTerms 0 1).Ok := lessTerms_ok (by decide) (by decide)
  have h1 : (lessTerms 1 0).Ok := lessTerms_ok (by decide) (by decide)
  have hbase := lessTerms_constBases 0 1
  have hbase' := lessTerms_constBases 1 0
  have hunnamed : Unnamed (lessTerms 0 1) (fun _ => none) 2 := ⟨0, .single (by decide), rfl, rfl⟩
  refine ⟨hunnamed, (coneDigest_equal_iff noCollision h0 hbase h0 hbase _ fun _ => none).1 2
    hunnamed, ?_⟩
  have hsome : (coneDigest text pair (lessTerms 0 1) (fun _ => some "x") 2).isSome = true := by
    decide +kernel
  have heq : coneDigest text pair (lessTerms 0 1) (fun _ => some "x") 2 =
      coneDigest text pair (lessTerms 1 0) (fun _ => some "x") 2 := by
    decide +kernel
  have hbases : (lessTerms 0 1).arrayBases 2 = (lessTerms 1 0).arrayBases 2 := by
    rw [lessTerms_arrayBases h0 (by decide) (by decide),
      lessTerms_arrayBases h1 (by decide) (by decide)]
  exact (((coneDigest_equal_iff noCollision h0 hbase h1 hbase' _ _).2 2 2 hsome heq).2 hbases).1

end LiveHD.Lec
