import LiveHD.Lec.WordSound

/-!
# SMT-LIB terms

The terms that the term simulator reads, and what they mean.  A solver keeps its terms in a
table in which a term comes after its children; the operators are those of the theories of
fixed-size bit vectors and of arrays over them.  The meaning is given over `BitVec`, whose
operations follow SMT-LIB.
-/

namespace LiveHD.Lec

open List

inductive Srt where
  | bool
  | bv (w : ℕ)
  | array (i e : ℕ)
  /-- A sort outside of the supported ones. -/
  | other
deriving DecidableEq

/-- A positive width whose words are counted in 32 bits without overflow, as every positive
`int` of the encoder's is. -/
def WidthOk (w : ℕ) : Prop := 0 < w ∧ w + 63 < 2 ^ 32

def Srt.Ok : Srt → Prop
  | .bv w => WidthOk w
  | .array i e => WidthOk i ∧ WidthOk e
  | _ => True

/-- The width of a sort's words: that of the elements for an array. -/
def Srt.width : Srt → ℕ
  | .bool => 1
  | .bv w => w
  | .array _ e => e
  | .other => 0

inductive Value where
  | bool (b : Bool)
  | bv (w : ℕ) (x : BitVec w)
  | array (i e : ℕ) (f : BitVec i → BitVec e)

namespace Value

instance : Inhabited Value := ⟨.bool false⟩

def sort : Value → Srt
  | .bool _ => .bool
  | .bv w _ => .bv w
  | .array i e _ => .array i e

def truth : Value → Bool
  | .bool b => b
  | _ => false

def width : Value → ℕ
  | .bv w _ => w
  | _ => 0

/-- The bits of a vector; well-sorted terms ask for its own width only. -/
def bits (w : ℕ) : Value → BitVec w
  | .bv _ x => x.setWidth w
  | _ => 0

@[simp] lemma bits_bv (w : ℕ) (x : BitVec w) : (Value.bv w x).bits w = x := BitVec.setWidth_eq x

def append : Value → Value → Value
  | .bv w x, .bv v y => .bv (w + v) (x ++ y)
  | v, _ => v

def select : Value → Value → Value
  | .array i e f, v => .bv e (f (v.bits i))
  | v, _ => v

def store : Value → Value → Value → Value
  | .array i e f, v, u => .array i e (Function.update f (v.bits i) (u.bits e))
  | v, _, _ => v

end Value

/-! ## Operators -/

/-- The supported operators; each has the operation of the same name in the simulator. -/
inductive Fn where
  | not | and | or | xor | implies | eq | distinct | ite
  | bvNot | bvAnd | bvOr | bvXor | bvNand | bvNor | bvXnor | bvComp | bvNeg
  | bvAdd | bvSub | bvMul | bvUdiv | bvUrem | bvSdiv | bvSrem | bvSmod
  | bvShl | bvLshr | bvAshr
  | bvUlt | bvUle | bvUgt | bvUge | bvSlt | bvSle | bvSgt | bvSge | bvUltbv | bvSltbv
  | bvRedor | bvRedand
  | extract | concat | zext | sext | repeated | rotl | rotr
  | select | store
deriving DecidableEq

namespace Fn

/-- The sorts of an operator's arguments and result, with its indices. -/
def Typed (p0 p1 : ℕ) (args : List Srt) (s : Srt) : Fn → Prop
  | .not => args = [.bool] ∧ s = .bool
  | .and | .or | .xor => args ≠ [] ∧ (∀ a ∈ args, a = .bool) ∧ s = .bool
  | .implies => args = [.bool, .bool] ∧ s = .bool
  | .eq | .distinct => s = .bool ∧ 2 ≤ args.length ∧ ∃ t, ∀ a ∈ args, a = t
  | .ite => args = [.bool, s, s]
  | .bvNot | .bvNeg => ∃ w, args = [.bv w] ∧ s = .bv w
  | .bvAnd | .bvOr | .bvXor | .bvAdd | .bvSub | .bvMul =>
    ∃ w, args ≠ [] ∧ (∀ a ∈ args, a = .bv w) ∧ s = .bv w
  | .bvNand | .bvNor | .bvXnor | .bvUdiv | .bvUrem | .bvSdiv | .bvSrem | .bvSmod | .bvShl |
      .bvLshr | .bvAshr =>
    ∃ w, args = [.bv w, .bv w] ∧ s = .bv w
  | .bvUlt | .bvUle | .bvUgt | .bvUge | .bvSlt | .bvSle | .bvSgt | .bvSge =>
    ∃ w, args = [.bv w, .bv w] ∧ s = .bool
  | .bvComp | .bvUltbv | .bvSltbv => ∃ w, args = [.bv w, .bv w] ∧ s = .bv 1
  | .bvRedor | .bvRedand => ∃ w, args = [.bv w] ∧ s = .bv 1
  | .extract => ∃ w, args = [.bv w] ∧ p1 ≤ p0 ∧ p0 < w ∧ s = .bv (p0 - p1 + 1)
  | .concat => ∃ ws : List ℕ, ws ≠ [] ∧ args = ws.map .bv ∧ s = .bv ws.sum
  | .zext | .sext => ∃ w, args = [.bv w] ∧ s = .bv (w + p0)
  | .repeated => ∃ w, args = [.bv w] ∧ s = .bv (w * p0)
  | .rotl | .rotr => ∃ w, args = [.bv w] ∧ s = .bv w
  | .select => ∃ i e, args = [.array i e, .bv i] ∧ s = .bv e
  | .store => ∃ i e, args = [.array i e, .bv i, .bv e] ∧ s = .array i e

open Classical in
/-- The SMT-LIB meaning of an operator. -/
noncomputable def denote (p0 p1 : ℕ) (args : List Value) (f : Fn) : Value :=
  let arg := fun i => args.getD i default
  let w := (arg 0).width
  let x := (arg 0).bits w
  let y := (arg 1).bits w
  let nary := fun op : BitVec w → BitVec w → BitVec w =>
    Value.bv w ((args.drop 1).foldl (fun z v => op z (v.bits w)) x)
  match f with
  | .not => .bool (!(arg 0).truth)
  | .and => .bool (args.all Value.truth)
  | .or => .bool (args.any Value.truth)
  | .xor => .bool (args.foldl (fun b v => b ^^ v.truth) false)
  | .implies => .bool (!(arg 0).truth || (arg 1).truth)
  | .eq => .bool (decide (args.IsChain (· = ·)))
  | .distinct => .bool (decide (args.Pairwise (· ≠ ·)))
  | .ite => if (arg 0).truth then arg 1 else arg 2
  | .bvNot => .bv w (~~~x)
  | .bvAnd => nary (· &&& ·)
  | .bvOr => nary (· ||| ·)
  | .bvXor => nary (· ^^^ ·)
  | .bvNand => .bv w (~~~(x &&& y))
  | .bvNor => .bv w (~~~(x ||| y))
  | .bvXnor => .bv w (~~~(x ^^^ y))
  | .bvComp => .bv 1 (BitVec.ofBool (x == y))
  | .bvNeg => .bv w (-x)
  | .bvAdd => nary (· + ·)
  | .bvSub => nary (· - ·)
  | .bvMul => nary (· * ·)
  | .bvUdiv => .bv w (x.smtUDiv y)
  | .bvUrem => .bv w (x % y)
  | .bvSdiv => .bv w (x.smtSDiv y)
  | .bvSrem => .bv w (x.srem y)
  | .bvSmod => .bv w (x.smod y)
  | .bvShl => .bv w (x <<< y)
  | .bvLshr => .bv w (x >>> y)
  | .bvAshr => .bv w (x.sshiftRight' y)
  | .bvUlt => .bool (x.ult y)
  | .bvUle => .bool (x.ule y)
  | .bvUgt => .bool (y.ult x)
  | .bvUge => .bool (y.ule x)
  | .bvSlt => .bool (x.slt y)
  | .bvSle => .bool (x.sle y)
  | .bvSgt => .bool (y.slt x)
  | .bvSge => .bool (y.sle x)
  | .bvUltbv => .bv 1 (BitVec.ofBool (x.ult y))
  | .bvSltbv => .bv 1 (BitVec.ofBool (x.slt y))
  | .bvRedor => .bv 1 (BitVec.ofBool (x != 0))
  | .bvRedand => .bv 1 (BitVec.ofBool (x == BitVec.allOnes w))
  | .extract => .bv (p0 - p1 + 1) (x.extractLsb p0 p1)
  | .concat => (args.drop 1).foldl Value.append (arg 0)
  | .zext => .bv (w + p0) (x.setWidth (w + p0))
  | .sext => .bv (w + p0) (x.signExtend (w + p0))
  | .repeated => .bv (w * p0) (x.replicate p0)
  | .rotl => .bv w (x.rotateLeft p0)
  | .rotr => .bv w (x.rotateRight p0)
  | .select => (arg 0).select (arg 1)
  | .store => (arg 0).store (arg 1) (arg 2)

lemma sort_foldl_append (vs : List Value) (v : Value) {w : ℕ} {ws : List ℕ} (hv : v.sort = .bv w)
    (hvs : vs.map Value.sort = ws.map .bv) :
    (vs.foldl Value.append v).sort = .bv (w + ws.sum) := by
  induction vs generalizing v w ws with
  | nil =>
    obtain rfl := map_eq_nil_iff.1 hvs.symm
    exact hv
  | cons u vs ih =>
    obtain ⟨a, ws, rfl, hu, ht⟩ := map_eq_cons_iff.1 hvs.symm
    rw [sum_cons, ← add_assoc]
    refine ih _ ?_ ht.symm
    cases v with
    | bv w x =>
      cases u with
      | bv a y =>
        cases hv
        cases hu
        rfl
      | bool _ => cases hu
      | array _ _ _ => cases hu
    | bool _ => cases hv
    | array _ _ _ => cases hv

/-- A well-sorted operator gives a value of its sort. -/
lemma sort_denote {f : Fn} {p0 p1 : ℕ} {vs : List Value} {s : Srt}
    (h : f.Typed p0 p1 (vs.map Value.sort) s) : (f.denote p0 p1 vs).sort = s := by
  have hw : ∀ {v : Value} {w : ℕ}, v.sort = .bv w → v.width = w := by
    rintro (_ | ⟨u, x⟩ | _) w hv
    · cases hv
    · exact Srt.bv.inj hv
    · cases hv
  have hfi : ∀ {w : ℕ} {l : List Srt}, vs.map Value.sort = .bv w :: l →
      (vs.getD 0 default).width = w := by
    intro w l heq
    obtain ⟨v, vs, rfl, hv, -⟩ := map_eq_cons_iff.1 heq
    exact hw hv
  have hall : ∀ {w : ℕ}, vs.map Value.sort ≠ [] → (∀ a ∈ vs.map Value.sort, a = .bv w) →
      (vs.getD 0 default).width = w := by
    intro w hne ha
    cases vs with
    | nil => exact absurd rfl hne
    | cons v vs => exact hw (ha _ (.head _))
  cases f
  case not | implies => exact h.2.symm
  case and | or | xor => exact h.2.2.symm
  case eq | distinct => exact h.1.symm
  case ite =>
    obtain ⟨c, l, rfl, -, ht⟩ := map_eq_cons_iff.1 (show vs.map Value.sort = [.bool, s, s] from h)
    obtain ⟨v, l, rfl, hv, ht⟩ := map_eq_cons_iff.1 ht
    obtain ⟨u, rfl, hu⟩ := map_eq_singleton_iff.1 ht
    change (if c.truth then v else u).sort = s
    split
    · exact hv
    · exact hu
  case bvNot | bvNeg | rotl | rotr | bvNand | bvNor | bvXnor | bvUdiv | bvUrem | bvSdiv |
      bvSrem | bvSmod | bvShl | bvLshr | bvAshr =>
    obtain ⟨w, ha, rfl⟩ := h
    exact congrArg Srt.bv (hfi ha)
  case bvAnd | bvOr | bvXor | bvAdd | bvSub | bvMul =>
    obtain ⟨w, hne, ha, rfl⟩ := h
    exact congrArg Srt.bv (hall hne ha)
  case bvUlt | bvUle | bvUgt | bvUge | bvSlt | bvSle | bvSgt | bvSge | bvComp | bvUltbv |
      bvSltbv | bvRedor | bvRedand =>
    obtain ⟨w, -, rfl⟩ := h
    rfl
  case extract =>
    obtain ⟨w, -, -, -, rfl⟩ := h
    rfl
  case concat =>
    obtain ⟨ws, hne, ha, rfl⟩ := h
    cases vs with
    | nil => exact absurd (map_eq_nil_iff.1 ha.symm) hne
    | cons v vs =>
      obtain ⟨w, ws, rfl, hv, ht⟩ := map_eq_cons_iff.1 ha.symm
      exact sort_foldl_append vs v hv.symm ht.symm
  case zext | sext =>
    obtain ⟨w, ha, rfl⟩ := h
    exact congrArg (fun u => Srt.bv (u + p0)) (hfi ha)
  case repeated =>
    obtain ⟨w, ha, rfl⟩ := h
    exact congrArg (fun u => Srt.bv (u * p0)) (hfi ha)
  case select =>
    obtain ⟨i, e, ha, rfl⟩ := h
    obtain ⟨v, l, rfl, hv, -⟩ := map_eq_cons_iff.1 ha
    cases v with
    | array i' e' g =>
      cases hv
      rfl
    | bool _ => cases hv
    | bv _ _ => cases hv
  case store =>
    obtain ⟨i, e, ha, rfl⟩ := h
    obtain ⟨v, l, rfl, hv, -⟩ := map_eq_cons_iff.1 ha
    cases v with
    | array i' e' g => exact hv
    | bool _ => cases hv
    | bv _ _ => cases hv

end Fn

/-! ## Terms -/

inductive Kind where
  /-- A symbol. -/
  | constant
  | constBoolean
  | constBitvector
  | constArray
  | fn (f : Fn)
  | other (code : ℕ)
deriving DecidableEq

structure Term where
  kind : Kind := .other 0
  sort : Srt := .other
  children : List ℕ := []
  /-- The indices of the operator. -/
  indices : ℕ × ℕ := (0, 0)
  boolean : Bool := false
  /-- The hexadecimal digits of a bit vector. -/
  hex : List Char := []
  /-- The element of a constant array. -/
  base : ℕ := 0

/-- The terms of a solver, by their ids. -/
abbrev Terms := List Term

namespace Terms

variable (T : Terms)

def term (t : ℕ) : Term := T.getD t {}

def sort (t : ℕ) : Srt := (T.term t).sort

/-- What a term is made of. -/
def parts (t : ℕ) : List ℕ := if (T.term t).kind = .constArray then [(T.term t).base]
    else (T.term t).children

/-- A term that is well sorted over its parts. -/
def WellSorted (t : ℕ) : Prop := match (T.term t).kind with
  | .constant => True
  | .constBoolean => T.sort t = .bool
  | .constBitvector => ∃ w, T.sort t = .bv w ∧ digitsValue (T.term t).hex.reverse < 2 ^ w
  | .constArray => ∃ i e, T.sort t = .array i e ∧ T.sort (T.term t).base = .bv e
  | .fn f =>
    f.Typed (T.term t).indices.1 (T.term t).indices.2 ((T.term t).children.map T.sort) (T.sort t)
  | .other _ => True

/-- What a solver guarantees of its terms. -/
structure Ok : Prop where
  older : ∀ t, ∀ c ∈ T.parts t, c < t
  sorts : ∀ t, (T.sort t).Ok
  sorted : ∀ t, T.WellSorted t

/-- The value of a term under an assignment of the symbols. -/
noncomputable def denote (ρ : ℕ → Value) (t : ℕ) : Value := match (T.term t).kind with
  | .constant => ρ t
  | .constBoolean => .bool (T.term t).boolean
  | .constBitvector => match T.sort t with
    | .bv w => .bv w (BitVec.ofNat w (digitsValue (T.term t).hex.reverse))
    | _ => default
  | .constArray => match T.sort t with
    | .array i e => .array i e fun _ =>
      ((if _h : (T.term t).base < t then denote ρ (T.term t).base else default).bits e)
    | _ => default
  | .fn f => f.denote (T.term t).indices.1 (T.term t).indices.2
      ((T.term t).children.map fun c => if _h : c < t then denote ρ c else default)
  | .other _ => default
termination_by t

variable {T}

lemma term_eq_default {t : ℕ} (h : T.length ≤ t) : T.term t = {} := getD_eq_default _ _ h

/-- Only the terms of the list are of interest. -/
lemma Ok.of_lt (h : ∀ t < T.length, (∀ c ∈ T.parts t, c < t) ∧ (T.sort t).Ok ∧ T.WellSorted t) :
    T.Ok := by
  have hall : ∀ t, (∀ c ∈ T.parts t, c < t) ∧ (T.sort t).Ok ∧ T.WellSorted t := by
    intro t
    rcases lt_or_ge t T.length with ht | ht
    · exact h t ht
    · rw [parts, sort, WellSorted, term_eq_default ht]
      exact ⟨nofun, trivial, trivial⟩
  exact ⟨fun t => (hall t).1, fun t => (hall t).2.1, fun t => (hall t).2.2⟩

lemma Ok.denote_constArray (hT : T.Ok) (ρ : ℕ → Value) {t i e : ℕ}
    (hk : (T.term t).kind = .constArray) (hs : T.sort t = .array i e) :
    T.denote ρ t = .array i e fun _ => (T.denote ρ (T.term t).base).bits e := by
  have hlt := hT.older t _ (by rw [parts, if_pos hk]; exact mem_singleton_self _)
  rw [denote, hk, hs]
  simp only [hlt, dite_true]

lemma Ok.denote_fn (hT : T.Ok) (ρ : ℕ → Value) {t : ℕ} {f : Fn} (hk : (T.term t).kind = .fn f) :
    T.denote ρ t = f.denote (T.term t).indices.1 (T.term t).indices.2
    ((T.term t).children.map (T.denote ρ)) := by
  have hlt : ∀ c ∈ (T.term t).children, c < t := fun c hc =>
    hT.older t c (by rw [parts, if_neg (by rw [hk]; exact Kind.noConfusion)]; exact hc)
  rw [denote, hk]
  dsimp only
  congr 1
  exact map_congr_left fun c hc => dif_pos (hlt c hc)

end Terms

end LiveHD.Lec
