import LiveHD.Lec.ArrayBlast
import LiveHD.Lec.ReadOverWrite
import LiveHD.Lib.Lists

/-!
# The eliminated arrays keep their values

Under every assignment in which the minted constants are the entries of their arrays, a rewrite has
the value of its term and the entries are those of the array.
-/

namespace LiveHD.Lec.ArrayBlast

open List BitVec Blaster LiveHD.Lec.ArrayBlast.Term Value

/-! ## Values of terms -/

def Op.Typed (args : List Srt) (s : Srt) : Op → Prop
  | .fn f indices => f.Typed indices.1 indices.2 args s
  | .other _ _ => True

noncomputable def Op.apply (sem : Meaning) (s : Srt) (args : List Value) : Op → Value
  | .fn f indices => f.denote indices.1 indices.2 args
  | .other code indices => sem code indices s args

/-- The values of the constants, by id and sort. -/
abbrev Assignment := ℕ → Srt → Value

def Assignment.Sorted (ρ : Assignment) : Prop := ∀ id s, s ≠ .other → (ρ id s).sort = s

namespace Term

/-- A term that the manager makes. -/
inductive WellSorted : Term → Prop
  | const (id : ℕ) (symbol : Option String) (s : Srt) : WellSorted (.const id symbol s)
  | boolean (b : Bool) : WellSorted (.boolean b)
  | bitvector {w n : ℕ} (h : n < 2 ^ w) : WellSorted (.bitvector w n)
  | constArray {i e : ℕ} {base : Term} (hbase : WellSorted base) (hsort : base.sort = .bv e) :
    WellSorted (.constArray i e base)
  | app {op : Op} {s : Srt} {kids : List Term} (hop : op.Typed (kids.map sort) s)
      (hkids : ∀ c ∈ kids, WellSorted c) :
      WellSorted (.app op s kids)

variable (sem : Meaning) (ρ : Assignment)

mutual

noncomputable def eval : Term → Value
  | .const id _ s => ρ id s
  | .boolean b => .bool b
  | .bitvector w n => .bv w (BitVec.ofNat w n)
  | .constArray i e base => .array i e fun _ => (eval base).bits e
  | .app op s l => op.apply sem s (evals l)

noncomputable def evals : List Term → List Value
  | [] => []
  | t :: l => eval t :: evals l

end

variable {sem ρ}

lemma evals_eq_map (l : List Term) : evals sem ρ l = l.map (eval sem ρ) := by
  induction l with
  | nil => rfl
  | cons t l ih => rw [evals, ih, map_cons]

lemma eval_app (op : Op) (s : Srt) (l : List Term) :
    (app op s l).eval sem ρ = op.apply sem s (l.map (eval sem ρ)) := by
  rw [eval, evals_eq_map]

/-- A term has a value of its sort. -/
lemma WellSorted.sort_eval {t : Term} (ht : t.WellSorted) (hsem : sem.Sorted) (hρ : ρ.Sorted)
    (hs : t.sort ≠ .other) :
    (t.eval sem ρ).sort = t.sort := by
  induction ht with
  | const id symbol s => exact hρ id s hs
  | boolean b => rfl
  | bitvector h => rfl
  | constArray hba hso ih => rfl
  | @app op s kids hop hks ih =>
    rw [eval_app]
    cases op with
    | other code indices => exact hsem _ _ _ _ hs
    | fn f indices =>
      by_cases heq : f = .eq
      · subst heq
        exact hop.1.symm
      by_cases hd : f = .distinct
      · subst hd
        exact hop.1.symm
      refine Fn.sort_denote ?_
      have ha : (kids.map (eval sem ρ)).map Value.sort = kids.map sort := by
        rw [map_map]
        refine map_congr_left fun c hc => ih c hc ?_
        exact Terms.ne_other_of_typed hop hs heq hd _ (mem_map_of_mem hc)
      rwa [ha]

lemma WellSorted.eval_bv {t : Term} {w : ℕ} (ht : t.WellSorted) (hsem : sem.Sorted)
    (hρ : ρ.Sorted) (hs : t.sort = .bv w) :
    ∃ x, t.eval sem ρ = .bv w x :=
  Terms.eq_bv_of_sort ((ht.sort_eval hsem hρ (by rw [hs]; exact Srt.noConfusion)).trans hs)

end Term

open Classical in
lemma eval_mkIte {sem : Meaning} {ρ : Assignment} (c a b : Term) :
    (mkIte c a b).eval sem ρ = if (c.eval sem ρ).truth then a.eval sem ρ else b.eval sem ρ := by
  rfl

open Classical in
lemma eval_mkEqual {sem : Meaning} {ρ : Assignment} (a b : Term) :
    (mkEqual a b).eval sem ρ = .bool (decide (a.eval sem ρ = b.eval sem ρ)) := by
  change bool (decide (List.IsChain (· = ·) [a.eval sem ρ, b.eval sem ρ])) = _
  simp only [isChain_cons_cons, List.IsChain.singleton, and_true]

lemma wellSorted_mkEqual {a b : Term} (ha : a.WellSorted) (hb : b.WellSorted)
    (hs : b.sort = a.sort) : (mkEqual a b).WellSorted := by
  refine .app ⟨rfl, le_rfl, a.sort, ?_⟩ ?_
  · intro s hmem
    simp only [map_cons, map_nil, mem_cons, not_mem_nil, or_false] at hmem
    rcases hmem with rfl | rfl
    · rfl
    · exact hs
  · intro c hc
    rcases mem_pair.1 hc with rfl | rfl
    · exact ha
    · exact hb

lemma wellSorted_mkIte {c a b : Term} (hc : c.WellSorted) (hcs : c.sort = .bool) (ha : a.WellSorted)
    (hb : b.WellSorted) (hs : b.sort = a.sort) :
    (mkIte c a b).WellSorted := by
  refine .app ?_ ?_
  · change [c.sort, a.sort, b.sort] = [.bool, a.sort, a.sort]
    rw [hcs, hs]
  · intro x hx
    simp only [mem_cons, not_mem_nil, or_false] at hx
    rcases hx with rfl | rfl | rfl
    · exact hc
    · exact ha
    · exact hb

/-! ## Rewrites and entries -/

variable (P : Meaning → Assignment → Prop)

/-- `r` stands for `t` under the assignments of `P`. -/
structure IsRewrite (t r : Term) : Prop where
  wellSorted : r.WellSorted
  sort : r.sort = t.sort
  eval : ∀ sem ρ, P sem ρ → r.eval sem ρ = t.eval sem ρ

/-- The value of an entry. -/
noncomputable def entry (i k : ℕ) (v : Value) : Value := v.select (.bv i (BitVec.ofNat i k))

/-- `es` are the entries of the array `t`. -/
structure IsEntries (t : Term) (i e : ℕ) (es : List Term) : Prop where
  length : es.length = 2 ^ i
  wellSorted : ∀ x ∈ es, x.WellSorted ∧ x.sort = .bv e
  eval : ∀ sem ρ, P sem ρ → ∀ k x, es[k]? = some x → x.eval sem ρ = entry i k (t.eval sem ρ)

variable {P} {t r a x v idx val c : Term} {es xs ys : List Term} {i e k : ℕ} {s : Srt} {ι : ℕ × ℕ}

lemma IsRewrite.mono {Q : Meaning → Assignment → Prop} (h : IsRewrite P t r)
    (hQ : ∀ sem ρ, Q sem ρ → P sem ρ) : IsRewrite Q t r :=
  ⟨h.wellSorted, h.sort, fun sem ρ hq => h.eval sem ρ (hQ sem ρ hq)⟩

lemma IsEntries.mono {Q : Meaning → Assignment → Prop} (h : IsEntries P t i e es)
    (hQ : ∀ sem ρ, Q sem ρ → P sem ρ) : IsEntries Q t i e es :=
  ⟨h.length, h.wellSorted, fun sem ρ hq => h.eval sem ρ (hQ sem ρ hq)⟩

lemma bv_ofNat_inj {j : ℕ} (hj : j < 2 ^ i) (hk : k < 2 ^ i) :
    bv i (BitVec.ofNat i j) = .bv i (BitVec.ofNat i k) ↔ j = k := by
  refine ⟨fun h => ?_, fun h => by rw [h]⟩
  have hnat := congrArg BitVec.toNat (eq_of_heq (bv.inj h).2)
  rwa [toNat_ofNat, toNat_ofNat, Nat.mod_eq_of_lt hj, Nat.mod_eq_of_lt hk] at hnat

lemma eval_indexEq {sem : Meaning} {ρ : Assignment} (hidx : idx.sort = .bv i) :
    ((indexEq idx k).eval sem ρ).truth = true ↔ idx.eval sem ρ = .bv i (BitVec.ofNat i k) := by
  classical
  rw [indexEq, eval_mkEqual, hidx]
  exact decide_eq_true_iff

lemma wellSorted_indexEq (hidx : idx.WellSorted) (hs : idx.sort = .bv i) (hk : k < 2 ^ i) :
    (indexEq idx k).WellSorted := by
  refine wellSorted_mkEqual hidx (.bitvector ?_) ?_
  · rwa [hs]
  · rw [hs]
    rfl

/-- A constant array. -/
lemma isEntries_constArray {base : Term} (hba : base.WellSorted) (hs : base.sort = .bv e)
    (hP : ∀ sem ρ, P sem ρ → sem.Sorted ∧ ρ.Sorted) :
    IsEntries P (.constArray i e base) i e (replicate (2 ^ i) base) := by
  refine ⟨length_replicate, fun x hx => ?_, fun sem ρ hp k x hk => ?_⟩
  · rw [eq_of_mem_replicate hx]
    exact ⟨hba, hs⟩
  · rw [eq_of_mem_replicate (mem_of_getElem? hk)]
    obtain ⟨hsem, hρ⟩ := hP sem ρ hp
    obtain ⟨x, hx⟩ := hba.eval_bv hsem hρ hs
    rw [Term.eval, hx]
    change bv e x = bv e ((bv e x).bits e)
    rw [bits_bv]

/-- What a write leaves in an entry. -/
lemma entry_store {sem : Meaning} {ρ : Assignment} (ha : a.WellSorted) (has : a.sort = .array i e)
    (hx : x.WellSorted) (hxs : x.sort = .bv i)
    (hv : v.WellSorted) (hvs : v.sort = .bv e) (hsem : sem.Sorted) (hρ : ρ.Sorted)
    [Decidable (x.eval sem ρ = .bv i (BitVec.ofNat i k))] :
    entry i k ((app (.fn .store ι) s [a, x, v]).eval sem ρ) =
      if x.eval sem ρ = .bv i (BitVec.ofNat i k) then v.eval sem ρ
      else entry i k (a.eval sem ρ) := by
  have hso : ∀ {t : Term} {s : Srt}, t.WellSorted → t.sort = s → s ≠ .other →
      (t.eval sem ρ).sort = s := by
    intro t s ht hs hne
    rw [ht.sort_eval hsem hρ (by rwa [hs]), hs]
  refine (Terms.select_store (hso ha has Srt.noConfusion) (hso hx hxs Srt.noConfusion)
    (hso hv hvs Srt.noConfusion) rfl).trans ?_
  congr

/-- A write at a constant index. -/
lemma isEntries_set {n w : ℕ} (hba : IsEntries P a i e es) (hidx : IsRewrite P x (.bitvector w n))
    (hval : IsRewrite P v val)
    (ha : a.WellSorted) (has : a.sort = .array i e) (hx : x.WellSorted) (hxs : x.sort = .bv i)
    (hv : v.WellSorted) (hvs : v.sort = .bv e)
    (hP : ∀ sem ρ, P sem ρ → sem.Sorted ∧ ρ.Sorted) :
    n < es.length ∧ IsEntries P (.app (.fn .store ι) s [a, x, v]) i e (es.set n val) := by
  obtain rfl : w = i := Srt.bv.inj (hidx.sort.trans hxs)
  have hn : n < 2 ^ w := by
    cases hidx.wellSorted with
    | bitvector h => exact h
  refine ⟨hba.length ▸ hn, (length_set ..).trans hba.length, fun y hy => ?_,
    fun sem ρ hp k y hk => ?_⟩
  · rcases mem_or_eq_of_mem_set hy with hy | rfl
    · exact hba.wellSorted y hy
    · exact ⟨hval.wellSorted, hval.sort.trans hvs⟩
  · classical
    obtain ⟨hsem, hρ⟩ := hP sem ρ hp
    rw [entry_store ha has hx hxs hv hvs hsem hρ, ← hidx.eval sem ρ hp]
    have hk' : k < 2 ^ w := by
      rw [← hba.length, ← length_set (i := n) (a := val)]
      exact (List.getElem?_eq_some_iff.1 hk).1
    change _ = if bv w (BitVec.ofNat w n) = _ then _ else _
    rw [getElem?_set] at hk
    simp only [bv_ofNat_inj hn hk']
    split at hk
    next hnk =>
      rw [if_pos hnk]
      split at hk
      · rw [← Option.some.inj hk]
        exact hval.eval sem ρ hp
      · cases hk
    next hnk =>
      rw [if_neg hnk]
      exact hba.eval sem ρ hp k y hk

/-- A write at a symbolic index. -/
lemma isEntries_mapIdx (hba : IsEntries P a i e es) (hidx : IsRewrite P x idx)
    (hval : IsRewrite P v val)
    (ha : a.WellSorted) (has : a.sort = .array i e) (hx : x.WellSorted) (hxs : x.sort = .bv i)
    (hv : v.WellSorted) (hvs : v.sort = .bv e)
    (hP : ∀ sem ρ, P sem ρ → sem.Sorted ∧ ρ.Sorted) :
    IsEntries P (.app (.fn .store ι) s [a, x, v]) i e
    (es.mapIdx fun k entry => mkIte (indexEq idx k) val entry) := by
  have hid := hidx.sort.trans hxs
  have hva := hval.sort.trans hvs
  refine ⟨length_mapIdx.trans hba.length, fun y hy => ?_, fun sem ρ hp k y hk => ?_⟩
  · obtain ⟨k, hk, rfl⟩ := mem_mapIdx.1 hy
    obtain ⟨hw, hs⟩ := hba.wellSorted _ (getElem_mem hk)
    refine ⟨wellSorted_mkIte (wellSorted_indexEq hidx.wellSorted hid (hba.length ▸ hk)) rfl
      hval.wellSorted hw (hs.trans hva.symm), hva⟩
  · classical
    obtain ⟨hsem, hρ⟩ := hP sem ρ hp
    rw [getElem?_mapIdx, Option.map_eq_some_iff] at hk
    obtain ⟨y, hy, rfl⟩ := hk
    rw [entry_store ha has hx hxs hv hvs hsem hρ, eval_mkIte, ← hidx.eval sem ρ hp,
      hval.eval sem ρ hp, hba.eval sem ρ hp k y hy]
    exact if_congr (eval_indexEq hid) rfl rfl

/-- A choice between arrays. -/
lemma isEntries_ite {c' : Term} (hc : IsRewrite P c c') (hcs : c.sort = .bool)
    (hxs : IsEntries P x i e xs) (hys : IsEntries P a i e ys) :
    IsEntries P (.app (.fn .ite ι) s [c, x, a]) i e
    (zipWith (fun p q => if p = q then p else mkIte c' p q) xs ys) := by
  refine ⟨?_, fun z hz => ?_, fun sem ρ hp k z hk => ?_⟩
  · rw [length_zipWith, hxs.length, hys.length, min_self]
  · obtain ⟨k, hk, rfl⟩ := mem_iff_getElem.1 hz
    rw [getElem_zipWith]
    rw [length_zipWith, lt_min_iff] at hk
    obtain ⟨hp, hps⟩ := hxs.wellSorted _ (getElem_mem hk.1)
    obtain ⟨hq, hqs⟩ := hys.wellSorted _ (getElem_mem hk.2)
    split
    · exact ⟨hp, hps⟩
    · exact ⟨wellSorted_mkIte hc.wellSorted (hc.sort.trans hcs) hp hq (hqs.trans hps.symm), hps⟩
  · obtain ⟨p, q, hp', hq', rfl⟩ := getElem?_zipWith_eq_some.1 hk
    have hxk := hxs.eval sem ρ hp k p hp'
    have hyk := hys.eval sem ρ hp k q hq'
    have hen : entry i k ((app (.fn .ite ι) s [c, x, a]).eval sem ρ) =
        if (c.eval sem ρ).truth then entry i k (x.eval sem ρ) else entry i k (a.eval sem ρ) := by
      exact apply_ite (entry i k) _ _ _
    rw [hen, ← hxk, ← hyk, ← hc.eval sem ρ hp]
    split
    next heq => rw [heq, ite_self]
    · classical
      rw [eval_mkIte]

/-- A read at a constant index. -/
lemma isRewrite_getElem {n w : ℕ} (hes : IsEntries P a i e es)
    (hidx : IsRewrite P x (.bitvector w n)) (hxs : x.sort = .bv i) :
    ∃ y, es[n]? = some y ∧ IsRewrite P (.app (.fn .select ι) (.bv e) [a, x]) y := by
  obtain rfl : w = i := Srt.bv.inj (hidx.sort.trans hxs)
  have hn : n < es.length := by
    cases hidx.wellSorted with
    | bitvector h => exact hes.length ▸ h
  obtain ⟨hw, hs⟩ := hes.wellSorted _ (getElem_mem hn)
  refine ⟨es[n], getElem?_eq_getElem hn, hw, hs, fun sem ρ hp => ?_⟩
  rw [hes.eval sem ρ hp n _ (getElem?_eq_getElem hn)]
  change _ = (a.eval sem ρ).select (x.eval sem ρ)
  rw [← hidx.eval sem ρ hp]
  rfl

/-- The tree over the entries from `k` on, `out` being that over the entries before. -/
lemma wellSorted_foldl_select (hidx : idx.WellSorted) (hs : idx.sort = .bv i) (l : List Term)
    (hl : ∀ x ∈ l, x.WellSorted ∧ x.sort = .bv e)
    {out : Term} (hk : k + l.length ≤ 2 ^ i) (hout : out.WellSorted ∧ out.sort = .bv e) :
    ((l.zipIdx k).foldl (selectEntry idx) out).WellSorted ∧
    ((l.zipIdx k).foldl (selectEntry idx) out).sort = .bv e := by
  induction l generalizing k out with
  | nil => exact hout
  | cons x l ih =>
    rw [zipIdx_cons, foldl_cons, selectEntry]
    rw [length_cons] at hk
    obtain ⟨hx, hxs⟩ := hl x (.head _)
    refine ih (fun y hy => hl y (.tail _ hy)) (by omega) ?_
    split
    · exact hout
    · exact ⟨wellSorted_mkIte (wellSorted_indexEq hidx hs (by omega)) rfl hx hout.1
        (hout.2.trans hxs.symm), hxs⟩

lemma eval_foldl_select {sem : Meaning} {ρ : Assignment} (hs : idx.sort = .bv i)
    {j : ℕ} (hj : j < 2 ^ i)
    (hidx : idx.eval sem ρ = .bv i (BitVec.ofNat i j)) (u : Value) (l : List Term) {out : Term}
    (hk : k + l.length ≤ 2 ^ i)
    (hl : ∀ m x, l[m]? = some x → x.eval sem ρ = entry i (k + m) u)
    (hout : j < k → out.eval sem ρ = entry i j u) (hjl : j < k + l.length) :
    ((l.zipIdx k).foldl (selectEntry idx) out).eval sem ρ = entry i j u := by
  induction l generalizing k out with
  | nil => exact hout hjl
  | cons x l ih =>
    rw [zipIdx_cons, foldl_cons, selectEntry]
    rw [length_cons] at hk hjl
    have hx := hl 0 x rfl
    rw [add_zero] at hx
    refine ih (by omega) (fun m y hy => ?_) (fun hlt => ?_) (by omega)
    · rw [hl (m + 1) y hy, add_right_comm, add_assoc]
    · split
      next heq =>
        rcases Nat.lt_succ_iff_lt_or_eq.1 hlt with hlt | rfl
        · exact hout hlt
        · exact heq ▸ hx
      · classical
        rw [eval_mkIte]
        rcases Nat.lt_succ_iff_lt_or_eq.1 hlt with hlt | rfl
        · rw [if_neg, hout hlt]
          rw [eval_indexEq hs, hidx, bv_ofNat_inj hj (by omega)]
          exact hlt.ne
        · rw [if_pos, hx]
          rw [eval_indexEq hs, hidx]

/-- A read at a symbolic index. -/
lemma isRewrite_selectTree (hes : IsEntries P a i e es) (hidx : IsRewrite P x idx)
    (hx : x.WellSorted) (hxs : x.sort = .bv i)
    (hP : ∀ sem ρ, P sem ρ → sem.Sorted ∧ ρ.Sorted) :
    ∃ y, selectTree idx es = some y ∧ IsRewrite P (.app (.fn .select ι) (.bv e) [a, x]) y := by
  cases es with
  | nil => exact absurd hes.length (Nat.two_pow_pos i).ne
  | cons first es =>
    have hlen := hes.length
    rw [length_cons] at hlen
    have hids := hidx.sort.trans hxs
    obtain ⟨hw, hs⟩ := wellSorted_foldl_select hidx.wellSorted hids es
      (fun y hy => hes.wellSorted y (.tail _ hy))
      (k := 1) (by omega) (hes.wellSorted first (.head _))
    refine ⟨_, rfl, hw, hs, fun sem ρ hp => ?_⟩
    obtain ⟨hsem, hρ⟩ := hP sem ρ hp
    obtain ⟨y, hy⟩ := hx.eval_bv hsem hρ hxs
    have hval : idx.eval sem ρ = .bv i (BitVec.ofNat i y.toNat) := by
      rw [hidx.eval sem ρ hp, hy, ofNat_toNat, setWidth_eq]
    have hen : (app (.fn .select ι) (.bv e) [a, x]).eval sem ρ =
        entry i y.toNat (a.eval sem ρ) := by
      rw [entry, ← hval, hidx.eval sem ρ hp]
      rfl
    rw [hen]
    refine eval_foldl_select hids y.isLt hval _ es (by omega) (fun m z hz => ?_) (fun hlt => ?_)
      (by have := y.isLt; omega)
    · rw [add_comm]
      exact hes.eval sem ρ hp (m + 1) z hz
    · rw [Nat.lt_one_iff.1 hlt]
      exact hes.eval sem ρ hp 0 first rfl

/-- Arrays are equal when their entries are. -/
lemma array_ext {u w : Value} (hu : u.sort = .array i e) (hw : w.sort = .array i e)
    (h : ∀ k < 2 ^ i, entry i k u = entry i k w) : u = w := by
  obtain ⟨f, rfl⟩ := Terms.eq_array_of_sort hu
  obtain ⟨g, rfl⟩ := Terms.eq_array_of_sort hw
  congr 1
  funext y
  have hy := h y.toNat y.isLt
  simp only [entry, select, bits_bv, ofNat_toNat, setWidth_eq] at hy
  exact eq_of_heq (bv.inj hy).2

/-- The entries that are not the same term. -/
def unequal (xs ys : List Term) : List Term :=
  (zip xs ys).filterMap fun p => if p.1 ≠ p.2 then some (mkEqual p.1 p.2) else none

lemma mem_unequal : t ∈ unequal xs ys ↔ ∃ p ∈ zip xs ys, p.1 ≠ p.2 ∧ t = mkEqual p.1 p.2 := by
  rw [unequal, mem_filterMap]
  refine exists_congr fun p => and_congr_right fun _ => ?_
  split
  next hne =>
    rw [Option.some.injEq]
    exact ⟨fun h => ⟨hne, h.symm⟩, fun h => h.2.symm⟩
  next heq => exact ⟨nofun, fun h => absurd h.1 heq⟩

lemma entriesEqual_eq (xs ys : List Term) : entriesEqual xs ys = match unequal xs ys with
    | [] => boolean true
    | [t] => t
    | l => .app (.fn .and (0, 0)) .bool l := rfl

lemma wellSorted_entriesEqual (hxs : ∀ x ∈ xs, x.WellSorted ∧ x.sort = s)
    (hys : ∀ y ∈ ys, y.WellSorted ∧ y.sort = s) :
    (entriesEqual xs ys).WellSorted ∧ (entriesEqual xs ys).sort = .bool := by
  have hall : ∀ t ∈ unequal xs ys, t.WellSorted ∧ t.sort = .bool := by
    intro t ht
    obtain ⟨p, hp, -, rfl⟩ := mem_unequal.1 ht
    obtain ⟨hx, hxs⟩ := hxs _ (of_mem_zip hp).1
    obtain ⟨hy, hys⟩ := hys _ (of_mem_zip hp).2
    exact ⟨wellSorted_mkEqual hx hy (hys.trans hxs.symm), rfl⟩
  rw [entriesEqual_eq]
  split
  · exact ⟨.boolean true, rfl⟩
  next t heq => exact hall t (by rw [heq]; exact mem_singleton_self t)
  next hne _ =>
    refine ⟨.app ⟨?_, ?_, rfl⟩ fun c hc => (hall c hc).1, rfl⟩
    · exact fun hnil => hne (map_eq_nil_iff.1 hnil)
    · intro s hs
      obtain ⟨c, hc, rfl⟩ := mem_map.1 hs
      exact (hall c hc).2

lemma eval_entriesEqual (sem : Meaning) (ρ : Assignment) (xs ys : List Term) :
    ∃ v, (entriesEqual xs ys).eval sem ρ = .bool v ∧
    (v = true ↔ ∀ p ∈ zip xs ys, p.1.eval sem ρ = p.2.eval sem ρ) := by
  classical
  have hiff : (∀ t ∈ unequal xs ys, (t.eval sem ρ).truth = true) ↔
      ∀ p ∈ zip xs ys, p.1.eval sem ρ = p.2.eval sem ρ := by
    constructor
    · intro h p hp
      by_cases heq : p.1 = p.2
      · rw [heq]
      · have ht := h _ (mem_unequal.2 ⟨p, hp, heq, rfl⟩)
        rw [eval_mkEqual] at ht
        exact of_decide_eq_true ht
    · intro h t ht
      obtain ⟨p, hp, -, rfl⟩ := mem_unequal.1 ht
      rw [eval_mkEqual]
      exact decide_eq_true (h p hp)
  rw [entriesEqual_eq]
  simp only [← hiff]
  split
  next heq =>
    rw [heq]
    exact ⟨true, rfl, fun _ => forall_mem_nil _, fun _ => rfl⟩
  next t heq =>
    obtain ⟨p, -, -, rfl⟩ := mem_unequal.1
      (show t ∈ unequal xs ys by rw [heq]; exact mem_singleton_self t)
    rw [heq]
    refine ⟨_, eval_mkEqual p.1 p.2, ?_⟩
    rw [forall_mem_singleton, eval_mkEqual]
    rfl
  · rw [eval_app]
    refine ⟨_, rfl, ?_⟩
    rw [all_map, all_eq_true]
    rfl

open Classical in
lemma eval_eq_pair (sem : Meaning) (ρ : Assignment) (x y : Term) :
    (app (.fn .eq ι) .bool [x, y]).eval sem ρ = .bool (decide (x.eval sem ρ = y.eval sem ρ)) :=
  eval_mkEqual x y

/-- The comparison of two arrays. -/
lemma isRewrite_entriesEqual {y : Term} (hxs : IsEntries P x i e xs) (hys : IsEntries P y i e ys)
    (hx : x.WellSorted) (hxso : x.sort = .array i e)
    (hy : y.WellSorted) (hyso : y.sort = .array i e)
    (hP : ∀ sem ρ, P sem ρ → sem.Sorted ∧ ρ.Sorted) :
    IsRewrite P (.app (.fn .eq ι) .bool [x, y]) (entriesEqual xs ys) := by
  obtain ⟨hw, hs⟩ := wellSorted_entriesEqual hxs.wellSorted hys.wellSorted
  refine ⟨hw, hs, fun sem ρ hp => ?_⟩
  classical
  obtain ⟨hsem, hρ⟩ := hP sem ρ hp
  have hxv := (hx.sort_eval hsem hρ (by rw [hxso]; exact Srt.noConfusion)).trans hxso
  have hyv := (hy.sort_eval hsem hρ (by rw [hyso]; exact Srt.noConfusion)).trans hyso
  obtain ⟨v, hv, hiff⟩ := eval_entriesEqual sem ρ xs ys
  rw [hv, eval_eq_pair]
  congr 1
  refine Bool.eq_iff_iff.2 (hiff.trans (.trans ?_ decide_eq_true_iff.symm))
  constructor
  · intro h
    refine array_ext hxv hyv fun k hk => ?_
    have hkx := hxs.length ▸ hk
    have hky := hys.length ▸ hk
    rw [← hxs.eval sem ρ hp k _ (getElem?_eq_getElem hkx), ← hys.eval sem ρ hp k _
      (getElem?_eq_getElem hky)]
    refine h (xs[k], ys[k]) (mem_iff_getElem.2 ⟨k, ?_, getElem_zip⟩)
    rw [length_zip]
    exact lt_min hkx hky
  · intro h p hpz
    obtain ⟨k, hk, rfl⟩ := mem_iff_getElem.1 hpz
    rw [length_zip, lt_min_iff] at hk
    rw [getElem_zip]
    rw [hxs.eval sem ρ hp k _ (getElem?_eq_getElem hk.1),
      hys.eval sem ρ hp k _ (getElem?_eq_getElem hk.2), h]

lemma isRewrite_distinct {y all : Term} (h : IsRewrite P (.app (.fn .eq ι) .bool [x, y]) all) :
    IsRewrite P (.app (.fn .distinct ι) .bool [x, y]) (.app (.fn .not (0, 0)) .bool [all]) := by
  refine ⟨.app ⟨by rw [map_singleton, h.sort]; rfl, rfl⟩ fun c hc => mem_singleton.1 hc ▸
    h.wellSorted, rfl, fun sem ρ hp => ?_⟩
  classical
  change bool (!(all.eval sem ρ).truth) = (app _ _ _).eval sem ρ
  rw [h.eval sem ρ hp, eval_eq_pair]
  change _ = bool (decide (List.Pairwise (· ≠ ·) [x.eval sem ρ, y.eval sem ρ]))
  congr 1
  change (!decide _) = _
  rw [← decide_not, decide_eq_decide, pairwise_pair]

lemma isRewrite_self (h : t.WellSorted) : IsRewrite P t t := ⟨h, rfl, fun _ _ _ => rfl⟩

/-- A term over rewritten children. -/
lemma isRewrite_app {op : Op} {kids rs : List Term} (h : (app op s kids).WellSorted)
    (hks : Forall₂ (IsRewrite P) kids rs) :
    IsRewrite P (.app op s kids) (.app op s rs) := by
  have hs := hks.map_eq_map fun _ _ _ hr => hr.sort.symm
  cases h with
  | app hop _ =>
    refine ⟨.app (hs ▸ hop) fun r hr => ?_, rfl, fun sem ρ hp => ?_⟩
    · obtain ⟨c, -, hc⟩ := hks.exists_of_mem_right hr
      exact hc.wellSorted
    · rw [eval_app, eval_app, hks.map_eq_map fun _ _ _ hr => (hr.eval sem ρ hp).symm]

/-- One entry of `array_value`. -/
lemma writeEntry_spec {out : Term} (hout : out.WellSorted ∧ out.sort = .array i e)
    (hx : x.WellSorted ∧ x.sort = .bv e) {m : ℕ} (hm : m < 2 ^ i) (v : Term) :
    ((writeEntry i e v out (x, m)).WellSorted ∧ (writeEntry i e v out (x, m)).sort = .array i e) ∧
      ∀ sem ρ, sem.Sorted → ρ.Sorted → entry i m (out.eval sem ρ) = v.eval sem ρ → ∀ k < 2 ^ i,
        entry i k ((writeEntry i e v out (x, m)).eval sem ρ) = if k = m then x.eval sem ρ
        else entry i k (out.eval sem ρ) := by
  rw [writeEntry]
  split
  · refine ⟨⟨.app ⟨i, e, ?_, rfl⟩ fun c hc => ?_, rfl⟩, fun sem ρ hsem hρ _ k hk => ?_⟩
    · rw [map_cons, map_cons, map_singleton, hout.2, hx.2]
      rfl
    · simp only [mem_cons, not_mem_nil, or_false] at hc
      rcases hc with rfl | rfl | rfl
      · exact hout.1
      · exact .bitvector hm
      · exact hx.1
    · classical
      rw [entry_store hout.1 hout.2 (.bitvector hm) rfl hx.1 hx.2 hsem hρ]
      exact if_congr ((bv_ofNat_inj hm hk).trans eq_comm) rfl rfl
  next heq =>
    refine ⟨hout, fun sem ρ _ _ hba k _ => ?_⟩
    split
    next hkm => rw [hkm, hba, ← not_not.1 heq]
    · rfl

/-- The writes of the values from `k` on, `out` holding those before and `v` in the other
entries. -/
lemma foldl_writeEntry_spec (v : Term) (l : List Term) (hl : ∀ x ∈ l, x.WellSorted ∧ x.sort = .bv e)
    {out : Term} (hk : k + l.length ≤ 2 ^ i)
    (hout : out.WellSorted ∧ out.sort = .array i e) :
    (((l.zipIdx k).foldl (writeEntry i e v) out).WellSorted ∧
      ((l.zipIdx k).foldl (writeEntry i e v) out).sort = .array i e) ∧
      ∀ sem ρ (val : ℕ → Value), sem.Sorted → ρ.Sorted →
      (∀ m x, l[m]? = some x → x.eval sem ρ = val (k + m)) →
        (∀ j < k, entry i j (out.eval sem ρ) = val j) →
        (∀ j, k ≤ j → j < 2 ^ i → entry i j (out.eval sem ρ) = v.eval sem ρ) →
        ∀ j < k + l.length, entry i j (((l.zipIdx k).foldl (writeEntry i e v) out).eval sem ρ) =
        val j := by
  induction l generalizing k out with
  | nil => exact ⟨hout, fun sem ρ val _ _ _ hlt _ => hlt⟩
  | cons x l ih =>
    rw [length_cons] at hk ⊢
    obtain ⟨ho', hst⟩ := writeEntry_spec hout (hl x (.head _)) (m := k) (by omega) v
    obtain ⟨hw, hfo⟩ := ih (k := k + 1) (fun y hy => hl y (.tail _ hy)) (by omega) ho'
    refine ⟨hw, fun sem ρ val hsem hρ hval hlt hge j hj => hfo sem ρ val hsem hρ (fun m y hy => ?_)
      (fun j hj => ?_) (fun j hkj hj => ?_) j (by omega)⟩
    · rw [hval (m + 1) y hy, add_right_comm, add_assoc]
    · rw [hst sem ρ hsem hρ (hge k le_rfl (by omega)) j (by omega)]
      split
      next hjk =>
        rw [hjk]
        exact hval 0 x rfl
      · exact hlt j (by omega)
    · rw [hst sem ρ hsem hρ (hge k le_rfl (by omega)) j hj, if_neg (by omega)]
      exact hge j (by omega) hj

/-- `array_value` makes the array with the given entries. -/
lemma arrayValue_spec {vals : List Term} (hva : ∀ v ∈ vals, v.WellSorted ∧ v.sort = .bv e)
    (hlen : vals.length = 2 ^ i) :
    ∃ t, arrayValue i e vals = some t ∧ t.WellSorted ∧ t.sort = .array i e ∧
      ∀ sem ρ, sem.Sorted → ρ.Sorted → ∀ k v, vals[k]? = some v →
      v.eval sem ρ = entry i k (t.eval sem ρ) := by
  cases vals with
  | nil => exact absurd hlen (Nat.two_pow_pos i).ne
  | cons v vals =>
    rw [length_cons] at hlen
    obtain ⟨hv, hvs⟩ := hva v (.head _)
    obtain ⟨⟨hw, hs⟩, hfo⟩ := foldl_writeEntry_spec (k := 1) v vals
      (fun x hx => hva x (.tail _ hx)) (by omega)
      (show (constArray i e v).WellSorted ∧ _ from ⟨.constArray hv hvs, rfl⟩)
    refine ⟨_, rfl, hw, hs, fun sem ρ hsem hρ k x hk => ?_⟩
    have hc := isEntries_constArray (P := fun sem ρ => sem.Sorted ∧ ρ.Sorted)
      (i := i) hv hvs fun _ _ h => h
    have hba : ∀ j < 2 ^ i, entry i j ((constArray i e v).eval sem ρ) = v.eval sem ρ := by
      intro j hj
      refine (hc.eval sem ρ ⟨hsem, hρ⟩ j v ?_).symm
      rw [getElem?_replicate, if_pos hj]
    have hlt : k < vals.length + 1 := (List.getElem?_eq_some_iff.1 hk).1
    have hval : ((((v :: vals)[k]?).getD v).eval sem ρ) = x.eval sem ρ := by rw [hk]; rfl
    rw [← hval]
    refine (hfo sem ρ (fun j => (((v :: vals)[j]?).getD v).eval sem ρ) hsem hρ (fun m y hy => ?_)
      (fun j hj => ?_) (fun j _ hj => hba j hj) k (by omega)).symm
    · rw [add_comm, getElem?_cons_succ, hy]
      rfl
    · obtain rfl := Nat.lt_one_iff.1 hj
      exact hba 0 (Nat.two_pow_pos i)

end LiveHD.Lec.ArrayBlast
