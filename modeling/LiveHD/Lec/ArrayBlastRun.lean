import LiveHD.Lec.ArrayBlastSound

/-!
# Every call of the blaster is exact

What is kept in the memo tables over any sequence of calls, and that the walk finds the rewrites
that it reads.
-/

namespace LiveHD.Lec.ArrayBlast

open Function List Option Nat LiveHD.Lec.ArrayBlast.Term

namespace Blaster

/-- Each constant that was minted for an array has the value of its entry. -/
def Agrees (b : Blaster) (ρ : Assignment) : Prop :=
  ∀ id symbol i e es, b.arrMemo (.const id symbol (.array i e)) = some es →
  ∀ k x symbol', es[k]? = some (.const x symbol' (.bv e)) →
  ρ x (.bv e) = entry i k (ρ id (.array i e))

/-- The meanings and assignments under which the tables are read. -/
def Good (b : Blaster) (sem : Meaning) (ρ : Assignment) : Prop := sem.Sorted ∧ ρ.Sorted ∧ b.Agrees ρ

/-- The tables only grow. -/
structure Le (b b' : Blaster) : Prop where
  memo : ∀ t r, b.memo t = some r → b'.memo t = some r
  arr : ∀ t es, b.arrMemo t = some es → b'.arrMemo t = some es

structure Inv (b : Blaster) : Prop where
  memo : ∀ t r, b.memo t = some r → IsRewrite b.Good t r
  arr : ∀ t es, b.arrMemo t = some es → ∃ i e, t.sort = .array i e ∧ IsEntries b.Good t i e es

variable {maxIndexBits : ℕ} {b b' b'' : Blaster} {t r : Term} {es : List Term} {s : Srt}

lemma Le.refl (b : Blaster) : b.Le b := ⟨fun _ _ h => h, fun _ _ h => h⟩

lemma Le.trans (h : b.Le b') (h' : b'.Le b'') : b.Le b'' :=
  ⟨fun t r ht => h'.memo t r (h.memo t r ht), fun t es ht => h'.arr t es (h.arr t es ht)⟩

lemma Le.good (h : b.Le b') {sem : Meaning} {ρ : Assignment} (hg : b'.Good sem ρ) : b.Good sem ρ :=
  ⟨hg.1, hg.2.1, fun id symbol i e es hes => hg.2.2 id symbol i e es (h.arr _ _ hes)⟩

lemma Le.memoised (h : b.Le b') (ht : b.memoised maxIndexBits t = true) :
    b'.memoised maxIndexBits t = true := by
  unfold Blaster.memoised at ht ⊢
  split
  next hs =>
    rw [if_pos hs] at ht
    obtain ⟨es, hes⟩ := isSome_iff_exists.1 ht
    rw [h.arr t es hes]
    rfl
  next hs =>
    rw [if_neg hs] at ht
    obtain ⟨r, hr⟩ := isSome_iff_exists.1 ht
    rw [h.memo t r hr]
    rfl

lemma inv_start (next : ℕ) : (start next).Inv := ⟨fun _ _ => nofun, fun _ _ => nofun⟩

lemma Inv.giveUp (h : b.Inv) :
    b.giveUp.Inv ∧ b.Le b.giveUp := ⟨⟨h.memo, h.arr⟩, fun _ _ h => h, fun _ _ h => h⟩

lemma memo_setMemo (b : Blaster) (t r : Term) :
    (b.setMemo t r).memo = Function.update b.memo t (some r) := rfl

lemma Inv.setMemo (h : b.Inv) (hnew : b.memo t = none) (hr : IsRewrite b.Good t r) :
    (b.setMemo t r).Inv ∧ b.Le (b.setMemo t r) := by
  have hle : b.Le (b.setMemo t r) := by
    refine ⟨fun u v hu => ?_, fun _ _ h => h⟩
    rw [memo_setMemo, update_of_ne]
    · exact hu
    · rintro rfl
      rw [hnew] at hu
      cases hu
  refine ⟨⟨fun u v hu => ?_, fun u es hu => ?_⟩, hle⟩
  · rw [memo_setMemo] at hu
    by_cases hut : u = t
    · subst hut
      rw [update_self] at hu
      exact (Option.some.inj hu ▸ hr).mono fun _ _ => hle.good
    · rw [update_of_ne hut] at hu
      exact (h.memo u v hu).mono fun _ _ => hle.good
  · obtain ⟨i, e, hs, hes⟩ := h.arr u es hu
    exact ⟨i, e, hs, hes.mono fun _ _ => hle.good⟩

section

variable (b : Blaster) (t : Term) (es : List Term) (n : ℕ)

/-- The entries of a new array; `next` moves on when constants are minted. -/
def addArray : Blaster := { b.setEntries t es with next := n }

lemma arrMemo_addArray : (b.addArray t es n).arrMemo = Function.update b.arrMemo t (some es) := rfl

end

lemma le_addArray (hnew : b.arrMemo t = none) (es : List Term) (n : ℕ) :
    b.Le (b.addArray t es n) := by
  refine ⟨fun _ _ h => h, fun u v hu => ?_⟩
  rw [arrMemo_addArray, update_of_ne]
  · exact hu
  · rintro rfl
    rw [hnew] at hu
    cases hu

lemma Inv.addArray (h : b.Inv) (hnew : b.arrMemo t = none) {i e n : ℕ} (hs : t.sort = .array i e)
    (hes : IsEntries (b.addArray t es n).Good t i e es) : (b.addArray t es n).Inv := by
  have hle := le_addArray hnew es n
  refine ⟨fun u v hu => (h.memo u v hu).mono fun _ _ => hle.good, fun u v hu => ?_⟩
  rw [arrMemo_addArray] at hu
  by_cases hut : u = t
  · subst hut
    rw [update_self] at hu
    exact ⟨i, e, hs, Option.some.inj hu ▸ hes⟩
  · rw [update_of_ne hut] at hu
    obtain ⟨i, e, hs, hes⟩ := h.arr u v hu
    exact ⟨i, e, hs, hes.mono fun _ _ => hle.good⟩

/-! ## One term -/

/-- What `finish` leaves. -/
structure Finished (maxIndexBits : ℕ) (b : Blaster) (t : Term) (b' : Blaster) : Prop where
  inv : b'.Inv
  le : b.Le b'
  done : b'.failed = true ∨ b'.memoised maxIndexBits t = true

lemma Inv.finished_giveUp (h : b.Inv) :
    Finished maxIndexBits b t b.giveUp := ⟨h.giveUp.1, h.giveUp.2, .inl rfl⟩

lemma Inv.finished_setMemo (h : b.Inv) (hsm : isSmallArray maxIndexBits t.sort = false)
    (hnew : b.memo t = none) (hr : IsRewrite b.Good t r) :
    Finished maxIndexBits b t (b.setMemo t r) := by
  obtain ⟨hinv, hle⟩ := h.setMemo hnew hr
  refine ⟨hinv, hle, .inr ?_⟩
  rw [memoised, hsm, memo_setMemo, update_self]
  rfl

lemma Inv.finished_addArray (h : b.Inv) (hsm : isSmallArray maxIndexBits t.sort = true)
    (hnew : b.arrMemo t = none) {i e n : ℕ}
    (hs : t.sort = .array i e) (hes : IsEntries (b.addArray t es n).Good t i e es) :
    Finished maxIndexBits b t (b.addArray t es n) := by
  refine ⟨h.addArray hnew hs hes, le_addArray hnew es n, .inr ?_⟩
  rw [memoised, hsm, arrMemo_addArray, update_self]
  rfl

/-- A child that has been visited and is no small array. -/
lemma Inv.exists_memo (h : b.Inv) (hs : isSmallArray maxIndexBits t.sort = false)
    (ht : b.memoised maxIndexBits t = true) :
    ∃ r, b.memo t = some r ∧ IsRewrite b.Good t r := by
  rw [memoised, hs] at ht
  obtain ⟨r, hr⟩ := isSome_iff_exists.1 ht
  exact ⟨r, hr, h.memo t r hr⟩

lemma Inv.exists_arr (h : b.Inv) {i e : ℕ} (hs : t.sort = .array i e) (hi : i ≤ maxIndexBits)
    (ht : b.memoised maxIndexBits t = true) :
    ∃ es, b.arrMemo t = some es ∧ IsEntries b.Good t i e es := by
  rw [memoised, hs, isSmallArray, decide_eq_true hi] at ht
  obtain ⟨es, hes⟩ := isSome_iff_exists.1 ht
  obtain ⟨i', e', hs', hent⟩ := h.arr t es hes
  cases (hs.symm.trans hs')
  exact ⟨es, hes, hent⟩

lemma good_sorted (b : Blaster) :
    ∀ sem ρ, b.Good sem ρ → sem.Sorted ∧ ρ.Sorted := fun _ _ h => ⟨h.1, h.2.1⟩

/-- An operator that makes an array. -/
lemma store_or_ite {f : Fn} {p0 p1 i e : ℕ} {args : List Srt}
    (h : f.Typed p0 p1 args (.array i e)) : f = .store ∨ f = .ite := by
  cases f
  case store => exact .inl rfl
  case ite => exact .inr rfl
  case not | implies => cases h.2
  case and | or | xor => cases h.2.2
  case eq | distinct => cases h.1
  case bvNot | bvNeg | rotl | rotr | bvNand | bvNor | bvXnor | bvUdiv | bvUrem | bvSdiv |
      bvSrem | bvSmod | bvShl | bvLshr | bvAshr | zext | sext | repeated | bvUlt | bvUle |
      bvUgt | bvUge | bvSlt | bvSle | bvSgt | bvSge | bvComp | bvUltbv | bvSltbv | bvRedor |
      bvRedand =>
    obtain ⟨w, -, hs⟩ := h
    cases hs
  case bvAnd | bvOr | bvXor | bvAdd | bvSub | bvMul =>
    obtain ⟨w, -, -, hs⟩ := h
    cases hs
  case extract =>
    obtain ⟨w, -, -, -, hs⟩ := h
    cases hs
  case concat =>
    obtain ⟨ws, -, -, hs⟩ := h
    cases hs
  case select =>
    obtain ⟨i, e, -, hs⟩ := h
    cases hs

/-- A constant that stands for an array. -/
lemma isEntries_minted (b : Blaster) (id : ℕ) (symbol : Option String) (i e : ℕ) (name : String) :
    IsEntries (b.addArray (.const id symbol (.array i e))
      ((List.range (2 ^ i)).map fun k => const (b.next + k) (some (name ++ "@" ++ toString k))
        (.bv e)) (b.next + 2 ^ i)).Good
      (.const id symbol (.array i e)) i e
      ((List.range (2 ^ i)).map fun k => const (b.next + k)
        (some (name ++ "@" ++ toString k)) (.bv e)) := by
  refine ⟨by simp, fun x hx => ?_, fun sem ρ hg k x hk => ?_⟩
  · obtain ⟨k, -, rfl⟩ := mem_map.1 hx
    exact ⟨.const _ _ _, rfl⟩
  · have hmem := mem_of_getElem? hk
    obtain ⟨m, -, rfl⟩ := mem_map.1 hmem
    exact hg.2.2 id symbol i e _ (by rw [arrMemo_addArray, update_self]) k _ _ hk

/-- The entries of a small array. -/
lemma Inv.finishArray (h : b.Inv) (ht : t.WellSorted) {i e : ℕ} (hs : t.sort = .array i e)
    (hi : i ≤ maxIndexBits) (hnew : b.arrMemo t = none)
    (hks : ∀ c ∈ t.kids, b.memoised maxIndexBits c = true) :
    ∃ b', b.finishArray t = some b' ∧ Finished maxIndexBits b t b' := by
  have hsm : isSmallArray maxIndexBits t.sort = true := by rw [hs, isSmallArray, decide_eq_true hi]
  have hset : ∀ {es}, IsEntries b.Good t i e es →
      Finished maxIndexBits b t (b.setEntries t es) := fun hes =>
    h.finished_addArray (n := b.next) hsm hnew hs (hes.mono fun _ _ => (le_addArray hnew _ _).good)
  cases ht with
  | boolean v => cases hs
  | bitvector hn => cases hs
  | const id symbol s =>
    obtain rfl : s = .array i e := hs
    exact ⟨_, rfl, h.finished_addArray hsm hnew rfl (isEntries_minted b id symbol i e _)⟩
  | constArray hba hso =>
    cases hs
    exact ⟨_, rfl, hset (isEntries_constArray hba hso b.good_sorted)⟩
  | @app op s kids hop hki =>
    obtain rfl : s = .array i e := hs
    cases op with
    | other code indices => exact ⟨_, rfl, h.finished_giveUp⟩
    | fn f indices =>
      have hfn := store_or_ite hop
      rcases hfn with rfl | rfl
      · obtain ⟨i', e', har, hs'⟩ := hop
        cases hs'
        obtain ⟨a, l, rfl, ha, hta⟩ := map_eq_cons_iff.1 har
        obtain ⟨x, l, rfl, hx, hta⟩ := map_eq_cons_iff.1 hta
        obtain ⟨v, rfl, hv⟩ := map_eq_singleton_iff.1 hta
        have hmem : a ∈ [a, x, v] ∧ x ∈ [a, x, v] ∧ v ∈ [a, x, v] := by simp
        obtain ⟨base, hba, hent⟩ := h.exists_arr ha hi (hks a hmem.1)
        obtain ⟨idx, hidx, hid⟩ := h.exists_memo (by rw [hx]; rfl) (hks x hmem.2.1)
        obtain ⟨val, hval, hva⟩ := h.exists_memo (by rw [hv]; rfl) (hks v hmem.2.2)
        have hmap := isEntries_mapIdx (s := .array i e) (ι := indices) hent hid hva
          (hki a hmem.1) ha (hki x hmem.2.1) hx
          (hki v hmem.2.2) hv b.good_sorted
        rw [finishArray, hba, hidx, hval]
        cases idx with
        | bitvector w n =>
          obtain ⟨hn, hes⟩ := isEntries_set (s := .array i e) (ι := indices) hent hid hva
            (hki a hmem.1) ha (hki x hmem.2.1) hx
            (hki v hmem.2.2) hv b.good_sorted
          exact ⟨_, if_pos hn, hset hes⟩
        | const id symbol s => exact ⟨_, rfl, hset hmap⟩
        | boolean v => exact ⟨_, rfl, hset hmap⟩
        | constArray i e base => exact ⟨_, rfl, hset hmap⟩
        | app op s l => exact ⟨_, rfl, hset hmap⟩
      · obtain ⟨c, l, rfl, hc, hta⟩ :=
          map_eq_cons_iff.1 (show kids.map sort = [.bool, .array i e, .array i e] from hop)
        obtain ⟨x, l, rfl, hx, hta⟩ := map_eq_cons_iff.1 hta
        obtain ⟨y, rfl, hy⟩ := map_eq_singleton_iff.1 hta
        have hmem : c ∈ [c, x, y] ∧ x ∈ [c, x, y] ∧ y ∈ [c, x, y] := by simp
        obtain ⟨c', hc', hcr⟩ := h.exists_memo (by rw [hc]; rfl) (hks c hmem.1)
        obtain ⟨xs, hxs, hxe⟩ := h.exists_arr hx hi (hks x hmem.2.1)
        obtain ⟨ys, hys, hye⟩ := h.exists_arr hy hi (hks y hmem.2.2)
        rw [finishArray, hc', hxs, hys]
        exact ⟨_, rfl, hset (isEntries_ite hcr hc hxe hye)⟩

lemma isSmallArray_eq (h : isSmallArray maxIndexBits s = true) :
    ∃ i e, s = .array i e ∧ i ≤ maxIndexBits := by
  cases s with
  | array i e => exact ⟨i, e, rfl, of_decide_eq_true h⟩
  | bool => cases h
  | bv w => cases h
  | other => cases h

/-- A term over children that are no small arrays. -/
lemma Inv.finishOther (h : b.Inv) {op : Op} {s : Srt} {kids : List Term}
    (ht : (app op s kids).WellSorted)
    (hs : isSmallArray maxIndexBits s = false) (hnew : b.memo (.app op s kids) = none)
    (hks : ∀ c ∈ kids, b.memoised maxIndexBits c = true) :
    ∃ b', b.finishOther maxIndexBits (.app op s kids) op s kids = some b' ∧
    Finished maxIndexBits b (.app op s kids) b' := by
  have hrd : ∀ l : List Term, (∀ c ∈ l, b.memoised maxIndexBits c = true) →
      b.rewriteKids maxIndexBits l = some none ∨
      ∃ rs, b.rewriteKids maxIndexBits l = some (some rs) ∧ Forall₂ (IsRewrite b.Good) l rs := by
    intro l hl
    induction l with
    | nil => exact .inr ⟨[], rfl, .nil⟩
    | cons c l ih =>
      rw [rewriteKids]
      cases hc : isSmallArray maxIndexBits c.sort with
      | true => exact .inl rfl
      | false =>
        obtain ⟨r, hr, hrw⟩ := h.exists_memo hc (hl c (.head _))
        rw [hr]
        rcases ih fun c hc => hl c (.tail _ hc) with hno | ⟨rs, hrs, hall⟩
        · rw [hno]
          exact .inl rfl
        · rw [hrs]
          exact .inr ⟨r :: rs, rfl, .cons hrw hall⟩
  rw [Blaster.finishOther]
  rcases hrd kids hks with hno | ⟨rs, hrs, hall⟩
  · rw [hno]
    exact ⟨_, rfl, h.finished_giveUp⟩
  · rw [hrs]
    refine ⟨_, rfl, h.finished_setMemo hs hnew ?_⟩
    split
    · exact isRewrite_self ht
    · exact isRewrite_app ht hall

/-- The comparison of small arrays. -/
lemma Inv.finishEqual (h : b.Inv) {f : Fn} {indices : ℕ × ℕ} {k : Term} {kids : List Term}
    (hf : f = .eq ∨ f = .distinct)
    (ht : (app (.fn f indices) s (k :: kids)).WellSorted)
    (hk : isSmallArray maxIndexBits k.sort = true)
    (hnew : b.memo (.app (.fn f indices) s (k :: kids)) = none)
    (hks : ∀ c ∈ k :: kids, b.memoised maxIndexBits c = true) :
    ∃ b', b.finishEqual (.app (.fn f indices) s (k :: kids))
    (f == .distinct) (k :: kids) = some b' ∧
      Finished maxIndexBits b (.app (.fn f indices) s (k :: kids)) b' := by
  cases ht with
  | app hop hki =>
    obtain ⟨rfl, hsa⟩ : s = .bool ∧ ∃ t, ∀ a ∈ (k :: kids).map sort, a = t := by
      rcases hf with rfl | rfl
      · exact ⟨hop.1, hop.2.2⟩
      · exact ⟨hop.1, hop.2.2⟩
    match kids with
    | [] => exact ⟨_, rfl, h.finished_giveUp⟩
    | [y] =>
      obtain ⟨i, e, hs, hi⟩ := isSmallArray_eq hk
      obtain ⟨u, hu⟩ := hsa
      have hys : y.sort = .array i e := by rw [hu y.sort (by simp), ← hu k.sort (by simp), hs]
      have hmem : k ∈ [k, y] ∧ y ∈ [k, y] := by simp
      obtain ⟨xs, hxs, hxe⟩ := h.exists_arr hs hi (hks k hmem.1)
      obtain ⟨ys, hye, hyn⟩ := h.exists_arr hys hi (hks y hmem.2)
      have heq := isRewrite_entriesEqual (ι := indices) hxe hyn (hki k hmem.1) hs
        (hki y hmem.2) hys b.good_sorted
      rw [finishEqual, hxs, hye]
      rcases hf with rfl | rfl
      · exact ⟨_, rfl, h.finished_setMemo rfl hnew heq⟩
      · exact ⟨_, rfl, h.finished_setMemo rfl hnew (isRewrite_distinct heq)⟩
    | _ :: _ :: _ => exact ⟨_, rfl, h.finished_giveUp⟩

/-- The read of a small array. -/
lemma Inv.finishSelect (h : b.Inv) {indices : ℕ × ℕ} {k : Term} {kids : List Term}
    (ht : (app (.fn .select indices) s (k :: kids)).WellSorted)
    (hk : isSmallArray maxIndexBits k.sort = true)
    (hnew : b.memo (.app (.fn .select indices) s (k :: kids)) = none)
    (hks : ∀ c ∈ k :: kids, b.memoised maxIndexBits c = true) :
    ∃ es idx r, b.arrMemo k = some es ∧ kids.head?.bind b.memo = some idx ∧
    readEntry idx es = some r ∧
      Finished maxIndexBits b (.app (.fn .select indices) s (k :: kids))
      (b.setMemo (.app (.fn .select indices) s (k :: kids)) r) := by
  cases ht with
  | app hop hki =>
    obtain ⟨i, e, har, rfl⟩ := hop
    obtain ⟨a, l, heq, ha, hta⟩ := map_eq_cons_iff.1 har
    cases heq
    obtain ⟨x, rfl, hx⟩ := map_eq_singleton_iff.1 hta
    have hi : i ≤ maxIndexBits := by
      rw [ha] at hk
      exact of_decide_eq_true hk
    have hmem : k ∈ [k, x] ∧ x ∈ [k, x] := by simp
    obtain ⟨es, hes, hent⟩ := h.exists_arr ha hi (hks k hmem.1)
    obtain ⟨idx, hidx, hid⟩ := h.exists_memo (by rw [hx]; rfl) (hks x hmem.2)
    obtain ⟨r, hr, hrw⟩ := isRewrite_selectTree (ι := indices) hent hid
      (hki x hmem.2) hx b.good_sorted
    cases idx with
    | bitvector w n =>
      obtain ⟨r, hr, hrw⟩ := isRewrite_getElem (ι := indices) hent hid hx
      exact ⟨es, _, r, hes, hidx, hr, h.finished_setMemo rfl hnew hrw⟩
    | const id symbol s => exact ⟨es, _, r, hes, hidx, hr, h.finished_setMemo rfl hnew hrw⟩
    | boolean v => exact ⟨es, _, r, hes, hidx, hr, h.finished_setMemo rfl hnew hrw⟩
    | constArray i e base => exact ⟨es, _, r, hes, hidx, hr, h.finished_setMemo rfl hnew hrw⟩
    | app op s l => exact ⟨es, _, r, hes, hidx, hr, h.finished_setMemo rfl hnew hrw⟩

/-- `finish` finds what it reads, and what it adds is exact. -/
lemma Inv.finish (h : b.Inv) (ht : t.WellSorted) (hnew : b.memoised maxIndexBits t = false)
    (hks : ∀ c ∈ t.kids, b.memoised maxIndexBits c = true) :
    ∃ b', b.finish maxIndexBits t = some b' ∧ Finished maxIndexBits b t b' := by
  unfold Blaster.finish
  rw [memoised] at hnew
  cases hs : isSmallArray maxIndexBits t.sort with
  | true =>
    obtain ⟨i, e, hso, hi⟩ := isSmallArray_eq hs
    rw [hs] at hnew
    exact h.finishArray ht hso hi (isSome_eq_false_iff.1 hnew |> isNone_iff_eq_none.1) hks
  | false =>
    rw [hs] at hnew
    rw [if_neg Bool.false_ne_true]
    have hno := isNone_iff_eq_none.1 (isSome_eq_false_iff.1 hnew)
    have hl := h.finished_setMemo hs hno (isRewrite_self ht)
    match t with
    | .const id symbol s => exact ⟨_, rfl, hl⟩
    | .boolean v => exact ⟨_, rfl, hl⟩
    | .bitvector w n => exact ⟨_, rfl, hl⟩
    | .constArray i e base => exact ⟨_, rfl, hl⟩
    | .app op s [] => exact ⟨_, rfl, hl⟩
    | .app op s (k :: kids) =>
      have ho := h.finishOther ht hs hno hks
      dsimp only
      cases hhe : smallHead maxIndexBits (k :: kids) with
      | false => exact ho
      | true =>
        rw [if_pos rfl]
        have hk := hhe
        split
        · obtain ⟨es, idx, r, hes, hidx, hr, hfin⟩ := h.finishSelect ht hk hno hks
          rw [hes, bind_some, hidx, bind_some, hr]
          exact ⟨_, rfl, hfin⟩
        · exact h.finishEqual (.inl rfl) ht hk hno hks
        · exact h.finishEqual (.inr rfl) ht hk hno hks
        · exact ho

/-! ## The walk -/

lemma weight_eq (t : Term) : t.weight = (t.kids.map weight).sum + 2 := by
  have hsum : ∀ l : List Term, weights l = (l.map weight).sum := by
    intro l
    induction l with
    | nil => rfl
    | cons t l ih => simp [weights, ih]
  cases t with
  | app op s l => rw [weight, hsum, kids]
  | const id symbol s => rfl
  | boolean v => rfl
  | bitvector w n => rfl
  | constArray i e base => rfl

lemma wellSorted_kids (h : t.WellSorted) : ∀ c ∈ t.kids, c.WellSorted := by
  cases h with
  | app _ hks => exact hks
  | const _ _ _ => exact nofun
  | boolean _ => exact nofun
  | bitvector _ => exact nofun
  | constArray _ _ => exact nofun

/-- Frames that a stack still takes at the most. -/
def load (stack : List (Frame Term)) : ℕ :=
  (stack.map fun f => if f.exit then 1 else f.id.weight).sum

/-- The walk from a root on its way: below an exit frame stands nothing that its term reads. -/
structure Walking (maxIndexBits : ℕ) (root : Term) (b : Blaster)
    (stack : List (Frame Term)) : Prop where
  inv : b.Inv
  wellSorted : ∀ f ∈ stack, f.id.WellSorted
  covered : Covered (fun t c => c ∈ t.kids) (fun c => b.memoised maxIndexBits c = true) stack
  root : b.memoised maxIndexBits root = true ∨ ∃ f ∈ stack, f.id = root

variable {root : Term} {f : Frame Term} {stack : List (Frame Term)}

lemma Walking.pop (h : Walking maxIndexBits root b (f :: stack)) (hinv : b'.Inv) (hle : b.Le b')
    (hf : b'.memoised maxIndexBits f.id = true) :
    Walking maxIndexBits root b' stack := by
  refine ⟨hinv, fun g hg => h.wellSorted g (.tail _ hg),
    (h.covered.mono fun c hc => hle.memoised hc).pop hf, ?_⟩
  rcases h.root with hr | ⟨g, hg, rfl⟩
  · exact .inl (hle.memoised hr)
  · rcases mem_cons.1 hg with rfl | hg
    · exact .inl hf
    · exact .inr ⟨g, hg, rfl⟩

lemma Walking.enter (h : Walking maxIndexBits root b (f :: stack)) (hf : f.exit = false) :
    Walking maxIndexBits root b (((f.id.kids.filter fun c => !b.memoised maxIndexBits c).map
      (⟨·, false⟩)) ++ ⟨f.id, true⟩ :: stack) := by
  refine ⟨h.inv, fun g hg => ?_, .entries _ ⟨fun _ c hc => ?_, h.covered.2.mono fun c hc => ?_⟩, ?_⟩
  · rcases mem_append.1 hg with hg | hg
    · obtain ⟨c, hc, rfl⟩ := mem_map.1 hg
      exact wellSorted_kids (h.wellSorted f (.head _)) c (mem_filter.1 hc).1
    · rcases mem_cons.1 hg with rfl | hg
      · exact h.wellSorted f (.head _)
      · exact h.wellSorted g (.tail _ hg)
  · cases hm : b.memoised maxIndexBits c with
    | true => exact .inl hm
    | false => exact .inr (mem_filter.2 ⟨hc, by rw [hm]; rfl⟩)
  · exact hc.imp_left .inl
  · refine h.root.imp_right ?_
    rintro ⟨g, hg, rfl⟩
    rcases mem_cons.1 hg with rfl | hg
    · exact ⟨⟨g.id, true⟩, mem_append_right _ (.head _), rfl⟩
    · exact ⟨g, mem_append_right _ (.tail _ hg), rfl⟩

lemma load_enter (keep : Term → Bool) (t : Term) (stack : List (Frame Term)) :
    load (((t.kids.filter keep).map (⟨·, false⟩)) ++ ⟨t, true⟩ :: stack) < load
    (⟨t, false⟩ :: stack) := by
  have hle : ((t.kids.filter keep).map weight).sum ≤ (t.kids.map weight).sum :=
    (filter_sublist.map _).sum_le_sum fun _ _ => zero_le _
  have hmap : (((t.kids.filter keep).map (⟨·, false⟩ : Term → Frame Term)).map fun f => if f.exit
      then 1 else f.id.weight) = (t.kids.filter keep).map weight := by
    rw [List.map_map]
    rfl
  rw [load, load, map_append, hmap, sum_append_nat, map_cons, sum_cons, map_cons, sum_cons]
  change _ + (1 + _) < t.weight + _
  rw [weight_eq t]
  omega

lemma one_le_frame (f : Frame Term) : 1 ≤ if f.exit then 1 else f.id.weight := by
  split
  · exact le_rfl
  · rw [weight_eq]
    exact le_add_left _ _

lemma load_cons (f : Frame Term) (stack : List (Frame Term)) :
    load (f :: stack) = (if f.exit then 1 else f.id.weight) + load stack := by
  simp [load, load]

lemma visit_failed {fuel : ℕ} (h : b.failed = true) (hfu : load stack ≤ fuel) :
    visit maxIndexBits fuel b stack = some b := by
  cases stack with
  | nil => cases fuel <;> rfl
  | cons f stack =>
    cases fuel with
    | zero =>
      exact absurd ((one_le_frame f).trans ((le_add_right _ _).trans hfu)) (not_succ_le_zero 0)
    | succ fuel => rw [visit, if_pos h]

/-- The walk ends with the root in the tables, or gives up. -/
lemma visit_spec {fuel : ℕ} (h : Walking maxIndexBits root b stack) (hfu : load stack ≤ fuel) :
    ∃ b', visit maxIndexBits fuel b stack = some b' ∧ b'.Inv ∧ b.Le b' ∧
    (b'.failed = true ∨ b'.memoised maxIndexBits root = true) := by
  have hdo : ∀ {b}, Walking maxIndexBits root b [] → b.memoised maxIndexBits root = true := fun h =>
    h.root.resolve_right fun ⟨_, hg, _⟩ => nomatch hg
  induction fuel generalizing b stack with
  | zero =>
    cases stack with
    | nil => exact ⟨b, rfl, h.inv, .refl b, .inr (hdo h)⟩
    | cons f stack =>
      exact absurd ((one_le_frame f).trans ((le_add_right _ _).trans hfu)) (not_succ_le_zero 0)
  | succ fuel ih =>
    cases stack with
    | nil => exact ⟨b, rfl, h.inv, .refl b, .inr (hdo h)⟩
    | cons f stack =>
      rw [visit]
      have hr : load stack ≤ fuel := by
        rw [load_cons, add_comm] at hfu
        exact Nat.le_of_add_le_add_right ((Nat.add_le_add_left (one_le_frame f) _).trans hfu)
      cases hfa : b.failed with
      | true => exact ⟨b, if_pos rfl, h.inv, .refl b, .inl hfa⟩
      | false =>
        cases hm : b.memoised maxIndexBits f.id with
        | true => exact ih (h.pop h.inv (.refl b) hm) hr
        | false =>
          cases hexi : f.exit with
          | true =>
            obtain ⟨b', hfin, hb'⟩ := h.inv.finish (h.wellSorted f (.head _)) hm (h.covered.1 hexi)
            rw [hfin]
            rcases hb'.done with hfl | hdo
            · exact ⟨b', visit_failed hfl hr, hb'.inv, hb'.le, .inl hfl⟩
            · obtain ⟨b'', hvi, hinv, hle, hres⟩ := ih (h.pop hb'.inv hb'.le hdo) hr
              exact ⟨b'', hvi, hinv, hb'.le.trans hle, hres⟩
          | false =>
            refine ih (h.enter hexi) (le_of_lt_succ ((load_enter _ f.id stack).trans_le ?_))
            rwa [← hexi]

/-! ## Calls -/

/-- `rewrite` is for terms that are no small arrays, `entries` for those. -/
def Call.Ok (maxIndexBits : ℕ) : Call → Prop
  | .rewrite t => t.WellSorted ∧ isSmallArray maxIndexBits t.sort = false
  | .entries a => a.WellSorted ∧ isSmallArray maxIndexBits a.sort = true
  | .made _ => True

/-- The answer is exact where `P` holds; there is none only after a failure. -/
inductive Exact (P : Meaning → Assignment → Prop) (failed : Bool) : Call → Answer → Prop
  | rewrite {t r : Term} (h : IsRewrite P t r) : Exact P failed (.rewrite t) (.term (some r))
  | entries {a : Term} {i e : ℕ} {es : List Term} (hs : a.sort = .array i e)
    (h : IsEntries P a i e es) : Exact P failed (.entries a) (.list (some es))
  | made (n : ℕ) : Exact P failed (.made n) .done
  | noTerm {t : Term} (h : failed = true) : Exact P failed (.rewrite t) (.term none)
  | noList {a : Term} (h : failed = true) : Exact P failed (.entries a) (.list none)

lemma Exact.mono {P Q : Meaning → Assignment → Prop} {failed failed' : Bool} {c : Call} {a : Answer}
    (h : Exact P failed c a)
    (hQ : ∀ sem ρ, Q sem ρ → P sem ρ) (hfa : failed = true → failed' = true) :
    Exact Q failed' c a := by
  cases h with
  | rewrite h => exact .rewrite (h.mono hQ)
  | entries hs h => exact .entries hs (h.mono hQ)
  | made n => exact .made n
  | noTerm h => exact .noTerm (hfa h)
  | noList h => exact .noList (hfa h)

/-- A walk from a term, for a call that did not find it in the tables. -/
lemma Inv.visit (h : b.Inv) (ht : t.WellSorted) :
    ∃ b', visit maxIndexBits t.weight b [⟨t, false⟩] = some b' ∧ b'.Inv ∧ b.Le b' ∧
    (b'.failed = true ∨ b'.memoised maxIndexBits t = true) :=
  visit_spec (⟨h, fun _ hf => mem_singleton.1 hf ▸ ht, ⟨nofun, trivial⟩,
    .inr ⟨_, mem_singleton_self _, rfl⟩⟩) le_rfl

lemma Inv.call (h : b.Inv) {c : Call} (hc : c.Ok maxIndexBits) :
    ∃ a b', b.call maxIndexBits c = some (a, b') ∧ b'.Inv ∧ b.Le b' ∧
    (b.failed = true → b'.failed = true) ∧ Exact b'.Good b'.failed c a := by
  cases c with
  | made n =>
    exact ⟨.done, _, rfl, ⟨h.memo, h.arr⟩, ⟨fun _ _ h => h, fun _ _ h => h⟩, fun h => h, .made n⟩
  | rewrite t =>
    rw [Blaster.call, Blaster.rewrite]
    cases hfa : b.failed with
    | true => exact ⟨_, b, rfl, h, .refl b, fun _ => hfa, .noTerm hfa⟩
    | false =>
      cases hme : b.memo t with
      | some r => exact ⟨_, b, rfl, h, .refl b, fun hf => absurd hf Bool.false_ne_true,
        .rewrite (h.memo t r hme)⟩
      | none =>
        obtain ⟨b', hvi, hinv, hle, hres⟩ := h.visit hc.1
        rw [hvi, bind_some]
        cases hfa' : b'.failed with
        | true => exact ⟨_, b', rfl, hinv, hle, fun _ => hfa', .noTerm hfa'⟩
        | false =>
          obtain ⟨r, hr, hrw⟩ := hinv.exists_memo hc.2
            (hres.resolve_left (by rw [hfa']; exact Bool.false_ne_true))
          refine ⟨.term (some r), b', ?_, hinv, hle,
            fun hf => absurd hf Bool.false_ne_true, .rewrite hrw⟩
          rw [hr]
          rfl
  | entries a =>
    obtain ⟨i, e, hs, hi⟩ := isSmallArray_eq hc.2
    rw [Blaster.call, entries]
    cases hfa : b.failed with
    | true => exact ⟨_, b, rfl, h, .refl b, fun _ => hfa, .noList hfa⟩
    | false =>
      cases hme : b.arrMemo a with
      | some es =>
        obtain ⟨i, e, hs, hes⟩ := h.arr a es hme
        exact ⟨_, b, rfl, h, .refl b, fun hf => absurd hf Bool.false_ne_true, .entries hs hes⟩
      | none =>
        obtain ⟨b', hvi, hinv, hle, hres⟩ := h.visit hc.1
        rw [hvi, bind_some]
        cases hfa' : b'.failed with
        | true => exact ⟨_, b', rfl, hinv, hle, fun _ => hfa', .noList hfa'⟩
        | false =>
          obtain ⟨es, hes, hent⟩ := hinv.exists_arr hs hi
            (hres.resolve_left (by rw [hfa']; exact Bool.false_ne_true))
          refine ⟨.list (some es), b', ?_, hinv, hle,
            fun hf => absurd hf Bool.false_ne_true, .entries hs hent⟩
          rw [hes]
          rfl

lemma Inv.calls (h : b.Inv) (l : List Call) (hl : ∀ c ∈ l, c.Ok maxIndexBits) :
    ∃ answers b', b.calls maxIndexBits l = some (answers, b') ∧ b.Le b' ∧
    (b.failed = true → b'.failed = true) ∧ Forall₂ (Exact b'.Good b'.failed) l answers := by
  induction l generalizing b with
  | nil => exact ⟨[], b, rfl, .refl b, fun h => h, .nil⟩
  | cons c l ih =>
    obtain ⟨a, b', hcl, hinv, hle, hfa, hexa⟩ := h.call (hl c (.head _))
    obtain ⟨answers, b'', hca, hle', hfa', hall⟩ := ih hinv fun c hc => hl c (.tail _ hc)
    refine ⟨a :: answers, b'', ?_, hle.trans hle', fun hf => hfa' (hfa hf),
      .cons (hexa.mono (fun _ _ => hle'.good) hfa') hall⟩
    rw [calls, hcl, bind_some, hca]
    rfl

end Blaster

open Blaster

/-- Over any calls the blaster finds what it reads, and its rewrites and entries are exact;
`array_value` makes the array whose entries it is given. -/
theorem arrayBlaster_exact (maxIndexBits next : ℕ) (l : List Call)
    (hl : ∀ c ∈ l, c.Ok maxIndexBits) :
    (∃ answers b, (start next).calls maxIndexBits l = some (answers, b) ∧
      Forall₂ (Exact b.Good b.failed) l answers) ∧
      ∀ i e vals, (∀ v ∈ vals, v.WellSorted ∧ v.sort = .bv e) → vals.length = 2 ^ i →
      ∃ t, arrayValue i e vals = some t ∧ t.sort = .array i e ∧
        ∀ sem ρ, sem.Sorted → ρ.Sorted → ∀ k v, vals[k]? = some v →
        v.eval sem ρ = entry i k (t.eval sem ρ) := by
  constructor
  · obtain ⟨answers, b, hcalls, -, -, hall⟩ := (inv_start next).calls l hl
    exact ⟨answers, b, hcalls, hall⟩
  · intro i e vals hvals hlength
    obtain ⟨t, ht, -, hs, heval⟩ := arrayValue_spec hvals hlength
    exact ⟨t, ht, hs, heval⟩

/-- A read of a written memory at another symbolic address. -/
def readOfWrite : Term :=
  .app (.fn .select (0, 0)) (.bv 8) [.app (.fn .store (0, 0)) (.array 1 8)
    [.const 0 (some "mem") (.array 1 8), .const 1 (some "w") (.bv 1),
    .const 2 (some "d") (.bv 8)], .const 3 (some "r") (.bv 1)]

lemma wellSorted_readOfWrite : readOfWrite.WellSorted := by
  refine .app ⟨1, 8, rfl, rfl⟩ fun c hc => ?_
  rcases mem_pair.1 hc with rfl | rfl
  · refine .app ⟨1, 8, rfl, rfl⟩ fun c hc => ?_
    simp only [mem_cons, not_mem_nil, or_false] at hc
    rcases hc with rfl | rfl | rfl
    · exact .const ..
    · exact .const ..
    · exact .const ..
  · exact .const ..

theorem arrayBlaster_exact_readOfWrite :
    (∃ answers b, (start 4).calls 5 [.rewrite readOfWrite] = some (answers, b) ∧
    Forall₂ (Exact b.Good b.failed) [.rewrite readOfWrite] answers) ∧
    ((start 4).calls 5 [.rewrite readOfWrite]).map (·.2.failed) = some false :=
  ⟨(arrayBlaster_exact 5 4 [.rewrite readOfWrite] fun _ hc => mem_singleton.1 hc ▸
    ⟨wellSorted_readOfWrite, rfl⟩).1, by decide⟩

end LiveHD.Lec.ArrayBlast
