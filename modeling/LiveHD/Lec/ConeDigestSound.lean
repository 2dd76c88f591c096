import LiveHD.Lec.ConeDigest
import LiveHD.Lib.Lists

/-!
# What equal cone digests say
-/

namespace LiveHD.Lec

open Term hiding sort
open Relation Function List Terms Walk

/-! ## The payload defines the node -/

lemma digits_inj {m n : ℕ} (h : digits m = digits n) : m = n :=
  Nat.repr_injective (congrArg String.ofList h)

lemma notMem_digits {c : Char} (hc : c.isDigit = false) (n : ℕ) : c ∉ digits n := by
  intro hmem
  have hdi := Nat.isDigit_of_mem_toDigits (by decide) (by decide) hmem
  rw [hc] at hdi
  cases hdi

lemma Kind.code_inj {k k' : Kind} (h : k.code = k'.code) : k = k' := by
  cases k <;> cases k' <;> simp only [code] at h <;> first | rfl | omega | skip
  case fn.fn f g =>
    have hfg : f.ctorIdx = g.ctorIdx := by omega
    rw [← Fn.ofNat_ctorIdx f, hfg, Fn.ofNat_ctorIdx]
  case other.other c d =>
    have hcd : c = d := by omega
    rw [hcd]

lemma Srt.notMem_text (s : Srt) : '|' ∉ s.text := by
  have hdi : ∀ n, '|' ∉ digits n := notMem_digits (by decide)
  cases s with
  | bool | other => simp [text]
  | bv w => simp [text, hdi]
  | array i e => simp [text, hdi]

lemma Srt.text_inj {s s' : Srt} (h : s.text = s'.text) : s = s' := by
  have hcl : ∀ n, ')' ∉ digits n := notMem_digits (by decide)
  cases s <;> cases s' <;> simp [text] at h <;> try rfl
  case bv.bv w w' => rw [digits_inj h]
  case array.array i e i' e' =>
    obtain ⟨hi, he⟩ := (append_cons_inj_of_notMem_left (hcl i) (hcl i')).1 h
    simp only [List.cons.injEq, true_and, append_cancel_right_eq] at he
    rw [digits_inj hi, digits_inj he]

lemma binary_inj {w m n : ℕ} (hm : m < 2 ^ w) (hn : n < 2 ^ w)
    (h : binary w m = binary w n) : m = n := by
  refine Nat.eq_of_testBit_eq fun i => ?_
  by_cases hi : i < w
  · have hall := map_inj_left.1 h i (by simpa using hi)
    by_cases hmi : m.testBit i <;> by_cases hni : n.testBit i <;> simp_all
  · have hle := Nat.pow_le_pow_right two_pos (not_lt.1 hi)
    rw [Nat.testBit_lt_two_pow (hm.trans_le hle), Nat.testBit_lt_two_pow (hn.trans_le hle)]

lemma Fn.numIndices_cases (f : Fn) : f.numIndices = 0 ∨ f.numIndices = 1 ∨ f.numIndices = 2 := by
  cases f <;> decide

/-- Nodes of the same kind, of the same sort, and with the same contents. -/
structure SameNode (t t' : Term) : Prop where
  kind : t.kind = t'.kind
  sort : t.sort = t'.sort
  indices : t.opIndices = t'.opIndices
  boolean : t.kind = .constBoolean → t.boolean = t'.boolean
  value : t.kind = .constBitvector → t.value = t'.value

namespace Term

variable {t t' : Term} {id id' : String × ℕ}

lemma head_leafText (id : String × ℕ) (t : Term) : ∀ c ∈ (t.leafText id).head?, c = '|' := by
  intro c hc
  rw [leafText] at hc
  split at hc
  · simpa using hc.symm
  · simpa using hc.symm
  · simpa using hc.symm
  · cases hops : t.opIndices with
    | nil =>
      rw [hops] at hc
      cases hc
    | cons i ops =>
      rw [hops] at hc
      simpa using hc.symm

lemma opIndices_of_fn {f : Fn} (h : t.kind = .fn f) :
    t.opIndices = [t.indices.1, t.indices.2].take f.numIndices := by
  rw [opIndices, h]

lemma opIndices_of_ne (h : ∀ f, t.kind ≠ .fn f) : t.opIndices = [] := by
  rw [opIndices]
  split
  next f hf => exact absurd hf (h f)
  · rfl

lemma opIndices_inj (hk : t.kind = t'.kind)
    (h : (t.opIndices.flatMap fun i => ['|', 'i', ':'] ++ digits i) =
      t'.opIndices.flatMap fun i => ['|', 'i', ':'] ++ digits i) :
    t.opIndices = t'.opIndices := by
  have hbar : ∀ n, '|' ∉ digits n := notMem_digits (by decide)
  by_cases hfn : ∃ f, t.kind = .fn f
  · obtain ⟨f, hf⟩ := hfn
    rw [opIndices_of_fn hf, opIndices_of_fn (hk ▸ hf)] at h ⊢
    rcases f.numIndices_cases with hn | hn | hn <;> rw [hn] at h ⊢
    · rfl
    · simp only [take_succ_cons, take_zero, flatMap_cons, flatMap_nil, append_nil,
        append_cancel_left_eq] at h ⊢
      rw [digits_inj h]
    · simp only [take_succ_cons, take_zero, flatMap_cons, flatMap_nil, append_nil,
        cons_append, nil_append, List.cons.injEq, true_and] at h ⊢
      obtain ⟨h1, h2⟩ := (append_cons_inj_of_notMem_left (hbar _) (hbar _)).1 h
      simp only [List.cons.injEq, true_and] at h2
      exact ⟨digits_inj h1, digits_inj h2, trivial⟩
  · have hne : ∀ f, t.kind ≠ .fn f := fun f hf => hfn ⟨f, hf⟩
    rw [opIndices_of_ne hne, opIndices_of_ne (hk ▸ hne)]

end Term

namespace Terms

variable {T T' : Terms} {t t' : ℕ} {id id' : String × ℕ}

/-- What a solver's bit-vector constants are. -/
lemma Ok.value_lt (hT : T.Ok) (ht : (T.term t).kind = .constBitvector) :
    (T.term t).value < 2 ^ (T.sort t).width := by
  have hsrt := hT.sorted t
  rw [WellSorted, ht] at hsrt
  obtain ⟨w, hw, hlt⟩ := hsrt
  rwa [hw]

/-- Equal payloads are of the same nodes, symbols with the same name and number. -/
lemma sameNode_of_payload (hT : T.Ok) (hT' : T'.Ok) (h : T.payload id t = T'.payload id' t') :
    SameNode (T.term t) (T'.term t') ∧ ((T.term t).kind = .constant → id = id') := by
  have hbar : ∀ n, '|' ∉ digits n := notMem_digits (by decide)
  rw [payload, payload, append_assoc, append_assoc] at h
  obtain ⟨hco, h⟩ := (append_cons_inj_of_notMem_left (hbar _) (hbar _)).1 h
  have hk := Kind.code_inj (digits_inj hco)
  obtain ⟨hte, h⟩ := append_inj_of_notMem (Srt.notMem_text _)
    (Srt.notMem_text _) (head_leafText _ _)
    (head_leafText _ _) h
  have hs : (T.term t).sort = (T'.term t').sort := Srt.text_inj hte
  rw [leafText, leafText, ← hk] at h
  by_cases hops : ∃ f, (T.term t).kind = .fn f
  · obtain ⟨f, hf⟩ := hops
    rw [hf] at h
    refine ⟨⟨hk, hs, opIndices_inj hk h, ?_, ?_⟩, ?_⟩ <;> (intro hc; rw [hf] at hc; cases hc)
  · have hne : ∀ f, (T.term t).kind ≠ .fn f := fun f hf => hops ⟨f, hf⟩
    have hin : (T.term t).opIndices = (T'.term t').opIndices := by
      rw [opIndices_of_ne hne, opIndices_of_ne (hk ▸ hne)]
    refine ⟨⟨hk, hs, hin, ?_, ?_⟩, ?_⟩
    · intro hc
      rw [hc] at h
      cases hb : (T.term t).boolean <;> cases hb' : (T'.term t').boolean <;> simp [hb, hb'] at h ⊢
    · intro hc
      rw [hc] at h
      have hbin := append_cancel_left h
      have hlt' := hT'.value_lt (hk ▸ hc)
      rw [← hs] at hbin
      rw [Terms.sort, ← hs] at hlt'
      exact binary_inj (hT.value_lt hc) hlt' hbin
    · intro hc
      rw [hc] at h
      obtain ⟨hna, hix⟩ := (append_cons_inj_of_notMem_right (notMem_digits (by decide) _)
        (notMem_digits (by decide) _)).1 h
      exact Prod.ext (String.toList_injective (append_cancel_left hna)) (digits_inj hix)

end Terms

/-! ## The walk -/

section

variable {D : Type*} (hstr : List Char → D) (combine : D → D → D) (T : Terms)
  (names : ℕ → Option String)

/-- The symbols have their numbers, different ones for different symbols of one name, and the
digests are those of the nodes. -/
structure WalkOk (w : Walk D) : Prop where
  numbered : ∀ t ix, w.symIx t = some ix → ∃ sym, names t = some sym ∧ ix < w.nameSeq sym
  apart : ∀ a b ix, w.symIx a = some ix → w.symIx b = some ix → names a = names b → a = b
  digest : ∀ t d, w.memo t = some d →
    ∃ id ds, Forall₂ (fun c e => w.memo c = some e) (T.kids t) ds ∧
    d = nodeDigest hstr combine (T.payload id t) ds ∧
    ((T.term t).kind = .constant → names t = some id.1 ∧ w.symIx t = some id.2)

variable {hstr combine T names} {w w' : Walk D} {t : ℕ}

variable (hstr combine T names) in
lemma WalkOk.start : WalkOk hstr combine T names (Walk.start : Walk D) := by
  constructor
  · rintro t ix ⟨⟩
  · rintro a b ix ⟨⟩
  · rintro t d ⟨⟩

lemma Walk.remember_self (w : Walk D) (t : ℕ) (d : D) :
    (w.remember t d).memo t = some d := update_self ..

lemma Walk.remember_of_ne (w : Walk D) {t a : ℕ} (h : a ≠ t) (d : D) :
    (w.remember t d).memo a = w.memo a :=
  update_of_ne h _ _

section

variable (hw : WalkOk hstr combine T names w)
include hw

/-- What numbering a symbol does. -/
lemma WalkOk.symbolIx {sym : String} (ht : names t = some sym) :
    WalkOk hstr combine T names (w.symbolIx sym t).2 ∧ (w.symbolIx sym t).2.memo = w.memo ∧
      (w.symbolIx sym t).2.symIx t = some (w.symbolIx sym t).1 := by
  rw [Walk.symbolIx]
  cases hix : w.symIx t with
  | some ix => exact ⟨hw, rfl, hix⟩
  | none =>
    have hnew : ∀ a ix, update w.symIx t (some (w.nameSeq sym)) a = some ix →
        (a = t ∧ ix = w.nameSeq sym) ∨ (a ≠ t ∧ w.symIx a = some ix) := by
      intro a ix ha
      rcases eq_or_ne a t with rfl | hne
      · rw [update_self] at ha
        exact .inl ⟨rfl, (Option.some.inj ha).symm⟩
      · rw [update_of_ne hne] at ha
        exact .inr ⟨hne, ha⟩
    -- an older symbol of this name has a smaller number
    have ho : ∀ a ix, w.symIx a = some ix → names a = some sym → ix ≠ w.nameSeq sym := by
      rintro a ix ha hna rfl
      obtain ⟨sym', hna', hlt⟩ := hw.numbered a _ ha
      cases (hna.symm.trans hna')
      exact lt_irrefl _ hlt
    refine ⟨⟨?_, ?_, ?_⟩, rfl, update_self ..⟩ <;> dsimp only
    · intro a ix ha
      rcases hnew a ix ha with ⟨rfl, rfl⟩ | ⟨-, ha⟩
      · exact ⟨sym, ht, by rw [update_self]; exact Nat.lt_succ_self _⟩
      · obtain ⟨sym', hna, hlt⟩ := hw.numbered a ix ha
        refine ⟨sym', hna, ?_⟩
        rcases eq_or_ne sym' sym with rfl | hne
        · rw [update_self]
          exact Nat.lt_succ_of_lt hlt
        · rwa [update_of_ne hne]
    · intro a b ix ha hb hna
      rcases hnew a ix ha with ⟨rfl, rfl⟩ | ⟨-, ha'⟩
      · rcases hnew b _ hb with ⟨rfl, -⟩ | ⟨-, hb'⟩
        · rfl
        · exact absurd rfl (ho b _ hb' (hna ▸ ht))
      · rcases hnew b _ hb with ⟨rfl, rfl⟩ | ⟨-, hb'⟩
        · exact absurd rfl (ho a _ ha' (hna.trans ht))
        · exact hw.apart a b ix ha' hb' hna
    · intro a d ha
      obtain ⟨id, ds, hks, hd, hsym⟩ := hw.digest a d ha
      refine ⟨id, ds, hks, hd, fun hc => ⟨(hsym hc).1, ?_⟩⟩
      have hne : a ≠ t := by
        rintro rfl
        rw [(hsym hc).2] at hix
        cases hix
      rw [update_of_ne hne]
      exact (hsym hc).2

/-- A node gets a payload, unless it is a symbol without a name. -/
lemma WalkOk.payload (t : ℕ) : match nodePayload T names w t with
    | none => (T.term t).kind = .constant ∧ names t = none
    | some (pay, w') => WalkOk hstr combine T names w' ∧ w'.memo = w.memo ∧
        ∃ id, pay = T.payload id t ∧
        ((T.term t).kind = .constant → names t = some id.1 ∧ w'.symIx t = some id.2) := by
  rw [nodePayload]
  by_cases hc : (T.term t).kind = .constant
  · rw [if_pos hc]
    cases hna : names t with
    | none => exact ⟨hc, rfl⟩
    | some sym =>
      obtain ⟨hok, hme, hix⟩ := hw.symbolIx hna
      exact ⟨hok, hme, (sym, _), rfl, fun _ => ⟨rfl, hix⟩⟩
  · rw [if_neg hc]
    exact ⟨hw, rfl, ("", 0), rfl, fun h => absurd h hc⟩

/-- A node takes its digest from its children. -/
lemma WalkOk.remember (hno : w.memo t = none) {id : String × ℕ} {ds : List D}
    (hks : Forall₂ (fun c e => w.memo c = some e) (T.kids t) ds)
    (hsym : (T.term t).kind = .constant → names t = some id.1 ∧ w.symIx t = some id.2) :
    WalkOk hstr combine T names (w.remember t (nodeDigest hstr combine (T.payload id t) ds)) := by
  have hold : ∀ c e, w.memo c = some e →
      (w.remember t (nodeDigest hstr combine (T.payload id t) ds)).memo c = some e := by
    intro c e hc
    have hne : c ≠ t := by
      rintro rfl
      rw [hno] at hc
      cases hc
    rwa [remember_of_ne _ hne]
  refine ⟨hw.numbered, hw.apart, ?_⟩
  intro a d ha
  rcases eq_or_ne a t with rfl | hne
  · rw [remember_self] at ha
    exact ⟨id, ds, hks.imp fun c e => hold c e, (Option.some.inj ha).symm, hsym⟩
  · rw [Walk.remember_of_ne _ hne] at ha
    obtain ⟨id', ds', hks', hd, hsy'⟩ := hw.digest a d ha
    exact ⟨id', ds', hks'.imp fun c e => hold c e, hd, hsy'⟩

end

variable (T) in
/-- What the stack can still take. -/
def stackCost (stack : List (Frame ℕ)) : ℕ :=
  (stack.map fun f => if f.exit then 1 else walkCost T f.id).sum

variable (T) in
/-- Something below a term is a symbol without a name. -/
def Unnamed (names : ℕ → Option String) (t : ℕ) : Prop :=
  ∃ a, ReflTransGen (fun a b => b ∈ T.kids a) t a ∧ (T.term a).kind = .constant ∧ names a = none

lemma Terms.Ok.kids_lt (hT : T.Ok) {t c : ℕ} (hc : c ∈ T.kids t) : c < t := by
  rw [kids] at hc
  split at hc
  · cases hc
  next hne =>
    refine hT.older t c ?_
    rwa [parts, if_neg hne]

lemma Terms.Ok.walkCost_eq (hT : T.Ok) (t : ℕ) :
    walkCost T t = 2 + ((T.kids t).map (walkCost T)).sum := by
  rw [walkCost, map_congr_left fun c hc => dif_pos (hT.kids_lt hc)]

lemma Terms.Ok.stackCost_entries (hT : T.Ok) (t : ℕ) (stack : List (Frame ℕ)) :
    stackCost T ((T.kids t).reverse.map (⟨·, false⟩) ++ ⟨t, true⟩ :: stack) + 1 = stackCost T
    (⟨t, false⟩ :: stack) := by
  have hsum : (((T.kids t).reverse.map (⟨·, false⟩)).map fun f : Frame ℕ => if f.exit = true then 1
      else walkCost T f.id).sum =
      ((T.kids t).map (walkCost T)).sum := by
    rw [List.map_map, map_reverse, sum_reverse]
    rfl
  rw [stackCost, map_append, sum_append, stackCost, map_cons, sum_cons, map_cons, sum_cons]
  rw [if_pos rfl, if_neg Bool.false_ne_true, hT.walkCost_eq t]
  omega

/-- The walk gives digests to all it was asked for, unless it meets a symbol without a name. -/
lemma WalkOk.run (hT : T.Ok) {fuel : ℕ} {stack : List (Frame ℕ)}
    (hw : WalkOk hstr combine T names w)
    (hcov : Covered (fun a b => b ∈ T.kids a) (fun t => (w.memo t).isSome = true) stack)
    (hfu : stackCost T stack < fuel) :
    match coneWalk hstr combine T names fuel stack w with
    | none => ∃ f ∈ stack, Unnamed T names f.id
    | some w' => WalkOk hstr combine T names w' ∧
        (∀ t, (w.memo t).isSome = true → (w'.memo t).isSome = true) ∧
        ∀ f ∈ stack, (w'.memo f.id).isSome = true := by
  induction fuel generalizing stack w with
  | zero => cases hfu
  | succ fuel ih =>
    cases stack with
    | nil => exact ⟨hw, fun t ht => ht, fun f hf => nomatch hf⟩
    | cons f stack =>
      obtain ⟨t, done⟩ := f
      rw [coneWalk]
      by_cases hme : (w.memo t).isSome = true
      · rw [if_pos hme]
        have hlt : stackCost T stack < fuel := by
          have hpos : 0 < if done then 1 else walkCost T t := by
            split
            · exact one_pos
            · rw [hT.walkCost_eq]
              omega
          simp only [stackCost, map_cons, sum_cons] at hfu ⊢
          omega
        have hr := ih hw (hcov.pop hme) hlt
        split at hr
        · obtain ⟨f, hf, hun⟩ := hr
          exact ⟨f, .tail _ hf, hun⟩
        · obtain ⟨hok, hgr, hall⟩ := hr
          refine ⟨hok, hgr, fun f hf => ?_⟩
          rcases mem_cons.1 hf with rfl | hf
          · exact hgr t hme
          · exact hall f hf
      · rw [if_neg hme]
        cases done with
        | false =>
          rw [if_pos (show (!false) = true from rfl)]
          have hco := hT.stackCost_entries t stack
          have hco' : Covered (fun a b => b ∈ T.kids a) (fun t => (w.memo t).isSome = true)
              ((T.kids t).reverse.map (⟨·, false⟩) ++ ⟨t, true⟩ :: stack) := by
            refine .entries _ ⟨fun _ b hb => .inr (mem_reverse.2 hb), hcov.2.mono fun b hb => ?_⟩
            exact hb.imp_left .inl
          have hr := ih hw hco' (by omega)
          split at hr
          · obtain ⟨f, hf, hun⟩ := hr
            rcases mem_append.1 hf with hf | hf
            · obtain ⟨c, hc, rfl⟩ := mem_map.1 hf
              obtain ⟨a, ha, hsym⟩ := hun
              exact ⟨_, .head _, a, .head (mem_reverse.1 hc) ha, hsym⟩
            · rcases mem_cons.1 hf with rfl | hf
              · exact ⟨_, .head _, hun⟩
              · exact ⟨f, .tail _ hf, hun⟩
          · obtain ⟨hok, hgr, hall⟩ := hr
            refine ⟨hok, hgr, fun f hf => ?_⟩
            rcases mem_cons.1 hf with rfl | hf
            · exact hall ⟨t, true⟩ (mem_append_right _ (.head _))
            · exact hall f (mem_append_right _ (.tail _ hf))
        | true =>
          have hpay := hw.payload t
          cases hca : nodePayload T names w t with
          | none =>
            rw [hca] at hpay
            exact ⟨_, .head _, t, .refl, hpay⟩
          | some p =>
            obtain ⟨pay, w'⟩ := p
            rw [hca] at hpay
            obtain ⟨hok', hsa, id, rfl, hsym⟩ := hpay
            obtain ⟨ds, hds⟩ := Option.isSome_iff_exists.1 (isSome_mapM_iff.2 (hcov.1 rfl))
            rw [← hsa] at hds
            dsimp only
            rw [hds]
            have hno : w'.memo t = none := by
              rw [hsa]
              exact Option.not_isSome_iff_eq_none.1 hme
            have hgr' : ∀ b, (w.memo b).isSome = true →
                ((w'.remember t (nodeDigest hstr combine (T.payload id t) ds)).memo b).isSome =
                true := by
              intro b hb
              rcases eq_or_ne b t with rfl | hne
              · rw [remember_self]
                rfl
              · rwa [remember_of_ne _ hne, hsa]
            have hse : ((w'.remember t (nodeDigest hstr combine (T.payload id t) ds)).memo
                t).isSome = true := by
              rw [remember_self]
              rfl
            have hlt : stackCost T stack < fuel := by
              simp only [stackCost, map_cons, sum_cons, if_pos] at hfu ⊢
              omega
            have hr := ih (hok'.remember hno (forall₂_of_mapM_eq_some hds) hsym)
                ((hcov.2.mono fun b hb =>
              hb.elim (hgr' b) fun heq => heq ▸ hse)) hlt
            dsimp only
            generalize coneWalk hstr combine T names fuel stack (w'.remember t _) = result at hr
            cases result with
            | none =>
              obtain ⟨f, hf, hun⟩ := hr
              exact ⟨f, .tail _ hf, hun⟩
            | some last =>
              obtain ⟨hok, hgr, hall⟩ := hr
              refine ⟨hok, fun b hb => hgr b (hgr' b hb), fun f hf => ?_⟩
              rcases mem_cons.1 hf with rfl | hf
              · exact hgr t hse
              · exact hall f hf

variable (hstr combine names) in
/-- A term without a digest has a symbol without a name, and only such a term is without one. -/
lemma coneDigest_spec (hT : T.Ok) (t : ℕ) : match coneDigest hstr combine T names t with
    | none => Unnamed T names t
    | some d => ∃ w, WalkOk hstr combine T names w ∧ w.memo t = some d := by
  have hco : stackCost T [⟨t, false⟩] < walkCost T t + 1 := by simp [stackCost]
  have hcov : Covered (fun a b => b ∈ T.kids a)
      (fun a => ((start : Walk D).memo a).isSome = true) [⟨t, false⟩] :=
    ⟨nofun, trivial⟩
  have hrun := (WalkOk.start hstr combine T names).run hT hcov hco
  rw [coneDigest]
  generalize coneWalk hstr combine T names (walkCost T t + 1) [⟨t, false⟩] start = result at hrun
  cases result with
  | none =>
    obtain ⟨f, hf, hun⟩ := hrun
    rwa [mem_singleton.1 hf] at hun
  | some w =>
    obtain ⟨hok, -, hall⟩ := hrun
    obtain ⟨d, hd⟩ := Option.isSome_iff_exists.1 (hall _ (mem_singleton_self _))
    rw [Option.bind_some, hd]
    exact ⟨w, hok, hd⟩

/-- All that a term with a digest is made of has one. -/
lemma WalkOk.isSome_of_reaches (hw : WalkOk hstr combine T names w) {a : ℕ}
    (ht : (w.memo t).isSome = true)
    (h : ReflTransGen (fun a b => b ∈ T.kids a) t a) : (w.memo a).isSome = true := by
  induction h with
  | refl => exact ht
  | tail _ hmem ih =>
    obtain ⟨d, hd⟩ := Option.isSome_iff_exists.1 ih
    obtain ⟨-, ds, hks, -⟩ := hw.digest _ d hd
    obtain ⟨e, -, he⟩ := hks.exists_of_mem_left hmem
    rw [he]
    rfl

lemma coneDigest_eq_none (hT : T.Ok) (h : Unnamed T names t) :
    coneDigest hstr combine T names t = none := by
  have hsp := coneDigest_spec hstr combine names hT t
  cases hd : coneDigest hstr combine T names t with
  | none => rfl
  | some d =>
    rw [hd] at hsp
    obtain ⟨w, hw, ht⟩ := hsp
    obtain ⟨a, hre, hc, hna⟩ := h
    obtain ⟨e, he⟩ := Option.isSome_iff_exists.1 (hw.isSome_of_reaches (by rw [ht]; rfl) hre)
    obtain ⟨id, -, -, -, hsym⟩ := hw.digest a e he
    rw [hna] at hsym
    cases (hsym hc).1

end

/-! ## Equal up to a renaming -/

namespace Terms

variable (T : Terms)

/-- `getConstArrayBase`: the bits of the element of a constant array. -/
def baseValue (t : ℕ) : ℕ := (T.term (T.term t).base).value

/-- The element of a constant array is a bit-vector constant: `mkConstArray` takes a value. -/
def ConstBases : Prop := ∀ t, (T.term t).kind = .constArray →
    (T.term (T.term t).base).kind = .constBitvector

/-- The symbols of a term. -/
def symbols (t : ℕ) : Set ℕ :=
  {a | ReflTransGen (fun a b => b ∈ T.kids a) t a ∧ (T.term a).kind = .constant}

/-- The elements of the constant arrays of a term, as they stand in it. -/
def arrayBases (t : ℕ) : List ℕ :=
  if (T.term t).kind = .constArray then [T.baseValue t]
  else (T.kids t).flatMap fun c => if _h : c < t then arrayBases c else []
termination_by t

/-- Some values of the symbols, each of its sort, make a term true. -/
def Satisfiable (t : ℕ) : Prop :=
  ∃ ρ : ℕ → Value, (∀ a ∈ T.symbols t, (ρ a).sort = T.sort a) ∧ T.denote ρ t = .bool true

end Terms

section

variable (T : Terms) (names : ℕ → Option String) (T' : Terms) (names' : ℕ → Option String)

/-- Terms that are built alike over symbols renamed by `f`. -/
structure BuiltAlike (f : ℕ → ℕ) (R : ℕ → ℕ → Prop) : Prop where
  node : ∀ a b, R a b → SameNode (T.term a) (T'.term b)
  symbol : ∀ a b, R a b → (T.term a).kind = .constant → f a = b
  base : ∀ a b, R a b → (T.term a).kind = .constArray → T.baseValue a = T'.baseValue b
  kids : ∀ a b, R a b → Forall₂ R (T.kids a) (T'.kids b)

/-- The terms are equal up to a bijective renaming of symbols to symbols of the same name and
sort. -/
structure EqualUpTo (f : ℕ → ℕ) (s t : ℕ) : Prop where
  bij : Set.BijOn f (T.symbols s) (T'.symbols t)
  name : ∀ a ∈ T.symbols s, names' (f a) = names a
  sort : ∀ a ∈ T.symbols s, T'.sort (f a) = T.sort a
  same : ∃ R : ℕ → ℕ → Prop, R s t ∧ BuiltAlike T T' f R

end

/-! ## What a renaming keeps -/

lemma Terms.Ok.arrayBases_of_ne {T : Terms} (hT : T.Ok) {t : ℕ}
    (h : (T.term t).kind ≠ .constArray) :
    T.arrayBases t = (T.kids t).flatMap T.arrayBases := by
  rw [arrayBases, if_neg h]
  exact flatMap_congr fun c hc => dif_pos (hT.kids_lt hc)

lemma Terms.arrayBases_of_eq {T : Terms} {t : ℕ} (h : (T.term t).kind = .constArray) :
    T.arrayBases t = [T.baseValue t] := by
  rw [arrayBases, if_pos h]

/-- The indices that an operator has decide its meaning. -/
lemma Fn.denote_indices {f : Fn} {p p' : ℕ × ℕ}
    (h : [p.1, p.2].take f.numIndices = [p'.1, p'.2].take f.numIndices)
    (vs : List Value) : f.denote p.1 p.2 vs = f.denote p'.1 p'.2 vs := by
  obtain ⟨p0, p1⟩ := p
  obtain ⟨q0, q1⟩ := p'
  cases f
  case extract =>
    obtain ⟨rfl, rfl⟩ : p0 = q0 ∧ p1 = q1 := by simpa [numIndices] using h
    rfl
  case zext | sext | repeated | rotl | rotr =>
    obtain rfl : p0 = q0 := by simpa [numIndices] using h
    rfl
  all_goals rfl

namespace Terms

variable {T : Terms} {ρ : ℕ → Value} {t : ℕ}

lemma denote_of_constant (h : (T.term t).kind = .constant) : T.denote ρ t = ρ t := by rw [denote, h]

lemma denote_of_constBoolean (h : (T.term t).kind = .constBoolean) :
    T.denote ρ t = .bool (T.term t).boolean := by
  rw [denote, h]

lemma Ok.denote_of_constBitvector (hT : T.Ok) (h : (T.term t).kind = .constBitvector) :
    T.denote ρ t = .bv (T.sort t).width (BitVec.ofNat _ (T.term t).value) := by
  have hsrt := hT.sorted t
  rw [WellSorted, h] at hsrt
  obtain ⟨w, hw, -⟩ := hsrt
  rw [denote, h, hw]
  rfl

lemma denote_of_other {c : ℕ} (h : (T.term t).kind = .other c) : T.denote ρ t = default := by
    rw [denote, h]

end Terms

namespace BuiltAlike

variable {T T' : Terms} {f : ℕ → ℕ} {R : ℕ → ℕ → Prop} {s t : ℕ}

/-- Where one term has a part, the other has a part built alike. -/
lemma exists_of_reaches (h : BuiltAlike T T' f R) (hst : R s t) {a : ℕ}
    (ha : ReflTransGen (fun a b => b ∈ T.kids a) s a) :
    ∃ b, ReflTransGen (fun a b => b ∈ T'.kids a) t b ∧ R a b := by
  induction ha with
  | refl => exact ⟨t, .refl, hst⟩
  | tail _ hmem ih =>
    obtain ⟨b, hb, hR⟩ := ih
    obtain ⟨c, hc, hRc⟩ := (h.kids _ _ hR).exists_of_mem_left hmem
    exact ⟨c, hb.tail hc, hRc⟩

lemma arrayBases_eq (hT : T.Ok) (hT' : T'.Ok) (h : BuiltAlike T T' f R) (hst : R s t) :
    T.arrayBases s = T'.arrayBases t := by
  induction s using Nat.strong_induction_on generalizing t with
  | _ s ih =>
    have hk := (h.node s t hst).kind
    by_cases har : (T.term s).kind = .constArray
    · rw [arrayBases_of_eq har, arrayBases_of_eq (hk ▸ har), h.base s t hst har]
    · rw [hT.arrayBases_of_ne har, hT'.arrayBases_of_ne (hk ▸ har)]
      refine congrArg flatten ((h.kids s t hst).map_eq_map fun a ha b hR => ?_)
      exact ih a (hT.kids_lt ha) hR

/-- Terms that are built alike have the same value where their symbols do. -/
lemma denote_eq (hT : T.Ok) (hba : T.ConstBases) (hT' : T'.Ok) (hba' : T'.ConstBases)
    (h : BuiltAlike T T' f R)
    {ρ ρ' : ℕ → Value} (hρ : ∀ a ∈ T.symbols s, ρ' (f a) = ρ a) (hst : R s t) :
    T.denote ρ s = T'.denote ρ' t := by
  have hall : ∀ a b, ReflTransGen (fun a b => b ∈ T.kids a) s a → R a b →
      T.denote ρ a = T'.denote ρ' b := by
    intro a
    induction a using Nat.strong_induction_on with
    | _ a ih =>
      intro b hre hR
      have hn := h.node a b hR
      cases hk : (T.term a).kind with
      | constant =>
        rw [denote_of_constant hk, denote_of_constant (hn.kind ▸ hk), ← h.symbol a b hR hk,
          hρ a ⟨hre, hk⟩]
      | constBoolean =>
        rw [denote_of_constBoolean hk, denote_of_constBoolean (hn.kind ▸ hk), hn.boolean hk]
      | constBitvector =>
        rw [hT.denote_of_constBitvector hk, hT'.denote_of_constBitvector (hn.kind ▸ hk),
          hn.value hk, Terms.sort, Terms.sort, hn.sort]
      | constArray =>
        have hk' := hn.kind ▸ hk
        have hsrt := hT.sorted a
        rw [Terms.WellSorted, hk] at hsrt
        obtain ⟨i, e, hs, hso⟩ := hsrt
        have hsr' := hT'.sorted b
        rw [Terms.WellSorted, hk'] at hsr'
        obtain ⟨i', e', hs', hso'⟩ := hsr'
        have hbo : T.sort a = T'.sort b := hn.sort
        rw [hs, hs'] at hbo
        cases hbo
        have hv := h.base a b hR hk
        rw [baseValue, baseValue] at hv
        rw [hT.denote_constArray ρ hk hs, hT'.denote_constArray ρ' hk' hs',
          hT.denote_of_constBitvector (hba a hk),
          hT'.denote_of_constBitvector (hba' b hk'), hv, hso, hso']
      | fn g =>
        have hks := h.kids a b hR
        have hne : (T.term a).kind ≠ .constArray := by rw [hk]; exact Kind.noConfusion
        rw [Terms.kids, Terms.kids, if_neg hne, if_neg (hn.kind ▸ hne)] at hks
        have ha : (T.term a).children.map (T.denote ρ) =
            (T'.term b).children.map (T'.denote ρ') := by
          refine hks.map_eq_map fun c hc d hcd => ?_
          have hmem : c ∈ T.kids a := by rwa [Terms.kids, if_neg hne]
          exact ih c (hT.kids_lt hmem) d (hre.tail hmem) hcd
        have hin := hn.indices
        rw [opIndices_of_fn hk, opIndices_of_fn (hn.kind ▸ hk)] at hin
        rw [hT.denote_fn ρ hk, hT'.denote_fn ρ' (hn.kind ▸ hk), ha, Fn.denote_indices hin]
      | other c => rw [Terms.denote_of_other hk, Terms.denote_of_other (hn.kind ▸ hk)]
  exact hall s t .refl hst

end BuiltAlike

/-- A renaming carries a satisfying assignment over. -/
lemma EqualUpTo.satisfiable_iff {T T' : Terms} {names names' : ℕ → Option String}
    {f : ℕ → ℕ} {s t : ℕ} (hT : T.Ok)
    (hba : T.ConstBases) (hT' : T'.Ok) (hba' : T'.ConstBases)
    (h : EqualUpTo T names T' names' f s t) :
    T.Satisfiable s ↔ T'.Satisfiable t := by
  obtain ⟨R, hst, hR⟩ := h.same
  constructor
  · rintro ⟨ρ, hs, ht⟩
    obtain ⟨inv, hl, hr⟩ : ∃ inv : ℕ → ℕ, Set.LeftInvOn inv f (T.symbols s) ∧
        Set.MapsTo inv (T'.symbols t) (T.symbols s) :=
      ⟨invFunOn f (T.symbols s), h.bij.injOn.leftInvOn_invFunOn, h.bij.surjOn.mapsTo_invFunOn⟩
    have hsa := hR.denote_eq hT hba hT' hba' (ρ := ρ)
      (fun a ha => show (ρ ∘ inv) (f a) = ρ a from congrArg ρ (hl ha)) hst
    refine ⟨ρ ∘ inv, fun b hb => ?_, hsa ▸ ht⟩
    obtain ⟨a, ha, rfl⟩ := h.bij.surjOn hb
    rw [comp_apply, hl ha, hs a ha, h.sort a ha]
  · rintro ⟨ρ, hs, ht⟩
    have hsa := hR.denote_eq hT hba hT' hba' (ρ := ρ ∘ f)
      (fun a _ => show ρ (f a) = (ρ ∘ f) a from rfl) hst
    refine ⟨ρ ∘ f, fun a ha => ?_, hsa.trans ht⟩
    rw [comp_apply, hs _ (h.bij.mapsTo ha), h.sort a ha]

end LiveHD.Lec
