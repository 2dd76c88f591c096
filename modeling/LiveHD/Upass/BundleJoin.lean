import LiveHD.Upass.BundleEntries
import LiveHD.Upass.BundleLanding

/-!
# Concatenation of contents

What `concat` is for, said of the contents of bundles, and that it does that to every bundle whose
positional fields stand in their order.
-/

namespace LiveHD.Upass

open Bool hiding or_false
open Option hiding map mem_map
open List Node

variable {V : Type*}

namespace Contents

def below (k : Contents V) (s : Seg) : Contents V := fun q => k (s :: q)

def absent : Contents V := fun _ => none

/-- The slot after those that are taken. -/
def IsNext (k : Contents V) (n : ℕ) : Prop := ∀ m, n ≤ m ↔ ∀ p, k [.unnamed p] ≠ none → p < m

end Contents

namespace Tree

open Contents

variable {t u : Tree V} {g : Field V (Tree V)}

/-- The positional fields of a bundle and of those in it stand in the order of their positions. -/
inductive InOrder : Tree V → Prop
  | mk {n : Node V (Tree V)} (horder : ((numbered n.fields).map Prod.fst).Pairwise (· < ·))
      (hsub : ∀ f ∈ n.fields, ∀ u, f.sub = some u → InOrder u) : InOrder (.mk n)

/-- What is below the segment of a field. -/
def fieldContents (f : Option (Field V (Tree V))) : Contents V := f.elim absent fun f => f.look look

lemma below_look (t : Tree V) (s : Seg) :
    t.look.below s = fieldContents (t.node.spillScalar.field s) := by
  funext q
  rw [below, look_cons]
  cases t.node.spillScalar.field s <;> rfl

lemma look_ne_none_iff (t : Tree V) (s : Seg) : t.look [s] ≠ none ↔
    ∃ f, t.node.spillScalar.field s = some f := by
  constructor
  · intro h
    cases hf : t.node.spillScalar.field s with
    | none =>
      rw [look_cons, hf] at h
      exact absurd rfl h
    | some f => exact ⟨f, rfl⟩
  · rintro ⟨f, hf⟩ hno
    have hsm := look_singleton hf
    rw [hno] at hsm
    cases hsm

/-- The slots of a bundle before its next one. -/
lemma isNext (h : t.WF) : t.look.IsNext (nextUnnamed t.node.spillScalar.fields) := by
  intro m
  rw [nextUnnamed_le_iff]
  constructor
  · intro hall p hp
    obtain ⟨f, hf⟩ := (look_ne_none_iff t _).1 hp
    obtain ⟨hmem, hseg⟩ := (field_eq_some_iff h.distinct_spill).1 hf
    exact hall f hmem p hseg
  · intro hall f hf p hseg
    exact hall p ((look_ne_none_iff t _).2 ⟨f, (field_eq_some_iff h.distinct_spill).2 ⟨hf, hseg⟩⟩)

lemma InOrder.spill (h : t.InOrder) (hwf : t.WF) :
    ((numbered t.node.spillScalar.fields).map Prod.fst).Pairwise (· < ·) := by
  cases hs : t.node.scalar with
  | none =>
    rw [spillScalar_of_scalar hs]
    cases h with
    | mk hor => exact hor
  | some e =>
    have hf : t.node.spillScalar.fields = t.node.fields ++ [⟨.zero, e, none⟩] := by
      rw [spillScalar, hs]
      rfl
    rw [hf, hwf.scalar (by rw [hs]; rfl)]
    exact pairwise_singleton _ _

lemma InOrder.sub (h : t.InOrder) (hg : g ∈ t.node.spillScalar.fields)
    (hu : g.sub = some u) : u.InOrder := by
  have hmem := WF.mem_of_spill hg hu
  cases h with
  | mk _ hsub => exact hsub g hmem u hu

/-- The loop starts with the next slot of the bundle. -/
def start (t : Tree V) : Landing V :=
  { node := t.node.spillScalar, nextUnnamed := nextUnnamed t.node.spillScalar.fields }

lemma start_ready (h : t.WF) : t.start.Ready :=
  ⟨h.distinct_spill, fun _ hk => field_nextUnnamed _ hk⟩

end Tree

/-! ## Contents after each other -/

variable [DlopCompare V]

open DlopCompare (isNil isKnownEq)
open Dlop (isInvalid)

namespace Contents

/-- Nothing, or a nil leaf, is dropped. -/
def Drops (r : Contents V) : Prop := r [] = none ∨
    ∃ e, r [] = some (.leaf e) ∧ isNil e.trivial = true

/-- Nothing, or a nil leaf, gives way; so does a leaf that is known to be equal. -/
def GivesWay (l r : Contents V) : Prop :=
  l [] = none ∨ (∃ e, l [] = some (.leaf e) ∧ isNil e.trivial = true) ∨
    ∃ e e', l [] = some (.leaf e) ∧ r [] = some (.leaf e') ∧ isInvalid e.trivial = false ∧
    isInvalid e'.trivial = false ∧
      isKnownEq e.trivial e'.trivial = true

mutual

/-- `z` is `l` with `r` after it: names are merged, and positions follow each other. -/
inductive Joined : Contents V → Contents V → Contents V → Prop
  | mk {l r z : Contents V} (n : ℕ) (ps : List ℕ) (hnext : l.IsNext n)
    (hsorted : ps.Pairwise (· < ·))
      (hps : ∀ p, p ∈ ps ↔ r [.unnamed p] ≠ none) (hnil : z [] = some .tuple)
      (hnamed : ∀ x, Merged (l.below (.named x)) (r.below (.named x)) (z.below (.named x)))
      (hunnamed : ∀ k, z.below (.unnamed k) = if k < n then l.below (.unnamed k)
        else (ps[k - n]?).elim absent fun p => r.below (.unnamed p)) : Joined l r z

/-- What a name holds when both sides have it. -/
inductive Merged : Contents V → Contents V → Contents V → Prop
  | dropped {l r : Contents V} (hr : r.Drops) : Merged l r l
  | wins {l r : Contents V} (hr : ¬r.Drops) (hl : l.GivesWay r) : Merged l r r
  | tuples {l r z : Contents V} (hl : l [] = some .tuple) (hr : r [] = some .tuple)
    (hz : Joined l r z) : Merged l r z

end

lemma not_drops_of_tuple {r : Contents V} (hr : r [] = some .tuple) : ¬r.Drops := by
  rintro (h | ⟨e, h, -⟩) <;> rw [hr] at h <;> cases h

lemma not_givesWay_of_tuple {l r : Contents V} (hl : l [] = some .tuple) : ¬l.GivesWay r := by
  rintro (h | ⟨e, h, -⟩ | ⟨e, e', h, -⟩) <;> rw [hl] at h <;> cases h

mutual

/-- There is one result. -/
lemma Joined.unique {l r z z' : Contents V} : Joined l r z → Joined l r z' → z = z'
  | .mk n ps hne hsrt hps hnil hna hun, .mk n' ps' hn' hsr' hps' hni' hna' hun' => by
    have hn := le_antisymm ((hne n').2 ((hn' n').1 le_rfl)) ((hn' n).2 ((hne n).1 le_rfl))
    have hp := hsrt.eq_of_mem_iff hsr' fun p => (hps p).trans (hps' p).symm
    subst hn hp
    funext q
    cases q with
    | nil => rw [hnil, hni']
    | cons s q =>
      cases s with
      | named x => exact congrFun (Merged.unique (hna x) (hna' x)) q
      | unnamed k => exact congrFun ((hun k).trans (hun' k).symm) q

lemma Merged.unique {l r z z' : Contents V} : Merged l r z → Merged l r z' → z = z'
  | .dropped _, .dropped _ => rfl
  | .dropped hr, .wins hr' _ => absurd hr hr'
  | .dropped hr, .tuples _ hr' _ => absurd hr (not_drops_of_tuple hr')
  | .wins hr _, .dropped hr' => absurd hr' hr
  | .wins _ _, .wins _ _ => rfl
  | .wins _ hl, .tuples hl' _ _ => absurd hl (not_givesWay_of_tuple hl')
  | .tuples _ hr _, .dropped hr' => absurd hr' (not_drops_of_tuple hr)
  | .tuples hl _ _, .wins _ hl' => absurd hl' (not_givesWay_of_tuple hl)
  | .tuples _ _ hz, .tuples _ _ hz' => Joined.unique hz hz'

end

end Contents

namespace Tree

open Contents

variable {t u r : Tree V} {g : Field V (Tree V)}

/-! ## One name -/

/-- What the rule for a name makes of the fields. -/
lemma combine_merged {old o : Option (Field V (Tree V))} (h : combine old g = .ok o)
    (hsub : ∀ v w r, (∃ f ∈ old, f.sub = some v) → g.sub = some w → concat v w = .ok r →
      Joined v.look w.look r.look) :
    Merged (fieldContents old) (fieldContents (some g)) (fieldContents (o.or old)) := by
  obtain ⟨seg, leaf, sub⟩ := g
  cases sub with
  | none =>
    change combineLeaf old seg leaf = .ok o at h
    unfold combineLeaf at h
    split at h
    next hnil =>
      cases h
      exact .dropped (.inr ⟨leaf, rfl, hnil⟩)
    next hnil =>
      have hke : ¬(fieldContents (some (⟨seg, leaf, none⟩ : Field V (Tree V)))).Drops := by
        rintro (hno | ⟨e, he, hni'⟩)
        · cases hno
        · cases he
          exact hnil hni'
      split at h
      · cases h
        exact .wins hke (.inl rfl)
      next f =>
        obtain ⟨fseg, fleaf, fsub⟩ := f
        split at h
        · cases h
        next hp =>
          obtain rfl := not_isSome_iff_eq_none.1 hp
          split at h
          next hco =>
            cases h
            refine .wins hke (.inr ?_)
            rcases or_eq_true_iff.1 hco with hni' | heq
            · exact .inl ⟨fleaf, rfl, hni'⟩
            · rw [and_eq_true, and_eq_true, not_eq_true', not_eq_true'] at heq
              exact .inr ⟨fleaf, leaf, rfl, rfl, heq.1.1, heq.1.2, heq.2⟩
          · cases h
  | some w =>
    change combineSub (fun v => concat v w) old seg leaf w = .ok o at h
    have htu : fieldContents (some (⟨seg, leaf, some w⟩ : Field V (Tree V))) [] =
      some .tuple := look_nil w
    unfold combineSub at h
    split at h
    · cases h
      exact .wins (not_drops_of_tuple htu) (.inl rfl)
    next fseg fleaf =>
      split at h
      next hnil =>
        cases h
        exact .wins (not_drops_of_tuple htu) (.inr (.inl ⟨fleaf, rfl, hnil⟩))
      · cases h
    next fseg fleaf v =>
      split at h
      next r hr =>
        cases h
        exact .tuples (look_nil v) htu (hsub v w r ⟨_, rfl, rfl⟩ rfl hr)
      · cases h

/-- A sub-bundle that the rule for a name leaves is that of the other bundle, or two
concatenated. -/
lemma combine_sub {old : Option (Field V (Tree V))} {f : Field V (Tree V)}
    (h : combine old g = .ok (some f)) {v : Tree V}
    (hv : f.sub = some v) : g.sub = some v ∨ ∃ f₀ ∈ old, ∃ w w', f₀.sub = some w ∧ g.sub = some w' ∧
    concat w w' = .ok v := by
  obtain ⟨seg, leaf, sub⟩ := g
  cases sub with
  | none =>
    change combineLeaf old seg leaf = .ok (some f) at h
    have hp : f.sub = none := by
      unfold combineLeaf at h
      split at h
      · cases h
      · split at h
        · cases h
          rfl
        · split at h
          · cases h
          · split at h
            · cases h
              rfl
            · cases h
    rw [hp] at hv
    cases hv
  | some w' =>
    change combineSub (fun v => concat v w') old seg leaf w' = .ok (some f) at h
    unfold combineSub at h
    split at h
    · cases h
      exact .inl hv
    · split at h
      · cases h
        exact .inl hv
      · cases h
    next fseg fleaf w =>
      split at h
      next r hr =>
        cases h
        cases hv
        exact .inr ⟨_, rfl, w, w', rfl, rfl, hr⟩
      · cases h

/-- The rule for a name has a result where the contents have one. -/
lemma combine_ok {old : Option (Field V (Tree V))} {z : Contents V}
    (h : Merged (fieldContents old) (fieldContents (some g)) z)
    (hsub : ∀ v w, (∃ f ∈ old, f.sub = some v) → g.sub = some w → (∃ z, Joined v.look w.look z) →
      ∃ r, concat v w = .ok r) :
    ∃ o, combine old g = .ok o := by
  obtain ⟨seg, leaf, sub⟩ := g
  cases sub with
  | none =>
    change ∃ o, combineLeaf old seg leaf = .ok o
    unfold combineLeaf
    split
    · exact ⟨_, rfl⟩
    next hnil =>
      split
      · exact ⟨_, rfl⟩
      next f =>
        obtain ⟨fseg, fleaf, fsub⟩ := f
        have hway : (fieldContents (some (⟨fseg, fleaf, fsub⟩ : Field V (Tree V)))).GivesWay
            (fieldContents (some (⟨seg, leaf, none⟩ : Field V (Tree V)))) := by
          cases h with
          | dropped hr =>
            rcases hr with hno | ⟨e, he, hni'⟩
            · cases hno
            · cases he
              exact absurd hni' hnil
          | wins _ hl => exact hl
          | tuples _ hr => cases hr
        cases fsub with
        | some v => exact absurd hway (not_givesWay_of_tuple (look_nil v))
        | none =>
          rw [if_neg (show ¬(⟨fseg, fleaf, none⟩ : Field V (Tree V)).sub.isSome =
            true from false_ne_true), if_pos]
          · exact ⟨_, rfl⟩
          · rw [or_eq_true]
            rcases hway with hno | ⟨e, he, hni'⟩ | ⟨e, e', he, he', hinv, hin', heq⟩
            · cases hno
            · cases he
              exact .inl hni'
            · cases he
              cases he'
              right
              rw [hinv, hin', heq]
              rfl
  | some w =>
    change ∃ o, combineSub (fun v => concat v w) old seg leaf w = .ok o
    have htu : fieldContents (some (⟨seg, leaf, some w⟩ : Field V (Tree V))) [] =
      some .tuple := look_nil w
    unfold combineSub
    split
    · exact ⟨_, rfl⟩
    next fseg fleaf =>
      rw [if_pos]
      · exact ⟨_, rfl⟩
      · cases h with
        | dropped hr => exact absurd hr (not_drops_of_tuple htu)
        | wins _ hl =>
          rcases hl with hno | ⟨e, he, hnil⟩ | ⟨e, e', he, he', -⟩
          · cases hno
          · cases he
            exact hnil
          · cases he'
        | tuples hl => cases hl
    next fseg fleaf v =>
      have hjo : ∃ z, Joined v.look w.look z := by
        cases h with
        | dropped hr => exact absurd hr (not_drops_of_tuple htu)
        | wins _ hl => exact absurd hl (not_givesWay_of_tuple (look_nil v))
        | tuples _ _ hz => exact ⟨_, hz⟩
      obtain ⟨r, hr⟩ := hsub v w ⟨_, rfl, rfl⟩ rfl hjo
      beta_reduce
      rw [hr]
      exact ⟨_, rfl⟩

/-! ## All fields -/

/-- A bare scalar reads as one unnamed leaf. -/
lemma concat_eq (t : Tree V) (hu : u.WF) :
    t.concat u = (concatFields t.start u.node.spillScalar.fields).map fun l =>
    mk (l.mergeAttrs u.node.attrs) := by
  obtain ⟨info, fields⟩ := u
  rw [concat]
  cases hs : info.scalar with
  | none =>
    rw [spillScalar_of_scalar (n := (Tree.mk ⟨info, fields⟩).node) hs]
    rfl
  | some e =>
    have hem : fields = [] := hu.scalar (show info.scalar.isSome by rw [hs]; rfl)
    have hf : (Tree.mk ⟨info, fields⟩).node.spillScalar.fields = [⟨.zero, e, none⟩] := by
      rw [node, spillScalar, hs, hem]
      rfl
    rw [hf]
    rfl

/-- A successful concatenation went through the loop. -/
lemma exists_landed (ht : t.WF) (hu : u.WF) (h : t.concat u = .ok r) :
    ∃ l, concatFields t.start u.node.spillScalar.fields = .ok l ∧
    Landed t.start l u.node.spillScalar.fields ∧ r = mk (l.mergeAttrs u.node.attrs) := by
  rw [concat_eq t hu] at h
  cases hl : concatFields t.start u.node.spillScalar.fields with
  | error c =>
    rw [hl] at h
    cases h
  | ok l =>
    rw [hl] at h
    exact ⟨l, rfl, concatFields_landed (start_ready ht) hu.distinct_spill hl,
      (Except.ok.inj h).symm⟩

variable {l : Landing V}

/-- The fields of the result are those that landed. -/
lemma field_result (ht : Landed t.start l u.node.spillScalar.fields)
    (attrs : List (List Seg × Entry V)) (s : Seg) :
    (Tree.mk (l.mergeAttrs attrs)).node.spillScalar.field s = l.node.field s := by
  have hp : (l.mergeAttrs attrs).scalar = none := ht.scalar.trans (scalar_spillScalar _)
  rw [node, spillScalar_of_scalar hp]
  exact field_congr rfl s

/-- A field of the result is an old one, one of the other bundle, or what the rule made of two. -/
lemma landed_sub (hu : u.WF) (hl : Landed t.start l u.node.spillScalar.fields)
    {f : Field V (Tree V)} (hf : f ∈ l.node.fields) {v : Tree V}
    (hv : f.sub = some v) : (∃ g ∈ t.node.spillScalar.fields, g.sub = some v) ∨
    (∃ g ∈ u.node.spillScalar.fields, g.sub = some v) ∨
      ∃ g ∈ t.node.spillScalar.fields, ∃ g' ∈ u.node.spillScalar.fields, ∃ w w', g.sub = some w ∧
      g'.sub = some w' ∧
        concat w w' = .ok v := by
  have hfi := (field_eq_some_iff hl.distinct).2 ⟨hf, rfl⟩
  have hold : ∀ s, t.node.spillScalar.field s = some f →
      ∃ g ∈ t.node.spillScalar.fields, g.sub = some v := by
    intro s hs
    obtain ⟨i, -, hget⟩ := bind_eq_some_iff.1 hs
    exact ⟨f, mem_of_getElem? hget, hv⟩
  cases hseg : f.seg with
  | unnamed k =>
    rw [hseg, hl.unnamed] at hfi
    split at hfi
    · exact .inl (hold _ hfi)
    · obtain ⟨⟨p, g⟩, hpg, rfl⟩ := map_eq_some_iff.1 hfi
      exact .inr (.inl ⟨g, (mem_numbered.1 (mem_of_getElem? hpg)).1, hv⟩)
  | named x =>
    rw [hseg] at hfi
    cases hg : u.node.spillScalar.field (.named x) with
    | none =>
      rw [hl.other x (field_eq_none_iff.1 hg)] at hfi
      exact .inl (hold _ hfi)
    | some g =>
      obtain ⟨hmem, hgs⟩ := (field_eq_some_iff hu.distinct_spill).1 hg
      obtain ⟨o, ho, hor⟩ := hl.named g hmem x hgs
      rw [hor] at hfi
      cases o with
      | none => exact .inl (hold _ hfi)
      | some f' =>
        cases hfi
        rcases combine_sub ho hv with hsub | ⟨f₀, hf₀, w, w', hw, hw', hr⟩
        · exact .inr (.inl ⟨g, hmem, hsub⟩)
        · obtain ⟨i, -, hget⟩ := bind_eq_some_iff.1 hf₀
          exact .inr (.inr ⟨f₀, mem_of_getElem? hget, g, hmem, w, w', hw, hw', hr⟩)

/-- The result is well formed. -/
lemma concat_wf (ht : t.WF) (hu : u.WF) (h : t.concat u = .ok r) : r.WF ∧ r.node.scalar = none := by
  induction hu generalizing t r with
  | @mk n hs hd hsub hp ih =>
    have hwf : (Tree.mk n).WF := .mk hs hd hsub hp
    obtain ⟨l, -, hl, rfl⟩ := exists_landed ht hwf h
    have hp' := hl.scalar.trans (scalar_spillScalar _)
    refine ⟨.of_plain hp' hl.distinct fun f hf v hv => ?_, hp'⟩
    rcases landed_sub hwf hl hf hv with ⟨g, hg, hsu'⟩ | ⟨g, hg, hsu'⟩ | ⟨g, hg, g',
      hg', w, w', hw, hw', hr⟩
    · exact ht.sub_spill hg hsu'
    · exact hwf.sub_spill hg hsu'
    · exact ih g' (WF.mem_of_spill hg' hw') w' hw' (ht.sub_spill hg hw).1 hr

/-- A concatenation of bundles is one of their contents. -/
lemma concat_joined (ht : t.WF) (hu : u.WF) (ho : u.InOrder) (h : t.concat u = .ok r) :
    Joined t.look u.look r.look := by
  induction hu generalizing t r with
  | @mk n hs hd hsub hp ih =>
    have hwf : (Tree.mk n).WF := .mk hs hd hsub hp
    obtain ⟨l, -, hl, rfl⟩ := exists_landed ht hwf h
    have hdi := hwf.distinct_spill
    refine .mk (nextUnnamed t.node.spillScalar.fields) ((numbered n.spillScalar.fields).map
      Prod.fst) (isNext ht) (ho.spill hwf) ?_ (look_nil _) ?_ ?_
    · intro p
      rw [look_ne_none_iff, mem_map]
      constructor
      · rintro ⟨⟨q, f⟩, hmem, rfl⟩
        exact ⟨f, (field_eq_some_iff hdi).2 (mem_numbered.1 hmem)⟩
      · rintro ⟨f, hf⟩
        exact ⟨(p, f), mem_numbered.2 ((field_eq_some_iff hdi).1 hf), rfl⟩
    · intro x
      rw [below_look, below_look, below_look, field_result hl]
      cases hg : (Tree.mk n).node.spillScalar.field (.named x) with
      | none =>
        rw [hl.other x (field_eq_none_iff.1 hg)]
        exact .dropped (.inl rfl)
      | some g =>
        obtain ⟨hmem, hseg⟩ := (field_eq_some_iff hdi).1 hg
        obtain ⟨o, hco, hfi⟩ := hl.named g hmem x hseg
        rw [hfi]
        refine combine_merged hco fun v w r hv hw hr => ?_
        obtain ⟨f, hf, hfv⟩ := hv
        have hfm := ((field_eq_some_iff ht.distinct_spill).1 hf).1
        exact ih g (WF.mem_of_spill hmem hw) w hw (ht.sub_spill hfm hfv).1 (ho.sub hmem hw) hr
    · intro k
      rw [below_look, field_result hl, hl.unnamed]
      change fieldContents (if k < nextUnnamed t.node.spillScalar.fields then _ else _) = _
      split
      · rw [below_look]
        rfl
      · rw [getElem?_map]
        change fieldContents
          (((numbered n.spillScalar.fields)[k - nextUnnamed t.node.spillScalar.fields]?).map _) = _
        cases hpg : (numbered n.spillScalar.fields)[k - nextUnnamed t.node.spillScalar.fields]? with
        | none => rfl
        | some pg =>
          obtain ⟨p, g⟩ := pg
          have hg := (field_eq_some_iff hdi).2 (mem_numbered.1 (mem_of_getElem? hpg))
          change _ = (Tree.mk n).look.below (.unnamed p)
          rw [below_look, hg]
          rfl

/-- Bundles whose contents can follow each other are concatenated. -/
lemma concat_ok (ht : t.WF) (hu : u.WF) {z : Contents V} (h : Joined t.look u.look z) :
    ∃ r, t.concat u = .ok r := by
  induction hu generalizing t z with
  | @mk n hs hd hsub hp ih =>
    have hwf : (Tree.mk n).WF := .mk hs hd hsub hp
    have hdi := hwf.distinct_spill
    cases h with
    | mk m ps _ _ _ _ hna _ =>
      have hok : ∀ g ∈ (Tree.mk n).node.spillScalar.fields, ∀ x, g.seg = .named x →
          ∃ o, combine (t.start.node.field g.seg) g = .ok o := by
        intro g hg x hseg
        have hme := hna x
        rw [below_look, below_look, (field_eq_some_iff hdi).2 ⟨hg, hseg⟩, ← hseg] at hme
        refine combine_ok hme fun v w hv hw hz => ?_
        obtain ⟨f, hf, hfv⟩ := hv
        obtain ⟨z', hz'⟩ := hz
        have hfm := ((field_eq_some_iff ht.distinct_spill).1 hf).1
        exact ih g (WF.mem_of_spill hg hw) w hw (ht.sub_spill hfm hfv).1 hz'
      obtain ⟨l, hl⟩ := concatFields_isOk (start_ready ht) hdi hok
      exact ⟨_, (concat_eq t hwf).trans (congrArg (Except.map _) hl)⟩

/-! ## Bundles by their entries -/

omit [DlopCompare V] in
lemma owner_wf (h : t.WF) {path : List Seg} {n : Node V (Tree V)}
    (hn : t.owner path = some n) : (Tree.mk n).WF := by
  induction path generalizing t with
  | nil =>
    rw [owner] at hn
    · cases hn
      rwa [t.mk_node]
    · intro _ _ _ heq
      cases heq
  | cons s path ih =>
    cases path with
    | nil =>
      rw [owner] at hn
      · cases hn
        rwa [t.mk_node]
      · intro _ _ _ heq
        cases heq
    | cons s' path =>
      rw [owner] at hn
      split at hn
      · cases hn
      · split at hn
        · cases hn
        next u hu =>
          obtain ⟨f, hf, hfu⟩ := bind_eq_some_iff.1 hu
          exact ih (h.sub ((field_eq_some_iff h.distinct).1 hf).1 hfu) hn

lemma Built.wf (h : t.Built) : t.WF := by
  induction h with
  | empty => exact .of_info _
  | setEntry _ hp e ih => exact (setEntry_look ih hp e).2
  | setBundle _ _ hp iht ihu => exact (setBundle_look iht ihu hp).2
  | concat _ _ hr iht ihu => exact (concat_wf iht ihu hr).1

/-- Bundles with the same entries, and tuples at the same paths. -/
structure Equal (t u : Tree V) : Prop where
  entries : t.nonAttrEntries = u.nonAttrEntries
  tuples : ∀ p, t.look p = some .tuple ↔ u.look p = some .tuple

omit [DlopCompare V] in
lemma equal_iff (ht : t.WF) (hu : u.WF) : Equal t u ↔ t.look = u.look :=
  ⟨fun h => (look_eq_iff ht hu).2 ⟨h.entries, h.tuples⟩,
    fun h => ⟨((look_eq_iff ht hu).1 h).1, ((look_eq_iff ht hu).1 h).2⟩⟩

omit [DlopCompare V] in
lemma item_of_entry (h : t.WF) {p : List Seg} {e : Entry V} (hp : t.entry p = some e) :
    p ≠ [] ∧ t.look p = some (.leaf e) := by
  have hnil : p ≠ [] := by
    rintro rfl
    rw [entry] at hp
    split at hp
    · cases hp
    · cases hp
  rw [entry_eq h hnil] at hp
  obtain ⟨item, hite, hl⟩ := bind_eq_some_iff.1 hp
  cases item with
  | leaf e' =>
    cases hl
    exact ⟨hnil, hite⟩
  | tuple => cases hl

/-- What is written is read, what is neither above nor below it stays, and a leaf above it moves to
a slot `0`. -/
lemma setEntry_entry (h : t.WF) {p : List Seg} (hp : p ≠ []) (e : Entry V) :
    (t.setEntry p e).entry p = some e ∧
    (∀ q, q ≠ [] → ¬p <+: q → ¬q <+: p →
      (∀ p' e', p' <+: p → p' ≠ p → t.entry p' = some e' → ¬p' <+: q) →
      (t.setEntry p e).entry q = t.entry q) ∧
    ∀ p' e' rest q, p = p' ++ rest → t.entry p' = some e' → ¬rest <+: q → ¬q <+: rest →
      (t.setEntry p e).entry (p' ++ q) = if (∀ s ∈ q, s = .zero) ∧ q.dropLast <+: rest then some e'
      else none := by
  obtain ⟨hlo, hwf⟩ := setEntry_look h hp e
  refine ⟨?_, ?_, ?_⟩
  · have hpl := place_append t.look p [] (single e)
    rw [append_nil] at hpl
    rw [entry_eq hwf hp, hlo, hpl]
    rfl
  · intro q hq hb hab hl
    rw [entry_eq hwf hq, entry_eq h hq, hlo, place_frame (look_closed t) (single e) hb hab]
    intro p' e' hpre hne hite
    refine hl p' e' hpre hne ?_
    have hnil : p' ≠ [] := by
      rintro rfl
      cases hite
    rw [entry_eq h hnil, hite]
    rfl
  · rintro p' e' rest q rfl hp' hb hab
    obtain ⟨hnil, hite⟩ := item_of_entry h hp'
    have happ : p' ++ q ≠ [] := fun heq => hnil (append_eq_nil_iff.1 heq).1
    rw [entry_eq hwf happ, hlo, place_moved hnil hite (look_closed t),
      place_boxed e' (single e) hb hab]
    split <;> rfl

/-- A bundle is determined by its entries: what a write changes, what a concatenation makes, and
that equal bundles stay equal. -/
theorem entries_determine : (∀ t : Tree V, t.Built → ∀ path n, t.owner path = some n →
      (n.scalar.isSome → n.fields = []) ∧ ∀ s f, n.field s = some f ↔ f ∈ n.fields ∧ f.seg = s) ∧
    (∀ t : Tree V, t.Built → ∀ p e, p ≠ [] → (t.setEntry p e).entry p = some e ∧
      (∀ q, q ≠ [] → ¬p <+: q → ¬q <+: p →
        (∀ p' e', p' <+: p → p' ≠ p → t.entry p' = some e' → ¬p' <+: q) →
        (t.setEntry p e).entry q = t.entry q) ∧
      ∀ p' e' rest q, p = p' ++ rest → t.entry p' = some e' → ¬rest <+: q → ¬q <+: rest →
        (t.setEntry p e).entry (p' ++ q) =
          if (∀ s ∈ q, s = .zero) ∧ q.dropLast <+: rest then some e' else none) ∧
    (∀ t t' : Tree V, t.Built → t'.Built → Equal t t' → (∀ p, p ≠ [] → t.entry p = t'.entry p) ∧
      (∀ p e, p ≠ [] → Equal (t.setEntry p e) (t'.setEntry p e)) ∧
      ∀ u u' : Tree V, u.Built → u'.Built → Equal u u' →
      (∀ p, p ≠ [] → Equal (t.setBundle p u) (t'.setBundle p u')) ∧
        (u.InOrder → u'.InOrder → ∀ r, t.concat u = .ok r →
          ∃ r', t'.concat u' = .ok r' ∧ Equal r r')) ∧
    (∀ t u : Tree V, t.Built → u.Built → t.Full → u.Full →
      t.nonAttrEntries = u.nonAttrEntries → Equal t u) ∧
    ∀ t u : Tree V, t.Built → u.Built → u.InOrder →
    (∀ r, t.concat u = .ok r → Joined t.look u.look r.look) ∧
      ∀ z, Joined t.look u.look z → ∃ r, t.concat u = .ok r ∧ r.look = z := by
  have hjoin : ∀ t u : Tree V, t.WF → u.WF → u.InOrder → ∀ z, Joined t.look u.look z →
      ∃ r, t.concat u = .ok r ∧ r.look = z := by
    intro t u ht hu ho z hz
    obtain ⟨r, hr⟩ := concat_ok ht hu hz
    exact ⟨r, hr, (concat_joined ht hu ho hr).unique hz⟩
  refine ⟨fun t ht path n hn => ?_, fun t ht p e hp => setEntry_entry ht.wf hp e,
    fun t t' ht ht' heq => ⟨fun p hp => ?_, fun p e hp => ?_, ?_⟩,
    fun t u ht hu hft hfu h => ⟨h, hft.tuples ht.wf hu.wf hfu h⟩,
      fun t u ht hu ho => ⟨fun r hr => concat_joined ht.wf hu.wf ho hr, hjoin t u ht.wf hu.wf ho⟩⟩
  · have hwf := owner_wf ht.wf hn
    exact ⟨hwf.scalar, fun s f => field_eq_some_iff hwf.distinct⟩
  · rw [entry_eq ht.wf hp, entry_eq ht'.wf hp, (equal_iff ht.wf ht'.wf).1 heq]
  · have hset := setEntry_look ht.wf hp e
    have hset' := setEntry_look ht'.wf hp e
    rw [equal_iff hset.2 hset'.2, hset.1, hset'.1, (equal_iff ht.wf ht'.wf).1 heq]
  · intro u u' hu hu' hequ
    refine ⟨fun p hp => ?_, fun ho ho' r hr => ?_⟩
    · have hset := setBundle_look ht.wf hu.wf hp
      have hset' := setBundle_look ht'.wf hu'.wf hp
      rw [equal_iff hset.2 hset'.2, hset.1, hset'.1, (equal_iff ht.wf ht'.wf).1 heq,
        grafted_congr hu.wf hu'.wf ((equal_iff hu.wf hu'.wf).1 hequ)]
    · have hjoined := concat_joined ht.wf hu.wf ho hr
      rw [(equal_iff ht.wf ht'.wf).1 heq, (equal_iff hu.wf hu'.wf).1 hequ] at hjoined
      obtain ⟨r', hr', hlook⟩ := hjoin t' u' ht'.wf hu'.wf ho' _ hjoined
      exact ⟨r', hr',
        (equal_iff (concat_wf ht.wf hu.wf hr).1 (concat_wf ht'.wf hu'.wf hr').1).2 hlook.symm⟩

end Tree

/-! ## Values -/

/-- The compile-time values of the bundles below. -/
inductive Comptime
  | invalid
  | nil
  | int (n : ℤ)
deriving DecidableEq

instance : DlopCompare Comptime where
  invalid := .invalid
  isInvalid v := decide (v = .invalid)
  hasUnknowns _ := false
  isNil v := decide (v = .nil)
  isKnownEq v w := decide (v = w)

namespace Tree

/-- A leaf that a write passes is read at slot `0` of the tuple in its place, where nothing was
read. -/
theorem setEntry_promotes : ∃ (t : Tree Comptime) (p q : List Seg) (e : Entry Comptime), t.Built ∧
    ¬p <+: q ∧ ¬q <+: p ∧
    (t.setEntry p e).getEntry q ≠ t.getEntry q := by
  refine ⟨(mk {}).setEntry [.named ['x']] { trivial := .int 7 }, [.named ['x'], .named ['y']],
    [.named ['x'], .unnamed 0],
    { trivial := .int 1 }, .setEntry .empty (cons_ne_nil _ _) _, ?_, ?_, ?_⟩
  · decide
  · decide
  · decide

/-- Two positions after two, and a name that both sides have. -/
theorem entries_determine_append :
    let a := (((mk {} : Tree Comptime).setEntry [.unnamed 0] { trivial := .int 1 }).setEntry
      [.unnamed 1] { trivial := .int 2 }).setEntry
      [.named ['x']] { trivial := .nil }
    let b := (((mk {} : Tree Comptime).setEntry [.unnamed 0] { trivial := .int 3 }).setEntry
      [.unnamed 1] { trivial := .int 4 }).setEntry
      [.named ['x']] { trivial := .int 5 }
    ∃ r, a.concat b = .ok r ∧ Contents.Joined a.look b.look r.look := by
  intro a b
  have ha : a.Built := .setEntry
    (.setEntry (.setEntry .empty (cons_ne_nil _ _) _) (cons_ne_nil _ _) _) (cons_ne_nil _ _) _
  have hb : b.Built := .setEntry
    (.setEntry (.setEntry .empty (cons_ne_nil _ _) _) (cons_ne_nil _ _) _) (cons_ne_nil _ _) _
  have hfields : b.node.fields =
      [⟨.unnamed 0, { trivial := .int 3 }, none⟩, ⟨.unnamed 1, { trivial := .int 4 }, none⟩,
      ⟨.named ['x'], { trivial := .int 5 }, none⟩] := rfl
  have ho : b.InOrder := by
    rw [← b.mk_node]
    refine .mk ?_ ?_
    · decide
    · rw [hfields]
      intro f hf u hu
      simp only [mem_cons, not_mem_nil, or_false] at hf
      rcases hf with rfl | rfl | rfl <;> cases hu
  have hok : ∃ r, a.concat b = .ok r := ⟨_, rfl⟩
  obtain ⟨r, hr⟩ := hok
  exact ⟨r, hr, (entries_determine.2.2.2.2 a b ha hb ho).1 r hr⟩

end Tree

end LiveHD.Upass
