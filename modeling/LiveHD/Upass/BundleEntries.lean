import LiveHD.Upass.BundleContents

/-!
# The entries of a bundle

The sorted entries say what stands at the paths, and the order of insertion does not show in them.
-/

namespace LiveHD.Upass

open List LiveHD.Upass.Field Node

variable {V : Type*}

/-! ## The order of the segments -/

def Seg.le : Seg → Seg → Bool
  | .named x, .named y => decide (x ≤ y)
  | .named _, .unnamed _ => true
  | .unnamed _, .named _ => false
  | .unnamed p, .unnamed q => decide (p ≤ q)

lemma Node.fieldLe_eq {σ : Type*} (f g : Field V σ) : fieldLe f g = f.seg.le g.seg := by
  rw [fieldLe]
  cases f.seg <;> cases g.seg <;> rfl

lemma segLe_trans (a b c : Seg) (hab : a.le b = true) (hbc : b.le c = true) : a.le c = true := by
  cases a with
  | named x =>
    cases c with
    | unnamed => rfl
    | named z =>
      cases b with
      | unnamed => cases hbc
      | named y =>
        have hxy := of_decide_eq_true hab
        have hyz := of_decide_eq_true hbc
        exact decide_eq_true (hxy.trans hyz)
  | unnamed p =>
    cases b with
    | named => cases hab
    | unnamed q =>
      cases c with
      | named => cases hbc
      | unnamed r => exact decide_eq_true (le_trans (of_decide_eq_true hab) (of_decide_eq_true hbc))

lemma segLe_total (a b : Seg) : (a.le b || b.le a) = true := by
  rw [Bool.or_eq_true]
  cases a with
  | named x =>
    cases b with
    | named y => exact (Std.Total.total x y).imp (decide_eq_true ·) (decide_eq_true ·)
    | unnamed => exact .inl rfl
  | unnamed p =>
    cases b with
    | named => exact .inr rfl
    | unnamed q => exact (le_total p q).imp (decide_eq_true ·) (decide_eq_true ·)

lemma segLe_antisymm (a b : Seg) (hab : a.le b = true) (hba : b.le a = true) : a = b := by
  cases a with
  | named x =>
    cases b with
    | named y =>
      exact congrArg _ (Std.Antisymm.antisymm x y (of_decide_eq_true hab) (of_decide_eq_true hba))
    | unnamed => cases hba
  | unnamed p =>
    cases b with
    | named => cases hab
    | unnamed q => exact congrArg _ (le_antisymm (of_decide_eq_true hab) (of_decide_eq_true hba))

namespace Tree

variable {t u : Tree V} {key p : List Seg} {e : Entry V}

/-! ## The listing -/

/-- A field with the entries of its sub-bundle. -/
def piece (key : List Seg) (f : Field V (Tree V)) : Field V (List (List Seg × Entry V)) :=
  ⟨f.seg, f.leaf, f.sub.map fun u => u.flattenInto (key ++ [f.seg])⟩

/-- The entries of one field. -/
def pieceEntries (key : List Seg) (f : Field V (List (List Seg × Entry V))) :
    List (List Seg × Entry V) :=
  f.sub.getD [(key ++ [f.seg], f.leaf)]

lemma flattenFields_eq (fields : List (Field V (Tree V))) (key : List Seg) :
    flattenFields fields key = fields.map (piece key) := by
  induction fields with
  | nil => rw [flattenFields]; rfl
  | cons f fields ih =>
    obtain ⟨seg, leaf, sub⟩ := f
    cases sub with
    | none => rw [flattenFields, ih]; rfl
    | some u => rw [flattenFields, ih]; rfl

lemma flattenInto_plain (h : t.node.scalar = none) (key : List Seg) :
    t.flattenInto key = ((t.node.fields.map (piece key)).mergeSort fieldLe).flatMap
    (pieceEntries key) := by
  obtain ⟨info, fields⟩ := t
  rw [flattenInto]
  rw [show info.scalar = none from h, flattenFields_eq]
  rfl

/-- The entries at a segment. -/
def under (t : Tree V) (key : List Seg) (s : Seg) : List (List Seg × Entry V) :=
  ((t.node.field s).map fun f => pieceEntries key (piece key f)).getD []

/-- The segments of a bundle in order. -/
def segs (t : Tree V) : List Seg := (t.node.fields.map seg).mergeSort Seg.le

lemma mem_segs {s : Seg} : s ∈ t.segs ↔ ∃ f ∈ t.node.fields, f.seg = s := by
  rw [segs, mem_mergeSort, mem_map]

/-- The fields in the order of their segments. -/
lemma flattenInto_eq (h : t.WF) (hs : t.node.scalar = none) (key : List Seg) :
    t.flattenInto key = t.segs.flatMap (t.under key) := by
  rw [flattenInto_plain hs]
  have hpe : ((t.node.fields.map (piece key)).mergeSort fieldLe).Perm
    (t.node.fields.map (piece key)) := mergeSort_perm _ _
  have hse : ((t.node.fields.map (piece key)).mergeSort fieldLe).map seg = t.segs := by
    refine Perm.eq_of_pairwise (fun a b _ _ => segLe_antisymm a b) ?_ ?_ ?_
    · rw [pairwise_map]
      refine (pairwise_mergeSort ?_ ?_ _).imp fun hab => (fieldLe_eq _ _).symm.trans hab
      · intro a b c
        exact segLe_trans _ _ _
      · intro a b
        exact segLe_total _ _
    · exact pairwise_mergeSort segLe_trans segLe_total _
    · refine (hpe.map seg).trans ?_
      rw [map_map]
      exact (mergeSort_perm _ _).symm
  rw [← hse, flatMap_map]
  refine flatMap_congr fun x hx => ?_
  obtain ⟨f, hf, rfl⟩ := mem_map.1 (hpe.mem_iff.1 hx)
  change _ = ((t.node.field f.seg).map fun f => pieceEntries key (piece key f)).getD []
  rw [(field_eq_some_iff h.distinct).2 ⟨hf, rfl⟩]
  rfl

/-- What stands at the paths tells the entries. -/
lemma flattenInto_congr (ht : t.WF) (hu : u.WF) (hts : t.node.scalar = none)
    (hus : u.node.scalar = none) (h : t.look = u.look)
    (key : List Seg) : t.flattenInto key = u.flattenInto key := by
  induction ht generalizing u key with
  | @mk n hsc hd hsub hp ih =>
    have hwf : (Tree.mk n).WF := .mk hsc hd hsub hp
    have hsp := spillScalar_of_scalar hts
    have hsp' := spillScalar_of_scalar hus
    have hfi : ∀ s, Option.Rel Same (n.field s) (u.node.field s) := by
      intro s
      have hs := field_same h s
      rwa [hsp, hsp'] at hs
    have hse : (Tree.mk n).segs = u.segs := by
      have hmem : ∀ s, s ∈ n.fields.map seg ↔ s ∈ u.node.fields.map seg := by
        intro s
        have hin : ∀ m : Node V (Tree V), s ∉ m.fields.map seg ↔ m.field s = none := by
          intro m
          rw [Node.field_eq_none_iff, mem_map]
          push Not
          rfl
        rw [← not_iff_not, hin, hin]
        have hs := hfi s
        generalize n.field s = x at hs
        generalize u.node.field s = y at hs
        cases hs with
        | none => exact .rfl
        | some => exact iff_of_false (Option.some_ne_none _) (Option.some_ne_none _)
      have hpe := (perm_ext_iff_of_nodup hd hu.distinct).2 hmem
      refine Perm.eq_of_pairwise (fun a b _ _ => segLe_antisymm a b) ?_ ?_ ?_
      · exact pairwise_mergeSort segLe_trans segLe_total _
      · exact pairwise_mergeSort segLe_trans segLe_total _
      · exact (mergeSort_perm _ _).trans (hpe.trans (mergeSort_perm _ _).symm)
    rw [flattenInto_eq hwf hts, flattenInto_eq hu hus, hse]
    refine flatMap_congr fun s _ => ?_
    change ((n.field s).map fun f => pieceEntries key (piece key f)).getD [] = _
    rw [under]
    have hs := hfi s
    cases hn : n.field s with
    | none =>
      rw [hn] at hs
      generalize u.node.field s = y at hs
      cases hs
      rfl
    | some f =>
      rw [hn] at hs
      have hf := (field_eq_some_iff hd).1 hn
      cases hm : u.node.field s with
      | none =>
        rw [hm] at hs
        cases hs
      | some g =>
        rw [hm] at hs
        have hg := (field_eq_some_iff hu.distinct).1 hm
        cases hs with
        | some hfg =>
          cases hfg with
          | leaf => rfl
          | @sub s e e' v w hlo =>
            exact ih _ hf.1 v rfl (hu.sub hg.1 rfl) (hp _ hf.1 v rfl)
              (hu.plain hg.1 rfl) hlo (key ++ [s])

/-- An entry is listed exactly when it stands at its path. -/
lemma mem_flattenInto (ht : t.WF) (hts : t.node.scalar = none) (key : List Seg)
    (kv : List Seg × Entry V) :
    kv ∈ t.flattenInto key ↔ ∃ q, kv.1 = key ++ q ∧ t.look q = some (.leaf kv.2) := by
  induction ht generalizing key with
  | @mk n hsc hd hsub hp ih =>
    have hwf : (Tree.mk n).WF := .mk hsc hd hsub hp
    have hsp : (Tree.mk n).node.spillScalar = n := spillScalar_of_scalar hts
    -- the entries of one field
    have hpi : ∀ f ∈ n.fields, (kv ∈ pieceEntries key (piece key f) ↔
        ∃ q, kv.1 = key ++ f.seg :: q ∧ f.look look q = some (.leaf kv.2)) := by
      rintro ⟨seg, leaf, sub⟩ hf
      cases sub with
      | none =>
        change kv ∈ [(key ++ [seg], leaf)] ↔
          ∃ q, kv.1 = key ++ seg :: q ∧ Contents.single leaf q = some (.leaf kv.2)
        rw [mem_singleton]
        constructor
        · rintro rfl
          exact ⟨[], rfl, rfl⟩
        · rintro ⟨q, hq, hl⟩
          cases q with
          | nil => exact Prod.ext hq (Item.leaf.inj (Option.some.inj hl)).symm
          | cons => cases hl
      | some v =>
        change kv ∈ v.flattenInto (key ++ [seg]) ↔
          ∃ q, kv.1 = key ++ seg :: q ∧ v.look q = some (.leaf kv.2)
        rw [ih _ hf v rfl (hp _ hf v rfl)]
        refine exists_congr fun q => and_congr_left' ?_
        rw [append_assoc, singleton_append]
    rw [flattenInto_eq hwf hts, mem_flatMap]
    constructor
    · rintro ⟨s, hs, hkv⟩
      obtain ⟨f, hf, rfl⟩ := mem_segs.1 hs
      have hfi : (Tree.mk n).node.field f.seg = some f := (field_eq_some_iff hd).2 ⟨hf, rfl⟩
      rw [under, hfi] at hkv
      obtain ⟨q, hq, hlo⟩ := (hpi f hf).1 hkv
      refine ⟨f.seg :: q, hq, ?_⟩
      rw [look_cons, hsp, show n.field f.seg = some f from hfi]
      exact hlo
    · rintro ⟨q, hq, hlo⟩
      cases q with
      | nil =>
        cases hlo
      | cons s q =>
        rw [look_cons, hsp] at hlo
        cases hn : n.field s with
        | none =>
          rw [hn] at hlo
          cases hlo
        | some f =>
          rw [hn] at hlo
          obtain ⟨hf, rfl⟩ := (field_eq_some_iff hd).1 hn
          refine ⟨f.seg, mem_segs.2 ⟨f, hf, rfl⟩, ?_⟩
          rw [under, show (Tree.mk n).node.field f.seg = some f from hn]
          exact (hpi f hf).2 ⟨q, hq, hlo⟩

/-- A bare scalar is listed as the field that it spills. -/
lemma nonAttrEntries_spill (t : Tree V) (h : t.WF) :
    (Tree.mk t.node.spillScalar).nonAttrEntries = t.nonAttrEntries := by
  cases hs : t.node.scalar with
  | none => rw [spillScalar_of_scalar hs, t.mk_node]
  | some e =>
    obtain ⟨info, fields⟩ := t
    have hin : info.scalar = some e := hs
    have hf : fields = [] := h.scalar (by rw [hs]; rfl)
    subst hf
    have hp : (Tree.mk (Tree.mk ⟨info, []⟩).node.spillScalar).node.scalar =
      none := scalar_spillScalar _
    have hlo : (Tree.mk (Tree.mk ⟨info, []⟩).node.spillScalar).node.fields =
        [⟨.zero, e, none⟩] := by
      rw [spillScalar, hs]
      rfl
    rw [nonAttrEntries, nonAttrEntries, flattenInto_plain hp, hlo, flattenInto, hin,
      map_singleton, mergeSort_singleton]
    rfl

lemma nonAttrEntries_congr (ht : t.WF) (hu : u.WF) (h : t.look = u.look) :
    t.nonAttrEntries = u.nonAttrEntries := by
  rw [← t.nonAttrEntries_spill ht, ← u.nonAttrEntries_spill hu]
  refine flattenInto_congr ht.spill hu.spill (scalar_spillScalar _) (scalar_spillScalar _) ?_ []
  rw [look_spill, look_spill, h]

lemma mem_nonAttrEntries (h : t.WF) : (p, e) ∈ t.nonAttrEntries ↔ t.look p = some (.leaf e) := by
  rw [← t.nonAttrEntries_spill h, nonAttrEntries, mem_flattenInto h.spill (scalar_spillScalar _)]
  rw [look_spill]
  constructor
  · rintro ⟨q, rfl, hq⟩
    exact hq
  · exact fun hq => ⟨p, rfl, hq⟩

/-- Bundles with equal entries, and tuples at the same paths, have the same contents. -/
lemma look_eq_iff (ht : t.WF) (hu : u.WF) :
    t.look = u.look ↔ t.nonAttrEntries = u.nonAttrEntries ∧ ∀ p, t.look p = some .tuple ↔
    u.look p = some .tuple := by
  constructor
  · exact fun h => ⟨nonAttrEntries_congr ht hu h, fun p => by rw [h]⟩
  · rintro ⟨hen, htu⟩
    funext p
    have hl : ∀ e, t.look p = some (.leaf e) ↔ u.look p = some (.leaf e) := by
      intro e
      rw [← mem_nonAttrEntries ht, ← mem_nonAttrEntries hu, hen]
    refine Option.ext fun item => ?_
    cases item with
    | leaf e => exact hl e
    | tuple => exact htu p

/-- No tuple below the top is without an entry. -/
def Full (t : Tree V) : Prop := ∀ p, p ≠ [] → t.look p = some .tuple →
    ∃ q e, t.look (p ++ q) = some (.leaf e)

/-- Where no tuple is empty, the entries tell the tuples. -/
lemma Full.tuples (ht : t.WF) (hu : u.WF) (hft : t.Full) (hfu : u.Full)
    (h : t.nonAttrEntries = u.nonAttrEntries) (p : List Seg) :
    t.look p = some .tuple ↔ u.look p = some .tuple := by
  have hone : ∀ {t u : Tree V}, t.WF → u.WF → t.Full → t.nonAttrEntries = u.nonAttrEntries →
      t.look p = some .tuple →
      u.look p = some .tuple := by
    intro t u ht hu hft h hp
    by_cases hnil : p = []
    · rw [hnil, look_nil]
    · obtain ⟨q, e, hq⟩ := hft p hnil hp
      have hq' : q ≠ [] := by
        rintro rfl
        rw [append_nil, hp] at hq
        cases hq
      have hl := (mem_nonAttrEntries hu).1 (h ▸ (mem_nonAttrEntries ht).2 hq)
      exact look_closed u p q hq' (by rw [hl]; exact Option.some_ne_none _)
  exact ⟨hone ht hu hft h, hone hu ht hfu h.symm⟩

end Tree

end LiveHD.Upass
