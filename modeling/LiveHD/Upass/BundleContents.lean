import LiveHD.Upass.BundleConcat
import LiveHD.Upass.BundleSound

/-!
# The contents of a bundle

What stands at each path of a bundle, and what a write changes of it.
-/

namespace LiveHD.Upass

open List Option Node

variable {V σ : Type*}

/-! ## Fields of distinct segments -/

namespace Node

def Distinct (n : Node V σ) : Prop := (n.fields.map Field.seg).Nodup

variable {n : Node V σ} {f g : Field V σ} {s : Seg}

/-- The search finds a field exactly when it is stored. -/
lemma field_eq_some_iff (hd : n.Distinct) : n.field s = some f ↔ f ∈ n.fields ∧ f.seg = s := by
  rw [field]
  constructor
  · intro h
    obtain ⟨i, hi, hget⟩ := bind_eq_some_iff.1 h
    obtain ⟨g, hg, hseg⟩ := findField_eq_some hi
    cases (hg.symm.trans hget)
    exact ⟨mem_of_getElem? hget, hseg⟩
  · rintro ⟨hf, rfl⟩
    cases hfi : n.findField f.seg with
    | none => exact absurd rfl (seg_ne_of_findField hfi hf)
    | some i =>
      obtain ⟨g, hg, hseg⟩ := findField_eq_some hfi
      rw [bind_some, hg, inj_on_of_nodup_map hd (mem_of_getElem? hg) hf hseg]

lemma field_eq_none_iff : n.field s = none ↔ ∀ f ∈ n.fields, f.seg ≠ s := by
  rw [field]
  constructor
  · intro h
    refine fun f hf => seg_ne_of_findField ?_ hf
    cases hfi : n.findField s with
    | none => rfl
    | some i =>
      obtain ⟨g, hg, -⟩ := findField_eq_some hfi
      rw [hfi, bind_some, hg] at h
      cases h
  · intro h
    cases hfi : n.findField s with
    | none => rfl
    | some i =>
      obtain ⟨g, hg, hseg⟩ := findField_eq_some hfi
      exact absurd hseg (h g (mem_of_getElem? hg))

lemma findField_eq_none_iff : n.findField s = none ↔ n.field s = none := by
  constructor
  · intro h
    rw [field, h]
    rfl
  · intro h
    cases hfi : n.findField s with
    | none => rfl
    | some i =>
      obtain ⟨g, hg, hseg⟩ := findField_eq_some hfi
      exact absurd hseg (field_eq_none_iff.1 h g (mem_of_getElem? hg))

lemma seg_of_field (h : n.field s = some f) : f.seg = s := by
  obtain ⟨i, hi, hget⟩ := bind_eq_some_iff.1 h
  obtain ⟨g, hg, hseg⟩ := findField_eq_some hi
  cases (hg.symm.trans hget)
  exact hseg

section

variable (hd : n.Distinct)
include hd

lemma Distinct.appendField (hf : n.field f.seg = none) : (n.appendField f).Distinct := by
  rw [Distinct, Node.appendField, map_append, nodup_append]
  refine ⟨hd, nodup_singleton _, ?_⟩
  rintro _ hs _ hs' rfl
  obtain ⟨g, hg, hseg⟩ := mem_map.1 hs
  rw [map_singleton, mem_singleton] at hs'
  exact field_eq_none_iff.1 hf g hg (hseg.trans hs')

lemma Distinct.modifyField {i : ℕ} {φ : Field V σ → Field V σ} (hφ : ∀ g, (φ g).seg = g.seg) :
    (n.modifyField i φ).Distinct := by
  rwa [Distinct, segs_modifyField n hφ]

lemma field_appendField (hf : n.field f.seg = none) (s : Seg) :
    (n.appendField f).field s = if s = f.seg then some f else n.field s := by
  have hd' := hd.appendField hf
  split
  next h =>
    rw [field_eq_some_iff hd']
    exact ⟨mem_append_right _ (mem_singleton_self f), h.symm⟩
  next h =>
    cases hs : n.field s with
    | none =>
      rw [field_eq_none_iff] at hs ⊢
      intro g hg
      rcases mem_append.1 hg with hg | hg
      · exact hs g hg
      · rw [mem_singleton.1 hg]
        exact fun hseg => h hseg.symm
    | some g =>
      rw [field_eq_some_iff hd] at hs
      rw [field_eq_some_iff hd']
      exact ⟨mem_append_left _ hs.1, hs.2⟩

/-- The field that is found is changed, and no other. -/
lemma field_modifyField {i : ℕ} {φ : Field V σ → Field V σ} (hφ : ∀ g, (φ g).seg = g.seg)
    (hi : n.findField s = some i)
    (s' : Seg) : (n.modifyField i φ).field s' = if s' = s then (n.field s).map φ
    else n.field s' := by
  have hd' := hd.modifyField (i := i) hφ
  obtain ⟨f, hf, hseg⟩ := findField_eq_some hi
  have hfi := (field_eq_some_iff hd).2 ⟨mem_of_getElem? hf, hseg⟩
  have hget : ∀ j, (n.modifyField i φ).fields[j]? = (fun g => if i = j then φ g else g) <$>
      n.fields[j]? := fun j =>
    getElem?_modify ..
  split
  next h =>
    rw [hfi, map_some, field_eq_some_iff hd', h, ← hseg]
    refine ⟨mem_of_getElem? (i := i) ?_, hφ f⟩
    rw [hget, hf]
    exact congrArg some (if_pos rfl)
  next h =>
    -- a field at another place is not that of the segment
    have ho : ∀ (g : Field V σ) (j : ℕ), n.fields[j]? = some g → g.seg = s' → i ≠ j := by
      rintro g j hg hg' rfl
      cases (hf.symm.trans hg)
      exact h (hg'.symm.trans hseg)
    cases hs : n.field s' with
    | none =>
      rw [field_eq_none_iff] at hs ⊢
      intro g hg
      obtain ⟨j, hj⟩ := mem_iff_getElem?.1 hg
      rw [hget] at hj
      obtain ⟨g', hg', rfl⟩ := map_eq_some_iff.1 hj
      split
      · rw [hφ]
        exact hs g' (mem_of_getElem? hg')
      · exact hs g' (mem_of_getElem? hg')
    | some g =>
      obtain ⟨hg, hg'⟩ := (field_eq_some_iff hd).1 hs
      obtain ⟨j, hj⟩ := mem_iff_getElem?.1 hg
      rw [field_eq_some_iff hd']
      refine ⟨mem_of_getElem? (i := j) ?_, hg'⟩
      rw [hget, hj]
      exact congrArg some (if_neg (ho g j hj hg'))

lemma field_putField (s : Seg) :
    (n.putField f).field s = if s = f.seg then some f else n.field s := by
  rw [putField]
  cases hfi : n.findField f.seg with
  | none => exact field_appendField hd (findField_eq_none_iff.1 hfi) s
  | some i =>
    refine (field_modifyField (φ := fun g => { g with leaf := f.leaf, sub := f.sub }) hd
      (fun _ => rfl) hfi s).trans ?_
    obtain ⟨g, hg, hseg⟩ := findField_eq_some hfi
    simp [(field_eq_some_iff hd).2 ⟨mem_of_getElem? hg, hseg⟩, hseg]

lemma Distinct.putField : (n.putField f).Distinct := by
  rw [Node.putField]
  cases hfi : n.findField f.seg with
  | none => exact hd.appendField (findField_eq_none_iff.1 hfi)
  | some i => exact hd.modifyField fun _ => rfl

end

lemma scalar_putField : (n.putField f).scalar = n.scalar := by
  rw [putField]
  cases n.findField f.seg <;> rfl

/-- A scalar stands alone. -/
lemma Distinct.spillScalar (hd : n.Distinct) (hsc : n.scalar.isSome → n.fields = []) :
    n.spillScalar.Distinct := by
  rw [Node.spillScalar]
  cases hs : n.scalar with
  | none => exact hd
  | some e =>
    refine .appendField (n := ({ n with scalar := none } : Node V σ)) hd
      (field_eq_none_iff.2 fun f hf => ?_)
    rw [hsc (by rw [hs]; rfl)] at hf
    cases hf

end Node

/-! ## Contents -/

/-- What stands at a path. -/
inductive Item (V : Type*)
  | leaf (e : Entry V)
  | tuple

/-- The items of a bundle by their paths. -/
abbrev Contents (V : Type*) := List Seg → Option (Item V)

namespace Contents

/-- A leaf and nothing else. -/
def single (e : Entry V) : Contents V
  | [] => some (.leaf e)
  | _ => none

/-- A tuple of one positional leaf. -/
def boxed (e : Entry V) : Contents V
  | [] => some .tuple
  | [.unnamed 0] => some (.leaf e)
  | _ => none

def bare : Contents V
  | [] => some .tuple
  | _ => none

/-- The tuple at a segment, a leaf being the tuple that holds it. -/
def inside (k : Contents V) (s : Seg) : Contents V :=
  match k [s] with
  | none => bare
  | some (.leaf e) => boxed e
  | some .tuple => fun q => k (s :: q)

/-- New contents at a path; what is above becomes tuples. -/
def place (k : Contents V) : List Seg → Contents V → Contents V
  | [], new => new
  | s :: path, new => fun
    | [] => some .tuple
    | s' :: q => if s' = s then place (k.inside s) path new q else k (s' :: q)

lemma place_cons (k : Contents V) (s s' : Seg) (path q : List Seg) (new : Contents V) :
    k.place (s :: path) new (s' :: q) = if s' = s then (k.inside s).place path new q
    else k (s' :: q) := rfl

lemma place_append (k : Contents V) (path q : List Seg) (new : Contents V) :
    k.place path new (path ++ q) = new q := by
  induction path generalizing k with
  | nil => rfl
  | cons s path ih => simp [place_cons, ih]

/-- What is above an item is a tuple. -/
def Closed (k : Contents V) : Prop := ∀ p q : List Seg, q ≠ [] →
    k (p ++ q) ≠ none → k p = some .tuple

variable {k : Contents V}

lemma Closed.inside (hk : k.Closed) (s : Seg) : (k.inside s).Closed := by
  have hca : ∀ c : Contents V, (∀ q, q ≠ [] → c q ≠ none → c [] = some .tuple) →
      (∀ s' p q, q ≠ [] → c (s' :: p ++ q) ≠ none → c (s' :: p) = some .tuple) → c.Closed := by
    intro c hnil hco p q hq hne
    cases p with
    | nil => exact hnil q hq hne
    | cons s' p => exact hco s' p q hq hne
  unfold Contents.inside
  cases hs : k [s] with
  | none => exact hca _ (fun _ _ _ => rfl) fun s' p q _ hne => absurd rfl hne
  | some item =>
    cases item with
    | leaf e =>
      refine hca _ (fun _ _ _ => rfl) fun s' p q hq hne => absurd ?_ hne
      cases p with
      | nil =>
        cases q with
        | nil => exact absurd rfl hq
        | cons a q => cases s' with
          | named => rfl
          | unnamed n => cases n <;> rfl
      | cons a p => cases s' with
        | named => rfl
        | unnamed n => cases n <;> rfl
    | tuple => exact fun p q hq hne => hk (s :: p) q hq hne

variable {path q : List Seg}

/-- What is neither above nor below a path, nor below a leaf above it, stays. -/
lemma place_frame (hk : k.Closed) (new : Contents V) (hb : ¬path <+: q) (hab : ¬q <+: path)
    (hl : ∀ p e, p <+: path → p ≠ path → k p = some (.leaf e) → ¬p <+: q) :
    k.place path new q = k q := by
  induction path generalizing k q with
  | nil => exact absurd nil_prefix hb
  | cons s path ih =>
    cases q with
    | nil => exact absurd nil_prefix hab
    | cons s' q =>
      rw [place_cons]
      split
      next hs =>
        subst hs
        rw [cons_prefix_cons, and_iff_right rfl] at hb hab
        have hpa : path ≠ [] := fun h => hb (h ▸ nil_prefix)
        have hq : q ≠ [] := fun h => hab (h ▸ nil_prefix)
        have hsa : k.inside s' q = k (s' :: q) := by
          unfold Contents.inside
          cases hs' : k [s'] with
          | none =>
            have hno : k (s' :: q) = none := by
              by_contra hne
              rw [hk [s'] q hq hne] at hs'
              cases hs'
            rw [hno]
            cases q with
            | nil => exact absurd rfl hq
            | cons => rfl
          | some item =>
            cases item with
            | leaf e =>
              refine absurd (cons_prefix_cons.2 ⟨rfl, nil_prefix⟩) (hl [s'] e ?_ ?_ hs')
              · exact cons_prefix_cons.2 ⟨rfl, nil_prefix⟩
              · exact fun h => hpa (List.cons.inj h).2.symm
            | tuple => rfl
        rw [← hsa]
        refine ih (hk.inside s') hb hab fun p e hp hne hl' hpq => ?_
        have hk' : k (s' :: p) = some (.leaf e) := by
          unfold Contents.inside at hl'
          cases hs' : k [s'] with
          | none =>
            rw [hs'] at hl'
            cases p <;> cases hl'
          | some item =>
            rw [hs'] at hl'
            cases item with
            | leaf e' =>
              refine absurd (cons_prefix_cons.2 ⟨rfl, nil_prefix⟩) (hl [s'] e' ?_ ?_ hs')
              · exact cons_prefix_cons.2 ⟨rfl, nil_prefix⟩
              · exact fun h => hpa (List.cons.inj h).2.symm
            | tuple => exact hl'
        refine hl (s' :: p) e ?_ ?_ hk' ?_
        · exact cons_prefix_cons.2 ⟨rfl, hp⟩
        · exact fun h => hne (List.cons.inj h).2
        · exact cons_prefix_cons.2 ⟨rfl, hpq⟩
      · rfl

lemma place_bare (new : Contents V) (hb : ¬path <+: q) (hab : ¬q <+: path) :
    (bare : Contents V).place path new q = none := by
  have hcl : (bare : Contents V).Closed := by
    intro p q hq hne
    cases p with
    | nil => rfl
    | cons s p => exact absurd rfl hne
  rw [place_frame hcl new hb hab]
  · cases q with
    | nil => exact absurd nil_prefix hab
    | cons s q => rfl
  · intro p e _ _ hp
    cases p <;> cases hp

/-- A leaf that is passed goes to the first free slot `0` on the way. -/
lemma place_boxed (e : Entry V) (new : Contents V) (hb : ¬path <+: q) (hab : ¬q <+: path) :
    (boxed e).place path new q = if (∀ s ∈ q, s = .zero) ∧ q.dropLast <+: path then some
    (.leaf e) else none := by
  induction path generalizing q with
  | nil => exact absurd nil_prefix hb
  | cons s path ih =>
    cases q with
    | nil => exact absurd nil_prefix hab
    | cons s' q =>
      rw [place_cons]
      by_cases hs : s' = s
      · subst hs
        rw [if_pos rfl]
        rw [cons_prefix_cons, and_iff_right rfl] at hb hab
        have hq : q ≠ [] := fun h => hab (h ▸ nil_prefix)
        by_cases hz : s' = .zero
        · subst hz
          have hin : (boxed e).inside .zero = boxed e := rfl
          rw [hin, ih hb hab]
          refine if_congr (and_congr ?_ ?_) rfl rfl
          · simp
          · rw [dropLast_cons_of_ne_nil hq, cons_prefix_cons, and_iff_right rfl]
        · have hin : (boxed e).inside s' = bare := by
            cases s' with
            | named => rfl
            | unnamed p =>
              cases p with
              | zero => exact absurd rfl hz
              | succ p => rfl
          rw [hin, place_bare new hb hab, if_neg]
          exact fun h => hz (h.1 s' (.head _))
      · rw [if_neg hs]
        by_cases hz : s' = .zero
        · subst hz
          cases q with
          | nil => exact (if_pos ⟨fun s hs => mem_singleton.1 hs, nil_prefix⟩).symm
          | cons a q =>
            refine (if_neg ?_).symm
            rintro ⟨-, hp⟩
            rw [dropLast_cons_of_ne_nil (cons_ne_nil _ _), cons_prefix_cons] at hp
            exact hs hp.1
        · cases s' with
          | named => rfl
          | unnamed p =>
            cases p with
            | zero => exact absurd rfl hz
            | succ p => cases q <;> rfl

/-- Below a leaf that is passed. -/
lemma place_moved {p : List Seg} {e : Entry V} (hp : p ≠ []) (hl : k p = some (.leaf e))
    (hk : k.Closed) (rest q : List Seg) (new : Contents V) :
    k.place (p ++ rest) new (p ++ q) = (boxed e).place rest new q := by
  induction p generalizing k with
  | nil => exact absurd rfl hp
  | cons s p ih =>
    rw [cons_append, cons_append, place_cons, if_pos rfl]
    cases p with
    | nil =>
      have hin : k.inside s = boxed e := by
        unfold Contents.inside
        rw [hl]
      rw [hin]
      rfl
    | cons s' p =>
      refine ih (cons_ne_nil _ _) ?_ (hk.inside s)
      unfold Contents.inside
      rwa [hk [s] (s' :: p) (cons_ne_nil _ _) (by rw [singleton_append, hl]; exact some_ne_none _)]

end Contents

/-- The item of a field below its segment. -/
def Field.look (look : Tree V → Contents V) (f : Field V (Tree V)) : Contents V :=
  match f.sub with
  | none => Contents.single f.leaf
  | some u => look u

namespace Tree

/-- What stands at a path, a bare scalar being at slot `0`. -/
def look : Tree V → Contents V
  | _, [] => some .tuple
  | t, s :: path =>
    match t.node.spillScalar.field s with
    | none => none
    | some f =>
      match f.sub with
      | none => Contents.single f.leaf path
      | some u => look u path

/-- Scalars stand alone and on top, and the segments of a bundle are distinct. -/
inductive WF : Tree V → Prop
  | mk {n : Node V (Tree V)} (hscalar : n.scalar.isSome → n.fields = []) (hdistinct : n.Distinct)
      (hsub : ∀ f ∈ n.fields, ∀ u, f.sub = some u → WF u)
        (hplain : ∀ f ∈ n.fields, ∀ u, f.sub = some u → u.node.scalar = none) :
      WF (.mk n)

variable {t u : Tree V} {n m : Node V (Tree V)} {s : Seg} {path q : List Seg} {e : Entry V}

lemma look_nil (t : Tree V) : t.look [] = some .tuple := by rw [look.eq_def]

lemma look_cons (t : Tree V) (s : Seg) (path : List Seg) :
    t.look (s :: path) = (t.node.spillScalar.field s).bind fun f => f.look look path := by
  rw [look]
  cases t.node.spillScalar.field s with
  | none => rfl
  | some f =>
    obtain ⟨seg, leaf, sub⟩ := f
    cases sub <;> rfl

variable {f : Field V (Tree V)}

namespace WF

lemma scalar (h : t.WF) : t.node.scalar.isSome → t.node.fields = [] := by
  cases h with
  | mk h => exact h

lemma distinct (h : t.WF) : t.node.Distinct := by
  cases h with
  | mk _ h => exact h

lemma sub (h : t.WF) (hf : f ∈ t.node.fields) (hu : f.sub = some u) : u.WF := by
  cases h with
  | mk _ _ h => exact h f hf u hu

lemma plain (h : t.WF) (hf : f ∈ t.node.fields) (hu : f.sub = some u) : u.node.scalar = none := by
  cases h with
  | mk _ _ _ h => exact h f hf u hu

lemma distinct_spill (h : t.WF) : t.node.spillScalar.Distinct := h.distinct.spillScalar h.scalar

lemma mem_of_spill (hf : f ∈ t.node.spillScalar.fields)
    (hu : f.sub = some u) : f ∈ t.node.fields := by
  rw [Node.spillScalar] at hf
  cases hs : t.node.scalar with
  | none => rwa [hs] at hf
  | some e =>
    rw [hs] at hf
    rcases mem_append.1 hf with hf | hf
    · exact hf
    · rw [mem_singleton.1 hf] at hu
      cases hu

lemma sub_spill (h : t.WF) (hf : f ∈ t.node.spillScalar.fields) (hu : f.sub = some u) :
    u.WF ∧ u.node.scalar = none :=
  ⟨h.sub (mem_of_spill hf hu) hu, h.plain (mem_of_spill hf hu) hu⟩

/-- A bundle without a scalar, of distinct fields. -/
lemma of_plain (hs : n.scalar = none) (hd : n.Distinct)
    (hsub : ∀ f ∈ n.fields, ∀ u, f.sub = some u → u.WF ∧ u.node.scalar = none) : (Tree.mk n).WF :=
  .mk (by rw [hs]; intro h; cases h) hd (fun f hf u hu => (hsub f hf u hu).1) fun f hf u hu =>
    (hsub f hf u hu).2

lemma of_info (i : Info V) : (Tree.mk ⟨i, []⟩).WF :=
  .mk (fun _ => rfl) nodup_nil (fun _ hf => by cases hf) fun _ hf => by cases hf

lemma spill (h : t.WF) : (Tree.mk t.node.spillScalar).WF :=
  .of_plain (Node.scalar_spillScalar _) h.distinct_spill fun _ hf _ hu => h.sub_spill hf hu

end WF

/-- Contents are read off the scalar and the fields. -/
lemma look_congr (hs : n.scalar = m.scalar) (hf : n.fields = m.fields) :
    (Tree.mk n).look = (Tree.mk m).look := by
  funext path
  cases path with
  | nil => rw [look_nil, look_nil]
  | cons s path =>
    rw [look_cons, look_cons, node, node, Node.field_congr (fields_spillScalar hf hs)]

lemma look_spill (t : Tree V) : (Tree.mk t.node.spillScalar).look = t.look := by
  funext path
  cases path with
  | nil => rw [look_nil, look_nil]
  | cons s path => rw [look_cons, look_cons, node, Node.spillScalar_spillScalar]

def Item.leaf? : Item V → Option (Entry V)
  | .leaf e => some e
  | .tuple => none

lemma owner_leaf (h : t.WF) (hs : t.node.scalar = none) (hp : path ≠ []) :
    ((path.getLast?).bind fun last => (t.owner path).bind fun n => n.leaf last) =
    (t.look path).bind Item.leaf? := by
  induction path generalizing t with
  | nil => exact absurd rfl hp
  | cons s path ih =>
    have hsp := Node.spillScalar_of_scalar hs
    cases path with
    | nil =>
      rw [look_cons, hsp, owner]
      · change t.node.leaf s = _
        rw [leaf]
        cases t.node.field s with
        | none => rfl
        | some f =>
          obtain ⟨seg, leaf, sub⟩ := f
          cases sub with
          | none => rfl
          | some u => rfl
      · intro _ _ _ heq
        cases heq
    | cons s' path =>
      rw [look_cons, hsp, owner, hs]
      rw [sub]
      cases hf : t.node.field s with
      | none =>
        cases (s' :: path).getLast? <;> rfl
      | some f =>
        obtain ⟨seg, leaf, sub⟩ := f
        cases sub with
        | none => cases (s' :: path).getLast? <;> rfl
        | some u =>
          have hmem := ((field_eq_some_iff h.distinct).1 hf).1
          exact ih (h.sub hmem rfl) (h.plain hmem rfl) (cons_ne_nil _ _)

/-- The only field that a scalar spills. -/
lemma field_spill_scalar (h : t.WF) (he : t.node.scalar = some e) (s : Seg) :
    t.node.spillScalar.field s = if s = .zero then some ⟨.zero, e, none⟩ else none := by
  have hfi := h.scalar (by rw [he]; rfl)
  rw [Node.spillScalar, he]
  have hem : ∀ s, ({ t.node with scalar := none } : Node V (Tree V)).field s = none := fun s =>
    field_eq_none_iff.2 fun f hf => by
      rw [show ({ t.node with scalar := none } : Node V (Tree V)).fields = [] from hfi] at hf
      cases hf
  refine (field_appendField (n := ({ t.node with scalar := none } : Node V (Tree V)))
    h.distinct (hem _) s).trans ?_
  rw [hem]

/-- A leaf is read where it stands. -/
lemma entry_eq (h : t.WF) (hp : path ≠ []) : t.entry path = (t.look path).bind Item.leaf? := by
  rw [entry]
  cases he : t.node.scalar with
  | none => exact owner_leaf h he hp
  | some e =>
    cases path with
    | nil => exact absurd rfl hp
    | cons s path =>
      rw [look_cons, field_spill_scalar h he]
      by_cases hs : s = .zero
      · rw [hs]
        cases path with
        | nil => exact if_pos rfl
        | cons s' path => exact if_neg fun heq => by cases heq
      · rw [if_neg hs]
        exact if_neg fun heq => hs (List.cons.inj heq).1

/-! ## Writes -/

lemma look_put_last (h : t.WF) (s : Seg) (x : Field V (Tree V)) (hx : x.seg = s) :
    (Tree.mk (t.node.spillScalar.putField x)).look = t.look.place [s] (x.look look) := by
  funext path
  cases path with
  | nil => exact look_nil _
  | cons s' path =>
    have hp : (t.node.spillScalar.putField x).scalar = none :=
      Node.scalar_putField.trans (scalar_spillScalar _)
    rw [look_cons, node, spillScalar_of_scalar hp, field_putField h.distinct_spill,
      Contents.place_cons, hx]
    split
    · rfl
    · exact (look_cons t s' path).symm

/-- The tuple at a segment of a tree. -/
lemma look_child [Dlop V] (t : Tree V) (s : Seg) : (t.child s).look = t.look.inside s := by
  rw [child, Node.sub, Contents.inside, look_cons]
  cases hf : t.node.spillScalar.field s with
  | none =>
    have hhe : t.node.held s = {} := by rw [held, hf]; rfl
    funext path
    change (Tree.mk ⟨t.node.held s, []⟩).look path = Contents.bare path
    rw [hhe]
    cases path with
    | nil => exact look_nil _
    | cons s' path =>
      have hno : (Tree.mk ({} : Node V (Tree V))).node.spillScalar.field s' = none :=
        field_eq_none_iff.2 fun f hf => by cases hf
      rw [look_cons, hno]
      rfl
  | some f =>
    obtain ⟨seg, leaf, sub⟩ := f
    cases sub with
    | some u =>
      funext path
      change u.look path = t.look (s :: path)
      rw [look_cons, hf]
      rfl
    | none =>
      have hhe : t.node.held s = { scalar := some leaf } := by rw [held, hf]; rfl
      funext path
      change (Tree.mk ⟨t.node.held s, []⟩).look path = Contents.boxed leaf path
      rw [hhe]
      have hwf : (Tree.mk ⟨({ scalar := some leaf } : Info V), []⟩).WF := .of_info _
      cases path with
      | nil => exact look_nil _
      | cons s' path =>
        rw [look_cons]
        by_cases hs : s' = .zero
        · rw [hs]
          cases path <;> rfl
        · cases s' with
          | named => rfl
          | unnamed p =>
            cases p with
            | zero => exact absurd rfl hs
            | succ p => rfl

lemma WF.child [Dlop V] (h : t.WF) (s : Seg) : (t.child s).WF := by
  rw [Tree.child, Node.sub]
  cases hf : t.node.spillScalar.field s with
  | none => exact .of_info _
  | some f =>
    cases hu : f.sub with
    | none =>
      rw [bind_some, hu]
      exact .of_info _
    | some u =>
      rw [bind_some, hu]
      exact (h.sub_spill ((field_eq_some_iff h.distinct_spill).1 hf).1 hu).1

lemma WF.putField (h : t.WF) {x : Field V (Tree V)}
    (hx : ∀ u, x.sub = some u → u.WF ∧ u.node.scalar = none) :
    (Tree.mk (t.node.spillScalar.putField x)).WF := by
  refine .of_plain (Node.scalar_putField.trans (scalar_spillScalar _))
    h.distinct_spill.putField fun f hf u hu => ?_
  have hd := h.distinct_spill.putField (f := x)
  have hfi := (field_eq_some_iff hd).2 ⟨hf, rfl⟩
  rw [field_putField h.distinct_spill] at hfi
  split at hfi
  · cases hfi
    exact hx u hu
  · exact h.sub_spill ((field_eq_some_iff h.distinct_spill).1 hfi).1 hu

/-- `plug` leaves the segment to the sub-bundle. -/
lemma field_plug [Dlop V] (t : Tree V) (s : Seg) (u : Tree V) :
    ∃ x : Field V (Tree V), x.seg = s ∧ x.sub = some u ∧
    t.node.plug s u = t.node.spillScalar.putField x := by
  rw [Node.plug]
  cases hf : t.node.spillScalar.findField s with
  | none =>
    refine ⟨⟨s, default, some u⟩, rfl, rfl, ?_⟩
    rw [putField, hf]
  | some i =>
    obtain ⟨f, hget, hseg⟩ := findField_eq_some hf
    refine ⟨⟨s, if f.sub.isNone then default else f.leaf, some u⟩, rfl, rfl, ?_⟩
    rw [putField, hf]
    change Node.mk _ (modify _ _ _) = Node.mk _ (modify _ _ _)
    rw [modify_congr]
    intro g hg
    cases (hget.symm.trans hg)
    rfl

lemma modifyOwner_look [Dlop V] {x : Field V (Tree V)} (h : t.WF) (hp : path ≠ [])
    (hx : x.seg = Heap.lastSeg path)
    (hsub : ∀ u, x.sub = some u → u.WF ∧ u.node.scalar = none) :
    (modifyOwner (fun n => n.spillScalar.putField x) path t).look =
    t.look.place path (x.look look) ∧
      (modifyOwner (fun n => n.spillScalar.putField x) path t).WF ∧
      (modifyOwner (fun n => n.spillScalar.putField x) path t).node.scalar = none := by
  induction path generalizing t with
  | nil => exact absurd rfl hp
  | cons s path ih =>
    cases path with
    | nil => exact ⟨look_put_last h s x hx, h.putField hsub,
      Node.scalar_putField.trans (scalar_spillScalar _)⟩
    | cons s' path =>
      rw [modifyOwner]
      obtain ⟨hlo, hwf, hs⟩ := ih (h.child s) (cons_ne_nil _ _) hx
      obtain ⟨y, hy, hyu, hpl⟩ := field_plug t s
        (modifyOwner (fun n => n.spillScalar.putField x) (s' :: path) (t.child s))
      have hys : ∀ u, y.sub = some u → u.WF ∧ u.node.scalar = none := by
        intro u hu
        cases (hyu.symm.trans hu)
        exact ⟨hwf, hs⟩
      rw [hpl]
      refine ⟨?_, h.putField hys, scalar_putField.trans (scalar_spillScalar _)⟩
      rw [look_put_last h s y hy, Field.look, hyu]
      funext q
      cases q with
      | nil => rfl
      | cons s'' q =>
        rw [Contents.place_cons, Contents.place_cons, ← look_child, ← hlo]
        rfl

lemma setEntry_look [Dlop V] (h : t.WF) (hp : path ≠ []) (e : Entry V) :
    (t.setEntry path e).look = t.look.place path (Contents.single e) ∧ (t.setEntry path e).WF := by
  rw [setEntry]
  split
  next h0 =>
    obtain ⟨rfl, hfi⟩ := h0
    have hwf : (Tree.mk { t.node with scalar := some e }).WF :=
      .mk (fun _ => hfi) h.distinct (fun f hf => by rw [show _ = _ from hfi] at hf; cases hf)
          fun f hf => by
        rw [show _ = _ from hfi] at hf; cases hf
    refine ⟨?_, hwf⟩
    funext q
    cases q with
    | nil => exact look_nil _
    | cons s q =>
      rw [look_cons, field_spill_scalar hwf rfl, Contents.place_cons]
      split
      · rfl
      next hs =>
        rw [look_cons]
        have hno : t.node.spillScalar.field s = none := by
          cases he : t.node.scalar with
          | none =>
            rw [spillScalar_of_scalar he]
            exact field_eq_none_iff.2 fun f hf => by rw [hfi] at hf; cases hf
          | some e' => rw [field_spill_scalar h he, if_neg hs]
        rw [hno]
  · have hput := modifyOwner_look (x := ⟨Heap.lastSeg path, e, none⟩) h hp
      rfl fun _ hu => by cases hu
    exact ⟨hput.1, hput.2.1⟩

lemma look_closed (t : Tree V) : t.look.Closed := by
  intro p
  induction p generalizing t with
  | nil => exact fun _ _ _ => look_nil t
  | cons s p ih =>
    intro q hq hne
    rw [cons_append, look_cons] at hne
    rw [look_cons]
    cases hf : t.node.spillScalar.field s with
    | none =>
      rw [hf] at hne
      exact absurd rfl hne
    | some f =>
      obtain ⟨seg, leaf, sub⟩ := f
      rw [hf] at hne
      cases sub with
      | none =>
        have hpq : p ++ q ≠ [] := fun h => hq (append_eq_nil_iff.1 h).2
        refine absurd ?_ hne
        cases hpq' : p ++ q with
        | nil => exact absurd hpq' hpq
        | cons => rfl
      | some u => exact ih u q hq hne

lemma look_singleton (hf : t.node.spillScalar.field s = some f) : (t.look [s]).isSome := by
  rw [look_cons, hf]
  obtain ⟨seg, leaf, sub⟩ := f
  cases sub with
  | none => rfl
  | some u => rfl

lemma look_leaf (hf : t.node.spillScalar.field s = some f) (e : Entry V) :
    t.look [s] = some (.leaf e) ↔ f.leaf = e ∧ f.sub = none := by
  rw [look_cons, hf]
  obtain ⟨seg, leaf, sub⟩ := f
  cases sub with
  | none =>
    exact ⟨fun h => ⟨Item.leaf.inj (Option.some.inj h), rfl⟩, fun h => congrArg _ (congrArg _ h.1)⟩
  | some u =>
    refine ⟨fun h => ?_, fun h => by cases h.2⟩
    cases h

/-- Fields that leave the same at their segment. -/
inductive Same : Field V (Tree V) → Field V (Tree V) → Prop
  | leaf (s : Seg) (e : Entry V) : Same ⟨s, e, none⟩ ⟨s, e, none⟩
  | sub (s : Seg) (e e' : Entry V) {v w : Tree V} (h : v.look = w.look) :
    Same ⟨s, e, some v⟩ ⟨s, e', some w⟩

/-- Bundles with the same contents have the same fields. -/
lemma field_same (h : t.look = u.look) (s : Seg) :
    Option.Rel Same (t.node.spillScalar.field s) (u.node.spillScalar.field s) := by
  have hite : ∀ q, ((t.node.spillScalar.field s).bind fun f => f.look look q) =
      (u.node.spillScalar.field s).bind fun f => f.look look q := by
    intro q
    rw [← look_cons, ← look_cons, h]
  have hsm := congrArg isSome (congrFun h [s])
  cases hf : t.node.spillScalar.field s with
  | none =>
    cases hg : u.node.spillScalar.field s with
    | none => exact .none
    | some g =>
      rw [look_singleton hg, look_cons, hf] at hsm
      cases hsm
  | some f =>
    cases hg : u.node.spillScalar.field s with
    | none =>
      rw [look_singleton hf, look_cons, hg] at hsm
      cases hsm
    | some g =>
      rw [hf, hg] at hite
      have hit' := funext hite
      obtain rfl := seg_of_field hf
      have hseg := seg_of_field hg
      obtain ⟨fseg, fleaf, fsub⟩ := f
      obtain ⟨gseg, gleaf, gsub⟩ := g
      obtain rfl : gseg = fseg := hseg
      have hnil := congrFun hit' []
      cases fsub with
      | none =>
        cases gsub with
        | none =>
          obtain rfl : fleaf = gleaf := Item.leaf.inj (Option.some.inj hnil)
          exact .some (.leaf _ _)
        | some w =>
          cases hnil
      | some v =>
        cases gsub with
        | none =>
          cases hnil
        | some w => exact .some (.sub _ _ _ hit')

/-- A bundle that stands for a bare scalar holds one positional leaf. -/
lemma bareScalar_eq_some_iff (h : t.WF) : t.node.bareScalar = some e ↔
    t.look = Contents.boxed e := by
  have hbox : ∀ s q, Contents.boxed e (s :: q) = if s = .zero then Contents.single e q
      else none := by
    intro s q
    cases s with
    | named => rfl
    | unnamed p => cases p <;> cases q <;> rfl
  have hlo : (∀ s, t.node.spillScalar.field s = if s = .zero then some ⟨.zero, e, none⟩ else none) →
      t.look = Contents.boxed e := by
    intro hfi
    funext q
    cases q with
    | nil => exact look_nil t
    | cons s q =>
      rw [look_cons, hfi, hbox]
      split <;> rfl
  rw [bareScalar]
  cases hs : t.node.scalar with
  | some e' =>
    constructor
    · intro he
      cases he
      exact hlo (field_spill_scalar h hs)
    · intro heq
      have h0 : t.look [.zero] = some (.leaf e) := congrFun heq [.zero]
      rw [look_leaf (f := ⟨.zero, e', none⟩) (by simp [field_spill_scalar h hs])] at h0
      exact congrArg some h0.1
  | none =>
    have hsp := spillScalar_of_scalar hs
    constructor
    · intro he
      refine hlo fun s => ?_
      rw [hsp]
      split at he
      next hsm =>
        cases hsm
      next f _ hfl =>
        split at he
        next hf =>
          obtain ⟨seg, leaf, sub⟩ := f
          obtain ⟨rfl, hsub⟩ := hf
          obtain rfl := isNone_iff_eq_none.1 hsub
          cases he
          split
          next hz =>
            rw [field_eq_some_iff h.distinct, hfl]
            exact ⟨mem_singleton_self _, hz.symm⟩
          next hz =>
            rw [field_eq_none_iff, hfl]
            intro g hg
            rw [mem_singleton.1 hg]
            exact fun heq => hz heq.symm
        · cases he
      · cases he
    · intro heq
      have hse : ∀ f ∈ t.node.fields, f.seg = .zero := by
        intro f hf
        by_contra hne
        have hfi : t.node.spillScalar.field f.seg = some f := by
          rw [hsp]
          exact (field_eq_some_iff h.distinct).2 ⟨hf, rfl⟩
        have hsm := look_singleton hfi
        rw [heq, hbox, if_neg hne] at hsm
        cases hsm
      have h0 : t.look [.zero] = some (.leaf e) := congrFun heq [.zero]
      cases hf : t.node.spillScalar.field .zero with
      | none =>
        rw [look_cons, hf] at h0
        cases h0
      | some f =>
        rw [look_leaf hf] at h0
        rw [hsp, field_eq_some_iff h.distinct] at hf
        obtain ⟨l₁, l₂, hl⟩ := append_of_mem hf.1
        have hd : (t.node.fields.map Field.seg).Nodup := h.distinct
        have hone : t.node.fields = [f] := by
          cases l₁ with
          | cons g l₁ =>
            rw [hl, map_append, map_cons, map_cons, cons_append, nodup_cons] at hd
            refine absurd (mem_append_right _ ?_) hd.1
            rw [hse g (by rw [hl]; exact (.head _)), hf.2]
            exact .head _
          | nil =>
            cases l₂ with
            | nil => exact hl
            | cons g l₂ =>
              rw [hl, nil_append, map_cons, map_cons, nodup_cons] at hd
              refine absurd ?_ hd.1
              rw [hf.2, hse g (by rw [hl]; exact .tail _ (.head _))]
              exact .head _
        rw [hone]
        change (if f.seg = .zero ∧ f.sub.isNone = true then some f.leaf else none) = some e
        rw [if_pos ⟨hf.2, by rw [h0.2]; rfl⟩, h0.1]

/-- What a bundle leaves at the path that it is set at. -/
def grafted (u : Tree V) : Contents V :=
  match u.node.bareScalar with
  | some e => Contents.single e
  | none => u.look

lemma grafted_congr (ht : t.WF) (hu : u.WF) (h : t.look = u.look) : t.grafted = u.grafted := by
  have hba : t.node.bareScalar = u.node.bareScalar := by
    refine ext fun e => ?_
    rw [bareScalar_eq_some_iff ht, bareScalar_eq_some_iff hu, h]
  rw [grafted, grafted, hba, h]

lemma setBundle_look [Dlop V] (h : t.WF) (hu : u.WF) (hp : path ≠ []) :
    (t.setBundle path u).look = t.look.place path u.grafted ∧ (t.setBundle path u).WF := by
  have hin : ∀ (t' : Tree V) (n : Node V (Tree V)), t'.WF → n.scalar = t'.node.scalar →
      n.fields = t'.node.fields →
      (Tree.mk n).look = t'.look ∧ (Tree.mk n).WF := by
    intro t' n hwf hsc hfi
    refine ⟨?_, ?_⟩
    · rw [← t'.mk_node]
      exact look_congr hsc hfi
    · refine .mk ?_ ?_ ?_ ?_
      · rw [hsc, hfi]
        exact hwf.scalar
      · rw [Node.Distinct, hfi]
        exact hwf.distinct
      · rw [hfi]
        exact fun f hf v hv => hwf.sub hf hv
      · rw [hfi]
        exact fun f hf v hv => hwf.plain hf hv
  rw [setBundle, grafted]
  cases hba : u.node.bareScalar with
  | some e =>
    obtain ⟨hlo, hwf⟩ := setEntry_look h hp e
    refine ⟨(hin (t.setEntry path e) _ hwf ?_ ?_).1.trans hlo,
      (hin (t.setEntry path e) _ hwf ?_ ?_).2⟩ <;> rfl
  | none =>
    have hpl : u.node.scalar = none := by
      rw [Node.bareScalar] at hba
      cases hs : u.node.scalar with
      | none => rfl
      | some e =>
        rw [hs] at hba
        cases hba
    obtain ⟨hlo, hwf, -⟩ := modifyOwner_look
        (x := ⟨Heap.lastSeg path, default, some u⟩) h hp rfl fun v hv => by
      cases hv
      exact ⟨hu, hpl⟩
    refine ⟨(hin (t.put path default (some u)) _ hwf ?_ ?_).1.trans hlo,
      (hin (t.put path default (some u)) _ hwf ?_ ?_).2⟩ <;> rfl

end Tree

end LiveHD.Upass
