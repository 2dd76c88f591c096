import LiveHD.Upass.BundleTree

/-!
# What a write does to the trees

A write goes down a chain of bundles.  Where the other pointers do not lead into the chain, the tree
of the root changes as a tree of its own does, and no other bundle changes.
-/

namespace LiveHD.Upass

open Heap hiding kids node
open Relation List Option Linked Node ReflTransGen

variable {V σ : Type*} {h h' h₁ h₂ r : Heap V} {a b c o : ℕ} {t u v : Tree V}
  {s : Seg} {path : List Seg}

/-! ## Frames -/

namespace Node

variable (n : Node V σ)

lemma subs_appendField (f : Field V σ) : (n.appendField f).subs = n.subs ++ f.sub.toList := by
  rw [appendField]
  cases hf : f.sub <;> simp [subs, hf]

lemma subs_spillScalar : n.spillScalar.subs = n.subs := by
  rw [spillScalar]
  cases n.scalar with
  | none => rfl
  | some e =>
    rw [subs_appendField]
    exact append_nil _

lemma spillScalar_spillScalar : n.spillScalar.spillScalar = n.spillScalar := by
  cases hs : n.scalar <;> simp [spillScalar, hs, appendField]

variable {n : Node V σ}

lemma mem_subs_of_others {c : σ} (hc : c ∈ n.others s) : c ∈ n.subs := by
  rw [← n.subs_spillScalar]
  rw [others] at hc
  cases hfi : n.spillScalar.findField s with
  | none => rwa [hfi] at hc
  | some i =>
    rw [hfi] at hc
    exact ((eraseIdx_sublist _ _).filterMap _).subset hc

/-- The pointer of a segment, found through its field. -/
lemma sub_eq_some {b : σ} (hb : n.sub s = some b) :
    ∃ i f, n.findField s = some i ∧ n.fields[i]? = some f ∧ f.sub = some b := by
  obtain ⟨f, hf, hsub⟩ := bind_eq_some_iff.1 hb
  obtain ⟨i, hi, hget⟩ := bind_eq_some_iff.1 hf
  exact ⟨i, f, hi, hget, hsub⟩

lemma perm_others {b : σ} (hb : n.spillScalar.sub s = some b) : n.subs.Perm (b :: n.others s) := by
  obtain ⟨i, f, hi, hget, hsub⟩ := sub_eq_some hb
  obtain ⟨hlt, hget⟩ := List.getElem?_eq_some_iff.1 hget
  rw [← n.subs_spillScalar, others, hi]
  have hpe := (getElem_cons_eraseIdx_perm hlt).filterMap Field.sub
  rw [hget, filterMap_cons, hsub] at hpe
  exact hpe.symm

lemma mem_subs_of_sub {b : σ} (hb : n.spillScalar.sub s = some b) : b ∈ n.subs :=
  (perm_others hb).mem_iff.2 (.head _)

lemma plug_of_sub [Dlop V] {n : Node V σ} {b : σ} (hb : n.spillScalar.sub s = some b) :
    n.plug s b = n.spillScalar := by
  obtain ⟨i, f, hi, hget, hsub⟩ := sub_eq_some hb
  rw [plug, hi]
  have hid : n.spillScalar.fields.modify i
      (fun f => ⟨f.seg, if f.sub.isNone then default else f.leaf, some b⟩) =
      n.spillScalar.fields := by
    rw [modify_congr (g := id), modify_id]
    intro g hg
    cases (hget.symm.trans hg)
    rw [hsub]
    exact Field.mk.injEq .. ▸ ⟨rfl, rfl, hsub.symm⟩
  exact congrArg (Node.mk n.spillScalar.toInfo) hid

lemma segs_modifyField (n : Node V σ) {i : ℕ} {f : Field V σ → Field V σ}
    (hf : ∀ g, (f g).seg = g.seg) :
    (n.modifyField i f).fields.map Field.seg = n.fields.map Field.seg := by
  refine ext_getElem? fun j => ?_
  rw [modifyField, getElem?_map, getElem?_map, getElem?_modify]
  cases n.fields[j]? with
  | none => rfl
  | some g =>
    show some (if i = j then f g else g).seg = some g.seg
    split
    · rw [hf]
    · rfl

variable {n : Node V σ}

/-- A slot that is found by its position has the segment. -/
lemma denseSlot_eq_some {i : ℕ} (h : n.denseSlot s = some i) :
    ∃ f, n.fields[i]? = some f ∧ f.seg = s := by
  cases s with
  | named => cases h
  | unnamed p =>
    rw [denseSlot] at h
    split at h
    next hany =>
      cases h
      obtain ⟨f, hf, hseg⟩ := any_eq_true _ _ |>.1 hany
      exact ⟨f, hf, of_decide_eq_true hseg⟩
    · cases h

/-- A field that is found is there. -/
lemma findField_eq_some {i : ℕ} (h : n.findField s = some i) :
    ∃ f, n.fields[i]? = some f ∧ f.seg = s := by
  have hin : n.fields.findIdx? (·.seg = s) = some i → ∃ f, n.fields[i]? = some f ∧ f.seg = s := by
    intro hi
    obtain ⟨hlt, hseg, -⟩ := findIdx?_eq_some_iff_getElem.1 hi
    exact ⟨_, getElem?_eq_getElem hlt, of_decide_eq_true hseg⟩
  rw [findField] at h
  split at h
  · exact hin h
  · split at h
    next p hp => exact denseSlot_eq_some (hp.trans h)
    · exact hin h

/-- A field that is not found is not there. -/
lemma seg_ne_of_findField (h : n.findField s = none) {f : Field V σ}
    (hf : f ∈ n.fields) : f.seg ≠ s := by
  have hno : n.fields.findIdx? (·.seg = s) = none := by
    rw [findField] at h
    split at h
    · exact h
    · split at h
      · cases h
      · exact h
  simpa using findIdx?_eq_none_iff.1 hno f hf

/-- An appended field is found, when it has a new segment. -/
lemma findField_appendField {f : Field V σ} (h : n.findField f.seg = none) :
    (n.appendField f).findField f.seg = some n.fields.length := by
  cases hfi : (n.appendField f).findField f.seg with
  | none => exact absurd rfl (seg_ne_of_findField hfi (mem_append_right _ (mem_singleton_self f)))
  | some i =>
    obtain ⟨g, hg, hseg⟩ := findField_eq_some hfi
    rcases lt_or_ge i n.fields.length with hlt | hle
    · rw [appendField, getElem?_append_left hlt] at hg
      exact absurd hseg (seg_ne_of_findField h (mem_of_getElem? hg))
    · obtain ⟨hi, -⟩ := List.getElem?_eq_some_iff.1 hg
      rw [appendField, length_append] at hi
      rw [le_antisymm hle (Nat.lt_succ_iff.1 hi)]

lemma scalar_spillScalar (n : Node V σ) : n.spillScalar.scalar = none := by
  cases hs : n.scalar <;> simp [spillScalar, hs, appendField]

lemma spillScalar_of_scalar {n : Node V σ}
    (h : n.scalar = none) : n.spillScalar = n := by rw [spillScalar, h]

section

variable [Dlop V] (n : Node V σ) (s : Seg) (x : σ)

/-- The field that `plug` leaves for the segment, and the others. -/
lemma plug_spec : (n.plug s x).spillScalar.sub s = some x ∧ (n.plug s x).others s = n.others s := by
  have hsp : (n.plug s x).spillScalar = n.plug s x := by
    refine spillScalar_of_scalar ?_
    rw [plug]
    split
    · exact n.scalar_spillScalar
    · exact n.scalar_spillScalar
  rw [others, hsp, others, sub, field, plug]
  cases hfi : n.spillScalar.findField s with
  | none =>
    have hnew := findField_appendField (f := ⟨s, default, some x⟩) hfi
    rw [hnew]
    dsimp only
    constructor
    · rw [appendField, bind_some, getElem?_append_right le_rfl, Nat.sub_self]
      rfl
    · rw [appendField, eraseIdx_append_of_length_le le_rfl]
      simp [subs]
  | some i =>
    obtain ⟨f, hf, -⟩ := findField_eq_some hfi
    have hsa := findField_congr (n.spillScalar.segs_modifyField (i := i)
      (f := fun f => ⟨f.seg, if f.sub.isNone then default else f.leaf, some x⟩) fun _ => rfl) s
    rw [hsa, hfi]
    dsimp only
    constructor
    · rw [modifyField, bind_some, getElem?_modify_eq, hf]
      rfl
    · rw [modifyField, eraseIdx_modify_of_eq]

end

end Node

variable {f : Node V ℕ → Node V ℕ}

namespace Denotes

/-- A bundle that cannot be reached may change. -/
lemma of_same (hd : Denotes h a t)
    (hsa : ∀ x < h.length, h.Reaches a x → h'[x]? = h[x]?) : Denotes h' a t := by
  refine hd.congr fun x hx => ?_
  obtain ⟨u, hu⟩ := hd.of_reaches hx
  exact hsa x hu.lt_length hx

lemma append (hd : Denotes h a t) (l : List (Node V ℕ)) : Denotes (h ++ l) a t :=
  hd.of_same fun _ hx _ => getElem?_append_left hx

lemma modify_of_not_reaches (hd : Denotes h b u) (hba : ¬h.Reaches b a) (f : Node V ℕ → Node V ℕ) :
    Denotes (h.modify a f) b u := by
  refine hd.of_same fun x _ hx => ?_
  exact getElem?_modify_ne f h fun heq => hba (heq ▸ hx)

/-- A bundle does not reach the bundle that holds it. -/
lemma not_reaches (hd : Denotes h a t) (hb : b ∈ (h.node a).subs) : ¬h.Reaches b a := by
  obtain ⟨k, hk⟩ := hd.exists_tall
  exact hk.acyclic (hd.link hb)

/-- A bundle changes in the store as it does in the tree. -/
lemma modify (hd : Denotes h a t) {g : Node V (Tree V) → Node V (Tree V)}
    (hfg : ∀ S : ℕ → Tree V → Prop, (∀ c v, Denotes h c v → ¬h.Reaches c a → S c v) →
      Node.Rel S (h.node a) t.node →
      Node.Rel S (f (h.node a)) (g t.node)) : Denotes (h.modify a f) a (.mk (g t.node)) := by
  refine iff_rel.2 ⟨f (h.node a), ?_, hfg _ (fun c v hc hca => hc.modify_of_not_reaches hca f) ?_⟩
  · rw [getElem?_modify_eq, hd.node_eq.1]
    rfl
  · exact hd.rel.imp fun c hc v hcv => hcv.modify_of_not_reaches (hd.not_reaches hc) f

end Denotes

/-! ## The way down -/

/-- The bundles that stand on the way to the owner of the last segment. -/
def Heap.way (h : Heap V) : ℕ → List Seg → List ℕ
  | a, s :: s' :: path =>
    match (h.node a).spillScalar.sub s with
    | none => []
    | some b => b :: way h b (s' :: path)
  | _, _ => []

/-- No other field of a bundle on the way leads to the rest of the way. -/
def Heap.Apart (h : Heap V) : ℕ → List Seg → Prop
  | a, s :: s' :: path =>
    match (h.node a).spillScalar.sub s with
    | none => True
    | some b => (∀ c ∈ (h.node a).others s, ∀ x ∈ b :: h.way b (s' :: path), ¬h.Reaches c x) ∧
      Apart h b (s' :: path)
  | _, _ => True

attribute [local simp] way Heap.Apart Heap.enter Node.plug

namespace Denotes

lemma sub_rel (hd : Denotes h a t) (s : Seg) :
    Option.Rel (Denotes h) ((h.node a).spillScalar.sub s)
    (t.node.spillScalar.sub s) := hd.rel.spillScalar.sub s

/-- A chain of links down the way. -/
lemma isChain_way (hd : Denotes h a t) (path : List Seg) :
    (a :: h.way a path).IsChain (Linked.Link h.kids) := by
  induction path generalizing a t with
  | nil => exact .singleton _
  | cons s path ih =>
    cases path with
    | nil => exact .singleton _
    | cons s' path =>
      rw [way]
      cases hb : (h.node a).spillScalar.sub s with
      | none => exact .singleton _
      | some b =>
        have hmem := mem_subs_of_sub hb
        obtain ⟨u, hu⟩ := hd.rel.mem_subs hmem
        exact .cons_cons (hd.link hmem) (ih hu)

lemma reaches_of_mem_way (hd : Denotes h a t) {x : ℕ}
    (hx : x ∈ a :: h.way a path) : h.Reaches a x :=
  reaches_of_isChain (hd.isChain_way path) hx

end Denotes

lemma Heap.node_congr (hsa : h'[a]? = h[a]?) : h'.node a = h.node a := by simp [node, node, hsa]

section

variable (hd : Denotes h a t) (hsa : ∀ x, h.Reaches a x → h'[x]? = h[x]?)
include hd hsa

/-- The way is that of the bundles it can reach. -/
lemma Denotes.way_congr : h'.way a path = h.way a path := by
  induction path generalizing a t with
  | nil => rfl
  | cons s path ih =>
    cases path with
    | nil => rfl
    | cons s' path =>
      rw [way, way, node_congr (hsa a .refl)]
      cases hb : (h.node a).spillScalar.sub s with
      | none => rfl
      | some b =>
        have hmem := mem_subs_of_sub hb
        obtain ⟨u, hu⟩ := hd.rel.mem_subs hmem
        exact congrArg (b :: ·) (ih hu fun x hx => hsa x (.head (hd.link hmem) hx))

lemma Denotes.apart_congr (hapart : h.Apart a path) : h'.Apart a path := by
  induction path generalizing a t with
  | nil => trivial
  | cons s path ih =>
    cases path with
    | nil => trivial
    | cons s' path =>
      rw [Heap.Apart] at hapart ⊢
      rw [node_congr (hsa a .refl)]
      cases hb : (h.node a).spillScalar.sub s with
      | none => trivial
      | some b =>
        rw [hb] at hapart
        have hmem := mem_subs_of_sub hb
        obtain ⟨u, hu⟩ := hd.rel.mem_subs hmem
        have hbe : ∀ c ∈ (h.node a).subs, ∀ x, h.Reaches c x → h'[x]? = h[x]? :=
          fun c hc x hx => hsa x (.head (hd.link hc) hx)
        refine ⟨fun c hc x hx hcx => ?_, ih hu (hbe b hmem) hapart.2⟩
        rw [hu.way_congr (hbe b hmem)] at hx
        exact hapart.1 c hc x hx (reaches_congr (hbe c (mem_subs_of_others hc)) hcx)

end

lemma Heap.way_of_subs (hsu : (h.node a).subs = []) : h.way a path = [] := by
  match path with
  | [] | [_] => rfl
  | s :: s' :: path =>
    rw [way]
    cases hb : (h.node a).spillScalar.sub s with
    | none => rfl
    | some b => exact absurd (mem_subs_of_sub hb) (hsu ▸ not_mem_nil)

lemma Heap.apart_of_subs (hsu : (h.node a).subs = []) : h.Apart a path := by
  match path with
  | [] | [_] => trivial
  | s :: s' :: path =>
    rw [Heap.Apart]
    cases hb : (h.node a).spillScalar.sub s with
    | none => trivial
    | some b => exact absurd (mem_subs_of_sub hb) (hsu ▸ not_mem_nil)

/-- A bundle of the store that has no pointers is the tree of it alone. -/
lemma Denotes.of_info {i : Info V} (ha : h[a]? = some ⟨i, []⟩) : Denotes h a (.mk ⟨i, []⟩) :=
  iff_rel.2 ⟨_, ha, rfl, .nil⟩

variable {way : List ℕ}

section

variable [Dlop V]

lemma Heap.enter_of_sub (hb : (h.node a).spillScalar.sub s = some b) :
    h.enter a s = (h.set a ((h.node a).plug s b), b) := by
  obtain ⟨i, f, hi, -, -⟩ := sub_eq_some hb
  rw [enter, hi]
  rw [hb, plug_of_sub hb]

lemma Heap.enter_of_none (hb : (h.node a).spillScalar.sub s = none) :
    h.enter a s = (h.set a ((h.node a).plug s h.length) ++ [⟨(h.node a).held s, []⟩],
      h.length) := by
  rw [enter, plug, held, field]
  cases hi : (h.node a).spillScalar.findField s with
  | none => rfl
  | some i =>
    dsimp only
    rw [hb]
    have hl : (h.node a).spillScalar.modifyField i
        (fun f => { f with leaf := default, sub := some h.length }) =
        (h.node a).spillScalar.modifyField i fun f =>
        ⟨f.seg, if f.sub.isNone then default else f.leaf, some h.length⟩ := by
      refine congrArg (Node.mk (h.node a).spillScalar.toInfo) (modify_congr fun f hf => ?_)
      rw [sub, field, hi, bind_some, hf, bind_some] at hb
      rw [hb]
      rfl
    simp [hl]

/-- What the way down to the owner of the last segment of `path` leaves behind: the bundles off the
way stand as they did, and once the owner changes, the tree has changed at the path. -/
structure Reached (h r : Heap V) (a o : ℕ) (way : List ℕ) (t : Tree V)
    (path : List Seg) : Prop where
  length : h.length ≤ r.length
  same : ∀ x < h.length, x ∉ a :: way → r[x]? = h[x]?
  owner : o ∈ a :: way ∨ h.length ≤ o
  denotes : ∃ u, Denotes r o u ∧ ∀ (h₂ : Heap V) (f : Node V (Tree V) → Node V (Tree V)),
    (∀ x < r.length, x ≠ o → h₂[x]? = r[x]?) → Denotes h₂ o (.mk (f u.node)) →
    Denotes h₂ a (t.modifyOwner f path)
  after : ∀ h₂ : Heap V, (∀ x < r.length, x ≠ o → h₂[x]? = r[x]?) → h₂.Apart a path ∧
    ∀ x ∈ h₂.way a path, x ∈ way ∨ h.length ≤ x

/-- One step down, `h₁` being the store after it and `b` the bundle that it comes to. -/
lemma Reached.enter {way' : List ℕ} {s' : Seg} (hd : Denotes h a t) (hlen : h.length ≤ h₁.length)
    (hsa : ∀ x < h.length, x ≠ a → h₁[x]? = h[x]?) (ha : h₁[a]? = some ((h.node a).plug s b))
    (hway : ∀ x ∈ b :: way', (x ∈ way ∨ h.length ≤ x) ∧ x ≠ a ∧
      ∀ c ∈ (h.node a).others s, ¬h.Reaches c x)
    (hr : Reached h₁ r b o way' (t.child s) (s' :: path)) :
    Reached h r a o way t (s :: s' :: path) := by
  have hlt := hd.lt_length
  have hown := hr.owner
  have hsa' : ∀ x < h.length, x ≠ a → x ∉ b :: way' → r[x]? = h[x]? := fun x hx hxa hxw =>
    (hr.same x (hx.trans_le hlen) hxw).trans (hsa x hx hxa)
  have hnot : a ∉ b :: way' := fun hmem => (hway a hmem).2.1 rfl
  have hoa : o ≠ a := by
    rintro rfl
    rcases hown with hmem | hle
    · exact hnot hmem
    · exact absurd (hlt.trans_le hlen) (not_lt.2 hle)
  -- where the owner alone changes, the bundle at `a` has the new sub-bundle, and the others what
  -- they had
  have hce : ∀ h₂ : Heap V, (∀ x < r.length, x ≠ o → h₂[x]? = r[x]?) →
      h₂[a]? = some ((h.node a).plug s b) := by
    intro h₂ hh₂
    rw [hh₂ a (hlt.trans_le (hlen.trans hr.length)) hoa.symm,
      hr.same a (hlt.trans_le hlen) hnot, ha]
  have hsi : ∀ h₂ : Heap V, (∀ x < r.length, x ≠ o → h₂[x]? = r[x]?) →
      ∀ c ∈ (h.node a).others s, ∀ x, h.Reaches c x → h₂[x]? = h[x]? := by
    intro h₂ hh₂ c hc x hcx
    have hcm := mem_subs_of_others hc
    obtain ⟨v, hv⟩ := hd.rel.mem_subs hcm
    obtain ⟨w, hw⟩ := hv.of_reaches hcx
    have hx := hw.lt_length
    have hxa : x ≠ a := by
      rintro rfl
      exact hd.not_reaches hcm hcx
    have hxw : x ∉ b :: way' := fun hmem => (hway x hmem).2.2 c hc hcx
    have hxo : x ≠ o := by
      rintro rfl
      rcases hown with hmem | hle
      · exact hxw hmem
      · exact absurd (hx.trans_le hlen) (not_lt.2 hle)
    rw [hh₂ x (hx.trans_le (hlen.trans hr.length)) hxo, hsa' x hx hxa hxw]
  refine ⟨hlen.trans hr.length, ?_, ?_, ?_, ?_⟩
  · intro x hx hmem
    rw [mem_cons, not_or] at hmem
    refine hsa' x hx hmem.1 fun hxw => ?_
    rcases (hway x hxw).1 with hin | hle
    · exact hmem.2 hin
    · exact absurd hx (not_lt.2 hle)
  · rcases hown with hmem | hle
    · exact (hway o hmem).1.imp_left (mem_cons_of_mem _)
    · exact .inr (hlen.trans hle)
  · obtain ⟨u, hu, hma⟩ := hr.denotes
    refine ⟨u, hu, fun h₂ f hh₂ ho => ?_⟩
    refine Denotes.iff_rel.2 ⟨_, hce h₂ hh₂,
      hd.rel.plug (hma h₂ f hh₂ ho) fun c hc v hcv => hcv.congr fun x hx => ?_⟩
    exact hsi h₂ hh₂ c hc x hx
  · intro h₂ hh₂
    have hn : h₂.node a = (h.node a).plug s b := by simp [Heap.node, hce h₂ hh₂]
    obtain ⟨hsub, hot⟩ := (h.node a).plug_spec s b
    obtain ⟨hapart, hin⟩ := hr.after h₂ hh₂
    rw [Heap.Apart, Heap.way, hn, hsub, hot]
    have hway₂ : ∀ x ∈ b :: h₂.way b (s' :: path), x ∈ b :: way' ∨ h.length ≤ x := by
      intro x hx
      rcases mem_cons.1 hx with rfl | hx
      · exact .inl (.head _)
      · exact (hin x hx).imp (mem_cons_of_mem _) hlen.trans
    refine ⟨⟨fun c hc x hx hcx => ?_, hapart⟩, fun x hx => ?_⟩
    · have hcx' := reaches_congr (hsi h₂ hh₂ c hc) hcx
      rcases hway₂ x hx with hmem | hle
      · exact (hway x hmem).2.2 c hc hcx'
      · obtain ⟨v, hv⟩ := hd.rel.mem_subs (mem_subs_of_others hc)
        obtain ⟨w, hw⟩ := hv.of_reaches hcx'
        exact absurd hw.lt_length (not_lt.2 hle)
    · rcases hway₂ x hx with hmem | hle
      · exact (hway x hmem).1
      · exact .inr hle

/-- `descend_or_create` -/
lemma Denotes.descendOrCreate (hd : Denotes h a t) (hapart : h.Apart a path) :
    Reached h (h.descendOrCreate a path).1 a (h.descendOrCreate a path).2
    (h.way a path) t path := by
  induction path generalizing h a t with
  | nil => exact ⟨le_rfl, fun _ _ _ => rfl, .inl (.head _), ⟨t, hd, fun _ _ _ h => h⟩,
    fun _ _ => ⟨trivial, nofun⟩⟩
  | cons s path ih =>
    cases path with
    | nil => exact ⟨le_rfl, fun _ _ _ => rfl, .inl (.head _), ⟨t, hd, fun _ _ _ h => h⟩,
      fun _ _ => ⟨trivial, nofun⟩⟩
    | cons s' path =>
      have hsub := hd.sub_rel s
      have hlt := hd.lt_length
      rw [descendOrCreate, way]
      rw [Heap.Apart] at hapart
      cases hb : (h.node a).spillScalar.sub s with
      | some b =>
        rw [hb] at hapart
        obtain ⟨hot, hapart⟩ := hapart
        have hmem := mem_subs_of_sub hb
        have hch : Denotes h b (t.child s) := by
          rw [hb] at hsub
          rw [Tree.child]
          generalize t.node.spillScalar.sub s = x at hsub
          cases hsub with
          | some hu => exact hu
        have hsa : ∀ x, x ≠ a → (h.set a ((h.node a).plug s b))[x]? = h[x]? := fun x hx =>
          getElem?_set_ne hx.symm
        have hbe : ∀ x, h.Reaches b x → (h.set a ((h.node a).plug s b))[x]? = h[x]? := by
          intro x hx
          refine hsa x ?_
          rintro rfl
          exact hd.not_reaches hmem hx
        have hr := ih (hch.congr hbe) (hch.apart_congr hbe hapart)
        rw [hch.way_congr hbe] at hr
        rw [enter_of_sub hb]
        refine hr.enter hd (by simp) (fun x _ hx => hsa x hx) (getElem?_set_self hlt) ?_
        intro x hx
        refine ⟨.inl hx, ?_, fun c hc => hot c hc x hx⟩
        rintro rfl
        exact hd.not_reaches hmem (hch.reaches_of_mem_way hx)
      | none =>
        rw [enter_of_none hb]
        have hl : t.child s = .mk ⟨(h.node a).held s, []⟩ := by
          rw [hb] at hsub
          rw [Tree.child, hd.rel.held]
          generalize t.node.spillScalar.sub s = x at hsub
          cases hsub
          rfl
        have hlen : (h.set a ((h.node a).plug s h.length)).length = h.length := length_set
        have hnew : (h.set a ((h.node a).plug s h.length) ++ [⟨(h.node a).held s, []⟩])[h.length]? =
            some ⟨(h.node a).held s, []⟩ := by
          rw [getElem?_append_right hlen.le, hlen, Nat.sub_self]
          rfl
        have hold : ∀ x < h.length, (h.set a ((h.node a).plug s h.length) ++
            [⟨(h.node a).held s, []⟩])[x]? =
            (h.set a ((h.node a).plug s h.length))[x]? := fun x hx =>
            getElem?_append_left (hlen.symm ▸ hx)
        have hle : h.length ≤ (h.set a ((h.node a).plug s h.length) ++
            [(⟨(h.node a).held s, []⟩ : Node V ℕ)]).length := by
          rw [length_append, hlen]
          exact Nat.le_add_right _ _
        generalize h.set a ((h.node a).plug s h.length) ++
          [(⟨(h.node a).held s, []⟩ : Node V ℕ)] = h₁ at hnew hold hle ⊢
        have hsu : (Heap.node h₁ h.length).subs = [] := by
          rw [Heap.node, getD_eq_getElem?_getD, hnew]
          rfl
        have hr := ih (h := h₁) (a := h.length) (t := t.child s)
          (hl ▸ .of_info hnew) (apart_of_subs hsu)
        rw [way_of_subs hsu] at hr
        refine hr.enter hd hle (fun x hx hxa => (hold x hx).trans (getElem?_set_ne hxa.symm))
          ((hold a hlt).trans (getElem?_set_self hlt)) ?_
        intro x hx
        obtain rfl := mem_singleton.1 hx
        refine ⟨.inr le_rfl, hlt.ne', fun c hc hcx => ?_⟩
        obtain ⟨u, hu⟩ := hd.rel.mem_subs (mem_subs_of_others hc)
        obtain ⟨v, hv⟩ := hu.of_reaches hcx
        exact lt_irrefl _ hv.lt_length

end

/-! ## Deep copies -/

/-- A tree of new bundles. -/
structure Copied (h h' : Heap V) (a : ℕ) (t : Tree V) : Prop where
  length : h.length ≤ h'.length
  same : ∀ x < h.length, h'[x]? = h[x]?
  denotes : Denotes h' a t
  fresh : ∀ x, h'.Reaches a x → h.length ≤ x

lemma Denotes.grow (hd : Denotes h a t) (hsa : ∀ x < h.length, h'[x]? = h[x]?) : Denotes h' a t :=
  hd.of_same fun x hx _ => hsa x hx

/-- A copy outlives the growth of the store. -/
lemma Copied.grow (hc : Copied h h₁ a t) (hlen : h₁.length ≤ h₂.length)
    (hsa : ∀ x < h₁.length, h₂[x]? = h₁[x]?) : Copied h h₂ a t := by
  refine ⟨hc.length.trans hlen, fun x hx => (hsa x (hx.trans_le hc.length)).trans (hc.same x hx),
    hc.denotes.grow hsa, ?_⟩
  intro x hx
  refine hc.fresh x (reaches_congr (fun y hy => ?_) hx)
  obtain ⟨u, hu⟩ := hc.denotes.of_reaches hy
  exact hsa y hu.lt_length

lemma Copied.of_length (hc : Copied h₁ h₂ a t) (hlen : h.length ≤ h₁.length)
    (hsa : ∀ x < h.length, h₁[x]? = h[x]?) : Copied h h₂ a t :=
  ⟨hlen.trans hc.length, fun x hx => (hc.same x (hx.trans_le hlen)).trans (hsa x hx), hc.denotes,
    fun x hx => hlen.trans (hc.fresh x hx)⟩

/-- The copies of the fields of a bundle. -/
lemma cloneFields_copied {copy : Heap V → ℕ → Heap V × ℕ} {fuel : ℕ} {fs : List (Field V ℕ)}
    {gs : List (Field V (Tree V))}
    (hco : ∀ (h : Heap V) b v k, Denotes h b v → Linked.Tall h.kids k b → k ≤ fuel →
      Copied h (copy h b).1 (copy h b).2 v)
    (hrel : Forall₂ (Field.Rel (Denotes h)) fs gs)
    (hta : ∀ f ∈ fs, ∀ b, f.sub = some b → ∃ k ≤ fuel, Linked.Tall h.kids k b) :
    h.length ≤ (cloneFields copy h fs).1.length ∧
    (∀ x < h.length, (cloneFields copy h fs).1[x]? = h[x]?) ∧
    Forall₂ (Field.Rel (Copied h (cloneFields copy h fs).1)) (cloneFields copy h fs).2 gs := by
  induction fs generalizing h gs with
  | nil =>
    cases hrel
    exact ⟨le_rfl, fun _ _ => rfl, .nil⟩
  | cons f fs ih =>
    obtain ⟨g, gs, hfg, ht, rfl⟩ := forall₂_cons_left_iff.1 hrel
    have hr := fun f hf => hta f (.tail _ hf)
    obtain ⟨hseg, hlf, hsub⟩ := hfg
    rw [cloneFields]
    cases hf : f.sub with
    | none =>
      obtain ⟨hlen, hsa, hall⟩ := ih ht hr
      refine ⟨hlen, hsa, .cons ⟨hseg, hlf, ?_⟩ hall⟩
      rw [hf] at hsub ⊢
      generalize g.sub = y at hsub
      cases hsub
      exact .none
    | some b =>
      obtain ⟨k, hk, hb⟩ := hta f (.head _) b hf
      rw [hf] at hsub
      generalize hy : g.sub = y at hsub
      cases hsub with
      | some hbv =>
        have hc := hco h b _ k hbv hb hk
        have hks : ∀ c l, h.kids c = some l → (copy h b).1.kids c = some l := by
          intro c l hl
          have hlt : c < h.length := by
            by_contra hle
            rw [Heap.kids, getElem?_eq_none (not_lt.1 hle)] at hl
            cases hl
          rwa [Heap.kids, hc.same c hlt]
        obtain ⟨hlen, hsa, hall⟩ := ih (h := (copy h b).1)
          (ht.imp fun _ _ hfg => hfg.imp fun _ _ _ hd => hd.grow hc.same) fun f hf c hfc => by
            obtain ⟨k, hk, hc⟩ := hr f hf c hfc
            exact ⟨k, hk, hc.congr hks⟩
        refine ⟨hc.length.trans hlen, fun x hx =>
          (hsa x (hx.trans_le hc.length)).trans (hc.same x hx),
          .cons ⟨hseg, hlf, ?_⟩ (hall.imp fun _ _ hfg => hfg.imp
            fun _ _ _ hd => hd.of_length hc.length hc.same)⟩
        rw [hy]
        exact .some (hc.grow hlen hsa)

lemma cloneFuel_copied {fuel k : ℕ} (hd : Denotes h a t)
    (hk : Linked.Tall h.kids k a) (hle : k ≤ fuel) :
    Copied h (h.cloneFuel fuel a).1 (h.cloneFuel fuel a).2 t := by
  induction fuel generalizing h a t k with
  | zero => exact absurd hle (not_le.2 hk.pos)
  | succ fuel ih =>
    have hta : ∀ f ∈ (h.node a).fields, ∀ b, f.sub = some b →
        ∃ m ≤ fuel, Linked.Tall h.kids m b := by
      intro f hf b hb
      obtain ⟨m, hm, hb⟩ := hk.link (hd.link (mem_filterMap.2 ⟨f, hf, hb⟩))
      exact ⟨m, by omega, hb⟩
    obtain ⟨hlen, hsa, hall⟩ := cloneFields_copied (fun h b v k => ih) hd.rel.fields hta
    rw [cloneFuel, alloc]
    generalize cloneFields (cloneFuel fuel) h (h.node a).fields = r at hlen hsa hall ⊢
    have hgro : ∀ x < r.1.length, (r.1 ++ [{ h.node a with fields := r.2 }])[x]? = r.1[x]? :=
      fun x hx => getElem?_append_left hx
    have hgr : ∀ c v, Copied h r.1 c v → Copied h (r.1 ++ [{ h.node a with fields := r.2 }]) c v :=
      fun c v hc => hc.grow (by simp) hgro
    have hnew : (r.1 ++ [{ h.node a with fields := r.2 }])[r.1.length]? =
      some { h.node a with fields := r.2 } := by simp
    have hde : Denotes (r.1 ++ [{ h.node a with fields := r.2 }]) r.1.length t :=
      Denotes.iff_rel.2 ⟨_, hnew, hd.rel.info,
        hall.imp fun _ _ hfg => hfg.imp fun c v _ hc => (hgr c v hc).denotes⟩
    refine ⟨hlen.trans (by simp), fun x hx => (hgro x (hx.trans_le hlen)).trans (hsa x hx), hde,
      fun x hx => ?_⟩
    rcases ReflTransGen.cases_head hx with rfl | ⟨c, hli, hcx⟩
    · exact hlen
    · have hmem := hde.mem_subs_of_link hli
      rw [Heap.node, getD_eq_getElem?_getD, hnew] at hmem
      have hrel : Node.Rel (Copied h r.1) { h.node a with fields := r.2 } t.node :=
        ⟨hd.rel.info, hall⟩
      obtain ⟨v, hv⟩ := hrel.mem_subs hmem
      exact (hgr c v hv).fresh x hcx

lemma Denotes.clone (hd : Denotes h a t) : Copied h (h.clone a).1 (h.clone a).2 t := by
  obtain ⟨k, hk⟩ := hd.exists_tall
  refine cloneFuel_copied hd hk (hk.le_card fun x hx => ?_)
  by_contra hle
  rw [Heap.kids, getElem?_eq_none (not_lt.1 hle)] at hx
  cases hx

/-! ## Writes -/

/-- The tree at `a` has changed, the bundles off the way stand as they did, and the way is still
apart from the rest of the tree. -/
structure Wrote (h h' : Heap V) (a : ℕ) (path : List Seg) (way : List ℕ) (t : Tree V) : Prop where
  length : h.length ≤ h'.length
  same : ∀ x < h.length, x ∉ a :: way → h'[x]? = h[x]?
  denotes : Denotes h' a t
  after : h'.Apart a path ∧ ∀ x ∈ h'.way a path, x ∈ way ∨ h.length ≤ x

lemma Wrote.frame (hw : Wrote h h' a path way t) (hd : Denotes h b u)
    (hoff : ∀ x ∈ a :: way, ¬h.Reaches b x) : Denotes h' b u :=
  hd.of_same fun x hx hbx => hw.same x hx fun hmem => hoff x hmem hbx

lemma Wrote.trans (hw : Wrote h h₁ a path way t) (hw' : Wrote h₁ h₂ a path (h₁.way a path) u) :
    Wrote h h₂ a path way u := by
  have hin : ∀ x, x ∈ h₁.way a path ∨ h₁.length ≤ x → x ∈ way ∨ h.length ≤ x := by
    rintro x (hmem | hle)
    · exact hw.after.2 x hmem
    · exact .inr (hw.length.trans hle)
  refine ⟨hw.length.trans hw'.length, fun x hx hmem => ?_, hw'.denotes, hw'.after.1,
    fun x hx => hin x (hw'.after.2 x hx)⟩
  rw [mem_cons, not_or] at hmem
  rw [hw'.same x (hx.trans_le hw.length) ?_, hw.same x hx (by simpa using hmem)]
  rw [mem_cons, not_or]
  refine ⟨hmem.1, fun hway => ?_⟩
  rcases hin x (.inl hway) with hme' | hle
  · exact hmem.2 hme'
  · exact absurd hx (not_lt.2 hle)

/-- What is done to the rest of the bundle at an address. -/
lemma Denotes.modify_info (hd : Denotes h a t) (f : Info V → Info V) :
    Denotes (h.modify a fun n => ⟨f n.toInfo, n.fields⟩) a (.mk ⟨f t.node.toInfo, t.node.fields⟩) :=
  hd.modify (f := fun n => ⟨f n.toInfo, n.fields⟩) (g := fun n => ⟨f n.toInfo, n.fields⟩)
    fun _ _ hrel => hrel.info_map f

namespace Node

variable {n m : Node V σ}

lemma field_congr (h : n.fields = m.fields) (s : Seg) : n.field s = m.field s := by
  rw [field, field, findField_congr (congrArg _ h), h]

lemma sub_congr (h : n.fields = m.fields) (s : Seg) : n.sub s = m.sub s := by
    rw [sub, sub, field_congr h]

lemma others_congr (h : n.spillScalar.fields = m.spillScalar.fields) (s : Seg) :
    n.others s = m.others s := by
  rw [others, others, findField_congr (congrArg _ h), subs, subs, h]

/-- The fields after a spill come from the fields and the scalar. -/
lemma fields_spillScalar (h : n.fields = m.fields) (hs : n.scalar = m.scalar) :
    n.spillScalar.fields = m.spillScalar.fields := by
  rw [spillScalar, spillScalar, hs]
  cases m.scalar with
  | none => exact h
  | some e => exact congrArg (· ++ _) h

end Node

/-- The rest of a bundle does not matter to the way down from it. -/
lemma Denotes.way_modify_info (hd : Denotes h a t) {f : Info V → Info V}
    (hf : ∀ i, (f i).scalar = i.scalar) :
    Heap.way (h.modify a fun n => ⟨f n.toInfo, n.fields⟩) a path = h.way a path ∧
    (h.Apart a path → Heap.Apart (h.modify a fun n => ⟨f n.toInfo, n.fields⟩) a path) := by
  rcases path with - | ⟨s, - | ⟨s', path⟩⟩
  · exact ⟨rfl, fun _ => trivial⟩
  · exact ⟨rfl, fun _ => trivial⟩
  · have hn : Heap.node (h.modify a fun n => ⟨f n.toInfo, n.fields⟩) a =
        ⟨f (h.node a).toInfo, (h.node a).fields⟩ := by
      rw [Heap.node, getD_eq_getElem?_getD, getElem?_modify_eq, hd.node_eq.1]
      rfl
    have hfi : (⟨f (h.node a).toInfo, (h.node a).fields⟩ : Node V ℕ).spillScalar.fields =
        (h.node a).spillScalar.fields :=
      fields_spillScalar rfl (hf _)
    rw [way, way, Heap.Apart, Heap.Apart, hn, sub_congr hfi, others_congr hfi]
    cases hb : (h.node a).spillScalar.sub s with
    | none => exact ⟨rfl, fun _ => trivial⟩
    | some b =>
      have hbe : ∀ c ∈ (h.node a).subs, ∀ x, h.Reaches c x →
          (h.modify a fun n => (⟨f n.toInfo, n.fields⟩ : Node V ℕ))[x]? = h[x]? := by
        intro c hc x hx
        refine getElem?_modify_ne _ _ ?_
        rintro rfl
        exact hd.not_reaches hc hx
      have hmem := mem_subs_of_sub hb
      obtain ⟨u, hu⟩ := hd.rel.mem_subs hmem
      have hway : _ = h.way b (s' :: path) := hu.way_congr (hbe b hmem)
      refine ⟨congrArg (b :: ·) hway, ?_⟩
      rintro ⟨hot, hapart⟩
      refine ⟨fun c hc x hx hcx => ?_, hu.apart_congr (hbe b hmem) hapart⟩
      rw [hway] at hx
      exact hot c hc x hx (reaches_congr (hbe c (mem_subs_of_others hc)) hcx)

lemma Wrote.modify_info (hw : Wrote h h' a path way t) {f : Info V → Info V}
    (hf : ∀ i, (f i).scalar = i.scalar) :
    Wrote h (h'.modify a fun n => ⟨f n.toInfo, n.fields⟩) a path way
    (.mk ⟨f t.node.toInfo, t.node.fields⟩) := by
  obtain ⟨(hway : _ = h'.way a path), hapart⟩ := hw.denotes.way_modify_info hf
  refine ⟨by
    rw [length_modify]; exact hw.length, fun x hx hmem => ?_,
      hw.denotes.modify_info f, hapart hw.after.1, ?_⟩
  · have hne : a ≠ x := fun heq => hmem (heq ▸ (.head _))
    exact (getElem?_modify_ne _ _ hne).trans (hw.same x hx hmem)
  · rw [hway]
    exact hw.after.2

/-- A change to a bundle that keeps to its pointers, by a path that does not leave it. -/
lemma Denotes.wrote_root (hd : Denotes h a t) (f : Info V → Info V) (hp : path.length ≤ 1) :
    Wrote h (h.modify a fun n => ⟨f n.toInfo, n.fields⟩) a path (h.way a path)
    (.mk ⟨f t.node.toInfo, t.node.fields⟩) := by
  refine ⟨by rw [length_modify], fun x _ hmem => ?_, hd.modify_info f, ?_⟩
  · have hne : a ≠ x := fun heq => hmem (heq ▸ (.head _))
    exact getElem?_modify_ne _ _ hne
  · match path, hp with
    | [], _ | [_], _ => exact ⟨trivial, nofun⟩

namespace Node

/-- The leaf of a field that is overwritten does not matter. -/
lemma putField_clearLeaf [Dlop V] (n : Node V σ) (s : Seg) (e : Entry V) (x : Option σ) :
    (n.clearLeaf s).putField ⟨s, e, x⟩ = n.putField ⟨s, e, x⟩ := by
  rw [clearLeaf]
  cases hi : n.findField s with
  | none => rfl
  | some i =>
    have hfi : (n.modifyField i fun f => { f with leaf := default }).findField s = some i := by
      rw [findField_congr (n.segs_modifyField
        (f := fun f => { f with leaf := default }) fun g => rfl), hi]
    rw [putField, putField, hfi, hi]
    exact congrArg (Node.mk n.toInfo) (modify_modify_eq _ _ _ _)

lemma Rel.clearLeaf [Dlop V] {τ : Type*} {R : σ → τ → Prop} {n : Node V σ}
    {m : Node V τ} (h : Node.Rel R n m) :
    Node.Rel R (n.clearLeaf s) (m.clearLeaf s) := by
  rw [Node.clearLeaf, Node.clearLeaf, h.findField]
  cases m.findField s with
  | none => exact h
  | some i => exact h.modifyField (fun a b _ hab => ⟨hab.seg, rfl, hab.sub⟩) fun _ _ _ h => h

lemma Rel.spillPut {τ : Type*} {R : σ → τ → Prop} {n : Node V σ} {m : Node V τ}
    (h : Node.Rel R n m) (e : Entry V) :
    Node.Rel R (n.spillScalar.putField ⟨s, e, none⟩) (m.spillScalar.putField ⟨s, e, none⟩) :=
  h.spillScalar.putField ⟨rfl, rfl, .none⟩

end Node

section

variable [Dlop V]

/-- The owner at the end of the way changes. -/
lemma Reached.modify (hr : Reached h r a o way t path)
    {g : Node V (Tree V) → Node V (Tree V)}
    (hfg : ∀ (S : ℕ → Tree V → Prop) n m, Node.Rel S n m → Node.Rel S (f n) (g m)) :
    Wrote h (r.modify o f) a path way (t.modifyOwner g path) := by
  obtain ⟨u, hu, hma⟩ := hr.denotes
  have hsa : ∀ x < r.length, x ≠ o → (r.modify o f)[x]? = r[x]? := fun x _ hne =>
    getElem?_modify_ne _ _ hne.symm
  refine ⟨by rw [length_modify]; exact hr.length, fun x hx hmem => ?_, ?_, hr.after _ hsa⟩
  · have hne : o ≠ x := by
      rintro rfl
      exact hr.owner.elim hmem (not_le.2 hx)
    exact (getElem?_modify_ne _ _ hne).trans (hr.same x hx hmem)
  · exact hma _ g hsa (hu.modify fun S _ hrel => hfg S _ _ hrel)

lemma Heap.enter_spill : enter (h.modify a spillScalar) a s = h.enter a s := by
  have hn : Heap.node (h.modify a spillScalar) a = (h.node a).spillScalar := by
    rw [node, node, getD_eq_getElem?_getD, getD_eq_getElem?_getD, getElem?_modify_eq]
    cases h[a]? <;> rfl
  have hset : ∀ n, (h.modify a spillScalar).set a n = h.set a n := by
    intro n
    refine ext_getElem? fun x => ?_
    rw [getElem?_set, getElem?_set, length_modify]
    rcases eq_or_ne a x with rfl | hne
    · simp
    · rw [if_neg hne, if_neg hne]
      exact getElem?_modify_ne _ _ hne
  rw [enter, enter, hn, spillScalar_spillScalar, length_modify]
  simp only [hset]

/-- The owner does what the root did before. -/
lemma Heap.descendOrCreate_spill (path : List Seg) (hf : ∀ n, f n.spillScalar = f n) :
    ((descendOrCreate (h.modify a spillScalar) a path).1.modify
      (descendOrCreate (h.modify a spillScalar) a path).2 f,
      (descendOrCreate (h.modify a spillScalar) a path).2) =
    ((h.descendOrCreate a path).1.modify (h.descendOrCreate a path).2 f,
      (h.descendOrCreate a path).2) := by
  have hr : (h.modify a spillScalar).modify a f = h.modify a f := by
    rw [modify_modify_eq]
    exact modify_congr fun n _ => hf n
  match path with
  | [] | [_] =>
    simp only [descendOrCreate]
    rw [hr]
  | s :: s' :: path => rw [descendOrCreate, descendOrCreate, enter_spill]

lemma Denotes.setEntry (hd : Denotes h a t) (hapart : h.Apart a path) (e : Entry V) :
    Wrote h (h.setEntry a path e) a path (h.way a path) (t.setEntry path e) := by
  have hnil := hd.rel.fields_eq_nil
  rw [Heap.setEntry, Tree.setEntry]
  by_cases h0 : path = [.zero] ∧ t.node.fields = []
  · rw [if_pos h0, if_pos (h0.imp_right hnil.2)]
    exact hd.wrote_root (fun i => { i with scalar := some e }) (h0.1 ▸ le_rfl)
  · rw [if_neg h0, if_neg fun hz => h0 (hz.imp_right hnil.1)]
    have hw := (hd.descendOrCreate hapart).modify fun _ _ _ hrel =>
      hrel.spillPut (s := lastSeg path) e
    have hsp := congrArg Prod.fst (descendOrCreate_spill (h := h) (a := a) path
      (f := fun n => n.spillScalar.putField ⟨lastSeg path, e, none⟩)
        fun n => by rw [spillScalar_spillScalar])
    dsimp only at hsp ⊢
    rwa [hsp]

lemma Heap.makeRoom_eq : h.makeRoom a path =
    ((h.descendOrCreate a path).1.modify (h.descendOrCreate a path).2
    fun n => n.spillScalar.clearLeaf (lastSeg path), (h.descendOrCreate a path).2) := by
  exact descendOrCreate_spill path fun n => by rw [spillScalar_spillScalar]

section

variable (hd : Denotes h a t) (hapart : h.Apart a path) (hb : Denotes h b u)
  (hoff : ∀ x ∈ a :: h.way a path, ¬h.Reaches b x)
include hd hapart hb hoff

lemma Denotes.graft : Wrote h (h.graft a path b) a path (h.way a path)
    (t.put path default (some u)) := by
  have hr := hd.descendOrCreate hapart
  obtain ⟨v, hv, hma⟩ := hr.denotes
  rw [Heap.graft, makeRoom_eq]
  generalize (h.descendOrCreate a path).1 = r at hr hv hma ⊢
  generalize (h.descendOrCreate a path).2 = o at hr hv hma ⊢
  have hbe : ∀ x, h.Reaches b x → r[x]? = h[x]? := by
    intro x hx
    obtain ⟨w, hw⟩ := hb.of_reaches hx
    exact hr.same x hw.lt_length fun hmem => hoff x hmem hx
  -- the copied bundle does not reach the owner
  have hbo : ¬r.Reaches b o := by
    intro hre
    have hre' := reaches_congr hbe hre
    rcases hr.owner with hmem | hle
    · exact hoff o hmem hre'
    · obtain ⟨w, hw⟩ := hb.of_reaches hre'
      exact absurd hw.lt_length (not_lt.2 hle)
  have hroo := hv.modify (f := fun n => n.spillScalar.clearLeaf (lastSeg path))
    (g := fun n => n.spillScalar.clearLeaf (lastSeg path)) fun _ _ hrel =>
      hrel.spillScalar.clearLeaf
  have hco := ((hb.congr hbe).modify_of_not_reaches hbo
    fun n => n.spillScalar.clearLeaf (lastSeg path)).clone
  have hrm : ∀ x, x ≠ o → (r.modify o fun n => n.spillScalar.clearLeaf (lastSeg path))[x]? =
      r[x]? :=
    fun x hne => getElem?_modify_ne _ _ hne.symm
  have hro : (r.modify o fun n => n.spillScalar.clearLeaf (lastSeg path)).length =
    r.length := length_modify ..
  generalize (r.modify o fun n => n.spillScalar.clearLeaf (lastSeg path)) = r₂ at hroo hco hrm hro ⊢
  have hput := (hroo.grow hco.same).modify
    (f := fun n => n.putField ⟨lastSeg path, default, some (Heap.clone r₂ b).2⟩)
    (g := fun n => n.putField ⟨lastSeg path, default, some u⟩) fun S hS hrel => hrel.putField
      ⟨rfl, rfl,
        .some (hS _ _ hco.denotes fun hre => absurd hroo.lt_length (not_lt.2 (hco.fresh o hre)))⟩
  rw [Tree.node, putField_clearLeaf] at hput
  have hsa : ∀ x < r.length, x ≠ o → ((Heap.clone r₂ b).1.modify o
      fun n => n.putField ⟨lastSeg path, default, some (Heap.clone r₂ b).2⟩)[x]? = r[x]? := by
    intro x hx hne
    have hst := getElem?_modify_ne
      (fun n : Node V ℕ => n.putField ⟨lastSeg path, default, some (Heap.clone r₂ b).2⟩)
      (Heap.clone r₂ b).1 hne.symm
    rw [hst, hco.same x (hro ▸ hx), hrm x hne]
  refine ⟨?_, ?_, ?_, hr.after _ hsa⟩
  · rw [length_modify]
    exact hr.length.trans (hro ▸ hco.length)
  · intro x hx hmem
    refine (hsa x (hx.trans_le hr.length) ?_).trans (hr.same x hx hmem)
    rintro rfl
    exact hr.owner.elim hmem (not_le.2 hx)
  · exact hma _ (fun n => n.spillScalar.putField ⟨lastSeg path, default, some u⟩) hsa hput

lemma Denotes.setBundle : Wrote h (h.setBundle a path b) a path (h.way a path)
    (t.setBundle path u) := by
  have hba := hb.rel.bareScalar
  have hatt := hb.rel.attrs
  have hco := hb.rel.correct
  rw [Heap.setBundle, Tree.setBundle, hba, hatt, hco]
  cases u.node.bareScalar with
  | some e =>
    exact (hd.setEntry hapart e).modify_info (f := fun i => { i with
      attrs := (u.node.attrs.map fun kv => (path ++ kv.1, kv.2)).foldl
        (fun m kv => insertOrAssign m kv.1 kv.2) i.attrs
      correct := i.correct && u.node.correct }) fun _ => rfl
  | none =>
    exact (hd.graft hapart hb hoff).modify_info (f := fun i => { i with
      attrs := (u.node.attrs.map fun kv => (path ++ kv.1, kv.2)).foldl
        (fun m kv => insertOrAssign m kv.1 kv.2) i.attrs
      correct := i.correct && u.node.correct }) fun _ => rfl

end

end

/-! ## Reads -/

section

variable (hd : Denotes h a t) (path : List Seg)
include hd

lemma Denotes.descend : Option.Rel (fun o n => ∃ u, Denotes h o u ∧ u.node = n)
    (h.descend a path) (t.owner path) := by
  induction path generalizing a t with
  | nil => exact .some ⟨t, hd, rfl⟩
  | cons s path ih =>
    cases path with
    | nil => exact .some ⟨t, hd, rfl⟩
    | cons s' path =>
      have hsub := hd.rel.sub s
      rw [descend, Tree.owner, hd.rel.scalar]
      split
      · exact .none
      · generalize (h.node a).sub s = x at hsub
        generalize t.node.sub s = y at hsub
        cases hsub with
        | none => exact .none
        | some hu => exact ih hu

lemma Denotes.entry : h.entry a path = t.entry path := by
  have hde := hd.descend path
  rw [Heap.entry, Tree.entry, hd.rel.scalar]
  cases t.node.scalar with
  | some e => rfl
  | none =>
    cases path.getLast? with
    | none => rfl
    | some last =>
      generalize h.descend a path = x at hde
      generalize t.owner path = y at hde
      cases hde with
      | none => rfl
      | some hu =>
        obtain ⟨u, hu, rfl⟩ := hu
        exact hu.rel.leaf last

lemma Denotes.hasTrivial : h.hasTrivial a path = t.hasTrivial path :=
  congrArg isSome (hd.entry path)

end

lemma Heap.alloc_copied (h : Heap V) (i : Info V) :
    Copied h (h.alloc ⟨i, []⟩).1 (h.alloc ⟨i, []⟩).2 (.mk ⟨i, []⟩) := by
  have hnew : (h ++ [(⟨i, []⟩ : Node V ℕ)])[h.length]? = some ⟨i, []⟩ := by simp
  have hde := Denotes.of_info hnew
  refine ⟨by simp [alloc], fun x hx => getElem?_append_left hx, hde, fun x hx => ?_⟩
  rcases cases_head hx with rfl | ⟨c, hli, -⟩
  · exact le_rfl
  · have hmem := hde.mem_subs_of_link hli
    rw [node, getD_eq_getElem?_getD, hnew] at hmem
    cases hmem

lemma Copied.modify_info (hc : Copied h h' a t) (f : Info V → Info V) :
    Copied h (h'.modify a fun n => ⟨f n.toInfo, n.fields⟩) a
    (.mk ⟨f t.node.toInfo, t.node.fields⟩) := by
  have hle := hc.fresh a .refl
  have hks : Heap.kids (h'.modify a fun n => ⟨f n.toInfo, n.fields⟩) = h'.kids := by
    funext x
    rw [Heap.kids, Heap.kids, getElem?_modify]
    cases h'[x]? with
    | none => rfl
    | some n => split <;> rfl
  refine ⟨by
    rw [length_modify]; exact hc.length, fun x hx => ?_, hc.denotes.modify_info f, fun x hx => ?_⟩
  · exact (getElem?_modify_ne _ _ (hx.trans_le hle).ne').trans (hc.same x hx)
  · rw [Heap.Reaches, hks] at hx
    exact hc.fresh x hx

lemma Denotes.getData (hd : Denotes h a t) (path : List Seg) :
    Option.Rel (fun r u => Copied h r.1 r.2 u) (h.getData a path) (t.getData path) := by
  have hde := hd.descend path
  rw [Heap.getData, Tree.getData, hd.rel.scalar]
  cases t.node.scalar with
  | some e =>
    dsimp only
    split
    · exact .some (h.alloc_copied _)
    · exact .none
  | none =>
    cases path.getLast? with
    | none => exact .none
    | some last =>
      generalize h.descend a path = x at hde
      generalize t.owner path = y at hde
      cases hde with
      | none => exact .none
      | some hu =>
        obtain ⟨u, hu, rfl⟩ := hu
        have hf := hu.rel.field last
        rw [bind_some, bind_some, bind_some, bind_some]
        generalize field _ last = x at hf
        generalize u.node.field last = y at hf
        cases hf with
        | none => exact .none
        | @some f g hfg =>
          obtain ⟨-, hl, hsub⟩ := hfg
          refine .some ?_
          dsimp only
          generalize f.sub = x at hsub
          generalize g.sub = y at hsub
          cases hsub with
          | none =>
            rw [hl]
            exact h.alloc_copied _
          | some hv => exact hv.clone

lemma Denotes.getBundle (hd : Denotes h a t) (path : List Seg) :
    Option.Rel (fun r u => Copied h r.1 r.2 u) (h.getBundle a path) (t.getBundle path) := by
  have hda := hd.getData path
  have hdo : ∀ (r : Heap V × ℕ) u, Copied h r.1 r.2 u →
      Copied h (r.1.modify r.2 fun n => { n.putAttrs (attrsUnder t.node.attrs path) with
      correct := n.correct && t.node.correct }) r.2
        (.mk { u.node.putAttrs (attrsUnder t.node.attrs path) with
      correct := u.node.correct && t.node.correct }) := fun r u hc =>
        hc.modify_info fun i => { i with
    attrs := (attrsUnder t.node.attrs path).foldl (fun m kv => insertOrAssign m kv.1 kv.2) i.attrs
    correct := i.correct && t.node.correct }
  rw [Heap.getBundle, Tree.getBundle]
  split
  · exact .some hd.clone
  · rw [hd.rel.attrs, hd.rel.correct]
    generalize h.getData a path = x at hda
    generalize t.getData path = y at hda
    cases hda with
    | some hc => exact .some (hdo _ _ hc)
    | none =>
      dsimp only
      split
      · exact .none
      · exact .some (hdo _ _ (h.alloc_copied {}))

section

variable [Dlop V]

lemma Denotes.getEntry (hd : Denotes h a t) (path : List Seg) :
    h.getEntry a path = t.getEntry path :=
  congrArg (getD · invalidEntry) (hd.entry path)

lemma Denotes.getTrivial (hd : Denotes h a t) (path : List Seg) :
    h.getTrivial a path = t.getTrivial path :=
  congrArg Entry.trivial (hd.getEntry path)

lemma Denotes.setTrivial (hd : Denotes h a t) (hapart : h.Apart a path) (v : V) :
    Wrote h (h.setTrivial a path v) a path (h.way a path) (t.setTrivial path v) := by
  rw [Heap.setTrivial, hd.getEntry]
  exact hd.setEntry hapart _

end

/-! ## Owned bundles -/

/-- The references of the store. -/
abbrev Heap.useCount (h : Heap V) (refs : List ℕ)
    (x : ℕ) : ℕ := Linked.useCount h.kids h.length refs x

variable {refs : List ℕ}

section

variable (hrefs : ∀ r ∈ refs, ∃ t, Denotes h r t)
include hrefs

lemma Heap.held : Linked.Held h.kids h.length refs := by
  constructor
  · intro x hx
    by_contra hle
    rw [kids, getElem?_eq_none (not_lt.1 hle)] at hx
    cases hx
  · intro r hr
    obtain ⟨t, ht⟩ := hrefs r hr
    exact ht.exists_tall

/-- A way of bundles with one reference each is apart from the rest of its tree. -/
lemma Denotes.apart_of_owned (hd : Denotes h a t)
    (ha : a ∈ live h.kids h.length refs)
    (hown : ∀ x ∈ h.way a path, h.useCount refs x ≤ 1) : h.Apart a path := by
  have hhe := held hrefs
  induction path generalizing a t with
  | nil => trivial
  | cons s path ih =>
    cases path with
    | nil => trivial
    | cons s' path =>
      rw [way] at hown
      rw [Heap.Apart]
      cases hb : (h.node a).spillScalar.sub s with
      | none => trivial
      | some b =>
        rw [hb] at hown
        have hmem := mem_subs_of_sub hb
        obtain ⟨u, hu⟩ := hd.rel.mem_subs hmem
        have hbl := hhe.live_of_reaches ha (.single (hd.link hmem))
        have hbe := fun x hx => hown x (.tail _ hx)
        refine ⟨fun c hc x hx hcx => ?_, ih hu hbl hbe⟩
        have hcm := mem_subs_of_others hc
        have hcl := hhe.live_of_reaches ha (.single (hd.link hcm))
        have hne : c ≠ b := by
          rintro rfl
          have hco := count_le_useCount (x := c) ha
          rw [hd.kids, getD_some, (perm_others hb).count_eq, count_cons_self] at hco
          have hone : Linked.useCount h.kids h.length refs c ≤ 1 := hown c (.head _)
          have ho := count_pos_iff.2 hc
          omega
        -- the parent of a bundle on the way is on the way, and `a` is above it
        rcases hhe.reaches_top (hu.isChain_way _) hbe hbl hcl hx hcx with hcb | hcw
        · rcases cases_tail hcb with heq | ⟨y, hcy, hyb⟩
          · exact hne heq.symm
          · have hyl := hhe.live_of_reaches hcl hcy
            rw [← eq_of_link (hown b (.head _)) ha hyl (hd.link hmem) hyb] at hcy
            exact hd.not_reaches hcm hcy
        · rcases cases_tail (hu.reaches_of_mem_way (.tail _ hcw)) with heq | ⟨y, hby, hyc⟩
          · exact hne heq
          · have hyl := hhe.live_of_reaches hbl hby
            rw [← eq_of_link (hbe c hcw) ha hyl (hd.link hcm) hyc] at hby
            exact hd.not_reaches hmem hby

/-- Another reference does not lead into a way that starts at a bundle with one reference. -/
lemma Denotes.off_of_owned (hd : Denotes h a t) (ha : a ∈ refs)
    (hown : ∀ x ∈ a :: h.way a path, h.useCount refs x ≤ 1) {r : ℕ}
    (hr : r ∈ refs) (hra : r ≠ a) {x : ℕ}
    (hx : x ∈ a :: h.way a path) : ¬h.Reaches r x := by
  have hhe := Heap.held hrefs
  have hal := hhe.mem_live ha
  have hrl := hhe.mem_live hr
  have hbe := fun x hx => hown x (.tail _ hx)
  intro hrx
  rcases hhe.reaches_top (hd.isChain_way _) hbe hal hrl hx hrx with htop | hway
  · rcases cases_tail htop with heq | ⟨y, hry, hya⟩
    · exact hra heq.symm
    · exact notMem_of_link (hown a (.head _)) (hhe.live_of_reaches hrl hry) hya ha
  · rcases cases_tail (hd.reaches_of_mem_way (.tail _ hway)) with heq | ⟨y, hay, hyr⟩
    · exact hra heq
    · exact notMem_of_link (hbe r hway) (hhe.live_of_reaches hal hay) hyr hr

end

end LiveHD.Upass
