import LiveHD.Upass.Bundle
import LiveHD.Lib.Lists

/-!
# Tuple trees

A bundle that shares nothing: the value that one variable owns.  A bundle of the store denotes the
tree that hangs from its address.
-/

namespace LiveHD.Upass

open Relation List Option LiveHD.Upass.Field Heap Node

variable {V σ τ υ : Type*}

/-! ## Bundles over related pointers -/

structure Field.Rel (R : σ → τ → Prop) (f : Field V σ) (g : Field V τ) : Prop where
  seg : f.seg = g.seg
  leaf : f.leaf = g.leaf
  sub : Option.Rel R f.sub g.sub

/-- Bundles that differ in their pointers only, these being related. -/
structure Node.Rel (R : σ → τ → Prop) (n : Node V σ) (m : Node V τ) : Prop where
  info : n.toInfo = m.toInfo
  fields : Forall₂ (Field.Rel R) n.fields m.fields

def Field.map (f : σ → τ) (g : Field V σ) : Field V τ := ⟨g.seg, g.leaf, g.sub.map f⟩

def Node.map (f : σ → τ) (n : Node V σ) : Node V τ := ⟨n.toInfo, n.fields.map (Field.map f)⟩

variable (n : Node V σ)

/-- The sub-bundle of a segment, if it has one, or the value that the segment holds as a bundle. -/
def Node.plug [Dlop V] (s : Seg) (x : σ) : Node V σ :=
  match n.spillScalar.findField s with
  | none => n.spillScalar.appendField ⟨s, default, some x⟩
  | some i => n.spillScalar.modifyField i fun f =>
    ⟨f.seg, if f.sub.isNone then default else f.leaf, some x⟩

/-- A bundle for the leaf of a segment, empty where there is none. -/
def Node.held (s : Seg) : Info V := { scalar := (n.spillScalar.field s).map Field.leaf }

/-- The pointers of the fields other than that of a segment. -/
def Node.others (s : Seg) : List σ :=
  match n.spillScalar.findField s with
  | none => n.spillScalar.subs
  | some i => (n.spillScalar.fields.eraseIdx i).filterMap Field.sub

lemma optionRel_imp {R S : σ → τ → Prop} {x : Option σ} {y : Option τ} (h : Option.Rel R x y)
    (hRS : ∀ a b, x = some a → R a b → S a b) : Option.Rel S x y := by
  cases h with
  | none => exact .none
  | some hab => exact .some (hRS _ _ rfl hab)

lemma isNone_of_optionRel {R : σ → τ → Prop} {x : Option σ} {y : Option τ} (h : Option.Rel R x y) :
    x.isNone = y.isNone := by
  cases h <;> rfl

lemma Field.Rel.imp {R S : σ → τ → Prop} {f : Field V σ} {g : Field V τ} (h : Field.Rel R f g)
    (hRS : ∀ a b, f.sub = some a → R a b → S a b) : Field.Rel S f g :=
  ⟨h.seg, h.leaf, optionRel_imp h.sub hRS⟩

/-- The search for a field looks at the segments. -/
lemma Node.findField_congr {n : Node V σ} {m : Node V τ}
    (h : n.fields.map seg = m.fields.map seg) (s : Seg) :
    n.findField s = m.findField s := by
  have hlen : n.fields.length = m.fields.length := by simpa using congrArg length h
  have hin : n.fields.findIdx? (·.seg = s) = m.fields.findIdx? (·.seg = s) := by
    have hmap := congrArg (findIdx? fun x => decide (x = s)) h
    rwa [findIdx?_map, findIdx?_map] at hmap
  have hde : n.denseSlot s = m.denseSlot s := by
    cases s with
    | named => rfl
    | unnamed p =>
      have hsl := congrArg (fun l => (l[p]?).any fun x => decide (x = Seg.unnamed p)) h
      simp only [getElem?_map, Option.any_map] at hsl
      exact congrArg (fun b : Bool => if b then some p else none) hsl
  rw [findField, findField, hlen, hde, fieldIndex, fieldIndex, hin]

namespace Node.Rel

variable {R S : σ → τ → Prop} {n : Node V σ} {m : Node V τ} {s : Seg}

section

variable (h : Node.Rel R n m)
include h

lemma imp (hRS : ∀ a ∈ n.subs, ∀ b, R a b → S a b) : Node.Rel S n m :=
  ⟨h.info, h.fields.imp_of_mem fun _ hf _ hfg => hfg.imp fun a b ha => hRS a
    (mem_filterMap.2 ⟨_, hf, ha⟩) b⟩

/-- What is done to the rest of a bundle does not matter to its pointers. -/
lemma info_map (f : Info V → Info V) : Node.Rel R ⟨f n.toInfo, n.fields⟩ ⟨f m.toInfo, m.fields⟩ :=
  ⟨congrArg f h.info, h.fields⟩

lemma segs_eq : n.fields.map seg = m.fields.map seg :=
  h.fields.map_eq_map fun _ _ _ hfg => hfg.seg

lemma scalar : n.scalar = m.scalar := congrArg Info.scalar h.info

lemma attrs : n.attrs = m.attrs := congrArg Info.attrs h.info

lemma correct : n.correct = m.correct := congrArg Info.correct h.info

lemma fields_eq_nil : n.fields = [] ↔ m.fields = [] := by
  rw [← length_eq_zero_iff, h.fields.length_eq, length_eq_zero_iff]

lemma findField (s : Seg) : n.findField s = m.findField s := findField_congr h.segs_eq s

lemma field (s : Seg) : Option.Rel (Field.Rel R) (n.field s) (m.field s) := by
  rw [Node.field, Node.field, h.findField]
  cases m.findField s with
  | none => exact .none
  | some i => exact h.fields.getElem? i

lemma sub (s : Seg) : Option.Rel R (n.sub s) (m.sub s) := by
  have hf := h.field s
  rw [Node.sub, Node.sub]
  cases hn : n.field s <;> cases hm : m.field s <;> rw [hn, hm] at hf <;> cases hf
  · exact .none
  next hfg => exact hfg.sub

lemma leaf (s : Seg) : n.leaf s = m.leaf s := by
  have hf := h.field s
  rw [Node.leaf, Node.leaf]
  cases hn : n.field s <;> cases hm : m.field s <;> rw [hn, hm] at hf <;> cases hf
  · rfl
  next hfg => rw [bind_some, bind_some, isNone_of_optionRel hfg.sub, hfg.leaf]

lemma appendField {f : Field V σ} {g : Field V τ} (hfg : Field.Rel R f g) :
    Node.Rel R (n.appendField f) (m.appendField g) :=
  ⟨h.info, rel_append h.fields (.cons hfg .nil)⟩

lemma modifyField {f : Field V σ → Field V σ} {g : Field V τ → Field V τ} {i : ℕ}
    (hfg : ∀ a b, n.fields[i]? = some a → Field.Rel R a b → Field.Rel S (f a) (g b))
    (hS : ∀ c ∈ (n.fields.eraseIdx i).filterMap Field.sub, ∀ v, R c v → S c v) :
    Node.Rel S (n.modifyField i f) (m.modifyField i g) := by
  refine ⟨h.info, h.fields.modify hfg ?_⟩
  intro a ha b hab
  exact hab.imp fun c v hc => hS c (mem_filterMap.2 ⟨a, ha, hc⟩) v

lemma spillScalar : Node.Rel R n.spillScalar m.spillScalar := by
  rw [Node.spillScalar, Node.spillScalar, ← h.scalar]
  cases n.scalar with
  | none => exact h
  | some e => exact (h.info_map fun i => { i with scalar := none }).appendField ⟨rfl, rfl, .none⟩

lemma putField {f : Field V σ} {g : Field V τ} (hfg : Field.Rel R f g) :
    Node.Rel R (n.putField f) (m.putField g) := by
  rw [Node.putField, Node.putField, h.findField, ← hfg.seg]
  cases m.findField f.seg with
  | none => exact h.appendField hfg
  | some i => exact h.modifyField (fun a b _ hab => ⟨hab.seg, hfg.leaf, hfg.sub⟩) fun _ _ _ h => h

lemma plug [Dlop V] {x : σ} {y : τ} (hxy : S x y) (hS : ∀ c ∈ n.others s, ∀ v, R c v → S c v) :
    Node.Rel S (n.plug s x) (m.plug s y) := by
  have hsp := h.spillScalar
  rw [Node.plug, Node.plug, ← hsp.findField]
  rw [Node.others] at hS
  cases hfi : n.spillScalar.findField s with
  | none =>
    rw [hfi] at hS
    exact (hsp.imp hS).appendField ⟨rfl, rfl, .some hxy⟩
  | some i =>
    rw [hfi] at hS
    refine hsp.modifyField (fun a b _ hab => ⟨hab.seg, ?_, .some hxy⟩) hS
    rw [isNone_of_optionRel hab.sub, hab.leaf]

lemma held (s : Seg) : n.held s = m.held s := by
  have hf := h.spillScalar.field s
  rw [Node.held, Node.held]
  generalize n.spillScalar.field s = x at hf
  generalize m.spillScalar.field s = y at hf
  cases hf with
  | none => rfl
  | some hfg => rw [map_some, map_some, hfg.leaf]

lemma bareScalar : n.bareScalar = m.bareScalar := by
  have hf := h.fields
  rw [Node.bareScalar, Node.bareScalar, h.scalar]
  generalize n.fields = fs at hf
  generalize m.fields = gs at hf
  cases m.scalar with
  | some e => rfl
  | none =>
    cases hf with
    | nil => rfl
    | cons hfg ht =>
      cases ht with
      | nil => simp only [hfg.seg, hfg.leaf, isNone_of_optionRel hfg.sub]
      | cons => rfl

end

end Node.Rel

/-! ## Trees -/

/-- A bundle with all that hangs from it. -/
inductive Tree (V : Type*)
  | mk (node : Node V (Tree V))

namespace Tree

def node : Tree V → Node V (Tree V)
  | mk n => n

instance : Inhabited (Tree V) := ⟨mk {}⟩

lemma mk_node (t : Tree V) : mk t.node = t := by
  cases t
  rfl

def owner : Tree V → List Seg → Option (Node V (Tree V))
  | t, s :: s' :: path =>
    if t.node.scalar.isSome then none
    else match t.node.sub s with
      | none => none
      | some u => owner u (s' :: path)
  | t, _ => some t.node

variable (t : Tree V) (path : List Seg)

/-- The leaf at a path. -/
def entry : Option (Entry V) :=
  match t.node.scalar with
  | some e => if path = [.zero] then some e else none
  | none => (path.getLast?).bind fun last => (t.owner path).bind fun n => n.leaf last

def hasTrivial : Bool := (t.entry path).isSome

variable [Dlop V]

def getEntry : Entry V := (t.entry path).getD invalidEntry

def getTrivial : V := (t.getEntry path).trivial

/-- The sub-bundle of a segment, a leaf being the sub-bundle that holds it. -/
def child (t : Tree V) (s : Seg) : Tree V :=
  (t.node.spillScalar.sub s).getD (mk ⟨t.node.held s, []⟩)

/-- A change to the owner of the last segment of a path, which is created. -/
def modifyOwner (f : Node V (Tree V) → Node V (Tree V)) : List Seg → Tree V → Tree V
  | s :: s' :: path, t => mk (t.node.plug s (modifyOwner f (s' :: path) (t.child s)))
  | _, t => mk (f t.node)

variable (path : List Seg)

/-- The node at the last segment of a path is put there. -/
def put (e : Entry V) (u : Option (Tree V)) (t : Tree V) : Tree V :=
  modifyOwner (fun n => n.spillScalar.putField ⟨lastSeg path, e, u⟩) path t

def setEntry (e : Entry V) (t : Tree V) : Tree V :=
  if path = [.zero] ∧ t.node.fields = [] then mk { t.node with scalar := some e }
    else t.put path e none

def setTrivial (trivial : V) (t : Tree V) : Tree V :=
  t.setEntry path ((t.getEntry path).value false trivial)

variable (t : Tree V) (path : List Seg)

def setBundle (u : Tree V) : Tree V :=
  let t' : Tree V := match u.node.bareScalar with
    | some e => t.setEntry path e
    | none => t.put path default (some u)
  mk { t'.node.putAttrs (u.node.attrs.map fun kv => (path ++ kv.1, kv.2)) with correct :=
    t'.node.correct && u.node.correct }

def getData : Option (Tree V) :=
  match t.node.scalar with
  | some e => if path = [.zero] then some (mk { scalar := some e }) else none
  | none => (path.getLast?).bind fun last => (t.owner path).bind fun n =>
      (n.field last).map fun f =>
      f.sub.getD (mk { scalar := some f.leaf })

def getBundle : Option (Tree V) :=
  if path = [] then some t
  else
  let attrs := attrsUnder t.node.attrs path
  let r := match t.getData path with
    | some r => some r
    | none => if attrs.isEmpty then none else some (mk {})
  r.map fun r => mk { r.node.putAttrs attrs with correct := r.node.correct && t.node.correct }

end Tree

/-! ## The tree at an address -/

/-- What hangs from the address is the tree. -/
inductive Denotes (h : Heap V) : ℕ → Tree V → Prop
  | mk {a : ℕ} {n : Node V ℕ} (tree : ℕ → Tree V) (hn : h[a]? = some n)
    (hsub : ∀ b ∈ n.subs, Denotes h b (tree b)) :
      Denotes h a (.mk (n.map tree))

/-- The links of a store. -/
abbrev Heap.Reaches (h : Heap V) : ℕ → ℕ → Prop := ReflTransGen (Linked.Link h.kids)

variable {h h' : Heap V} {a b : ℕ} {t u : Tree V}

variable {R : σ → τ → Prop} {n : Node V σ}

lemma Node.rel_map {f : σ → τ} (h : ∀ a ∈ n.subs, R a (f a)) : Node.Rel R n (n.map f) := by
  refine ⟨rfl, forall₂_map_right_iff.2 (forall₂_same.2 fun g hg => ⟨rfl, rfl, ?_⟩)⟩
  rw [Field.map]
  cases hsub : g.sub with
  | none => exact .none
  | some a => exact .some (h a (mem_filterMap.2 ⟨g, hg, hsub⟩))

lemma Node.map_eq {m : Node V τ} {f : σ → τ} (h : Node.Rel R n m)
    (hf : ∀ a b, R a b → f a = b) : n.map f = m := by
  have hfi : n.fields.map (.map f) = m.fields.map id := h.fields.map_eq_map fun g _ g' hg => by
    obtain ⟨hseg, hl, hsub⟩ := hg
    rw [Field.map, id, hseg, hl]
    have hmap : g.sub.map f = g'.sub := by
      cases hx : g.sub <;> cases hy : g'.sub <;> rw [hx, hy] at hsub <;> cases hsub
      · rfl
      next hab => exact congrArg some (hf _ _ hab)
    rw [hmap]
  rw [List.map_id] at hfi
  rw [map, hfi, h.info]

lemma Node.Rel.mem_subs {m : Node V τ} (h : Node.Rel R n m) {a : σ}
    (ha : a ∈ n.subs) : ∃ b, R a b := by
  obtain ⟨f, hf, hsub⟩ := mem_filterMap.1 ha
  obtain ⟨g, -, hfg⟩ := h.fields.exists_of_mem_left hf
  obtain ⟨-, -, hrel⟩ := hfg
  rw [hsub] at hrel
  generalize g.sub = x at hrel
  cases hrel with
  | some hab => exact ⟨_, hab⟩

namespace Denotes

lemma unique (ht : Denotes h a t) (hu : Denotes h a u) : t = u := by
  induction ht generalizing u with
  | @mk a n tree hn hsub ih =>
    cases hu with
    | mk tree' hn' hsu' =>
      cases (hn.symm.trans hn')
      have hrel : Node.Rel (fun b v => b ∈ n.subs ∧ tree b = v) n (n.map tree') :=
        rel_map fun b hb => ⟨hb, ih b hb (hsu' b hb)⟩
      rw [map_eq hrel fun b v hbv => hbv.2]

/-- The pointers of a bundle denote the sub-trees. -/
lemma iff_rel : Denotes h a t ↔ ∃ n, h[a]? = some n ∧ Node.Rel (Denotes h) n t.node := by
  constructor
  · rintro ⟨tree, hn, hsub⟩
    exact ⟨_, hn, rel_map hsub⟩
  · rintro ⟨n, hn, hrel⟩
    have htr : ∀ b, ∃ u, ∀ v, Denotes h b v → u = v := by
      intro b
      by_cases hb : ∃ v, Denotes h b v
      · obtain ⟨u, hu⟩ := hb
        exact ⟨u, fun v hv => hu.unique hv⟩
      · exact ⟨default, fun v hv => absurd ⟨v, hv⟩ hb⟩
    choose tree htr using htr
    have hmap := map_eq hrel fun b v hbv => htr b v hbv
    rw [← t.mk_node, ← hmap]
    refine .mk tree hn fun b hb => ?_
    obtain ⟨v, hv⟩ := hrel.mem_subs hb
    rwa [htr b v hv]

section

variable (hd : Denotes h a t)
include hd

lemma node_eq : h[a]? = some (h.node a) ∧ Node.Rel (Denotes h) (h.node a) t.node := by
  obtain ⟨n, hn, hrel⟩ := iff_rel.1 hd
  have heq : h.node a = n := by rw [node, getD_eq_getElem?_getD, hn, getD_some]
  rw [heq]
  exact ⟨hn, hrel⟩

lemma rel : Node.Rel (Denotes h) (h.node a) t.node := hd.node_eq.2

lemma lt_length : a < h.length := by
  by_contra hle
  have hno := getElem?_eq_none (not_lt.1 hle)
  rw [hd.node_eq.1] at hno
  cases hno

lemma kids : h.kids a = some (h.node a).subs := by rw [Heap.kids, hd.node_eq.1, map_some]

lemma mem_subs_of_link (hab : Linked.Link h.kids a b) : b ∈ (h.node a).subs := by
  obtain ⟨l, hl, hb⟩ := hab
  rw [hd.kids] at hl
  exact Option.some.inj hl ▸ hb

lemma link (hb : b ∈ (h.node a).subs) : Linked.Link h.kids a b := ⟨_, hd.kids, hb⟩

lemma of_reaches (hab : h.Reaches a b) : ∃ u, Denotes h b u := by
  induction hab with
  | refl => exact ⟨t, hd⟩
  | tail _ hli ih =>
    obtain ⟨u, hu⟩ := ih
    exact hu.rel.mem_subs (hu.mem_subs_of_link hli)

lemma exists_tall : ∃ k, Linked.Tall h.kids k a := by
  induction hd with
  | @mk a n tree hn hsub ih =>
    have hall : ∀ b, ∃ k, b ∈ n.subs → Linked.Tall h.kids k b := by
      intro b
      by_cases hb : b ∈ n.subs
      · obtain ⟨k, hk⟩ := ih b hb
        exact ⟨k, fun _ => hk⟩
      · exact ⟨0, fun hb' => absurd hb' hb⟩
    choose hei hhe using hall
    exact ⟨_, .node hei (by rw [Heap.kids, hn, map_some]) hhe⟩

/-- A tree stays while its bundles do. -/
lemma congr (hsa : ∀ x, h.Reaches a x → h'[x]? = h[x]?) : Denotes h' a t := by
  induction hd with
  | @mk a n tree hn hsub ih =>
    refine .mk tree ((hsa a .refl).trans hn) fun b hb => ih b hb fun x hx => hsa x (.head ?_ hx)
    exact ⟨n.subs, by rw [Heap.kids, hn, map_some], hb⟩

end

end Denotes

lemma Heap.reaches_congr (hsa : ∀ x, h.Reaches a x → h'[x]? = h[x]?)
    (hab : h'.Reaches a b) : h.Reaches a b := by
  induction hab with
  | refl => exact .refl
  | tail _ hli ih =>
    obtain ⟨l, hl, hb⟩ := hli
    refine ih.tail ⟨l, ?_, hb⟩
    rwa [kids, ← hsa _ ih]

end LiveHD.Upass
