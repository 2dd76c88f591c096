import LiveHD.Upass.SymbolTable
import LiveHD.Upass.BundleSound

/-!
# Value semantics

While no write goes through a sub-bundle with a second owner, the table is the plain environment,
seen through its store.
-/

namespace LiveHD.Upass

open Function List Heap State Table

variable {σ τ : Type*} {R S : σ → τ → Prop}

/-! ## Tables over related slots -/

structure Scope.Rel (R : σ → τ → Prop) (s : Scope σ) (s' : Scope τ) : Prop where
  type : s.type = s'.type
  funcId : s.funcId = s'.funcId
  parent : s.parent = s'.parent
  uncertainCond : s.uncertainCond = s'.uncertainCond
  varmap : Forall₂ (fun kv kv' => kv.1 = kv'.1 ∧ R kv.2 kv'.2) s.varmap s'.varmap

structure Table.Rel (R : σ → τ → Prop) (T : Table σ) (T' : Table τ) : Prop where
  storage : Forall₂ (Scope.Rel R) T.storage T'.storage
  stack : T.stack = T'.stack
  blockScopeIndex : T.blockScopeIndex = T'.blockScopeIndex
  typedFields : T.typedFields = T'.typedFields

lemma lookup_rel {l : List (Text × σ)} {m : List (Text × τ)}
    (h : Forall₂ (fun kv kv' => kv.1 = kv'.1 ∧ R kv.2 kv'.2) l m)
    (var : Text) : Option.Rel R (l.lookup var) (m.lookup var) := by
  induction h with
  | nil => exact .none
  | @cons kv kv' l m hkv _ ih =>
    obtain ⟨k, x⟩ := kv
    obtain ⟨k', y⟩ := kv'
    obtain ⟨rfl, hxy⟩ := hkv
    rw [lookup_cons, lookup_cons]
    cases var == k with
    | true => exact .some hxy
    | false => exact ih

lemma isSome_of_optionRel {x : Option σ} {y : Option τ} (h : Option.Rel R x y) :
    x.isSome = y.isSome := by
  cases h <;> rfl

namespace Scope

/-- The slots of a scope but that of a name. -/
def others (s : Scope σ) (var : Text) : List σ := (s.varmap.filter (·.1 ≠ var)).map Prod.snd

end Scope

variable {f : Scope σ → Scope σ}

namespace Table

/-- The slots but one. -/
def others (T : Table σ) (i : ℕ) (var : Text) : List σ :=
  (T.storage.eraseIdx i).flatMap (fun s => s.varmap.map Prod.snd) ++
    ((T.storage[i]?).map (·.others var)).getD []

namespace Rel

variable {T : Table σ} {T' : Table τ} {i : ℕ} {var : Text}

lemma walk (h : Table.Rel R T T') {stop : Scope σ → Bool} {stop' : Scope τ → Bool}
    (hst : ∀ s s', Scope.Rel R s s' → stop s = stop' s') (var : Text) (fuel : ℕ) (i : Option ℕ) :
    T.walk stop var fuel i = T'.walk stop' var fuel i := by
  induction fuel generalizing i with
  | zero => cases i <;> rfl
  | succ fuel ih =>
    cases i with
    | none => rfl
    | some i =>
      have hsc := h.storage.getElem? i
      rw [Table.walk, Table.walk]
      generalize T.storage[i]? = x at hsc
      generalize T'.storage[i]? = y at hsc
      cases hsc with
      | none => rfl
      | some hs =>
        dsimp only
        rw [isSome_of_optionRel (lookup_rel hs.varmap var), hst _ _ hs, hs.parent, ih]

lemma isFunction {s : Scope σ} {s' : Scope τ} (h : Scope.Rel R s s') :
    Table.isFunction s = Table.isFunction s' := by
  rw [Table.isFunction, Table.isFunction, h.type]

section

variable (h : Table.Rel R T T')
include h

lemma findDeclScope (var : Text) : T.findDeclScope var = T'.findDeclScope var := by
  rw [Table.findDeclScope, h.storage.length_eq, h.stack]
  exact h.walk (fun _ _ hs => isFunction hs) _ _ _

lemma findDeclScopeRead (var : Text) : T.findDeclScopeRead var = T'.findDeclScopeRead var := by
  rw [Table.findDeclScopeRead, h.storage.length_eq, h.stack]
  exact h.walk (fun _ _ _ => rfl) _ _ _

lemma anchor (fuel i : ℕ) : T.anchor fuel i = T'.anchor fuel i := by
  induction fuel generalizing i with
  | zero => rfl
  | succ fuel ih =>
    have hsc := h.storage.getElem? i
    rw [Table.anchor, Table.anchor]
    generalize T.storage[i]? = x at hsc
    generalize T'.storage[i]? = y at hsc
    cases hsc with
    | none => rfl
    | some hs =>
      dsimp only
      rw [hs.parent, isFunction hs]
      simp only [ih]

lemma anchorFor (top : ℕ) (var : Text) : T.anchorFor top var = T'.anchorFor top var := by
  rw [Table.anchorFor, Table.anchorFor, h.storage.length_eq, h.anchor]

lemma target (top : ℕ) (var : Text) : T.target top var = T'.target top var := by
  rw [Table.target, Table.target, h.findDeclScope, h.anchorFor]

lemma slot (i : ℕ) (var : Text) : Option.Rel R (T.slot i var) (T'.slot i var) := by
  have hsc := h.storage.getElem? i
  rw [Table.slot, Table.slot]
  generalize T.storage[i]? = x at hsc
  generalize T'.storage[i]? = y at hsc
  cases hsc with
  | none => exact .none
  | some hs => exact lookup_rel hs.varmap var

lemma imp (hRS : ∀ a ∈ T.slots, ∀ b, R a b → S a b) : Table.Rel S T T' := by
  refine ⟨h.storage.imp_of_mem fun s hs s' hrel =>
    ⟨hrel.type, hrel.funcId, hrel.parent, hrel.uncertainCond, ?_⟩, h.stack,
    h.blockScopeIndex, h.typedFields⟩
  refine hrel.varmap.imp_of_mem fun kv hkv kv' hk => ⟨hk.1, hRS _ ?_ _ hk.2⟩
  exact mem_flatMap.2 ⟨s, hs, mem_map_of_mem hkv⟩

/-- What is done to one scope. -/
lemma modifyScope {g : Scope τ → Scope τ}
    (hfg : ∀ s s', T.storage[i]? = some s → Scope.Rel R s s' → Scope.Rel S (f s) (g s'))
    (hRS : ∀ a ∈ (T.storage.eraseIdx i).flatMap (fun s => s.varmap.map Prod.snd), ∀ b,
      R a b → S a b) :
    Table.Rel S (T.modifyScope i f) (T'.modifyScope i g) := by
  refine ⟨h.storage.modify hfg fun s hs s' hrel =>
    ⟨hrel.type, hrel.funcId, hrel.parent, hrel.uncertainCond, ?_⟩, h.stack,
    h.blockScopeIndex, h.typedFields⟩
  refine hrel.varmap.imp_of_mem fun kv hkv kv' hk => ⟨hk.1, hRS _ ?_ _ hk.2⟩
  exact mem_flatMap.2 ⟨s, hs, mem_map_of_mem hkv⟩

lemma assign {x : σ} {y : τ} (hxy : S x y) (hRS : ∀ a ∈ T.others i var, ∀ b, R a b → S a b) :
    Table.Rel S (T.assign i var x) (T'.assign i var y) := by
  refine h.modifyScope (fun s s' hs hrel => ⟨hrel.type, hrel.funcId, hrel.parent,
    hrel.uncertainCond, ?_⟩)
    fun a ha => hRS a (mem_append_left _ ha)
  refine forall₂_map_left_iff.2 (forall₂_map_right_iff.2
    (hrel.varmap.imp_of_mem fun kv hkv kv' hk => ?_))
  rw [← hk.1]
  split
  · exact ⟨rfl, hxy⟩
  next hne =>
    refine ⟨hk.1, hRS _ (mem_append_right _ ?_) _ hk.2⟩
    rw [hs]
    exact mem_map_of_mem (mem_filter.2 ⟨hkv, decide_eq_true hne⟩)

lemma emplace {x : σ} {y : τ} (hxy : S x y) (hRS : ∀ a ∈ T.slots, ∀ b, R a b → S a b) :
    Table.Rel S (T.emplace i var x) (T'.emplace i var y) := by
  refine (h.imp hRS).modifyScope
    (fun s s' _ hrel => ⟨hrel.type, hrel.funcId, hrel.parent, hrel.uncertainCond, ?_⟩)
    fun _ _ _ hab => hab
  exact rel_append hrel.varmap (.cons ⟨rfl, hxy⟩ .nil)

end

end Rel

lemma slot_eq_some {T : Table σ} {i : ℕ} {var : Text} {x : σ} (h : T.slot i var = some x) :
    ∃ s, T.storage[i]? = some s ∧ s.varmap.lookup var = some x := Option.bind_eq_some_iff.1 h

/-- The names of every scope are different. -/
def Distinct (T : Table σ) : Prop := ∀ s ∈ T.storage, (s.varmap.map Prod.fst).Nodup

/-- No scope is uncertain. -/
def Quiet (T : Table σ) : Prop := ∀ s ∈ T.storage, s.uncertainCond = false

end Table

/-- The slot of a name, and the others. -/
lemma Scope.perm_others {s : Scope σ} {var : Text} {x : σ} (hnd : (s.varmap.map Prod.fst).Nodup)
    (hx : s.varmap.lookup var = some x) : (s.varmap.map Prod.snd).Perm (x :: s.others var) := by
  rw [others]
  generalize s.varmap = l at hnd hx
  induction l with
  | nil => cases hx
  | cons kv l ih =>
    obtain ⟨k, y⟩ := kv
    rw [map_cons, nodup_cons] at hnd
    rw [lookup_cons] at hx
    dsimp only at hx hnd
    by_cases hk : k = var
    · subst hk
      rw [beq_self_eq_true] at hx
      cases hx
      have hall : l.filter (·.1 ≠ k) = l := by
        refine filter_eq_self.2 fun kv hkv => decide_eq_true ?_
        rintro rfl
        exact hnd.1 (mem_map_of_mem hkv)
      rw [filter_cons_of_neg (by simp), hall]
      exact .refl _
    · rw [beq_false_of_ne (Ne.symm hk)] at hx
      rw [filter_cons_of_pos (by simpa using hk)]
      exact ((ih hnd.2 hx).cons y).trans (.swap ..)

namespace Table

variable {T : Table σ} {i : ℕ} {var : Text} {x : σ}

lemma perm_others (hT : T.Distinct) (hx : T.slot i var = some x) :
    T.slots.Perm (x :: T.others i var) := by
  obtain ⟨s, hs, hlk⟩ := slot_eq_some hx
  obtain ⟨hlt, hget⟩ := List.getElem?_eq_some_iff.1 hs
  have hpe := (getElem_cons_eraseIdx_perm hlt).flatMap_right fun s => s.varmap.map Prod.snd
  rw [hget] at hpe
  rw [others, hs]
  refine hpe.symm.trans
    (((Scope.perm_others (hT s (mem_of_getElem? hs)) hlk).append_right _).trans ?_)
  exact .cons x perm_append_comm

/-- A slot that keeps its pointer. -/
lemma assign_self (hT : T.Distinct) (hx : T.slot i var = some x) : T.assign i var x = T := by
  obtain ⟨s, hs, hlk⟩ := slot_eq_some hx
  rw [assign, modifyScope, modify_congr (g := id), modify_id]
  intro s' hs'
  cases (hs.symm.trans hs')
  have hnd := hT s (mem_of_getElem? hs)
  have hmap : (s.varmap.map fun kv => if kv.1 = var then (kv.1, x) else kv) = s.varmap := by
    generalize s.varmap = l at hnd hlk
    induction l with
    | nil => rfl
    | cons kv l ih =>
      obtain ⟨k, y⟩ := kv
      rw [map_cons, nodup_cons] at hnd
      rw [lookup_cons] at hlk
      dsimp only at hlk hnd
      rw [map_cons]
      by_cases hk : k = var
      · subst hk
        rw [beq_self_eq_true] at hlk
        obtain rfl := Option.some.inj hlk
        rw [if_pos rfl]
        refine congrArg ((k, y) :: ·) ((map_congr_left fun kv hkv => if_neg ?_).trans (map_id _))
        rintro rfl
        exact hnd.1 (mem_map_of_mem hkv)
      · rw [beq_false_of_ne (Ne.symm hk)] at hlk
        rw [if_neg hk, ih hnd.2 hlk]
  exact congrArg (fun l => { s with varmap := l }) hmap

/-- The scopes after a change to one of them. -/
lemma mem_modifyScope {s : Scope σ} (hs : s ∈ (T.modifyScope i f).storage) :
    s ∈ T.storage ∨ ∃ s', T.storage[i]? = some s' ∧ s = f s' := by
  obtain ⟨j, hj⟩ := mem_iff_getElem?.1 hs
  rw [modifyScope, getElem?_modify] at hj
  obtain ⟨s', hs', heq⟩ := Option.map_eq_some_iff.1 hj
  split at heq
  next hij =>
    subst hij
    exact .inr ⟨s', hs', heq.symm⟩
  · exact .inl (heq ▸ mem_of_getElem? hs')

lemma Quiet.modifyScope (hT : T.Quiet) (i : ℕ)
    (hf : ∀ s, s.uncertainCond = false → (f s).uncertainCond = false) :
    (T.modifyScope i f).Quiet := by
  intro s hs
  rcases mem_modifyScope hs with hs | ⟨s', hs', rfl⟩
  · exact hT s hs
  · exact hf s' (hT s' (mem_of_getElem? hs'))

lemma Quiet.assign (hT : T.Quiet) (i : ℕ) (var : Text) (x : σ) :
    (T.assign i var x).Quiet := hT.modifyScope i fun _ h => h

lemma Quiet.emplace (hT : T.Quiet) (i : ℕ) (var : Text) (x : σ) :
    (T.emplace i var x).Quiet := hT.modifyScope i fun _ h => h

lemma Distinct.assign (hT : T.Distinct) (i : ℕ) (var : Text) (x : σ) :
    (T.assign i var x).Distinct := by
  intro s hs
  rcases mem_modifyScope hs with hs | ⟨s', hs', rfl⟩
  · exact hT s hs
  · have hke : (s'.varmap.map fun kv => if kv.1 = var then (kv.1, x) else kv).map Prod.fst =
        s'.varmap.map Prod.fst := by
      rw [map_map]
      refine map_congr_left fun kv _ => ?_
      rw [comp_apply]
      split <;> rfl
    exact hke ▸ hT s' (mem_of_getElem? hs')

lemma Distinct.emplace (hT : T.Distinct) (hno : T.slot i var = none) (x : σ) :
    (T.emplace i var x).Distinct := by
  intro s hs
  rcases mem_modifyScope hs with hs | ⟨s', hs', rfl⟩
  · exact hT s hs
  · rw [slot, hs'] at hno
    rw [map_append, nodup_append]
    refine ⟨hT s' (mem_of_getElem? hs'), nodup_singleton _, ?_⟩
    rintro k hk _ hk' rfl
    obtain rfl := mem_singleton.1 hk'
    obtain ⟨kv, hkv, rfl⟩ := mem_map.1 hk
    have hne := lookup_eq_none_iff.1 hno kv hkv
    simp at hne

end Table

/-! ## The facts of a name -/

section

variable {V : Type*}

namespace Node.Rel

variable {n : Node V σ} {m : Node V τ}

section

variable (h : Node.Rel R n m)
include h

lemma hasNoData : n.hasNoData = m.hasNoData := by
  have hf : n.fields.isEmpty = m.fields.isEmpty := by
    rw [Bool.eq_iff_iff, List.isEmpty_iff, List.isEmpty_iff]
    exact h.fields_eq_nil
  rw [Node.hasNoData, Node.hasNoData, h.scalar, hf]

lemma entryZero : n.entryZero = m.entryZero := by
  rw [Node.entryZero, Node.entryZero, h.scalar, h.leaf]

lemma mode : n.mode = m.mode := congrArg Info.mode h.info

lemma typeName : n.typeName = m.typeName := congrArg Info.typeName h.info

lemma setZero (e : Entry V) : Node.Rel R (n.setZero e) (m.setZero e) := by
  have hf : n.fields.isEmpty = m.fields.isEmpty := by
    rw [Bool.eq_iff_iff, List.isEmpty_iff, List.isEmpty_iff]
    exact h.fields_eq_nil
  rw [Node.setZero, Node.setZero, hf]
  split
  · exact h.info_map fun i => { i with scalar := some e }
  · exact h.spillScalar.putField ⟨rfl, rfl, .none⟩

lemma setAttrs (kvs : List (List Seg × Entry V)) :
    Node.Rel R (kvs.foldl (fun n kv => n.setAttr kv.1 kv.2.trivial) n)
    (kvs.foldl (fun n kv => n.setAttr kv.1 kv.2.trivial) m) := by
  induction kvs generalizing n m with
  | nil => exact h
  | cons kv kvs ih =>
    exact ih (h.info_map fun i =>
      { i with attrs := insertOrAssign i.attrs (canonAttr kv.1) { trivial := kv.2.trivial } })

lemma keepFacts [Dlop V] {R' : σ → τ → Prop} {n' : Node V σ} {m' : Node V τ}
    (h' : Node.Rel R' n' m')
    (c : Assignment) : Option.Rel (Node.Rel R') (n.keepFacts c n') (m.keepFacts c m') := by
  rw [Node.keepFacts, Node.keepFacts, h.entryZero, h'.entryZero, h'.hasNoData, h.mode, h'.mode,
    h.typeName, h'.typeName,
    h.attrs, h'.attrs]
  split
  · refine .some ?_
    have hatt := h'.setAttrs (m.attrs.filter fun kv => m'.attrs.all fun kv' => kv'.1 ≠ kv.1)
    rw [hatt.mode, hatt.typeName]
    split
    · exact (hatt.info_map fun i => { i with mode := _, typeName := _ }).setZero _
    · exact hatt.info_map fun i => { i with mode := _, typeName := _ }
  · exact .none

end

end Node.Rel

/-- A value that takes its own place brings no new facts. -/
lemma Node.keepFacts_self [Dlop V] (n : Node V σ) (tmp : Bool) :
    n.keepFacts ⟨tmp, false, false⟩ n = none := by
  have hatt : (n.attrs.filter fun kv => n.attrs.all fun kv' => kv'.1 ≠ kv.1) = [] := by
    refine filter_eq_nil_iff.2 fun kv hkv hall => ?_
    exact of_decide_eq_true (all_eq_true.1 hall kv hkv) rfl
  have hmo : (decide (n.mode = Mode.unknown) && decide (n.mode = Mode.constKind)) = false := by
    cases n.mode <;> rfl
  rw [keepFacts]
  simp [hmo]

end

/-! ## The table and the plain environment -/

section

variable {V : Type*} {s : State V} {p : Plain V} {h h' h₁ : Heap V} {a b : ℕ}
  {t u : Tree V} {path : List Seg}

/-- The plain environment that the table stands for. -/
structure Sim (s : State V) (p : Plain V) : Prop where
  table : Table.Rel (Denotes s.heap) s.table p.table
  handles : Forall₂ (Denotes s.heap) s.handles p.handles
  distinct : s.table.Distinct
  quiet : s.table.Quiet

lemma Table.Rel.mem_slots {T : Table σ} {T' : Table τ} (h : Table.Rel R T T') {a : σ}
    (ha : a ∈ T.slots) : ∃ b, R a b := by
  obtain ⟨s, hs, ha⟩ := mem_flatMap.1 ha
  obtain ⟨kv, hkv, rfl⟩ := mem_map.1 ha
  obtain ⟨s', -, hrel⟩ := h.storage.exists_of_mem_left hs
  obtain ⟨kv', -, hk⟩ := hrel.varmap.exists_of_mem_left hkv
  exact ⟨_, hk.2⟩

lemma Table.mem_slots_of_slot {T : Table σ} {i : ℕ} {var : Text} {x : σ} (hT : T.Distinct)
    (h : T.slot i var = some x) :
    x ∈ T.slots := (T.perm_others hT h).mem_iff.2 (.head _)

lemma Sim.exists_denotes (hs : Sim s p) {r : ℕ} (hr : r ∈ s.refs) : ∃ t, Denotes s.heap r t := by
  rcases mem_append.1 hr with hr | hr
  · exact hs.table.mem_slots hr
  · obtain ⟨t, -, ht⟩ := hs.handles.exists_of_mem_left hr
    exact ⟨t, ht⟩

/-- A change to the store that no pointer sees. -/
lemma Sim.heap (hs : Sim s p) (hke : ∀ r ∈ s.refs, ∀ t, Denotes s.heap r t → Denotes h' r t) :
    Sim { s with heap := h' } p :=
  ⟨hs.table.imp fun r hr => hke r (mem_append_left _ hr),
    hs.handles.imp_of_mem fun r hr => hke r (mem_append_right _ hr), hs.distinct, hs.quiet⟩

/-- The write `w` does to a bundle what `w'` does to its tree, the bundles `held` being read by
it. -/
def Writes (held : List ℕ) (h₀ : Heap V) (path : List Seg) (w : Heap V → ℕ → Heap V)
    (w' : Tree V → Tree V) : Prop :=
  ∀ (h : Heap V) (a : ℕ) (t : Tree V), (∀ b ∈ held, ∀ u, Denotes h₀ b u → Denotes h b u) →
    Denotes h a t → h.Apart a path →
    (∀ b ∈ held, ∀ x ∈ a :: h.way a path, ¬h.Reaches b x) →
    Wrote h (w h a) a path (h.way a path) (w' t)

/-- The way down from a bundle is its own, or there is none. -/
def State.Owned (s : State V) (locals : List ℕ) (a : ℕ) (path : List Seg) : Prop :=
  s.heap.way a path = [] ∨ ∀ x ∈ a :: s.heap.way a path, s.useCount locals x ≤ 1

lemma Heap.way_of_node (hn : h'.node b = h.node a) (hway : h.way a path = []) :
    h'.way b path = [] ∧ h'.Apart b path := by
  match path with
  | [] | [_] => exact ⟨rfl, trivial⟩
  | s :: s' :: path =>
    rw [way] at hway
    rw [way, Apart, hn]
    cases hb : (h.node a).spillScalar.sub s with
    | none => exact ⟨rfl, trivial⟩
    | some c =>
      rw [hb] at hway
      cases hway

/-- A copy of a bundle, which shares its sub-bundles. -/
lemma Denotes.copy (hd : Denotes h a t) : Denotes (h ++ [h.node a]) h.length t :=
  iff_rel.2 ⟨h.node a, by simp, hd.rel.imp fun _ _ _ hc => hc.append _⟩

/-- Old pointers do not lead to a new bundle. -/
lemma Denotes.not_reaches_length (hd : Denotes h b u) (l : List (Node V ℕ)) :
    ¬Heap.Reaches (h ++ l) b h.length := by
  intro hre
  have hsa : ∀ x, h.Reaches b x → (h ++ l)[x]? = h[x]? := by
    intro x hx
    obtain ⟨v, hv⟩ := hd.of_reaches hx
    exact getElem?_append_left hv.lt_length
  obtain ⟨v, hv⟩ := hd.of_reaches (Heap.reaches_congr hsa hre)
  exact lt_irrefl _ hv.lt_length

/-- A write to a slot is a write to the variable's own tree. -/
lemma Sim.writeSlot (hs : Sim s p) {locals : List ℕ}
    (hlo : ∀ b ∈ locals, ∃ u, Denotes s.heap b u) {i : ℕ} {var : Text}
    (hsl : s.table.slot i var = some a) (hd : Denotes s.heap a t) (ho : s.Owned locals a path)
    {w : Heap V → ℕ → Heap V} {w' : Tree V → Tree V}
    (hw : Writes (s.handles ++ locals) s.heap path w w') :
    Sim (s.writeSlot locals i var a w) { p with table := p.table.assign i var (w' t) } := by
  have hre : ∀ r ∈ s.refs ++ locals, ∃ t, Denotes s.heap r t := by
    intro r hr
    rcases mem_append.1 hr with hr | hr
    · exact hs.exists_denotes hr
    · exact hlo r hr
  have hpe := s.table.perm_others hs.distinct hsl
  have hmem : a ∈ s.refs ++ locals :=
    mem_append_left _ (mem_append_left _ (mem_slots_of_slot hs.distinct hsl))
  have hot : ∀ r ∈ s.table.others i var, r ∈ s.refs ++ locals := fun r hr =>
    mem_append_left _ (mem_append_left _ (hpe.mem_iff.2 (.tail _ hr)))
  rw [State.writeSlot, unshareForWrite]
  split
  · -- the bundle is copied
    rename_i hsh
    have hway : s.heap.way a path = [] := by
      refine ho.resolve_right fun hown => ?_
      exact absurd (hown a (.head _)) (not_le.2 hsh)
    have hn : node (s.heap ++ [s.heap.node a]) s.heap.length = s.heap.node a := by simp [node]
    obtain ⟨hwa', hap⟩ := way_of_node hn hway
    have hoff : ∀ r ∈ s.refs ++ locals,
        ¬Heap.Reaches (s.heap ++ [s.heap.node a]) r s.heap.length := by
      intro r hr
      obtain ⟨v, hv⟩ := hre r hr
      exact hv.not_reaches_length _
    have hwr := hw (s.heap ++ [s.heap.node a]) s.heap.length t
        (fun b _ u hu => hu.append _) hd.copy hap (by
      rw [hwa']
      intro b hb x hx
      rw [mem_singleton.1 hx]
      refine hoff b ?_
      rcases mem_append.1 hb with hb | hb
      · exact mem_append_left _ (mem_append_right _ hb)
      · exact mem_append_right _ hb)
    rw [hwa'] at hwr
    have hke : ∀ r ∈ s.refs ++ locals, ∀ v, Denotes s.heap r v →
        Denotes (w (s.heap ++ [s.heap.node a]) s.heap.length) r v := by
      intro r hr v hv
      refine hwr.frame (hv.append _) fun x hx => ?_
      rw [mem_singleton.1 hx]
      exact hoff r hr
    exact ⟨hs.table.assign hwr.denotes fun r hr => hke r (hot r hr),
      hs.handles.imp_of_mem fun r hr => hke r (mem_append_left _ (mem_append_right _ hr)),
      hs.distinct.assign _ _ _,
      hs.quiet.assign _ _ _⟩
  · -- the bundle has one owner
    rename_i hso
    have hown : ∀ x ∈ a :: s.heap.way a path, s.useCount locals x ≤ 1 := by
      rcases ho with hway | hown
      · rw [hway]
        intro x hx
        rw [mem_singleton.1 hx]
        exact not_lt.1 hso
      · exact hown
    have hap := hd.apart_of_owned hre ((held hre).mem_live hmem)
      fun x hx => hown x (.tail _ hx)
    have hc : ∀ r ∈ s.table.others i var ++ (s.handles ++ locals), r ≠ a := by
      rintro r hr rfl
      have hone := (Nat.le_add_right _ _).trans (hown r (.head _))
      have hpos := count_pos_iff.2 hr
      rw [refs, count_append, count_append, hpe.count_eq, count_cons_self] at hone
      rw [count_append, count_append] at hpos
      omega
    have hoff : ∀ r ∈ s.table.others i var ++ (s.handles ++ locals), ∀ x ∈ a :: s.heap.way a path,
        ¬s.heap.Reaches r x := by
      intro r hr x hx
      refine hd.off_of_owned hre hmem hown ?_ (hc r hr) hx
      rcases mem_append.1 hr with hr | hr
      · exact hot r hr
      · rw [State.refs, append_assoc]
        exact mem_append_right _ hr
    have hwr := hw s.heap a t (fun _ _ _ hu => hu) hd hap fun b hb => hoff b (mem_append_right _ hb)
    have hke : ∀ r ∈ s.table.others i var ++ (s.handles ++ locals), ∀ v, Denotes s.heap r v →
        Denotes (w s.heap a) r v :=
      fun r hr v hv => hwr.frame hv (hoff r hr)
    refine ⟨?_, hs.handles.imp_of_mem fun r hr => hke r (mem_append_right _ (mem_append_left _ hr)),
      hs.distinct, hs.quiet⟩
    have hta := hs.table.assign hwr.denotes fun r hr => hke r (mem_append_left _ hr)
    rwa [Table.assign_self hs.distinct hsl] at hta

variable {held : List ℕ}

/-- A new name gets a bundle of its own. -/
lemma Sim.writeNew (hs : Sim s p) (hhe : ∀ b ∈ held, ∃ u, Denotes s.heap b u) {i : ℕ} {var : Text}
    (hsl : s.table.slot i var = none) {w : Heap V → ℕ → Heap V} {w' : Tree V → Tree V}
    (hw : Writes held s.heap path w w') :
    Sim (s.writeNew i var w) { p with table := p.table.emplace i var (w' (.mk {})) } := by
  have hnew : (s.heap ++ [({} : Node V ℕ)])[s.heap.length]? = some {} := by simp
  have hsu : (Heap.node (s.heap ++ [({} : Node V ℕ)]) s.heap.length).subs = [] := by
    rw [Heap.node, getD_eq_getElem?_getD, hnew]
    rfl
  have hway : way (s.heap ++ [({} : Node V ℕ)]) s.heap.length path = [] := way_of_subs hsu
  have hwr := hw (s.heap ++ [{}]) s.heap.length (.mk {}) (fun b _ u hu => hu.append _)
      (.of_info hnew) (Heap.apart_of_subs hsu) (by
    rw [hway]
    intro b hb x hx
    rw [mem_singleton.1 hx]
    obtain ⟨u, hu⟩ := hhe b hb
    exact hu.not_reaches_length _)
  rw [hway] at hwr
  have hke : ∀ r ∈ s.refs, ∀ v, Denotes s.heap r v →
      Denotes (w (s.heap ++ [({} : Node V ℕ)]) s.heap.length) r v := by
    intro r _ v hv
    refine hwr.frame (hv.append _) fun x hx => ?_
    rw [mem_singleton.1 hx]
    exact hv.not_reaches_length _
  exact ⟨hs.table.emplace hwr.denotes fun r hr => hke r (mem_append_left _ hr),
    hs.handles.imp_of_mem fun r hr => hke r (mem_append_right _ hr), hs.distinct.emplace hsl _,
    hs.quiet.emplace _ _ _⟩

/-! ### The writes -/

variable [Dlop V]

lemma writes_setTrivial (held : List ℕ) (h₀ : Heap V) (path : List Seg) (v : V) :
    Writes held h₀ path (fun h a => h.setTrivial a path v) fun t => t.setTrivial path v :=
  fun _ _ _ _ hd hap _ => hd.setTrivial hap v

variable {h₀ : Heap V}

lemma writes_setBundle (hb : b ∈ held) (hu : Denotes h₀ b u) (path : List Seg) :
    Writes held h₀ path (fun h a => h.setBundle a path b) fun t => t.setBundle path u :=
  fun _ _ _ hke hd hap hoff => hd.setBundle hap (hke b hb u hu) (hoff b hb)

omit [Dlop V] in
lemma writes_info (held : List ℕ) (h₀ : Heap V) (f : Info V → Info V) :
    Writes held h₀ [] (fun h a => h.modify a fun n => ⟨f n.toInfo, n.fields⟩) fun t =>
    .mk ⟨f t.node.toInfo, t.node.fields⟩ :=
  fun _ _ _ _ hd _ _ => hd.wrote_root f (Nat.zero_le _)

omit [Dlop V] in
lemma writes_nothing (held : List ℕ) (h₀ : Heap V) : Writes held h₀ [] (fun h _ => h) fun t => t :=
  fun _ _ _ _ hd _ _ => ⟨le_rfl, fun _ _ _ => rfl, hd, trivial, nofun⟩

lemma writes_setField (hb : b ∈ held) (hu : Denotes h₀ b u) (typed : Bool) (path : List Seg) :
    Writes held h₀ path (State.setField typed path b) fun t => t.setField typed path u := by
  intro h a t hke hd hap hoff
  have hset := hd.setBundle hap (hke b hb u hu) (hoff b hb)
  show Wrote h _ a path _ (t.setField typed path u)
  rw [State.setField, keepBounds, Tree.setField, hd.getEntry,
    hset.denotes.hasTrivial, hset.denotes.getEntry]
  split
  · exact hset.trans (hset.denotes.setEntry hset.after.1 _)
  · exact hset

lemma writes_bundleWrite {handles : List ℕ} {trees : List (Tree V)}
    (hha : Forall₂ (Denotes h₀) handles trees)
    (w : BundleWrite V) : Writes (handles ++ []) h₀ w.path (bundleWrite handles w)
    (Tree.write trees w) := by
  cases w with
  | entry path e => exact fun _ _ _ _ hd hap _ => hd.setEntry hap e
  | trivial path v => exact writes_setTrivial _ _ path v
  | bundle path k =>
    intro h a t hke hd hap hoff
    have hk := hha.getElem? k
    rw [State.bundleWrite, Tree.write]
    cases hb : handles[k]? with
    | none =>
      rw [hb] at hk
      generalize trees[k]? = y at hk
      cases hk
      exact ⟨le_rfl, fun _ _ _ => rfl, hd, hap, fun x hx => .inl hx⟩
    | some b =>
      rw [hb] at hk
      generalize trees[k]? = y at hk
      cases hk with
      | some hu =>
        have hmem : b ∈ handles ++ [] := mem_append_left _ (mem_of_getElem? hb)
        exact writes_setBundle hmem hu path h a t hke hd hap hoff
  | attr key v => exact writes_info _ _ fun i =>
    { i with attrs := insertOrAssign i.attrs (canonAttr key) { trivial := v } }
  | clearAttr key => exact writes_info _ _ fun i =>
    { i with attrs := i.attrs.filter fun kv => kv.1 ≠ canonAttr key }
  | mode m => exact writes_info _ _ fun i => { i with mode := m }
  | typeName name => exact writes_info _ _ fun i => { i with typeName := name }
  | valueKind k => exact writes_info _ _ fun i => { i with valueKind := k }

/-! ### Tables without an uncertain scope -/

namespace Table

variable {T : Table σ} (hquiet : T.Quiet)
include hquiet

lemma uncertain_eq_false (i : ℕ) : (T.storage[i]?).any (·.uncertainCond) = false := by
  cases hi : T.storage[i]? with
  | none => rfl
  | some c => exact hquiet c (mem_of_getElem? hi)

lemma inUncertainScope_eq_false : T.inUncertainScope = false :=
  any_eq_false.2 fun i _ => by simp [uncertain_eq_false hquiet i]

lemma crossesUncertainScope_eq_false (decl : ℕ) : T.crossesUncertainScope decl = false := by
  rw [crossesUncertainScope]
  generalize T.storage.length = fuel
  generalize T.stack.head? = i
  induction fuel generalizing i with
  | zero => cases i <;> rfl
  | succ fuel ih =>
    cases i with
    | none => rfl
    | some i =>
      rw [crosses]
      split
      · rfl
      · cases hi : T.storage[i]? with
        | none => rfl
        | some c =>
          dsimp only
          rw [hquiet c (mem_of_getElem? hi), ih]
          rfl

lemma recordUncertainModification_eq (name : Key) : T.recordUncertainModification name = T := by
  have hno : T.stack.find? (fun i => (T.storage[i]?).any (·.uncertainCond)) = none :=
    find?_eq_none.2 fun i _ => by simp [uncertain_eq_false hquiet i]
  rw [recordUncertainModification, hno]

end Table

/-! ### The calls -/

omit [Dlop V] in
lemma Sim.slot (hs : Sim s p) (i : ℕ) (var : Text) :
    (s.table.slot i var = none ∧ p.table.slot i var = none) ∨
    ∃ a t, s.table.slot i var = some a ∧ p.table.slot i var = some t ∧ Denotes s.heap a t := by
  have hsl := hs.table.slot i var
  cases hx : s.table.slot i var with
  | none =>
    rw [hx] at hsl
    generalize p.table.slot i var = y at hsl
    cases hsl
    exact .inl ⟨rfl, rfl⟩
  | some a =>
    rw [hx] at hsl
    generalize p.table.slot i var = y at hsl
    cases hsl with
    | some ht => exact .inr ⟨a, _, rfl, rfl, ht⟩

omit [Dlop V] in
lemma Sim.head?_eq (hs : Sim s p) :
    s.table.stack.head? = p.table.stack.head? := congrArg head? hs.table.stack

lemma Sim.assignWhole (hs : Sim s p) {i : ℕ} {var : Text} (hsl : s.table.slot i var = some a)
    (hd : Denotes s.heap a t)
    (hb : Denotes s.heap b u) :
    Sim (s.assignWhole i var a b)
    { p with table := p.table.assign i var (t.assignWhole (isTmp var) u) } := by
  have hot : ∀ r ∈ s.table.others i var, r ∈ s.refs := fun r hr =>
    mem_append_left _ ((s.table.perm_others hs.distinct hsl).mem_iff.2 (.tail _ hr))
  rw [State.assignWhole, Tree.assignWhole, inUncertainScope_eq_false hs.quiet,
    crossesUncertainScope_eq_false hs.quiet]
  by_cases hab : a = b
  · obtain rfl := hab
    obtain rfl := hd.unique hb
    rw [if_pos rfl, Node.keepFacts_self]
    exact ⟨hs.table.assign hd fun _ _ _ h => h, hs.handles,
      hs.distinct.assign _ _ _, hs.quiet.assign _ _ _⟩
  · rw [if_neg hab]
    have hown : Node.Rel (fun c v => Denotes s.heap c v ∧ ¬s.heap.Reaches c b)
        (s.heap.node b) u.node :=
      hb.rel.imp fun c hc v hcv => ⟨hcv, hb.not_reaches hc⟩
    have hfa := hd.rel.keepFacts hown ⟨isTmp var, false, false⟩
    generalize Node.keepFacts ⟨isTmp var, false, false⟩ (s.heap.node a) (s.heap.node b) = x at hfa
    generalize Node.keepFacts ⟨isTmp var, false, false⟩ t.node u.node = y at hfa
    cases hfa with
    | none => exact ⟨hs.table.assign hb fun _ _ _ h => h, hs.handles,
      hs.distinct.assign _ _ _, hs.quiet.assign _ _ _⟩
    | @some n m hnm =>
      dsimp only
      split
      · -- the value has another owner
        have hke : ∀ r v, Denotes s.heap r v →
          Denotes (s.heap ++ [n]) r v := fun r v hv => hv.append _
        have hnew : Denotes (s.heap ++ [n]) s.heap.length (.mk m) :=
          Denotes.iff_rel.2 ⟨n, by simp, hnm.imp fun c _ v hcv => hke c v hcv.1⟩
        exact ⟨hs.table.assign hnew fun r _ => hke r, hs.handles.imp fun r v => hke r v,
          hs.distinct.assign _ _ _,
          hs.quiet.assign _ _ _⟩
      next hso =>
        have hre : ∀ r ∈ s.refs ++ [b], ∃ t, Denotes s.heap r t := by
          intro r hr
          rcases mem_append.1 hr with hr | hr
          · exact hs.exists_denotes hr
          · exact mem_singleton.1 hr ▸ ⟨u, hb⟩
        have hco : ∀ r ∈ s.refs, r ≠ b := by
          rintro r hr rfl
          have hone := (Nat.le_add_right _ _).trans (not_lt.1 hso)
          have hpos := count_pos_iff.2 hr
          rw [count_append, count_singleton_self] at hone
          omega
        have hset : ∀ x, x ≠ b → (s.heap.set b n)[x]? = s.heap[x]? := fun x hx =>
          getElem?_set_ne hx.symm
        have hke : ∀ r ∈ s.refs, ∀ v, Denotes s.heap r v → Denotes (s.heap.set b n) r v := by
          intro r hr v hv
          refine hv.congr fun x hx => hset x ?_
          rintro rfl
          have hown : ∀ y ∈ x :: s.heap.way x [], s.heap.useCount (s.refs ++ [x]) y ≤ 1 := by
            intro y hy
            rw [mem_singleton.1 hy]
            exact not_lt.1 hso
          exact hb.off_of_owned hre (mem_append_right _ (mem_singleton_self _)) hown
            (mem_append_left _ hr) (hco r hr) (.head _) hx
        have hnew : Denotes (s.heap.set b n) b (.mk m) := by
          refine Denotes.iff_rel.2 ⟨n, getElem?_set_self hb.lt_length,
            hnm.imp fun c _ v hcv => hcv.1.congr fun x hx => hset x ?_⟩
          rintro rfl
          exact hcv.2 hx
        exact ⟨hs.table.assign hnew fun r hr => hke r (hot r hr),
          hs.handles.imp_of_mem fun r hr => hke r (mem_append_right _ hr),
            hs.distinct.assign _ _ _, hs.quiet.assign _ _ _⟩

end

end LiveHD.Upass
