import LiveHD.Upass.SymbolTableSound

/-!
# Runs of the symbol table

Every call keeps the plain environment that the table stands for, as long as it writes bundles with
one owner.
-/

namespace LiveHD.Upass

open List Option Plain Table

variable {V : Type*} {s : State V} {p : Plain V} {a b : ℕ} {t u : Tree V}

namespace State

variable [Dlop V] (s : State V)

/-- The call writes no bundle below one that has a second owner. -/
def Exclusive : Op V → Prop
  | .setTrivial key _ => ∀ top a, s.table.stack.head? = some top →
      s.table.slot (s.table.target top key.var) key.var = some a → s.Owned [] a key.path
  | .setBundle key k => ∀ top b a path, s.table.stack.head? = some top →
      s.handles[k]? = some b → key.field = some path →
      s.table.slot (s.table.target top key.var) key.var = some a →
      Owned { s with handles := s.handles.eraseIdx k } [b] a path
  | .writeInPlace var w => ∀ i a, s.table.findDeclScope var = some i →
    s.table.slot i var = some a → s.Owned [] a w.path
  | _ => True

def ExclusiveRun (s : State V) : List (Op V) → Prop
  | [] => True
  | op :: ops => s.Exclusive op ∧ (s.step op).ExclusiveRun ops

end State

namespace Sim

/-! ## Calls that write no bundle -/

section

variable (hs : Sim s p)
include hs

lemma pop (stack : List ℕ) : Sim { s with table := { s.table with stack } }
    { p with table := { p.table with stack } } :=
  ⟨⟨hs.table.storage, rfl, hs.table.blockScopeIndex, hs.table.typedFields⟩,
    hs.handles, hs.distinct, hs.quiet⟩

lemma typedField (x : Text × List Seg) :
    Sim { s with table := { s.table with typedFields := x :: s.table.typedFields } }
      { p with table := { p.table with typedFields := x :: p.table.typedFields } } :=
  ⟨⟨hs.table.storage, hs.table.stack, hs.table.blockScopeIndex, congrArg _ hs.table.typedFields⟩,
    hs.handles, hs.distinct, hs.quiet⟩

lemma push (hd : Denotes s.heap a t) :
    Sim { s with handles := a :: s.handles } { p with handles := t :: p.handles } :=
  ⟨hs.table, .cons hd hs.handles, hs.distinct, hs.quiet⟩

lemma dup (k : ℕ) : Sim { s with handles := s.handles[k]?.toList ++ s.handles }
    { p with handles := p.handles[k]?.toList ++ p.handles } := by
  have hk := hs.handles.getElem? k
  generalize s.handles[k]? = x at hk
  generalize p.handles[k]? = y at hk
  cases hk with
  | none => exact hs
  | some hd => exact hs.push hd

lemma drop (k : ℕ) : Sim { s with handles := s.handles.eraseIdx k }
    { p with handles := p.handles.eraseIdx k } :=
  ⟨hs.table, hs.handles.eraseIdx k, hs.distinct, hs.quiet⟩

/-- A new scope without names. -/
lemma enter (type : ScopeType) (funcId : Text) (index : List (ℕ × ℕ)) :
    Sim { s with table := { s.table with
        storage := s.table.storage ++ [{ type, funcId, parent := s.table.stack.head? }]
        stack := s.table.storage.length :: s.table.stack
        blockScopeIndex := index } }
      { p with table := { p.table with
        storage := p.table.storage ++ [{ type, funcId, parent := p.table.stack.head? }]
        stack := p.table.storage.length :: p.table.stack
        blockScopeIndex := index } } := by
  refine ⟨⟨rel_append hs.table.storage (.cons ⟨rfl, rfl, hs.head?_eq, rfl, .nil⟩ .nil), ?_,
    rfl, hs.table.typedFields⟩,
    hs.handles, fun c hc => ?_, fun c hc => ?_⟩
  · exact congrArg₂ cons hs.table.storage.length_eq hs.table.stack
  · rcases mem_append.1 hc with hc | hc
    · exact hs.distinct c hc
    · rw [mem_singleton.1 hc]
      exact nodup_nil
  · rcases mem_append.1 hc with hc | hc
    · exact hs.quiet c hc
    · rw [mem_singleton.1 hc]

lemma functionScope (funcId : Text) :
    Sim { s with table := s.table.functionScope funcId }
    { p with table := p.table.functionScope funcId } := by
  have hen := hs.enter .function funcId s.table.blockScopeIndex
  rwa [Table.functionScope, Table.functionScope, ← hs.table.blockScopeIndex]

lemma blockScope (key : ℕ) : Sim { s with table := s.table.blockScope key }
    { p with table := p.table.blockScope key } := by
  rw [Table.blockScope, Table.blockScope, ← hs.head?_eq, ← hs.table.blockScopeIndex]
  cases htop : s.table.stack.head? with
  | none => exact hs
  | some top =>
    dsimp only
    cases s.table.blockScopeIndex.lookup key with
    | some i =>
      -- the scope of the block opens again, with its names
      refine ⟨⟨?_, congrArg _ hs.table.stack, hs.table.blockScopeIndex, hs.table.typedFields⟩,
        hs.handles, fun c hc => ?_,
        hs.quiet.modifyScope i fun _ _ => rfl⟩
      · exact hs.table.storage.modify (fun _ _ _ hrel => ⟨hrel.type, hrel.funcId, rfl, rfl,
          hrel.varmap⟩) fun _ _ _ hrel => hrel
      · rcases mem_modifyScope hc with hc | ⟨c', hc', rfl⟩
        · exact hs.distinct c hc
        · exact hs.distinct c' (mem_of_getElem? hc')
    | none =>
      have hfu : ((s.table.storage[top]?).map Scope.funcId).getD [] =
          ((p.table.storage[top]?).map Scope.funcId).getD [] := by
        have hsc := hs.table.storage.getElem? top
        generalize s.table.storage[top]? = x at hsc
        generalize p.table.storage[top]? = y at hsc
        cases hsc with
        | none => rfl
        | some hrel => exact hrel.funcId
      have hen := hs.enter .block (((s.table.storage[top]?).map Scope.funcId).getD [])
        ((key, s.table.storage.length) :: s.table.blockScopeIndex)
      rw [← hfu, ← hs.table.storage.length_eq]
      rwa [← hs.head?_eq, htop, ← hs.table.storage.length_eq] at hen

end

/-! ## Calls that write -/

variable [Dlop V]

lemma var (hs : Sim s p) (key : Key) : Sim (s.var key) (p.var key) := by
  rw [State.var, Plain.var, ← hs.head?_eq]
  cases s.table.stack.head? with
  | none => exact hs
  | some cur =>
    dsimp only
    rcases hs.slot cur key.var with ⟨hsl, hsl'⟩ | ⟨a, t, hsl, hsl', -⟩
    · rw [hsl, hsl']
      exact hs.writeNew (forall_mem_nil _) hsl (writes_setTrivial _ _ key.path invalid)
    · rwa [hsl, hsl']

omit [Dlop V] in
lemma declareBare (hs : Sim s p) (var : Text) : Sim (s.declareBare var) (p.declareBare var) := by
  rw [State.declareBare, Plain.declareBare, ← hs.head?_eq]
  cases s.table.stack.head? with
  | none => exact hs
  | some top =>
    dsimp only
    rw [← hs.table.anchorFor]
    rcases hs.slot (s.table.anchorFor top var) var with ⟨hsl, hsl'⟩ | ⟨a, t, hsl, hsl', -⟩
    · rw [hsl, hsl']
      exact hs.writeNew (forall_mem_nil _) hsl (writes_nothing _ _)
    · rwa [hsl, hsl']

lemma setTrivial (hs : Sim s p) {key : Key} {v : V} (hexc : s.Exclusive (.setTrivial key v)) :
    Sim (s.setTrivial key v) (p.setTrivial key v) := by
  rw [State.setTrivial, Plain.setTrivial, ← hs.head?_eq]
  cases htop : s.table.stack.head? with
  | none => exact hs
  | some top =>
    dsimp only
    rw [recordUncertainModification_eq hs.quiet, ← hs.table.target]
    rcases hs.slot (s.table.target top key.var) key.var with ⟨hsl, hsl'⟩ | ⟨a, t, hsl, hsl', hd⟩
    · rw [hsl, hsl']
      exact hs.writeNew (forall_mem_nil _) hsl (writes_setTrivial _ _ key.path v)
    · rw [hsl, hsl']
      exact hs.writeSlot (forall_mem_nil _) hsl hd (hexc top a htop hsl)
        (writes_setTrivial _ _ key.path v)

lemma setBundle (hs : Sim s p) {key : Key} {k : ℕ} (hexc : s.Exclusive (.setBundle key k)) :
    Sim (s.setBundle key k) (p.setBundle key k) := by
  have hk := hs.handles.getElem? k
  rw [State.setBundle, Plain.setBundle, ← hs.head?_eq]
  cases htop : s.table.stack.head? with
  | none => exact hs
  | some top =>
    cases hb : s.handles[k]? with
    | none =>
      rw [hb] at hk
      generalize p.handles[k]? = y at hk
      cases hk
      exact hs
    | some b =>
      rw [hb] at hk
      generalize p.handles[k]? = y at hk
      cases hk with
      | @some _ u hu =>
        have hdr := hs.drop k
        dsimp only
        rw [recordUncertainModification_eq hs.quiet, ← hs.table.target, ← hs.table.typedFields]
        rcases hs.slot (s.table.target top key.var) key.var with ⟨hsl, hsl'⟩ | ⟨a, t, hsl, hsl', hd⟩
        · rw [hsl, hsl']
          cases hf : key.field with
          | none =>
            exact ⟨hs.table.emplace hu fun _ _ _ h => h, hdr.handles,
              hs.distinct.emplace hsl _, hs.quiet.emplace _ _ _⟩
          | some path =>
            exact hdr.writeNew (forall_mem_singleton.2 ⟨u, hu⟩) hsl
              (writes_setField (mem_singleton_self b) hu _ path)
        · rw [hsl, hsl']
          cases hf : key.field with
          | none => exact hdr.assignWhole hsl hd hu
          | some path =>
            exact hdr.writeSlot (forall_mem_singleton.2 ⟨u, hu⟩) hsl hd
              (hexc top b a path htop hb hf hsl)
              (writes_setField (mem_append_right _ (mem_singleton_self b)) hu _ path)

lemma writeInPlace (hs : Sim s p) {var : Text} {w : BundleWrite V}
    (hexc : s.Exclusive (.writeInPlace var w)) :
    Sim (s.writeInPlace var w) (p.writeInPlace var w) := by
  rw [State.writeInPlace, Plain.writeInPlace, ← hs.table.findDeclScope]
  cases hi : s.table.findDeclScope var with
  | none => exact hs
  | some i =>
    dsimp only
    rcases hs.slot i var with ⟨hsl, hsl'⟩ | ⟨a, t, hsl, hsl', hd⟩
    · rwa [hsl, hsl']
    · rw [hsl, hsl']
      exact hs.writeSlot (forall_mem_nil _) hsl hd (hexc i a hi hsl)
        (writes_bundleWrite hs.handles w)

omit [Dlop V] in
/-- The variable that a read finds. -/
lemma found (hs : Sim s p) (var : Text) :
    Option.Rel (Denotes s.heap) ((s.table.findDeclScopeRead var).bind fun i => s.table.slot i var)
      ((p.table.findDeclScopeRead var).bind fun i => p.table.slot i var) := by
  rw [← hs.table.findDeclScopeRead]
  cases s.table.findDeclScopeRead var with
  | none => exact .none
  | some i => exact hs.table.slot i var

omit [Dlop V] in
lemma getBundle (hs : Sim s p) (key : Key) : Sim (s.getBundle key) (p.getBundle key) := by
  have hf := hs.found key.var
  rw [State.getBundle, Plain.getBundle, Plain.read]
  generalize (s.table.findDeclScopeRead key.var).bind (fun i => s.table.slot i key.var) = x at hf
  generalize (p.table.findDeclScopeRead key.var).bind (fun i => p.table.slot i key.var) = y at hf
  cases hf with
  | none => exact hs
  | some hd =>
    cases key.field with
    | none => exact hs.push hd
    | some path =>
      have hrd := hd.getBundle path
      dsimp only
      generalize s.heap.getBundle _ path = x at hrd
      generalize Tree.getBundle _ path = y at hrd
      cases hrd with
      | none => exact hs
      | some hc => exact (hs.heap fun r _ t ht => ht.grow hc.same).push hc.denotes

omit [Dlop V] in
lemma hasTrivial (hs : Sim s p) (key : Key) : s.hasTrivial key = p.hasTrivial key := by
  have hf := hs.found key.var
  rw [State.hasTrivial, Plain.hasTrivial]
  generalize (s.table.findDeclScopeRead key.var).bind (fun i => s.table.slot i key.var) = x at hf
  generalize (p.table.findDeclScopeRead key.var).bind (fun i => p.table.slot i key.var) = y at hf
  cases hf with
  | none => rfl
  | some hd => exact hd.hasTrivial key.path

lemma getTrivial (hs : Sim s p) (key : Key) : s.getTrivial key = p.getTrivial key := by
  have hf := hs.found key.var
  rw [State.getTrivial, Plain.getTrivial]
  generalize (s.table.findDeclScopeRead key.var).bind (fun i => s.table.slot i key.var) = x at hf
  generalize (p.table.findDeclScopeRead key.var).bind (fun i => p.table.slot i key.var) = y at hf
  cases hf with
  | none => rfl
  | some hd => exact hd.getTrivial key.path

lemma leaveScope (hs : Sim s p) :
    Sim s.leaveScope { p with table := { p.table with stack := p.table.stack.tail } } := by
  rw [State.leaveScope, ← hs.table.stack]
  cases hst : s.table.stack with
  | nil =>
    exact ⟨⟨hs.table.storage, hst, hs.table.blockScopeIndex, hs.table.typedFields⟩,
      hs.handles, hs.distinct, hs.quiet⟩
  | cons top stack =>
    dsimp only
    have hpop := hs.pop stack
    cases htop : s.table.storage[top]? with
    | none => exact hpop
    | some arm =>
      dsimp only
      rwa [hs.quiet arm (mem_of_getElem? htop)]

end Sim

/-! ## Runs -/

variable [Dlop V]

lemma Sim.step (hs : Sim s p) {op : Op V} (hexc : s.Exclusive op) :
    Sim (s.step op) (p.step op) := by
  cases op with
  | functionScope funcId => exact hs.functionScope funcId
  | blockScope key => exact hs.blockScope key
  | leaveScope => exact hs.leaveScope
  | var key => exact hs.var key
  | declareBare var => exact hs.declareBare var
  | typedField var path => exact hs.typedField (var, path)
  | getBundle key => exact hs.getBundle key
  | dup k => exact hs.dup k
  | drop k => exact hs.drop k
  | setBundle key k => exact hs.setBundle hexc
  | setTrivial key v => exact hs.setTrivial hexc
  | writeInPlace var w => exact hs.writeInPlace hexc

lemma Sim.run (hs : Sim s p) {ops : List (Op V)} (hexc : s.ExclusiveRun ops) :
    Sim (s.run ops) (p.run ops) := by
  induction ops generalizing s p with
  | nil => exact hs
  | cons op ops ih => exact ih (hs.step hexc.1) hexc.2

omit [Dlop V] in
lemma Sim.init : Sim ({} : State V) {} := ⟨⟨.nil, rfl, rfl, rfl⟩, .nil, nofun, nofun⟩

/-! ## Other variables -/

/-- The variable that a call writes. -/
def Op.written : Op V → Option Text
  | .var key | .setBundle key _ | .setTrivial key _ => some key.var
  | .declareBare name | .writeInPlace name _ => some name
  | _ => none

namespace Table

variable {σ : Type*} (T : Table σ) {x y : Text} {f : Scope σ → Scope σ}

/-- The variable that a read finds. -/
def found (var : Text) : Option σ := (T.findDeclScopeRead var).bind fun i => T.slot i var

lemma found_modifyScope (i : ℕ) (hpa : ∀ s, (f s).parent = s.parent)
    (hlk : ∀ s, (f s).varmap.lookup y = s.varmap.lookup y) :
    (T.modifyScope i f).found y = T.found y := by
  have hsc : ∀ j : ℕ, ((T.modifyScope i f).storage[j]?).map
      (fun s : Scope σ => (s.varmap.lookup y, s.parent)) =
      (T.storage[j]?).map fun s : Scope σ => (s.varmap.lookup y, s.parent) := by
    intro j
    rw [modifyScope, getElem?_modify]
    cases T.storage[j]? with
    | none => rfl
    | some s =>
      refine congrArg some (?_ : (_, _) = (_, _))
      dsimp only
      split
      · rw [hlk, hpa]
      · rfl
  have hsl : ∀ j, (T.modifyScope i f).slot j y = T.slot j y := by
    intro j
    have hj := hsc j
    rw [slot, slot]
    cases h : T.storage[j]? with
    | none =>
      rw [h, map_none, map_eq_none_iff] at hj
      rw [hj]
    | some s =>
      rw [h] at hj
      obtain ⟨s', hs', heq⟩ := map_eq_some_iff.1 hj
      rw [hs']
      exact congrArg Prod.fst heq
  have hwa : ∀ fuel j, (T.modifyScope i f).walk (fun _ => false) y fuel j =
      T.walk (fun _ => false) y fuel j := by
    intro fuel
    induction fuel with
    | zero => intro j; cases j <;> rfl
    | succ fuel ih =>
      intro j
      cases j with
      | none => rfl
      | some j =>
        have hj := hsc j
        rw [walk, walk]
        cases h : T.storage[j]? with
        | none =>
          rw [h, map_none, map_eq_none_iff] at hj
          rw [hj]
        | some s =>
          rw [h] at hj
          obtain ⟨s', hs', heq⟩ := map_eq_some_iff.1 hj
          rw [hs']
          obtain ⟨hl, hp⟩ := Prod.mk.inj heq
          dsimp only
          rw [hl, hp, ih]
  have hlen : (T.modifyScope i f).storage.length = T.storage.length := length_modify _ _ _
  rw [found, found, findDeclScopeRead, findDeclScopeRead, hlen, hwa]
  exact congrArg _ (funext hsl)

lemma found_assign (hxy : x ≠ y) (i : ℕ) (v : σ) : (T.assign i x v).found y = T.found y := by
  refine T.found_modifyScope i (fun _ => rfl) fun s => ?_
  induction s.varmap with
  | nil => rfl
  | cons kv l ih =>
    obtain ⟨k, z⟩ := kv
    rw [map_cons, lookup_cons, lookup_cons]
    by_cases hk : k = x
    · rw [if_pos hk, hk, beq_false_of_ne hxy.symm]
      exact ih
    · rw [if_neg hk, ih]

lemma found_emplace (hxy : x ≠ y) (i : ℕ) (v : σ) : (T.emplace i x v).found y = T.found y := by
  refine T.found_modifyScope i (fun _ => rfl) fun s => ?_
  rw [lookup_append, lookup_cons, beq_false_of_ne hxy.symm, lookup_nil, or_none]

end Table

lemma Plain.found_step {op : Op V} {x y : Text} (hop : op.written = some x) (hxy : x ≠ y) :
    (p.step op).table.found y = p.table.found y := by
  cases op with
  | functionScope _ | blockScope _ | leaveScope | typedField _ _ | getBundle _ | dup _ | drop _ =>
    cases hop
  | var key =>
    cases hop
    rw [step, var]
    split
    · rfl
    · split
      · rfl
      · exact Table.found_emplace _ hxy _ _
  | declareBare var =>
    cases hop
    rw [step, declareBare]
    split
    · rfl
    · split
      · rfl
      · exact found_emplace _ hxy _ _
  | setBundle key k =>
    cases hop
    rw [step, setBundle]
    split
    · dsimp only
      split
      · exact found_emplace _ hxy _ _
      · exact found_emplace _ hxy _ _
      · exact found_assign _ hxy _ _
      · exact found_assign _ hxy _ _
    · rfl
  | setTrivial key v =>
    cases hop
    rw [step, setTrivial]
    split
    · rfl
    · dsimp only
      split
      · exact found_emplace _ hxy _ _
      · exact found_assign _ hxy _ _
  | writeInPlace var w =>
    cases hop
    rw [step, writeInPlace]
    split
    · rfl
    · split
      · rfl
      · exact Table.found_assign _ hxy _ _

lemma Plain.reads_congr {p p' : Plain V} {key : Key}
    (h : p'.table.found key.var = p.table.found key.var) :
    p'.hasTrivial key = p.hasTrivial key ∧ p'.getTrivial key = p.getTrivial key ∧
    p'.read key = p.read key := by
  unfold hasTrivial getTrivial read
  rw [show (p'.table.findDeclScopeRead key.var).bind (fun i => p'.table.slot i key.var) = _ from h]
  exact ⟨rfl, rfl, rfl⟩

/-- In a run whose calls write below no bundle with a second owner, the reads are those of the plain
environment, and a call that writes one variable leaves the reads of the others. -/
theorem State.exclusive_reads (ops : List (Op V))
    (hexclusive : ExclusiveRun ({} : State V) ops) (key : Key) :
    (run {} ops).hasTrivial key = (Plain.run {} ops).hasTrivial key ∧
    (run {} ops).getTrivial key = (Plain.run {} ops).getTrivial key ∧
    Forall₂ (Denotes ((run {} ops).getBundle key).heap) ((run {} ops).getBundle key).handles
      ((Plain.run {} ops).getBundle key).handles ∧
    ∀ op x, (run {} ops).Exclusive op → op.written = some x → x ≠ key.var →
      ((run {} ops).step op).hasTrivial key = (run {} ops).hasTrivial key ∧
      ((run {} ops).step op).getTrivial key = (run {} ops).getTrivial key ∧
      ((Plain.run {} ops).step op).read key = (Plain.run {} ops).read key := by
  have hs := Sim.init.run hexclusive
  refine ⟨hs.hasTrivial key, hs.getTrivial key, (hs.getBundle key).handles,
    fun op x hop hwritten hx => ?_⟩
  have hfound := Plain.found_step (p := Plain.run {} ops) hwritten hx
  have hstep := hs.step hop
  obtain ⟨hht, hgt, hrd⟩ := Plain.reads_congr hfound
  refine ⟨?_, ?_, hrd⟩
  · rw [hstep.hasTrivial, hs.hasTrivial, hht]
  · rw [hstep.getTrivial, hs.getTrivial, hgt]

/-- Constants without unknown bits. -/
instance : Dlop (Option ℤ) where
  invalid := none
  isInvalid := Option.isNone
  hasUnknowns := fun _ => false

/-- `p.a.b = 0`, `p.a.c = 1`, `q = p`, `q.d.b = 2`. -/
def copiedField : List (Op (Option ℤ)) :=
  [.functionScope [], .setTrivial ⟨['p'], some [.named ['a'], .named ['b']]⟩ (some 0),
    .setTrivial ⟨['p'], some [.named ['a'], .named ['c']]⟩ (some 1), .getBundle ⟨['p'], none⟩,
    .setBundle ⟨['q'], none⟩ 0,
    .setTrivial ⟨['q'], some [.named ['d'], .named ['b']]⟩ (some 2)]

/-- The sub-bundle that the copy shares keeps its fields, while another one is made next to it. -/
theorem State.exclusive_reads_copiedField :
    (run {} copiedField).getTrivial ⟨['p'], some [.named ['a'], .named ['b']]⟩ = some 0 ∧
    (run {} copiedField).getTrivial ⟨['q'], some [.named ['d'], .named ['b']]⟩ = some 2 := by
  have hexclusive : ExclusiveRun {} copiedField := by
    refine ⟨trivial, ?_, ?_, trivial, ?_, ?_, trivial⟩
    · rintro top a ⟨⟩ ⟨⟩
    · rintro top a ⟨⟩ ⟨⟩
      exact .inr (by decide)
    · rintro top b a path ⟨⟩ ⟨⟩ ⟨⟩
    · rintro top a ⟨⟩ ⟨⟩
      exact .inl rfl
  exact ⟨(exclusive_reads copiedField hexclusive _).2.1.trans (by decide),
    (exclusive_reads copiedField hexclusive _).2.1.trans (by decide)⟩

/-- `p.a.b = 0`, `q = p`, `q.a.b = 1`. -/
def sharedField : List (Op (Option ℤ)) :=
  [.functionScope [], .setTrivial ⟨['p'], some [.named ['a'], .named ['b']]⟩ (some 0),
    .getBundle ⟨['p'], none⟩,
    .setBundle ⟨['q'], none⟩ 0, .setTrivial ⟨['q'], some [.named ['a'], .named ['b']]⟩ (some 1)]

/-- The write of `q` goes through the sub-bundle of `p`. -/
theorem sharedField_reads : (State.run {} sharedField).getTrivial ⟨['p'],
    some [.named ['a'], .named ['b']]⟩ = some 1 ∧
    (run {} sharedField).getTrivial ⟨['p'], some [.named ['a'], .named ['b']]⟩ = some 0 := by
  decide

end LiveHD.Upass
