import LiveHD.Upass.BundleTree

/-!
# The symbol table

`upass/core/symbol_table.cpp`.  Scopes map names to shared pointers to bundles.  A whole-variable
assignment stores the pointer it is given, and a bundle that has other references is copied before
it is written in place.
-/

namespace LiveHD.Upass

/-- A dotted name, split: a variable, and the path after its dot. -/
structure Key where
  var : Text
  field : Option (List Seg) := none
deriving DecidableEq

/-- The path that `get_var_field` gives, the slot `0` for a bare name. -/
def Key.path (k : Key) : List Seg := k.field.getD [.zero]

/-- `Lnast::is_tmp` -/
def isTmp (var : Text) : Bool := var.head? = some '%'

/-- `Scope_type`; the other types are walked like `Block`. -/
inductive ScopeType
  | function | block
deriving DecidableEq

/-- `Scope`, over slots `σ`. -/
structure Scope (σ : Type*) where
  type : ScopeType
  funcId : Text := []
  varmap : List (Text × σ) := []
  parent : Option ℕ := none
  uncertainCond : Bool := false
  modifiedUnderUncertainty : List Key := []

/-- The scopes with their numbers, the active ones with the innermost first. -/
structure Table (σ : Type*) where
  storage : List (Scope σ) := []
  stack : List ℕ := []
  blockScopeIndex : List (ℕ × ℕ) := []
  /-- The fields that are declared with a type. -/
  typedFields : List (Text × List Seg) := []

namespace Table

variable {σ : Type*} (T : Table σ)

/-- The nearest scope with the variable, up a chain of parents: it has no more scopes than there
are. -/
def walk (stop : Scope σ → Bool) (var : Text) : ℕ → Option ℕ → Option ℕ
  | 0, _ | _, none => none
  | fuel + 1, some i =>
    match T.storage[i]? with
    | none => none
    | some s => if (s.varmap.lookup var).isSome then some i else if stop s then none
      else walk stop var fuel s.parent

def isFunction (s : Scope σ) : Bool := s.type = .function

/-- `find_decl_scope`: a write does not leave the function. -/
def findDeclScope (var : Text) : Option ℕ := T.walk isFunction var T.storage.length T.stack.head?

/-- `find_decl_scope_read` -/
def findDeclScopeRead (var : Text) : Option ℕ :=
  T.walk (fun _ => false) var T.storage.length T.stack.head?

/-- The nearest function scope, or the outermost one. -/
def anchor : ℕ → ℕ → ℕ
  | 0, i => i
  | fuel + 1, i =>
    match T.storage[i]? with
    | none => i
    | some s =>
      match s.parent with
      | none => i
      | some p => if isFunction s then i else anchor fuel p

variable (innermost : ℕ) (var : Text)

/-- `anchor_for` -/
def anchorFor : ℕ := if isTmp var then T.anchor T.storage.length innermost else innermost

/-- The scope that `set` writes. -/
def target : ℕ := (T.findDeclScope var).getD (T.anchorFor innermost var)

def inUncertainScope : Bool := T.stack.any fun i => (T.storage[i]?).any (·.uncertainCond)

/-- `crosses_uncertain_scope` -/
def crosses (decl : ℕ) : ℕ → Option ℕ → Bool
  | 0, _ | _, none => false
  | fuel + 1, some i =>
    if i = decl then false
    else match T.storage[i]? with
      | none => false
      | some s => s.uncertainCond || crosses decl fuel s.parent

def crossesUncertainScope (decl : ℕ) : Bool := T.crosses decl T.storage.length T.stack.head?

variable (i : ℕ)

def slot (var : Text) : Option σ := (T.storage[i]?).bind (·.varmap.lookup var)

def modifyScope (f : Scope σ → Scope σ) : Table σ := { T with storage := T.storage.modify i f }

/-- `varmap.emplace` of a new name. -/
def emplace (var : Text) (x : σ) : Table σ := T.modifyScope i fun s =>
    { s with varmap := s.varmap ++ [(var, x)] }

/-- The slot of a name is assigned. -/
def assign (var : Text) (x : σ) : Table σ :=
  T.modifyScope i fun s => { s with varmap := s.varmap.map fun kv => if kv.1 = var
    then (kv.1, x) else kv }

/-- `record_uncertain_modification`: on the innermost uncertain scope. -/
def recordUncertainModification (name : Key) : Table σ :=
  match T.stack.find? fun i => (T.storage[i]?).any (·.uncertainCond) with
  | none => T
  | some i => T.modifyScope i fun s =>
    { s with modifiedUnderUncertainty := s.modifiedUnderUncertainty.insert name }

def functionScope (funcId : Text) : Table σ :=
  { T with
    storage := T.storage ++ [{ type := .function, funcId, parent := T.stack.head? }]
    stack := T.storage.length :: T.stack }

/-- `block_scope`: the scope of a key persists. -/
def blockScope (key : ℕ) : Table σ :=
  match T.stack.head? with
  | none => T
  | some top =>
    match T.blockScopeIndex.lookup key with
    | some i => { T.modifyScope i fun s =>
        { s with parent := some top, uncertainCond := false, modifiedUnderUncertainty := [] } with
        stack := i :: T.stack }
    | none => { T with
        storage := T.storage ++ [{
          type := .block
          funcId := ((T.storage[top]?).map Scope.funcId).getD []
          parent := some top }]
        stack := T.storage.length :: T.stack
        blockScopeIndex := (key, T.storage.length) :: T.blockScopeIndex }

/-- All slots. -/
def slots : List σ := T.storage.flatMap fun s => s.varmap.map Prod.snd

end Table

/-! ## The facts of a name -/

section

variable {V σ : Type*} [Dlop V]

/-- `canon_attr` -/
def canonAttr (k : List Seg) : List Seg :=
  if k = [.named ['d', 'e', 'b', 'u', 'g']] then [.named ['_', 'd', 'e', 'b', 'u', 'g']] else k

variable (n : Node V σ) (k : List Seg)

def Node.setAttr (v : V) : Node V σ :=
  { n with attrs := insertOrAssign n.attrs (canonAttr k) { trivial := v } }

def Node.clearAttr : Node V σ := { n with attrs := n.attrs.filter fun kv => kv.1 ≠ canonAttr k }

/-- What a whole-variable assignment looks at besides the two bundles. -/
structure Assignment where
  /-- `Lnast::is_tmp` -/
  tmp : Bool
  inUncertain : Bool
  crossesUncertain : Bool

/-- The declared facts of the entry at slot `0`. -/
def Entry.withDecl (oe ne : Entry V) (armsDisagree dropRiddenDecl : Bool) : Entry V :=
  { ne with
    immutable := false
    declMax := if armsDisagree then none else if oe.declMax.isSome then oe.declMax
      else if dropRiddenDecl then none else ne.declMax
    declMin := if armsDisagree then none else if oe.declMin.isSome then oe.declMin
      else if dropRiddenDecl then none else ne.declMin
    kind := if oe.kind ≠ .unknown then oe.kind else ne.kind }

/-- What `set` makes of a bundle that takes the place of `old`: the facts that ride the name stay.
`none` when the bundle is stored as it is. -/
def Node.keepFacts (c : Assignment) (old new : Node V σ) : Option (Node V σ) :=
  let oe := old.entryZero.getD invalidEntry
  let ne := new.entryZero.getD invalidEntry
  let scalarOk := new.hasNoData || new.entryZero.isSome
  let needMode := old.mode ≠ .unknown && new.mode ≠ old.mode
  let needTn := !old.typeName.isEmpty && new.typeName.isEmpty
  let armsDisagree := scalarOk && c.tmp && c.crossesUncertain &&
    (oe.declMax.isSome || oe.declMin.isSome) &&
    !(oe.declMax = ne.declMax && oe.declMin = ne.declMin)
  let needDecl := scalarOk && !armsDisagree &&
    ((oe.declMax.isSome && ne.declMax ≠ oe.declMax) ||
      (oe.declMin.isSome && ne.declMin ≠ oe.declMin))
  let dropRiddenDecl := scalarOk && c.inUncertain &&
    (old.mode ≠ .constKind || c.crossesUncertain) &&
    oe.declMax.isNone && oe.declMin.isNone && (ne.declMax.isSome || ne.declMin.isSome)
  let dropRiddenMode := old.mode = .unknown && new.mode = .constKind
  let needKind := scalarOk && oe.kind ≠ .unknown && ne.kind ≠ oe.kind
  let needAttrs := old.attrs.filter fun kv => new.attrs.all fun kv' => kv'.1 ≠ kv.1
  if needMode || needTn || needDecl || needKind || dropRiddenDecl || armsDisagree ||
      dropRiddenMode || !needAttrs.isEmpty then
    let new := needAttrs.foldl (fun n kv => n.setAttr kv.1 kv.2.trivial) new
    let new := { new with
      mode := if needMode then old.mode else if dropRiddenMode then .unknown else new.mode
      typeName := if needTn then old.typeName else new.typeName }
    some (if needDecl || needKind || dropRiddenDecl || armsDisagree then
      new.setZero (oe.withDecl ne armsDisagree dropRiddenDecl)
      else new)
  else none

end

/-! ## The table over the store -/

/-- A write in place, through the pointer that `get_bundle_for_write` returns. -/
inductive BundleWrite (V : Type*)
  | entry (path : List Seg) (e : Entry V)
  | trivial (path : List Seg) (v : V)
  | bundle (path : List Seg) (k : ℕ)
  | attr (key : List Seg) (v : V)
  | clearAttr (key : List Seg)
  | mode (m : Mode)
  | typeName (t : Text)
  | valueKind (k : Kind)

/-- The path of a write in place. -/
def BundleWrite.path {V : Type*} : BundleWrite V → List Seg
  | .entry path _ | .trivial path _ | .bundle path _ => path
  | .attr .. | .clearAttr .. | .mode .. | .typeName .. | .valueKind .. => []

/-- The table, the bundles, and the pointers that the callers hold. -/
structure State (V : Type*) where
  table : Table ℕ := {}
  heap : Heap V := []
  handles : List ℕ := []

namespace State

variable {V : Type*} [Dlop V] (s : State V)

/-- All pointers but those of the fields. -/
def refs : List ℕ := s.table.slots ++ s.handles

variable (locals : List ℕ)

/-- `use_count`, `locals` being the pointers of the running call. -/
def useCount (a : ℕ) : ℕ := Linked.useCount s.heap.kids s.heap.length (s.refs ++ locals) a

/-- `unshare_for_write`: the copy constructor copies the fields with their pointers. -/
def unshareForWrite (i : ℕ) (var : Text) (a : ℕ) : State V × ℕ :=
  if 1 < s.useCount locals a then
    ({ s with heap := s.heap ++ [s.heap.node a], table := s.table.assign i var s.heap.length },
      s.heap.length)
  else (s, a)

/-- A slot is un-shared, and its bundle written. -/
def writeSlot (i : ℕ) (var : Text) (a : ℕ) (w : Heap V → ℕ → Heap V) : State V :=
  let r := s.unshareForWrite locals i var a
  { r.1 with heap := w r.1.heap r.2 }

/-- A new bundle for a new name, and then written. -/
def writeNew (i : ℕ) (var : Text) (w : Heap V → ℕ → Heap V) : State V :=
  { s with heap := w (s.heap ++ [{}]) s.heap.length, table := s.table.emplace i var s.heap.length }

def var (key : Key) : State V :=
  match s.table.stack.head? with
  | none => s
  | some cur =>
    match s.table.slot cur key.var with
    | some _ => s
    | none => s.writeNew cur key.var fun h a => h.setTrivial a key.path invalid

def declareBare (var : Text) : State V :=
  match s.table.stack.head? with
  | none => s
  | some top =>
    let cur := s.table.anchorFor top var
    match s.table.slot cur var with
    | some _ => s
    | none => s.writeNew cur var fun h _ => h

/-- A field that is declared with a type keeps the bounds of the entry `old`. -/
def keepBounds (h : Heap V) (typed : Bool) (old : Entry V) (a : ℕ) (path : List Seg) : Heap V :=
  if (old.declMax.isSome || old.declMin.isSome) && h.hasTrivial a path && typed then
    h.setEntry a path { h.getEntry a path with declMax := old.declMax, declMin := old.declMin }
  else h

/-- The write of a bundle to a field. -/
def setField (typed : Bool) (path : List Seg) (b : ℕ) (h : Heap V) (a : ℕ) : Heap V :=
  keepBounds (h.setBundle a path b) typed (h.getEntry a path) a path

/-- The assignment of the bundle `b` to a variable with a slot. -/
def assignWhole (i : ℕ) (var : Text) (a b : ℕ) : State V :=
  let c : Assignment := ⟨isTmp var, s.table.inUncertainScope, s.table.crossesUncertainScope i⟩
  match if a = b then none else (s.heap.node a).keepFacts c (s.heap.node b) with
  | none => { s with table := s.table.assign i var b }
  | some n =>
    if 1 < s.useCount [b] b then { s with
        heap := s.heap ++ [n]
        table := s.table.assign i var s.heap.length }
    else { s with heap := s.heap.set b n, table := s.table.assign i var b }

variable (key : Key)

/-- `set` of a bundle, which the caller gives up. -/
def setBundle (k : ℕ) : State V :=
  match s.table.stack.head?, s.handles[k]? with
  | some top, some b =>
    let i := s.table.target top key.var
    let s := { s with
        table := s.table.recordUncertainModification key
        handles := s.handles.eraseIdx k }
    let typed := (key.var, key.path) ∈ s.table.typedFields
    match s.table.slot i key.var, key.field with
    | none, none => { s with table := s.table.emplace i key.var b }
    | none, some path => s.writeNew i key.var (setField typed path b)
    | some a, none => s.assignWhole i key.var a b
    | some a, some path => s.writeSlot [b] i key.var a (setField typed path b)
  | _, _ => s

/-- `set` of a value. -/
def setTrivial (v : V) : State V :=
  match s.table.stack.head? with
  | none => s
  | some top =>
    let i := s.table.target top key.var
    let s := { s with table := s.table.recordUncertainModification key }
    match s.table.slot i key.var with
    | none => s.writeNew i key.var fun h a => h.setTrivial a key.path v
    | some a => s.writeSlot [] i key.var a fun h a => h.setTrivial a key.path v

/-- `get_bundle`: the pointer of a whole variable, a new bundle for a field. -/
def getBundle : State V :=
  match (s.table.findDeclScopeRead key.var).bind fun i => s.table.slot i key.var with
  | none => s
  | some a =>
    match key.field with
    | none => { s with handles := a :: s.handles }
    | some path =>
      match s.heap.getBundle a path with
      | none => s
      | some r => { s with heap := r.1, handles := r.2 :: s.handles }

/-- `has_trivial` -/
def hasTrivial : Bool :=
  match (s.table.findDeclScopeRead key.var).bind fun i => s.table.slot i key.var with
  | none => false
  | some a => s.heap.hasTrivial a key.path

/-- `get_trivial` -/
def getTrivial : V :=
  match (s.table.findDeclScopeRead key.var).bind fun i => s.table.slot i key.var with
  | none => invalid
  | some a => s.heap.getTrivial a key.path

/-- The write in place itself. -/
def bundleWrite (handles : List ℕ) (w : BundleWrite V) (h : Heap V) (a : ℕ) : Heap V :=
  match w with
  | .entry path e => h.setEntry a path e
  | .trivial path v => h.setTrivial a path v
  | .bundle path k => match handles[k]? with
    | none => h
    | some b => h.setBundle a path b
  | .attr key v => h.modify a (·.setAttr key v)
  | .clearAttr key => h.modify a (·.clearAttr key)
  | .mode m => h.modify a fun n => { n with mode := m }
  | .typeName t => h.modify a fun n => { n with typeName := t }
  | .valueKind k => h.modify a fun n => { n with valueKind := k }

/-- A write in place through `get_bundle_for_write`. -/
def writeInPlace (var : Text) (w : BundleWrite V) : State V :=
  match s.table.findDeclScope var with
  | none => s
  | some i =>
    match s.table.slot i var with
    | none => s
    | some a => s.writeSlot [] i var a (bundleWrite s.handles w)

/-! ### The end of a scope -/

/-- The whole-variable write of a bundle with a slot `0` is undone. -/
def invalidateScalar (a : ℕ) : State V := { s with heap := s.heap.setTrivial a [.zero] invalid }

/-- The first prefix of a leaf that the arm wrote. -/
def writtenPrefix (fields : List (List Seg)) (leaf : List Seg) : Option (List Seg) :=
  leaf.inits.find? fun pre => pre ≠ [] && fields.contains pre

/-- What the leaves of a bundle become: those that the arm wrote, and the fields that the bundle
does not have. -/
def invalidateFields (fields : List (List Seg)) (h : Heap V) (a : ℕ) : Heap V :=
  let leaves := (h.nonAttrEntries a).map Prod.fst
  let covered := leaves.filterMap (writtenPrefix fields)
  let h := (leaves.filter fun leaf => (writtenPrefix fields leaf).isSome).foldl
    (fun h leaf => Heap.setTrivial h a leaf invalid) h
  (fields.filter fun f => !covered.contains f).foldl (fun h f => Heap.setTrivial h a f invalid) h

def invalidateAll (h : Heap V) (a : ℕ) : Heap V :=
  ((h.nonAttrEntries a).map Prod.fst).foldl (fun h leaf => Heap.setTrivial h a leaf invalid) h

/-- What an uncertain arm wrote of one variable is undone in the scope that declares it. -/
def leaveVar (arm : Scope ℕ) (s : State V) (var : Text) : State V :=
  let names := arm.modifiedUnderUncertainty.filter fun k => k.var = var
  match s.table.walk Table.isFunction var s.table.storage.length arm.parent with
  | none => s
  | some i =>
    match s.table.slot i var with
    | none => s
    | some a =>
      let scalarSlot := s.heap.hasTrivial a [.zero] || (s.heap.node a).isEmpty
      if names.any fun k => k.field.isNone then
        if scalarSlot then s.invalidateScalar a else s.writeSlot [] i var a invalidateAll
      else s.writeSlot [] i var a (invalidateFields (names.filterMap Key.field))

/-- `leave_scope` -/
def leaveScope : State V :=
  match s.table.stack with
  | [] => s
  | top :: stack =>
    let s' := match s.table.storage[top]? with
      | none => s
      | some arm =>
        if arm.uncertainCond then ((arm.modifiedUnderUncertainty.map Key.var).dedup).foldl
          (leaveVar arm) s else s
    { s' with table := { s'.table with stack } }

end State

/-! ## Runs -/

/-- The calls.  A pointer that `get_bundle` returns is held until it is dropped, or given to
`set`. -/
inductive Op (V : Type*)
  | functionScope (funcId : Text)
  | blockScope (key : ℕ)
  | leaveScope
  | var (key : Key)
  | declareBare (var : Text)
  | typedField (var : Text) (path : List Seg)
  | getBundle (key : Key)
  | dup (k : ℕ)
  | drop (k : ℕ)
  | setBundle (key : Key) (k : ℕ)
  | setTrivial (key : Key) (v : V)
  | writeInPlace (var : Text) (w : BundleWrite V)

namespace State

variable {V : Type*} [Dlop V]

def step (s : State V) : Op V → State V
  | .functionScope funcId => { s with table := s.table.functionScope funcId }
  | .blockScope key => { s with table := s.table.blockScope key }
  | .leaveScope => s.leaveScope
  | .var key => s.var key
  | .declareBare var => s.declareBare var
  | .typedField var path =>
    { s with table := { s.table with typedFields := (var, path) :: s.table.typedFields } }
  | .getBundle key => s.getBundle key
  | .dup k => { s with handles := s.handles[k]?.toList ++ s.handles }
  | .drop k => { s with handles := s.handles.eraseIdx k }
  | .setBundle key k => s.setBundle key k
  | .setTrivial key v => s.setTrivial key v
  | .writeInPlace var w => s.writeInPlace var w

def run (s : State V) (ops : List (Op V)) : State V := ops.foldl step s

end State

/-! ## The plain environment

The same table where every variable owns its own tuple tree: an assignment copies, and a write goes
to one tree. -/

variable {V : Type*} [Dlop V]

namespace Tree

/-- The write of a tree to a field; a field that is declared with a type keeps its bounds. -/
def setField (t : Tree V) (typed : Bool) (path : List Seg) (u : Tree V) : Tree V :=
  let t' := t.setBundle path u
  if ((t.getEntry path).declMax.isSome || (t.getEntry path).declMin.isSome) &&
      t'.hasTrivial path && typed then
    t'.setEntry path { t'.getEntry path with
        declMax := (t.getEntry path).declMax
        declMin := (t.getEntry path).declMin }
  else t'

/-- The assignment of a whole variable that was `t`: the facts of the name stay. -/
def assignWhole (tmp : Bool) (t u : Tree V) : Tree V :=
  ((t.node.keepFacts ⟨tmp, false, false⟩ u.node).map mk).getD u

def write (handles : List (Tree V)) (w : BundleWrite V) (t : Tree V) : Tree V :=
  match w with
  | .entry path e => t.setEntry path e
  | .trivial path v => t.setTrivial path v
  | .bundle path k => match handles[k]? with
    | none => t
    | some u => t.setBundle path u
  | .attr key v => mk (t.node.setAttr key v)
  | .clearAttr key => mk (t.node.clearAttr key)
  | .mode m => mk { t.node with mode := m }
  | .typeName name => mk { t.node with typeName := name }
  | .valueKind k => mk { t.node with valueKind := k }

end Tree

/-- Scopes of trees, and the trees that the callers hold. -/
structure Plain (V : Type*) where
  table : Table (Tree V) := {}
  handles : List (Tree V) := []

namespace Plain

variable (p : Plain V)

def var (key : Key) : Plain V :=
  match p.table.stack.head? with
  | none => p
  | some cur =>
    match p.table.slot cur key.var with
    | some _ => p
    | none =>
      { p with table := p.table.emplace cur key.var ((Tree.mk {}).setTrivial key.path invalid) }

def declareBare (var : Text) : Plain V :=
  match p.table.stack.head? with
  | none => p
  | some top =>
    match p.table.slot (p.table.anchorFor top var) var with
    | some _ => p
    | none => { p with table := p.table.emplace (p.table.anchorFor top var) var (Tree.mk {}) }

variable (key : Key)

def setBundle (k : ℕ) : Plain V :=
  match p.table.stack.head?, p.handles[k]? with
  | some top, some u =>
    let i := p.table.target top key.var
    let p := { p with handles := p.handles.eraseIdx k }
    let typed := (key.var, key.path) ∈ p.table.typedFields
    match p.table.slot i key.var, key.field with
    | none, none => { p with table := p.table.emplace i key.var u }
    | none, some path =>
      { p with table := p.table.emplace i key.var ((Tree.mk {}).setField typed path u) }
    | some t, none => { p with table := p.table.assign i key.var (t.assignWhole (isTmp key.var) u) }
    | some t, some path => { p with table := p.table.assign i key.var (t.setField typed path u) }
  | _, _ => p

def setTrivial (v : V) : Plain V :=
  match p.table.stack.head? with
  | none => p
  | some top =>
    let i := p.table.target top key.var
    match p.table.slot i key.var with
    | none => { p with table := p.table.emplace i key.var ((Tree.mk {}).setTrivial key.path v) }
    | some t => { p with table := p.table.assign i key.var (t.setTrivial key.path v) }

/-- `get_bundle`, as the tree that it returns. -/
def read : Option (Tree V) :=
  match (p.table.findDeclScopeRead key.var).bind fun i => p.table.slot i key.var with
  | none => none
  | some t =>
    match key.field with
    | none => some t
    | some path => t.getBundle path

def getBundle : Plain V := { p with handles := (p.read key).toList ++ p.handles }

def hasTrivial : Bool :=
  match (p.table.findDeclScopeRead key.var).bind fun i => p.table.slot i key.var with
  | none => false
  | some t => t.hasTrivial key.path

def getTrivial : V :=
  match (p.table.findDeclScopeRead key.var).bind fun i => p.table.slot i key.var with
  | none => invalid
  | some t => t.getTrivial key.path

def writeInPlace (var : Text) (w : BundleWrite V) : Plain V :=
  match p.table.findDeclScope var with
  | none => p
  | some i =>
    match p.table.slot i var with
    | none => p
    | some t => { p with table := p.table.assign i var (t.write p.handles w) }

def step (p : Plain V) : Op V → Plain V
  | .functionScope funcId => { p with table := p.table.functionScope funcId }
  | .blockScope key => { p with table := p.table.blockScope key }
  | .leaveScope => { p with table := { p.table with stack := p.table.stack.tail } }
  | .var key => p.var key
  | .declareBare var => p.declareBare var
  | .typedField var path =>
    { p with table := { p.table with typedFields := (var, path) :: p.table.typedFields } }
  | .getBundle key => p.getBundle key
  | .dup k => { p with handles := p.handles[k]?.toList ++ p.handles }
  | .drop k => { p with handles := p.handles.eraseIdx k }
  | .setBundle key k => p.setBundle key k
  | .setTrivial key v => p.setTrivial key v
  | .writeInPlace var w => p.writeInPlace var w

def run (p : Plain V) (ops : List (Op V)) : Plain V := ops.foldl step p

end Plain

end LiveHD.Upass
