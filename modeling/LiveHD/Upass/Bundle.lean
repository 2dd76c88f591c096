import LiveHD.Lib.Linked

/-!
# Bundles

`upass/core/bundle.cpp`: the value of a binding as a tree of fields.  A bundle holds a bare scalar
or a vector of fields, a field a leaf or a shared pointer to a bundle.  The bundles stand in a store
and a shared pointer is an address of it, so that one bundle can be the value of two variables.
-/

namespace LiveHD.Upass

/-- `upass::Kind` -/
inductive Kind
  | unknown | integer | boolean | string | range | tuple | nil | enumv | typeName
deriving DecidableEq

/-- `upass::Mode` -/
inductive Mode
  | unknown | mutKind | constKind | regKind | awaitKind | typeKind | wireKind
deriving DecidableEq

/-- The compile-time values. -/
class Dlop (V : Type*) where
  invalid : V
  isInvalid : V → Bool
  hasUnknowns : V → Bool

export Dlop (invalid)

/-- `Bundle::Entry`, a bound that is not set being `none`. -/
structure Entry (V : Type*) where
  trivial : V
  declMax : Option ℤ := none
  declMin : Option ℤ := none
  bwMax : Option ℤ := none
  bwMin : Option ℤ := none
  kind : Kind := .unknown
  mode : Mode := .unknown
  immutable : Bool := false
  comptime : Bool := false
deriving DecidableEq

abbrev Text := List Char

/-- A segment of a path: a name, or a position. -/
inductive Seg
  | named (name : Text)
  | unnamed (pos : ℕ)
deriving DecidableEq

/-- A field: a leaf value where it has no `sub`. -/
structure Field (V σ : Type*) where
  seg : Seg
  leaf : Entry V
  sub : Option σ
deriving DecidableEq

/-- What a bundle holds besides its fields; `scalar` is `none` where `has_scalar_` is false. -/
structure Info (V : Type*) where
  scalar : Option (Entry V) := none
  /-- `attr_map`, in its order. -/
  attrs : List (List Seg × Entry V) := []
  mode : Mode := .unknown
  typeName : Text := []
  valueKind : Kind := .unknown
  immutable : Bool := false
  correct : Bool := true
deriving DecidableEq

/-- A bundle over pointers `σ`. -/
structure Node (V σ : Type*) extends Info V where
  fields : List (Field V σ) := []
deriving DecidableEq

variable {V σ : Type*}

section

variable [Dlop V]

/-- `Entry()` -/
instance : Inhabited (Entry V) := ⟨{ trivial := invalid }⟩

/-- The entry that stands for a missing one. -/
def invalidEntry : Entry V := { trivial := invalid, immutable := true }

/-- `value_entry`: a value that is written keeps the facts of the entry. -/
def Entry.value (e : Entry V) (immutable : Bool) (trivial : V) : Entry V :=
  { e with trivial, immutable, bwMax := none, bwMin := none }

end

/-- The unnamed slot `0`. -/
def Seg.zero : Seg := .unnamed 0

/-! ## The attributes -/

/-- `segment_category` -/
def Seg.category : Seg → ℕ
  | .named name => if ['_', '_'].isPrefixOf name then 0 else 1
  | .unnamed _ => 2

/-- `Canonical_less` -/
def canonicalLess : List Seg → List Seg → Bool
  | a :: as, b :: bs =>
    if a.category ≠ b.category then decide (a.category < b.category)
    else if a = b then canonicalLess as bs
    else match a, b with
      | .unnamed p, .unnamed q => decide (p < q)
      | .named x, .named y => decide (x < y)
      | _, _ => false
  | [], _ :: _ => true
  | _, [] => false

/-- `insert_or_assign` of the attribute map. -/
def insertOrAssign {E : Type*} (m : List (List Seg × E)) (k : List Seg)
    (e : E) : List (List Seg × E) :=
  match m with
  | [] => [(k, e)]
  | (k', e') :: m =>
    if canonicalLess k' k then (k', e') :: insertOrAssign m k e
    else if k' = k then (k, e) :: m
    else (k, e) :: (k', e') :: m

/-- The attributes of the fields below a path, with what their keys have after it. -/
def attrsUnder {E : Type*} (m : List (List Seg × E)) (path : List Seg) : List (List Seg × E) :=
  ((m.dropWhile fun kv => canonicalLess kv.1 path).takeWhile fun kv => path.isPrefixOf
      kv.1).filterMap fun kv =>
    if kv.1 = path then none else some (kv.1.drop path.length, kv.2)

/-! ## One bundle -/

namespace Node

def fieldIndexThreshold : ℕ := 64

variable (n : Node V σ)

/-- `field_index_`: fields are appended only, and the first of a segment keeps its place. -/
def fieldIndex (s : Seg) : Option ℕ := n.fields.findIdx? (·.seg = s)

/-- Position `p` of a dense array is at slot `p`. -/
def denseSlot : Seg → Option ℕ
  | .named _ => none
  | .unnamed p => if (n.fields[p]?).any (·.seg = .unnamed p) then some p else none

/-- `find_field`, as the number of the field. -/
def findField (s : Seg) : Option ℕ :=
  if fieldIndexThreshold ≤ n.fields.length then n.fieldIndex s
  else match n.denseSlot s with
    | some p => some p
    | none => n.fields.findIdx? (·.seg = s)

def appendField (f : Field V σ) : Node V σ := { n with fields := n.fields ++ [f] }

def modifyField (i : ℕ) (f : Field V σ → Field V σ) : Node V σ :=
  { n with fields := n.fields.modify i f }

/-- `spill_scalar` -/
def spillScalar : Node V σ :=
  match n.scalar with
  | none => n
  | some e => { n with scalar := none }.appendField ⟨.zero, e, none⟩

/-- The field of a segment. -/
def field (s : Seg) : Option (Field V σ) := (n.findField s).bind (n.fields[·]?)

/-- The leaf of a segment: a sub-bundle is not a leaf. -/
def leaf (s : Seg) : Option (Entry V) := (n.field s).bind fun f =>
    if f.sub.isNone then some f.leaf else none

/-- The sub-bundle of a segment. -/
def sub (s : Seg) : Option σ := (n.field s).bind Field.sub

/-- The field of a segment is overwritten, or appended. -/
def putField (f : Field V σ) : Node V σ :=
  match n.findField f.seg with
  | some i => n.modifyField i fun g => { g with leaf := f.leaf, sub := f.sub }
  | none => n.appendField f

/-- The leaf of a field is reset. -/
def clearLeaf [Dlop V] (s : Seg) : Node V σ :=
  match n.findField s with
  | none => n
  | some i => n.modifyField i fun f => { f with leaf := default }

/-- The bare scalar that a bundle stands for: the inline one, or a lone leaf at the unnamed slot
`0`. -/
def bareScalar : Option (Entry V) :=
  match n.scalar, n.fields with
  | some e, _ => some e
  | none, [f] => if f.seg = .zero ∧ f.sub.isNone then some f.leaf else none
  | none, _ => none

def hasNoData : Bool := n.scalar.isNone && n.fields.isEmpty

def isEmpty : Bool := n.hasNoData && n.attrs.isEmpty

/-- The entry at the unnamed slot `0`. -/
def entryZero : Option (Entry V) :=
  match n.scalar with
  | some e => some e
  | none => n.leaf .zero

/-- `set` at the unnamed slot `0`. -/
def setZero (e : Entry V) : Node V σ :=
  if n.fields.isEmpty then { n with scalar := some e } else n.spillScalar.putField ⟨.zero, e, none⟩

/-- Attributes are written. -/
def putAttrs (kvs : List (List Seg × Entry V)) : Node V σ :=
  { n with attrs := kvs.foldl (fun m kv => insertOrAssign m kv.1 kv.2) n.attrs }

/-- Whether a field comes before another: names in their order, then positions in theirs. -/
def fieldLe (f g : Field V σ) : Bool :=
  match f.seg, g.seg with
  | .named x, .named y => decide (x ≤ y)
  | .named _, .unnamed _ => true
  | .unnamed _, .named _ => false
  | .unnamed p, .unnamed q => decide (p ≤ q)

/-- `sorted_fields` -/
def sortedFields : List (Field V σ) := n.fields.mergeSort fieldLe

/-- The pointers of a bundle. -/
def subs : List σ := n.fields.filterMap Field.sub

end Node

/-! ## The store -/

/-- The bundles by their addresses. -/
abbrev Heap (V : Type*) := List (Node V ℕ)

namespace Heap

variable (h : Heap V)

/-- The pointers of the bundle at an address. -/
def kids (a : ℕ) : Option (List ℕ) := (h[a]?).map Node.subs

def node (a : ℕ) : Node V ℕ := h.getD a {}

/-- `make_shared` -/
def alloc (n : Node V ℕ) : Heap V × ℕ := (h ++ [n], h.length)

/-- The copies of the fields, those of the sub-bundles made by `copy`. -/
def cloneFields (copy : Heap V → ℕ → Heap V × ℕ) :
    Heap V → List (Field V ℕ) → Heap V × List (Field V ℕ)
  | h, [] => (h, [])
  | h, f :: fs =>
    match f.sub with
    | none => ((cloneFields copy h fs).1, f :: (cloneFields copy h fs).2)
    | some b =>
      ((cloneFields copy (copy h b).1 fs).1,
        { f with sub := some (copy h b).2 } :: (cloneFields copy (copy h b).1 fs).2)

/-- `clone`, at most `fuel` levels of it. -/
def cloneFuel : ℕ → Heap V → ℕ → Heap V × ℕ
  | 0, h, a => (h, a)
  | fuel + 1, h, a => alloc (cloneFields (cloneFuel fuel) h (h.node a).fields).1
      { h.node a with fields := (cloneFields (cloneFuel fuel) h (h.node a).fields).2 }

/-- `clone`: the levels of a bundle are no more than the bundles. -/
def clone (a : ℕ) : Heap V × ℕ := cloneFuel h.length h a

/-- The owner of the last segment of a path. -/
def descend : ℕ → List Seg → Option ℕ
  | a, s :: s' :: path =>
    if (h.node a).scalar.isSome then none
    else match (h.node a).sub s with
      | none => none
      | some b => descend b (s' :: path)
  | a, _ => some a

/-- The leaf at a path. -/
def entry (a : ℕ) (path : List Seg) : Option (Entry V) :=
  match (h.node a).scalar with
  | some e => if path = [.zero] then some e else none
  | none => (path.getLast?).bind fun last => (h.descend a path).bind fun owner =>
    (h.node owner).leaf last

def hasTrivial (a : ℕ) (path : List Seg) : Bool := (h.entry a path).isSome

/-- `flatten_into`, at most `fuel` levels of it. -/
def flattenInto : ℕ → ℕ → List Seg → List (List Seg × Entry V)
  | 0, _, _ => []
  | fuel + 1, a, key =>
    match (h.node a).scalar with
    | some e => [(if key = [] then [.zero] else key, e)]
    | none => (h.node a).sortedFields.flatMap fun f =>
      match f.sub with
      | some b => flattenInto fuel b (key ++ [f.seg])
      | none => [(key ++ [f.seg], f.leaf)]

/-- `non_attr_entries` -/
def nonAttrEntries (a : ℕ) : List (List Seg × Entry V) := h.flattenInto h.length a []

section

variable [Dlop V]

def getEntry (a : ℕ) (path : List Seg) : Entry V := (h.entry a path).getD invalidEntry

def getTrivial (a : ℕ) (path : List Seg) : V := (h.getEntry a path).trivial

/-- One level of `descend_or_create`. -/
def enter (a : ℕ) (s : Seg) : Heap V × ℕ :=
  let n := (h.node a).spillScalar
  match n.findField s with
  | none => (h.set a (n.appendField ⟨s, default, some h.length⟩) ++ [{}], h.length)
  | some i =>
    match n.sub s with
    | some b => (h.set a n, b)
    -- a leaf becomes a sub-bundle that holds it
    | none =>
        (h.set a (n.modifyField i fun f => { f with leaf := default, sub := some h.length }) ++
        [{ scalar := (n.fields[i]?).map Field.leaf }], h.length)

/-- `descend_or_create`: the owner of the last segment. -/
def descendOrCreate : Heap V → ℕ → List Seg → Heap V × ℕ
  | h, a, s :: s' :: path => descendOrCreate (h.enter a s).1 (h.enter a s).2 (s' :: path)
  | h, a, _ => (h, a)

/-- The last segment of a path. -/
def lastSeg (path : List Seg) : Seg := path.getLast?.getD .zero

variable (a : ℕ) (path : List Seg)

/-- `set` of an entry. -/
def setEntry (e : Entry V) : Heap V :=
  if path = [.zero] ∧ (h.node a).fields = [] then h.modify a fun n => { n with scalar := some e }
  else
    let r := descendOrCreate (h.modify a Node.spillScalar) a path
    r.1.modify r.2 fun n => n.spillScalar.putField ⟨lastSeg path, e, none⟩

/-- `set` of a value. -/
def setTrivial (trivial : V) : Heap V :=
  h.setEntry a path ((h.getEntry a path).value false trivial)

/-- The owner of the last segment of a path, ready to take a sub-bundle there. -/
def makeRoom : Heap V × ℕ :=
  let r := descendOrCreate (h.modify a Node.spillScalar) a path
  (r.1.modify r.2 fun n => n.spillScalar.clearLeaf (lastSeg path), r.2)

/-- The sub-bundle at a path becomes a deep copy. -/
def graft (b : ℕ) : Heap V :=
  let r := h.makeRoom a path
  let copy := clone r.1 b
  copy.1.modify r.2 fun n => n.putField ⟨lastSeg path, default, some copy.2⟩

/-- `set` of a bundle. -/
def setBundle (b : ℕ) : Heap V :=
  let h' : Heap V := match (h.node b).bareScalar with
    | some e => h.setEntry a path e
    | none => h.graft a path b
  h'.modify a fun n => { n.putAttrs ((h.node b).attrs.map fun kv => (path ++ kv.1, kv.2)) with
    correct := n.correct && (h.node b).correct }

/-- The data of `get_bundle`: a copy of the sub-bundle, or a new bundle for a leaf. -/
def getData : Option (Heap V × ℕ) :=
  match (h.node a).scalar with
  | some e => if path = [.zero] then some (h.alloc { scalar := some e }) else none
  | none => (path.getLast?).bind fun last => (h.descend a path).bind fun owner =>
      ((h.node owner).field last).map fun f =>
      match f.sub with
      | some b => h.clone b
      | none => h.alloc { scalar := some f.leaf }

/-- `get_bundle` -/
def getBundle : Option (Heap V × ℕ) :=
  if path = [] then some (h.clone a)
  else
  let attrs := attrsUnder (h.node a).attrs path
  let r := match h.getData a path with
    | some r => some r
    | none => if attrs.isEmpty then none else some (h.alloc {})
  r.map fun r => (r.1.modify r.2
    fun n => { n.putAttrs attrs with correct := n.correct && (h.node a).correct }, r.2)

end

end Heap

end LiveHD.Upass
