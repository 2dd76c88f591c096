import LiveHD.Upass.BundleTree

/-!
# Concatenation

`Bundle::concat` of `upass/core/bundle.cpp`, and the sorted entries of a bundle, over the trees that
own all that hangs from them: a field that is taken over is copied.
-/

namespace LiveHD.Upass

/-- The compile-time values, compared. -/
class DlopCompare (V : Type*) extends Dlop V where
  isNil : V → Bool
  isKnownEq : V → V → Bool

variable {V : Type*}

namespace Tree

/-! ## Entries -/

mutual

/-- `flatten_into` -/
def flattenInto : Tree V → List Seg → List (List Seg × Entry V)
  | .mk ⟨info, fields⟩, key =>
    match info.scalar with
    | some e => [(if key = [] then [.zero] else key, e)]
    | none => ((flattenFields fields key).mergeSort Node.fieldLe).flatMap fun f =>
      f.sub.getD [(key ++ [f.seg], f.leaf)]

/-- The fields, with the entries of the sub-bundles. -/
def flattenFields : List (Field V (Tree V)) → List Seg → List (Field V (List (List Seg × Entry V)))
  | [], _ => []
  | ⟨seg, leaf, none⟩ :: fs, key => ⟨seg, leaf, none⟩ :: flattenFields fs key
  | ⟨seg, leaf, some u⟩ :: fs, key =>
    ⟨seg, leaf, some (flattenInto u (key ++ [seg]))⟩ :: flattenFields fs key

end

/-- `non_attr_entries` -/
def nonAttrEntries (t : Tree V) : List (List Seg × Entry V) := t.flattenInto []

end Tree

/-! ## Fields that land in a bundle -/

/-- The slot after the unnamed ones. -/
def nextUnnamed (fields : List (Field V (Tree V))) : ℕ :=
  fields.foldl (fun next f => match f.seg with
    | .named _ => next
    | .unnamed p => max next (p + 1)) 0

/-- The bundle that fields of another land in: the next slot, and where the segments landed. -/
structure Landing (V : Type*) where
  node : Node V (Tree V)
  nextUnnamed : ℕ
  segLanded : List (Seg × Seg) := []

namespace Landing

variable (l : Landing V)

/-- An unnamed field is renumbered at the next free slot. -/
def renumber (g : Field V (Tree V)) : Landing V :=
  { node := l.node.appendField { g with seg := .unnamed l.nextUnnamed }
    nextUnnamed := l.nextUnnamed + 1
    segLanded := l.segLanded ++ [(g.seg, .unnamed l.nextUnnamed)] }

/-- What is left of a named field, if it is not dropped. -/
def land : Option (Field V (Tree V)) → Landing V
  | none => l
  | some f => { l with node := l.node.putField f, segLanded := l.segLanded ++ [(f.seg, f.seg)] }

/-- Where an attribute goes: with its field. -/
def relocate : List Seg → List Seg
  | s :: s' :: key => ((l.segLanded.lookup s).getD s) :: s' :: key
  | key => key

/-- The attributes of the other bundle win. -/
def mergeAttrs (attrs : List (List Seg × Entry V)) : Node V (Tree V) :=
  l.node.putAttrs (attrs.map fun kv => (l.relocate kv.1, kv.2))

end Landing

variable [DlopCompare V]

open DlopCompare (isNil isKnownEq)
open Dlop (isInvalid)

/-- A named leaf: a nil one drops itself, and it takes the place of a nil or an equal leaf. -/
def combineLeaf (old : Option (Field V (Tree V))) (s : Seg) (e : Entry V) :
    Except (List Seg) (Option (Field V (Tree V))) :=
  if isNil e.trivial then .ok none
  else match old with
    | none => .ok (some ⟨s, e, none⟩)
    | some f =>
      if f.sub.isSome then .error [s]
      else if isNil f.leaf.trivial ||
          (!isInvalid f.leaf.trivial && !isInvalid e.trivial &&
            isKnownEq f.leaf.trivial e.trivial) then
        .ok (some ⟨s, e, none⟩)
      else .error [s]

/-- A named sub-bundle: it takes the place of a nil leaf, and is merged into a sub-bundle. -/
def combineSub (merge : Tree V → Except (List Seg) (Tree V)) (old : Option (Field V (Tree V)))
    (s : Seg) (e : Entry V) (u : Tree V) :
    Except (List Seg) (Option (Field V (Tree V))) :=
  match old with
  | none => .ok (some ⟨s, e, some u⟩)
  | some ⟨_, leaf, none⟩ => if isNil leaf.trivial then .ok (some ⟨s, e, some u⟩) else .error [s]
  | some ⟨_, leaf, some v⟩ =>
    match merge v with
    | .ok r => .ok (some ⟨s, leaf, some r⟩)
    | .error conflict => .error (s :: conflict)

namespace Tree

mutual

/-- `concat`, with the path of the field that conflicts; a bundle that it fails on is not used. -/
def concat : Tree V → Tree V → Except (List Seg) (Tree V)
  | t, .mk ⟨info, fields⟩ =>
    let start : Landing V :=
      { node := t.node.spillScalar, nextUnnamed := nextUnnamed t.node.spillScalar.fields }
    match info.scalar with
    | some e => .ok (mk ((start.renumber ⟨.zero, e, none⟩).mergeAttrs info.attrs))
    | none => (concatFields start fields).map fun l => mk (l.mergeAttrs info.attrs)

def concatFields : Landing V → List (Field V (Tree V)) → Except (List Seg) (Landing V)
  | l, [] => .ok l
  | l, ⟨.unnamed p, e, sub⟩ :: gs => concatFields (l.renumber ⟨.unnamed p, e, sub⟩) gs
  | l, ⟨.named x, e, none⟩ :: gs =>
    (combineLeaf (l.node.field (.named x)) (.named x) e).bind fun f => concatFields (l.land f) gs
  | l, ⟨.named x, e, some u⟩ :: gs =>
    (combineSub (fun v => concat v u) (l.node.field (.named x)) (.named x) e u).bind fun f =>
      concatFields (l.land f) gs

end

/-! ## Bundles that are built -/

/-- What a sequence of writes and concatenations makes of an empty bundle. -/
inductive Built : Tree V → Prop
  | empty : Built (mk {})
  | setEntry {t : Tree V} (ht : Built t) {path : List Seg} (hpath : path ≠ []) (e : Entry V) :
    Built (t.setEntry path e)
  | setBundle {t u : Tree V} (ht : Built t) (hu : Built u) {path : List Seg} (hpath : path ≠ []) :
    Built (t.setBundle path u)
  | concat {t u r : Tree V} (ht : Built t) (hu : Built u) (hr : t.concat u = .ok r) : Built r

end Tree

end LiveHD.Upass
