import LiveHD.Lec.ConeExpandSound

/-!
# Arrays without arrays

`Array_blaster` of `array_blast.cpp`: an array with few entries becomes one term for each of its
entries.  A term is a tree, and equal trees are one term of the manager; each `mkConst` makes a
constant that is in no term so far.
-/

namespace LiveHD.Lec.ArrayBlast

/-- An operator with its indices. -/
inductive Op where
  | fn (f : Fn) (indices : ℕ × ℕ)
  | other (code : ℕ) (indices : ℕ × ℕ)
deriving DecidableEq

inductive Term where
  | const (id : ℕ) (symbol : Option String) (s : Srt)
  | boolean (b : Bool)
  | bitvector (w n : ℕ)
  | constArray (i e : ℕ) (base : Term)
  | app (op : Op) (s : Srt) (kids : List Term)

namespace Term

mutual

def decEq : (a b : Term) → Decidable (a = b)
  | .const i n s, .const j m t => decidable_of_iff (i = j ∧ n = m ∧ s = t) (by rw [const.injEq])
  | .boolean a, .boolean b => decidable_of_iff (a = b) (by rw [boolean.injEq])
  | .bitvector w n, .bitvector v m => decidable_of_iff (w = v ∧ n = m) (by rw [bitvector.injEq])
  | .constArray i e a, .constArray j f b => match decEq a b with
    | .isTrue h => decidable_of_iff (i = j ∧ e = f) ⟨fun hie => by
      rw [h, hie.1, hie.2], fun heq => ⟨(constArray.inj heq).1, (constArray.inj heq).2.1⟩⟩
    | .isFalse h => .isFalse fun heq => h (constArray.inj heq).2.2
  | .app f s l, .app g t m => match decEqs l m with
    | .isTrue h => decidable_of_iff (f = g ∧ s = t)
      ⟨fun hfs => by rw [h, hfs.1, hfs.2], fun heq => ⟨(app.inj heq).1, (app.inj heq).2.1⟩⟩
    | .isFalse h => .isFalse fun heq => h (app.inj heq).2.2
  | .const .., .boolean _ | .const .., .bitvector .. | .const .., .constArray .. | .const ..,
    .app .. => .isFalse nofun
  | .boolean _, .const .. | .boolean _, .bitvector .. | .boolean _, .constArray .. | .boolean _,
    .app .. => .isFalse nofun
  | .bitvector .., .const .. | .bitvector .., .boolean _ | .bitvector ..,
    .constArray .. | .bitvector .., .app .. => .isFalse nofun
  | .constArray .., .const .. | .constArray .., .boolean _ | .constArray ..,
    .bitvector .. | .constArray .., .app .. => .isFalse nofun
  | .app .., .const .. | .app .., .boolean _ | .app .., .bitvector .. | .app .., .constArray .. =>
    .isFalse nofun

def decEqs : (l m : List Term) → Decidable (l = m)
  | [], [] => .isTrue rfl
  | [], _ :: _ => .isFalse nofun
  | _ :: _, [] => .isFalse nofun
  | a :: l, b :: m => match decEq a b, decEqs l m with
    | .isTrue h, .isTrue h' => .isTrue (by rw [h, h'])
    | .isFalse h, _ => .isFalse fun heq => h (List.cons.inj heq).1
    | _, .isFalse h => .isFalse fun heq => h (List.cons.inj heq).2

end

instance : DecidableEq Term := decEq

def sort : Term → Srt
  | .const _ _ s => s
  | .boolean _ => .bool
  | .bitvector w _ => .bv w
  | .constArray i e _ => .array i e
  | .app _ s _ => s

/-- The children that the walk sees; the base of a constant array is none. -/
def kids : Term → List Term
  | .app _ _ l => l
  | _ => []

mutual

/-- Frames that a walk from a term takes at the most. -/
def weight : Term → ℕ
  | .app _ _ l => weights l + 2
  | _ => 2

def weights : List Term → ℕ
  | [] => 0
  | t :: l => weight t + weights l

end

end Term

def isSmallArray (maxIndexBits : ℕ) : Srt → Bool
  | .array i _ => decide (i ≤ maxIndexBits)
  | _ => false

def mkIte (c a b : Term) : Term := .app (.fn .ite (0, 0)) a.sort [c, a, b]

def mkEqual (a b : Term) : Term := .app (.fn .eq (0, 0)) .bool [a, b]

/-- `index_eq`. -/
def indexEq (idx : Term) (e : ℕ) : Term := mkEqual idx (.bitvector idx.sort.width e)

/-- The write of one entry that differs from the first. -/
def writeEntry (i e : ℕ) (first out : Term) (p : Term × ℕ) : Term :=
  if p.1 ≠ first then .app (.fn .store (0, 0)) (.array i e) [out, .bitvector i p.2, p.1] else out

/-- `array_value`; the null term for no values. -/
def arrayValue (i e : ℕ) : List Term → Option Term
  | [] => none
  | v :: vals => some ((vals.zipIdx 1).foldl (writeEntry i e v) (.constArray i e v))

/-- The blaster, with the ids that the manager has used up. -/
structure Blaster where
  next : ℕ
  failed : Bool
  memo : Term → Option Term
  arrMemo : Term → Option (List Term)

namespace Blaster

def start (next : ℕ) : Blaster := ⟨next, false, fun _ => none, fun _ => none⟩

variable (maxIndexBits : ℕ) (b : Blaster)

/-- The term has its rewrite, or its entries. -/
def memoised (t : Term) : Bool :=
  if isSmallArray maxIndexBits t.sort then (b.arrMemo t).isSome else (b.memo t).isSome

def giveUp : Blaster := { b with failed := true }

def setMemo (t r : Term) : Blaster := { b with memo := Function.update b.memo t (some r) }

def setEntries (t : Term) (es : List Term) : Blaster :=
  { b with arrMemo := Function.update b.arrMemo t (some es) }

/-- The entries of a small array; `none` when a child has no rewrite yet. -/
def finishArray (t : Term) : Option Blaster :=
  match t with
  | .constArray i _ base => some (b.setEntries t (List.replicate (2 ^ i) base))
  | .const id symbol (.array i e) =>
    let name := symbol.getD ("arr" ++ toString id)
    let es := (List.range (2 ^ i)).map fun k =>
      Term.const (b.next + k) (some (name ++ "@" ++ toString k)) (.bv e)
    some { b.setEntries t es with next := b.next + 2 ^ i }
  | .app (.fn .store _) _ [a, x, v] =>
    (b.arrMemo a).bind fun base => (b.memo x).bind fun idx => (b.memo v).bind fun val =>
      match idx with
      | .bitvector _ n => if n < base.length then some (b.setEntries t (base.set n val)) else none
      | _ => some (b.setEntries t (base.mapIdx fun k entry => mkIte (indexEq idx k) val entry))
  | .app (.fn .ite _) _ [c, x, y] =>
    (b.memo c).bind fun c => (b.arrMemo x).bind fun xs => (b.arrMemo y).bind fun ys =>
      some (b.setEntries t (List.zipWith (fun p q => if p = q then p else mkIte c p q) xs ys))
  -- a bound variable, a lambda, or an array-valued function
  | _ => some b.giveUp

/-- One entry of the read at a symbolic index. -/
def selectEntry (idx out : Term) (p : Term × ℕ) : Term := if p.1 = out then out
    else mkIte (indexEq idx p.2) p.1 out

/-- The read of an array at a symbolic index. -/
def selectTree (idx : Term) : List Term → Option Term
  | [] => none
  | first :: es => some ((es.zipIdx 1).foldl (selectEntry idx) first)

/-- The read of an array; `none` at an index that it does not have. -/
def readEntry (idx : Term) (es : List Term) : Option Term :=
  match idx with
  | .bitvector _ n => es[n]?
  | _ => selectTree idx es

/-- The equality of two arrays. -/
def entriesEqual (xs ys : List Term) : Term :=
  match (List.zip xs ys).filterMap fun p => if p.1 ≠ p.2 then some (mkEqual p.1 p.2) else none with
  | [] => .boolean true
  | [t] => t
  | l => .app (.fn .and (0, 0)) .bool l

/-- The rewrites of the children, `none` inside when one of them is a small array. -/
def rewriteKids : List Term → Option (Option (List Term))
  | [] => some (some [])
  | c :: l =>
    if isSmallArray maxIndexBits c.sort then some none
    else (b.memo c).bind fun r => (rewriteKids l).map fun rs => rs.map (r :: ·)

/-- Any other construct, over its rewritten children. -/
def finishOther (t : Term) (op : Op) (s : Srt) (kids : List Term) : Option Blaster :=
  (b.rewriteKids maxIndexBits kids).map fun
    | none => b.giveUp
    | some rs => b.setMemo t (if rs = kids then t else .app op s rs)

/-- `EQUAL` and `DISTINCT` of small arrays. -/
def finishEqual (t : Term) (negated : Bool) : List Term → Option Blaster
  | [x, y] => (b.arrMemo x).bind fun xs => (b.arrMemo y).bind fun ys =>
    let all := entriesEqual xs ys
    some (b.setMemo t (if negated then .app (.fn .not (0, 0)) .bool [all] else all))
  | _ => some b.giveUp

/-- The head of the children is a small array. -/
def smallHead (kids : List Term) : Bool :=
  (kids.head?.map fun c => isSmallArray maxIndexBits c.sort).getD false

/-- `finish`: `none` when it reads a rewrite that is not there. -/
def finish (t : Term) : Option Blaster :=
  if isSmallArray maxIndexBits t.sort then b.finishArray t
  else match t with
    | .app op s (k :: kids) =>
      if smallHead maxIndexBits (k :: kids) then
        match op with
        | .fn .select _ => (b.arrMemo k).bind fun es => (kids.head?.bind b.memo).bind fun idx =>
          (readEntry idx es).map (b.setMemo t)
        | .fn .eq _ => b.finishEqual t false (k :: kids)
        | .fn .distinct _ => b.finishEqual t true (k :: kids)
        | _ => b.finishOther maxIndexBits t op s (k :: kids)
      else b.finishOther maxIndexBits t op s (k :: kids)
    | _ => some (b.setMemo t t)

/-- `visit`, the top of the stack first; `none` also when the fuel does not suffice. -/
def visit : ℕ → Blaster → List (Frame Term) → Option Blaster
  | _, b, [] => some b
  | 0, _, _ :: _ => none
  | fuel + 1, b, f :: stack =>
    if b.failed then some b
    else if b.memoised maxIndexBits f.id then visit fuel b stack
    else if f.exit then (b.finish maxIndexBits f.id).bind fun b => visit fuel b stack
    else visit fuel b (((f.id.kids.filter fun c => !b.memoised maxIndexBits c).map (⟨·, false⟩)) ++
      ⟨f.id, true⟩ :: stack)

/-- `rewrite`, the null term after a failure. -/
def rewrite (t : Term) : Option (Option Term × Blaster) :=
  if b.failed then some (none, b)
  else match b.memo t with
    | some r => some (some r, b)
    | none => (visit maxIndexBits t.weight b [⟨t, false⟩]).bind fun b =>
      if b.failed then some (none, b) else (b.memo t).map fun r => (some r, b)

/-- `entries`, nothing after a failure. -/
def entries (a : Term) : Option (Option (List Term) × Blaster) :=
  if b.failed then some (none, b)
  else match b.arrMemo a with
    | some es => some (some es, b)
    | none => (visit maxIndexBits a.weight b [⟨a, false⟩]).bind fun b =>
      if b.failed then some (none, b) else (b.arrMemo a).map fun es => (some es, b)

/-- A call by the owner of the blaster. -/
inductive Call where
  | rewrite (t : Term)
  | entries (a : Term)
  /-- Constants that are made elsewhere. -/
  | made (n : ℕ)

/-- What a call returns, nothing inside after a failure. -/
inductive Answer where
  | term (r : Option Term)
  | list (es : Option (List Term))
  | done

def call (b : Blaster) : Call → Option (Answer × Blaster)
  | .rewrite t => (b.rewrite maxIndexBits t).map fun r => (.term r.1, r.2)
  | .entries a => (b.entries maxIndexBits a).map fun r => (.list r.1, r.2)
  | .made n => some (.done, { b with next := b.next + n })

/-- Calls one after another. -/
def calls (b : Blaster) : List Call → Option (List Answer × Blaster)
  | [] => some ([], b)
  | c :: l => (b.call maxIndexBits c).bind fun r => (calls r.2 l).map fun s => (r.1 :: s.1, s.2)

end Blaster

end LiveHD.Lec.ArrayBlast
