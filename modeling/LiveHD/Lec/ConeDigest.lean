import LiveHD.Lec.Smt
import LiveHD.Lib.DepthFirst

/-!
# The digest of a cone

`pass/lec/cone_digest.cpp`: a key for a term that is stable across processes.  A node's digest is
hashed from the text that defines it and the digests of its children; the symbols of one name are
numbered as the walk comes to them.
-/

namespace LiveHD.Lec

/-- `std::to_string` -/
def digits (n : ℕ) : List Char := Nat.toDigits 10 n

/-- The enumerators of `cvc5::Kind`, numbered. -/
def Kind.code : Kind → ℕ
  | .constant => 0
  | .constBoolean => 1
  | .constBitvector => 2
  | .constArray => 3
  | .fn f => 2 * f.ctorIdx + 4
  | .other c => 2 * c + 5

/-- `Sort::toString` -/
def Srt.text : Srt → List Char
  | .bool => ['B', 'o', 'o', 'l']
  | .bv w => ['(', '_', ' ', 'B', 'i', 't', 'V', 'e', 'c', ' '] ++ digits w ++ [')']
  | .array i e => ['(', 'A', 'r', 'r', 'a', 'y', ' ', '(', '_', ' ', 'B', 'i', 't',
    'V', 'e', 'c', ' '] ++ digits i ++
    [')', ' ', '(', '_', ' ', 'B', 'i', 't', 'V', 'e', 'c', ' '] ++ digits e ++ [')', ')']
  | .other => ['?']

/-- The number of indices of an operator. -/
def Fn.numIndices : Fn → ℕ
  | .extract => 2
  | .zext | .sext | .repeated | .rotl | .rotr => 1
  | _ => 0

/-- `getBitVectorValue(2)` -/
def binary (w n : ℕ) : List Char := (List.range w).reverse.map fun i =>
    if n.testBit i then '1' else '0'

def Term.value (t : Term) : ℕ := digitsValue t.hex.reverse

/-- The indices of a term's operator. -/
def Term.opIndices (t : Term) : List ℕ :=
  match t.kind with
  | .fn f => [t.indices.1, t.indices.2].take f.numIndices
  | _ => []

/-- The part of a node's text after its kind and its sort, `id` being the name and the number of a
symbol. -/
def Term.leafText (id : String × ℕ) (t : Term) : List Char :=
  match t.kind with
  | .constant => ['|', 'v', ':'] ++ id.1.toList ++ '#' :: digits id.2
  | .constBitvector => ['|', 'k', ':'] ++ binary t.sort.width t.value
  | .constBoolean => ['|', 'b', ':', if t.boolean then '1' else '0']
  | _ => t.opIndices.flatMap fun i => ['|', 'i', ':'] ++ digits i

namespace Terms

variable (T : Terms)

/-- The children as cvc5 counts them: a constant array has none, its element is read through
`getConstArrayBase`. -/
def kids (t : ℕ) : List ℕ := if (T.term t).kind = .constArray then [] else (T.term t).children

/-- The text of what defines a node, `id` being the name and the number of a symbol. -/
def payload (id : String × ℕ) (t : ℕ) : List Char :=
  digits (T.term t).kind.code ++ '|' :: (T.sort t).text ++ (T.term t).leafText id

end Terms

/-- The maps of a walk: the digests, the next free number of a name, and the number of a symbol. -/
structure Walk (D : Type*) where
  memo : ℕ → Option D
  nameSeq : String → ℕ
  symIx : ℕ → Option ℕ

namespace Walk

variable {D : Type*}

def start : Walk D := ⟨fun _ => none, fun _ => 0, fun _ => none⟩

/-- The number of a symbol, a new one when the walk first comes to it. -/
def symbolIx (w : Walk D) (sym : String) (t : ℕ) : ℕ × Walk D :=
  match w.symIx t with
  | some ix => (ix, w)
  | none => (w.nameSeq sym, { w with
      nameSeq := Function.update w.nameSeq sym (w.nameSeq sym + 1)
      symIx := Function.update w.symIx t (some (w.nameSeq sym)) })

/-- `memo.emplace` -/
def remember (w : Walk D) (t : ℕ)
    (d : D) : Walk D := { w with memo := Function.update w.memo t (some d) }

end Walk

section

variable {D : Type*} (hstr : List Char → D) (combine : D → D → D) (T : Terms)
  (names : ℕ → Option String)

/-- `none` for a term without an identity: a symbol without a name. -/
def nodePayload (w : Walk D) (t : ℕ) : Option (List Char × Walk D) :=
  if (T.term t).kind = .constant then
    match names t with
    | none => none
    | some sym => some (T.payload (sym, (w.symbolIx sym t).1) t, (w.symbolIx sym t).2)
  else some (T.payload ("", 0) t, w)

/-- The digest of a node from its payload and the digests of its children; both lanes. -/
def nodeDigest (pay : List Char) (ds : List D) : D := ds.foldl combine (hstr pay)

/-- The loop of `cone_digest`, `none` when it gives up. -/
def coneWalk : ℕ → List (Frame ℕ) → Walk D → Option (Walk D)
  | 0, _, _ => none
  | _ + 1, [], w => some w
  | fuel + 1, ⟨t, done⟩ :: stack, w =>
    if (w.memo t).isSome then coneWalk fuel stack w
    else if !done then coneWalk fuel ((T.kids t).reverse.map (⟨·, false⟩) ++ ⟨t, true⟩ :: stack) w
    else match nodePayload T names w t with
      | none => none
      | some (pay, w) =>
        match (T.kids t).mapM w.memo with
        | none => none
        | some ds => coneWalk fuel stack (w.remember t (nodeDigest hstr combine pay ds))

/-- The iterations that an entry of the stack can take. -/
def walkCost (t : ℕ) : ℕ := 2 + ((T.kids t).map fun c => if _h : c < t then walkCost c else 0).sum
termination_by t

/-- `cone_digest`, the empty string being `none`. -/
def coneDigest (t : ℕ) : Option D :=
  (coneWalk hstr combine T names (walkCost T t + 1) [⟨t, false⟩] Walk.start).bind fun w => w.memo t

end

end LiveHD.Lec
