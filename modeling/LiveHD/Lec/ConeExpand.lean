import LiveHD.Lec.ConeDigest

/-!
# Expansion of the definitions of a cone

`pass/lec/cone_expand.cpp`: definitions of symbols are put into the obligations, and reads of an
array that was written to are read off the writes.  A solver shares its terms: one that is made
again is the one there is.
-/

namespace LiveHD.Lec

deriving instance DecidableEq for Term

/-- `mkTerm`: the term with its children, which is made once. -/
def Terms.mkTerm (T : Terms) (x : Term) : Terms × ℕ :=
  match T.findIdx? (· = x) with
  | some i => (T, i)
  | none => (T ++ [x], T.length)

/-- A child of a term. -/
def Terms.child (T : Terms) (t i : ℕ) : ℕ := (T.term t).children.getD i 0

/-! ## Definitions -/

def Srt.isBitVector : Srt → Bool
  | .bv _ => true
  | _ => false

/-- The definitions found so far, and the symbols that have several. -/
structure Defs where
  defs : List (ℕ × ℕ) := []
  ambiguous : List ℕ := []

/-- A definition of a scalar symbol is kept, if it has the symbol's sort. -/
def Defs.add (T : Terms) (d : Defs) (symbol value : ℕ) : Defs :=
  if (T.term symbol).kind ≠ .constant ∨ ¬(T.sort symbol).isBitVector ∨
    T.sort symbol ≠ T.sort value then d
  else match d.defs.lookup symbol with
    | none => { d with defs := d.defs ++ [(symbol, value)] }
    | some v => if v ≠ value then { d with ambiguous := symbol :: d.ambiguous } else d

/-- The definitions of symbols that have one. -/
def collectDefs (T : Terms) (definitions : List (ℕ × ℕ)) : List (ℕ × ℕ) :=
  let d : Defs := definitions.foldl (fun d sv => Defs.add T d sv.1 sv.2) {}
  d.defs.filter fun sv => sv.1 ∉ d.ambiguous

/-! ## Reads of a written array -/

/-- The writes of an array, the latest first, and the array below them. -/
def Terms.stores (T : Terms) (array : ℕ) : List (ℕ × ℕ) × ℕ :=
  if (T.term array).kind = .fn .store then
    if _h : T.child array 0 < array then
      let rest := T.stores (T.child array 0)
      ((T.child array 1, T.child array 2) :: rest.1, rest.2)
    else ([], array)
  else ([], array)
termination_by array

def Terms.isBitVectorValue (T : Terms) (t : ℕ) : Bool := (T.term t).kind = .constBitvector

def mkSelect (T : Terms) (array address : ℕ) : Terms × ℕ :=
  T.mkTerm { kind := .fn .select, sort := .bv (T.sort array).width, children := [array, address] }

def mkEqual (T : Terms) (a b : ℕ) : Terms × ℕ :=
  T.mkTerm { kind := .fn .eq, sort := .bool, children := [a, b] }

def mkIte (T : Terms) (cond a b : ℕ) : Terms × ℕ :=
  T.mkTerm { kind := .fn .ite, sort := T.sort a, children := [cond, a, b] }

/-- A write before a read: what is read if the write is not at the address is `result`. -/
def readStep (address : ℕ) (store : ℕ × ℕ) (r : Terms × ℕ) : Terms × ℕ :=
  if store.1 = address then (r.1, store.2)
  else if r.1.isBitVectorValue store.1 ∧ r.1.isBitVectorValue address then r
  else
    let cond := mkEqual r.1 address store.1
    mkIte cond.1 cond.2 store.2 r.2

/-- A read of a written array, by the writes from the oldest on. -/
def readOverWrite (T : Terms) (t : ℕ) : Terms × ℕ :=
  if (T.term t).kind = .fn .select then
    let chain := T.stores (T.child t 0)
    if chain.1 = [] then (T, t)
    else chain.1.foldr (readStep (T.child t 1)) (mkSelect T chain.2 (T.child t 1))
  else (T, t)

/-! ## Expansion -/

structure Expansion where
  terms : Terms
  memo : List (ℕ × ℕ) := []
  active : List ℕ := []

namespace Expansion

/-- The term over the expanded children, if one of them changed. -/
def rebuild (s : Expansion) (t : ℕ) (children : List ℕ) : Expansion × ℕ :=
  let r := if children = s.terms.kids t then (s.terms, t)
    else s.terms.mkTerm { s.terms.term t with children := children }
  let r := readOverWrite r.1 r.2
  ({ s with terms := r.1 }, r.2)

/-- The term is done: `memo.emplace` keeps a result that is there. -/
def leave (s : Expansion) (t result : ℕ) : Expansion :=
  { s with memo := s.memo ++ [(t, result)], active := s.active.erase t }

/-- The terms of a list, one after the other. -/
def each (expand : Expansion → ℕ → Option (Expansion × ℕ)) :
    Expansion → List ℕ → Option (Expansion × List ℕ)
  | s, [] => some (s, [])
  | s, t :: ts => (expand s t).bind fun r => (each expand r.1 ts).map fun rs => (rs.1, r.2 :: rs.2)

/-- A definition, or the term over its children. -/
def body (expand : Expansion → ℕ → Option (Expansion × ℕ)) (defs : List (ℕ × ℕ)) (s : Expansion)
    (t : ℕ) : Option (Expansion × ℕ) :=
  match defs.lookup t with
  | some v => expand s v
  | none =>
    if s.terms.kids t = [] then some (s, t)
    else (each expand s (s.terms.kids t)).map fun r => r.1.rebuild t r.2

/-- `expand`, at most `fuel` calls deep.  A term that is being expanded stays as it is. -/
def expand (defs : List (ℕ × ℕ)) : ℕ → Expansion → ℕ → Option (Expansion × ℕ)
  | 0, _, _ => none
  | fuel + 1, s, t =>
    match s.memo.lookup t with
    | some r => some (s, r)
    | none =>
      if t ∈ s.active then some (s, t)
      else (body (expand defs fuel) defs { s with active := t :: s.active } t).map fun r =>
        (r.1.leave t r.2, r.2)

end Expansion

/-- `expand_cone_definitions`, with the calls at most `fuel` deep. -/
def expandConeDefinitions (fuel : ℕ) (T : Terms) (definitions : List (ℕ × ℕ))
    (obligations : List ℕ) : Option (Terms × List ℕ) :=
  (Expansion.each (Expansion.expand (collectDefs T definitions) fuel) { terms := T }
    obligations).map fun r => (r.1.terms, r.2)

end LiveHD.Lec
