import LiveHD.Lec.TermEval
import LiveHD.Lib.DepthFirst

/-!
# The term simulator

`Term_sim` of `pass/lec/term_sim.cpp`: `build` writes the cone of the roots to a tape, through the
definitions of symbols; `eval` computes the tape.  The words of a node are a list, and an array
value is the value itself.
-/

namespace LiveHD.Lec

open Words Function List

/-- `kBool`, `kBv` and `kArray` -/
inductive NodeSort where
  | bool | bv | array
deriving DecidableEq

inductive Op where
  | leaf | alias | const | constArray
  | fn (f : Fn)
deriving DecidableEq

structure Node where
  op : Op := .leaf
  sort : NodeSort := .bv
  /-- The element width for an array. -/
  width : ℕ := 0
  nw : ℕ := 0
  kids : List ℕ := []
  /-- An index of the operator, or the index width of an array. -/
  p0 : ℕ := 0
  p1 : ℕ := 0
  leaf : ℕ := 0
deriving DecidableEq

structure Leaf where
  term : ℕ := 0
  node : ℕ := 0
  width : ℕ := 0
  indexWidth : ℕ := 0
  isBool : Bool := false
  isArray : Bool := false
deriving DecidableEq

/-- The leaf of a node. -/
def Node.leafFor (n : Node) (t id : ℕ) : Leaf :=
  { term := t, node := id, width := n.width, isBool := n.sort = .bool, isArray := n.sort = .array,
    indexWidth := if n.sort = .array then n.p0 else 0 }

/-- The entry of a term in `node_of_`. -/
inductive Mark where
  | busy
  | node (id : ℕ)
deriving DecidableEq

/-- Why `build` fails. -/
inductive Why where
  | cyclicDefinition
  | nonBooleanAssertion
  | unsupportedSort (s : Srt)
  | unsupportedTermKind (k : Kind)
  | unsupportedOperandShape (k : Kind)
deriving DecidableEq

/-- An array value of an evaluation; indices and elements are the words of nodes. -/
inductive Arr where
  | free (leaf : ℕ)
  | const (val : ℕ)
  | store (parent : Arr) (idx val : ℕ)
deriving DecidableEq

instance : Inhabited Arr := ⟨.free 0⟩

/-- A read of a free array. -/
structure Read where
  leaf : ℕ
  idx : List Word
  val : List Word
deriving DecidableEq

structure Sim where
  nodes : List Node := []
  orig : List ℕ := []
  words : List (List Word) := []
  leaves : List Leaf := []
  seeds : List Word := []
  nodeOf : ℕ → Option Mark := fun _ => none
  defs : ℕ → Option ℕ := fun _ => none
  roots : List ℕ := []
  constraints : List ℕ := []
  hasArrays : Bool := false
  refs : List Arr := []
  reads : List Read := []

namespace Sim

variable (s : Sim)

def node (id : ℕ) : Node := s.nodes.getD id {}

def origOf (id : ℕ) : ℕ := s.orig.getD id 0

def wordsOf (id : ℕ) : List Word := s.words.getD id []

def ref (id : ℕ) : Arr := s.refs.getD id default

def leafOf (l : ℕ) : Leaf := s.leaves.getD l {}

def seed (l : ℕ) : Word := s.seeds.getD l 0

def kid (id : ℕ) : Kid := ⟨(s.node id).width, s.wordsOf id⟩

end Sim

/-! ## The tape -/

/-- What a term is computed from; a defined symbol from its definition. -/
def operands (T : Terms) (defs : ℕ → Option ℕ) (t : ℕ) : List ℕ := match (T.term t).kind with
  | .constant => (defs t).toList
  | .constArray => [(T.term t).base]
  | _ => (T.term t).children

/-- A node's sort, its width and the index width of an array. -/
def nodeSort : Srt → Option (NodeSort × ℕ × ℕ)
  | .bool => some (.bool, 1, 0)
  | .bv w => some (.bv, w, 0)
  | .array i e => some (.array, e, i)
  | .other => none

/-- The operators from `BvNot` to `Rotr`. -/
def Fn.isBv : Fn → Bool
  | .not | .and | .or | .xor | .implies | .eq | .distinct | .ite | .select | .store => false
  | _ => true

/-- The operators with `n.p0` taken from the term. -/
def Fn.indexed : Fn → Bool
  | .extract | .zext | .sext | .repeated | .rotl | .rotr => true
  | _ => false

/-- The operands that an operator accepts. -/
def Fn.accepts (f : Fn) (sorts : List NodeSort) : Bool :=
  let all := fun s => sorts.all (· = s)
  let shape := match f with
    | .not => sorts.length = 1 && all .bool
    | .and | .or | .xor => all .bool
    | .implies => sorts.length = 2 && all .bool
    | .eq | .distinct => 2 ≤ sorts.length && (all .bool || all .bv)
    | .ite => sorts.length = 3 && sorts[0]? = some .bool
    | .select => sorts = [.array, .bv]
    | .store => sorts = [.array, .bv, .bv]
    | _ => true
  shape && sorts ≠ [] && (!f.isBv || all .bv)

namespace Sim

variable (T : Terms) (s : Sim)

/-- The node of an operand. -/
def operandNode (o : ℕ) : Except Why ℕ := match s.nodeOf o with
  | some (.node id) => .ok id
  | _ => .error .cyclicDefinition

/-- The operation of a term, where it is supported over its operands. -/
def nodeOp (t : ℕ) (sort : NodeSort) (width : ℕ)
    (kids : List ℕ) : Except Why Op := match (T.term t).kind with
  | .constant =>
    match kids with
    | [] => .ok .leaf
    | k :: _ => if (s.node k).sort = sort ∧ (s.node k).width = width then .ok .alias
      else .error (.unsupportedOperandShape .constant)
  | .constBoolean | .constBitvector => .ok .const
  | .constArray => .ok .constArray
  | .fn f => if f.accepts (kids.map fun k => (s.node k).sort) then .ok (.fn f)
    else .error (.unsupportedOperandShape (.fn f))
  | .other c => .error (.unsupportedTermKind (.other c))

/-- The words of a new node: the value of a constant, or zero. -/
def initialWords (t : ℕ) (n : Node) : List Word := match n.sort, n.op with
  | .array, _ => []
  | .bool, .const => [flag (T.term t).boolean]
  | .bv, .const => parseHex (T.term t).hex n.nw
  | _, _ => zero n.nw

/-- A node for a term whose operands have theirs. -/
def makeNode (t : ℕ) : Except Why Node := do
  let (sort, width, index) ← match nodeSort (T.sort t) with
    | some r => .ok r
    | none => .error (.unsupportedSort (T.sort t))
  let kids ← (operands T s.defs t).mapM s.operandNode
  let op ← s.nodeOp T t sort width kids
  let nw := if sort = .array then 0 else nwords width
  let indices : ℕ × ℕ := match op with
    | .fn f => if f.indexed then ((T.term t).indices.1,
      if f = Fn.extract then (T.term t).indices.2 else 0) else (index, 0)
    | _ => (index, 0)
  .ok { op := op, sort := sort, width := width, nw := nw, kids := kids,
        p0 := indices.1, p1 := indices.2,
        leaf := if op = .leaf then s.leaves.length else 0 }

/-- The tape with one more node. -/
def push (t : ℕ) (n : Node) : Sim :=
  { s with
    nodes := s.nodes ++ [n]
    orig := s.orig ++ [t]
    words := s.words ++ [initialWords T t n]
    leaves := if n.op = .leaf then s.leaves ++ [n.leafFor t s.nodes.length] else s.leaves
    nodeOf := Function.update s.nodeOf t (some (.node s.nodes.length))
    hasArrays := s.hasArrays || n.sort = .array }

def mark (t : ℕ) : Sim := { s with nodeOf := Function.update s.nodeOf t (some .busy) }

end Sim

/-- Entries count twice in the stack. -/
def stackSize (stack : List (Frame ℕ)) : ℕ := (stack.map fun f => if f.exit then 1 else 2).sum

/-- What is left to push for the terms that have no entry yet. -/
def pendingWork (T : Terms) (defs : ℕ → Option ℕ) (nodeOf : ℕ → Option Mark) : ℕ :=
  (((List.range T.length).filter fun t => (nodeOf t).isNone).map fun t => 2 *
    (operands T defs t).length + 2).sum

section Termination

variable {T : Terms} {defs : ℕ → Option ℕ} {nodeOf : ℕ → Option Mark} {t : ℕ}

lemma pendingWork_update (m : Mark) :
    pendingWork T defs (Function.update nodeOf t (some m)) ≤ pendingWork T defs nodeOf := by
  refine Sublist.sum_le_sum (List.Sublist.map _ (monotone_filter_right _ fun u hu => ?_)) fun _ _ =>
    Nat.zero_le _
  rcases eq_or_ne u t with rfl | hne
  · rw [update_self] at hu
    cases hu
  · rwa [update_of_ne hne] at hu

lemma pendingWork_update_add (m : Mark) (ht : t < T.length) (hno : nodeOf t = none) :
    2 * (operands T defs t).length + 2 + pendingWork T defs
    (Function.update nodeOf t (some m)) = pendingWork T defs nodeOf := by
  have hmem : t ∈ (range T.length).filter fun u =>
    (nodeOf u).isNone := mem_filter.2 ⟨mem_range.2 ht, by rw [hno]; rfl⟩
  have her : ((range T.length).filter fun u => (update nodeOf t (some m) u).isNone) =
      ((range T.length).filter fun u => (nodeOf u).isNone).erase t := by
    rw [Nodup.erase_eq_filter (nodup_range.filter _), filter_filter]
    refine filter_congr fun u _ => ?_
    rcases eq_or_ne u t with rfl | hne
    · rw [update_self]
      simp
    · rw [update_of_ne hne]
      simp [hne]
  rw [pendingWork, pendingWork, her,
    sum_map_erase (fun t => 2 * (operands T defs t).length + 2) hmem]

lemma stackSize_entries (l : List ℕ) (rest : List (Frame ℕ)) :
    stackSize (l.map (⟨·, false⟩) ++ rest) = 2 * l.length + stackSize rest := by
  induction l with
  | nil => exact (zero_add _).symm
  | cons t l ih =>
    rw [map_cons, cons_append, length_cons]
    change 2 + stackSize _ = _
    rw [ih]
    omega

end Termination

namespace Sim

variable (T : Terms)

/-- The loop of `add_node`: a node is made once all its operands are. -/
def addLoop (stack : List (Frame ℕ)) (s : Sim) : Except Why Sim := match stack with
  | [] => .ok s
  | ⟨t, true⟩ :: rest => match s.makeNode T t with
    | .error why => .error why
    | .ok n => addLoop rest (s.push T t n)
  | ⟨t, false⟩ :: rest => match _h : s.nodeOf t with
    | some _ => addLoop rest s
    | none =>
      let s' := s.mark t
      let ops := operands T s.defs t
      if ops.any fun o => s'.nodeOf o = some .busy then .error .cyclicDefinition
      else addLoop ((ops.filter fun o => (s'.nodeOf o).isNone).map (⟨·, false⟩) ++
        ⟨t, true⟩ :: rest) s'
termination_by pendingWork T s.defs s.nodeOf + stackSize stack
decreasing_by
  · exact Nat.add_lt_add_of_le_of_lt (pendingWork_update _) (Nat.lt_add_of_pos_left Nat.one_pos)
  · exact Nat.add_lt_add_left (Nat.lt_add_of_pos_left Nat.two_pos) _
  · rw [stackSize_entries]
    have hfilter := length_filter_le (fun o => ((s.mark t).nodeOf o).isNone) (operands T s.defs t)
    change pendingWork T s.defs (Function.update s.nodeOf t (some .busy)) +
      (2 * _ + (1 + stackSize rest)) < _ + (2 + stackSize rest)
    by_cases ht : t < T.length
    · have hwork := @pendingWork_update_add T s.defs _ _ .busy ht _h
      omega
    · have hwork : pendingWork T s.defs (Function.update s.nodeOf t (some .busy)) ≤
        _ := pendingWork_update _
      rw [operands, Terms.term, getD_eq_default _ _ (not_lt.1 ht)] at hfilter ⊢
      change _ + (2 * 0 + (1 + stackSize rest)) < _
      omega

/-- `add_node` -/
def add (root : ℕ) (s : Sim) : Except Why Sim := if (s.nodeOf root).isSome then .ok s
    else addLoop T [⟨root, false⟩] s

end Sim

/-- An assertion that defines a symbol. -/
def definition (T : Terms) (a : ℕ) : Option (ℕ × ℕ) := match (T.term a).kind,
    (T.term a).children with
  | .fn .eq, [x, t] => if (T.term x).kind = .constant then some (x, t) else none
  | _, _ => none

/-- The first definition of each symbol, and the other assertions. -/
def splitAssertions (T : Terms) : List ℕ → (ℕ → Option ℕ) × List ℕ → (ℕ → Option ℕ) × List ℕ
  | [], r => r
  | a :: rest, (defs, constraints) => match definition T a with
    | some (x, t) =>
      if (defs x).isNone then splitAssertions T rest (Function.update defs x (some t), constraints)
      else splitAssertions T rest (defs, constraints ++ [a])
    | none => splitAssertions T rest (defs, constraints ++ [a])

namespace Sim

variable (T : Terms)

/-- The node of a term that was added. -/
def nodeId (s : Sim) (t : ℕ) : ℕ := match s.nodeOf t with
  | some (.node id) => id
  | _ => 0

def addRoots : List ℕ → Sim → Except Why Sim
  | [], s => .ok s
  | r :: rest, s => do
    let s ← s.add T r
    addRoots rest { s with roots := s.roots ++ [s.nodeId r] }

def addConstraints : List ℕ → Sim → Except Why Sim
  | [], s => .ok s
  | c :: rest, s => do
    if T.sort c ≠ .bool then .error .nonBooleanAssertion
    else
      let s ← s.add T c
      addConstraints rest { s with constraints := s.constraints ++ [s.nodeId c] }

def build (assertions roots : List ℕ) : Except Why Sim := do
  let r := splitAssertions T assertions (fun _ => none, [])
  let s ← addRoots T roots { defs := r.1 }
  let s ← addConstraints T r.2 s
  .ok { s with
      refs := List.replicate s.nodes.length default
      seeds := List.replicate s.leaves.length 0 }

end Sim

/-! ## Evaluation -/

/-- The content of a free array: a function of its seed and the index. -/
def freeRead (seed : Word) (w : ℕ) (idx : List Word) : List Word :=
  let h := idx.foldl (fun h x => splitmix (h ^^^ x)) (seed ^^^ 0x5851f42d4c957f2d)
  clearTop ((List.range (nwords w)).map fun i => splitmix (h + BitVec.ofNat 64 i)) w

namespace Sim

variable (s : Sim)

/-- The element of width `w` at an index, with the free array that was read for it. -/
def select (w : ℕ) (idx : List Word) : Arr → List Word × Option ℕ
  | .store parent i v => if equal (s.wordsOf i) idx then (s.wordsOf v, none)
    else select w idx parent
  | .const v => (s.wordsOf v, none)
  | .free l => (freeRead (s.seed l) w idx, some l)

/-- The words and the array value of a node from those it had; an operation sets one of them. -/
def result (own : List Word) (slot : Arr) (id : ℕ) : List Word × Arr :=
  let n := s.node id
  let kid := fun i => n.kids.getD i 0
  match n.op with
  | .leaf => if n.sort = .array then (own, .free n.leaf) else (clearTop own n.width, slot)
  | .const => (own, slot)
  | .constArray => (own, .const (kid 0))
  | .alias => if n.sort = .array then (own, s.ref (kid 0)) else (s.wordsOf (kid 0), slot)
  | .fn f => match f with
    | .ite =>
      if n.sort = .array then (own, s.ref (kid (if (s.kid (kid 0)).truth then 1 else 2)))
      else (evalFn n.width n.p0 n.p1 (n.kids.map s.kid) .ite, slot)
    | .select => ((s.select n.width (s.wordsOf (kid 1)) (s.ref (kid 0))).1, slot)
    | .store => (own, .store (s.ref (kid 0)) (kid 1) (kid 2))
    | f => (evalFn n.width n.p0 n.p1 (n.kids.map s.kid) f, slot)

/-- The reads of free arrays that a node makes. -/
def nodeReads (id : ℕ) : List Read :=
  let n := s.node id
  match n.op with
  | .fn .select =>
    let idx := s.wordsOf (n.kids.getD 1 0)
    let r := s.select n.width idx (s.ref (n.kids.getD 0 0))
    (r.2.map fun l => ⟨l, idx, r.1⟩).toList
  | _ => []

/-- `eval_node` -/
def evalNode (record : Bool) (id : ℕ) : Sim :=
  let r := s.result (s.wordsOf id) (s.ref id) id
  { s with
    words := s.words.set id r.1
    refs := s.refs.set id r.2
    reads := if record then s.reads ++ s.nodeReads id else s.reads }

def evalNodes (record : Bool) : Sim :=
  (List.range s.nodes.length).foldl (fun s id => s.evalNode record id) { s with reads := [] }

/-- `eval`: whether every constraint holds, after the whole tape was computed. -/
def eval (record : Bool) : Sim × Bool :=
  let s' := s.evalNodes record
  (s', s'.constraints.all fun c => (s'.kid c).truth)

/-! ## Calls -/

/-- A call that changes one of the leaves or evaluates the tape. -/
inductive Call (leaves : ℕ) where
  /-- A word is written through `leaf_words`. -/
  | word (leaf : Fin leaves) (i : ℕ) (x : Word)
  /-- `set_leaf_value`, with the Boolean or the digits of the value. -/
  | value (leaf : Fin leaves) (boolean : Bool) (hex : List Char)
  /-- `set_array_seed` -/
  | seed (leaf : Fin leaves) (x : Word)
  | eval (record : Bool)

def call {leaves : ℕ} : Call leaves → Sim
  | .word l i x => { s with words := s.words.modify (s.leafOf l).node (·.set i x) }
  | .value l b hex =>
    let n := s.node (s.leafOf l).node
    match n.sort with
    | .bool => { s with words := s.words.modify (s.leafOf l).node (·.set 0 (flag b)) }
    | .bv => { s with words := s.words.set (s.leafOf l).node (parseHex hex n.nw) }
    | .array => s
  | .seed l x => { s with seeds := s.seeds.set l x }
  | .eval record => (s.eval record).1

def run {leaves : ℕ} (calls : List (Call leaves)) : Sim := calls.foldl (fun s c => s.call c) s

end Sim

end LiveHD.Lec
