import LiveHD.Graph.Cell
import LiveHD.Aegraph.RuleExpr

/-!
# E-graphs and the values of their classes

The acyclic e-graph of `aegraph.hpp`: a class is a leaf, a `?` literal, a constant, a hash-consed
node or the union of two classes.  A `Valuation` gives the integer of each class under one
assignment of the leaves, if it has one.
-/

namespace LiveHD.Aegraph

open List Cell

abbrev ClassId := ℕ

/-- One operand of an e-node and the sink bank it occupies. -/
structure Operand where
  bank : ℕ
  cls : ClassId
deriving DecidableEq

structure Enode where
  op : NtypeOp
  operands : List Operand
deriving DecidableEq

/-- A fully known constant: an integer, or a `Boolean` (the hardware `u1`). -/
inductive Dlop where
  | integer (v : ℤ)
  | boolean (b : Bool)
deriving DecidableEq

def Dlop.val : Dlop → ℤ
  | .integer v => v
  | .boolean b => Cell.flag b

inductive Eclass where
  | leaf
  /-- A `?`-bearing constant. -/
  | literal
  | konst (v : Dlop)
  | node (n : Enode)
  /-- The union of a class and a rule's alternative. -/
  | uni (a b : ClassId)
deriving DecidableEq

/-- The classes a class reads. -/
def Eclass.reads : Eclass → List ClassId
  | .node n => n.operands.map (·.cls)
  | .uni a b => [a, b]
  | _ => []

/-- An e-graph: its classes in creation order. -/
structure Egraph where
  classes : List Eclass
  operandsFirst : ∀ c, ∀ h : c < classes.length, ∀ d ∈ (classes.get ⟨c, h⟩).reads, d < c

variable {c : ClassId}

namespace Egraph

variable (eg : Egraph)

def cls (c : ClassId) : Eclass := (eg.classes[c]?).getD .leaf

/-- The operand of a bank. -/
def byBank (ops : List Operand) (bank : ℕ) : Option ClassId :=
  (ops.find? (·.bank == bank)).map (·.cls)

variable {eg} in
lemma mem_of_node {n : Enode} (h : eg.cls c = .node n) : .node n ∈ eg.classes := by
  unfold cls at h
  cases hc : eg.classes[c]? with
  | none =>
    rw [hc] at h
    cases h
  | some e =>
    rw [hc] at h
    exact (show e = .node n from h) ▸ mem_of_getElem? hc

/-- The value of an `int64` constant class. -/
def constI64 (c : ClassId) : Option ℤ := match eg.cls c with
  | .konst (.integer v) => if isI64 v then some v else none
  | _ => none

lemma isI64_of_constI64 {k : ℤ} (h : eg.constI64 c = some k) : isI64 k = true := by
  unfold constI64 at h
  split at h
  · split at h
    next hk => exact Option.some.inj h ▸ hk
    · cases h
  · cases h

/-- The walk of `for_each_member`: a stack of at most 64 classes, the side `a` of a union first. -/
def memberWalk : ℕ → List ClassId → ℕ → List ClassId
  | 0, _, _ => []
  | _ + 1, [], _ => []
  | fuel + 1, cur :: stack, limit =>
    match eg.cls cur with
    | .uni a b =>
      if stack.length + 2 ≤ 64 then memberWalk fuel (a :: b :: stack) limit
      else if limit = 0 then [] else cur :: memberWalk fuel stack (limit - 1)
    | _ => if limit = 0 then [] else cur :: memberWalk fuel stack (limit - 1)

/-- The classes `for_each_member` visits.  An expansion grows the stack by one, so at most
`63 + members` of them happen. -/
def members (c : ClassId) (limit : ℕ) : List ClassId := eg.memberWalk (2 * limit + 66) [c] limit

/-- The e-node of a node class. -/
def enodeOf (c : ClassId) : Option Enode := match eg.cls c with
  | .node n => some n
  | _ => none

end Egraph

/-- The values of the classes under one assignment of the leaves; the classes of a union are
equal. -/
structure Valuation (eg : Egraph) where
  val : ClassId → Option ℤ
  leaf : ∀ c, eg.cls c = .leaf → (val c).isSome
  literal : ∀ c, eg.cls c = .literal → val c = none
  konst : ∀ c k, eg.cls c = .konst k → val c = some k.val
  node : ∀ c n, eg.cls c = .node n →
    val c = Cell.evalOp n.op (n.operands.map fun o => (o.bank, val o.cls))
  uni : ∀ c a b, eg.cls c = .uni a b → val c = val a ∧ val b = val a

/-- The law of one class. -/
def Egraph.Respects (eg : Egraph) (val : ClassId → Option ℤ) (c : ClassId) : Prop :=
  match eg.cls c with
  | .leaf => (val c).isSome
  | .literal => val c = none
  | .konst k => val c = some k.val
  | .node n => val c = Cell.evalOp n.op (n.operands.map fun o => (o.bank, val o.cls))
  | .uni a b => val c = val a ∧ val b = val a

instance (eg : Egraph) (val : ClassId → Option ℤ) : DecidablePred (eg.Respects val) := fun c =>
  match h : eg.cls c with
  | .leaf => decidable_of_iff ((val c).isSome = true) (by simp only [Egraph.Respects, h])
  | .literal => decidable_of_iff (val c = none) (by simp only [Egraph.Respects, h])
  | .konst k => decidable_of_iff (val c = some k.val) (by simp only [Egraph.Respects, h])
  | .node n =>
      decidable_of_iff (val c = Cell.evalOp n.op (n.operands.map fun o => (o.bank, val o.cls)))
      (by simp only [Egraph.Respects, h])
  | .uni a b => decidable_of_iff (val c = val a ∧ val b = val a) (by simp only [Egraph.Respects, h])

namespace Valuation

variable {eg : Egraph} (ρ : Valuation eg)

/-- A table of values, checked class by class. -/
def ofList (vals : List (Option ℤ))
    (h : ∀ c < eg.classes.length, eg.Respects (fun c => vals.getD c (some 0)) c)
    (hlen : vals.length ≤ eg.classes.length) : Valuation eg :=
  have hall : ∀ c, eg.Respects (fun c => vals.getD c (some 0)) c := fun c => by
    by_cases hc : c < eg.classes.length
    · exact h c hc
    · have hl : eg.cls c = .leaf := by simp [Egraph.cls, getElem?_eq_none (not_lt.1 hc)]
      simp [Egraph.Respects, hl, getElem?_eq_none (hlen.trans (not_lt.1 hc))]
  { val := fun c => vals.getD c (some 0)
    leaf := fun c hc => by simpa only [Egraph.Respects, hc] using hall c
    literal := fun c hc => by simpa only [Egraph.Respects, hc] using hall c
    konst := fun c k hc => by simpa only [Egraph.Respects, hc] using hall c
    node := fun c n hc => by simpa only [Egraph.Respects, hc] using hall c
    uni := fun c a b hc => by simpa only [Egraph.Respects, hc] using hall c }

lemma constI64 {k : ℤ} (h : eg.constI64 c = some k) : ρ.val c = some k := by
  unfold Egraph.constI64 at h
  split at h
  next v hc =>
    split at h
    · rwa [ρ.konst c _ hc]
    · cases h
  · cases h

/-- Every class a member walk visits has the value of the walked class. -/
lemma memberWalk {v : Option ℤ} (fuel : ℕ) {stack : List ClassId} (limit : ℕ)
    (h : ∀ c ∈ stack, ρ.val c = v) : ∀ c ∈ eg.memberWalk fuel stack limit, ρ.val c = v := by
  induction fuel generalizing stack limit with
  | zero => simp [Egraph.memberWalk]
  | succ fuel ih =>
    cases stack with
    | nil => simp [Egraph.memberWalk]
    | cons cur stack =>
      obtain ⟨hcur, hst⟩ := forall_mem_cons.1 h
      have hvi : ∀ c ∈ (if limit = 0 then [] else cur :: eg.memberWalk fuel stack (limit - 1)),
          ρ.val c = v := by
        split
        · simp
        · exact forall_mem_cons.2 ⟨hcur, ih _ hst⟩
      unfold Egraph.memberWalk
      split
      next a b hc =>
        obtain ⟨ha, hb⟩ := ρ.uni _ _ _ hc
        split
        · refine ih _ (forall_mem_cons.2 ⟨ha ▸ hcur, forall_mem_cons.2 ⟨?_, hst⟩⟩)
          rw [hb, ← ha, hcur]
        · exact hvi
      · exact hvi

lemma members {m : ClassId} {limit : ℕ} (h : m ∈ eg.members c limit) : ρ.val m = ρ.val c :=
  ρ.memberWalk _ _ (forall_mem_cons.2 ⟨rfl, by simp⟩) m h

lemma enodeOf {n : Enode} (h : eg.enodeOf c = some n) :
    ρ.val c = evalOp n.op (n.operands.map fun o => (o.bank, ρ.val o.cls)) := by
  unfold Egraph.enodeOf at h
  split at h
  next n' hc =>
    obtain rfl := Option.some.inj h
    exact ρ.node c n' hc
  · cases h

/-- The banks and values of operands that all have a value. -/
def Reads (ops : List Operand) (l : List (ℕ × ℤ)) : Prop :=
  Forall₂ (fun o a => o.bank = a.1 ∧ ρ.val o.cls = some a.2) ops l

lemma exists_reads (op : NtypeOp) (hop : isStrict op = true) {ops : List Operand} {v : ℤ}
    (h : evalOp op (ops.map fun o => (o.bank, ρ.val o.cls)) = some v) :
    ∃ l, ρ.Reads ops l ∧ Cell.evalKnown op l = some v := by
  rw [evalOp_of_strict hop] at h
  obtain ⟨l, hl, hv⟩ := Option.bind_eq_some_iff.1 h
  refine ⟨l, ?_, hv⟩
  rw [known_eq_some, forall₂_map_left_iff] at hl
  exact hl.imp fun o a h => ⟨(Prod.mk.inj h).1, (Prod.mk.inj h).2⟩

variable {ρ}

lemma Reads.byBank {ops : List Operand} {l : List (ℕ × ℤ)} (h : ρ.Reads ops l) {b : ℕ}
    (hc : Egraph.byBank ops b = some c) : ∃ x, Cell.byBank l b = some x ∧ ρ.val c = some x := by
  induction h with
  | nil => cases hc
  | @cons o a ops l hoa _ ih =>
    by_cases hb : o.bank = b
    · refine ⟨a.2, ?_, ?_⟩
      · simp [Cell.byBank, ← hoa.1, hb]
      · simp only [Egraph.byBank, find?_cons, beq_iff_eq.2 hb, Option.map_some,
          Option.some.injEq] at hc
        exact hc ▸ hoa.2
    · have hne : (o.bank == b) = false := by simpa using hb
      have hne' := hoa.1 ▸ hne
      simp only [Egraph.byBank, find?_cons, hne] at hc
      obtain ⟨x, hx, hval⟩ := ih hc
      exact ⟨x, by simpa only [Cell.byBank, find?_cons, hne'] using hx, hval⟩

end Valuation

end LiveHD.Aegraph
