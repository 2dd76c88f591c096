import LiveHD.Graph.Cell
import LiveHD.Aegraph.RuleExpr

/-!
# Pattern rewrite rules

The rule language of `rulegen/`: a left-hand side, `:let` bindings, `:when` guards and a right-hand
side.  A side is a pattern over class variables, constants `(k e)` and operand rests `..r`; a guard
is a constant expression or an analysis, read as its `:spec` in `rules/analyses.decl`.
-/

namespace LiveHD.Aegraph

mutual

/-- One side of a rule. -/
inductive Pat where
  | var (x : String)
  /-- A constant: `(k e)` or a literal. -/
  | num (e : Expr)
  | node (op : NtypeOp) (args : Args)

/-- The operands of a pattern node, each on its bank. -/
inductive Args where
  | nil
  | cons (bank : ℕ) (p : Pat) (more : Args)
  /-- `..r`: any further operands of the bank. -/
  | rest (bank : ℕ) (r : String) (more : Args)

end

/-- What a match binds. -/
structure RuleEnv where
  val : String → ℤ
  const : String → ℤ
  rest : String → List ℤ

mutual

/-- The value of a side under a binding. -/
def Pat.eval (env : RuleEnv) : Pat → Option ℤ
  | .var x => some (env.val x)
  | .num e => e.eval env.const
  | .node op args => Cell.evalOp op (args.eval env)

def Args.eval (env : RuleEnv) : Args → List (ℕ × Option ℤ)
  | .nil => []
  | .cons b p more => (b, p.eval env) :: more.eval env
  | .rest b r more => (env.rest r).map (fun v => (b, some v)) ++ more.eval env

end

mutual

/-- Every constant of a side is `ok`; a right-hand side that is not is not built. -/
def Pat.ok (env : RuleEnv) : Pat → Bool
  | .var _ => true
  | .num e => (e.eval env.const).isSome
  | .node _ args => args.ok env

def Args.ok (env : RuleEnv) : Args → Bool
  | .nil => true
  | .cons _ p more => p.ok env && more.ok env
  | .rest _ _ more => more.ok env

end

/-- The analyses a pattern rule asks about. -/
inductive Analysis where
  | bool01 | nonneg | fits | sfits | knownZero
  | ltAlways | geAlways | distinct | nonzero | zero
deriving DecidableEq

/-- The `:spec` of an analysis, on the values of its class and constant arguments. -/
def Analysis.spec : Analysis → List ℤ → List ℤ → Bool
  | .bool01, [x], [] => decide (0 ≤ x ∧ x ≤ 1)
  | .nonneg, [x], [] => decide (x ≥ 0)
  | .fits, [x], [n] => decide (n ≥ 0 ∧ x ≥ 0 ∧ x ≤ 2 ^ n.toNat - 1)
  | .sfits, [x], [n] =>
    decide (n ≥ 1 ∧ x ≤ 2 ^ (n - 1).toNat - 1 ∧ x ≥ -1 - (2 ^ (n - 1).toNat - 1))
  | .knownZero, [x], [m] => decide (m ≥ 0 ∧ Int.land x m = 0)
  | .ltAlways, [x, y], [] => decide (x < y)
  | .geAlways, [x, y], [] => decide (x ≥ y)
  | .distinct, [x, y], [] => decide (x ≠ y)
  | .nonzero, [x], [] => decide (x ≠ 0)
  | .zero, [x], [] => decide (x = 0)
  | _, _, _ => false

inductive Guard where
  | expr (e : Expr)
  | analysis (a : Analysis) (classes : List String) (consts : List Expr)

def Guard.holds (env : RuleEnv) : Guard → Bool
  | .expr e => (e.eval env.const).holds
  | .analysis a classes consts => match consts.mapM (·.eval env.const) with
    | some ks => a.spec (classes.map env.val) ks
    | none => false

structure Rule where
  name : String
  lhs : Pat
  lets : List (String × Expr) := []
  whens : List Guard := []
  rhs : Pat

/-- Bind the `:let` values, in order; one that is not `ok` refuses the match. -/
def RuleEnv.bindLets : List (String × Expr) → RuleEnv → Option RuleEnv
  | [], env => some env
  | (c, e) :: lets, env =>
    (e.eval env.const).bind fun v =>
      bindLets lets { env with const := Function.update env.const c v }

/-- The rule fires on a binding: its lets, guards and built constants are all `ok`. -/
def Rule.fires (r : Rule) (env env' : RuleEnv) : Prop :=
  env.bindLets r.lets = some env' ∧ (∀ g ∈ r.whens, g.holds env' = true) ∧ r.rhs.ok env' = true

/-- Wherever the rule fires, both sides are the same integer. -/
def Rule.Exact (r : Rule) : Prop :=
  ∀ env env', r.fires env env' → ∃ v, r.lhs.eval env' = some v ∧ r.rhs.eval env' = some v

/-! ## Spelling rules -/

namespace Pat

instance : Coe String Pat := ⟨var⟩

/-- `(k e)`. -/
@[simp] def k (e : Expr) : Pat := num e

instance (n : ℕ) : OfNat Pat n := ⟨num (.lit n)⟩

variable (op : NtypeOp) (ps : List Pat) (r : Option String)

@[simp] lemma ofNat_eq (n : ℕ) : (OfNat.ofNat n : Pat) = num (.lit n) := rfl

/-- The literal `-1`. -/
@[simp] def allOnes : Pat := num (.lit (-1))

/-- An optional rest `..r` of a bank. -/
@[simp] def restOr (bank : ℕ) (r : Option String) (more : Args) : Args :=
  match r with
  | some r => .rest bank r more
  | none => more

/-- A node whose operands all sit on bank 0, with an optional rest. -/
@[simp] def bank0 (r : Option String) : Pat :=
  .node op (ps.foldr (.cons 0) (restOr 0 r .nil))

/-- A node with operands at ports `0, 1, 2, …`. -/
@[simp] def ports : Pat :=
  .node op ((ps.zipIdx).foldr (fun p => .cons p.2 p.1) .nil)

/-- `(Sum (as … ..ar) (bs … ..br))`. -/
@[simp] def sum (as : List Pat) (ar : Option String) (bs : List Pat) (br : Option String) : Pat :=
  .node .sum (as.foldr (.cons 0) (restOr 0 ar (bs.foldr (.cons 1) (restOr 1 br .nil))))

@[simp] def and : Pat := bank0 .and ps r
@[simp] def or : Pat := bank0 .or ps r
@[simp] def xor : Pat := bank0 .xor ps r
@[simp] def mult (ps : List Pat) : Pat := bank0 .mult ps none
@[simp] def eq (x y : Pat) : Pat := bank0 .eq [x, y] none
@[simp] def ror (x : Pat) : Pat := bank0 .ror [x] none
@[simp] def not (x : Pat) : Pat := ports .not [x]
@[simp] def getMask (y lo hi : Pat) : Pat :=
  .node .getMask (.cons 0 y (.cons 2 lo (.cons 3 hi .nil)))
@[simp] def setMask (a lo hi v : Pat) : Pat :=
  .node .setMask (.cons 0 a (.cons 2 lo (.cons 3 hi (.cons 4 v .nil))))
@[simp] def sext (x b : Pat) : Pat := ports .sext [x, b]
@[simp] def shl (x s : Pat) : Pat := ports .shl [x, s]
@[simp] def sra (x s : Pat) : Pat := ports .sra [x, s]
@[simp] def div (x y : Pat) : Pat := ports .div [x, y]
@[simp] def rem (x y : Pat) : Pat := ports .rem [x, y]
@[simp] def mux (s f t : Pat) : Pat := ports .mux [s, f, t]
@[simp] def concat (lanes : List Pat) : Pat := ports .concat lanes
@[simp] def lt (x y : Pat) : Pat := ports .lt [x, y]
@[simp] def gt (x y : Pat) : Pat := ports .gt [x, y]

end Pat

namespace Guard

variable (a b : Expr)

@[simp] def pow2p (a : Expr) : Guard := expr (.fn1 .pow2p a)
@[simp] def notPow2p (a : Expr) : Guard := expr (.fn1 .lnot (.fn1 .pow2p a))
@[simp] def lt : Guard := expr (.fn2 .lt a b)
@[simp] def le : Guard := expr (.fn2 .le a b)
@[simp] def gt : Guard := expr (.fn2 .gt a b)
@[simp] def ge : Guard := expr (.fn2 .ge a b)
@[simp] def eq : Guard := expr (.fn2 .eq a b)

end Guard

/-! ## Evaluating a side -/

lemma Rule.exact_of_whens {r : Rule} (hl : r.lets = [])
    (h : ∀ env : RuleEnv, (∀ g ∈ r.whens, g.holds env = true) → r.rhs.ok env = true →
      ∃ v, r.lhs.eval env = some v ∧ r.rhs.eval env = some v) : r.Exact := by
  rintro env env' ⟨hlet, hwh, hok⟩
  rw [hl] at hlet
  obtain rfl : env = env' := Option.some.inj hlet
  exact h env hwh hok

/-- A binding of `:let` values keeps the other constants. -/
lemma RuleEnv.bindLets_const {lets : List (String × Expr)} {env env' : RuleEnv}
    (h : env.bindLets lets = some env') {c : String} (hc : ∀ l ∈ lets, l.1 ≠ c) :
    env'.const c = env.const c := by
  induction lets generalizing env with
  | nil =>
    obtain rfl : env = env' := Option.some.inj h
    rfl
  | cons l lets ih =>
    obtain ⟨v, -, h⟩ := Option.bind_eq_some_iff.1 h
    rw [ih h fun l' hl => hc l' (List.mem_cons_of_mem _ hl)]
    exact Function.update_of_ne (hc l List.mem_cons_self).symm _ _

attribute [simp] Pat.eval Args.eval Pat.ok Args.ok Expr.eval Guard.holds RuleEnv.bindLets

end LiveHD.Aegraph
