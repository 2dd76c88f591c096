import LiveHD.Usyn.Pass
import LiveHD.Lib.Lists

/-!
# Factored sums of products

`factor_sop` (`pass/usyn/sop_factor.cpp`).  An output that is a complemented AND is read as a
sum of products over the signals below it; the sum is rebuilt by Shannon cofactors on the
literal that occurs most often, at most eight deep, and as it stands below that.
-/

namespace LiveHD.Usyn

open Bool hiding and_assoc not_not
open Option hiding or or_assoc
open Pass Function List Builds Meters Xag Xsignal

/-- A conjunction of literals. -/
abbrev Product := List Xsignal

/-- `std::unique`. -/
def unique {α : Type} [DecidableEq α] : List α → List α
  | x :: y :: l => if x = y then unique (y :: l) else x :: unique (y :: l)
  | l => l

def termLimit : ℕ := 64

def literalLimit : ℕ := 16

def expansionLimit : ℕ := 256

def controlLimit : ℕ := 8

/-- One literal more: whether the product is contradictory, and the literals so far, last first. -/
def addLiteral (st : Bool × Product) (literal : Xsignal) : Bool × Product :=
  if literal.id = 0 then (st.1 || !literal.inverted, st.2)
  else (st.1 || st.2.head?.any (·.id == literal.id), literal :: st.2)

/-- Order the literals and drop repetitions and constants; `none` is a contradiction. -/
def normalize (product : Product) : Option Product :=
  let st := (unique (product.insertionSort (· ≤ ·))).foldl addLiteral (false, [])
  if st.1 then none else some st.2.reverse

section

variable (source : Xag)

/-- Expand the factors of a product, the last one first; `left` more may be visited. -/
def collectFactors : ℕ → List Xsignal → Product → PassM (Option Product)
  | _, [], product => pure (some product)
  | 0, _ :: _, _ => do
    spend 1
    pure none
  | left + 1, literal :: factors, product => do
    spend 1
    let child := source.node literal.id
    if literal.inverted = false ∧ child.kind = .andGate then
      collectFactors left (child.inputs.2 :: child.inputs.1 :: factors) product
    else if literalLimit ≤ product.length then pure none
    else collectFactors left factors (product ++ [literal])

/-- `products`: expand the pending summands, the last one first; `none` past a limit. -/
def collectTerms : ℕ → List Xsignal → List Product → PassM (Option (List Product))
  | _, [], terms => pure (some terms)
  | 0, _ :: _, _ => do
    spend 1
    pure none
  | left + 1, signal :: pending, terms => do
    spend 1
    let node := source.node signal.id
    if termLimit ≤ terms.length then pure none
    else if signal.inverted = true ∧ node.kind = .andGate then
      collectTerms left (node.inputs.2.not :: node.inputs.1.not :: pending) terms
    else collectFactors source expansionLimit [signal] [] >>= fun product => match product with
      | none => pure none
      | some product => collectTerms left pending (terms ++ (normalize product).toList)

end

section

variable (maxNodes : ℕ)

/-- The metered AND of the builder. -/
def builderLand (a b : Xsignal) : PassM Xsignal := do
  spend 1
  let g ← graph
  require (g.size < maxNodes)
  gate .andGate a b

def builderLor (a b : Xsignal) : PassM Xsignal := not <$> builderLand maxNodes a.not b.not

def builderOp (conjunction : Bool) (a b : Xsignal) : PassM Xsignal :=
  if conjunction then builderLand maxNodes a b else builderLor maxNodes a b

/-- Combine signals two by two. -/
def foldRound (conjunction : Bool) : List Xsignal → PassM (List Xsignal)
  | a :: b :: signals => do
    let s ← builderOp maxNodes conjunction a b
    (s :: ·) <$> foldRound conjunction signals
  | signals => pure signals

/-- Rounds until one signal is left; as many rounds as there are signals are enough. -/
def foldSignals (conjunction : Bool) : ℕ → List Xsignal → PassM Xsignal
  | 0, signals => pure (signals.headD (constant conjunction))
  | n + 1, signals =>
    if signals.length ≤ 1 then pure (signals.headD (constant conjunction))
    else foldRound maxNodes conjunction signals >>= foldSignals conjunction n

/-- Whether a product is empty, looking at them in order; the others are paid for. -/
def scanTerms : List Product → PassM Bool
  | [] => pure false
  | [] :: _ => pure true
  | product :: terms => do
    spend product.length
    scanTerms terms

/-- How often a signal is a literal in either phase. -/
def occurrences (terms : List Product) (id : ℕ) : ℕ × ℕ :=
  (terms.flatten.count ⟨id, false⟩, terms.flatten.count ⟨id, true⟩)

/-- Keep the signal that is repeated more, or as often and more mixed in phase: `(best, both,
control)`. -/
def betterControl (terms : List Product) (st : ℕ × ℕ × ℕ) (id : ℕ) : ℕ × ℕ × ℕ :=
  let counts := occurrences terms id
  let repeated := counts.1 + counts.2
  let mixed := min counts.1 counts.2
  if st.1 < repeated ∨ repeated = st.1 ∧ st.2.1 < mixed then (repeated, mixed, id) else st

/-- The signal to cofactor by; `0` when none is repeated. -/
def chooseControl (terms : List Product) : ℕ :=
  let ids := unique ((terms.flatten.map (·.id)).insertionSort (· ≤ ·))
  (ids.foldl (betterControl terms) (1, 0, 0)).2.2

/-- The phase in which a product has a signal, if it has it. -/
def phaseOf (control : ℕ) (product : Product) : Option Bool :=
  (product.filter (·.id = control)).getLast?.map (·.inverted)

/-- What is left of the products that do not have a signal in the other phase. -/
def cofactor (control : ℕ) (phase : Bool) (terms : List Product) : List Product :=
  (terms.filter fun product => phaseOf control product ≠ some !phase).map
    (·.filter (·.id ≠ control))

/-- The sum as it stands. -/
def buildFlat (terms : List Product) : PassM Xsignal := do
  let sums ← terms.mapM fun product => foldSignals maxNodes true product.length product
  foldSignals maxNodes false sums.length sums

/-- `Builder::build` and how many cofactors it made; `left` more levels may be cofactored.
Arguments that are calls are evaluated from left to right, which C++ leaves open. -/
def build : ℕ → List Product → PassM (Xsignal × ℕ)
  | left, terms => do
    spend (1 + terms.length)
    if (← scanTerms terms) then pure (constant true, 0)
    else match left with
      | 0 => (·, 0) <$> buildFlat maxNodes terms
      | left + 1 =>
        let control := chooseControl terms
        if control = 0 then (·, 0) <$> buildFlat maxNodes terms
        else do
          let f ← build left (cofactor control true terms)
          let t ← build left (cofactor control false terms)
          let a ← builderLand maxNodes ⟨control, false⟩ t.1
          let b ← builderLand maxNodes ⟨control, true⟩ f.1
          (·, f.2 + t.2 + 1) <$> builderLor maxNodes a b

end

structure SopState where
  outputs : List Xsignal := []
  replacements : ℕ → Option Xsignal := fun _ => none
  roots : ℕ := 0
  cofactors : ℕ := 0
  limited : Bool := false

structure SopResult where
  graph : Xag
  outputs : List Xsignal
  roots : ℕ
  cofactors : ℕ
  limited : Bool

section

variable (source : Xag) (maxNodes : ℕ)

def factorOutput (st : SopState) (output : Xsignal) : PassM SopState :=
  if output.inverted = false ∨ (source.node output.id).kind ≠ .andGate then
    pure { st with outputs := st.outputs ++ [output] }
  else collectTerms source expansionLimit [output] [] >>= fun terms => match terms with
    | none => pure { st with outputs := st.outputs ++ [output], limited := true }
    | some terms => do
      let root ← build maxNodes controlLimit terms
      let st := { st with outputs := st.outputs ++ [root.1], cofactors := st.cofactors + root.2 }
      if root.1 = output then pure st
      else pure { st with
        replacements := Function.update st.replacements output.id
          (some (root.1.phased output.inverted))
        roots := st.roots + 1 }

/-- Both rails of a replaced output use its replacement. -/
def SopState.rebind (st : SopState) (output chosen : Xsignal) : Xsignal :=
  match st.replacements output.id with
  | some r => r.phased output.inverted
  | none => chosen

def factorOutputs (outputs : List Xsignal) : PassM SopResult :=
  if maxNodes = 0 then invalid
  else if maxNodes < source.size ∨ maxNodes < outputs.length then exhausted
  else do
    spend (source.size + outputs.length)
    if outputs.any (source.size ≤ ·.id) then invalid
    else do
      let st ← outputs.foldlM (factorOutput source maxNodes) {}
      let g ← graph
      pure ⟨g, List.zipWith st.rebind outputs st.outputs, st.roots, st.cofactors, st.limited⟩

/-- The candidate starts as a copy of the source. -/
def factorSop (outputs : List Xsignal) (w : Work) : Except Stop SopResult :=
  ((factorOutputs source maxNodes outputs).run.run { work := w, candidate := source }).1

end

/-! ## Products -/

section

variable {α : Type} [DecidableEq α] {l : List α}

lemma mem_unique (l : List α) (x : α) : x ∈ unique l ↔ x ∈ l := by
  fun_induction unique l with
  | case1 y l ih => simp [ih]
  | case2 y z l h ih => simp [ih]
  | case3 l h => rfl

lemma pairwise_unique [LinearOrder α] (h : l.Pairwise (· ≤ ·)) : (unique l).Pairwise (· < ·) := by
  fun_induction unique l with
  | case1 y l ih => exact ih (pairwise_cons.1 h).2
  | case2 y z l hne ih =>
    obtain ⟨hy, hl⟩ := pairwise_cons.1 h
    refine pairwise_cons.2 ⟨fun x hx => ?_, ih hl⟩
    have hyz := lt_of_le_of_ne (hy z (.head _)) hne
    rcases mem_cons.1 ((mem_unique _ _).1 hx) with rfl | hx
    · exact hyz
    · exact hyz.trans_le ((pairwise_cons.1 hl).1 x hx)
  | case3 l hl =>
    match l, hl with
    | [], _ => exact .nil
    | [x], _ => exact pairwise_singleton _ _
    | x :: y :: l, hl => exact absurd rfl (hl x y l)

end

/-- Values of signals in which complements and constants are what they stand for. -/
structure Valuation (v : Xsignal → Bool) : Prop where
  not : ∀ s, v s.not = !v s
  constant : ∀ s, s.id = 0 → v s = s.inverted

variable {g : Xag}

lemma Xag.Wf.valuation (hg : g.Wf) (env : ℕ → Bool) : Valuation (g.eval env) :=
  ⟨g.eval_not env, fun _ hs => hg.eval_zero env hs⟩

variable {a b : Xsignal}

lemma lt_of_id_ne (h : a < b) (hne : a.id ≠ b.id) : a.id < b.id := by
  rcases Prod.Lex.lt_iff.1 (show toLex (a.id, a.inverted) <
    toLex (b.id, b.inverted) from h) with hlt | ⟨heq, -⟩
  · exact hlt
  · exact absurd heq hne

/-- The literals of an ordered product: what is kept, and when it is contradictory. -/
lemma foldl_addLiteral {literals : Product} {st : Bool × Product} (hlit : literals.Pairwise (· < ·))
    (hst : ∀ y ∈ st.2, ∀ x ∈ literals, y < x)
    (hpa : st.1 = false → st.2.Pairwise fun a b => b.id < a.id) :
    (∀ y ∈ (literals.foldl addLiteral st).2, y ∈ st.2 ∨ y ∈ literals) ∧
    ((literals.foldl addLiteral st).1 = false →
        (literals.foldl addLiteral st).2.Pairwise fun a b => b.id < a.id) ∧
      ∀ v, Valuation v → (((literals.foldl addLiteral st).1 = false ∧
        ∀ y ∈ (literals.foldl addLiteral st).2, v y = true) ↔
          st.1 = false ∧ (∀ y ∈ st.2, v y = true) ∧ ∀ x ∈ literals, v x = true) := by
  induction literals generalizing st with
  | nil => exact ⟨fun y hy => .inl hy, hpa, fun v hv => by simp⟩
  | cons x literals ih =>
    obtain ⟨hx, hli'⟩ := pairwise_cons.1 hlit
    rw [foldl_cons]
    by_cases h0 : x.id = 0
    · have hadd : addLiteral st x = (st.1 || !x.inverted, st.2) := if_pos h0
      rw [hadd]
      obtain ⟨hsub, hpa', hval⟩ := @ih (st.1 || !x.inverted, st.2) hli'
        (fun y hy z hz => hst y hy z (.tail _ hz)) fun h => hpa (or_eq_false_iff.1 h).1
      refine ⟨fun y hy => (hsub y hy).imp_right (mem_cons_of_mem _), hpa', fun v hv => ?_⟩
      rw [hval v hv, forall_mem_cons, hv.constant x h0, or_eq_false_iff, not_eq_false']
      tauto
    · have hadd : addLiteral st x = (st.1 || st.2.head?.any (·.id == x.id), x :: st.2) := if_neg h0
      rw [hadd]
      have hst' : ∀ y ∈ x :: st.2, ∀ z ∈ literals, y < z := by
        intro y hy z hz
        rcases mem_cons.1 hy with rfl | hy
        · exact hx z hz
        · exact hst y hy z (.tail _ hz)
      have hkp : (st.1 || st.2.head?.any (·.id == x.id)) = false →
          (x :: st.2).Pairwise fun a b => b.id < a.id := by
        intro h
        obtain ⟨hno, hme⟩ := or_eq_false_iff.1 h
        have hold := hpa hno
        refine pairwise_cons.2 ⟨fun y hy => ?_, hold⟩
        -- the literal is above the last one, and that is above the others
        cases hke : st.2 with
        | nil =>
          rw [hke] at hy
          cases hy
        | cons z kept =>
          rw [hke] at hy hold hme
          have hz : z.id < x.id := by
            refine lt_of_id_ne (hst z (by rw [hke]; exact (.head _)) x (.head _)) fun heq => ?_
            rw [head?_cons, any_some, heq, beq_self_eq_true] at hme
            cases hme
          rcases mem_cons.1 hy with rfl | hy
          · exact hz
          · exact ((pairwise_cons.1 hold).1 y hy).trans hz
      obtain ⟨hsub, hpa', hval⟩ := @ih (st.1 || st.2.head?.any (·.id == x.id),
        x :: st.2) hli' hst' hkp
      refine ⟨fun y hy => ?_, hpa', fun v hv => ?_⟩
      · rcases hsub y hy with hy | hy
        · rcases mem_cons.1 hy with rfl | hy
          · exact .inr (.head _)
          · exact .inl hy
        · exact .inr (.tail _ hy)
      · rw [hval v hv, or_eq_false_iff, forall_mem_cons, forall_mem_cons]
        constructor
        · rintro ⟨⟨hno, -⟩, ⟨hvx, hold⟩, hr⟩
          exact ⟨hno, hold, hvx, hr⟩
        · rintro ⟨hno, hold, hvx, hr⟩
          refine ⟨⟨hno, eq_false_iff.2 fun hme => ?_⟩, ⟨hvx, hold⟩, hr⟩
          -- the last literal would be the complement of this one
          obtain ⟨y, hy, hid⟩ := (any_eq_true _ _).1 hme
          have hmem := mem_of_mem_head? hy
          rcases eq_of_id (beq_iff_eq.1 hid) with rfl | rfl
          · exact lt_irrefl _ (hst _ hmem _ (.head _))
          · rw [hv.not, hold y hmem] at hvx
            cases hvx

/-- A product of signals of a graph, at most one for each node. -/
structure Cube (source : Xag) (product : Product) : Prop where
  lt : ∀ l ∈ product, l.id < source.size
  distinct : product.Pairwise fun a b => a.id ≠ b.id

variable {product : Product}

lemma normalize_spec {source : Xag} (hlt : ∀ l ∈ product, l.id < source.size) :
    (∀ p, normalize product = some p → Cube source p) ∧ ∀ v, Valuation v →
      ((∃ p, normalize product = some p ∧ ∀ l ∈ p, v l = true) ↔ ∀ l ∈ product, v l = true) := by
  have hmem : ∀ x, x ∈ unique (product.insertionSort (· ≤ ·)) ↔ x ∈ product := by
    intro x
    simp [mem_unique]
  obtain ⟨hsub, hpa, hval⟩ := @foldl_addLiteral _ (false, []) (pairwise_unique
    (pairwise_insertionSort (· ≤ ·) product)) nofun fun _ => .nil
  unfold normalize
  generalize (unique (product.insertionSort (· ≤ ·))).foldl addLiteral (false, []) =
    st at hsub hpa hval
  have hall : ∀ v, Valuation v →
      ((st.1 = false ∧ ∀ y ∈ st.2, v y = true) ↔ ∀ l ∈ product, v l = true) := by
    intro v hv
    rw [hval v hv]
    simp [hmem]
  obtain ⟨contradictory, kept⟩ := st
  cases contradictory with
  | true =>
    refine ⟨fun p hp => ?_, fun v hv => ?_⟩
    · cases hp
    · rw [← hall v hv]
      simp
  | false =>
    simp only [false_eq_true, if_false, some.injEq, forall_eq']
    refine ⟨⟨fun l hl => ?_, ?_⟩, fun v hv => ?_⟩
    · rcases hsub l (mem_reverse.1 hl) with hl | hl
      · cases hl
      · exact hlt l ((hmem l).1 hl)
    · rw [pairwise_reverse]
      exact (hpa rfl).imp fun hlt => hlt.ne
    · rw [← hall v hv]
      simp

/-- A sum of products. -/
def sumOf (v : Xsignal → Bool)
    (terms : List Product) : Bool := terms.any fun product => product.all v

lemma sumOf_iff (v : Xsignal → Bool) (terms : List Product) : sumOf v terms = true ↔
    ∃ p ∈ terms, ∀ l ∈ p, v l = true := by
  simp [sumOf]

variable {terms : List Product}

section

variable {source : Xag}

/-- The inputs of an AND gate. -/
lemma Xag.Wf.eval_and (hsrc : source.Wf) {s : Xsignal} (hs : s.id < source.size)
    (hk : (source.node s.id).kind = .andGate) : (source.node s.id).inputs.1.id < source.size ∧
      (source.node s.id).inputs.2.id < source.size ∧ ∀ env, source.eval env s =
        ((source.eval env (source.node s.id).inputs.1 &&
          source.eval env (source.node s.id).inputs.2) ^^ s.inverted) := by
  have hg : (source.node s.id).kind.isGate = true := by
    rw [hk]
    rfl
  obtain ⟨h1, h2⟩ := (hsrc.canonical s.id hs hg).older
  refine ⟨h1.trans hs, h2.trans hs, fun env => ?_⟩
  rw [eval, value, hsrc.valueAt_gate env hs hg, hk, Kind.op]

lemma collectFactors_meters (hsrc : source.Wf) (left : ℕ) {factors : List Xsignal}
    (hlt : ∀ l ∈ factors, l.id < source.size) (hlt' : ∀ l ∈ product, l.id < source.size) :
    Meters (collectFactors source left factors product) fun r =>
    ∀ p, r = some p → (∀ l ∈ p, l.id < source.size) ∧
      ∀ env, (∀ l ∈ p, source.eval env l = true) ↔
        (∀ l ∈ product, source.eval env l = true) ∧ ∀ l ∈ factors, source.eval env l = true := by
  induction left generalizing factors product with
  | zero =>
    cases factors with
    | nil =>
      refine .pure fun p hp => ?_
      cases hp
      exact ⟨hlt', fun env => by simp⟩
    | cons literal factors => exact (Meters.spend 1).bind fun _ _ => .pure nofun
  | succ left ih =>
    cases factors with
    | nil =>
      refine .pure fun p hp => ?_
      cases hp
      exact ⟨hlt', fun env => by simp⟩
    | cons literal factors =>
      obtain ⟨hlit, hfa⟩ := forall_mem_cons.1 hlt
      refine (Meters.spend 1).bind fun _ _ => .ite (fun hand => ?_) fun _ =>
        ite (fun _ => pure nofun) fun _ => ?_
      · obtain ⟨h1, h2, hval⟩ := hsrc.eval_and hlit hand.2
        refine (ih (forall_mem_cons.2 ⟨h2, forall_mem_cons.2 ⟨h1, hfa⟩⟩) hlt').mono fun r hr p hp =>
          ?_
        refine ⟨(hr p hp).1, fun env => ((hr p hp).2 env).trans ?_⟩
        simp only [forall_mem_cons, hval env, hand.1, Bool.xor_false, and_eq_true]
        tauto
      · have hl'' : ∀ l ∈ product ++ [literal], l.id < source.size :=
          forall_mem_append.2 ⟨hlt', forall_mem_singleton.2 hlit⟩
        refine (ih hfa hl'').mono fun r hr p hp => ?_
        refine ⟨(hr p hp).1, fun env => ((hr p hp).2 env).trans ?_⟩
        rw [forall_mem_append, forall_mem_singleton, forall_mem_cons, and_assoc]

lemma collectTerms_meters (hsrc : source.Wf) (left : ℕ) {pending : List Xsignal}
    (hlt : ∀ l ∈ pending, l.id < source.size) (hte : ∀ p ∈ terms, Cube source p) :
    Meters (collectTerms source left pending terms) fun r =>
    ∀ res, r = some res → (∀ p ∈ res, Cube source p) ∧
      ∀ env, sumOf (source.eval env) res =
      (sumOf (source.eval env) terms || pending.any (source.eval env)) := by
  induction left generalizing pending terms with
  | zero =>
    cases pending with
    | nil =>
      refine .pure fun res hres => ?_
      cases hres
      exact ⟨hte, fun env => (Bool.or_false _).symm⟩
    | cons signal pending => exact (Meters.spend 1).bind fun _ _ => .pure nofun
  | succ left ih =>
    cases pending with
    | nil =>
      refine .pure fun res hres => ?_
      cases hres
      exact ⟨hte, fun env => (Bool.or_false _).symm⟩
    | cons signal pending =>
      obtain ⟨hsig, hpe⟩ := forall_mem_cons.1 hlt
      refine (Meters.spend 1).bind fun _ _ => .ite (fun _ => pure nofun) fun _ =>
        ite (fun hand => ?_) fun _ => ?_
      · obtain ⟨h1, h2, hval⟩ := hsrc.eval_and hsig hand.2
        have hin : ∀ l ∈ (source.node signal.id).inputs.2.not ::
            (source.node signal.id).inputs.1.not :: pending,
            l.id < source.size := forall_mem_cons.2 ⟨h2, forall_mem_cons.2 ⟨h1, hpe⟩⟩
        refine (ih hin hte).mono fun r hr res hres => ?_
        refine ⟨(hr res hres).1, fun env => ((hr res hres).2 env).trans ?_⟩
        rw [any_cons, any_cons, any_cons, eval_not, eval_not, hval env, hand.1, Bool.xor_true,
          Bool.not_and, ← or_assoc (!_), or_comm (!_)]
      · have hst : ∀ l ∈ [signal], l.id < source.size := forall_mem_singleton.2 hsig
        refine (collectFactors_meters hsrc _ hst (forall_mem_nil _)).bind fun product hpr => ?_
        cases product with
        | none => exact .pure nofun
        | some product =>
          obtain ⟨hplt, hpv⟩ := hpr product rfl
          obtain ⟨hcu, hno⟩ := normalize_spec hplt
          have hte' : ∀ p ∈ terms ++ (normalize product).toList, Cube source p :=
            forall_mem_append.2 ⟨hte, fun p hp => hcu p (mem_toList.1 hp)⟩
          refine (ih hpe hte').mono fun r hr res hres => ?_
          refine ⟨(hr res hres).1, fun env => ((hr res hres).2 env).trans ?_⟩
          have hnew : sumOf (source.eval env) (normalize product).toList =
              source.eval env signal := by
            rw [Bool.eq_iff_iff, sumOf_iff]
            simp only [mem_toList]
            rw [hno _ (hsrc.valuation env), hpv env, forall_mem_singleton]
            exact and_iff_right (forall_mem_nil _)
          rw [sumOf, any_append, any_cons, ← sumOf, ← sumOf, hnew, Bool.or_assoc]

end

/-! ## Cofactors -/

lemma filter_id_eq (hp : product.Pairwise fun a b => a.id ≠ b.id) {l : Xsignal}
    (hl : l ∈ product) : product.filter (·.id = l.id) = [l] := by
  have hmem : l ∈ product.filter (·.id = l.id) := mem_filter.2 ⟨hl, decide_eq_true rfl⟩
  have hpa := hp.filter (·.id = l.id)
  have hid : ∀ x ∈ product.filter (·.id = l.id), x.id = l.id := fun x hx =>
    of_decide_eq_true (mem_filter.1 hx).2
  generalize product.filter (·.id = l.id) = kept at hmem hpa hid
  match kept with
  | [] => cases hmem
  | [x] => rw [mem_singleton.1 hmem]
  | x :: y :: kept =>
    have hne := (pairwise_cons.1 hpa).1 y (.head _)
    exact absurd ((hid x (.head _)).trans (hid y (by simp)).symm) hne

/-- A product where the control has a value. -/
lemma holds_cofactor (hp : product.Pairwise fun a b => a.id ≠ b.id) {v : Xsignal → Bool}
    (hv : Valuation v) (control : ℕ) : (∀ l ∈ product, v l = true) ↔
      phaseOf control product ≠ some (v ⟨control, false⟩) ∧
      ∀ l ∈ product.filter (·.id ≠ control), v l = true := by
  have hlit : ∀ l : Xsignal, l.id = control → v l = (v ⟨control, false⟩ ^^ l.inverted) := by
    rintro ⟨i, b⟩ rfl
    cases b with
    | false => exact (xor_false _).symm
    | true => exact (hv.not ⟨i, false⟩).trans (xor_true _).symm
  have hsp : (∀ l ∈ product, v l = true) ↔
      (∀ l ∈ product, l.id = control → v l = true) ∧
      ∀ l ∈ product.filter (·.id ≠ control), v l = true := by
    simp only [mem_filter, decide_eq_true_eq, and_imp]
    constructor
    · intro h
      exact ⟨fun l hl _ => h l hl, fun l hl _ => h l hl⟩
    · rintro ⟨h, h'⟩ l hl
      by_cases hid : l.id = control
      · exact h l hl hid
      · exact h' l hl hid
  rw [hsp]
  refine and_congr_left fun _ => ⟨fun h hph => ?_, fun h l hl hid => ?_⟩
  · obtain ⟨l, hla, hinv⟩ := map_eq_some_iff.1 hph
    obtain ⟨hl, hid⟩ := mem_filter.1 (mem_of_getLast? hla)
    have hid := of_decide_eq_true hid
    have hval := h l hl hid
    rw [hlit l hid, hinv, Bool.xor_self] at hval
    cases hval
  · rw [hlit l hid]
    have hph : phaseOf control product = some l.inverted := by
      rw [phaseOf, ← hid, filter_id_eq hp hl]
      rfl
    rw [hph] at h
    have hne : v ⟨control, false⟩ ≠ l.inverted := fun heq => h (congrArg some heq.symm)
    revert hne
    cases v ⟨control, false⟩ <;> cases l.inverted <;> simp

lemma Cube.cofactor {source : Xag} (h : ∀ p ∈ terms, Cube source p) (control : ℕ)
    (phase : Bool) : ∀ p ∈ cofactor control phase terms, Cube source p := by
  intro p hp
  obtain ⟨q, hq, rfl⟩ := mem_map.1 hp
  have hcu := h q (mem_filter.1 hq).1
  exact ⟨fun l hl => hcu.lt l (mem_filter.1 hl).1, hcu.distinct.filter _⟩

/-- Shannon expansion. -/
lemma sumOf_cofactor (hte : ∀ p ∈ terms, p.Pairwise fun a b => a.id ≠ b.id) {v : Xsignal → Bool}
    (hv : Valuation v) (control : ℕ) :
    sumOf v terms = sumOf v (cofactor control (!v ⟨control, false⟩) terms) := by
  rw [Bool.eq_iff_iff, sumOf_iff, sumOf_iff]
  constructor
  · rintro ⟨p, hp, hall⟩
    obtain ⟨hph, hr⟩ := (holds_cofactor (hte p hp) hv control).1 hall
    refine ⟨_, mem_map.2 ⟨p, mem_filter.2 ⟨hp, ?_⟩, rfl⟩, hr⟩
    rw [Bool.not_not]
    exact decide_eq_true hph
  · rintro ⟨q, hq, hall⟩
    obtain ⟨p, hp, rfl⟩ := mem_map.1 hq
    obtain ⟨hp, hph⟩ := mem_filter.1 hp
    rw [Bool.not_not] at hph
    exact ⟨p, hp, (holds_cofactor (hte p hp) hv control).2 ⟨of_decide_eq_true hph, hall⟩⟩

/-! ## The builder -/

section

variable {source : Xag} {maxNodes : ℕ} {s : PassState}

section

variable (hs : s.candidate.Wf) {f f' : (ℕ → Bool) → Bool} (ha : s.candidate.Is a f)
  (hb : s.candidate.Is b f')
include hs ha hb

lemma builderLand_builds : Builds passArena (builderLand maxNodes a b) s fun t r =>
      t.candidate.Is r (fun env => f env && f' env) ∧ t.candidate.names = s.candidate.names := by
  refine ((Meters.spend 1).builds hs).bind fun t _ ht _ hca => graph_bind ht ?_
  refine (require.builds ht).bind fun u _ hu _ hca' => ?_
  rw [← hca.1, ← hca'.1] at ha hb ⊢
  exact (gate_builds hu rfl ha hb).mono fun w r _ _ hr => ⟨hr.1, hr.2.2⟩

lemma builderLor_builds : Builds passArena (builderLor maxNodes a b) s fun t r =>
      t.candidate.Is r (fun env => f env || f' env) ∧ t.candidate.names = s.candidate.names := by
  refine (builderLand_builds hs ha.not hb.not).map fun t r _ _ hr =>
    ⟨hr.1.not.congr fun env => ?_, hr.2⟩
  rw [Bool.not_and, Bool.not_not, Bool.not_not]

end

/-- The conjunction or the disjunction of some values. -/
def junction (conjunction : Bool)
    (l : List Bool) : Bool := if conjunction then l.all id else l.any id

/-- Signals and the functions they compute. -/
def Xag.AllIs (g : Xag) (signals : List Xsignal)
    (fs : List ((ℕ → Bool) → Bool)) : Prop := Forall₂ g.Is signals fs

lemma Xag.AllIs.mono {h : Xag} {signals : List Xsignal} {fs : List ((ℕ → Bool) → Bool)}
    (ha : g.AllIs signals fs) (hg : g.Wf) (hh : h.Wf) (he : g.Extends h) : h.AllIs signals fs :=
  Forall₂.imp (fun _ _ h => h.mono hg hh he) ha

lemma foldRound_builds (conjunction : Bool) :
    ∀ (signals : List Xsignal) (fs : List ((ℕ → Bool) → Bool)) (s : PassState),
    s.candidate.Wf → s.candidate.AllIs signals fs →
    Builds passArena (foldRound maxNodes conjunction signals) s fun t res =>
    res.length = (signals.length + 1) / 2 ∧
      (∃ fs', t.candidate.AllIs res fs' ∧
        ∀ env, junction conjunction (fs'.map (· env)) = junction conjunction (fs.map (· env))) ∧
      t.candidate.names = s.candidate.names
  | [], fs, s, hs, h => .pure hs ⟨rfl, ⟨fs, h, fun _ => rfl⟩, rfl⟩
  | [a], fs, s, hs, h => .pure hs ⟨by simp, ⟨fs, h, fun _ => rfl⟩, rfl⟩
  | a :: b :: signals, _, s, hs, .cons ha (.cons hb h) => by
    rename_i f f' fs
    have hop : Builds passArena (builderOp maxNodes conjunction a b) s fun t r =>
        t.candidate.Is r (fun env => if conjunction then f env && f' env else f env || f' env) ∧
          t.candidate.names = s.candidate.names := by
      cases conjunction with
      | true => exact builderLand_builds hs ha hb
      | false => exact builderLor_builds hs ha hb
    refine hop.bind fun t x ht hle hx => ?_
    refine (foldRound_builds conjunction signals fs t ht (.mono h hs ht hle)).map
      fun u res hu hle' hres => ?_
    obtain ⟨hlen, ⟨fs', hall, hval⟩, hns⟩ := hres
    refine ⟨?_, ⟨_, .cons (hx.1.mono ht hu hle') hall, fun env => ?_⟩, hns.trans hx.2⟩
    · rw [length_cons, length_cons, length_cons]
      omega
    · have hr := hval env
      cases conjunction with
      | true =>
        simp only [junction, if_true, map_cons, all_cons, id_eq] at hr ⊢
        rw [hr, Bool.and_assoc]
      | false =>
        simp only [junction, false_eq_true, if_false, map_cons, any_cons, id_eq] at hr ⊢
        rw [hr, Bool.or_assoc]

lemma headD_is (hg : g.Wf) (conjunction : Bool) : ∀ {signals : List Xsignal}
    {fs : List ((ℕ → Bool) → Bool)}, g.AllIs signals fs → signals.length ≤ 1 →
    g.Is (signals.headD (constant conjunction)) fun env => junction conjunction (fs.map (· env))
  | [], [], _, _ => (hg.is_constant conjunction).congr fun env => by cases conjunction <;> rfl
  | [a], [f], .cons ha _, _ => ha.congr fun env => by cases conjunction <;> simp [junction]
  | _ :: _ :: _, _, _, hle => absurd hle (by simp)

lemma foldSignals_builds (conjunction : Bool) (n : ℕ) {signals : List Xsignal}
    (hlen : signals.length ≤ n)
    {fs : List ((ℕ → Bool) → Bool)} (hs : s.candidate.Wf) (h : s.candidate.AllIs signals fs) :
    Builds passArena (foldSignals maxNodes conjunction n signals) s fun t r =>
      t.candidate.Is r (fun env => junction conjunction (fs.map (· env))) ∧
      t.candidate.names = s.candidate.names := by
  induction n generalizing s signals fs with
  | zero => exact .pure hs ⟨headD_is hs conjunction h (hlen.trans (Nat.zero_le 1)), rfl⟩
  | succ n ih =>
    refine .ite (fun hle => .pure hs ⟨headD_is hs conjunction h hle, rfl⟩) fun hle => ?_
    refine (foldRound_builds conjunction signals fs s hs h).bind fun t res ht _ hres => ?_
    obtain ⟨hle', ⟨fs', hall, hval⟩, hns⟩ := hres
    refine (ih (by omega) ht hall).mono fun u r _ _ hr => ⟨hr.1.congr hval, hr.2.trans hns⟩

/-- The literals of products are in the candidate, which extends the source. -/
lemma literal_is (hsrc : source.Wf) (hg : g.Wf) (he : source.Extends g) {l : Xsignal}
    (hl : l.id < source.size) : g.Is l fun env => source.eval env l :=
  (is_self hl).mono hsrc hg he

lemma buildFlat_builds (hsrc : source.Wf) (hs : s.candidate.Wf) (he : source.Extends s.candidate)
    (hte : ∀ p ∈ terms, Cube source p) :
    Builds passArena (buildFlat maxNodes terms) s fun t r =>
      t.candidate.Is r (fun env => sumOf (source.eval env) terms) ∧
      t.candidate.names = s.candidate.names := by
  have hsu : ∀ (terms : List Product) (s : PassState), s.candidate.Wf → source.Extends s.candidate →
      (∀ p ∈ terms, Cube source p) →
      Builds passArena (terms.mapM fun product => foldSignals maxNodes true product.length product)
          s fun t sums =>
        t.candidate.AllIs sums (terms.map fun product env => product.all (source.eval env)) ∧
          t.candidate.names = s.candidate.names := by
    intro terms
    induction terms with
    | nil => exact fun s hs _ _ => .pure hs ⟨.nil, rfl⟩
    | cons product terms ih =>
      intro s hs he hte
      obtain ⟨hpr, hte⟩ := forall_mem_cons.1 hte
      rw [mapM_cons]
      have hall : s.candidate.AllIs product (product.map fun l env => source.eval env l) := by
        rw [Xag.AllIs, forall₂_map_right_iff, forall₂_same]
        exact fun l hl => literal_is hsrc hs he (hpr.lt l hl)
      refine (foldSignals_builds true _ le_rfl hs hall).bind fun t x ht hle hx => ?_
      refine (ih t ht (he.trans hle) hte).bind fun u sums hu hle' hsu =>
        .pure hu ⟨?_, hsu.2.trans hx.2⟩
      refine .cons ((hx.1.mono ht hu hle').congr fun env => ?_) hsu.1
      simp [junction, comp_def]
  refine (hsu terms s hs he hte).bind fun t sums ht _ hall => ?_
  refine (foldSignals_builds false _ le_rfl ht hall.1).mono fun u r _ _ hr =>
    ⟨hr.1.congr fun env => ?_, hr.2.trans hall.2⟩
  simp [junction, sumOf, comp_def]

lemma scanTerms_meters (terms : List Product) : Meters (scanTerms terms) fun r =>
    r = true → [] ∈ terms := by
  induction terms with
  | nil => exact .pure nofun
  | cons product terms ih =>
    cases product with
    | nil => exact .pure fun _ => .head _
    | cons l product => exact (Meters.spend _).bind fun _ _ => ih.mono fun r hr h => .tail _ (hr h)

/-- An empty product holds. -/
lemma constant_is (hg : g.Wf) (h : [] ∈ terms) : g.Is (constant true) fun env =>
    sumOf (source.eval env) terms :=
  (hg.is_constant true).congr fun _ => ((sumOf_iff _ _).2 ⟨[], h, forall_mem_nil _⟩).symm

/-- The control is a literal of some product. -/
lemma chooseControl_mem (h : chooseControl terms ≠ 0) :
    ∃ l ∈ terms.flatten, l.id = chooseControl terms := by
  have hste : ∀ st id, (betterControl terms st id).2.2 = st.2.2 ∨
      (betterControl terms st id).2.2 = id := by
    intro st id
    unfold betterControl
    dsimp only
    split
    · exact .inr rfl
    · exact .inl rfl
  have hfo : ∀ (ids : List ℕ) (st : ℕ × ℕ × ℕ), (ids.foldl (betterControl terms) st).2.2 = st.2.2 ∨
      (ids.foldl (betterControl terms) st).2.2 ∈ ids := by
    intro ids
    induction ids with
    | nil => exact fun st => .inl rfl
    | cons id ids ih =>
      intro st
      rw [foldl_cons]
      rcases ih (betterControl terms st id) with hst | hmem
      · rw [hst]
        rcases hste st id with hke | hnew
        · exact .inl hke
        · rw [hnew]
          exact .inr (.head _)
      · exact .inr (.tail _ hmem)
  rcases hfo _ (1, 0, 0) with h0 | hmem
  · exact absurd h0 h
  · rw [mem_unique, mem_insertionSort] at hmem
    obtain ⟨l, hl, hid⟩ := mem_map.1 hmem
    exact ⟨l, hl, hid⟩

lemma build_builds (hsrc : source.Wf) (left : ℕ) (hs : s.candidate.Wf)
    (he : source.Extends s.candidate) (hte : ∀ p ∈ terms, Cube source p) :
    Builds passArena (build maxNodes left terms) s fun t r =>
      t.candidate.Is r.1 (fun env => sumOf (source.eval env) terms) ∧
      t.candidate.names = s.candidate.names := by
  induction left generalizing s terms with
  | zero =>
    refine ((Meters.spend _).builds hs).bind fun t _ ht _ hca => ?_
    refine ((scanTerms_meters terms).builds ht).bind fun u empty hu _ hem => ?_
    obtain ⟨hca', hem⟩ := hem
    rw [← hca.1, ← hca'] at he ⊢
    refine .ite (fun hyes => .pure hu ⟨constant_is hu (hem hyes), rfl⟩) fun _ => ?_
    exact (buildFlat_builds hsrc hu he hte).map fun w r _ _ hr => hr
  | succ left ih =>
    refine ((Meters.spend _).builds hs).bind fun t _ ht _ hca => ?_
    refine ((scanTerms_meters terms).builds ht).bind fun u empty hu _ hem => ?_
    obtain ⟨hca', hem⟩ := hem
    rw [← hca.1, ← hca'] at he ⊢
    refine .ite (fun hyes => .pure hu ⟨constant_is hu (hem hyes), rfl⟩) fun _ => ?_
    refine .ite (fun _ => (buildFlat_builds hsrc hu he hte).map fun w r _ _ hr => hr) fun hco => ?_
    obtain ⟨l, hl, hid⟩ := chooseControl_mem hco
    obtain ⟨product, hpr, hl⟩ := mem_flatten.1 hl
    have hlt := hid ▸ (hte product hpr).lt l hl
    refine (ih hu he (.cofactor hte _ true)).bind fun v f hv hlev hf => ?_
    refine (ih hv (he.trans hlev) (.cofactor hte _ false)).bind fun w r hw hlew hr => ?_
    have hew := (he.trans hlev).trans hlew
    have hsel := literal_is hsrc hw hew (l := ⟨chooseControl terms, false⟩) hlt
    have hse' := literal_is hsrc hw hew (l := ⟨chooseControl terms, true⟩) hlt
    refine (builderLand_builds hw hsel hr.1).bind fun x a hx hlex ha => ?_
    refine (builderLand_builds hx (hse'.mono hw hx hlex)
      ((hf.1.mono hv hw hlew).mono hw hx hlex)).bind
      fun y b hy hley hb => ?_
    refine (builderLor_builds hy (ha.1.mono hx hy hley) hb.1).map fun z root _ _ hro =>
      ⟨hro.1.congr fun env => ?_, hro.2.trans (hb.2.trans (ha.2.trans (hr.2.trans hf.2)))⟩
    -- the cofactors are those of the value of the control
    rw [sumOf_cofactor (fun p hp => (hte p hp).distinct) (hsrc.valuation env) (chooseControl terms),
      show source.eval env ⟨chooseControl terms, true⟩ = _ from
        source.eval_not env ⟨chooseControl terms, false⟩]
    cases source.eval env ⟨chooseControl terms, false⟩ <;> simp

/-! ## The pass -/

/-- The outputs that are done have their values, and so have the replacements. -/
structure Factored (source : Xag) (done : List Xsignal) (g : Xag) (st : SopState) : Prop where
  outputs : Forall₂ (fun s t => g.Is t fun env => source.eval env s) done st.outputs
  replacements : ∀ id r, st.replacements id = some r → g.Is r fun env => source.valueAt env id
  extends_source : source.Extends g
  names : g.names = source.names

variable {done : List Xsignal} {output : Xsignal} {st : SopState}

/-- One more output. -/
lemma Factored.push {h : Xag} {st' : SopState} (hst : Factored source done g st)
    (hg : g.Wf) (hh : h.Wf) (he : g.Extends h) (hns : h.names = g.names) {root : Xsignal}
    (hro : h.Is root fun env => source.eval env output) (hout : st'.outputs = st.outputs ++ [root])
    (hrep : ∀ id r, st'.replacements id = some r → st.replacements id = some r ∨
      h.Is r fun env => source.valueAt env id) :
    Factored source (done ++ [output]) h st' where
  outputs := by
    rw [hout]
    exact rel_append (.imp (fun _ _ h => h.mono hg hh he) hst.outputs) (.cons hro .nil)
  replacements id r hr := by
    rcases hrep id r hr with hr | hr
    · exact (hst.replacements id r hr).mono hg hh he
    · exact hr
  extends_source := hst.extends_source.trans he
  names := hns.trans hst.names

lemma factorOutput_builds (hsrc : source.Wf) (hs : s.candidate.Wf)
    (hst : Factored source done s.candidate st) (hout : output.id < source.size) :
    Builds passArena (factorOutput source maxNodes st output) s fun t st' =>
      Factored source (done ++ [output]) t.candidate st' := by
  have hse := literal_is hsrc hs hst.extends_source hout
  refine .ite (fun _ => .pure hs ?_) fun _ => ?_
  · exact hst.push hs hs (.refl _) rfl hse rfl fun _ _ h => .inl h
  have hpe : ∀ l ∈ [output], l.id < source.size := forall_mem_singleton.2 hout
  refine ((collectTerms_meters hsrc expansionLimit hpe (forall_mem_nil _)).builds hs).bind
    fun t terms ht _ hte => ?_
  obtain ⟨hca, hte⟩ := hte
  rw [← hca] at hst hse
  cases terms with
  | none => exact .pure ht (hst.push ht ht (.refl _) rfl hse rfl fun _ _ h => .inl h)
  | some terms =>
    obtain ⟨hcu, hsum⟩ := hte terms rfl
    refine (build_builds hsrc controlLimit ht hst.extends_source hcu).bind fun u root hu hle hro =>
      ?_
    have hr' : u.candidate.Is root.1 fun env => source.eval env output := by
      refine hro.1.congr fun env => ?_
      rw [hsum env, sumOf, any_nil, Bool.false_or, any_cons, any_nil, Bool.or_false]
    refine .ite (fun _ => .pure hu ?_) fun _ => .pure hu ?_
    · exact hst.push ht hu hle hro.2 hr' rfl fun _ _ h => .inl h
    · refine hst.push ht hu hle hro.2 hr' rfl fun id r hr => ?_
      rcases update_eq_some hr with ⟨rfl, rfl⟩ | hr
      · refine .inr ((hr'.phased _).congr fun env => ?_)
        simp [Xag.eval, value]
      · exact .inl hr

lemma Factored.rebind (hst : Factored source done g st) {chosen : Xsignal}
    (h : g.Is chosen fun env => source.eval env output) :
    g.Is (st.rebind output chosen) fun env => source.eval env output := by
  unfold SopState.rebind
  split
  next r hr => exact (hst.replacements _ _ hr).phased _
  · exact h

/-- Outputs that one by one have the values of others. -/
lemma Preserves.of_forall₂ {outputs outputs' : List Xsignal} (hg : g.Wf)
    (hns : g.names = source.names)
    (h : Forall₂ (fun s t => g.Is t fun env => source.eval env s) outputs outputs') :
    Preserves source outputs g outputs' where
  wf := hg
  names := hns
  lt t ht := by
    obtain ⟨s, -, hst⟩ := h.exists_of_mem_right ht
    exact hst.lt
  eval env := by
    induction h with
    | nil => rfl
    | cons hst _ ih => simp [ih, hst.eval env]

lemma factorOutputs_builds (hsrc : source.Wf) (outputs : List Xsignal) (w : Work) :
    Builds passArena (factorOutputs source maxNodes outputs)
    { work := w, candidate := source } fun _ res =>
      Preserves source outputs res.graph res.outputs := by
  have hsta := hsrc
  refine ite (fun _ => throw hsta) fun _ => ite (fun _ => throw hsta) fun _ => ?_
  refine ((Meters.spend _).builds hsta).bind fun s _ hs _ hca =>
    ite (fun _ => throw hs) fun hany => ?_
  have hin : Factored source [] s.candidate {} := by
    rw [hca.1]
    exact ⟨.nil, nofun, Xag.Extends.refl _, rfl⟩
  have hlo := foldlM (A := passArena) (f := factorOutput source maxNodes)
    (Q := fun done u st => Factored source done u.candidate st) [] outputs (b := {}) hs hin
    fun pre x post heq u st hu _ hst => factorOutput_builds hsrc hu hst (any_size_le hany x (by
      rw [nil_append] at heq
      rw [heq]
      exact mem_append_right _ (.head _)))
  refine hlo.bind fun u st hu _ hst => graph_bind hu (pure hu ?_)
  refine Preserves.of_forall₂ hu hst.names ?_
  have hzip : ∀ {l m : List Xsignal},
      Forall₂ (fun s t => u.candidate.Is t fun env => source.eval env s) l m →
      Forall₂ (fun s t => u.candidate.Is t fun env => source.eval env s) l
      (zipWith st.rebind l m) := by
    intro l m h
    induction h with
    | nil => exact .nil
    | cons hst' _ ih => exact .cons (hst.rebind hst') ih
  exact hzip hst.outputs

/-- Factoring preserves every output, for every assignment of the sources. -/
theorem factorSop_preserves (hsrc : source.Wf) (outputs : List Xsignal) (w : Work) (res : SopResult)
    (h : factorSop source maxNodes outputs w = .ok res) :
    Preserves source outputs res.graph res.outputs :=
  (factorOutputs_builds hsrc outputs w).2.2 res h

end

/-- `ab | ac | ~ad`, with a contradictory product, and the other rail of the sum. -/
def sopXag : Xag := runOps [.input "a", .input "b", .input "c", .input "d",
    .land ⟨1, false⟩ ⟨2, false⟩,
  .land ⟨1, false⟩ ⟨3, false⟩, .land ⟨1, true⟩ ⟨4, false⟩, .land ⟨7, false⟩ ⟨5, false⟩,
  .lor ⟨5, false⟩ ⟨6, false⟩,
  .lor ⟨9, true⟩ ⟨7, false⟩, .lor ⟨10, true⟩ ⟨8, false⟩]

def sopOutputs : List Xsignal := [⟨11, true⟩, ⟨11, false⟩, ⟨9, false⟩]

def sopFactored : Except Stop SopResult :=
  factorSop sopXag 1000 sopOutputs { budget := { remaining := 1000 } }

/-- The sum becomes a multiplexer on `a`, for both rails. -/
theorem factorSop_preserves_sum :
    (sopFactored.toOption.map fun res => (res.outputs, res.roots, res.cofactors)) =
      some ([⟨14, true⟩, ⟨14, false⟩, ⟨9, false⟩], 1, 1) ∧
    ∀ res, sopFactored = .ok res → Preserves sopXag sopOutputs res.graph res.outputs := by
  refine ⟨by decide +kernel, fun res h => ?_⟩
  exact factorSop_preserves (wf_runOps _) _ _ res h

end LiveHD.Usyn
