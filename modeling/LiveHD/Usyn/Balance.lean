import LiveHD.Usyn.Pass

/-!
# Balanced AND and XOR groups

`balance_xag` (`pass/usyn/xag_balance.cpp`).  Each needed gate collects the operands of its
associative group through gates that nothing else reads; the groups are rebuilt by pairing the
operands that arrive first.
-/

namespace LiveHD.Usyn

open Bool hiding or_false
open Pass Function List Builds Usyn.Kind Meters Xag

/-- References of the live part of a graph. -/
structure Refs where
  live : ℕ → Bool := fun _ => false
  refs : ℕ → ℕ := fun _ => 0
  protectedRoot : ℕ → Bool := fun _ => false

/-- One more reader of a node. -/
def Refs.read (r : Refs) (s : Xsignal) : Refs :=
  { r with live := update r.live s.id true, refs := update r.refs s.id (r.refs s.id + 1) }

def Refs.output (r : Refs) (s : Xsignal) : Refs :=
  { r.read s with protectedRoot := update r.protectedRoot s.id true }

/-- References from outputs and from live gates. -/
def liveRefs (source : Xag) (outputs : List Xsignal) : Refs :=
  (range source.size).reverse.foldl (fun r id =>
    if r.live id = true ∧ (source.node id).kind.isGate = true then
      (r.read (source.node id).inputs.1).read (source.node id).inputs.2
    else r) (outputs.foldl Refs.output {})

/-- The operands of a group, in the source graph. -/
structure Group where
  leaves : List Xsignal := []
  phase : Bool := false

structure BalanceLimits where
  maxNodes : ℕ := 2000000
  groupLimit : ℕ := 128
  duplicationLimit : ℕ := 0

/-- The groups to rebuild. -/
structure Plan where
  needed : ℕ → Bool
  groups : ℕ → Group := fun _ => {}
  duplications : ℕ := 0

structure BalanceResult where
  graph : Xag
  outputs : List Xsignal
  groups : ℕ
  duplications : ℕ

section

variable (source : Xag) (r : Refs) (o : BalanceLimits)

/-- Count the gates a shared root owns; the fuel is what is left of five. -/
def coneSize (kind : Kind) : ℕ → List ℕ → ℕ → PassM (List ℕ × ℕ)
  | 0, cone, n => pure (cone, n)
  | _ + 1, [], n => pure ([], n)
  | fuel + 1, gate :: cone, n => do
    spend 1
    let inputs := (source.node gate).inputs
    let owned := [inputs.2, inputs.1].filter fun s =>
      (s.inverted = false ∨ kind = .xorGate) ∧ (source.node s.id).kind = kind ∧ r.refs s.id = 1
    coneSize kind fuel (owned.map (·.id) ++ cone) (n + 1)

/-- How many gates crossing into a shared root would duplicate; zero when it is not allowed. -/
def duplication (id : ℕ) (signal : Xsignal) (distance done : ℕ) : PassM ℕ :=
  let node := source.node id
  let child := source.node signal.id
  if (r.protectedRoot id = true ∨ 1 < r.refs id) ∧ 1 < r.refs signal.id ∧
      r.protectedRoot signal.id = false ∧
      child.level + distance = node.level ∧ child.kind = node.kind ∧ signal.inverted = false ∧
      done < o.duplicationLimit then
    (fun c => if c.1 ≠ [] ∨ 4 < c.2 ∨ o.duplicationLimit - done < c.2 then 0 else c.2) <$>
      coneSize source r node.kind 5 [signal.id] 0
  else pure 0

variable (kind : Kind) (group : Group) (s : Xsignal)

/-- The phase of an operand moves to the group of a XOR. -/
def takePhase : Group × Xsignal :=
  if kind = .xorGate then ({ group with phase := group.phase ^^ s.inverted }, ⟨s.id, false⟩)
    else (group, s)

lemma leaves_takePhase : (takePhase kind group s).1.leaves = group.leaves := by
  unfold takePhase
  split <;> rfl

/-- Expand the pending operands of a group, the last one first. -/
def collect (id : ℕ) : List (Xsignal × ℕ) → Group → ℕ → PassM (Group × ℕ)
  | [], group, done => pure (group, done)
  | (signal, distance) :: pending, group, done => do
    spend 1
    require (pending.length + 1 + group.leaves.length ≤ o.maxNodes)
    let taken := takePhase (source.node id).kind group signal
    let child := source.node taken.2.id
    let copies ← duplication source r o id taken.2 distance done
    if child.kind = (source.node id).kind ∧ taken.2.inverted = false ∧
        (r.refs taken.2.id = 1 ∨ copies ≠ 0) ∧
        group.leaves.length + pending.length + 2 ≤ o.groupLimit then
      collect id ((child.inputs.2, distance + 1) :: (child.inputs.1, distance + 1) :: pending)
        taken.1 (done + copies)
    else collect id pending { taken.1 with leaves := taken.1.leaves ++ [taken.2] } done
termination_by pending group =>
  2 * (o.groupLimit - (pending.length + group.leaves.length)) + pending.length
decreasing_by
  · simp only [leaves_takePhase, length_cons]
    omega
  · simp only [leaves_takePhase, length_cons, length_append, length_nil]
    omega

/-- The group of a needed gate; its operands are needed. -/
def planGroup (plan : Plan) (id : ℕ) : PassM Plan :=
  let inputs := (source.node id).inputs
  if plan.needed id = false ∨ (source.node id).kind.isGate = false then pure plan
  else do
    spend 1
    let group ← collect source r o id [(inputs.2, 1), (inputs.1, 1)] {} plan.duplications
    pure {
      needed := group.1.leaves.foldl (fun needed s => update needed s.id true) plan.needed
      groups := update plan.groups id group.1
      duplications := group.2 }

/-- Add a run of equal operands to the terms, last one first; `none` is a contradiction. -/
def addRun (kind : Kind) (terms run : List Xsignal) : Option (List Xsignal) := match run with
  | [] => some terms
  | x :: _ =>
    if kind = .andGate then if terms.head?.any (·.id == x.id) then none else some (x :: terms)
    else if run.length % 2 = 1 then some (x :: terms) else some terms

/-- The arrival order of signals. -/
def Xag.earlier (g : Xag) (a b : Xsignal) : Prop :=
  toLex ((g.node a.id).level, a) ≤ toLex ((g.node b.id).level, b)

instance (g : Xag) : DecidableRel g.earlier := fun _ _ => inferInstanceAs (Decidable (_ ≤ _))

/-- Pair the two earliest operands until one is left. -/
def pairUp (kind : Kind) : List Xsignal → PassM Xsignal
  | [] => pure (constant (kind = .andGate))
  | [x] => pure x
  | a :: b :: heap => do
    spend 1
    let g ← graph
    require (g.size < o.maxNodes)
    let s ← gate kind a b
    let g ← graph
    pairUp kind (heap.orderedInsert g.earlier s)
termination_by heap => heap.length
decreasing_by simp [orderedInsert_length]

/-- The rebuilt root of a group over its translated operands. -/
def buildGroup (kind : Kind) (leaves : List Xsignal) (phase : Bool) : PassM Xsignal :=
  match (leaves.splitBy (· == ·)).foldlM (addRun kind) [] with
  | none => pure (constant false)
  | some terms => do
    let g ← graph
    let root ← pairUp o kind (terms.insertionSort g.earlier)
    pure (if phase then root.not else root)

def rebuildGroup (plan : Plan) (st : (ℕ → Xsignal) × ℕ) (id : ℕ) : PassM ((ℕ → Xsignal) × ℕ) := do
  spend 1
  if (source.node id).kind = .source then do
    let s ← copySource source id
    pure (update st.1 id s, st.2)
  else if plan.needed id = false then pure st
  else do
    let group := plan.groups id
    let g ← graph
    require (g.size + group.leaves.length ≤ o.maxNodes)
    let leaves := (group.leaves.map (translated st.1)).insertionSort (· ≤ ·)
    let root ← buildGroup o (source.node id).kind leaves group.phase
    pure (update st.1 id root, if 2 < leaves.length then st.2 + 1 else st.2)

def balanceXag (outputs : List Xsignal) : PassM BalanceResult :=
  if o.maxNodes = 0 ∨ o.groupLimit < 2 ∨ 1024 < o.duplicationLimit ∨ o.maxNodes < source.size ∨
    o.maxNodes < outputs.length then invalid
  else do
    spend (4 * source.size + outputs.length)
    if outputs.any (source.size ≤ ·.id) then invalid
    else do
      let r := liveRefs source outputs
      let needed := outputs.foldl (fun needed s => update needed s.id true) fun _ => false
      let plan ← (range' 1 (source.size - 1)).reverse.foldlM
        (planGroup source r o) { needed := needed }
      let st ← (range' 1 (source.size - 1)).foldlM (rebuildGroup source o plan) (fun _ => {}, 0)
      let g ← graph
      pure ⟨g, outputs.map (translated st.1), st.2, plan.duplications⟩

end

/-! ## Folding a gate over its operands -/

namespace Kind

def unit : Kind → Bool
  | .andGate => true
  | _ => false

/-- A gate of any number of operands. -/
def fold (kind : Kind) (l : List Bool) : Bool := l.foldr kind.op kind.unit

lemma op_left_comm (kind : Kind) (x y z : Bool) :
    kind.op x (kind.op y z) = kind.op y (kind.op x z) := by
  cases kind with
  | constant => rfl
  | source => rfl
  | andGate => exact and_left_comm x y z
  | xorGate => exact xor_left_comm x y z

instance (kind : Kind) : LeftCommutative kind.op := ⟨kind.op_left_comm⟩

variable {kind : Kind}

@[simp] lemma fold_cons (x : Bool) (l : List Bool) :
    kind.fold (x :: l) = kind.op x (kind.fold l) := rfl

lemma fold_perm {l m : List Bool} (h : l.Perm m) : kind.fold l = kind.fold m := h.foldr_eq _

lemma op_assoc (x y z : Bool) : kind.op (kind.op x y) z = kind.op x (kind.op y z) := by
  cases kind with
  | constant => rfl
  | source => rfl
  | andGate => exact and_assoc x y z
  | xorGate => exact xor_assoc x y z

lemma fold_nil : kind.fold [] = decide (kind = .andGate) := by
  cases kind <;> rfl

lemma fold_singleton (hk : kind.isGate = true) (x : Bool) : kind.fold [x] = x := by
  cases kind with
  | constant => cases hk
  | source => cases hk
  | andGate => exact and_true x
  | xorGate => exact xor_false x

lemma fold_and (l : List Bool) : andGate.fold l = true ↔ ∀ x ∈ l, x = true := by
  induction l with
  | nil => simp [fold, unit]
  | cons x l ih => rw [fold_cons, forall_mem_cons, ← ih, op, and_eq_true]

lemma fold_append_xor (l m : List Bool) :
    xorGate.fold (l ++ m) = (xorGate.fold l ^^ xorGate.fold m) := by
  induction l with
  | nil => exact (false_xor _).symm
  | cons x l ih => simp [fold_cons, fold_cons, ih, op]

lemma fold_replicate_xor (n : ℕ) (x : Bool) :
    xorGate.fold (replicate n x) = (decide (n % 2 = 1) && x) := by
  induction n with
  | zero => rfl
  | succ n ih =>
    rw [replicate_succ, fold_cons, ih, op]
    rcases Nat.mod_two_eq_zero_or_one n with h | h
    · rw [h, show (n + 1) % 2 = 1 by omega]
      simp
    · rw [h, show (n + 1) % 2 = 0 by omega]
      simp

end Kind

/-! ## Collecting a group -/

/-- The operands still pending and the leaves of a group spell a gate. -/
structure Collects (source : Xag) (id : ℕ) (pending : List Xsignal) (group : Group) : Prop where
  older : ∀ s ∈ pending ++ group.leaves, s.id < id
  value : ∀ env, source.valueAt env id =
    ((source.node id).kind.fold ((pending ++ group.leaves).map (source.eval env)) ^^ group.phase)
  phase : (source.node id).kind = .andGate → group.phase = false

section

variable {source : Xag} {r : Refs} {o : BalanceLimits} {id : ℕ}

lemma Collects.start (hsrc : source.Wf) (hid : id < source.size)
    (hg : (source.node id).kind.isGate = true) :
    Collects source id [(source.node id).inputs.2, (source.node id).inputs.1] {} where
  older s hs := by
    obtain ⟨h1, h2⟩ := (hsrc.canonical id hid hg).older
    simp only [append_nil, mem_cons, not_mem_nil, or_false] at hs
    rcases hs with rfl | rfl
    · exact h2
    · exact h1
  value env := by
    rw [hsrc.valueAt_gate env hid hg, Bool.xor_false]
    simp only [append_nil, map_cons, map_nil, fold_cons]
    rw [op_left_comm, ← fold_cons, fold_singleton hg]
  phase _ := rfl

variable {pending : List Xsignal} {group : Group} {s : Xsignal}

lemma Collects.takePhase (h : Collects source id (s :: pending) group) : Collects source id
      ((takePhase (source.node id).kind group s).2 :: pending)
      (takePhase (source.node id).kind group s).1 := by
  unfold Usyn.takePhase
  split
  next hk =>
    refine ⟨?_, fun env => ?_, fun hand => ?_⟩
    · rw [cons_append, forall_mem_cons]
      exact forall_mem_cons.1 (cons_append ▸ h.older)
    · rw [h.value env, hk]
      simp only [cons_append, map_cons, Kind.fold_cons, Kind.op, Xag.eval, Xsignal.value]
      cases s.inverted <;> cases group.phase <;> simp
    · rw [hk] at hand
      cases hand
  · exact h

lemma Collects.expand (hsrc : source.Wf) (hid : id < source.size)
    (hg : (source.node id).kind.isGate = true)
    (h : Collects source id (s :: pending) group)
    (hk : (source.node s.id).kind = (source.node id).kind) (hinv : s.inverted = false) :
    Collects source id ((source.node s.id).inputs.2 ::
      (source.node s.id).inputs.1 :: pending) group := by
  have hlt := h.older s (.head _)
  have hch := hk ▸ hg
  obtain ⟨h1, h2⟩ := (hsrc.canonical s.id (hlt.trans hid) hch).older
  refine ⟨?_, fun env => ?_, h.phase⟩
  · rw [cons_append, cons_append, forall_mem_cons, forall_mem_cons]
    exact ⟨h2.trans hlt, h1.trans hlt, fun t ht => h.older t (.tail _ ht)⟩
  · have hev : source.eval env s =
        (source.node id).kind.op (source.eval env (source.node s.id).inputs.1)
        (source.eval env (source.node s.id).inputs.2) := by
      rw [Xag.eval, Xsignal.value, hinv, Bool.xor_false,
        hsrc.valueAt_gate env (hlt.trans hid) hch, hk]
    rw [h.value env]
    simp only [cons_append, map_cons, fold_cons]
    rw [hev, op_assoc, op_left_comm]

lemma Collects.keep (h : Collects source id (s :: pending) group) :
    Collects source id pending { group with leaves := group.leaves ++ [s] } := by
  have hpe : (pending ++ (group.leaves ++ [s])).Perm (s :: pending ++ group.leaves) := by
    rw [← append_assoc]
    exact perm_append_singleton _ _
  refine ⟨fun t ht => h.older t (hpe.subset ht), fun env => ?_, h.phase⟩
  rw [h.value env, fold_perm (hpe.map _)]

lemma coneSize_meters (kind : Kind) (fuel : ℕ) (cone : List ℕ) (n : ℕ) :
    Meters (coneSize source r kind fuel cone n) fun _ => True := by
  induction fuel generalizing cone n with
  | zero => exact .pure trivial
  | succ fuel ih =>
    cases cone with
    | nil => exact .pure trivial
    | cons gate cone => exact (Meters.spend 1).bind fun _ _ => ih _ _

lemma duplication_meters (signal : Xsignal) (distance done : ℕ) :
    Meters (duplication source r o id signal distance done) fun _ => True :=
  ite (fun _ => (coneSize_meters _ _ _ _).map fun _ _ => trivial) fun _ => .pure trivial

lemma collect_meters (hsrc : source.Wf) (hid : id < source.size)
    (hg : (source.node id).kind.isGate = true) :
    ∀ (pending : List (Xsignal × ℕ)) (group : Group) (done : ℕ), Collects source id
    (pending.map (·.1)) group →
      Meters (collect source r o id pending group done) fun res => Collects source id [] res.1
  | [], group, done, h => by
    rw [collect]
    exact .pure h
  | (signal, distance) :: pending, group, done, h => by
    rw [collect]
    refine (Meters.spend 1).bind fun _ _ => require.bind fun _ _ => ?_
    have hta := Collects.takePhase h
    refine (duplication_meters _ _ _).bind fun copies _ => .ite (fun hco => ?_) fun _ => ?_
    · exact collect_meters hsrc hid hg _ _ _ (hta.expand hsrc hid hg hco.1 hco.2.1)
    · exact collect_meters hsrc hid hg _ _ _ hta.keep
termination_by pending group =>
  2 * (o.groupLimit - (pending.length + group.leaves.length)) + pending.length
decreasing_by
  · simp only [leaves_takePhase, length_cons]
    omega
  · simp only [leaves_takePhase, length_cons, length_append, length_nil]
    omega

/-! ## The plan -/

/-- A needed gate has its group, over operands that are needed. -/
structure Planned (source : Xag) (plan : Plan) (j : ℕ) : Prop where
  collects : Collects source j [] (plan.groups j)
  needed : ∀ s ∈ (plan.groups j).leaves, plan.needed s.id = true

lemma planGroup_meters (hsrc : source.Wf) (hid : id < source.size) {plan : Plan}
    (hpl : ∀ j, id < j → j < source.size → plan.needed j = true →
      (source.node j).kind.isGate = true → Planned source plan j) :
    Meters (planGroup source r o plan id) fun plan' =>
    (∀ j, plan.needed j = true → plan'.needed j = true) ∧
      ∀ j, id ≤ j → j < source.size → plan'.needed j = true → (source.node j).kind.isGate = true →
      Planned source plan' j := by
  refine .ite (fun hsk => .pure ⟨fun _ h => h, fun j hj hlt hne hg => ?_⟩) fun hg => ?_
  · rcases hj.lt_or_eq with hj | rfl
    · exact hpl j hj hlt hne hg
    · rcases hsk with h | h
      · rw [h] at hne
        cases hne
      · rw [h] at hg
        cases hg
  · obtain ⟨-, hg⟩ := not_or.1 hg
    rw [not_eq_false] at hg
    refine (Meters.spend 1).bind fun _ _ => ?_
    have hco := collect_meters (r := r) (o := o) hsrc hid hg
      [((source.node id).inputs.2, 1), ((source.node id).inputs.1, 1)] {} plan.duplications
      (.start hsrc hid hg)
    refine hco.bind fun group hgr => .pure ?_
    have hmo : ∀ j, plan.needed j = true →
        group.1.leaves.foldl (fun needed s => update needed s.id true) plan.needed j = true :=
      fun j hj => (needed_foldl _ _ _).2 (.inl hj)
    refine ⟨hmo, fun j hj hlt hne hg' => ?_⟩
    rcases hj.lt_or_eq with hj | rfl
    · -- the operands of `id` are below it, so nothing above becomes needed
      have hold : plan.needed j = true := by
        rcases (needed_foldl _ _ _).1 hne with h | ⟨s, hs, rfl⟩
        · exact h
        · exact absurd (hgr.older s hs) (by omega)
      obtain ⟨hcol, hl⟩ := hpl j hj hlt hold hg'
      refine ⟨?_, ?_⟩
      · show Collects source j [] (update plan.groups id group.1 j)
        rwa [update_of_ne hj.ne']
      · show ∀ s ∈ (update plan.groups id group.1 j).leaves, _
        rw [update_of_ne hj.ne']
        exact fun s hs => hmo _ (hl s hs)
    · refine ⟨?_, ?_⟩
      · show Collects source id [] (update plan.groups id group.1 id)
        rwa [update_self]
      · show ∀ s ∈ (update plan.groups id group.1 id).leaves, _
        rw [update_self]
        exact fun s hs => (needed_foldl _ _ _).2 (.inr ⟨s, hs, rfl⟩)

lemma plan_meters (hsrc : source.Wf) (needed : ℕ → Bool) :
    Meters ((range' 1 (source.size - 1)).reverse.foldlM (planGroup source r o) { needed := needed })
    fun plan =>
      (∀ j, needed j = true → plan.needed j = true) ∧ ∀ j, 1 ≤ j →
      j < source.size → plan.needed j = true →
        (source.node j).kind.isGate = true → Planned source plan j := by
  refine .foldlM_down (Q := fun i plan =>
    (∀ j, needed j = true → plan.needed j = true) ∧ ∀ j, i ≤ j →
    j < source.size → plan.needed j = true → (source.node j).kind.isGate = true →
      Planned source plan j) 1 _ ?_ ?_
  · exact ⟨fun _ h => h, fun j hj hlt => absurd hlt (by omega)⟩
  · intro i _ hi plan hpla
    obtain ⟨hmo, hpl⟩ := hpla
    refine (planGroup_meters hsrc (by omega) fun j hj => hpl j hj).mono fun plan' hpl' => ?_
    exact ⟨fun j hj => hpl'.1 j (hmo j hj), hpl'.2⟩

/-! ## Rebuilding a group -/

/-- A run of one signal. -/
lemma exists_replicate_of_mem_splitBy {leaves run : List Xsignal}
    (h : run ∈ leaves.splitBy (· == ·)) :
    ∃ x n, run = replicate (n + 1) x := by
  have hc := isChain_of_mem_splitBy h
  have hne := ne_nil_of_mem_splitBy h
  cases run with
  | nil => exact absurd rfl hne
  | cons x run =>
    refine ⟨x, run.length, ?_⟩
    clear h hne
    induction run generalizing x with
    | nil => rfl
    | cons y run ih =>
      obtain ⟨hxy, hrun⟩ := isChain_cons_cons.1 hc
      obtain rfl : x = y := beq_iff_eq.1 hxy
      congr 1
      exact ih x hrun

section

variable {runs : List (List Xsignal)} (hruns : ∀ run ∈ runs, ∃ x n, run = replicate (n + 1) x)
include hruns

/-- The terms of a XOR: runs of even length cancel. -/
lemma addRun_xor (terms : List Xsignal) :
    ∃ terms', runs.foldlM (addRun .xorGate) terms = some terms' ∧
      (∀ t ∈ terms', t ∈ runs.flatten ++ terms) ∧
      ∀ v : Xsignal → Bool, xorGate.fold (terms'.map v) =
        (xorGate.fold (runs.flatten.map v) ^^ xorGate.fold (terms.map v)) := by
  induction runs generalizing terms with
  | nil => exact ⟨terms, rfl, fun t ht => ht, fun v => (false_xor _).symm⟩
  | cons run runs ih =>
    obtain ⟨⟨x, n, rfl⟩, hr⟩ := forall_mem_cons.1 hruns
    have hadd : addRun .xorGate terms (replicate (n + 1) x) =
        some (if (n + 1) % 2 = 1 then x :: terms else terms) := by
      rw [replicate_succ, addRun, if_neg (by simp), length_cons, length_replicate]
      split <;> rfl
    rw [foldlM_cons, hadd, flatten_cons]
    obtain ⟨terms', hfo, hsub, hval⟩ := ih hr (if (n + 1) % 2 = 1 then x :: terms else terms)
    refine ⟨terms', hfo, fun t ht => ?_, fun v => ?_⟩
    · rcases mem_append.1 (hsub t ht) with hmem | hmem
      · simp [hmem]
      · split at hmem
        · rcases mem_cons.1 hmem with rfl | hmem
          · simp
          · simp [hmem]
        · simp [hmem]
    · rw [hval, map_append, fold_append_xor, map_replicate, fold_replicate_xor]
      split
      next hodd =>
        rw [decide_eq_true hodd, Bool.true_and, map_cons, fold_cons, op,
          xor_left_comm, ← xor_assoc, Bool.xor_comm (v x)]
      next hev => rw [decide_eq_false hev, Bool.false_and, false_xor]

/-- The terms of an AND: one of each run, unless a signal meets its complement. -/
lemma addRun_and (hc : runs.IsChain fun a b => ∀ x ∈ a, ∀ y ∈ b, x ≠ y) (terms : List Xsignal)
    (hhe : ∀ y ∈ terms.head?, ∀ run ∈ runs.head?, ∀ x ∈ run, y ≠ x) :
    match runs.foldlM (addRun .andGate) terms with
    | some terms' => (∀ t ∈ terms', t ∈ runs.flatten ++ terms) ∧ ∀ v : Xsignal → Bool,
        (∀ t ∈ terms', v t = true) ↔ ∀ t ∈ runs.flatten ++ terms, v t = true
    | none => ∀ v : Xsignal → Bool, (∀ s, v s.not = !v s) →
      ¬∀ t ∈ runs.flatten ++ terms, v t = true := by
  induction runs generalizing terms with
  | nil => exact ⟨fun t ht => ht, fun v => .rfl⟩
  | cons run runs ih =>
    obtain ⟨⟨x, n, rfl⟩, hr⟩ := forall_mem_cons.1 hruns
    have hx : x ∈ replicate (n + 1) x := by simp
    rw [foldlM_cons, replicate_succ, addRun]
    by_cases hme : terms.head?.any (·.id == x.id) = true
    · -- the last term is the complement of the new one
      rw [if_pos hme]
      obtain ⟨y, hy, hid⟩ := (Option.any_eq_true _ _).1 hme
      have hmem := mem_of_mem_head? hy
      have hne := hhe y hy _ rfl x hx
      intro v hv hall
      rcases Xsignal.eq_of_id (beq_iff_eq.1 hid) with rfl | rfl
      · exact hne rfl
      · have hvy := hall y (by simp [hmem])
        have hvn := hall y.not (by simp)
        rw [hv, hvy] at hvn
        cases hvn
    · rw [if_neg hme]
      have hfl : ∀ t, t ∈ (replicate (n + 1) x :: runs).flatten ++ terms ↔
          t ∈ runs.flatten ++ x :: terms := by
        intro t
        simp only [flatten_cons, mem_append, mem_replicate, mem_cons]
        constructor
        · rintro ((⟨-, h⟩ | h) | h)
          · exact .inr (.inl h)
          · exact .inl h
          · exact .inr (.inr h)
        · rintro (h | h | h)
          · exact .inl (.inr h)
          · exact .inl (.inl ⟨n.succ_ne_zero, h⟩)
          · exact .inr h
      have hn : ∀ y ∈ (x :: terms).head?, ∀ run ∈ runs.head?, ∀ z ∈ run, y ≠ z := by
        intro y hy run hrun z hz
        obtain rfl : x = y := Option.some.inj hy
        exact (isChain_cons.1 hc).1 run hrun x hx z hz
      have hih := ih hr (isChain_cons.1 hc).2 (x :: terms) hn
      rw [← replicate_succ]
      simp only [hfl]
      exact hih

end

lemma pairUp_builds {kind : Kind} (hk : kind.isGate = true) :
    ∀ (heap : List Xsignal) (s : PassState),
    s.candidate.Wf → (∀ x ∈ heap, x.id < s.candidate.size) →
    Builds passArena (pairUp o kind heap) s fun t root =>
      t.candidate.Is root (fun env => kind.fold (heap.map (s.candidate.eval env))) ∧
      t.candidate.names = s.candidate.names
  | [], s, hs, _ => by
    rw [pairUp]
    refine .pure hs ⟨(hs.is_constant _).congr fun env => ?_, rfl⟩
    exact fold_nil.symm
  | [x], s, hs, hhe => by
    rw [pairUp]
    refine pure hs ⟨(is_self (hhe x (.head _))).congr fun env => ?_, rfl⟩
    exact (fold_singleton hk _).symm
  | a :: b :: heap, s, hs, hhe => by
    rw [pairUp]
    obtain ⟨ha, hhe⟩ := forall_mem_cons.1 hhe
    obtain ⟨hb, hhe⟩ := forall_mem_cons.1 hhe
    refine ((Meters.spend 1).builds hs).bind fun t _ ht _ hca => ?_
    refine graph_bind ht ?_
    refine (require.builds ht).bind fun u _ hu _ hu' => ?_
    have hca' := hu'.1.trans hca.1
    have hg := gate_builds hu hk (is_self (g := u.candidate) (s := a) (hca' ▸ ha))
      (is_self (g := u.candidate) (s := b) (hca' ▸ hb))
    refine hg.bind fun w x hw hle hx => ?_
    obtain ⟨hx, -, hns⟩ := hx
    refine graph_bind hw ?_
    rw [hca'] at hx hns
    have hle := hca' ▸ (show u.candidate.Extends w.candidate from hle)
    have hpe : (heap.orderedInsert w.candidate.earlier x).Perm (x :: heap) :=
      perm_orderedInsert _ _ _
    have hlt : ∀ y ∈ heap.orderedInsert w.candidate.earlier x, y.id < w.candidate.size := by
      intro y hy
      rcases mem_cons.1 (hpe.subset hy) with rfl | hy
      · exact hx.lt
      · exact (hhe y hy).trans_le hle.size
    refine (pairUp_builds hk _ w hw hlt).mono fun z root _ _ hr => ?_
    refine ⟨hr.1.congr fun env => ?_, hr.2.trans hns⟩
    have hold : heap.map (w.candidate.eval env) = heap.map (s.candidate.eval env) :=
      map_congr_left fun y hy => hle.eval hs hw env (hhe y hy)
    rw [fold_perm (hpe.map _), map_cons, hx.eval env, hold, map_cons, map_cons, fold_cons,
      fold_cons, fold_cons, op_assoc]
termination_by heap => heap.length
decreasing_by simp [orderedInsert_length]

lemma isChain_runs (leaves : List Xsignal) : (leaves.splitBy (· == ·)).IsChain fun a b =>
    ∀ x ∈ a, ∀ y ∈ b, x ≠ y := by
  have hc := isChain_getLast_head_splitBy (· == · : Xsignal → Xsignal → Bool) leaves
  refine hc.imp_of_mem_imp fun a b ha hb hab => ?_
  obtain ⟨x, n, rfl⟩ := exists_replicate_of_mem_splitBy ha
  obtain ⟨y, m, rfl⟩ := exists_replicate_of_mem_splitBy hb
  obtain ⟨h1, h2, hne⟩ := hab
  intro z hz w hw
  rw [eq_of_mem_replicate hz, eq_of_mem_replicate hw]
  simpa using hne

lemma buildGroup_builds {kind : Kind} (hk : kind.isGate = true)
    {s : PassState} (hs : s.candidate.Wf)
    {leaves : List Xsignal} (hl : ∀ x ∈ leaves, x.id < s.candidate.size) {phase : Bool}
    (hph : kind = .andGate → phase = false) :
    Builds passArena (buildGroup o kind leaves phase) s fun t root =>
      t.candidate.Is root (fun env => kind.fold (leaves.map (s.candidate.eval env)) ^^ phase) ∧
        t.candidate.names = s.candidate.names := by
  have hruns : ∀ run ∈ leaves.splitBy (· == ·), ∃ x n, run = replicate (n + 1) x :=
    fun run hrun => exists_replicate_of_mem_splitBy hrun
  -- the value of the leaves is the value of the terms
  have hte : match (leaves.splitBy (· == ·)).foldlM (addRun kind) [] with
      | some terms => (∀ t ∈ terms, t ∈ leaves) ∧ ∀ env,
          kind.fold (terms.map (s.candidate.eval env)) =
          kind.fold (leaves.map (s.candidate.eval env))
      | none => kind = .andGate ∧ ∀ env, kind.fold (leaves.map (s.candidate.eval env)) = false := by
    cases kind with
    | constant => cases hk
    | source => cases hk
    | andGate =>
      have hand := addRun_and hruns (isChain_runs leaves) [] nofun
      simp only [flatten_splitBy, append_nil] at hand
      cases hfo : (leaves.splitBy (· == ·)).foldlM (addRun .andGate) [] with
      | none =>
        rw [hfo] at hand
        refine ⟨rfl, fun env => eq_false_iff.2 fun hall => ?_⟩
        refine hand (s.candidate.eval env) (fun x => eval_not _ _ _) fun x hx => ?_
        exact (fold_and _).1 hall _ (mem_map_of_mem hx)
      | some terms =>
        rw [hfo] at hand
        refine ⟨hand.1, fun env => eq_iff_iff.2 ?_⟩
        rw [fold_and, fold_and, forall_mem_map, forall_mem_map]
        exact hand.2 (s.candidate.eval env)
    | xorGate =>
      obtain ⟨terms, hfo, hsub, hval⟩ := addRun_xor hruns []
      rw [hfo]
      simp only [flatten_splitBy, append_nil] at hsub hval
      exact ⟨hsub, fun env => (hval _).trans (xor_false _)⟩
  unfold buildGroup
  cases hfo : (leaves.splitBy (· == ·)).foldlM (addRun kind) [] with
  | none =>
    rw [hfo] at hte
    obtain ⟨hand, hval⟩ := hte
    refine .pure hs ⟨(hs.is_constant false).congr fun env => ?_, rfl⟩
    simp [hval, hph hand]
  | some terms =>
    rw [hfo] at hte
    obtain ⟨hsub, hval⟩ := hte
    refine graph_bind hs ?_
    have hpe : (terms.insertionSort s.candidate.earlier).Perm terms := perm_insertionSort _ _
    have hlt : ∀ x ∈ terms.insertionSort s.candidate.earlier, x.id < s.candidate.size :=
      fun x hx => hl x (hsub x (hpe.subset hx))
    refine (pairUp_builds hk _ s hs hlt).bind fun u root hu _ hr => .pure hu ⟨?_, hr.2⟩
    have hr' : u.candidate.Is root fun env => kind.fold (leaves.map (s.candidate.eval env)) :=
      hr.1.congr fun env => by rw [fold_perm (hpe.map _), hval]
    cases phase with
    | true => exact hr'.not.congr fun env => (xor_true _).symm
    | false => exact hr'.congr fun env => (xor_false _).symm

/-! ## The pass -/

lemma rebuildGroup_builds (hsrc : source.Wf) {plan : Plan} (hpl : ∀ j, 1 ≤ j → j < source.size →
    plan.needed j = true → (source.node j).kind.isGate = true →
      Planned source plan j) (hpos : 1 ≤ id)
    (hid : id < source.size) {s : PassState} (hs : s.candidate.Wf) {st : (ℕ → Xsignal) × ℕ}
    (hst : Rebuilt source (plan.needed · = true) id s.candidate st.1) :
    Builds passArena (rebuildGroup source o plan st id) s fun t st' =>
      Rebuilt source (plan.needed · = true) (id + 1) t.candidate st'.1 := by
  refine ((Meters.spend 1).builds hs).bind fun t _ ht _ hca => ?_
  have hst' := hca.1.symm ▸ hst
  refine .ite (fun hk => ?_) fun hk => ?_
  · exact (copySource_builds hsrc ht hst' hid hk).bind fun u x hu _ hx => .pure hu hx.1
  have hg := hsrc.gate_of_ne hid (Nat.one_le_iff_ne_zero.1 hpos) hk
  refine .ite (fun hne => ?_) fun hne => ?_
  · exact .pure ht (hst'.skip hg (by rw [hne]; nofun))
  rw [not_eq_false] at hne
  obtain ⟨hcol, hl⟩ := hpl id hpos hid hne hg
  refine graph_bind ht ?_
  refine (require.builds ht).bind fun w _ hw _ hw' => ?_
  have hs'' := hw'.1.symm ▸ hst'
  -- the operands are older and needed, so they are there
  have his : ∀ x ∈ (plan.groups id).leaves, w.candidate.Is (translated st.1 x) fun env =>
      source.eval env x :=
    fun x hx => hs''.translated (hcol.older x hx) (.inr (hl x hx))
  have hpe := perm_insertionSort (· ≤ ·) ((plan.groups id).leaves.map (translated st.1))
  have hlt : ∀ y ∈ ((plan.groups id).leaves.map (translated st.1)).insertionSort (· ≤ ·),
      y.id < w.candidate.size := by
    intro y hy
    obtain ⟨x, hx, rfl⟩ := mem_map.1 (hpe.subset hy)
    exact (his x hx).lt
  refine (buildGroup_builds hg hw hlt hcol.phase).bind fun v root hv hle hr => .pure hv ?_
  refine hs''.step hw hv hle (hr.1.congr fun env => ?_) ?_
  · rw [hcol.value env, fold_perm (hpe.map _), map_map]
    congr 2
    exact map_congr_left fun x hx => (his x hx).eval env
  · rw [hr.2, hs''.names, sourceCount_succ, if_neg hk, add_zero]

lemma balanceXag_builds (hsrc : source.Wf) (outputs : List Xsignal) (w : Work) :
    Builds passArena (balanceXag source o outputs) { work := w } fun _ res =>
      Preserves source outputs res.graph res.outputs := by
  have hem := wf_empty
  refine ite (fun _ => throw hem) fun _ => ?_
  refine ((Meters.spend _).builds hem).bind fun s _ hs _ hca =>
    ite (fun _ => throw hs) fun hany => ?_
  refine ((plan_meters hsrc _).builds hs).bind fun t plan ht _ hpla => ?_
  obtain ⟨hca', hne, hpl⟩ := hpla
  have hsta : Rebuilt source (plan.needed · = true) 1 t.candidate fun _ => {} := by
    rw [hca', hca.1]
    exact Rebuilt.start hsrc _
  have hlo := foldlM_range' (A := passArena) (f := rebuildGroup source o plan)
    (Q := fun i u st => Rebuilt source (plan.needed · = true) i u.candidate st.1) 1
      (source.size - 1)
    (b := (fun _ => {}, 0)) ht hsta
    fun i hi hlt u st hu _ hst => rebuildGroup_builds hsrc hpl hi (by omega) hu hst
  refine hlo.bind fun u st hu _ hst => graph_bind hu (pure hu ?_)
  rw [Nat.add_sub_cancel' hsrc.pos] at hst
  refine hst.preserves hsrc hu fun x hx => ⟨any_size_le hany x hx, hne x.id ?_⟩
  exact (needed_foldl _ _ _).2 (Or.inr ⟨x, hx, rfl⟩)

/-- Balancing preserves every output, for every assignment of the sources. -/
theorem balanceXag_preserves (hsrc : source.Wf) (outputs : List Xsignal)
    (w : Work) (res : BalanceResult)
    (h : ((balanceXag source o outputs).run.run { work := w }).1 = .ok res) :
    Preserves source outputs res.graph res.outputs :=
  (balanceXag_builds hsrc outputs w).2.2 res h

end

/-- A chain of four AND gates with a repeated operand, and a XOR of it. -/
def chainXag : Xag := runOps [.input "a", .input "b", .input "c", .input "d",
    .land ⟨1, false⟩ ⟨2, false⟩,
  .land ⟨5, false⟩ ⟨3, false⟩, .land ⟨6, false⟩ ⟨2, false⟩, .land ⟨7, false⟩ ⟨4, false⟩,
    .lxor ⟨8, true⟩ ⟨1, false⟩]

def chainBalanced : Except Stop BalanceResult :=
  ((balanceXag chainXag {} [⟨8, true⟩, ⟨9, false⟩]).run.run
    { work := { budget := { remaining := 1000 } } }).1

/-- The chain becomes a tree of depth two. -/
theorem balanceXag_preserves_chain :
    (chainBalanced.toOption.map fun res => (res.outputs, res.groups)) = some
    ([⟨7, true⟩, ⟨8, false⟩], 1) ∧
      ∀ res, chainBalanced = .ok res →
      Preserves chainXag [⟨8, true⟩, ⟨9, false⟩] res.graph res.outputs := by
  refine ⟨by decide +kernel, fun res h => ?_⟩
  exact balanceXag_preserves (wf_runOps _) _ _ res h

end LiveHD.Usyn
