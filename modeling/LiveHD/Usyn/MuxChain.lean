import LiveHD.Usyn.Balance

/-!
# Priority chains of multiplexers

`match_mux` and `balance_mux_chains` (`pass/usyn/xag_balance.cpp`).  A multiplexer is recognised in
its XOR form `f ^ (s & (t ^ f))` and in its AND form `~(~(s & t) & ~(~s & f))`.  Each needed
multiplexer collects the chain it owns; a long enough chain is rebuilt as an order-preserving tree
of its arms.
-/

namespace LiveHD.Usyn

open Meters hiding spend
open Pass Function List Option Builds Xag Xsignal

/-- A multiplexer with every edge phase folded into its arms. -/
structure MuxMatch where
  select : Xsignal
  whenTrue : Xsignal
  whenFalse : Xsignal
  inverted : Bool := false
  thenReads : ℕ := 1
  elseReads : ℕ := 2
deriving DecidableEq

/-- Each input of a gate with the other one. -/
def Node.sides (n : Node) : List (Xsignal × Xsignal) :=
  [(n.inputs.1, n.inputs.2), (n.inputs.2, n.inputs.1)]

/-- `~(~(s & t) & ~(~s & f))`, from the two inner gates. -/
def matchAnd (an bn : Node) : Option MuxMatch :=
  an.sides.findSome? fun (s, t) => bn.sides.findSome? fun (ns, f) =>
    if s.id = ns.id ∧ s.inverted ≠ ns.inverted ∧ s.id ≠ 0 then some ⟨s, t, f, true, 1, 1⟩ else none

/-- The innermost XOR `t ^ f` of `p ^ (s & w)`, where `f` is `p`. -/
def matchInner (p q s w : Xsignal) (wn : Node) : Option MuxMatch :=
  wn.sides.findSome? fun (u, v) =>
    if u.id ≠ p.id ∨ s.id = 0 then none
    else some {
      select := s
      whenTrue := { v with inverted := v.inverted ^^ (w.inverted ^^ u.inverted ^^ p.inverted) }
      whenFalse := p
      inverted := q.inverted }

/-- `f ^ (s & (t ^ f))`. -/
def matchXor (g : Xag) (x : Node) : Option MuxMatch :=
  x.sides.findSome? fun (q, p) =>
    if (g.node q.id).kind ≠ .andGate then none
    else (g.node q.id).sides.findSome? fun (w, s) =>
      if (g.node w.id).kind ≠ .xorGate then none else matchInner p q s w (g.node w.id)

def matchMux (g : Xag) (id : ℕ) : Option MuxMatch :=
  let x := g.node id
  if g.size ≤ id then none
  else if x.kind = .andGate then
    if x.inputs.1.inverted = false ∨ x.inputs.2.inverted = false ∨
        (g.node x.inputs.1.id).kind ≠ .andGate ∨
        (g.node x.inputs.2.id).kind ≠ .andGate then none
    else matchAnd (g.node x.inputs.1.id) (g.node x.inputs.2.id)
  else if x.kind ≠ .xorGate then none
  else matchXor g x

/-- Move a phase and the match's own into the arms. -/
def MuxMatch.absorb (m : MuxMatch) (inverted : Bool) : MuxMatch :=
  if m.inverted ^^ inverted then
    { m with whenTrue := m.whenTrue.not, whenFalse := m.whenFalse.not, inverted := false }
  else { m with inverted := false }

/-- Arms by priority, and what is read when no condition holds. -/
structure Chain where
  arms : List (Xsignal × Xsignal) := []
  fallback : Xsignal := {}
  inverted : Bool := false

/-- The signals a chain reads. -/
def Chain.reads (chain : Chain) : List Xsignal :=
  chain.arms.flatMap (fun a => [a.1, a.2]) ++ [chain.fallback]

structure ChainLimits where
  maxNodes : ℕ := 2000000
  minArms : ℕ := 3
  chainLimit : ℕ := 256

structure ChainPlan where
  needed : ℕ → Bool
  chains : ℕ → Option Chain := fun _ => none
  count : ℕ := 0
  arms : ℕ := 0

structure MuxBalanceResult where
  graph : Xag
  outputs : List Xsignal
  chains : ℕ
  arms : ℕ

/-- An arm in the candidate. -/
structure Item where
  condition : Xsignal := {}
  value : Xsignal := {}
  arrival : ℕ := 0

section

variable (source : Xag) (r : Refs) (o : ChainLimits)

/-- The two gates inside a multiplexer have no other reader. -/
def PrivateGates (x : Node) : Prop :=
  ∀ i ∈ [x.inputs.1, x.inputs.2], (source.node i.id).kind = .andGate →
    r.refs i.id = 1 ∧ (x.kind = .xorGate →
    ∀ w ∈ [(source.node i.id).inputs.1, (source.node i.id).inputs.2],
      ¬((source.node w.id).kind = .xorGate ∧ r.refs w.id ≠ 1))

instance (x : Node) : Decidable (PrivateGates source r x) :=
  inferInstanceAs (Decidable (∀ i ∈ [x.inputs.1, x.inputs.2], _ → _ ∧ (_ → ∀ w ∈ _, ¬(_ ∧ _))))

/-- An arm that is a multiplexer only this chain reads; `uses` edges of its parent read it. -/
def ownedMux (arm : Xsignal) (uses : ℕ) : Option MuxMatch :=
  if arm.id = 0 ∨ r.refs arm.id ≠ uses ∨ r.protectedRoot arm.id = true then none
  else match matchMux source arm.id with
    | none => none
    | some m => if PrivateGates source r (source.node arm.id) then
      some (m.absorb arm.inverted) else none

/-- Follow a chain while it may have `more` arms after the current one. -/
def collectChain : ℕ → MuxMatch → PassM Chain
  | 0, current => do
    spend 1
    pure { arms := [(current.select, current.whenTrue)], fallback := current.whenFalse }
  | more + 1, current => do
    spend 1
    match ownedMux source r current.whenFalse current.elseReads with
    | some next =>
      (fun chain => { chain with arms := (current.select, current.whenTrue) :: chain.arms }) <$>
        collectChain more next
    | none => match ownedMux source r current.whenTrue current.thenReads with
      -- `s ? m : f` is `~s ? f : m`
      | some next => (fun chain => { chain with arms := (current.select.not,
          current.whenFalse) :: chain.arms }) <$>
          collectChain more next
      | none => pure { arms := [(current.select, current.whenTrue)], fallback := current.whenFalse }

/-- The chain of a node; it has no arms when the node is no multiplexer. -/
def chainOf (id : ℕ) : PassM Chain := match matchMux source id with
  | none => pure {}
  | some root =>
    (fun chain => { chain with inverted := root.inverted }) <$>
      collectChain source r (o.chainLimit - 1) root

def planChain (plan : ChainPlan) (id : ℕ) : PassM ChainPlan :=
  let inputs := (source.node id).inputs
  if plan.needed id = false ∨ (source.node id).kind.isGate = false then pure plan
  else do
    spend 1
    let chain ← chainOf source r o id
    if o.minArms ≤ chain.arms.length then
      pure {
        needed := chain.reads.foldl (fun needed s => update needed s.id true) plan.needed
        chains := update plan.chains id (some chain)
        count := plan.count + 1
        arms := plan.arms + chain.arms.length }
    else pure { plan with
      needed := [inputs.1, inputs.2].foldl
        (fun needed s => Function.update needed s.id true) plan.needed }

/-- The AND form, of two levels from any operand.  Of two arguments that are calls the first is
evaluated first, which C++ leaves open. -/
def mux2 (s t f : Xsignal) : PassM Xsignal :=
  if t = f then pure t
  else do
    let a ← gate .andGate s t
    let b ← gate .andGate s.not f
    onGraph (Xag.lor a b)

def Xag.item (g : Xag) (c v : Xsignal) : Item := ⟨c, v, max (g.node c.id).level (g.node v.id).level⟩

/-- The first adjacent pair that is ready first. -/
def bestPair (items : List Item) : PassM ℕ :=
  Prod.fst <$> (List.range (items.length - 1)).foldlM (fun best i => do
    spend 1
    let ready := max (items.getD i {}).arrival (items.getD (i + 1) {}).arrival
    pure (if ready < best.2 then (i, ready) else best)) (0, 2 ^ 32 - 1)

/-- Merge adjacent arms; one merge less than there are arms. -/
def mergeItems : ℕ → List Item → PassM (List Item)
  | 0, items => pure items
  | n + 1, items => do
    let best ← bestPair items
    let g ← graph
    require (g.size + 8 ≤ o.maxNodes)
    let hi := items.getD best {}
    let lo := items.getD (best + 1) {}
    let c ← onGraph (Xag.lor hi.condition lo.condition)
    let v ← mux2 hi.condition hi.value lo.value
    let g ← graph
    mergeItems n (items.take best ++ g.item c v :: items.drop (best + 2))

def buildChain (map : ℕ → Xsignal) (chain : Chain) : PassM Xsignal := do
  let g ← graph
  let items ← mergeItems o (chain.arms.length - 1)
    (chain.arms.map fun a => g.item (translated map a.1) (translated map a.2))
  spend 3
  let g ← graph
  require (g.size + 3 ≤ o.maxNodes)
  let first := items.getD 0 {}
  let root ← mux2 first.condition first.value (translated map chain.fallback)
  pure (if chain.inverted then root.not else root)

variable (plan : ChainPlan) (map : ℕ → Xsignal) (id : ℕ)

/-- A needed gate: a chain, or a copy. -/
def rebuildRoot : PassM Xsignal :=
  let node := source.node id
  match plan.chains id with
  | none => gate node.kind (translated map node.inputs.1) (translated map node.inputs.2)
  | some chain => buildChain o map chain

def rebuildChain : PassM (ℕ → Xsignal) := do
  spend 1
  let g ← graph
  require (g.size < o.maxNodes)
  if (source.node id).kind = .source then update map id <$> copySource source id
  else if plan.needed id = false then pure map
  else Function.update map id <$> rebuildRoot source o plan map id

def balanceMuxChains (outputs : List Xsignal) : PassM MuxBalanceResult :=
  if o.maxNodes = 0 ∨ o.minArms < 2 ∨ o.chainLimit < o.minArms ∨ o.maxNodes < source.size ∨
    o.maxNodes < outputs.length then invalid
  else do
    spend (4 * source.size + outputs.length)
    if outputs.any (source.size ≤ ·.id) then invalid
    else do
      let r := liveRefs source outputs
      let needed := outputs.foldl (fun needed s => update needed s.id true) fun _ => false
      let plan ← (List.range' 1 (source.size - 1)).reverse.foldlM
        (planChain source r o) { needed := needed }
      let map ← (List.range' 1 (source.size - 1)).foldlM (rebuildChain source o plan) fun _ => {}
      let g ← graph
      pure ⟨g, outputs.map (translated map), plan.count, plan.arms⟩

end

/-! ## Priority -/

/-- The value of the first arm whose condition holds. -/
def prio : List (Bool × Bool) → Bool → Bool
  | [], base => base
  | (c, v) :: arms, base => bif c then v else prio arms base

@[simp] lemma prio_nil (base : Bool) : prio [] base = base := rfl

@[simp] lemma prio_cons (c v : Bool) (arms : List (Bool × Bool)) (base : Bool) :
    prio ((c, v) :: arms) base = bif c then v else prio arms base := rfl

lemma prio_append (l m : List (Bool × Bool)) (base : Bool) :
    prio (l ++ m) base = prio l (prio m base) := by
  induction l with
  | nil => rfl
  | cons a l ih => rw [cons_append, prio_cons, prio_cons, ih]

/-- Adjacent arms combine. -/
lemma prio_merge (c v c' v' : Bool) (arms : List (Bool × Bool)) (base : Bool) :
    prio ((c || c', bif c then v else v') :: arms) base = prio
    ((c, v) :: (c', v') :: arms) base := by
  cases c <;> rfl

/-! ## Recognised multiplexers -/

/-- The value of a match over the values of signals. -/
def MuxMatch.value (v : Xsignal → Bool) (m : MuxMatch) : Bool :=
  (bif v m.select then v m.whenTrue else v m.whenFalse) ^^ m.inverted

/-- The signals of a match are below a node. -/
structure MuxMatch.Older (m : MuxMatch) (id : ℕ) : Prop where
  select : m.select.id < id
  whenTrue : m.whenTrue.id < id
  whenFalse : m.whenFalse.id < id

section

variable {source : Xag} {r : Refs} {o : ChainLimits} {id : ℕ}

/-- A gate over either of its inputs and the other one. -/
lemma Xag.Wf.valueAt_side (hsrc : source.Wf) (hid : id < source.size)
    (hg : (source.node id).kind.isGate = true) {a b : Xsignal}
    (hab : (a, b) ∈ (source.node id).sides) :
    a.id < id ∧ b.id < id ∧ ∀ env, source.valueAt env id = (source.node id).kind.op
    (source.eval env a) (source.eval env b) := by
  obtain ⟨h1, h2⟩ := (hsrc.canonical id hid hg).older
  simp only [Node.sides, mem_cons, not_mem_nil, or_false] at hab
  rcases hab with ⟨rfl, rfl⟩ | ⟨rfl, rfl⟩
  · exact ⟨h1, h2, fun env => hsrc.valueAt_gate env hid hg⟩
  · exact ⟨h2, h1, fun env => (hsrc.valueAt_gate env hid hg).trans (Xag.Kind.op_comm _ _ _)⟩

variable {m : MuxMatch}

lemma matchAnd_sound (hsrc : source.Wf) (hid : id < source.size)
    (hk : (source.node id).kind = .andGate)
    (ha : (source.node id).inputs.1.inverted = true)
    (hb : (source.node id).inputs.2.inverted = true)
    (hak : (source.node (source.node id).inputs.1.id).kind = .andGate)
    (hbk : (source.node (source.node id).inputs.2.id).kind = .andGate)
    (h : matchAnd (source.node (source.node id).inputs.1.id)
      (source.node (source.node id).inputs.2.id) = some m) :
    m.Older id ∧ ∀ env, source.valueAt env id = m.value (source.eval env) := by
  obtain ⟨hlt, hlt'⟩ := (hsrc.canonical id hid (by rw [hk]; rfl)).older
  obtain ⟨⟨s, t⟩, hst, h⟩ := exists_of_findSome?_eq_some h
  obtain ⟨⟨ns, f⟩, hsf, h⟩ := exists_of_findSome?_eq_some h
  obtain ⟨hco, h⟩ := ite_none_right_eq_some.1 h
  cases h
  obtain ⟨hs, ht, hval⟩ := hsrc.valueAt_side (hlt.trans hid) (by rw [hak]; rfl) hst
  obtain ⟨-, hf, hva'⟩ := hsrc.valueAt_side (hlt'.trans hid) (by rw [hbk]; rfl) hsf
  refine ⟨⟨hs.trans hlt, ht.trans hlt, hf.trans hlt'⟩, fun env => ?_⟩
  have hns : source.eval env ns = !source.eval env s := by
    rcases eq_of_id hco.1 with rfl | rfl
    · exact absurd rfl hco.2.1
    · exact eval_not _ _ _
  rw [hsrc.valueAt_gate env hid (by rw [hk]; rfl), hk, Xag.eval, Xag.eval, value, value, ha, hb,
    hval, hva', hak, hbk, hns]
  simp only [Kind.op, MuxMatch.value]
  cases source.eval env s <;> simp

lemma matchInner_sound (hsrc : source.Wf) {p q s w : Xsignal} (hw : w.id < source.size)
    (hk : (source.node w.id).kind = .xorGate)
    (h : matchInner p q s w (source.node w.id) = some m) :
    m.select = s ∧ m.whenFalse = p ∧ m.inverted = q.inverted ∧
      m.whenTrue.id < w.id ∧ ∀ env, source.eval env w =
      (source.eval env p ^^ source.eval env m.whenTrue) := by
  obtain ⟨⟨u, v⟩, huv, h⟩ := exists_of_findSome?_eq_some h
  obtain ⟨hco, h⟩ := ite_none_left_eq_some.1 h
  cases h
  obtain ⟨-, hv, hval⟩ := hsrc.valueAt_side hw (by rw [hk]; rfl) huv
  refine ⟨rfl, rfl, rfl, hv, fun env => ?_⟩
  have hup := not_not.1 (not_or.1 hco).1
  simp only [Xag.eval, Xsignal.value, hval, hk, hup]
  generalize source.valueAt env p.id = x
  generalize source.valueAt env v.id = y
  cases x <;> cases y <;> cases w.inverted <;> cases u.inverted <;> cases p.inverted <;>
    cases v.inverted <;> rfl

lemma matchXor_sound (hsrc : source.Wf) (hid : id < source.size)
    (hk : (source.node id).kind = .xorGate)
    (h : matchXor source (source.node id) = some m) :
    m.Older id ∧ ∀ env, source.valueAt env id = m.value (source.eval env) := by
  obtain ⟨⟨q, p⟩, hqp, h⟩ := exists_of_findSome?_eq_some h
  obtain ⟨hqk, h⟩ := ite_none_left_eq_some.1 h
  obtain ⟨⟨w, s⟩, hws, h⟩ := exists_of_findSome?_eq_some h
  obtain ⟨hwk, h⟩ := ite_none_left_eq_some.1 h
  rw [not_not] at hqk hwk
  obtain ⟨hq, hp, hval⟩ := hsrc.valueAt_side hid (by rw [hk]; rfl) hqp
  obtain ⟨hw, hs, hva'⟩ := hsrc.valueAt_side (hq.trans hid) (by rw [hqk]; rfl) hws
  obtain ⟨rfl, rfl, hinv, ht, hv''⟩ := matchInner_sound hsrc ((hw.trans hq).trans hid) hwk h
  refine ⟨⟨hs.trans hq, (ht.trans hw).trans hq, hp⟩, fun env => ?_⟩
  rw [hval env, hk, show source.eval env q = (source.valueAt env q.id ^^ q.inverted) from rfl,
    hva' env, hqk, hv'' env]
  simp only [MuxMatch.value, hinv]
  cases source.eval env m.select <;> cases source.eval env m.whenFalse <;>
    cases source.eval env m.whenTrue <;>
    cases q.inverted <;> rfl

/-- A recognised multiplexer is the node. -/
lemma matchMux_sound (hsrc : source.Wf) (h : matchMux source id = some m) :
    m.Older id ∧ ∀ env, source.valueAt env id = m.value (source.eval env) := by
  obtain ⟨hid, h⟩ := ite_none_left_eq_some.1 h
  rw [not_le] at hid
  by_cases hk : (source.node id).kind = .andGate
  · rw [if_pos hk] at h
    obtain ⟨hco, h⟩ := ite_none_left_eq_some.1 h
    simp only [not_or, Bool.not_eq_false, not_not] at hco
    exact matchAnd_sound hsrc hid hk hco.1 hco.2.1 hco.2.2.1 hco.2.2.2 h
  · rw [if_neg hk] at h
    obtain ⟨hxor, h⟩ := ite_none_left_eq_some.1 h
    exact matchXor_sound hsrc hid (not_not.1 hxor) h

/-! ## Collecting a chain -/

variable (v : Xsignal → Bool) (chain : Chain)

/-- A chain over the values of signals. -/
def Chain.value : Bool :=
  prio (chain.arms.map fun a => (v a.1, v a.2)) (v chain.fallback) ^^ chain.inverted

lemma Chain.value_cons (hinv : chain.inverted = false) (c x : Xsignal) :
    { chain with arms := (c, x) :: chain.arms }.value v = bif v c then v x else chain.value v := by
  rw [value, value, hinv, Bool.xor_false, Bool.xor_false, map_cons, prio_cons]

lemma MuxMatch.value_absorb (source : Xag) (env : ℕ → Bool) (m : MuxMatch) (inverted : Bool) :
    (m.absorb inverted).value (source.eval env) = (m.value (source.eval env) ^^ inverted) := by
  unfold absorb
  split
  next h =>
    simp only [value, Bool.xor_assoc, h]
    cases source.eval env m.select <;> simp
  next h => simp only [value, Bool.xor_assoc, Bool.eq_false_iff.2 h]

lemma MuxMatch.inverted_absorb (m : MuxMatch) (inverted : Bool) :
    (m.absorb inverted).inverted = false := by
  unfold absorb
  split <;> rfl

lemma MuxMatch.Older.absorb (h : m.Older id) (inverted : Bool) : (m.absorb inverted).Older id := by
  unfold MuxMatch.absorb
  split
  · exact ⟨h.select, h.whenTrue, h.whenFalse⟩
  · exact ⟨h.select, h.whenTrue, h.whenFalse⟩

/-- An owned multiplexer has the value of its arm. -/
lemma ownedMux_sound (hsrc : source.Wf) {arm : Xsignal} {uses : ℕ}
    (h : ownedMux source r arm uses = some m) :
    m.inverted = false ∧ m.Older arm.id ∧
    ∀ env, source.eval env arm = m.value (source.eval env) := by
  obtain ⟨-, h⟩ := ite_none_left_eq_some.1 h
  cases hm : matchMux source arm.id with
  | none =>
    rw [hm] at h
    cases h
  | some n =>
    rw [hm] at h
    obtain ⟨-, h⟩ := ite_none_right_eq_some.1 h
    cases h
    obtain ⟨ho, hval⟩ := matchMux_sound hsrc hm
    refine ⟨n.inverted_absorb _, ho.absorb _, fun env => ?_⟩
    rw [n.value_absorb, Xag.eval, Xsignal.value, hval env]

lemma Chain.reads_cons (chain : Chain) (c x : Xsignal) :
    { chain with arms := (c, x) :: chain.arms }.reads = c :: x :: chain.reads := rfl

/-- A chain of one multiplexer. -/
lemma Chain.single {current : MuxMatch} (hcur : current.Older id) :
    let chain : Chain :=
      { arms := [(current.select, current.whenTrue)], fallback := current.whenFalse }
    chain.inverted = false ∧ (∀ s ∈ chain.reads, s.id < id) ∧ ∀ v, chain.value v =
      bif v current.select then v current.whenTrue else v current.whenFalse := by
  refine ⟨rfl, ?_, fun v => Bool.xor_false _⟩
  show ∀ s ∈ [current.select, current.whenTrue, current.whenFalse], s.id < id
  rw [forall_mem_cons, forall_mem_cons, forall_mem_singleton]
  exact ⟨hcur.select, hcur.whenTrue, hcur.whenFalse⟩

lemma collectChain_meters (hsrc : source.Wf) (more : ℕ) {current : MuxMatch}
    (hcur : current.Older id) :
    Meters (collectChain source r more current) fun chain =>
    chain.inverted = false ∧ (∀ s ∈ chain.reads, s.id < id) ∧
      ∀ env, chain.value (source.eval env) = bif source.eval env current.select then
      source.eval env current.whenTrue
        else source.eval env current.whenFalse := by
  have hsi := Chain.single hcur
  induction more generalizing current with
  | zero => exact (Meters.spend 1).bind fun _ _ => pure ⟨rfl, hsi.2.1, fun env => hsi.2.2 _⟩
  | succ more ih =>
    refine (Meters.spend 1).bind fun _ _ => ?_
    -- one more arm in front of the chain of an owned arm
    have hn : ∀ {arm c x : Xsignal} {uses : ℕ} {next : MuxMatch},
        ownedMux source r arm uses = some next →
        arm.id < id → c.id < id → x.id < id →
            (∀ env, (bif source.eval env c then source.eval env x else
          source.eval env arm) = bif source.eval env current.select then
            source.eval env current.whenTrue else
          source.eval env current.whenFalse) →
        Meters ((fun chain : Chain => { chain with arms := (c, x) :: chain.arms }) <$>
          collectChain source r more next)
          fun chain => chain.inverted = false ∧ (∀ s ∈ chain.reads, s.id < id) ∧
            ∀ env, chain.value (source.eval env) =
            bif source.eval env current.select then source.eval env current.whenTrue else
              source.eval env current.whenFalse := by
      intro arm c x uses next hown harm hc hx hval
      obtain ⟨hinv, ho, hn⟩ := ownedMux_sound hsrc hown
      have ho' : next.Older id :=
        ⟨ho.select.trans harm, ho.whenTrue.trans harm, ho.whenFalse.trans harm⟩
      refine (ih ho' (Chain.single ho')).map fun chain hch => ⟨hch.1, ?_, fun env => ?_⟩
      · rw [Chain.reads_cons, forall_mem_cons, forall_mem_cons]
        exact ⟨hc, hx, hch.2.1⟩
      · rw [Chain.value_cons _ _ hch.1, hch.2.2 env, ← hval env, hn env,
          MuxMatch.value, hinv, Bool.xor_false]
    split
    next next hown => exact hn hown hcur.whenFalse hcur.select hcur.whenTrue fun env => rfl
    · split
      next next hown =>
        refine hn hown hcur.whenTrue hcur.select hcur.whenFalse fun env => ?_
        rw [eval_not]
        cases source.eval env current.select <;> rfl
      · exact pure ⟨rfl, hsi.2.1, fun env => hsi.2.2 _⟩

/-- The chain of a node. -/
structure Chain.Of (source : Xag) (id : ℕ) (chain : Chain) : Prop where
  arms : chain.arms ≠ []
  older : ∀ s ∈ chain.reads, s.id < id
  value : ∀ env, source.valueAt env id = chain.value (source.eval env)

lemma chainOf_meters (hsrc : source.Wf) : Meters (chainOf source r o id) fun chain =>
    chain.arms ≠ [] → chain.Of source id := by
  unfold chainOf
  cases hm : matchMux source id with
  | none => exact .pure fun h => absurd rfl h
  | some root =>
    obtain ⟨ho, hval⟩ := matchMux_sound hsrc hm
    refine (collectChain_meters hsrc _ ho).map fun chain hc har => ⟨har, hc.2.1, fun env => ?_⟩
    have hv := hc.2.2 env
    rw [Chain.value, hc.1, Bool.xor_false] at hv
    rw [hval env, MuxMatch.value, Chain.value, hv]

/-! ## The plan -/

/-- What a needed gate is rebuilt from is needed. -/
structure ChainPlanned (source : Xag) (plan : ChainPlan) (j : ℕ) : Prop where
  copied : plan.chains j = none → plan.needed (source.node j).inputs.1.id = true ∧
    plan.needed (source.node j).inputs.2.id = true
  chain : ∀ chain, plan.chains j = some chain → chain.Of source j ∧
    ∀ s ∈ chain.reads, plan.needed s.id = true

/-- The gates from `id` on are planned; the ones below have no chain yet. -/
structure PlannedFrom (source : Xag) (needed : ℕ → Bool) (id : ℕ) (plan : ChainPlan) : Prop where
  needed : ∀ j, needed j = true → plan.needed j = true
  none : ∀ j < id, plan.chains j = none
  planned : ∀ j, id ≤ j → j < source.size → plan.needed j = true →
    (source.node j).kind.isGate = true → ChainPlanned source plan j

variable {plan : ChainPlan}

lemma ChainPlanned.mono {plan' : ChainPlan} {j : ℕ} (h : ChainPlanned source plan j)
    (hch : plan'.chains j = plan.chains j)
    (hne : ∀ j, plan.needed j = true → plan'.needed j = true) :
    ChainPlanned source plan' j where
  copied hno := ⟨hne _ (h.copied (hch ▸ hno)).1, hne _ (h.copied (hch ▸ hno)).2⟩
  chain c hc := ⟨(h.chain c (hch ▸ hc)).1, fun s hs => hne _ ((h.chain c (hch ▸ hc)).2 s hs)⟩

variable {needed : ℕ → Bool}

/-- Planning a node: the signals it reads become needed, and they are below it. -/
lemma PlannedFrom.step {plan' : ChainPlan}
    (h : PlannedFrom source needed (id + 1) plan) (reads : List Xsignal)
    (hnd : plan'.needed = reads.foldl
      (fun needed s => Function.update needed s.id true) plan.needed)
    (hrd : ∀ s ∈ reads, s.id < id) (hch : ∀ j, j ≠ id → plan'.chains j = plan.chains j)
    (hid : plan'.needed id = true → (source.node id).kind.isGate = true →
      ChainPlanned source plan' id) :
    PlannedFrom source needed id plan' := by
  have hmo : ∀ j, plan.needed j = true → plan'.needed j = true := by
    intro j hj
    rw [hnd]
    exact (needed_foldl _ _ _).2 (.inl hj)
  refine ⟨fun j hj => hmo j (h.needed j hj), fun j hj => ?_, fun j hj hlt hne hg => ?_⟩
  · rw [hch j hj.ne, h.none j (hj.trans (Nat.lt_succ_self _))]
  · rcases hj.lt_or_eq with hj | rfl
    · have hold : plan.needed j = true := by
        rw [hnd] at hne
        rcases (needed_foldl _ _ _).1 hne with hold | ⟨s, hs, rfl⟩
        · exact hold
        · exact absurd (hrd s hs) (not_lt.2 hj.le)
      exact (h.planned j hj hlt hold hg).mono (hch j hj.ne') hmo
    · exact hid hne hg

lemma planChain_meters (hsrc : source.Wf) (hmin : 2 ≤ o.minArms) (hid : id < source.size)
    (hplan : PlannedFrom source needed (id + 1) plan) :
    Meters (planChain source r o plan id) (PlannedFrom source needed id) := by
  refine .ite (fun hsk => .pure ?_) fun hg => ?_
  · refine hplan.step [] rfl nofun (fun _ _ => rfl) fun hne hg => ?_
    rcases hsk with h | h
    · rw [h] at hne
      cases hne
    · rw [h] at hg
      cases hg
  · obtain ⟨-, hg⟩ := not_or.1 hg
    rw [Bool.not_eq_false] at hg
    refine (Meters.spend 1).bind fun _ _ => (chainOf_meters hsrc).bind fun chain hch => ?_
    refine Meters.ite (fun hlen => .pure ?_) fun hlen => .pure ?_
    · have hof : chain.Of source id := by
        apply hch
        rintro hnil
        rw [hnil, length_nil] at hlen
        omega
      have hse : update plan.chains id (some chain) id = some chain := update_self _ _ _
      refine hplan.step _ rfl hof.older (fun j hj => update_of_ne hj _ _) fun _ _ => ?_
      constructor
      · intro hno
        cases hse.symm.trans hno
      · intro c hc
        cases (hse.symm.trans hc)
        exact ⟨hof, fun s hs => (needed_foldl _ _ _).2 (.inr ⟨s, hs, rfl⟩)⟩
    · obtain ⟨h1, h2⟩ := (hsrc.canonical id hid hg).older
      refine hplan.step _ rfl ?_ (fun _ _ => rfl) fun _ _ => ?_
      · exact forall_mem_cons.2 ⟨h1, forall_mem_singleton.2 h2⟩
      · constructor
        · intro _
          exact ⟨(needed_foldl _ _ _).2 (.inr ⟨_, .head _, rfl⟩),
            (needed_foldl _ _ _).2 (.inr ⟨_, .tail _ (.head _), rfl⟩)⟩
        · intro c hc
          rw [show plan.chains id = none from hplan.none id (Nat.lt_succ_self _)] at hc
          cases hc

lemma planChains_meters (hsrc : source.Wf) (hmin : 2 ≤ o.minArms) (needed : ℕ → Bool) :
    Meters ((List.range' 1 (source.size - 1)).reverse.foldlM
      (planChain source r o) { needed := needed })
      (PlannedFrom source needed 1) := by
  refine .foldlM_down (Q := PlannedFrom source needed) 1 _ ?_ ?_
  · exact ⟨fun _ h => h, fun _ _ => rfl, fun j hj hlt => absurd hlt (by omega)⟩
  · intro i _ hi plan hplan
    exact planChain_meters hsrc hmin (by omega) hplan

/-! ## Rebuilding a chain -/

variable {s : PassState}

lemma mux2_builds (hs : s.candidate.Wf) {c t f : Xsignal} {fc ft ff : (ℕ → Bool) → Bool}
    (hc : s.candidate.Is c fc) (ht : s.candidate.Is t ft) (hf : s.candidate.Is f ff) :
    Builds passArena (mux2 c t f) s fun u root =>
      u.candidate.Is root (fun env => bif fc env then ft env else ff env) ∧
      u.candidate.names = s.candidate.names := by
  refine .ite (fun heq => .pure hs ⟨ht.congr fun env => ?_, rfl⟩) fun _ => ?_
  · subst heq
    rw [← ht.eval env, hf.eval env]
    cases fc env <;> rfl
  · refine (gate_builds hs rfl hc ht).bind fun u a hu hle ha => ?_
    refine (gate_builds hu rfl (hc.not.mono hs hu hle) (hf.mono hs hu hle)).bind
      fun w b hw hle' hb => ?_
    refine (lor_builds hw (ha.1.mono hu hw hle') hb.1).mono fun x root _ _ hr => ?_
    refine ⟨hr.1.congr fun env => ?_, hr.2.trans (hb.2.2.trans ha.2.2)⟩
    simp only [Kind.op]
    cases fc env <;> simp

variable {items : List Item}

lemma bestPair_meters (hlen : 2 ≤ items.length) : Meters (bestPair items) fun best =>
    best + 1 < items.length := by
  have hlo : Meters ((range (items.length - 1)).foldlM (fun best i => do
      spend 1
      let ready := max (items.getD i {}).arrival (items.getD (i + 1) {}).arrival
      pure (if ready < best.2 then (i, ready) else best)) ((0, 2 ^ 32 - 1) : ℕ × ℕ))
      fun best => best.1 + 1 < items.length := by
    refine .foldlM (Q := fun _ (best : ℕ × ℕ) => best.1 + 1 < items.length) hlen ?_
    intro pre i post heq best hbe
    refine (Meters.spend 1).bind fun _ _ => Meters.pure ?_
    have hi : i ∈ range (items.length - 1) := by
      rw [heq]
      exact mem_append_right _ (.head _)
    rw [mem_range] at hi
    split
    · exact Nat.add_lt_of_lt_sub hi
    · exact hbe
  exact hlo.map fun _ h => h

/-- Items of a graph. -/
def Xag.HasItems (g : Xag) (items : List Item) : Prop :=
  ∀ it ∈ items, it.condition.id < g.size ∧ it.value.id < g.size

/-- The arms of items. -/
def Xag.armsOf (g : Xag) (env : ℕ → Bool) (items : List Item) : List (Bool × Bool) :=
  items.map fun it => (g.eval env it.condition, g.eval env it.value)

lemma Xag.HasItems.mono {g h : Xag} (hi : g.HasItems items) (he : g.Extends h) : h.HasItems items :=
  fun it hit => ⟨(hi it hit).1.trans_le he.size, (hi it hit).2.trans_le he.size⟩

lemma Xag.HasItems.armsOf {g h : Xag} (hi : g.HasItems items) (hg : g.Wf) (hh : h.Wf)
    (he : g.Extends h) (env : ℕ → Bool) : h.armsOf env items = g.armsOf env items :=
  map_congr_left fun it hit => by
    rw [he.eval hg hh env (hi it hit).1, he.eval hg hh env (hi it hit).2]

lemma mergeItems_builds (n : ℕ) (hs : s.candidate.Wf) (hite : s.candidate.HasItems items)
    (hlen : items.length = n + 1) :
    Builds passArena (mergeItems o n items) s fun t items' =>
    items'.length = 1 ∧ t.candidate.HasItems items' ∧
      (∀ env base, prio (t.candidate.armsOf env items') base =
        prio (s.candidate.armsOf env items) base) ∧
      t.candidate.names = s.candidate.names := by
  induction n generalizing s items with
  | zero => exact .pure hs ⟨hlen, hite, fun _ _ => rfl, rfl⟩
  | succ n ih =>
    refine ((bestPair_meters (by omega)).builds hs).bind fun t best ht _ hbe => ?_
    refine graph_bind ht ?_
    refine (require.builds ht).bind fun u _ hu _ hu' => ?_
    have hca := hu'.1.trans hbe.1
    rw [← hca] at hite
    -- the pair that is merged
    obtain ⟨pre, hi, lo, post, hsp, hpre⟩ :
        ∃ pre hi lo post, items = pre ++ hi :: lo :: post ∧ pre.length = best := by
      have hlt := hbe.2
      refine ⟨items.take best, items.get ⟨best, by omega⟩, items.get ⟨best + 1, hlt⟩,
        items.drop (best + 2), ?_, ?_⟩
      · rw [get_eq_getElem, get_eq_getElem, getElem_cons_drop, getElem_cons_drop, take_append_drop]
      · exact length_take_of_le (by omega)
    have hget : items.getD best {} = hi := by simp [hsp, ← hpre]
    have hge' : items.getD (best + 1) {} = lo := by simp [hsp, ← hpre]
    have hme : ∀ it : Item, items.take best ++ it :: items.drop (best + 2) = pre ++ it :: post := by
      intro it
      rw [hsp, ← hpre, take_left, ← drop_drop, drop_left]
      rfl
    have hhi := hite hi (by rw [hsp]; simp)
    have hlo := hite lo (by rw [hsp]; simp)
    rw [hget, hge']
    refine (lor_builds hu (is_self hhi.1) (is_self hlo.1)).bind fun w c hw hle hc => ?_
    have hsel := (is_self hhi.1).mono hu hw hle
    have hval := (is_self hhi.2).mono hu hw hle
    have hva' := (is_self hlo.2).mono hu hw hle
    refine (mux2_builds hw hsel hval hva').bind fun x v hx hle' hv => ?_
    refine graph_bind hx ?_
    have hle : u.candidate.Extends x.candidate :=
      Xag.Extends.trans (show u.candidate.Extends w.candidate from hle)
        (show w.candidate.Extends x.candidate from hle')
    have hc' := hc.1.mono hw hx hle'
    rw [hme]
    have hr : x.candidate.HasItems (pre ++ x.candidate.item c v :: post) := by
      intro it hit
      rcases mem_append.1 hit with hit | hit
      · exact hite.mono hle it (by rw [hsp]; exact mem_append_left _ hit)
      · rcases mem_cons.1 hit with rfl | hit
        · exact ⟨hc'.lt, hv.1.lt⟩
        · exact hite.mono hle it (by rw [hsp]; simp [hit])
    have hln' : (pre ++ x.candidate.item c v :: post).length = n + 1 := by
      rw [hsp] at hlen
      simp only [length_append, length_cons] at hlen ⊢
      omega
    refine (ih hx hr hln').mono fun y items' _ _ h => ⟨h.1, h.2.1, fun env base => ?_, ?_⟩
    · rw [h.2.2.1 env base, ← hca, ← hite.armsOf hu hx hle env, hsp]
      simp only [Xag.armsOf, map_append, map_cons, prio_append]
      rw [show x.candidate.eval env (x.candidate.item c v).condition = _ from hc'.eval env,
        show x.candidate.eval env (x.candidate.item c v).value = _ from hv.1.eval env, prio_merge,
        hle.eval hu hx env hhi.1, hle.eval hu hx env hhi.2, hle.eval hu hx env hlo.1,
          hle.eval hu hx env hlo.2]
    · rw [h.2.2.2, hv.2, hc.2, hca]

variable {map : ℕ → Xsignal}

lemma buildChain_builds (hs : s.candidate.Wf) {chain : Chain} (har : chain.arms ≠ [])
    (hrd : ∀ x ∈ chain.reads,
      s.candidate.Is (translated map x) fun env => source.eval env x) :
    Builds passArena (buildChain o map chain) s fun t root =>
      t.candidate.Is root (fun env => chain.value (source.eval env)) ∧
      t.candidate.names = s.candidate.names := by
  have harm : ∀ a ∈ chain.arms, s.candidate.Is (translated map a.1)
      (fun env => source.eval env a.1) ∧
      s.candidate.Is (translated map a.2) fun env => source.eval env a.2 := by
    intro a ha
    constructor
    · exact hrd _ (mem_append_left _ (mem_flatMap.2 ⟨a, ha, .head _⟩))
    · exact hrd _ (mem_append_left _ (mem_flatMap.2 ⟨a, ha, .tail _ (.head _)⟩))
  have hfa := hrd _ (mem_append_right _ (.head _))
  refine graph_bind hs ?_
  have hite : s.candidate.HasItems
      (chain.arms.map fun a => s.candidate.item (translated map a.1) (translated map a.2)) := by
    intro it hit
    obtain ⟨a, ha, rfl⟩ := mem_map.1 hit
    exact ⟨(harm a ha).1.lt, (harm a ha).2.lt⟩
  have hpos := length_pos_iff.2 har
  refine (mergeItems_builds _ hs hite (by rw [length_map]; omega)).bind fun u items hu hle hres =>
    ?_
  obtain ⟨hone, hhas, hpr, hns⟩ := hres
  refine ((Meters.spend 3).builds hu).bind fun w _ hw _ hca => ?_
  refine graph_bind hw ?_
  refine (require.builds hw).bind fun x _ hx _ hca' => ?_
  have hxu := hca'.1.trans hca.1
  obtain ⟨it, rfl⟩ := length_eq_one_iff.1 hone
  rw [← hxu] at hhas hpr hns
  have hle := hxu ▸ (show s.candidate.Extends u.candidate from hle)
  obtain ⟨hco, hv⟩ := hhas it (.head _)
  refine (mux2_builds hx (is_self hco) (is_self hv) (hfa.mono hs hx hle)).bind fun y root hy _ hr =>
    ?_
  refine pure hy ⟨?_, hr.2.trans hns⟩
  have hval : y.candidate.Is root fun env =>
      prio (chain.arms.map fun a => (source.eval env a.1, source.eval env a.2))
      (source.eval env chain.fallback) := by
    refine hr.1.congr fun env => ?_
    have hme := hpr env (source.eval env chain.fallback)
    refine hme.trans ?_
    rw [armsOf, List.map_map]
    congr 1
    exact map_congr_left fun a ha => Prod.ext ((harm a ha).1.eval env) ((harm a ha).2.eval env)
  unfold Chain.value
  cases chain.inverted with
  | true => exact hval.not.congr fun env => (Bool.xor_true _).symm
  | false => exact hval.congr fun env => (Bool.xor_false _).symm

/-! ## The pass -/

section

variable (hsrc : source.Wf) (hplan : PlannedFrom source needed 1 plan) (hpos : 1 ≤ id)
  (hid : id < source.size)
include hsrc hplan hpos hid

lemma rebuildRoot_builds (hg : (source.node id).kind.isGate = true)
    (hne : plan.needed id = true) (hs : s.candidate.Wf)
    (hst : Rebuilt source (plan.needed · = true) id s.candidate map) :
    Builds passArena (rebuildRoot source o plan map id) s fun t root =>
      t.candidate.Is root (fun env => source.valueAt env id) ∧
      t.candidate.names = s.candidate.names := by
  obtain ⟨hco, hch⟩ := hplan.planned id hpos hid hne hg
  unfold rebuildRoot
  cases hc : plan.chains id with
  | none =>
    obtain ⟨h1, h2⟩ := (hsrc.canonical id hid hg).older
    obtain ⟨hn1, hn2⟩ := hco hc
    refine (gate_builds hs hg (hst.translated h1 (.inr hn1)) (hst.translated h2 (.inr hn2))).mono
      fun t root _ _ hr => ⟨hr.1.congr fun env => ?_, hr.2.2⟩
    rw [hsrc.valueAt_gate env hid hg]
  | some chain =>
    obtain ⟨hof, hrd⟩ := hch chain hc
    have hbu := buildChain_builds (o := o) hs hof.arms fun x hx =>
      hst.translated (hof.older x hx) (.inr (hrd x hx))
    refine hbu.mono fun t root _ _ hr => ?_
    exact ⟨hr.1.congr fun env => (hof.value env).symm, hr.2⟩

lemma rebuildChain_builds (hs : s.candidate.Wf)
    (hst : Rebuilt source (plan.needed · = true) id s.candidate map) :
    Builds passArena (rebuildChain source o plan map id) s fun t map' =>
      Rebuilt source (plan.needed · = true) (id + 1) t.candidate map' := by
  refine ((Meters.spend 1).builds hs).bind fun t _ ht _ hca => graph_bind ht ?_
  refine (require.builds ht).bind fun u _ hu _ hca' => ?_
  rw [← hca.1, ← hca'.1] at hst
  refine .ite (fun hk => ?_) fun hk => ?_
  · exact (copySource_builds hsrc hu hst hid hk).map fun _ _ _ _ h => h.1
  have hg := hsrc.gate_of_ne hid (Nat.one_le_iff_ne_zero.1 hpos) hk
  refine .ite (fun hne => ?_) fun hne => ?_
  · exact .pure hu (hst.skip hg (by rw [hne]; nofun))
  rw [Bool.not_eq_false] at hne
  refine (rebuildRoot_builds hsrc hplan hpos hid hg hne hu hst).map fun v root hv hle hr => ?_
  refine hst.step hu hv hle hr.1 ?_
  rw [hr.2, hst.names, Xag.sourceCount_succ, if_neg hk, add_zero]

end

lemma balanceMuxChains_builds (hsrc : source.Wf) (outputs : List Xsignal) (w : Work) :
    Builds passArena (balanceMuxChains source o outputs) { work := w } fun _ res =>
      Preserves source outputs res.graph res.outputs := by
  have hem := wf_empty
  refine ite (fun _ => throw hem) fun hli => ?_
  have hmin := not_lt.1 (not_or.1 (not_or.1 hli).2).1
  refine ((Meters.spend _).builds hem).bind fun s _ hs _ hca =>
    Builds.ite (fun _ => Builds.throw hs) fun hany => ?_
  refine ((planChains_meters hsrc hmin _).builds hs).bind fun t plan ht _ hplan => ?_
  obtain ⟨hca', hplan⟩ := hplan
  have hst : Rebuilt source (plan.needed · = true) 1 t.candidate fun _ => {} := by
    rw [hca', hca.1]
    exact Rebuilt.start hsrc _
  have hlo := foldlM_range' (A := passArena) (f := rebuildChain source o plan)
    (Q := fun i u map => Rebuilt source (plan.needed · = true) i u.candidate map) 1
      (source.size - 1)
    (b := fun _ => {}) ht hst fun i hi hlt u map hu _ hmap =>
      rebuildChain_builds hsrc hplan hi (by omega) hu hmap
  refine hlo.bind fun u map hu _ hmap => graph_bind hu (Builds.pure hu ?_)
  rw [Nat.add_sub_cancel' hsrc.pos] at hmap
  refine hmap.preserves hsrc hu fun x hx => ⟨any_size_le hany x hx, hplan.needed x.id ?_⟩
  exact (needed_foldl _ _ _).2 (Or.inr ⟨x, hx, rfl⟩)

/-- A recognised multiplexer is its node, and rebuilding the chains of multiplexers preserves every
output, for every assignment of the sources. -/
theorem balanceMuxChains_preserves (hsrc : source.Wf) :
    (∀ id m, matchMux source id = some m → ∀ env, source.valueAt env id =
      ((bif source.eval env m.select then source.eval env m.whenTrue
        else source.eval env m.whenFalse) ^^ m.inverted)) ∧
    ∀ (o : ChainLimits) (outputs : List Xsignal) (w : Work) (res : MuxBalanceResult),
      ((balanceMuxChains source o outputs).run.run { work := w }).1 = .ok res →
      Preserves source outputs res.graph res.outputs := by
  constructor
  · intro id m hm env
    exact (matchMux_sound hsrc hm).2 env
  · intro o outputs w res hres
    exact (balanceMuxChains_builds hsrc outputs w).2.2 res hres

end

/-- Four multiplexers in a row, one of them in its AND form. -/
def muxXag : Xag := Xag.runOps [.input "a", .input "b", .input "c", .input "d",
    .input "p", .input "q", .input "r",
  .mux ⟨4, false⟩ ⟨1, false⟩ ⟨2, false⟩, .land ⟨5, false⟩ ⟨3, false⟩, .land ⟨5, true⟩ ⟨10, true⟩,
  .lor ⟨11, false⟩ ⟨12, false⟩, .mux ⟨6, false⟩ ⟨2, false⟩ ⟨13, true⟩,
    .mux ⟨7, false⟩ ⟨1, true⟩ ⟨16, false⟩]

def muxOutputs : List Xsignal := [⟨19, true⟩]

def muxBalanced : Except Stop MuxBalanceResult :=
  ((balanceMuxChains muxXag {} muxOutputs).run.run
    { work := { budget := { remaining := 1000 } } }).1

/-- The AND form is recognised, and the three lower multiplexers become a tree. -/
theorem balanceMuxChains_preserves_row :
    (matchMux muxXag 13 = some ⟨⟨5, false⟩, ⟨3, false⟩, ⟨10, true⟩, true, 1, 1⟩ ∧
      ∀ env, muxXag.valueAt env 13 =
      ((bif muxXag.eval env ⟨5, false⟩ then muxXag.eval env ⟨3, false⟩
        else muxXag.eval env ⟨10, true⟩) ^^ true)) ∧
    (muxBalanced.toOption.map fun res => (res.outputs, res.chains, res.arms)) =
    some ([⟨21, false⟩], 1, 3) ∧
    ∀ res, muxBalanced = .ok res → Preserves muxXag muxOutputs res.graph res.outputs := by
  obtain ⟨hmatch, hpres⟩ := balanceMuxChains_preserves (Xag.wf_runOps _ : muxXag.Wf)
  refine ⟨⟨by decide +kernel, fun env => ?_⟩, by decide +kernel, fun res h => hpres _ _ _ res h⟩
  exact hmatch 13 ⟨⟨5, false⟩, ⟨3, false⟩, ⟨10, true⟩, true, 1, 1⟩ (by decide) env

end LiveHD.Usyn
