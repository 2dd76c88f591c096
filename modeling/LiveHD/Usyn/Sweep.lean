import LiveHD.Usyn.Pass
import LiveHD.Lib.Tables

/-!
# Functional sweeping

`sweep_xag` (`pass/usyn/xag_sweep.cpp`).  In node order every live node gets its function
over at most sixteen sources, minimised to the sources it depends on; a node whose function,
or its complement, was seen before goes to the earlier signal when that is no deeper.
-/

namespace LiveHD.Usyn

open Pass Function List Builds Xag

/-- A function of some sources, as its table. -/
structure SweepFunction where
  support : List ℕ
  table : List Bool
  sorted : support.Pairwise (· < ·)
  size : table.length = 2 ^ support.length
deriving DecidableEq

namespace SweepFunction

variable (f : SweepFunction)

def count : ℕ := f.support.length

/-- The 64-bit words of the table. -/
def words : ℕ := (2 ^ f.count + 63) / 64

def value (x : ℕ) : Bool := f.table.getD x false

def complement : SweepFunction where
  support := f.support
  table := f.table.map not
  sorted := f.sorted
  size := by rw [length_map, f.size]

def dependsOn (i : ℕ) : Bool :=
  (List.range (2 ^ f.count)).any fun x => !x.testBit i && f.value x != f.value (x ||| 2 ^ i)

/-- The function without a variable it does not depend on. -/
def remove (i : ℕ) (hi : i < f.count) : SweepFunction where
  support := f.support.eraseIdx i
  table := (List.range (2 ^ (f.count - 1))).map fun x => f.value (spreadRow i x)
  sorted := f.sorted.sublist (eraseIdx_sublist _ _)
  size := by rw [length_map, length_range, length_eraseIdx_of_lt hi, count]

/-- `minimize`, from variable `i` on. -/
def minimize (f : SweepFunction) (i : ℕ) : SweepFunction :=
  if hi : i < f.count then if f.dependsOn i then f.minimize (i + 1) else (f.remove i hi).minimize i
  else f
termination_by f.count - i
decreasing_by
  · omega
  · have hlen : (f.remove i hi).count = f.count - 1 := length_eraseIdx_of_lt hi
    omega

/-- The constant false. -/
def zero : SweepFunction := ⟨[], [false], List.Pairwise.nil, rfl⟩

def source (index : ℕ) : SweepFunction := ⟨[index], [false, true], pairwise_singleton _ _, rfl⟩

end SweepFunction

/-- `std::set_union`. -/
def setUnion : List ℕ → List ℕ → List ℕ
  | [], b => b
  | a, [] => a
  | x :: a, y :: b =>
    if x < y then x :: setUnion a (y :: b)
      else if y < x then y :: setUnion (x :: a) b else x :: setUnion a b
termination_by a b => a.length + b.length

/-- `std::lower_bound`. -/
def lowerBound (l : List ℕ) (v : ℕ) : ℕ := l.findIdx (v ≤ ·)

lemma mem_setUnion (a b : List ℕ) (v : ℕ) : v ∈ setUnion a b ↔ v ∈ a ∨ v ∈ b := by
  fun_induction setUnion a b with
  | case1 b => simp
  | case2 a => simp
  | case3 x a y b h ih => simp only [mem_cons, ih, or_assoc]
  | case4 x a y b h h' ih =>
    simp only [mem_cons, ih]
    tauto
  | case5 x a y b h h' ih =>
    obtain rfl : x = y := le_antisymm (not_lt.1 h') (not_lt.1 h)
    simp only [mem_cons]
    tauto

lemma sorted_setUnion {a b : List ℕ} (ha : a.Pairwise (· < ·)) (hb : b.Pairwise (· < ·)) :
    (setUnion a b).Pairwise (· < ·) := by
  fun_induction setUnion a b with
  | case1 b => exact hb
  | case2 a => exact ha
  | case3 x a y b h ih =>
    obtain ⟨hxa, ha'⟩ := pairwise_cons.1 ha
    refine pairwise_cons.2 ⟨fun v hv => ?_, ih ha' hb⟩
    rcases (mem_setUnion _ _ _).1 hv with hv | hv
    · exact hxa v hv
    · rcases mem_cons.1 hv with rfl | hv
      · exact h
      · exact h.trans ((pairwise_cons.1 hb).1 v hv)
  | case4 x a y b h h' ih =>
    obtain ⟨hyb, hb'⟩ := pairwise_cons.1 hb
    refine pairwise_cons.2 ⟨fun v hv => ?_, ih ha hb'⟩
    rcases (mem_setUnion _ _ _).1 hv with hv | hv
    · rcases mem_cons.1 hv with rfl | hv
      · exact h'
      · exact h'.trans ((pairwise_cons.1 ha).1 v hv)
    · exact hyb v hv
  | case5 x a y b h h' ih =>
    obtain rfl : x = y := le_antisymm (not_lt.1 h') (not_lt.1 h)
    obtain ⟨hxa, ha'⟩ := pairwise_cons.1 ha
    obtain ⟨hxb, hb'⟩ := pairwise_cons.1 hb
    refine pairwise_cons.2 ⟨fun v hv => ?_, ih ha' hb'⟩
    rcases (mem_setUnion _ _ _).1 hv with hv | hv
    · exact hxa v hv
    · exact hxb v hv

/-- The position of a member of an ordered list. -/
lemma getElem?_lowerBound {l : List ℕ} (hl : l.Pairwise (· < ·)) {v : ℕ} (hv : v ∈ l) :
    l[lowerBound l v]? = some v := by
  induction l with
  | nil => cases hv
  | cons x l ih =>
    obtain ⟨hxl, hl'⟩ := pairwise_cons.1 hl
    rw [lowerBound, findIdx_cons]
    rcases mem_cons.1 hv with rfl | hv
    · rw [decide_eq_true le_rfl]
      rfl
    · rw [decide_eq_false (not_le.2 (hxl v hv))]
      exact ih hl' hv

structure SweepLimits where
  maxNodes : ℕ := 2000000
  supportLimit : ℕ := 6
  tableWordsLimit : ℕ := 65536

structure SweepState where
  map : ℕ → Xsignal := fun _ => {}
  functions : ℕ → Option SweepFunction := Function.update (fun _ => none) 0 (some .zero)
  representatives : SweepFunction → Option Xsignal :=
    update (fun _ => none) .zero (some (constant false))
  tableWords : ℕ := 2
  confirmations : ℕ := 0
  limited : Bool := false

structure SweepResult where
  graph : Xag
  outputs : List Xsignal
  confirmations : ℕ
  tableWords : ℕ
  limited : Bool

namespace SweepFunction

/-- The function of a gate over the functions of its inputs, before it is minimised. -/
def merge (a b : SweepFunction) (node : Node) : SweepFunction :=
  let support := setUnion a.support b.support
  { support := support
    table := (List.range (2 ^ support.length)).map fun x =>
      let ax := rowIndex a.support fun v => x.testBit (lowerBound support v)
      let bx := rowIndex b.support fun v => x.testBit (lowerBound support v)
      node.kind.op (a.value ax ^^ node.inputs.1.inverted) (b.value bx ^^ node.inputs.2.inverted)
    sorted := sorted_setUnion a.sorted b.sorted
    size := by rw [length_map, length_range] }

/-- `combine`, of functions that are known. -/
def combine (limit : ℕ) (a b : SweepFunction) (node : Node) : PassM (Option SweepFunction) :=
  let count := (setUnion a.support b.support).length
  if limit < count then pure none
  else do
    spend (2 ^ count * (count + 3) * (count + 1))
    pure (some ((merge a b node).minimize 0))

/-- The function or its complement, whichever is false on the first row. -/
def key (f : SweepFunction) : SweepFunction := if f.value 0 then f.complement else f

end SweepFunction

/-- Record the signal and the function of a node. -/
def SweepState.record (o : SweepLimits) (g : Xag) (st : SweepState) (id : ℕ) (s : Xsignal)
    (f : Option SweepFunction) : SweepState :=
  let st := { st with map := Function.update st.map id s }
  match f with
  | none => { st with limited := true }
  | some f =>
    if o.tableWordsLimit - min o.tableWordsLimit st.tableWords < 2 * f.words then
      { st with limited := true }
    else
      let st := { st with
        functions := update st.functions id (some f)
        tableWords := st.tableWords + 2 * f.words }
      let phase := f.value 0
      match st.representatives f.key with
      | none =>
        { st with representatives := update st.representatives f.key (some (s.phased phase)) }
      | some rep =>
        if (g.node rep.id).level ≤ (g.node s.id).level then { st with
          map := update st.map id (rep.phased phase)
          confirmations := if rep.phased phase ≠ s then st.confirmations + 1 else st.confirmations }
        else { st with representatives := update st.representatives f.key (some (s.phased phase)) }

/-- An output: its node's signal, or the representative of its function when that is no deeper. -/
def SweepState.output (g : Xag) (st : SweepState) (s : Xsignal) : Xsignal :=
  let signal := translated st.map s
  match st.functions s.id with
  | none => signal
  | some f => match st.representatives f.key with
    | none => signal
    | some rep => if (g.node rep.id).level ≤ (g.node signal.id).level then
      rep.phased (f.value 0 ^^ s.inverted) else signal

/-- Mark the inputs of a live gate. -/
def markInputs (source : Xag) (live : ℕ → Bool) (id : ℕ) : ℕ → Bool :=
  let node := source.node id
  if live id = true ∧ node.kind.isGate = true then
    Function.update (Function.update live node.inputs.1.id true) node.inputs.2.id true
  else live

/-- The nodes that outputs depend on. -/
def liveNodes (source : Xag) (outputs : List Xsignal) : ℕ → Bool :=
  (List.range source.size).reverse.foldl (markInputs source)
    (outputs.foldl (fun live s => update live s.id true) fun _ => false)

section

variable (source : Xag) (o : SweepLimits)

/-- The function of a gate, when its inputs have one. -/
def gateFunction (st : SweepState) (node : Node) : PassM (Option SweepFunction) :=
  match st.functions node.inputs.1.id, st.functions node.inputs.2.id with
  | some a, some b => SweepFunction.combine o.supportLimit a b node
  | _, _ => pure none

def sweepNode (live : ℕ → Bool) (st : SweepState) (id : ℕ) : PassM SweepState := do
  let node := source.node id
  spend 1
  let g ← graph
  require (g.size < o.maxNodes)
  if node.kind = .source then do
    let s ← copySource source id
    let g ← graph
    pure (st.record o g id s (some (.source node.sourceIndex)))
  else if live id then do
    let s ← gate node.kind (translated st.map node.inputs.1) (translated st.map node.inputs.2)
    let f ← gateFunction o st node
    let g ← graph
    pure (st.record o g id s f)
  else pure st

def sweepXag (outputs : List Xsignal) : PassM SweepResult :=
  if o.maxNodes = 0 ∨ o.supportLimit = 0 ∨ 16 < o.supportLimit ∨ o.tableWordsLimit < 2 then invalid
  else if o.maxNodes < source.size ∨ o.maxNodes < outputs.length then exhausted
  else do
    spend (4 * source.size + outputs.length)
    if outputs.any (source.size ≤ ·.id) then invalid
    else do
      let live := liveNodes source outputs
      let st ← (List.range' 1 (source.size - 1)).foldlM (sweepNode source o live) {}
      let g ← graph
      let changed := outputs.countP fun s => st.output g s ≠ translated st.map s
      pure ⟨g, outputs.map (st.output g), st.confirmations + changed, st.tableWords, st.limited⟩

end

/-! ## What a function computes -/

namespace SweepFunction

variable {f : SweepFunction}

/-- The value under an assignment of the sources. -/
def denote (f : SweepFunction) (env : ℕ → Bool) : Bool := f.value (rowIndex f.support env)

lemma value_of_table {support : List ℕ} {h : support.Pairwise (· < ·)} {r : ℕ → Bool} {n : ℕ}
    (hsz : ((List.range n).map r).length = 2 ^ support.length) {x : ℕ}
    (hx : x < 2 ^ support.length) :
    (mk support ((List.range n).map r) h hsz).value x = r x := by
  have hn : n = 2 ^ support.length := by rwa [length_map, length_range] at hsz
  have hlen := hx.trans_eq hn.symm
  rw [value, getD_eq_getElem?_getD, getElem?_map, getElem?_range hlen]
  rfl

lemma denote_complement (f : SweepFunction) (env : ℕ → Bool) :
    f.complement.denote env = !f.denote env := by
  have hlt : rowIndex f.support env < f.table.length := by
    rw [f.size]
    exact rowIndex_lt _ _
  rw [denote, denote, value, value, complement, getD_eq_getElem?_getD, getD_eq_getElem?_getD,
    getElem?_map, getElem?_eq_getElem hlt]
  rfl

lemma denote_key (f : SweepFunction) (env : ℕ → Bool) :
    f.key.denote env = (f.denote env ^^ f.value 0) := by
  unfold key
  split
  next h => rw [denote_complement, h, Bool.xor_true]
  next h => rw [Bool.eq_false_iff.2 h, Bool.xor_false]

lemma value_of_not_dependsOn {i : ℕ} (h : ¬f.dependsOn i = true) {x : ℕ} (hx : x < 2 ^ f.count)
    (hbit : x.testBit i = false) : f.value (x ||| 2 ^ i) = f.value x := by
  by_contra hne
  refine h (any_eq_true.2 ⟨x, mem_range.2 hx, ?_⟩)
  rw [hbit, Bool.not_false, Bool.true_and, bne_iff_ne]
  exact fun heq => hne heq.symm

/-- A variable the function does not depend on. -/
lemma denote_remove {i : ℕ} (hi : i < f.count) (h : ¬f.dependsOn i = true) (env : ℕ → Bool) :
    (f.remove i hi).denote env = f.denote env := by
  have hrow : rowIndex (f.support.eraseIdx i) env <
    2 ^ (f.support.eraseIdx i).length := rowIndex_lt _ _
  rw [denote, remove, value_of_table _ hrow, denote]
  have hbit : (spreadRow i (rowIndex (f.support.eraseIdx i) env)).testBit i = false := by
    rw [testBit_spreadRow, if_neg (lt_irrefl _), if_pos rfl]
  rcases rowIndex_eraseIdx f.support env hi with heq | heq
  · rw [heq]
  · have hlt : spreadRow i (rowIndex (f.support.eraseIdx i) env) < 2 ^ f.count := by
      refine lt_of_le_of_lt ?_ (rowIndex_lt f.support env)
      rw [heq]
      exact Nat.left_le_or
    rw [heq, value_of_not_dependsOn h hlt hbit]

lemma denote_minimize (f : SweepFunction) (i : ℕ) (env : ℕ → Bool) :
    (f.minimize i).denote env = f.denote env := by
  fun_induction minimize f i with
  | case1 f i hi hdep ih => exact ih
  | case2 f i hi hdep ih => exact ih.trans (denote_remove hi hdep env)
  | case3 f i hi => rfl

lemma denote_merge (a b : SweepFunction) (node : Node) (env : ℕ → Bool) :
    (merge a b node).denote env =
    node.kind.op (a.denote env ^^ node.inputs.1.inverted)
    (b.denote env ^^ node.inputs.2.inverted) := by
  have hsrt := sorted_setUnion a.sorted b.sorted
  have ha : ∀ v ∈ a.support, (setUnion a.support b.support)[lowerBound
      (setUnion a.support b.support) v]? = some v :=
    fun v hv => getElem?_lowerBound hsrt ((mem_setUnion _ _ _).2 (.inl hv))
  have hb : ∀ v ∈ b.support, (setUnion a.support b.support)[lowerBound
      (setUnion a.support b.support) v]? = some v :=
    fun v hv => getElem?_lowerBound hsrt ((mem_setUnion _ _ _).2 (.inr hv))
  rw [denote, merge, value_of_table _ (rowIndex_lt _ _), rowIndex_restrict ha, rowIndex_restrict hb]
  rfl

lemma denote_zero (env : ℕ → Bool) : zero.denote env = false := rfl

lemma denote_source (index : ℕ) (env : ℕ → Bool) : (source index).denote env = env index := by
  rw [denote, source, rowIndex, map_singleton]
  cases env index <;> rfl

end SweepFunction

open SweepFunction hiding value zero

lemma combine_meters {limit : ℕ} (a b : SweepFunction) (node : Node) :
    Meters (SweepFunction.combine limit a b node) fun r => ∀ f, r = some f → ∀ env, f.denote env =
      node.kind.op (a.denote env ^^ node.inputs.1.inverted)
      (b.denote env ^^ node.inputs.2.inverted) := by
  refine .ite (fun _ => .pure nofun) fun _ => (Meters.spend _).bind fun _ _ =>
    Meters.pure fun f hf env => ?_
  cases hf
  rw [denote_minimize, denote_merge]

/-! ## Live nodes -/

section

variable {source : Xag} {live : ℕ → Bool} {id j : ℕ}

lemma markInputs_mono (h : live j = true) : markInputs source live id j = true := by
  unfold markInputs
  split
  · simp [update_apply, h]
  · exact h

lemma markInputs_of_le (hsrc : source.Wf) (hid : id < source.size) (hj : id ≤ j) :
    markInputs source live id j = live j := by
  unfold markInputs
  split
  next hlv =>
    obtain ⟨h1, h2⟩ := (hsrc.canonical id hid hlv.2).older
    rw [update_of_ne (by omega), update_of_ne (by omega)]
  · rfl

/-- Marking downwards: what is live stays so, nothing above is marked, and the inputs of live gates
are live. -/
lemma markInputs_foldl (hsrc : source.Wf) {n : ℕ} (hn : n ≤ source.size) (live : ℕ → Bool) :
    let res := (List.range n).reverse.foldl (markInputs source) live
    (∀ j, live j = true → res j = true) ∧ (∀ j, n ≤ j → res j = live j) ∧
      ∀ id < n, res id = true → (source.node id).kind.isGate = true →
        res (source.node id).inputs.1.id = true ∧ res (source.node id).inputs.2.id = true := by
  induction n generalizing live with
  | zero => exact ⟨fun _ h => h, fun _ _ => rfl, nofun⟩
  | succ n ih =>
    rw [range_succ, reverse_append, reverse_singleton, singleton_append, foldl_cons]
    obtain ⟨hmo, hfr, hcl⟩ := ih (Nat.le_of_succ_le hn) (markInputs source live n)
    refine ⟨fun j hj => hmo j (markInputs_mono hj), fun j hj => ?_, fun id hid hlv hg => ?_⟩
    · rw [hfr j (Nat.le_of_succ_le hj), markInputs_of_le hsrc hn (Nat.le_of_succ_le hj)]
    · rcases Nat.lt_succ_iff_lt_or_eq.1 hid with hid | rfl
      · exact hcl id hid hlv hg
      · rw [hfr id le_rfl, markInputs_of_le hsrc hn le_rfl] at hlv
        have hma : markInputs source live id = update (update live
            (source.node id).inputs.1.id true) (source.node id).inputs.2.id true := if_pos ⟨hlv, hg⟩
        refine ⟨hmo _ ?_, hmo _ ?_⟩
        · simp [hma, update_apply]
        · simp [hma]

lemma liveNodes_spec (hsrc : source.Wf) (outputs : List Xsignal) :
    (∀ s ∈ outputs, liveNodes source outputs s.id = true) ∧
    ∀ id < source.size, liveNodes source outputs id = true → (source.node id).kind.isGate = true →
      liveNodes source outputs (source.node id).inputs.1.id = true ∧
      liveNodes source outputs (source.node id).inputs.2.id = true := by
  obtain ⟨hmo, -, hcl⟩ := markInputs_foldl hsrc le_rfl
    (outputs.foldl (fun live s => update live s.id true) fun _ => false)
  exact ⟨fun s hs => hmo _ ((needed_foldl _ _ _).2 (.inr ⟨s, hs, rfl⟩)), hcl⟩

end

/-! ## The invariant of the sweep -/

/-- The nodes below `id` are there, no deeper than they were; the functions are those of their nodes
and the representatives those of their keys. -/
structure Swept (source : Xag) (live : ℕ → Bool) (id : ℕ) (g : Xag) (st : SweepState) : Prop where
  rebuilt : Rebuilt source (live · = true) id g st.map
  level : ∀ i < id, (source.node i).kind.isGate = false ∨ live i = true →
    (g.node (st.map i).id).level ≤ (source.node i).level
  functions : ∀ i f, st.functions i = some f → ∀ env, f.denote env = source.valueAt env i
  representatives : ∀ key s, st.representatives key = some s → g.Is s key.denote

section

variable {source : Xag} {o : SweepLimits} {live : ℕ → Bool} {id : ℕ} {g h : Xag} {st : SweepState}

section

variable (hst : Swept source live id g st) (hg : g.Wf) (hh : h.Wf) (he : g.Extends h) {s : Xsignal}
  (hs : h.Is s fun env => source.valueAt env id)
include hst hg hh he hs

/-- A new signal for the next node. -/
lemma Swept.step (hle : (h.node s.id).level ≤ (source.node id).level)
    (hns : h.names = source.names.take (source.sourceCount (id + 1))) {st' : SweepState}
    (hmap : st'.map = Function.update st.map id s)
    (hfun : ∀ i f, st'.functions i = some f → st.functions i = some f ∨ i = id ∧
      ∀ env, f.denote env = source.valueAt env id)
    (hrep : ∀ key t, st'.representatives key = some t →
      st.representatives key = some t ∨ h.Is t key.denote) :
    Swept source live (id + 1) h st' where
  rebuilt := by
    rw [hmap]
    exact hst.rebuilt.step hg hh he hs hns
  level i hi hor := by
    rw [hmap]
    rcases Nat.lt_succ_iff_lt_or_eq.1 hi with hlt | rfl
    · rw [update_of_ne hlt.ne, he.level (hst.rebuilt.is i hlt hor).lt]
      exact hst.level i hlt hor
    · rwa [update_self]
  functions i f hf := by
    rcases hfun i f hf with hf | ⟨rfl, hf⟩
    · exact hst.functions i f hf
    · exact hf
  representatives key t ht := by
    rcases hrep key t ht with ht | ht
    · exact (hst.representatives key t ht).mono hg hh he
    · exact ht

lemma Swept.record (hlv : (h.node s.id).level ≤ (source.node id).level)
    (hns : h.names = source.names.take (source.sourceCount (id + 1))) {f : Option SweepFunction}
    (hf : ∀ f', f = some f' → ∀ env, f'.denote env = source.valueAt env id) :
    Swept source live (id + 1) h (st.record o h id s f) := by
  unfold SweepState.record
  cases f with
  | none => exact hst.step hg hh he hs hlv hns rfl (fun _ _ h => .inl h) fun _ _ h => .inl h
  | some f =>
    have hval := hf f rfl
    have hfun : ∀ i f', update st.functions id (some f) i = some f' →
        st.functions i = some f' ∨ i = id ∧ ∀ env, f'.denote env = source.valueAt env id := by
      intro i f' hi
      rcases update_eq_some hi with ⟨rfl, rfl⟩ | hi
      · exact .inr ⟨rfl, hval⟩
      · exact .inl hi
    -- the new signal is that of the key, up to the phase
    have hnew : h.Is (s.phased (f.value 0)) f.key.denote :=
      (hs.phased _).congr fun env => by rw [f.denote_key, hval]
    have hrep : ∀ key t, update st.representatives f.key
        (some (s.phased (f.value 0))) key = some t →
        st.representatives key = some t ∨ h.Is t key.denote := by
      intro key t ht
      rcases update_eq_some ht with ⟨rfl, rfl⟩ | ht
      · exact .inr hnew
      · exact .inl ht
    dsimp only
    split
    · exact hst.step hg hh he hs hlv hns rfl (fun _ _ h => .inl h) fun _ _ h => .inl h
    · split
      · exact hst.step hg hh he hs hlv hns rfl hfun hrep
      next rep hre =>
        split
        next hle =>
          have hold := (hst.representatives _ _ hre).mono hg hh he
          have hma : h.Is (rep.phased (f.value 0)) fun env => source.valueAt env id := by
            refine (hold.phased _).congr fun env => ?_
            rw [f.denote_key, hval, Bool.xor_assoc, Bool.xor_self, Bool.xor_false]
          have hle' : (h.node (rep.phased (f.value 0)).id).level ≤ (source.node id).level := by
            rw [Xsignal.id_phased]
            exact hle.trans hlv
          refine hst.step hg hh he hma hle' hns ?_ hfun fun _ _ h => .inl h
          exact update_idem _ _ _
        · exact hst.step hg hh he hs hlv hns rfl hfun hrep

end

lemma Swept.start (hsrc : source.Wf) (live : ℕ → Bool) : Swept source live 1 {} {} where
  rebuilt := .start hsrc _
  level i _ _ := wf_empty.level_zero.trans_le (Nat.zero_le _)
  functions i f hf env := by
    rcases update_eq_some (m := fun _ => none) (k := 0)
      (v := SweepFunction.zero) hf with ⟨rfl, rfl⟩ | hf
    · exact (denote_zero env).trans (hsrc.valueAt_zero env).symm
    · cases hf
  representatives key s hs := by
    rcases update_eq_some (m := fun _ => none) (k := SweepFunction.zero)
      (v := constant false) hs with ⟨rfl, rfl⟩ | hs
    · exact (Xag.wf_empty.is_constant false).congr fun env => (SweepFunction.denote_zero env).symm
    · cases hs

lemma gateFunction_meters (hst : Swept source live id g st) (hsrc : source.Wf)
    (hid : id < source.size)
    (hg : (source.node id).kind.isGate = true) :
    Meters (gateFunction o st (source.node id)) fun r =>
      ∀ f, r = some f → ∀ env, f.denote env = source.valueAt env id := by
  unfold gateFunction
  split
  next a b ha hb =>
    refine (combine_meters a b _).mono fun r hr f hf env => ?_
    rw [hr f hf env, hst.functions _ _ ha env, hst.functions _ _ hb env,
      hsrc.valueAt_gate env hid hg]
    rfl
  · exact .pure nofun

lemma sweepNode_builds (hsrc : source.Wf)
    (hli : ∀ id < source.size, live id = true → (source.node id).kind.isGate = true →
        live (source.node id).inputs.1.id = true ∧
          live (source.node id).inputs.2.id = true) (hpos : 1 ≤ id)
    (hid : id < source.size) {s : PassState} (hs : s.candidate.Wf)
    (hst : Swept source live id s.candidate st) :
    Builds passArena (sweepNode source o live st id) s fun t st' =>
    Swept source live (id + 1) t.candidate st' := by
  refine ((Meters.spend 1).builds hs).bind fun t _ ht _ hca => graph_bind ht ?_
  refine (Meters.require.builds ht).bind fun u _ hu _ hca' => ?_
  rw [← hca.1, ← hca'.1] at hst
  refine .ite (fun hk => ?_) fun hk => ?_
  · refine (copySource_builds hsrc hu hst.rebuilt hid hk).bind fun w x hw hle hx => ?_
    obtain ⟨hreb, hlv⟩ := hx
    refine graph_bind hw (.pure hw ?_)
    have hse : w.candidate.Is x fun env => source.valueAt env id := by
      have his := hreb.is id (Nat.lt_succ_self _) (.inl (by rw [hk]; rfl))
      rwa [update_self] at his
    refine hst.record hu hw hle hse (hlv.trans_le (Nat.zero_le _)) hreb.names fun f hf env => ?_
    cases hf
    rw [denote_source, hsrc.valueAt_source env hid hk]
  have hg := hsrc.gate_of_ne hid (Nat.one_le_iff_ne_zero.1 hpos) hk
  refine .ite (fun hne => ?_) fun hne => .pure hu ?_
  · obtain ⟨h1, h2⟩ := (hsrc.canonical id hid hg).older
    obtain ⟨hl1, hl2⟩ := hli id hid hne hg
    have ha := hst.rebuilt.translated h1 (.inr hl1)
    have hb := hst.rebuilt.translated h2 (.inr hl2)
    refine (gate_builds hu hg ha hb).bind fun v x hv hle hx => ?_
    obtain ⟨hx, hlv, hns⟩ := hx
    refine ((gateFunction_meters hst hsrc hid hg).builds hv).bind fun w f hw _ hf => ?_
    refine graph_bind hw (.pure hw ?_)
    rw [hf.1]
    refine hst.record hu hv hle (hx.congr fun env => ?_) ?_ ?_ hf.2
    · rw [hsrc.valueAt_gate env hid hg]
    · -- the inputs are no deeper than they were
      have hid1 : (translated st.map (source.node id).inputs.1).id =
          (st.map (source.node id).inputs.1.id).id :=
        id_translated _ _
      have hid2 : (translated st.map (source.node id).inputs.2).id =
          (st.map (source.node id).inputs.2.id).id :=
        id_translated _ _
      have hle1 := hst.level _ h1 (.inr hl1)
      have hle2 := hst.level _ h2 (.inr hl2)
      rw [hid1, hid2] at hlv
      rw [hsrc.level id hid, if_pos hg]
      exact hlv.trans (Nat.add_le_add_left (max_le_max hle1 hle2) 1)
    · rw [hns, hst.rebuilt.names, sourceCount_succ, if_neg hk, add_zero]
  · exact ⟨hst.rebuilt.skip hg hne, fun i hi hor => by
      rcases Nat.lt_succ_iff_lt_or_eq.1 hi with hlt | rfl
      · exact hst.level i hlt hor
      · rcases hor with hor | hor
        · rw [hg] at hor
          cases hor
        · exact absurd hor hne, hst.functions, hst.representatives⟩

lemma Swept.output (hst : Swept source live id g st) {s : Xsignal} (hid : s.id < id)
    (hs : live s.id = true) :
    g.Is (st.output g s) (fun env => source.eval env s) ∧
    (g.node (st.output g s).id).level ≤ (source.node s.id).level := by
  have hsi := hst.rebuilt.translated hid (.inr hs)
  have hlv : (g.node (translated st.map s).id).level ≤ (source.node s.id).level := by
    rw [id_translated]
    exact hst.level _ hid (.inr hs)
  unfold SweepState.output
  split
  · exact ⟨hsi, hlv⟩
  next f hf =>
    dsimp only
    split
    · exact ⟨hsi, hlv⟩
    next rep hrep =>
      split
      next hle =>
        refine ⟨((hst.representatives _ _ hrep).phased _).congr fun env => ?_, ?_⟩
        · rw [f.denote_key, hst.functions _ _ hf env, Xag.eval, Xsignal.value,
            Bool.xor_assoc, ← Bool.xor_assoc (f.value 0),
            Bool.xor_self, Bool.false_xor]
        · rw [Xsignal.id_phased]
          exact hle.trans hlv
      · exact ⟨hsi, hlv⟩

lemma sweepXag_builds (hsrc : source.Wf) (outputs : List Xsignal) (w : Work) :
    Builds passArena (sweepXag source o outputs) { work := w } fun _ res =>
      Preserves source outputs res.graph res.outputs ∧ Forall₂ (fun s t =>
        (res.graph.node t.id).level ≤ (source.node s.id).level) outputs res.outputs := by
  have hem := wf_empty
  refine ite (fun _ => throw hem) fun _ => ite (fun _ => throw hem) fun _ => ?_
  refine ((Meters.spend _).builds hem).bind fun s _ hs _ hca =>
    ite (fun _ => throw hs) fun hany => ?_
  obtain ⟨hout, hcl⟩ := liveNodes_spec hsrc outputs
  have hsta : Swept source (liveNodes source outputs) 1 s.candidate {} := by
    rw [hca.1]
    exact Swept.start hsrc _
  have hlo := foldlM_range' (A := passArena) (f := sweepNode source o (liveNodes source outputs))
    (Q := fun i u st => Swept source (liveNodes source outputs) i u.candidate st) 1
      (source.size - 1)
    (b := {}) hs hsta fun i hi hlt u st hu _ hst => sweepNode_builds hsrc hcl hi (by omega) hu hst
  refine hlo.bind fun u st hu _ hst => graph_bind hu (Builds.pure hu ?_)
  rw [Nat.add_sub_cancel' hsrc.pos] at hst
  have hsi : ∀ x ∈ outputs, _ := fun x hx => hst.output (any_size_le hany x hx) (hout x hx)
  refine ⟨Preserves.of_map hu ?_ fun x hx => (hsi x hx).1, ?_⟩
  · rw [hst.rebuilt.names, hsrc.sourceCount_size, take_length]
  · rw [forall₂_map_right_iff, forall₂_same]
    exact fun x hx => (hsi x hx).2

/-- Sweeping preserves every output, for every assignment of the sources, and makes none deeper. -/
theorem sweepXag_preserves (hsrc : source.Wf) (outputs : List Xsignal)
    (w : Work) (res : SweepResult)
    (h : ((sweepXag source o outputs).run.run { work := w }).1 = .ok res) :
    Preserves source outputs res.graph res.outputs ∧ Forall₂ (fun s t =>
      (res.graph.node t.id).level ≤ (source.node s.id).level) outputs res.outputs :=
  (sweepXag_builds hsrc outputs w).2.2 res h

end

/-- Two different circuits of one function, and a third of its complement. -/
def twinXag : Xag := Xag.runOps [.input "a", .input "b", .input "c",
    .mux ⟨1, false⟩ ⟨2, false⟩ ⟨3, false⟩,
  .land ⟨1, false⟩ ⟨2, false⟩, .land ⟨1, true⟩ ⟨3, false⟩, .lor ⟨7, false⟩ ⟨8, false⟩,
    .lxor ⟨7, false⟩ ⟨8, false⟩]

def twinOutputs : List Xsignal := [⟨6, false⟩, ⟨9, false⟩, ⟨10, true⟩]

def twinSwept : Except Stop SweepResult :=
  ((sweepXag twinXag {} twinOutputs).run.run { work := { budget := { remaining := 10000 } } }).1

/-- All outputs go to the gate of least depth. -/
theorem sweepXag_preserves_twins :
    (twinSwept.toOption.map fun res => (res.outputs, res.confirmations)) =
      some ([⟨9, true⟩, ⟨9, false⟩, ⟨9, false⟩], 2) ∧
    ∀ res, twinSwept = .ok res → Preserves twinXag twinOutputs res.graph res.outputs ∧
      Forall₂ (fun s t => (res.graph.node t.id).level ≤ (twinXag.node s.id).level)
      twinOutputs res.outputs := by
  refine ⟨by decide +kernel, fun res h => ?_⟩
  exact sweepXag_preserves (Xag.wf_runOps _) _ _ res h

end LiveHD.Usyn
