import LiveHD.Usyn.Pass
import LiveHD.Usyn.Unate

/-!
# Windows of the graph

`collect_window`, `collect_subwindow`, `window_function` and `basis_function` of
`pass/usyn/xag.cpp`: the gates between a root and a cut, and the root's function over the cut,
simulated sixty-four rows at a time.
-/

namespace LiveHD.Usyn

open Synth Function List
open Unate (TruthTable)

open WorkM

/-- `max_logical_inputs` -/
def maxLogicalInputs : ℕ := 16

structure WindowLimits where
  inputs : ℕ := 16
  nodes : ℕ := 100000
deriving DecidableEq

/-- `valid_limits` -/
def WindowLimits.Valid (l : WindowLimits) : Prop := 0 < l.inputs ∧
    l.inputs ≤ maxLogicalInputs ∧ 0 < l.nodes

instance (l : WindowLimits) : Decidable l.Valid := inferInstanceAs (Decidable (_ ∧ _ ∧ _))

structure XagWindow where
  root : Xsignal
  /-- The variables, in order. -/
  leaves : List ℕ
  /-- The gates, in topological order. -/
  interior : List ℕ
  wholeCone : Bool
deriving DecidableEq

section

variable (g : Xag)

/-- What a traversal has reached. -/
structure Reached where
  visited : List ℕ := []
  leaves : List ℕ := []
  interior : List ℕ := []
deriving DecidableEq

section

variable (r : Reached) (id : ℕ)

def Reached.mark : Reached := { r with visited := id :: r.visited }

def Reached.leaf : Reached := { r.mark id with leaves := r.leaves ++ [id] }

def Reached.gate : Reached := { r.mark id with interior := r.interior ++ [id] }

end

/-- The traversal of `collect`, with the stack it works on. -/
def collectLoop (boundary : List ℕ) (limits : WindowLimits) (whole : Bool) (todo : List ℕ)
    (r : Reached) : WorkM Reached :=
  match todo with
  | [] => pure r
  | id :: todo => do
    spend 1
    if id = 0 ∨ id ∈ r.visited then collectLoop boundary limits whole todo r
    else if _hfull : limits.nodes ≤ r.visited.length then throw .searchExhausted
    else if id ∈ boundary then collectLoop boundary limits whole todo (r.mark id)
    else if (g.node id).kind = .source then
      if whole = false then throw .invalid
      else if limits.inputs ≤ r.leaves.length then throw .searchExhausted
      else collectLoop boundary limits whole todo (r.leaf id)
    else
      collectLoop boundary limits whole
        ((g.node id).inputs.2.id :: (g.node id).inputs.1.id :: todo) (r.gate id)
termination_by 2 * (limits.nodes - r.visited.length) + todo.length
decreasing_by all_goals simp only [Reached.mark, Reached.leaf, Reached.gate, length_cons]; omega

/-- Whether ids are nodes of the graph, not the constant, each once. -/
def ValidCut (ids : List ℕ) : Prop := (∀ id ∈ ids, id ≠ 0 ∧ id < g.size) ∧ ids.Nodup

instance (ids : List ℕ) : Decidable (ValidCut g ids) := inferInstanceAs (Decidable (_ ∧ _))

/-- `std::sort` of distinct ids. -/
def sortIds (ids : List ℕ) : List ℕ := ids.insertionSort (· ≤ ·)

section

variable (root : Xsignal) (leaves : List ℕ) (limits : WindowLimits)

def Xag.collect (whole : Bool) : WorkM XagWindow :=
  if limits.Valid ∧ root.id < g.size ∧ leaves.length ≤ limits.inputs ∧ ValidCut g leaves then do
    let r ← collectLoop g leaves limits whole [root.id] { leaves := leaves }
    if ∃ id ∈ leaves, id ∉ r.visited then throw .invalid
    else
      pure {
        root := root
        leaves := if whole then sortIds r.leaves else r.leaves
        interior := sortIds r.interior
        wholeCone := whole || r.leaves.all fun id => (g.node id).kind = .source }
  else throw .invalid

def collectWindow : WorkM XagWindow :=
  g.collect root leaves limits false

end

/-- The traversal of `collect_subwindow`: the basis ids it stops at. -/
def subLoop (basis : List ℕ) (limits : WindowLimits) (todo : List ℕ)
    (visited leaves : List ℕ) : WorkM (List ℕ) :=
  match todo with
  | [] => pure leaves
  | id :: todo => do
    spend 1
    if id = 0 ∨ id ∈ visited then subLoop basis limits todo visited leaves
    else if _hfull : limits.nodes ≤ visited.length then throw .searchExhausted
    else if id ∈ basis then subLoop basis limits todo (id :: visited) (leaves ++ [id])
    else if (g.node id).kind = .source then throw .invalid
    else
      subLoop basis limits ((g.node id).inputs.2.id :: (g.node id).inputs.1.id :: todo)
        (id :: visited) leaves
termination_by 2 * (limits.nodes - visited.length) + todo.length
decreasing_by all_goals simp only [length_cons]; omega

def collectSubwindow (root : Xsignal) (basis : List ℕ) (limits : WindowLimits) : WorkM XagWindow :=
  if limits.Valid ∧ basis.length ≤ limits.inputs ∧ root.id < g.size ∧ ValidCut g basis then do
    let leaves ← subLoop g basis limits [root.id] [] []
    collectWindow g root (sortIds leaves) limits
  else throw .invalid

/-! ## Functions -/

/-- Where a variable is true, among the rows of a word. -/
def variableWords : List Word :=
  [0xaaaaaaaaaaaaaaaa#64, 0xcccccccccccccccc#64, 0xf0f0f0f0f0f0f0f0#64,
    0xff00ff00ff00ff00#64, 0xffff0000ffff0000#64,
    0xffffffff00000000#64]

def leafWord (word j : ℕ) : Word :=
  if j < 6 then variableWords.getD j 0 else if word.testBit (j - 6) then BitVec.allOnes 64 else 0

/-- The values that the cut starts a word with; the constant is zero. -/
def leafValues (leaves : List ℕ)
    (word id : ℕ) : Word := if id ∈ leaves then leafWord word (leaves.idxOf id) else 0

def readWord (values : ℕ → Word)
    (s : Xsignal) : Word := if s.inverted then ~~~values s.id else values s.id

def gateWord (values : ℕ → Word) (node : Node) : Word :=
  if node.kind = .andGate then readWord values node.inputs.1 &&& readWord values node.inputs.2
  else readWord values node.inputs.1 ^^^ readWord values node.inputs.2

def simulateWord (leaves interior : List ℕ) (word : ℕ) : ℕ → Word :=
  interior.foldl (fun values id => Function.update values id (gateWord values (g.node id)))
    (leafValues leaves word)

/-- The words of a table. -/
def wordCount (inputs : ℕ) : ℕ := (2 ^ inputs + 63) / 64

/-- Clear the rows past the last one. -/
def maskTail (inputs : ℕ) (words : List Word) : List Word :=
  if 2 ^ inputs < 64 then words.modify 0 (· &&& ((1#64 <<< 2 ^ inputs) - 1#64)) else words

def windowFunction (w : XagWindow) : WorkM TruthTable :=
  if w.leaves.length ≤ maxLogicalInputs ∧ w.interior.length + w.leaves.length < maxId then do
    let checked ← collectWindow g w.root w.leaves ⟨max 1 w.leaves.length,
      max 1 (w.interior.length + w.leaves.length)⟩
    if checked.interior = w.interior then do
      let words ← (List.range (wordCount w.leaves.length)).foldlM (fun words word => do
        spend (1 + w.leaves.length + w.interior.length)
        pure (words ++ [readWord (simulateWord g w.leaves w.interior word) w.root])) []
      pure ⟨w.leaves.length, maskTail w.leaves.length words⟩
    else throw .invalid
  else throw .invalid

/-- `Truth_table::set` -/
def setRow (t : TruthTable) (x : ℕ) (value : Bool) : TruthTable :=
  let mask := 1#64 <<< (x % 64)
  { t with words := t.words.modify (x / 64) fun w => if value then w ||| mask else w &&& ~~~mask }

/-- `valid_truth_table` -/
def validTruthTable (t : TruthTable) : Prop := t.inputs ≤ maxLogicalInputs ∧
    t.words.length = wordCount t.inputs ∧
  (64 ≤ 2 ^ t.inputs ∨ t.words.getD 0 0 >>> 2 ^ t.inputs = 0)

instance (t : TruthTable) : Decidable (validTruthTable t) :=
  inferInstanceAs (Decidable (_ ∧ _ ∧ (_ ∨ _)))

/-- A table over some of the basis, as one over all of it. -/
def liftFunction (table : TruthTable) (inputs basis : List ℕ) : WorkM TruthTable :=
  if validTruthTable table ∧ inputs.length = table.inputs ∧ basis.length ≤ maxLogicalInputs ∧
      (∀ id ∈ basis, id ≠ 0) ∧ basis.Nodup ∧
      inputs.Nodup ∧ ∀ id ∈ inputs, id ∈ basis then
    (List.range (2 ^ basis.length)).foldlM (fun t x => do
      spend (inputs.length + 1)
      pure (setRow t x (table.get (rowIndex (inputs.map basis.idxOf) x.testBit))))
      ⟨basis.length, List.replicate (wordCount basis.length) 0⟩
  else throw .invalid

def basisFunction (root : Xsignal) (basis : List ℕ) (limits : WindowLimits) : WorkM TruthTable := do
  let window ← collectSubwindow g root basis limits
  let table ← windowFunction g window
  liftFunction table window.leaves basis

end

/-! ## The cut of a window -/

section

variable {g : Xag} {limits : WindowLimits}

/-- A node that a window may read. -/
def Known (leaves interior : List ℕ) (id : ℕ) : Prop := id = 0 ∨ id ∈ leaves ∨ id ∈ interior

/-- A window whose gates read its cut and its own gates. -/
structure XagWindow.Ok (g : Xag) (w : XagWindow) : Prop where
  root : Known w.leaves w.interior w.root.id
  lt : w.root.id < g.size
  leaves : ValidCut g w.leaves
  interior : ∀ id ∈ w.interior, id < g.size ∧ id ∉ w.leaves ∧ (g.node id).kind.isGate = true ∧
    Known w.leaves w.interior (g.node id).inputs.1.id ∧
    Known w.leaves w.interior (g.node id).inputs.2.id
  sorted : w.interior.Pairwise (· < ·)

/-- Where a traversal from a root stands. -/
structure Traversal (g : Xag) (leaves : List ℕ) (root : ℕ) (todo : List ℕ)
    (r : Reached) : Prop where
  cut : r.leaves = leaves
  waiting : ∀ id ∈ todo, id < g.size
  start : root ∈ todo ∨ Known leaves r.interior root
  visited : ∀ id ∈ r.visited, id ∈ leaves ∨ id ∈ r.interior
  interior : ∀ id ∈ r.interior, id ∈ r.visited ∧ id < g.size ∧ id ∉ leaves ∧
    (g.node id).kind.isGate = true ∧
    ((g.node id).inputs.1.id ∈ todo ∨ Known leaves r.interior (g.node id).inputs.1.id) ∧
    ((g.node id).inputs.2.id ∈ todo ∨ Known leaves r.interior (g.node id).inputs.2.id)
  nodup : r.interior.Nodup

/-- A node taken off the stack once it is known. -/
lemma Traversal.pop {leaves todo more : List ℕ} {root id : ℕ} {r r' : Reached}
    (h : Traversal g leaves root (id :: todo) r)
    (hl : r'.leaves = r.leaves) (hin : r'.interior = r.interior) (hid : Known leaves r.interior id)
    (hvi : ∀ i ∈ r'.visited, i ∈ leaves ∨ i ∈ r.interior) (hke : ∀ i ∈ r.visited, i ∈ r'.visited)
    (hmo : more = todo) : Traversal g leaves root more r' := by
  subst hmo
  have hst : ∀ j, j ∈ id :: more ∨ Known leaves r.interior j → j ∈ more ∨
      Known leaves r'.interior j := by
    rw [hin]
    rintro j (hj | hj)
    · rcases mem_cons.1 hj with rfl | hj
      · exact .inr hid
      · exact .inl hj
    · exact .inr hj
  refine ⟨hl.trans h.cut, fun i hi => h.waiting i (.tail _ hi),
    hst _ h.start, ?_, ?_, hin ▸ h.nodup⟩
  · rwa [hin]
  · rw [hin] at *
    intro i hi
    obtain ⟨hv, hlt, hnl, hg, h1, h2⟩ := h.interior i hi
    exact ⟨hke i hv, hlt, hnl, hg, hst _ h1, hst _ h2⟩

/-- A gate taken off the stack. -/
lemma Traversal.gate {leaves todo : List ℕ} {root id : ℕ} {r : Reached}
    (h : Traversal g leaves root (id :: todo) r) (hg : g.Wf)
    (hl : id ∉ leaves) (hnew : id ∉ r.visited) (hga : (g.node id).kind.isGate = true) :
    Traversal g leaves root ((g.node id).inputs.2.id :: (g.node id).inputs.1.id :: todo)
    (r.gate id) := by
  have hid := h.waiting id (.head _)
  obtain ⟨h1, h2⟩ := (hg.canonical id hid hga).older
  have hk : ∀ j, Known leaves r.interior j → Known leaves (r.gate id).interior j := by
    rintro j (hj | hj | hj)
    · exact .inl hj
    · exact .inr (.inl hj)
    · exact .inr (.inr (mem_append_left _ hj))
  have hst : ∀ j, j ∈ id :: todo ∨ Known leaves r.interior j →
      j ∈ (g.node id).inputs.2.id :: (g.node id).inputs.1.id :: todo ∨
      Known leaves (r.gate id).interior j := by
    rintro j (hj | hj)
    · rcases mem_cons.1 hj with rfl | hj
      · exact .inr (.inr (.inr (mem_append_right _ (.head _))))
      · exact .inl (.tail _ (.tail _ hj))
    · exact .inr (hk j hj)
  refine ⟨h.cut, ?_, hst _ h.start, ?_, ?_, ?_⟩
  · refine forall_mem_cons.2 ⟨h2.trans hid, forall_mem_cons.2 ⟨h1.trans hid, fun i hi => ?_⟩⟩
    exact h.waiting i (.tail _ hi)
  · intro i hi
    rcases mem_cons.1 hi with rfl | hi
    · exact .inr (mem_append_right _ (.head _))
    · rcases h.visited i hi with hi | hi
      · exact .inl hi
      · exact .inr (mem_append_left _ hi)
  · intro i hi
    rcases mem_append.1 hi with hi | hi
    · obtain ⟨hv, hlt, hnl, hgi, hi1, hi2⟩ := h.interior i hi
      exact ⟨.tail _ hv, hlt, hnl, hgi, hst _ hi1, hst _ hi2⟩
    · obtain rfl := mem_singleton.1 hi
      exact ⟨.head _, hid, hl, hga, .inl (.tail _ (.head _)), .inl (.head _)⟩
  · refine nodup_append.2 ⟨h.nodup, pairwise_singleton _ _, fun i hi j hj heq => ?_⟩
    obtain rfl := mem_singleton.1 hj
    exact hnew (h.interior j (heq ▸ hi)).1

lemma collectLoop_yields (hg : g.Wf) {leaves : List ℕ} {root : ℕ} (todo : List ℕ) (r : Reached)
    (h : Traversal g leaves root todo r) :
    Yields (collectLoop g leaves limits false todo r) fun r' => Traversal g leaves root [] r' := by
  induction todo, r using collectLoop.induct g limits with
  | case1 r =>
    rw [collectLoop]
    exact .pure h
  | case2 r id todo ihskip ihleaf ihsource ihgate =>
    rw [collectLoop]
    refine (spend_yields 1).bind fun _ _ => .ite (fun hold => ?_) fun hnew => ?_
    · refine ihskip (h.pop rfl rfl ?_ h.visited (fun _ hi => hi) rfl)
      rcases hold with rfl | hold
      · exact .inl rfl
      · exact .inr (h.visited id hold)
    · rw [not_or] at hnew
      split
      · exact .throw
      next hro =>
        refine .ite (fun hl => ?_) fun hl => .ite (fun hsrc => ?_) fun hsrc => ?_
        · refine ihleaf hro (h.pop rfl rfl (.inr (.inl hl)) ?_ (fun _ hi => .tail _ hi) rfl)
          intro i hi
          rcases mem_cons.1 hi with rfl | hi
          · exact .inl hl
          · exact h.visited i hi
        · exact .throw
        · exact ihgate hro (h.gate hg hl hnew.2
            (hg.gate_of_ne (h.waiting id (.head _)) hnew.1 hsrc))

lemma mem_sortIds {ids : List ℕ} {id : ℕ} : id ∈ sortIds ids ↔ id ∈ ids := mem_insertionSort _

lemma sortIds_sorted {ids : List ℕ} (h : ids.Nodup) : (sortIds ids).Pairwise (· < ·) := by
  have hle := pairwise_insertionSort (· ≤ ·) ids
  have hnd := (perm_insertionSort (· ≤ ·) ids).nodup_iff.2 h
  exact (hle.and hnd).imp fun h => lt_of_le_of_ne h.1 h.2

lemma collectWindow_yields (hg : g.Wf) (root : Xsignal) (leaves : List ℕ) :
    Yields (collectWindow g root leaves limits) fun w =>
    w.Ok g ∧ w.root = root ∧ w.leaves = leaves := by
  refine .ite (fun hv => ?_) fun _ => .throw
  have hst : Traversal g leaves root.id [root.id] { leaves := leaves } :=
    ⟨rfl, forall_mem_singleton.2 hv.2.1, .inl (.head _), nofun, nofun, nodup_nil⟩
  refine (collectLoop_yields hg _ _ hst).bind fun r hr => .ite (fun _ => .throw) fun _ => .pure ?_
  have hk : ∀ j, j ∈ ([] : List ℕ) ∨ Known leaves r.interior j →
      Known r.leaves (sortIds r.interior) j := by
    rw [hr.cut]
    rintro j (hj | hj | hj | hj)
    · nomatch hj
    · exact .inl hj
    · exact .inr (.inl hj)
    · exact .inr (.inr (mem_sortIds.2 hj))
  refine ⟨⟨hk _ hr.start, hv.2.1, ?_, fun id hid => ?_, sortIds_sorted hr.nodup⟩, rfl, hr.cut⟩
  · rw [hr.cut]
    exact hv.2.2.2
  · obtain ⟨-, hlt, hnl, hga, h1, h2⟩ := hr.interior id (mem_sortIds.1 hid)
    refine ⟨hlt, ?_, hga, hk _ h1, hk _ h2⟩
    rwa [hr.cut]

/-! ## Simulation -/

lemma getLsbD_variableWords : ∀ j < 6, ∀ b < 64,
    (variableWords.getD j 0).getLsbD b = b.testBit j := by
  decide

lemma getLsbD_leafWord (word j : ℕ) {b : ℕ} (hb : b < 64) :
    (leafWord word j).getLsbD b = (64 * word + b).testBit j := by
  have hbit := Nat.testBit_two_pow_mul_add word (i := 6) (b := b) hb j
  rw [hbit, leafWord]
  split
  · exact getLsbD_variableWords j ‹_› b hb
  · split
    next hwo => rw [BitVec.getLsbD_allOnes, decide_eq_true hb, hwo]
    next hwo =>
      rw [Bool.eq_false_iff.2 hwo]
      exact BitVec.getLsbD_zero

lemma getLsbD_readWord (values : ℕ → Word) (s : Xsignal) {b : ℕ} (hb : b < 64) :
    (readWord values s).getLsbD b = s.value fun i => (values i).getLsbD b := by
  rw [readWord, Xsignal.value]
  split
  next hinv => rw [BitVec.getLsbD_not, decide_eq_true hb, hinv, Bool.true_and, Bool.xor_true]
  next hinv => rw [Bool.eq_false_iff.2 hinv, Bool.xor_false]

lemma getLsbD_gateWord (values : ℕ → Word) {node : Node}
    (hg : node.kind.isGate = true) {b : ℕ} (hb : b < 64) :
    (gateWord values node).getLsbD b = node.kind.op
    (node.inputs.1.value fun i => (values i).getLsbD b)
      (node.inputs.2.value fun i => (values i).getLsbD b) := by
  rw [gateWord]
  split
  next hand =>
    rw [BitVec.getLsbD_and, getLsbD_readWord _ _ hb, getLsbD_readWord _ _ hb, hand]
    rfl
  next hand =>
    have hxor : node.kind = .xorGate := by
      cases hk : node.kind with
      | constant => rw [hk] at hg; cases hg
      | source => rw [hk] at hg; cases hg
      | andGate => exact absurd hk hand
      | xorGate => rfl
    rw [BitVec.getLsbD_xor, getLsbD_readWord _ _ hb, getLsbD_readWord _ _ hb, hxor]
    rfl

lemma simulateWord_append (leaves pre : List ℕ) (x word : ℕ) :
    simulateWord g leaves (pre ++ [x]) word =
    Function.update (simulateWord g leaves pre word) x
    (gateWord (simulateWord g leaves pre word) (g.node x)) :=
  foldl_append

/-- Values of the nodes above a cut, whatever the nodes of the cut have. -/
def Xag.Above (g : Xag) (leaves : List ℕ) (env val : ℕ → Bool) : Prop :=
  ∀ id < g.size, id ∉ leaves → val id = (g.node id).value env val

/-- One row of the simulation is the value of every gate when the cut has the row. -/
lemma getLsbD_simulateWord (hg : g.Wf) {w : XagWindow} (hw : w.Ok g) {env val : ℕ → Bool}
    (hval : g.Above w.leaves env val)
    {word b : ℕ} (hb : b < 64) (hrow : ∀ id ∈ w.leaves, val id =
      (64 * word + b).testBit (w.leaves.idxOf id)) {id : ℕ}
    (hid : Known w.leaves w.interior id) :
    (simulateWord g w.leaves w.interior word id).getLsbD b = val id := by
  suffices hpre : ∀ pre post, w.interior = pre ++ post → ∀ id, Known w.leaves pre id →
      (simulateWord g w.leaves pre word id).getLsbD b = val id from
    hpre w.interior [] (append_nil _).symm id hid
  intro pre
  -- the gates before a gate are all that it can read
  induction pre using reverseRecOn with
  | nil =>
    rintro post - id (rfl | hid | hid)
    · have h0 : (0 : ℕ) ∉ w.leaves := fun h => (hw.leaves.1 0 h).1 rfl
      rw [simulateWord, foldl_nil, leafValues, if_neg h0, hval 0 hg.pos h0, Node.value,
        (hg.constant 0 hg.pos).2 rfl]
      exact BitVec.getLsbD_zero
    · rw [simulateWord, foldl_nil, leafValues, if_pos hid, getLsbD_leafWord _ _ hb, hrow id hid]
    · cases hid
  | append_singleton pre x ih =>
    intro post hsp id hid
    have hsp' : w.interior = pre ++ x :: post := by rw [hsp, append_assoc, singleton_append]
    have hx : x ∈ w.interior := by
      rw [hsp']
      exact mem_append_right _ (.head _)
    rw [simulateWord_append]
    rcases eq_or_ne id x with rfl | hne
    · obtain ⟨hlt, hnl, hga, h1, h2⟩ := hw.interior id hx
      obtain ⟨ho1, ho2⟩ := (hg.canonical id hlt hga).older
      have hbe : ∀ j, j < id → Known w.leaves w.interior j → Known w.leaves pre j := by
        rintro j hj (hk | hk | hk)
        · exact .inl hk
        · exact .inr (.inl hk)
        · rw [hsp'] at hk
          rcases mem_append.1 hk with hk | hk
          · exact .inr (.inr hk)
          · have hsrt := hw.sorted
            rw [hsp'] at hsrt
            rcases mem_cons.1 hk with rfl | hk
            · exact absurd hj (lt_irrefl _)
            · exact absurd hj ((pairwise_cons.1 (pairwise_append.1 hsrt).2.1).1 j hk).not_gt
      rw [update_self, getLsbD_gateWord _ hga hb, hval id hlt hnl, Xag.Node.value_gate hga,
        Xsignal.value, Xsignal.value,
        ih _ hsp' _ (hbe _ ho1 h1), ih _ hsp' _ (hbe _ ho2 h2)]
      rfl
    · rw [update_of_ne hne]
      refine ih _ hsp' id ?_
      rcases hid with hid | hid | hid
      · exact .inl hid
      · exact .inr (.inl hid)
      · exact .inr (.inr ((mem_append.1 hid).resolve_right fun h => hne (mem_singleton.1 h)))

/-! ## Tables -/

lemma get_maskTail {n x : ℕ} (hx : x < 2 ^ n) (words : List Word) :
    TruthTable.get ⟨n, maskTail n words⟩ x = TruthTable.get ⟨n, words⟩ x := by
  rw [maskTail]
  split
  next hsm =>
    have hx64 := hx.trans hsm
    rw [TruthTable.get, TruthTable.get, Nat.div_eq_of_lt hx64, Nat.mod_eq_of_lt hx64]
    cases words with
    | nil => rfl
    | cons word words =>
      rw [modify_zero_cons, getD_cons_zero, getD_cons_zero, BitVec.getLsbD_and]
      rw [Lnet.getLsbD_mask hsm, decide_eq_true hx, Bool.and_true]
  · rfl

lemma get_setRow {t : TruthTable} {x : ℕ} (hx : x / 64 < t.words.length) (value : Bool) (y : ℕ) :
    (setRow t x value).get y = if y = x then value else t.get y := by
  have hb : y % 64 < 64 := Nat.mod_lt _ (by omega)
  have hma : (1#64 <<< (x % 64)).getLsbD (y % 64) = decide (y % 64 = x % 64) := by
    rw [← BitVec.twoPow_eq, BitVec.getLsbD_twoPow, decide_eq_true (Nat.mod_lt _ (by omega))]
    exact decide_eq_decide.2 eq_comm
  rw [TruthTable.get, TruthTable.get, setRow, getD_eq_getElem?_getD,
    getD_eq_getElem?_getD, getElem?_modify]
  by_cases hwo : x / 64 = y / 64
  · rw [getElem?_eq_getElem (hwo ▸ hx)]
    have hiff : y = x ↔ y % 64 = x % 64 := ⟨fun h => h ▸ rfl, fun h => by omega⟩
    simp only [Option.map_eq_map, Option.map_some, Option.getD_some, if_pos hwo]
    cases value with
    | true =>
      rw [if_pos rfl]
      split <;> simp_all
    | false =>
      rw [if_neg Bool.false_ne_true, BitVec.getLsbD_and, BitVec.getLsbD_not, hma]
      split <;> simp_all
  · have hne : y ≠ x := fun h => hwo (h ▸ rfl)
    simp only [if_neg hwo, if_neg hne, Option.map_eq_map, Option.map_id']

lemma lt_wordCount {n x : ℕ} (hx : x < 2 ^ n) : x / 64 < wordCount n := by
  rw [wordCount]
  omega

/-- The table of a window is its root over its cut. -/
lemma windowFunction_yields (hg : g.Wf) (w : XagWindow) :
    Yields (windowFunction g w) fun t => ValidCut g w.leaves ∧
    ∀ env val, g.Above w.leaves env val → t.get (rowIndex w.leaves val) = w.root.value val := by
  refine .ite (fun _ => ?_) fun _ => .throw
  refine (collectWindow_yields hg _ _).bind fun checked hch => .ite (fun hin => ?_) fun _ => .throw
  obtain ⟨hok, hr, hl⟩ := hch
  rw [← hr, ← hl, ← hin]
  refine (Yields.foldlM (Q := fun pre words =>
    words = pre.map fun word => readWord (simulateWord g checked.leaves checked.interior word)
          checked.root) rfl fun pre word post _ words hwo =>
      (spend_yields _).bind fun _ _ => .pure ?_).bind fun words hwo =>
      Yields.pure ⟨hok.leaves, fun env val hval => ?_⟩
  · rw [hwo, map_append]
    rfl
  · have hrow := rowIndex_lt checked.leaves val
    have hmod : rowIndex checked.leaves val % 64 < 64 := Nat.mod_lt _ (by omega)
    rw [get_maskTail hrow, TruthTable.get, hwo, getD_eq_getElem?_getD, getElem?_map,
      getElem?_range (lt_wordCount hrow), Option.map_some, Option.getD_some,
      getLsbD_readWord _ _ hmod, Xsignal.value,
      Xsignal.value, getLsbD_simulateWord hg hok hval hmod ?_ hok.root]
    intro id hid
    rw [Nat.div_add_mod, testBit_rowIndex, getElem?_idxOf hid]
    rfl

lemma liftFunction_yields (table : TruthTable) (inputs basis : List ℕ) :
    Yields (liftFunction table inputs basis) fun t =>
    ∀ val : ℕ → Bool, t.get (rowIndex basis val) = table.get (rowIndex inputs val) := by
  refine .ite (fun hv => ?_) fun _ => .throw
  obtain ⟨-, -, -, -, -, -, hsub⟩ := hv
  refine (Yields.foldlM (Q := fun pre t => t.words.length = wordCount basis.length ∧
    ∀ x ∈ pre, t.get x = table.get (rowIndex (inputs.map basis.idxOf) x.testBit))
    ⟨length_replicate, nofun⟩
      fun pre x post hsp t ht => (spend_yields _).bind fun _ _ => Yields.pure ?_).mono
        fun t ht val => ?_
  · have hx : x < 2 ^ basis.length := by
      rw [← mem_range, hsp]
      exact mem_append_right _ (.head _)
    refine ⟨(length_modify _ _ _).trans ht.1, fun y hy => ?_⟩
    rw [get_setRow (by rw [ht.1]; exact lt_wordCount hx)]
    split
    next heq => rw [heq]
    next hne => exact ht.2 y ((mem_append.1 hy).resolve_right fun h => hne (mem_singleton.1 h))
  · rw [ht.2 _ (mem_range.2 (rowIndex_lt basis val)), rowIndex_map]
    congr 1
    exact rowIndex_restrict fun id hid => getElem?_idxOf (hsub id hid)

/-- The table of a root over a basis. -/
lemma basisFunction_yields (hg : g.Wf) (root : Xsignal) (basis : List ℕ) :
    Yields (basisFunction g root basis limits) fun t =>
    ValidCut g basis ∧ ∀ env, g.eval env root = t.get (rowIndex basis (g.valueAt env)) := by
  have hsub : Yields (collectSubwindow g root basis limits) fun w =>
      ValidCut g basis ∧ w.root = root :=
    Yields.ite (fun hv => .bind (P := fun _ => True) (fun _ _ _ => trivial) fun leaves _ =>
      (collectWindow_yields hg root _).mono fun w hw => ⟨hv.2.2.2, hw.2.1⟩) fun _ => .throw
  refine hsub.bind fun w hw => (windowFunction_yields hg w).bind fun table hta =>
    (liftFunction_yields table w.leaves basis).mono fun t ht => ⟨hw.1, fun env => ?_⟩
  rw [ht, hta.2 env _ fun id hid _ => hg.valueAt env hid, hw.2]
  rfl

end

end LiveHD.Usyn
