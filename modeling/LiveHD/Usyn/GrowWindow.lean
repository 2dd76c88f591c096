import LiveHD.Usyn.Supply
import LiveHD.Usyn.Window

/-!
# Growing a window

`grow_window` of `pass/usyn/xag.cpp`: from the root alone, the leaf that needs the fewest new
leaves is replaced by its inputs while the limits allow it.  The cut that is left is reached from
the root on every path, so that the traversal collects a window unless its work runs out.
-/

namespace LiveHD.Usyn

open List Function WorkM

/-! ## A forced cut -/

/-- The values of the nodes when the cut has the bits of a row. -/
def Xag.forced (g : Xag) (leaves : List ℕ) (row : ℕ) (env : ℕ → Bool) : ℕ → Bool :=
  (List.range g.size).foldl (fun val id =>
    update val id (if id ∈ leaves then row.testBit (leaves.idxOf id)
      else (g.node id).value env val)) fun _ => false

variable {g : Xag} {leaves seen : List ℕ} {env : ℕ → Bool}

lemma Xag.Wf.forced (hg : g.Wf) (leaves : List ℕ) (row : ℕ) (env : ℕ → Bool) {id : ℕ}
    (hid : id < g.size) : g.forced leaves row env id =
      if id ∈ leaves then row.testBit (leaves.idxOf id)
      else (g.node id).value env (g.forced leaves row env) := by
  rw [Xag.forced]
  generalize hn : g.size = n at hid
  have hle := hn.ge
  clear hn
  induction n with
  | zero => cases hid
  | succ n ih =>
    rw [range_succ, foldl_append, foldl_cons, foldl_nil]
    generalize (range n).foldl _ _ = val at ih ⊢
    -- the nodes that a node reads have their values already
    have hrd : ∀ v, (g.node id).value env (update val n v) = (g.node id).value env val := fun v =>
      Xag.value_congr (hg.canonical id (hid.trans_le hle)) env fun i hi =>
      update_of_ne (by omega) _ _
    rw [hrd]
    rcases Nat.lt_succ_iff_lt_or_eq.1 hid with hlt | rfl
    · rw [update_of_ne hlt.ne, ih hlt (by omega)]
    · exact update_self _ _ _

lemma rowIndex_forced (hg : g.Wf) (hcut : ValidCut g leaves) {row : ℕ}
    (hrow : row < 2 ^ leaves.length) (env : ℕ → Bool) :
    rowIndex leaves (g.forced leaves row env) = row := by
  refine Nat.eq_of_testBit_eq fun i => ?_
  rw [testBit_rowIndex]
  by_cases hi : i < leaves.length
  · have hmem := getElem_mem hi
    rw [getElem?_eq_getElem hi, Option.any_some, hg.forced _ _ _ (hcut.1 _ hmem).2,
      if_pos hmem, hcut.2.idxOf_getElem]
  · rw [getElem?_eq_none (not_lt.1 hi)]
    exact (Nat.testBit_lt_two_pow (hrow.trans_le
      (Nat.pow_le_pow_right (by decide) (not_lt.1 hi)))).symm

/-! ## Growth -/

def Node.inputIds (n : Node) : List ℕ := [n.inputs.1.id, n.inputs.2.id]

section

variable (g : Xag) (limits : WindowLimits) (leaves seen : List ℕ)

/-- The inputs of a leaf that are new. -/
def newInputs (id : ℕ) : List ℕ := (g.node id).inputIds.filter fun i => i ≠ 0 ∧ i ∉ seen

def growCost (id : ℕ) : ℕ := (newInputs g seen id).length

def CanGrow (id : ℕ) : Prop := (g.node id).kind ≠ .source ∧
    leaves.length - 1 + growCost g seen id ≤ limits.inputs ∧
  seen.length + growCost g seen id ≤ limits.nodes

instance (id : ℕ) : Decidable (CanGrow g limits leaves seen id) :=
  inferInstanceAs (Decidable (_ ∧ _ ∧ _))

/-- The better of the best leaf so far and the next one: the cheaper, or else the one with the
larger id. -/
def betterLeaf (best : Option ℕ) (id : ℕ) : Option ℕ :=
  if CanGrow g limits leaves seen id ∧
      ∀ b ∈ best, growCost g seen id < growCost g seen b ∨
      growCost g seen id = growCost g seen b ∧ b < id then some id
  else best

def bestLeaf : Option ℕ := leaves.foldl (betterLeaf g limits leaves seen) none

end

lemma bestLeaf_eq_some {limits : WindowLimits} {id : ℕ}
    (h : bestLeaf g limits leaves seen = some id) :
    id ∈ leaves ∧ CanGrow g limits leaves seen id := by
  have hfo : ∀ (l : List ℕ) (best : Option ℕ),
      (∀ b ∈ best, b ∈ leaves ∧ CanGrow g limits leaves seen b) → l ⊆ leaves →
      ∀ b ∈ l.foldl (betterLeaf g limits leaves seen) best, b ∈ leaves ∧
      CanGrow g limits leaves seen b := by
    intro l
    induction l with
    | nil => exact fun best hbe _ => hbe
    | cons i l ih =>
      intro best hbe hl
      refine ih _ ?_ fun j hj => hl (.tail _ hj)
      rw [betterLeaf]
      split
      next hi =>
        rintro b ⟨⟩
        exact ⟨hl (.head _), hi.1⟩
      · exact hbe
  exact hfo leaves none nofun (fun _ h => h) id h

lemma length_dedup_newInputs (g : Xag) (seen : List ℕ) (id : ℕ) :
    (newInputs g seen id).dedup.length ≤ growCost g seen id :=
  (dedup_sublist _).length_le

/-- The loop of `grow_window`, which charges one step for each leaf it looks at. -/
def growLoop (g : Xag) (limits : WindowLimits) (leaves seen : List ℕ) : WorkM (List ℕ) := do
  leaves.foldlM (fun _ _ => spend 1) ()
  match _h : bestLeaf g limits leaves seen with
  | none => pure leaves
  | some id =>
    let new := (newInputs g seen id).dedup
    growLoop g limits (leaves.erase id ++ new) (new ++ seen)
termination_by 2 * (limits.nodes - seen.length) + leaves.length
decreasing_by
  obtain ⟨hid, -, -, hroom⟩ := bestLeaf_eq_some _h
  have hnew := length_dedup_newInputs g seen id
  have hpos := length_pos_of_mem hid
  rw [length_append, length_append, length_erase_of_mem hid]
  omega

def growWindow (g : Xag) (root : Xsignal) (limits : WindowLimits) : WorkM XagWindow :=
  if limits.Valid ∧ root.id < g.size then
    if root.id = 0 then collectWindow g root [] limits
    else do
      let leaves ← growLoop g limits [root.id] [root.id]
      collectWindow g root (sortIds leaves) limits
  else throw .invalid

/-! ## The cut that grows -/

/-- Seen nodes that are no leaves were expanded, and only through them the others are reached. -/
structure Frontier (g : Xag) (root : ℕ) (leaves seen : List ℕ) : Prop where
  sub : leaves ⊆ seen
  expanded : ∀ id ∈ seen, id ∉ leaves → (g.node id).kind ≠ .source ∧
    ∀ i ∈ (g.node id).inputIds, i = 0 ∨ i ∈ seen
  reached : ∀ P : ℕ → Prop, P root →
    (∀ id ∈ seen, id ∉ leaves → P id → ∀ i ∈ (g.node id).inputIds, i = 0 ∨ P i) → ∀ id ∈ seen, P id

lemma mem_newInputs {id i : ℕ} : i ∈ newInputs g seen id ↔
    i ∈ (g.node id).inputIds ∧ i ≠ 0 ∧ i ∉ seen := by
  rw [newInputs, mem_filter, decide_eq_true_iff]

lemma input_seen {id i : ℕ} (hi : i ∈ (g.node id).inputIds) :
    i = 0 ∨ i ∈ (newInputs g seen id).dedup ++ seen := by
  rw [mem_append, mem_dedup, mem_newInputs]
  tauto

/-- Replacing a leaf by its inputs. -/
lemma Frontier.expand {root id : ℕ} (h : Frontier g root leaves seen)
    (hnd : leaves.Nodup) (hid : id ∈ leaves)
    (hk : (g.node id).kind ≠ .source) :
    Frontier g root (leaves.erase id ++ (newInputs g seen id).dedup)
    ((newInputs g seen id).dedup ++ seen) := by
  have hnew : ∀ i ∈ seen, i ∉ (newInputs g seen id).dedup := fun i hi hmem =>
    (mem_newInputs.1 (mem_dedup.1 hmem)).2.2 hi
  have hold : ∀ i ∈ seen, i ∉ leaves.erase id ++ (newInputs g seen id).dedup ↔
      i = id ∨ i ∉ leaves := by
    intro i hi
    rw [mem_append, hnd.mem_erase_iff]
    tauto
  refine ⟨fun i hi => ?_, fun i hi hl => ?_, fun P hr hst => ?_⟩
  · rcases mem_append.1 hi with hi | hi
    · exact mem_append_right _ (h.sub (mem_of_mem_erase hi))
    · exact mem_append_left _ hi
  · have hse := (mem_append.1 hi).resolve_left fun hi => hl (mem_append_right _ hi)
    rcases (hold i hse).1 hl with rfl | hl
    · exact ⟨hk, fun j hj => input_seen hj⟩
    · exact ⟨(h.expanded i hse hl).1,
        fun j hj => ((h.expanded i hse hl).2 j hj).imp_right (mem_append_right _)⟩
  · have hse : ∀ i ∈ seen, P i := h.reached P hr fun i hi hl =>
      hst i (mem_append_right _ hi) ((hold i hi).2 (.inr hl))
    intro i hi
    rcases mem_append.1 hi with hi | hi
    · obtain ⟨hin, hne, -⟩ := mem_newInputs.1 (mem_dedup.1 hi)
      exact (hst id (mem_append_right _ (h.sub hid)) ((hold id (h.sub hid)).2 (.inl rfl))
        (hse id (h.sub hid)) i hin).resolve_left hne
    · exact hse i hi

lemma work_spend_ends (c : ℕ) (w : Work) :
    Ends Yields.anyArena (· = .searchExhausted) (spend c) w fun _ _ => True := by
  refine ⟨(spend_yields c).builds w, fun e he => ?_⟩
  rw [spend_run] at he
  split at he <;> cases he
  rfl

/-- The traversal stops at the cut on every path, and visits all of it. -/
lemma collectLoop_ends {limits : WindowLimits} {root : ℕ} (h : Frontier g root leaves seen)
    (todo : List ℕ) (r : Reached) (w : Work)
    (hto : ∀ id ∈ todo, id = 0 ∨ id ∈ seen) (hst : root = 0 ∨ root ∈ r.visited ∨ root ∈ todo)
    (hvi : ∀ id ∈ r.visited, id ∉ leaves → ∀ i ∈ (g.node id).inputIds, i = 0 ∨
      i ∈ r.visited ∨ i ∈ todo) :
    Ends Yields.anyArena (· = .searchExhausted)
    (collectLoop g leaves limits false todo r) w fun _ r' =>
      (root = 0 ∨ root ∈ r'.visited) ∧ ∀ id ∈ r'.visited, id ∉ leaves →
      ∀ i ∈ (g.node id).inputIds, i = 0 ∨ i ∈ r'.visited := by
  induction todo, r using collectLoop.induct g limits generalizing w with
  | case1 r =>
    rw [collectLoop]
    simp only [not_mem_nil, or_false] at hst hvi
    exact .pure trivial ⟨hst, hvi⟩
  | case2 r id todo ihskip ihleaf ihsource ihgate =>
    have hke : ∀ visited' todo' : List ℕ, (id = 0 ∨ id ∈ visited') →
        r.visited ⊆ visited' → todo ⊆ todo' →
        ∀ j, j = 0 ∨ j ∈ r.visited ∨ j ∈ id :: todo → j = 0 ∨ j ∈ visited' ∨ j ∈ todo' := by
      rintro visited' todo' hid hv ht j (hj | hj | hj)
      · exact .inl hj
      · exact .inr (.inl (hv hj))
      · rcases mem_cons.1 hj with rfl | hj
        · exact hid.imp_right .inl
        · exact .inr (.inr (ht hj))
    have hsub : r.visited ⊆ id :: r.visited := fun j hj => .tail _ hj
    have hr : ∀ j ∈ todo, j = 0 ∨ j ∈ seen := fun j hj => hto j (.tail _ hj)
    rw [collectLoop]
    refine (work_spend_ends 1 w).bind fun w' _ _ _ _ => .ite (fun hold => ?_) fun hnew => ?_
    · have hsk := hke _ todo hold (fun _ h => h) (fun _ h => h)
      exact ihskip w' hr (hsk _ hst) fun i hi hl j hj => hsk j (hvi i hi hl j hj)
    · rw [not_or] at hnew
      have hse := (hto id (.head _)).resolve_left hnew.1
      split
      · exact .throw trivial rfl
      next hro =>
        refine .ite (fun hl => ?_) fun hl => ?_
        · have hma := hke (id :: r.visited) todo (.inr (.head _)) hsub fun _ h => h
          refine ihleaf hro w' hr (hma _ hst) fun i hi hnl j hj => ?_
          rcases mem_cons.1 hi with rfl | hi
          · exact absurd hl hnl
          · exact hma j (hvi i hi hnl j hj)
        · obtain ⟨hsrc, hin⟩ := h.expanded id hse hl
          rw [if_neg hsrc]
          have hg := hke (id :: r.visited)
            ((g.node id).inputs.2.id :: (g.node id).inputs.1.id :: todo) (.inr (.head _)) hsub
            fun _ h => .tail _ (.tail _ h)
          refine ihgate hro w' ?_ (hg _ hst) fun i hi hnl j hj => ?_
          · exact forall_mem_cons.2 ⟨hin _ (.tail _ (.head _)),
              forall_mem_cons.2 ⟨hin _ (.head _), hr⟩⟩
          · rcases mem_cons.1 hi with rfl | hi
            · refine .inr (.inr ?_)
              rcases mem_cons.1 hj with rfl | hj
              · exact .tail _ (.head _)
              · rw [mem_singleton.1 hj]
                exact .head _
            · exact hg j (hvi i hi hnl j hj)

lemma collectWindow_ends {limits : WindowLimits} (hg : g.Wf) {root : Xsignal}
    (h : Frontier g root.id leaves seen) (w : Work)
    (hv : limits.Valid ∧ root.id < g.size ∧ leaves.length ≤ limits.inputs ∧ ValidCut g leaves)
    (hro : root.id = 0 ∨ root.id ∈ seen)
    (hem : root.id = 0 → seen = []) :
    Ends Yields.anyArena (· = .searchExhausted) (collectWindow g root leaves limits) w fun _ w =>
    w.leaves.length ≤ limits.inputs := by
  refine ⟨((collectWindow_yields hg root leaves).builds w).mono fun _ win _ _ hw => hw.2.2 ▸
    hv.2.2.1, ?_⟩
  rw [collectWindow, Xag.collect, if_pos hv]
  refine ((collectLoop_ends h [root.id] _ w (forall_mem_singleton.2 hro) (.inr (.inr (.head _)))
    fun _ h => absurd h not_mem_nil).bind (R := fun _ _ => True) fun w' r _ _ hr => ?_).stops
  have hall : ∀ id ∈ leaves, id ∈ r.visited := by
    rcases hr.1 with h0 | hst
    · exact fun id hid => nomatch hem h0 ▸ h.sub hid
    · exact fun id hid => h.reached (· ∈ r.visited) hst
        (fun i _ hnl hi => hr.2 i hi hnl) id (h.sub hid)
  rw [if_neg]
  · exact .pure trivial trivial
  · rintro ⟨id, hid, hnot⟩
    exact hnot (hall id hid)

/-- A cut while it grows. -/
structure Growing (g : Xag) (root : ℕ) (limits : WindowLimits) (leaves seen : List ℕ) : Prop where
  frontier : Frontier g root leaves seen
  nodes : ∀ id ∈ seen, id ≠ 0 ∧ id < g.size
  nodup : leaves.Nodup
  room : leaves.length ≤ limits.inputs
  root : root ∈ seen

lemma growLoop_ends {limits : WindowLimits} (hg : g.Wf) {root : ℕ} (leaves seen : List ℕ) (w : Work)
    (h : Growing g root limits leaves seen) :
    Ends Yields.anyArena (· = .searchExhausted) (growLoop g limits leaves seen) w
      fun _ leaves' => ∃ seen', Growing g root limits leaves' seen' := by
  induction leaves, seen using growLoop.induct g limits generalizing w with
  | _ leaves seen ih =>
    rw [growLoop]
    have hsp := Ends.foldlM (Q := fun _ _ _ => True) (f := fun _ (_ : ℕ) => spend 1) (b := ()) []
      leaves (s := w) trivial trivial
      fun _ _ _ _ w' _ _ _ _ => work_spend_ends 1 w'
    refine hsp.bind fun w' _ _ _ _ => ?_
    split
    · exact .pure trivial ⟨seen, h⟩
    next id hbe =>
      obtain ⟨hid, hk, hro, -⟩ := bestLeaf_eq_some hbe
      have hse := h.frontier.sub hid
      have hnew := length_dedup_newInputs g seen id
      have hga := hg.gate_of_ne (h.nodes id hse).2 (h.nodes id hse).1 hk
      obtain ⟨h1, h2⟩ := (hg.canonical id (h.nodes id hse).2 hga).older
      refine ih id hbe w' ⟨h.frontier.expand h.nodup hid hk, fun i hi => ?_, ?_, ?_,
        mem_append_right _ h.root⟩
      · rcases mem_append.1 hi with hi | hi
        · obtain ⟨hin, hne, -⟩ := mem_newInputs.1 (mem_dedup.1 hi)
          refine ⟨hne, ?_⟩
          rcases mem_cons.1 hin with rfl | hin
          · exact h1.trans (h.nodes id hse).2
          · rw [mem_singleton.1 hin]
            exact h2.trans (h.nodes id hse).2
        · exact h.nodes i hi
      · refine nodup_append'.2 ⟨h.nodup.erase id, nodup_dedup _, fun i hi hmem => ?_⟩
        exact (mem_newInputs.1 (mem_dedup.1 hmem)).2.2 (h.frontier.sub (mem_of_mem_erase hi))
      · rw [length_append, length_erase_of_mem hid]
        omega

lemma growWindow_ends {limits : WindowLimits} (hg : g.Wf) (root : Xsignal) (w : Work)
    (hli : limits.Valid) (hr : root.id < g.size) :
    Ends Yields.anyArena (· = .searchExhausted) (growWindow g root limits) w fun _ w =>
    w.leaves.length ≤ limits.inputs := by
  rw [growWindow, if_pos ⟨hli, hr⟩]
  refine .ite (fun h0 => ?_) fun hne => ?_
  · exact collectWindow_ends hg (⟨fun _ h => h, nofun, fun _ _ _ => nofun⟩ : Frontier g root.id _
      []) w ⟨hli, hr, Nat.zero_le _, nofun, nodup_nil⟩ (.inl h0)
      fun _ => rfl
  · have hst : Growing g root.id limits [root.id] [root.id] := by
      refine ⟨⟨fun _ h => h, fun _ h hnot => absurd h hnot,
        fun P hP _ => forall_mem_singleton.2 hP⟩, ?_, nodup_singleton _, hli.1, .head _⟩
      exact forall_mem_singleton.2 ⟨hne, hr⟩
    refine (growLoop_ends hg _ _ w hst).bind fun w' leaves _ _ hl => ?_
    obtain ⟨seen, h⟩ := hl
    have hfr : Frontier g root.id (sortIds leaves) seen := by
      obtain ⟨hsub, hexp, hre⟩ := h.frontier
      exact ⟨fun i hi => hsub (mem_sortIds.1 hi), by
        simpa only [mem_sortIds] using hexp, by simpa only [mem_sortIds] using hre⟩
    have hpe := perm_insertionSort (· ≤ ·) leaves
    refine collectWindow_ends hg hfr w' ⟨hli, hr, hpe.length_eq.trans_le h.room, fun i hi => ?_,
      hpe.nodup_iff.2 h.nodup⟩
      (.inr h.root) fun h0 => absurd h0 hne
    exact h.nodes i (h.frontier.sub (mem_sortIds.1 hi))

/-- The table of a window is its root over the values of its cut, for every assignment and for every
row that is forced on the cut; a cut that is grown gives a window of no more leaves than asked for,
unless the work runs out. -/
theorem windows_exact (ops : List Xag.Op) :
    (∀ root cut limits, Yields (collectWindow (Xag.runOps ops) root cut limits) fun w => w.root =
      root ∧ w.leaves = cut) ∧
    (∀ w : XagWindow, Yields (windowFunction (Xag.runOps ops) w) fun t =>
      (∀ env, t.get (rowIndex w.leaves ((Xag.runOps ops).valueAt env)) =
        (Xag.runOps ops).eval env w.root) ∧
      ∀ row < 2 ^ w.leaves.length, ∀ env, t.get row = w.root.value
        ((Xag.runOps ops).forced w.leaves row env)) ∧
    ∀ (root : Xsignal) (limits : WindowLimits) (w : Work), limits.Valid →
    root.id < (Xag.runOps ops).size →
      Ends Yields.anyArena (· = .searchExhausted)
      (growWindow (Xag.runOps ops) root limits) w fun _ w => w.leaves.length ≤ limits.inputs := by
  have hg := Xag.wf_runOps ops
  generalize Xag.runOps ops = g at hg ⊢
  refine ⟨fun root cut limits =>
    (collectWindow_yields hg root cut).mono fun w hw => hw.2, fun w => ?_,
    fun root limits w => growWindow_ends hg root w⟩
  refine (windowFunction_yields hg w).mono fun t ht => ⟨fun env => ?_, fun row hrow env => ?_⟩
  · exact ht.2 env _ fun id hid _ => hg.valueAt env hid
  · have hforced := rowIndex_forced hg ht.1 hrow env
    rw [← ht.2 env (g.forced w.leaves row env) fun id hid hleaf => (hg.forced _ _ _ hid).trans
      (if_neg hleaf), hforced]

end LiveHD.Usyn
