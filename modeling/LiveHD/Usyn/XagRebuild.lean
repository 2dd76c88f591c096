import LiveHD.Usyn.Supply

/-!
# Rebuilding a graph node by node

A graph that the operations built is determined by its nodes without their fanout counts and by its
source names.  Adding the same nodes again in order gives every node its index back.
-/

namespace LiveHD.Usyn

open List Builds Ends ExceptT Nat Xag Yields

variable {α : Type}

namespace Xag

/-- Only gates have operands, and only sources a source index. -/
structure Tidy (g : Xag) : Prop where
  inputs : ∀ id < g.size, (g.node id).kind.isGate = false → (g.node id).inputs = ({}, {})
  sourceIndex : ∀ id < g.size, (g.node id).kind ≠ .source → (g.node id).sourceIndex = 0

variable {kind : Kind}

section

variable {g h : Xag}

lemma tidy_empty : ({} : Xag).Tidy where
  inputs id hid _ := by
    obtain rfl : id = 0 := lt_one_iff.1 hid
    rfl
  sourceIndex id hid _ := by
    obtain rfl : id = 0 := lt_one_iff.1 hid
    rfl

/-- One more node. -/
lemma Tidy.push (hg : g.Tidy) (he : g.Extends h) (hsz : h.size = g.size + 1)
    (hin : (h.node g.size).kind.isGate = false → (h.node g.size).inputs = ({}, {}))
    (hsrc : (h.node g.size).kind ≠ .source → (h.node g.size).sourceIndex = 0) : h.Tidy where
  inputs id hid hga := by
    rcases Nat.lt_succ_iff_lt_or_eq.1 (hsz ▸ hid) with hlt | rfl
    · rw [he.inputs hlt]
      exact hg.inputs id hlt (he.kind hlt ▸ hga)
    · exact hin hga
  sourceIndex id hid hk := by
    rcases Nat.lt_succ_iff_lt_or_eq.1 (hsz ▸ hid) with hlt | rfl
    · rw [he.sourceIndex hlt]
      exact hg.sourceIndex id hlt (he.kind hlt ▸ hk)
    · exact hsrc hk

lemma Tidy.pushSource (hg : g.Tidy) (name : String) : (g.pushSource name).Tidy := by
  refine hg.push (extends_pushSource g name) (size_pushSource g name) ?_ ?_
  · rw [node_pushSource]
    exact fun _ => rfl
  · rw [node_pushSource]
    exact fun h => (h rfl).elim

lemma Tidy.pushGate (hg : g.Tidy) (hk : kind.isGate = true) {a b : Xsignal} (ha : a.id < g.size)
    (hb : b.id < g.size) : (g.pushGate kind a b).Tidy := by
  refine hg.push (extends_pushGate kind g) (size_pushGate kind g) ?_ ?_
  · rw [node_pushGate kind g ha hb]
    intro h
    exact absurd (hk.symm.trans h) nofun
  · rw [node_pushGate kind g ha hb]
    exact fun _ => rfl

/-- Tidy graphs. -/
def tidyArena : Arena Xag where
  inv := Tidy
  le g h := g.size ≤ h.size
  refl _ := le_rfl
  trans := le_trans

end

variable {s : Xsignal}

section

variable {g : Xag} {a b : Xsignal}

section

variable (hg : g.Tidy)
include hg

lemma check_tidy {k : XagM α} {P : Xag → α → Prop}
    (hk : s.id < g.size → Builds tidyArena k g P) :
    Builds tidyArena (check s >>= fun _ => k) g P := by
  have hch : Builds tidyArena (check s) g fun h _ => h = g ∧ s.id < g.size := by
    refine (Builds.get hg).bind fun _ h hh _ heq => ?_
    obtain ⟨rfl, rfl⟩ := heq
    exact .ite (fun _ => .throw hh) fun hlt => .pure hh ⟨rfl, not_le.1 hlt⟩
  refine hch.bind fun h _ _ _ hP => ?_
  obtain ⟨rfl, hlt⟩ := hP
  exact hk hlt

lemma input_tidy (name : String) : Builds tidyArena (input name) g fun _ _ => True := by
  refine (Builds.get hg).bind fun _ h hh _ heq => ?_
  obtain ⟨rfl, rfl⟩ := heq
  refine .ite (fun _ => .throw hh) fun _ => ?_
  refine (set (hh.pushSource name) (extends_pushSource h name).size).bind fun t _ ht _ _ => ?_
  exact pure ht trivial

section

variable (hk : kind.isGate = true) (ha : a.id < g.size) (hb : b.id < g.size)
include hk ha hb

lemma internOrdered_tidy : Builds tidyArena (internOrdered kind a b) g fun _ _ => True := by
  refine (Builds.get hg).bind fun _ h hh _ heq => ?_
  obtain ⟨rfl, rfl⟩ := heq
  cases h.index ⟨kind, a, b⟩ with
  | some id => exact .pure hh trivial
  | none =>
    refine .ite (fun _ => .throw hh) fun _ => ?_
    refine (set (hh.pushGate hk ha hb) (extends_pushGate kind h).size).bind fun t _ ht _ _ => ?_
    exact pure ht trivial

lemma intern_tidy : Builds tidyArena (intern kind a b) g fun _ _ => True :=
  ite (fun _ => internOrdered_tidy hg hk hb ha) fun _ => internOrdered_tidy hg hk ha hb

end

lemma land_tidy : Builds tidyArena (land a b) g fun _ _ => True := by
  refine check_tidy hg fun ha => check_tidy hg fun hb => ?_
  refine .ite (fun _ => .pure hg trivial) fun _ => ?_
  refine .ite (fun _ => .pure hg trivial) fun _ => ?_
  exact .ite (fun _ => .pure hg trivial) fun _ => intern_tidy hg rfl ha hb

lemma lxor_tidy : Builds tidyArena (lxor a b) g fun _ _ => True := by
  refine check_tidy hg fun ha => check_tidy hg fun hb => ?_
  refine .ite (fun _ => .pure hg trivial) fun _ => ?_
  refine .ite (fun _ => .pure hg trivial) fun _ => ?_
  exact .map (R := fun _ _ => True) (intern_tidy hg rfl ha hb) fun _ _ _ _ _ => trivial

lemma lor_tidy : Builds tidyArena (lor a b) g fun _ _ =>
    True := (land_tidy hg).map fun _ _ _ _ _ => trivial

lemma mux_tidy {t f : Xsignal} : Builds tidyArena (mux s t f) g fun _ _ => True := by
  refine check_tidy hg fun _ => check_tidy hg fun _ => check_tidy hg fun _ => ?_
  refine .ite (fun _ => .pure hg trivial) fun _ => .ite (fun _ => .pure hg trivial) fun _ =>
    ite (fun _ => lxor_tidy hg) fun _ =>
    ite (fun _ => .ite (fun _ => lor_tidy hg) fun _ => land_tidy hg) fun _ =>
    ite (fun _ => .ite (fun _ => lor_tidy hg) fun _ => land_tidy hg) fun _ => ?_
  exact (lxor_tidy hg).bind fun _ _ hg _ _ => (land_tidy hg).bind fun _ _ hg _ _ => lxor_tidy hg

end

lemma tidy_runOps (ops : List Op) : (runOps ops).Tidy := by
  induction ops using reverseRecOn with
  | nil => exact tidy_empty
  | append_singleton ops op ih =>
    rw [runOps, foldl_append]
    cases op with
    | input name => exact (input_tidy ih name).1
    | land a b => exact (land_tidy ih).1
    | lxor a b => exact (lxor_tidy ih).1
    | lor a b => exact (lor_tidy ih).1
    | mux s t f => exact (mux_tidy ih).1

end

/-! ## Graphs with the same nodes -/

section

variable {g h : Xag}

/-- A graph is its nodes without their fanout counts, and its names. -/
lemma Wf.ext_core (hg : g.Wf) (hh : h.Wf) (hsz : h.size = g.size)
    (hco : ∀ id < g.size, (h.node id).core = (g.node id).core) :
    h = { g with names := h.names } := by
  have hed : ∀ id, h.edges id = g.edges id := by
    intro id
    rw [edges, edges, hsz]
    refine congrArg sum (map_congr_left fun i hi => ?_)
    rw [← Node.reads_core, hco i (mem_range.1 hi), Node.reads_core]
  have hn : ∀ id < g.size, h.node id = g.node id := by
    intro id hid
    have hfa : (h.node id).fanouts = (g.node id).fanouts := by
      rw [hh.fanouts id (hsz ▸ hid), hg.fanouts id hid, hed]
    calc h.node id = { (h.node id).core with fanouts := (h.node id).fanouts } := rfl
      _ = { (g.node id).core with fanouts := (g.node id).fanouts } := by rw [hco id hid, hfa]
      _ = g.node id := rfl
  have hns : h.nodes = g.nodes := by
    refine ext_getElem hsz fun i hi hi' => ?_
    have heq := hn i hi'
    rwa [node_eq_get hi', node_eq_get (g := h) hi] at heq
  have hin : h.index = g.index := by
    funext key
    refine Option.ext fun id => ?_
    rw [hh.hashed, hg.hashed, hsz]
    refine and_congr_right fun hid => ?_
    rw [hn id hid]
  obtain ⟨nodes, names, index⟩ := h
  obtain rfl : nodes = g.nodes := hns
  obtain rfl : index = g.index := hin
  rfl

/-! ## A gate that is not there yet -/

lemma check_run (hs : s.id < g.size) (k : XagM α) :
    (check s >>= fun _ => k).run.run g = k.run.run g := by
  have hch : (check s).run.run g = (.ok (), g) := by
    change (run (if g.size ≤ s.id then throw XagError.invalidArgument else pure () : XagM Unit)).run
      g = _
    rw [if_neg (not_le.2 hs)]
    rfl
  rw [run_bind, hch]

lemma run_internOrdered (a b : Xsignal) :
    (internOrdered kind a b).run.run g = (run (match g.index ⟨kind, a, b⟩ with
    | some id => pure ⟨id, false⟩
    | none => if maxId ≤ g.size then throw .lengthError
      else do set (g.pushGate kind a b); pure ⟨g.size, false⟩ : XagM Xsignal)).run g := rfl

lemma intern_run {a b : Xsignal} (hli : g.size < maxId) (hab : a < b)
    (hf : g.index ⟨kind, a, b⟩ = none) :
    (intern kind a b).run.run g = (.ok ⟨g.size, false⟩, g.pushGate kind a b) := by
  rw [intern, if_neg (lt_asymm hab), run_internOrdered, hf]
  rw [if_neg (not_le.2 hli)]
  rfl

/-- The operation of a gate, on operands as it keeps them. -/
lemma gate_run {n : Node} (hn : n.kind.isGate = true) (hcan : n.Canonical g.size)
    (hli : g.size < maxId) (hf : g.index n.key = none) :
    ((if n.kind = .andGate then land n.inputs.1 n.inputs.2
      else lxor n.inputs.1 n.inputs.2).run.run g) =
      (.ok ⟨g.size, false⟩, g.pushGate n.kind n.inputs.1 n.inputs.2) := by
  obtain ⟨⟨h1, h2⟩, hlt, hne, ⟨h10, h20⟩, hp⟩ := hcan
  cases hk : n.kind with
  | constant | source =>
    rw [hk] at hn
    cases hn
  | andGate =>
    rw [if_pos rfl, land, check_run h1, check_run h2, if_neg h10, if_neg h20, if_neg hne]
    rw [Node.key, hk] at hf
    exact intern_run hli hlt hf
  | xorGate =>
    obtain ⟨hp1, hp2⟩ := hp hk
    rw [if_neg (show Kind.xorGate ≠ .andGate by simp), lxor, check_run h1, check_run h2, lxorPlain,
      if_neg hne, if_neg (not_or.2 ⟨h10, h20⟩), hp1, hp2]
    have h1' : (⟨n.inputs.1.id, false⟩ : Xsignal) = n.inputs.1 := by rw [← hp1]
    have h2' : (⟨n.inputs.2.id, false⟩ : Xsignal) = n.inputs.2 := by rw [← hp2]
    rw [h1', h2']
    rw [Node.key, hk] at hf
    have hrun := intern_run hli hlt hf
    rw [map_eq_pure_bind, run_bind, hrun]
    rfl

end

end Xag

/-! ## The loop -/

open Pass

variable (g : Xag) (names : List String)

/-- Node `i` of `g` once more, a source under its new name. -/
def respell (i : ℕ) : PassM Xsignal :=
  match (g.node i).kind with
  | .source => do
    let s ← onGraph (input (names.getD (g.node i).sourceIndex ""))
    let out ← graph
    if (out.node s.id).sourceIndex = (g.node i).sourceIndex then pure s else invalid
  | .andGate => onGraph (land (g.node i).inputs.1 (g.node i).inputs.2)
  | .xorGate => onGraph (lxor (g.node i).inputs.1 (g.node i).inputs.2)
  | .constant => if i = 0 then pure {} else invalid

/-- A step of the rebuild. -/
def rebuildNode (i : ℕ) : PassM Unit := do
  spend 1
  let actual ← respell g names i
  if actual = ⟨i, false⟩ then pure () else invalid

def rebuild : PassM Unit :=
  (List.range' 0 g.size).foldlM (fun _ i => rebuildNode g names i) ()

/-- The graph after the first `i` nodes. -/
structure Respelled (g : Xag) (names : List String) (i : ℕ) (h : Xag) : Prop where
  wf : h.Wf
  size : h.size = max 1 i
  core : ∀ id < h.size, (h.node id).core = (g.node id).core
  names : h.names <+: names

section

variable {g h : Xag} {names : List String} {i : ℕ}

lemma core_zero (hg : g.Wf) (hti : g.Tidy) : (({} : Xag).node 0).core = (g.node 0).core := by
  have hk := (hg.constant 0 hg.pos).2 rfl
  have hin := hti.inputs 0 hg.pos (by rw [hk]; rfl)
  have hsrc := hti.sourceIndex 0 hg.pos (by rw [hk]; nofun)
  have hle := hg.level_zero
  generalize g.node 0 = n at hk hin hsrc hle
  obtain ⟨⟩ := n
  subst hk hin hsrc hle
  rfl

lemma respelled_zero (hg : g.Wf) (hti : g.Tidy) (names : List String) : Respelled g names 0 {} where
  wf := wf_empty
  size := rfl
  core id hid := by
    obtain rfl : id = 0 := lt_one_iff.1 hid
    exact core_zero hg hti
  names := nil_prefix

lemma Respelled.pos (hg : g.Wf) (hi : i < g.size) (hr : Respelled g names i h)
    (hk : (g.node i).kind ≠ .constant) :
    h.size = i ∧ h.size < maxId := by
  have hne : i ≠ 0 := fun h0 => hk ((hg.constant i hi).2 h0)
  have hsz := hr.size.trans (max_eq_right (one_le_iff_ne_zero.2 hne))
  exact ⟨hsz, hsz ▸ hi.trans_le hg.limit⟩

lemma sourceIndex_lt (hg : g.Wf) (hi : i < g.size) (hk : (g.node i).kind = .source) :
    (g.node i).sourceIndex < g.names.length := by
  have hmem : (g.node i).sourceIndex ∈ g.sourceIndices :=
    mem_map.2 ⟨i, mem_filter.2 ⟨mem_range.2 hi, decide_eq_true hk⟩, rfl⟩
  rw [hg.sources] at hmem
  exact mem_range.1 hmem

lemma Respelled.source (hr : Respelled g names i h) (hg : g.Wf) (hti : g.Tidy)
    (hlen : names.length = g.names.length)
    (hi : i < g.size) (hk : (g.node i).kind = .source)
    (hind : h.names.length = (g.node i).sourceIndex) :
    Respelled g names (i + 1) (h.pushSource (names.getD (g.node i).sourceIndex "")) := by
  obtain ⟨hsz, hli⟩ := hr.pos hg hi (by rw [hk]; nofun)
  refine ⟨hr.wf.pushSource hli _, ?_, ?_, ?_⟩
  · rw [size_pushSource, hsz]
    exact (Nat.max_eq_right (le_add_left 1 i)).symm
  · intro id hid
    rw [size_pushSource] at hid
    rcases Nat.lt_succ_iff_lt_or_eq.1 hid with hlt | rfl
    · rw [node_pushSource_of_lt _ _ hlt, hr.core id hlt]
    · rw [node_pushSource, hsz, hind]
      have hin := hti.inputs i hi (by rw [hk]; rfl)
      have hle := hg.level i hi
      rw [hk, if_neg nofun] at hle
      generalize g.node i = n at hk hin hle
      obtain ⟨⟩ := n
      subst hk hin hle
      rfl
  · have hlt := (sourceIndex_lt hg hi hk).trans_eq hlen.symm
    obtain ⟨rest, hre⟩ := hr.names
    have hn : names.getD (g.node i).sourceIndex "" :: rest.tail = rest := by
      rw [← hind] at hlt ⊢
      rw [← hre, length_append] at hlt
      rw [← hre, getD_append_right _ _ _ _ le_rfl, Nat.sub_self]
      cases rest with
      | nil => exact absurd hlt (lt_irrefl _)
      | cons a rest => rfl
    refine ⟨rest.tail, ?_⟩
    change (h.names ++ [names.getD (g.node i).sourceIndex ""]) ++ rest.tail = names
    rw [append_assoc, singleton_append, hn, hre]

lemma Respelled.gate (hr : Respelled g names i h) (hg : g.Wf) (hti : g.Tidy) (hi : i < g.size)
    (hga : (g.node i).kind.isGate = true) :
    h.size = i ∧ h.size < maxId ∧ (g.node i).Canonical h.size ∧ h.index (g.node i).key = none ∧
      Respelled g names (i + 1)
      (h.pushGate (g.node i).kind (g.node i).inputs.1 (g.node i).inputs.2) := by
  have hne : (g.node i).kind ≠ .constant := by
    intro hk
    rw [hk] at hga
    cases hga
  obtain ⟨hsz, hli⟩ := hr.pos hg hi hne
  subst hsz
  have hcan := hg.canonical h.size hi hga
  have hkey : ∀ id < h.size, (h.node id).key = (g.node id).key ∧
      (h.node id).kind = (g.node id).kind := by
    intro id hid
    have hco := hr.core id hid
    exact ⟨congrArg (·.key) hco, congrArg (·.kind) hco⟩
  have hf : h.index (g.node h.size).key = none := by
    refine Option.eq_none_iff_forall_not_mem.2 fun id hid => ?_
    obtain ⟨hlt, hg', hsa⟩ := (hr.wf.hashed _ id).1 hid
    rw [(hkey id hlt).1] at hsa
    rw [(hkey id hlt).2] at hg'
    have heq := hg.unique (hlt.trans hi) hi hg' hsa
    exact absurd hlt (heq ▸ lt_irrefl _)
  obtain ⟨⟨h1, h2⟩, hlt, hd, ⟨h10, h20⟩, hp⟩ := hcan
  refine ⟨rfl, hli, ⟨⟨h1, h2⟩, hlt, hd, ⟨h10, h20⟩, hp⟩, hf, ?_⟩
  refine ⟨hr.wf.pushGate _ hli hga h1 h2 hlt hd h10 h20 hp hf, ?_, ?_, hr.names⟩
  · rw [size_pushGate]
    exact (Nat.max_eq_right (le_add_left 1 h.size)).symm
  · intro id hid
    rw [size_pushGate] at hid
    rcases Nat.lt_succ_iff_lt_or_eq.1 hid with hlt' | rfl
    · rw [(extends_pushGate (g.node h.size).kind h).core id hlt', hr.core id hlt']
    · rw [node_pushGate _ h h1 h2]
      have hle := hg.level h.size hi
      rw [if_pos hga] at hle
      have hl1 : (h.node (g.node h.size).inputs.1.id).level =
        (g.node (g.node h.size).inputs.1.id).level := congrArg (·.level) (hr.core _ h1)
      have hl2 : (h.node (g.node h.size).inputs.2.id).level =
        (g.node (g.node h.size).inputs.2.id).level := congrArg (·.level) (hr.core _ h2)
      have hsrc := hti.sourceIndex h.size hi (by intro hk; rw [hk] at hga; cases hga)
      rw [hl1, hl2, ← hle]
      generalize g.node h.size = n at hsrc
      obtain ⟨⟩ := n
      subst hsrc
      rfl

lemma Respelled.done (hr : Respelled g names g.size h) (hg : g.Wf)
    (hlen : names.length = g.names.length) :
    h = { g with names := names } := by
  have hsz := hr.size.trans (max_eq_right hg.pos)
  have hss : h.sourceIndices = g.sourceIndices := by
    rw [sourceIndices, sourceIndices, hsz]
    have hk : ∀ id ∈ range g.size, (h.node id).kind = (g.node id).kind := fun id hid =>
      congrArg (·.kind) (hr.core id (hsz ▸ mem_range.1 hid))
    rw [filter_congr fun id hid => by rw [hk id hid]]
    refine map_congr_left fun id hid => ?_
    exact congrArg (·.sourceIndex) (hr.core id (hsz ▸ mem_range.1 (mem_filter.1 hid).1))
  rw [hr.wf.sources, hg.sources] at hss
  have hns : h.names = names := by
    refine hr.names.eq_of_length ?_
    rw [hlen]
    simpa using congrArg length hss
  rw [hg.ext_core hr.wf hsz fun id hid => hr.core id (hsz ▸ hid), hns]

/-- Stopped with a status that publishes nothing. -/
def Refused (e : Stop) : Prop := ∃ status, e = .status status ∧ status ≠ .feasible

variable {s : PassState}

lemma invalid_ends {P : PassState → α → Prop} :
    Ends anyArena Refused (Pass.invalid : PassM α) s P :=
  throw trivial ⟨_, rfl, nofun⟩

lemma spend_ends (n : ℕ) : Ends anyArena Refused (Pass.spend n) s fun t _ =>
    t.candidate = s.candidate := by
  refine ⟨⟨trivial, trivial, fun _ _ => by rw [spend_run]⟩, fun e he => ?_⟩
  rw [spend_run] at he
  split at he
  · cases he
  · cases he
    exact ⟨_, rfl, nofun⟩

lemma onGraph_ends {m : XagM α} {a : α} {h : Xag} (hrun : m.run.run s.candidate = (.ok a, h)) :
    Ends anyArena Refused (onGraph m) s fun t b => b = a ∧ t.candidate = h := by
  refine ⟨⟨trivial, trivial, fun b hb => ?_⟩, fun e he => ?_⟩
  · rw [onGraph_run, hrun] at hb ⊢
    cases hb
    exact ⟨rfl, rfl⟩
  · rw [onGraph_run, hrun] at he
    cases he

lemma input_run {h : Xag} (hli : h.size < maxId) (name : String) :
    (input name).run.run h = (.ok ⟨h.size, false⟩, h.pushSource name) := by
  change (run (if maxId ≤ h.size then throw .lengthError else do
    set (h.pushSource name)
    pure ⟨h.size, false⟩ : XagM Xsignal)).run h = _
  rw [if_neg (not_le.2 hli)]
  rfl

lemma respell_ends (hg : g.Wf) (hti : g.Tidy)
    (hlen : names.length = g.names.length) (hi : i < g.size)
    (hr : Respelled g names i s.candidate) :
    Ends anyArena Refused (respell g names i) s fun t _ =>
    Respelled g names (i + 1) t.candidate := by
  rw [respell]
  cases hk : (g.node i).kind with
  | constant =>
    obtain rfl := (hg.constant i hi).1 hk
    exact .ite (fun _ => .pure trivial ⟨hr.wf, hr.size, hr.core, hr.names⟩) fun _ => invalid_ends
  | source =>
    obtain ⟨hsz, hli⟩ := hr.pos hg hi (by rw [hk]; nofun)
    refine (onGraph_ends (input_run hli _)).bind fun t actual _ _ ht => ?_
    obtain ⟨rfl, ht⟩ := ht
    refine .bind (P := fun u out => u = t ∧ out = t.candidate)
      ⟨⟨trivial, trivial, fun out hout => ?_⟩, nofun⟩
      fun u out _ _ hu => ?_
    · cases hout
      exact ⟨rfl, rfl⟩
    · obtain ⟨rfl, rfl⟩ := hu
      refine .ite (fun hin => .pure trivial ?_) fun _ => invalid_ends
      rw [ht] at hin ⊢
      rw [node_pushSource] at hin
      exact hr.source hg hti hlen hi hk hin
  | andGate =>
    obtain ⟨hsz, hli, hcan, hf, hn⟩ := hr.gate hg hti hi (by rw [hk]; rfl)
    have hrun := gate_run (by rw [hk]; rfl) hcan hli hf
    rw [hk] at hrun
    rw [hk] at hn
    exact (onGraph_ends hrun).mono fun t _ _ _ ht => ht.2 ▸ hn
  | xorGate =>
    obtain ⟨hsz, hli, hcan, hf, hn⟩ := hr.gate hg hti hi (by rw [hk]; rfl)
    have hrun := gate_run (by rw [hk]; rfl) hcan hli hf
    rw [hk] at hrun
    rw [hk] at hn
    exact (onGraph_ends hrun).mono fun t _ _ _ ht => ht.2 ▸ hn

/-- The whole loop gives the graph back under its new names. -/
lemma rebuild_ends (hg : g.Wf) (hti : g.Tidy) (hlen : names.length = g.names.length) (work : Work) :
    Ends anyArena Refused (rebuild g names) ⟨work, {}⟩ fun t _ =>
    t.candidate = { g with names := names } := by
  have hst : ∀ i < g.size, ∀ s : PassState, Respelled g names i s.candidate →
      Ends anyArena Refused (rebuildNode g names i) s fun t _ =>
      Respelled g names (i + 1) t.candidate := by
    intro i hi s hr
    refine (spend_ends 1).bind fun t _ _ _ ht => ?_
    refine (respell_ends hg hti hlen hi (ht ▸ hr)).bind fun u actual _ _ hu => ?_
    exact ite (fun _ => pure trivial hu) fun _ => invalid_ends
  have hlo := foldlM_range' (A := anyArena) (E := Refused)
    (f := fun (_ : Unit) i => rebuildNode g names i)
    (Q := fun i t _ => Respelled g names i t.candidate) (s := ⟨work, {}⟩) (b := ()) 0 g.size trivial
      (respelled_zero hg hti names)
    fun i _ hi t _ _ _ ht => hst i (hi.trans_eq (zero_add _)) t ht
  rw [zero_add] at hlo
  exact hlo.mono fun t _ _ _ ht => ht.done hg hlen

end

end LiveHD.Usyn
