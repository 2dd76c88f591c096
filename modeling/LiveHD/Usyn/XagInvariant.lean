import LiveHD.Usyn.Xag

/-!
# The representation invariant of the AND/XOR graph

Gates read older nodes, are canonical and are hashed under their operands; levels and fanout counts
are exact.  Every operation keeps this, changes no older node but for its fanout count, and returns
a signal of the value it stands for.
-/

namespace LiveHD.Usyn

open Function List Builds Usyn.Kind Nat

/-- A gate as the operations build it. -/
structure Node.Canonical (n : Node) (id : ℕ) : Prop where
  older : n.inputs.1.id < id ∧ n.inputs.2.id < id
  ordered : n.inputs.1 < n.inputs.2
  distinct : n.inputs.1.id ≠ n.inputs.2.id
  noConstant : n.inputs.1.id ≠ 0 ∧ n.inputs.2.id ≠ 0
  plain : n.kind = .xorGate → n.inputs.1.inverted = false ∧ n.inputs.2.inverted = false

namespace Xag

/-- The edges of gates that read a node. -/
def edges (g : Xag) (id : ℕ) : ℕ := ((range g.size).map fun i => (g.node i).reads id).sum

/-- The source indices in node order. -/
def sourceIndices (g : Xag) : List ℕ :=
  ((range g.size).filter fun i => (g.node i).kind = .source).map fun i => (g.node i).sourceIndex

structure Wf (g : Xag) : Prop where
  pos : 0 < g.size
  limit : g.size ≤ maxId
  constant : ∀ id < g.size, (g.node id).kind = .constant ↔ id = 0
  canonical : ∀ id < g.size, (g.node id).kind.isGate = true → (g.node id).Canonical id
  level : ∀ id < g.size, (g.node id).level = if (g.node id).kind.isGate = true then
    1 + max (g.node (g.node id).inputs.1.id).level (g.node (g.node id).inputs.2.id).level else 0
  fanouts : ∀ id < g.size, (g.node id).fanouts = g.edges id
  hashed : ∀ key id, g.index key = some id ↔
    id < g.size ∧ (g.node id).kind.isGate = true ∧ (g.node id).key = key
  sources : g.sourceIndices = range g.names.length

/-- Older nodes are unchanged but for their fanout counts. -/
structure Extends (g h : Xag) : Prop where
  size : g.size ≤ h.size
  core : ∀ id < g.size, (h.node id).core = (g.node id).core
  names : g.names <+: h.names

lemma Extends.refl (g : Xag) : g.Extends g := ⟨le_rfl, fun _ _ => rfl, prefix_rfl⟩

lemma Extends.trans {g h k : Xag} (hgh : g.Extends h) (hhk : h.Extends k) : g.Extends k where
  size := hgh.size.trans hhk.size
  core id hid := (hhk.core id (hid.trans_le hgh.size)).trans (hgh.core id hid)
  names := hgh.names.trans hhk.names

/-- Well-formed graphs and how they grow. -/
def arena : Arena Xag where
  inv := Wf
  le := Extends
  refl := Extends.refl
  trans := Extends.trans

section

variable {g h : Xag} {id : ℕ}

section

variable (he : g.Extends h) (hid : id < g.size)
include he hid

lemma Extends.kind : (h.node id).kind = (g.node id).kind := congrArg (·.kind) (he.core id hid)

lemma Extends.inputs : (h.node id).inputs = (g.node id).inputs :=
  congrArg (·.inputs) (he.core id hid)

lemma Extends.level : (h.node id).level = (g.node id).level := congrArg (·.level) (he.core id hid)

lemma Extends.sourceIndex : (h.node id).sourceIndex = (g.node id).sourceIndex :=
  congrArg (·.sourceIndex) (he.core id hid)

end

end

/-! ## Values -/

@[simp] lemma length_simulate (env : ℕ → Bool) (nodes : List Node) :
    (simulate env nodes).length = nodes.length := by
  induction nodes using reverseRecOn with
  | nil => rfl
  | append_singleton nodes n ih => simpa [simulate] using ih

lemma simulate_append (env : ℕ → Bool) (nodes : List Node) (n : Node) :
    simulate env (nodes ++ [n]) = simulate env nodes ++
    [n.value env ((simulate env nodes).getD · false)] := by
  rw [simulate, foldl_append]
  rfl


/-- A node reads only the nodes below it. -/
lemma value_congr {n : Node} {id : ℕ} (hn : n.kind.isGate = true → n.Canonical id) (env : ℕ → Bool)
    {val val' : ℕ → Bool} (h : ∀ i < id, val i = val' i) : n.value env val = n.value env val' := by
  unfold Node.value
  split
  · rfl
  · rfl
  next hc hsrc =>
    have hga : n.kind.isGate = true := by
      cases hk : n.kind with
      | constant => exact absurd hk hc
      | source => exact absurd hk hsrc
      | andGate => rfl
      | xorGate => rfl
    obtain ⟨h1, h2⟩ := (hn hga).older
    rw [Xsignal.value, Xsignal.value, Xsignal.value, Xsignal.value, h _ h1, h _ h2]

lemma simulate_getD (env : ℕ → Bool) {nodes : List Node} (hn : ∀ id, ∀ hid : id < nodes.length,
    (nodes.get ⟨id, hid⟩).kind.isGate = true → (nodes.get ⟨id, hid⟩).Canonical id) {id : ℕ}
    (hid : id < nodes.length) :
    (simulate env nodes).getD id false = (nodes.get ⟨id, hid⟩).value env
    ((simulate env nodes).getD · false) := by
  induction nodes using reverseRecOn generalizing id with
  | nil => cases hid
  | append_singleton nodes n ih =>
    have hold : ∀ i < nodes.length, (simulate env nodes).getD i false =
        (simulate env (nodes ++ [n])).getD i false := by
      intro i hi
      rw [simulate_append, getD_append _ _ _ _ (by rwa [length_simulate])]
    have hla : (nodes ++ [n]).length = nodes.length + 1 := by simp
    rcases Nat.lt_succ_iff_lt_or_eq.1 (hla ▸ hid) with hlt | rfl
    · have hget : (nodes ++ [n]).get ⟨id, hid⟩ = nodes.get ⟨id, hlt⟩ := by
        simp [getElem_append_left hlt]
      have hcan := hn id hid
      rw [hget] at hcan ⊢
      rw [← hold id hlt, ih _ hlt]
      · exact value_congr hcan env fun i hi => hold i (hi.trans hlt)
      · intro i hi
        have hca' := hn i (by rw [hla]; omega)
        have hge' : (nodes ++ [n]).get ⟨i, by rw [hla]; omega⟩ = nodes.get ⟨i, hi⟩ := by
          simp [getElem_append_left hi]
        rwa [hge'] at hca'
    · have hget : (nodes ++ [n]).get ⟨nodes.length, hid⟩ = n := by simp
      have hcan := hn nodes.length hid
      rw [hget] at hcan ⊢
      rw [simulate_append, getD_append_right _ _ _ _ (by rw [length_simulate]), length_simulate,
        Nat.sub_self, getD_cons_zero]
      refine value_congr hcan env fun i hi => ?_
      rw [hold i hi, simulate_append]

section

variable {g h : Xag} {id : ℕ}

lemma node_eq_get (hid : id < g.size) : g.node id = g.nodes.get ⟨id, hid⟩ := getD_eq_getElem _ _ hid

/-- The value of a node over the values of the graph. -/
lemma Wf.valueAt (hg : g.Wf) (env : ℕ → Bool) (hid : id < g.size) :
    g.valueAt env id = (g.node id).value env (g.valueAt env) := by
  rw [node_eq_get hid]
  refine simulate_getD env (fun i hi hga => ?_) hid
  rw [← node_eq_get (g := g) hi] at hga ⊢
  exact hg.canonical i hi hga

lemma Node.value_core (n : Node) (env val : ℕ → Bool) :
    n.core.value env val = n.value env val := rfl

lemma Node.value_gate {n : Node} (hga : n.kind.isGate = true) (env val : ℕ → Bool) :
    n.value env val = n.kind.op (n.inputs.1.value val) (n.inputs.2.value val) := by
  unfold Node.value
  cases hk : n.kind with
  | constant => rw [hk] at hga; cases hga
  | source => rw [hk] at hga; cases hga
  | andGate => rfl
  | xorGate => rfl

/-- Growth keeps the values. -/
lemma Extends.valueAt (hg : g.Wf) (hh : h.Wf) (he : g.Extends h)
    (env : ℕ → Bool) (hid : id < g.size) :
    h.valueAt env id = g.valueAt env id := by
  induction id using Nat.strong_induction_on with
  | _ id ih =>
    rw [hg.valueAt env hid, hh.valueAt env (hid.trans_le he.size), ← Node.value_core (h.node id),
      he.core id hid, Node.value_core]
    exact value_congr (hg.canonical id hid) env fun i hi => ih i hi (hi.trans hid)

lemma Extends.eval (hg : g.Wf) (hh : h.Wf) (he : g.Extends h) (env : ℕ → Bool)
    {s : Xsignal} (hs : s.id < g.size) :
    h.eval env s = g.eval env s := by
  rw [Xag.eval, Xag.eval, Xsignal.value, Xsignal.value, he.valueAt hg hh env hs]

@[simp] lemma eval_not (g : Xag) (env : ℕ → Bool) (s : Xsignal) :
    g.eval env s.not = !g.eval env s :=
  Xsignal.value_not _ _

section

variable (hg : g.Wf) (env : ℕ → Bool)
include hg env

lemma Wf.valueAt_zero : g.valueAt env 0 = false := by
  rw [hg.valueAt env hg.pos, Node.value, (hg.constant 0 hg.pos).2 rfl]

lemma Wf.eval_constant (b : Bool) : g.eval env (Xag.constant b) = b := by
  simp [Xag.eval, Xsignal.value, Xag.constant, hg.valueAt_zero]

/-- The value of a gate. -/
lemma Wf.valueAt_gate (hid : id < g.size) (hga : (g.node id).kind.isGate = true) :
    g.valueAt env id = (g.node id).kind.op (g.eval env (g.node id).inputs.1)
    (g.eval env (g.node id).inputs.2) :=
  (hg.valueAt env hid).trans (Node.value_gate hga env _)

omit env in
lemma Wf.gate_of_ne (hid : id < g.size) (h0 : id ≠ 0) (hk : (g.node id).kind ≠ .source) :
    (g.node id).kind.isGate = true := by
  cases hki : (g.node id).kind with
  | constant => exact absurd ((hg.constant id hid).1 hki) h0
  | source => exact absurd hki hk
  | andGate => rfl
  | xorGate => rfl

lemma Wf.valueAt_source (hid : id < g.size) (hk : (g.node id).kind = .source) :
    g.valueAt env id = env (g.node id).sourceIndex := by
  rw [hg.valueAt env hid, Node.value, hk]

end

/-- A signal of a graph and the function of the sources it computes. -/
structure Is (g : Xag) (s : Xsignal) (f : (ℕ → Bool) → Bool) : Prop where
  lt : s.id < g.size
  eval : ∀ env, g.eval env s = f env

lemma Is.mono {s : Xsignal} {f : (ℕ → Bool) → Bool} (hs : g.Is s f) (hg : g.Wf) (hh : h.Wf)
    (he : g.Extends h) : h.Is s f :=
  ⟨hs.lt.trans_le he.size, fun env => (he.eval hg hh env hs.lt).trans (hs.eval env)⟩

lemma Is.not {s : Xsignal} {f : (ℕ → Bool) → Bool} (hs : g.Is s f) : g.Is s.not fun env => !f env :=
  ⟨hs.lt, fun env => by rw [eval_not, hs.eval]⟩

lemma Wf.is_constant (hg : g.Wf) (b : Bool) : g.Is (Xag.constant b) fun _ => b :=
  ⟨hg.pos, fun env => hg.eval_constant env b⟩

lemma is_self {s : Xsignal} (hs : s.id < g.size) : g.Is s fun env =>
    g.eval env s := ⟨hs, fun _ => rfl⟩

lemma Is.congr {s : Xsignal} {f f' : (ℕ → Bool) → Bool} (hs : g.Is s f)
    (h : ∀ env, f env = f' env) : g.Is s f' :=
  ⟨hs.lt, fun env => (hs.eval env).trans (h env)⟩

end

/-! ## One more node -/

section

variable {g h : Xag}

lemma Node.reads_core (n : Node) (id : ℕ) : n.core.reads id = n.reads id := rfl

lemma edges_push (he : g.Extends h) (hsz : h.size = g.size + 1) (id : ℕ) :
    h.edges id = g.edges id + (h.node g.size).reads id := by
  rw [edges, hsz, List.range_succ, map_append, List.sum_append]
  congr 2
  refine map_congr_left fun i hi => ?_
  rw [← Node.reads_core, he.core i (mem_range.1 hi), Node.reads_core]

lemma sourceIndices_push (he : g.Extends h) (hsz : h.size = g.size + 1) :
    h.sourceIndices = g.sourceIndices ++
    if (h.node g.size).kind = .source then [(h.node g.size).sourceIndex] else [] := by
  have hold : ((range g.size).filter fun i => (h.node i).kind = .source) =
      (range g.size).filter fun i => (g.node i).kind = .source :=
    filter_congr fun i hi => by rw [he.kind (mem_range.1 hi)]
  rw [sourceIndices, hsz, range_succ, filter_append, map_append, hold]
  congr 1
  · refine map_congr_left fun i hi => ?_
    exact he.sourceIndex (mem_range.1 (mem_filter.1 hi).1)
  · by_cases hk : (h.node g.size).kind = .source <;> simp [hk]

/-- No gate reads a node that is not there. -/
lemma Wf.edges_size (hg : g.Wf) : g.edges g.size = 0 := by
  refine sum_eq_zero fun n hn => ?_
  obtain ⟨i, hi, rfl⟩ := mem_map.1 hn
  have hlt := mem_range.1 hi
  unfold Node.reads
  split
  next hga =>
    obtain ⟨h1, h2⟩ := (hg.canonical i hlt hga).older
    rw [if_neg (by omega), if_neg (by omega), add_zero]
  · rfl

/-- A graph with one more node, which is not a constant. -/
lemma Wf.push (hg : g.Wf) (he : g.Extends h) (hsz : h.size = g.size + 1) (hli : h.size ≤ maxId)
    (hk : (h.node g.size).kind ≠ .constant)
    (hcan : (h.node g.size).kind.isGate = true → (h.node g.size).Canonical g.size)
    (hle : (h.node g.size).level = if (h.node g.size).kind.isGate = true then
      1 + max (g.node (h.node g.size).inputs.1.id).level
        (g.node (h.node g.size).inputs.2.id).level else 0)
    (hold : ∀ id < g.size, (h.node id).fanouts = (g.node id).fanouts + (h.node g.size).reads id)
    (hnew : (h.node g.size).fanouts = 0)
    (hin : ∀ key, h.index key = if (h.node g.size).kind.isGate = true ∧
      (h.node g.size).key = key then
      some g.size else g.index key)
    (hfr : (h.node g.size).kind.isGate = true → g.index (h.node g.size).key = none)
    (hss : h.sourceIndices = range h.names.length) : h.Wf where
  pos := hsz ▸ succ_pos _
  limit := hli
  constant id hid := by
    rcases Nat.lt_succ_iff_lt_or_eq.1 (hsz ▸ hid) with hlt | rfl
    · rw [he.kind hlt]
      exact hg.constant id hlt
    · exact ⟨fun h => absurd h hk, fun h => absurd hg.pos (by omega)⟩
  canonical id hid hga := by
    rcases Nat.lt_succ_iff_lt_or_eq.1 (hsz ▸ hid) with hlt | rfl
    · rw [he.kind hlt] at hga
      obtain ⟨h1, h2, h3, h4, h5⟩ := hg.canonical id hlt hga
      rw [← he.inputs hlt] at h1 h2 h3 h4
      refine ⟨h1, h2, h3, h4, fun hxor => ?_⟩
      rw [he.inputs hlt]
      exact h5 (he.kind hlt ▸ hxor)
    · exact hcan hga
  level id hid := by
    rcases Nat.lt_succ_iff_lt_or_eq.1 (hsz ▸ hid) with hlt | rfl
    · rw [he.level hlt, hg.level id hlt, he.kind hlt, he.inputs hlt]
      split
      next hga =>
        obtain ⟨h1, h2⟩ := (hg.canonical id hlt hga).older
        rw [he.level (h1.trans hlt), he.level (h2.trans hlt)]
      · rfl
    · rw [hle]
      split
      next hga =>
        obtain ⟨h1, h2⟩ := (hcan hga).older
        rw [he.level h1, he.level h2]
      · rfl
  fanouts id hid := by
    rw [edges_push he hsz]
    rcases Nat.lt_succ_iff_lt_or_eq.1 (hsz ▸ hid) with hlt | rfl
    · rw [hold id hlt, hg.fanouts id hlt]
    · rw [hnew, hg.edges_size]
      unfold Node.reads
      split
      next hga =>
        obtain ⟨h1, h2⟩ := (hcan hga).older
        rw [if_neg (by omega), if_neg (by omega)]
      · rfl
  hashed key id := by
    have hkey : ∀ i < g.size, (h.node i).key = (g.node i).key := fun i hi => by
      rw [Node.key, Node.key, he.kind hi, he.inputs hi]
    rw [hin key]
    constructor
    · intro hid
      split at hid
      next hn =>
        cases hid
        exact ⟨by omega, hn⟩
      · obtain ⟨hlt, hga, heq⟩ := (hg.hashed key id).1 hid
        exact ⟨by omega, he.kind hlt ▸ hga, (hkey id hlt).trans heq⟩
    · rintro ⟨hid, hga, heq⟩
      rcases Nat.lt_succ_iff_lt_or_eq.1 (hsz ▸ hid) with hlt | rfl
      · have hf := (hg.hashed key id).2 ⟨hlt, he.kind hlt ▸ hga, (hkey id hlt).symm.trans heq⟩
        rw [if_neg, hf]
        rintro ⟨hg', heq'⟩
        rw [← heq', hfr hg'] at hf
        cases hf
      · rw [if_pos ⟨hga, heq⟩]
  sources := hss

section

variable (g : Xag) (name : String)

lemma size_pushSource : (g.pushSource name).size = g.size + 1 := by
  simp [pushSource, size]

lemma node_pushSource_of_lt {id : ℕ} (hid : id < g.size) :
    (g.pushSource name).node id = g.node id := getD_append _ _ _ _ hid

lemma node_pushSource : (g.pushSource name).node g.size =
    { kind := .source, sourceIndex := g.names.length } := by
  rw [node, pushSource, size, getD_append_right _ _ _ _ le_rfl, Nat.sub_self]
  rfl

lemma extends_pushSource : g.Extends (g.pushSource name) where
  size := by rw [size_pushSource]; omega
  core id hid := by rw [node_pushSource_of_lt g name hid]
  names := prefix_append _ _

end

lemma Wf.pushSource (hg : g.Wf) (hli : g.size < maxId) (name : String) :
    (g.pushSource name).Wf := by
  have he := extends_pushSource g name
  have hn := node_pushSource g name
  refine hg.push he (size_pushSource g name)
    (by rw [size_pushSource]; omega) ?_ ?_ ?_ ?_ ?_ ?_ ?_ ?_
  · rw [hn]
    nofun
  · rw [hn]
    nofun
  · rw [hn]
    rfl
  · intro id hid
    rw [node_pushSource_of_lt g name hid, hn]
    rfl
  · rw [hn]
  · intro key
    rw [hn]
    rfl
  · rw [hn]
    nofun
  · rw [sourceIndices_push he (size_pushSource g name), hn, hg.sources]
    simp [Xag.pushSource, range_succ]

variable (nodes : List Node) (i : ℕ)

@[simp] lemma length_bump : (bump nodes i).length = nodes.length :=
  length_modify _ _ _

lemma getD_bump {j : ℕ} (hj : j < nodes.length) : (bump nodes i).getD j {} =
    { nodes.getD j {} with fanouts := (nodes.getD j {}).fanouts + if i = j then 1 else 0 } := by
  rw [getD_eq_getElem _ _ (by rwa [length_bump]), getD_eq_getElem _ _ hj]
  simp only [bump, getElem_modify]
  split <;> rfl

variable (kind : Kind) {a b : Xsignal}

lemma size_pushGate (g : Xag) : (g.pushGate kind a b).size = g.size + 1 := by simp [pushGate, size]

lemma node_pushGate_of_lt (g : Xag) {id : ℕ} (hid : id < g.size) :
    (g.pushGate kind a b).node id = { g.node id with
      fanouts := (g.node id).fanouts + (if a.id = id then 1 else 0) + if b.id = id then 1
        else 0 } := by
  have hlt : id < g.nodes.length := hid
  rw [node, pushGate, getD_bump _ _ (by simp; omega), getD_bump _ _ (by simp; omega),
    getD_append _ _ _ _ hlt]
  rfl

lemma node_pushGate (g : Xag) (ha : a.id < g.size) (hb : b.id < g.size) :
    (g.pushGate kind a b).node g.size =
    { kind := kind, inputs := (a, b),
      level := 1 + max (g.node a.id).level (g.node b.id).level } := by
  rw [node, pushGate, getD_bump _ _ (by simp [size]), getD_bump _ _ (by simp [size]), size,
    getD_append_right _ _ _ _ le_rfl, Nat.sub_self, if_neg (by unfold size at ha; omega),
    if_neg (by unfold size at hb; omega)]
  rfl

lemma extends_pushGate (g : Xag) : g.Extends (g.pushGate kind a b) where
  size := by rw [size_pushGate]; omega
  core id hid := by rw [node_pushGate_of_lt kind g hid]; rfl
  names := prefix_rfl

lemma Wf.pushGate (hg : g.Wf) (hli : g.size < maxId) (hk : kind.isGate = true) (ha : a.id < g.size)
    (hb : b.id < g.size) (hab : a < b) (hne : a.id ≠ b.id) (ha0 : a.id ≠ 0) (hb0 : b.id ≠ 0)
    (hp : kind = .xorGate → a.inverted = false ∧ b.inverted = false)
    (hf : g.index ⟨kind, a, b⟩ = none) :
    (g.pushGate kind a b).Wf := by
  have he := extends_pushGate kind (a := a) (b := b) g
  have hn := node_pushGate kind g ha hb
  refine hg.push he (size_pushGate kind g) (by rw [size_pushGate]; omega) ?_ ?_ ?_ ?_ ?_ ?_ ?_ ?_
  · rw [hn]
    rintro rfl
    cases hk
  · rw [hn]
    exact fun _ => ⟨⟨ha, hb⟩, hab, hne, ⟨ha0, hb0⟩, hp⟩
  · rw [hn, if_pos hk]
  · intro id hid
    rw [node_pushGate_of_lt kind g hid, hn]
    show _ = _ + if kind.isGate = true then _ else 0
    rw [if_pos hk, add_assoc]
  · rw [hn]
  · intro key
    rw [hn]
    show update g.index ⟨kind, a, b⟩ (some g.size) key =
      if kind.isGate = true ∧ ⟨kind, a, b⟩ = key then _ else _
    by_cases hkey : ⟨kind, a, b⟩ = key
    · subst hkey
      rw [update_self, if_pos ⟨hk, rfl⟩]
    · rw [update_of_ne (Ne.symm hkey), if_neg fun h => hkey h.2]
  · rw [hn]
    exact fun _ => hf
  · rw [sourceIndices_push he (size_pushGate kind g), hn, if_neg, append_nil, hg.sources]
    · rfl
    · rintro rfl
      cases hk

end

/-! ## The operations -/

section

variable {g : Xag} {a b : Xsignal} {f f' : (ℕ → Bool) → Bool}

lemma wf_empty : ({} : Xag).Wf where
  pos := one_pos
  limit := by decide
  constant id hid := by
    obtain rfl : id = 0 := lt_one_iff.1 hid
    exact ⟨fun _ => rfl, fun _ => rfl⟩
  canonical id hid hga := by
    obtain rfl : id = 0 := lt_one_iff.1 hid
    cases hga
  level id hid := by
    obtain rfl : id = 0 := lt_one_iff.1 hid
    rfl
  fanouts id hid := by
    obtain rfl : id = 0 := lt_one_iff.1 hid
    rfl
  hashed key id := by
    refine ⟨nofun, ?_⟩
    rintro ⟨hid, hga, -⟩
    obtain rfl : id = 0 := lt_one_iff.1 hid
    cases hga
  sources := rfl

lemma check_bind {α : Type} (hg : g.Wf) {s : Xsignal} {k : XagM α} {P : Xag → α → Prop}
    (hk : s.id < g.size → Builds arena k g P) : Builds arena (check s >>= fun _ => k) g P := by
  have hch : Builds arena (check s) g fun h _ => h = g ∧ s.id < g.size := by
    refine (Builds.get hg).bind fun _ h hh _ heq => ?_
    obtain ⟨rfl, rfl⟩ := heq
    exact .ite (fun _ => .throw hh) fun hlt => .pure hh ⟨rfl, not_le.1 hlt⟩
  refine hch.bind fun h _ _ _ hP => ?_
  obtain ⟨rfl, hlt⟩ := hP
  exact hk hlt

lemma input_builds (hg : g.Wf) (name : String) : Builds arena (input name) g fun h s =>
    h.names = g.names ++ [name] ∧ s = ⟨g.size, false⟩ ∧ h.Is s (fun env => env g.names.length) ∧
    (h.node s.id).level = 0 := by
  refine (Builds.get hg).bind fun _ h hh _ heq => ?_
  obtain ⟨rfl, rfl⟩ := heq
  refine .ite (fun _ => .throw hh) fun hli => ?_
  have hwf := hh.pushSource (not_le.1 hli) name
  refine (set hwf (extends_pushSource _ name)).bind fun t _ ht _ heq => ?_
  subst heq
  have hlt : h.size < (h.pushSource name).size := by rw [size_pushSource]; omega
  refine .pure ht ⟨rfl, rfl, ⟨hlt, fun env => ?_⟩, by rw [node_pushSource]⟩
  simp [Xag.eval, Xsignal.value,
    ht.valueAt_source env hlt (by rw [node_pushSource]), node_pushSource]

/-- What a gate over `a` and `b` is. -/
structure IsGate (g : Xag) (kind : Kind) (a b s : Xsignal) : Prop where
  lt : s.id < g.size
  eval : ∀ env, g.eval env s = kind.op (g.eval env a) (g.eval env b)
  level : (g.node s.id).level ≤ 1 + max (g.node a.id).level (g.node b.id).level

lemma IsGate.is {kind : Kind} {s : Xsignal} (h : g.IsGate kind a b s)
    (ha : g.Is a f) (hb : g.Is b f') :
    g.Is s fun env => kind.op (f env) (f' env) :=
  ⟨h.lt, fun env => by rw [h.eval, ha.eval, hb.eval]⟩

/-- A gate of a well-formed graph, seen as its own lookup. -/
lemma Wf.isGate (hg : g.Wf) {id : ℕ} (hid : id < g.size) {kind : Kind}
    (hga : (g.node id).kind.isGate = true)
    (hkey : (g.node id).key = ⟨kind, a, b⟩) : g.IsGate kind a b ⟨id, false⟩ := by
  obtain ⟨rfl, rfl, rfl⟩ : (g.node id).kind = kind ∧ (g.node id).inputs.1 = a ∧
      (g.node id).inputs.2 = b := by
    simpa [Node.key] using hkey
  refine ⟨hid, fun env => ?_, ?_⟩
  · simp [Xag.eval, Xsignal.value, hg.valueAt_gate env hid hga]
  · rw [hg.level id hid, if_pos hga]

lemma internOrdered_builds (hg : g.Wf) {kind : Kind} (hk : kind.isGate = true) (ha : a.id < g.size)
    (hb : b.id < g.size) (hab : a < b) (hne : a.id ≠ b.id) (ha0 : a.id ≠ 0) (hb0 : b.id ≠ 0)
    (hp : kind = .xorGate → a.inverted = false ∧ b.inverted = false) :
    Builds arena (internOrdered kind a b) g fun h s =>
    s.inverted = false ∧ h.IsGate kind a b s := by
  refine (Builds.get hg).bind fun _ h hh _ heq => ?_
  obtain ⟨rfl, rfl⟩ := heq
  cases hidx : h.index ⟨kind, a, b⟩ with
  | some id =>
    obtain ⟨hid, hga, hkey⟩ := (hh.hashed _ _).1 hidx
    exact .pure hh ⟨rfl, hh.isGate hid hga hkey⟩
  | none =>
    refine .ite (fun _ => .throw hh) fun hli => ?_
    have hwf := hh.pushGate kind (not_le.1 hli) hk ha hb hab hne ha0 hb0 hp hidx
    refine (set hwf (extends_pushGate kind _)).bind fun t _ ht _ heq => ?_
    subst heq
    have hn := node_pushGate kind h ha hb
    refine .pure ht ⟨rfl, ht.isGate (by rw [size_pushGate]; omega) ?_ ?_⟩
    · rwa [hn]
    · rw [hn]
      rfl

lemma Kind.op_comm (kind : Kind) (x y : Bool) : kind.op x y = kind.op y x := by
  cases kind with
  | constant => rfl
  | source => rfl
  | andGate => exact Bool.and_comm x y
  | xorGate => exact Bool.xor_comm x y

lemma IsGate.swap {kind : Kind} {s : Xsignal} (h : g.IsGate kind b a s) : g.IsGate kind a b s where
  lt := h.lt
  eval env := (h.eval env).trans (Kind.op_comm _ _ _)
  level := max_comm (g.node a.id).level _ ▸ h.level

lemma intern_builds (hg : g.Wf) (kind : Kind) (hk : kind.isGate = true) (ha : a.id < g.size)
    (hb : b.id < g.size) (hne : a.id ≠ b.id) (ha0 : a.id ≠ 0) (hb0 : b.id ≠ 0)
    (hp : kind = .xorGate → a.inverted = false ∧ b.inverted = false) :
    Builds arena (intern kind a b) g fun h s => s.inverted = false ∧ h.IsGate kind a b s := by
  refine .ite (fun hlt => ?_) fun hge => ?_
  · have hsw := internOrdered_builds hg hk hb ha hlt hne.symm hb0 ha0 fun hx => (hp hx).symm
    exact hsw.mono fun _ _ _ _ h => ⟨h.1, h.2.swap⟩
  · have hne' : a ≠ b := fun h => hne (congrArg _ h)
    exact internOrdered_builds hg hk ha hb (lt_of_le_of_ne (not_lt.1 hge) hne') hne ha0 hb0 hp

lemma Wf.eval_zero (hg : g.Wf) (env : ℕ → Bool) (h : a.id = 0) : g.eval env a = a.inverted := by
  simp [Xag.eval, Xsignal.value, h, hg.valueAt_zero]

lemma Wf.level_zero (hg : g.Wf) : (g.node 0).level = 0 := by
  rw [hg.level 0 hg.pos, (hg.constant 0 hg.pos).2 rfl]
  rfl

lemma land_builds (hg : g.Wf) (a b : Xsignal) : Builds arena (land a b) g fun h s =>
    a.id < g.size ∧ b.id < g.size ∧ h.IsGate .andGate a b s := by
  refine check_bind hg fun ha => check_bind hg fun hb => ?_
  refine .ite (fun ha0 => ?_) fun ha0 => .ite (fun hb0 => ?_) fun hb0 =>
    .ite (fun hid => ?_) fun hid => ?_
  · refine .pure hg ⟨ha, hb, ?_⟩
    by_cases hinv : a.inverted = true
    · rw [if_pos hinv]
      exact ⟨hb, fun env => by simp [op, hg.eval_zero env ha0, hinv], by omega⟩
    · rw [if_neg hinv]
      exact ⟨ha, fun env => by simp [op, hg.eval_zero env ha0, hinv], by omega⟩
  · refine .pure hg ⟨ha, hb, ?_⟩
    by_cases hinv : b.inverted = true
    · rw [if_pos hinv]
      exact ⟨ha, fun env => by simp [op, hg.eval_zero env hb0, hinv], by omega⟩
    · rw [if_neg hinv]
      exact ⟨hb, fun env => by simp [op, hg.eval_zero env hb0, hinv], by omega⟩
  · refine .pure hg ⟨ha, hb, ?_⟩
    rcases Xsignal.eq_of_id hid with rfl | rfl
    · rw [if_pos rfl]
      exact ⟨ha, fun env => by simp [op], by omega⟩
    · rw [if_neg (by simp [Xsignal.not])]
      exact ⟨hg.pos,
        fun env => by simp [Kind.op, hg.eval_constant], hg.level_zero.trans_le (Nat.zero_le _)⟩
  · have hin := intern_builds hg .andGate rfl ha hb hid ha0 hb0 (by simp)
    exact hin.mono fun _ _ _ _ hga => ⟨ha, hb, hga.2⟩

/-- A complement moves through a XOR. -/
lemma IsGate.xor_phase {i j k : ℕ}
    (h : g.IsGate .xorGate ⟨i, false⟩ ⟨j, false⟩ ⟨k, false⟩) (p q : Bool) :
    g.IsGate .xorGate ⟨i, p⟩ ⟨j, q⟩ ⟨k, p != q⟩ where
  lt := h.lt
  eval env := by
    have hval := h.eval env
    simp only [Xag.eval, Xsignal.value, Bool.xor_false] at hval ⊢
    rw [hval]
    generalize g.valueAt env i = x
    generalize g.valueAt env j = y
    revert p q x y
    decide
  level := h.level

lemma lxorPlain_builds (hg : g.Wf) (inverted : Bool) {i j : ℕ} (hi : i < g.size) (hj : j < g.size) :
    Builds arena (lxorPlain inverted i j) g fun h s =>
      s.inverted = inverted ∧ h.IsGate .xorGate ⟨i, false⟩ ⟨j, false⟩ ⟨s.id, false⟩ := by
  refine .ite (fun hij => ?_) fun hij => .ite (fun h0 => ?_) fun h0 => ?_
  · subst hij
    refine .pure hg ⟨rfl, hg.pos, fun env => ?_, hg.level_zero.trans_le (zero_le _)⟩
    exact (hg.eval_constant env false).trans (Bool.xor_self _).symm
  · refine .pure hg ⟨rfl, ?_⟩
    by_cases hi0 : i = 0
    · subst hi0
      refine ⟨hj, fun env => ?_, ?_⟩
      · simp [op, Xag.eval, Xsignal.value, hg.valueAt_zero]
      · exact le_trans (le_max_right _ _) (le_add_left _ _)
    · obtain rfl : j = 0 := h0.resolve_left hi0
      simp only [ne_eq, hi0]
      refine ⟨hi, fun env => ?_, ?_⟩
      · simp [op, Xag.eval, Xsignal.value, hg.valueAt_zero]
      · exact le_trans (le_max_left _ _) (le_add_left _ _)
  · obtain ⟨hi0, hj0⟩ := not_or.1 h0
    have hin := intern_builds hg (a := ⟨i, false⟩) (b := ⟨j, false⟩) .xorGate rfl hi hj hij hi0 hj0
      fun _ => ⟨rfl, rfl⟩
    refine hin.map fun h s _ _ hs => ⟨rfl, ?_⟩
    obtain ⟨k, p⟩ := s
    obtain ⟨rfl, hga⟩ := hs
    exact hga

lemma lxor_builds (hg : g.Wf) (a b : Xsignal) : Builds arena (lxor a b) g fun h s =>
    a.id < g.size ∧ b.id < g.size ∧ h.IsGate .xorGate a b s := by
  refine check_bind hg fun ha => check_bind hg fun hb =>
    (lxorPlain_builds hg _ ha hb).mono fun h s _ _ hs => ?_
  obtain ⟨i, p⟩ := s
  obtain ⟨rfl, hga⟩ := hs
  exact ⟨ha, hb, hga.xor_phase a.inverted b.inverted⟩

lemma lor_builds (hg : g.Wf) (a b : Xsignal) : Builds arena (lor a b) g fun h s =>
    a.id < g.size ∧ b.id < g.size ∧ s.id < h.size ∧
    (∀ env, h.eval env s = (h.eval env a || h.eval env b)) ∧
      (h.node s.id).level ≤ 1 + max (h.node a.id).level (h.node b.id).level := by
  refine (land_builds hg a.not b.not).map fun h s _ _ hs => ?_
  obtain ⟨ha, hb, hga⟩ := hs
  refine ⟨ha, hb, hga.lt, fun env => ?_, hga.level⟩
  rw [eval_not, hga.eval]
  simp [op]

variable {s t : Xsignal} {fs ft ff : (ℕ → Bool) → Bool}

section

variable (hg : g.Wf) (ha : g.Is a f) (hb : g.Is b f')
include hg ha hb

lemma land_is : Builds arena (land a b) g fun h s => h.Is s fun env => f env && f' env :=
  (land_builds hg a b).mono fun _ _ hh he hs => hs.2.2.is (ha.mono hg hh he) (hb.mono hg hh he)

lemma lxor_is : Builds arena (lxor a b) g fun h s => h.Is s fun env => f env ^^ f' env :=
  (lxor_builds hg a b).mono fun _ _ hh he hs => hs.2.2.is (ha.mono hg hh he) (hb.mono hg hh he)

lemma lor_is : Builds arena (lor a b) g fun h s => h.Is s fun env => f env || f' env := by
  refine (land_is hg ha.not hb.not).map fun h s _ _ hs => hs.not.congr fun env => ?_
  simp

end

lemma mux_builds (hg : g.Wf) (s t f : Xsignal) : Builds arena (mux s t f) g fun h r =>
    s.id < g.size ∧ t.id < g.size ∧ f.id < g.size ∧ h.Is r fun env =>
    bif g.eval env s then g.eval env t else g.eval env f := by
  refine check_bind hg fun hs => check_bind hg fun ht => check_bind hg fun hf => ?_
  suffices hma : Builds arena _ g fun h r => h.Is r fun env =>
      bif g.eval env s then g.eval env t else g.eval env f from
    hma.mono fun _ _ _ _ hr => ⟨hs, ht, hf, hr⟩
  have his := is_self hs
  have hit := is_self ht
  have hif := is_self hf
  refine .ite (fun hs0 => .pure hg ?_) fun _ => .ite (fun htf => .pure hg ?_) fun _ =>
    ite (fun htf => ?_) fun _ => .ite (fun ht0 => ?_) fun _ => .ite (fun hf0 => ?_) fun _ => ?_
  · by_cases hinv : s.inverted = true
    · rw [if_pos hinv]
      exact hit.congr fun env => by simp [hg.eval_zero env hs0, hinv]
    · rw [if_neg hinv]
      exact hif.congr fun env => by rw [hg.eval_zero env hs0, Bool.eq_false_iff.2 hinv, cond_false]
  · subst htf
    exact hit.congr fun env => by cases g.eval env s <;> rfl
  · subst htf
    refine (lxor_is hg his hif).mono fun h r _ _ hr => hr.congr fun env => ?_
    rw [eval_not]
    cases g.eval env s <;> cases g.eval env f <;> rfl
  · refine .ite (fun hinv => ?_) fun hinv => ?_
    · refine (lor_is hg his hif).mono fun h r _ _ hr => hr.congr fun env => ?_
      rw [hg.eval_zero env ht0, hinv]
      cases g.eval env s <;> rfl
    · refine (land_is hg his.not hif).mono fun h r _ _ hr => hr.congr fun env => ?_
      rw [hg.eval_zero env ht0, Bool.eq_false_iff.2 hinv]
      cases g.eval env s <;> rfl
  · refine .ite (fun hinv => ?_) fun hinv => ?_
    · refine (lor_is hg his.not hit).mono fun h r _ _ hr => hr.congr fun env => ?_
      rw [hg.eval_zero env hf0, hinv]
      cases g.eval env s <;> rfl
    · refine (land_is hg his hit).mono fun h r _ _ hr => hr.congr fun env => ?_
      rw [hg.eval_zero env hf0, Bool.eq_false_iff.2 hinv]
      cases g.eval env s <;> simp
  · refine (lxor_is hg hit hif).bind fun h d hh he hd => ?_
    refine (land_is hh (his.mono hg hh he) hd).bind fun h' p hh' he' hp => ?_
    refine (lxor_is hh' (hif.mono hg hh' (he.trans he')) hp).mono fun _ r _ _ hr =>
      hr.congr fun env => ?_
    cases g.eval env s <;> cases g.eval env t <;> cases g.eval env f <;> rfl

end

/-! ## Only a source adds a name -/

/-- Graphs with the same sources. -/
def sameNames : Arena Xag where
  inv _ := True
  le g h := h.names = g.names
  refl _ := rfl
  trans hgh hhk := hhk.trans hgh

section

variable {g : Xag} {a b : Xsignal}

lemma intern_names (kind : Kind) : Builds sameNames (intern kind a b) g fun _ _ => True := by
  have hor : ∀ a b, Builds sameNames (internOrdered kind a b) g fun _ _ => True := by
    intro a b
    refine (Builds.get trivial).bind fun _ h _ _ heq => ?_
    obtain ⟨rfl, rfl⟩ := heq
    cases h.index ⟨kind, a, b⟩ with
    | some id => exact .pure trivial trivial
    | none =>
      refine .ite (fun _ => .throw trivial) fun _ => ?_
      exact (set (t := h.pushGate kind a b) trivial rfl).bind fun _ _ _ _ _ => .pure trivial trivial
  exact .ite (fun _ => hor b a) fun _ => hor a b

lemma check_names (s : Xsignal) : Builds sameNames (check s) g fun _ _ => True :=
  (Builds.get trivial).bind fun _ _ _ _ _ =>
    ite (fun _ => .throw trivial) fun _ => .pure trivial trivial

lemma land_names : Builds sameNames (land a b) g fun _ _ => True := by
  refine (check_names a).bind fun _ _ _ _ _ => (check_names b).bind fun _ _ _ _ _ => ?_
  refine .ite (fun _ => .pure trivial trivial) fun _ => ?_
  refine .ite (fun _ => .pure trivial trivial) fun _ => ?_
  exact .ite (fun _ => .pure trivial trivial) fun _ => intern_names _

lemma lxor_names : Builds sameNames (lxor a b) g fun _ _ => True := by
  refine (check_names a).bind fun _ _ _ _ _ => (check_names b).bind fun _ _ _ _ _ => ?_
  refine .ite (fun _ => .pure trivial trivial) fun _ => ?_
  refine .ite (fun _ => .pure trivial trivial) fun _ => ?_
  exact (intern_names _).map fun _ _ _ _ _ => trivial

lemma lor_names : Builds sameNames (lor a b) g fun _ _ =>
    True := land_names.map fun _ _ _ _ _ => trivial

lemma mux_names {s t f : Xsignal} : Builds sameNames (mux s t f) g fun _ _ => True := by
  refine (check_names s).bind fun _ _ _ _ _ => (check_names t).bind fun _ _ _ _ _ =>
    (check_names f).bind fun _ _ _ _ _ => ?_
  refine .ite (fun _ => .pure trivial trivial) fun _ =>
      .ite (fun _ => .pure trivial trivial) fun _ =>
    ite (fun _ => lxor_names) fun _ =>
    .ite (fun _ => .ite (fun _ => lor_names) fun _ => land_names) fun _ =>
    ite (fun _ => .ite (fun _ => lor_names) fun _ => land_names) fun _ => ?_
  exact lxor_names.bind fun _ _ _ _ _ => land_names.bind fun _ _ _ _ _ => lxor_names

end

/-! ## Runs of operations -/

/-- The operations of the public interface. -/
inductive Op where
  | input (name : String)
  | land (a b : Xsignal)
  | lxor (a b : Xsignal)
  | lor (a b : Xsignal)
  | mux (s t f : Xsignal)

def Op.body : Op → XagM Xsignal
  | input name => Xag.input name
  | land a b => Xag.land a b
  | lxor a b => Xag.lxor a b
  | lor a b => Xag.lor a b
  | mux s t f => Xag.mux s t f

/-- The Boolean operation on the values of the argument signals; a new source is the next one. -/
def Op.denote (g : Xag) (env : ℕ → Bool) : Op → Bool
  | input _ => env g.names.length
  | land a b => g.eval env a && g.eval env b
  | lxor a b => g.eval env a ^^ g.eval env b
  | lor a b => g.eval env a || g.eval env b
  | mux s t f => bif g.eval env s then g.eval env t else g.eval env f

/-- Run one operation; the graph it leaves is kept also when it throws. -/
def Op.run (op : Op) (g : Xag) : Except XagError Xsignal × Xag := op.body.run.run g

/-- The graph after a sequence of operations. -/
def runOps (ops : List Op) : Xag := ops.foldl (fun g op => (op.run g).2) {}

section

variable {g : Xag}

lemma Op.builds (hg : g.Wf) (op : Op) : Builds arena op.body g fun h s =>
    s.id < h.size ∧ ∀ env, h.eval env s = op.denote g env := by
  cases op with
  | input name => exact (input_builds hg name).mono fun h s _ _ hs => ⟨hs.2.2.1.lt, hs.2.2.1.eval⟩
  | land a b =>
    refine (land_builds hg a b).mono fun h s hh he ⟨ha, hb, hs⟩ => ⟨hs.lt, fun env => ?_⟩
    rw [hs.eval, he.eval hg hh env ha, he.eval hg hh env hb]
    rfl
  | lxor a b =>
    refine (lxor_builds hg a b).mono fun h s hh he ⟨ha, hb, hs⟩ => ⟨hs.lt, fun env => ?_⟩
    rw [hs.eval, he.eval hg hh env ha, he.eval hg hh env hb]
    rfl
  | lor a b =>
    refine (lor_builds hg a b).mono fun h s hh he ⟨ha, hb, hs⟩ => ⟨hs.1, fun env => ?_⟩
    rw [hs.2.1, he.eval hg hh env ha, he.eval hg hh env hb]
    rfl
  | mux s t f => exact (mux_builds hg s t f).mono fun h r _ _ hr => ⟨hr.2.2.2.lt, hr.2.2.2.eval⟩

lemma wf_runOps (ops : List Op) : (runOps ops).Wf := by
  induction ops using reverseRecOn with
  | nil => exact wf_empty
  | append_singleton ops op ih =>
    rw [runOps, foldl_append]
    exact (op.builds ih).1

/-- No two gates share kind and inputs. -/
lemma Wf.unique (hg : g.Wf) {i j : ℕ} (hi : i < g.size) (hj : j < g.size)
    (hgi : (g.node i).kind.isGate = true)
    (hkey : (g.node i).key = (g.node j).key) : i = j := by
  have hgj : (g.node j).kind.isGate = true := by
    rwa [← show (g.node i).kind = (g.node j).kind from congrArg Key.kind hkey]
  have hf := (hg.hashed _ i).2 ⟨hi, hgi, hkey⟩
  exact Option.some.inj (hf.symm.trans ((hg.hashed _ j).2 ⟨hj, hgj, rfl⟩))

/-- After any sequence of operations the graph is well formed, and one more operation changes no
node but for fanout counts and returns a signal of the value it stands for. -/
theorem runOps_spec (ops : List Op) : (runOps ops).Wf ∧
    (∀ i < (runOps ops).size, ∀ j < (runOps ops).size, ((runOps ops).node i).kind.isGate = true →
      ((runOps ops).node i).key = ((runOps ops).node j).key → i = j) ∧
    ∀ op : Op, (runOps ops).Extends (op.run (runOps ops)).2 ∧ ∀ s, (op.run (runOps ops)).1 = .ok s →
      ∀ env, (op.run (runOps ops)).2.eval env s = op.denote (runOps ops) env := by
  have hg := wf_runOps ops
  refine ⟨hg, fun i hi j hj hgate hkey => hg.unique hi hj hgate hkey, fun op => ?_⟩
  obtain ⟨-, hext, hval⟩ := op.builds hg
  exact ⟨hext, fun s hs => (hval s hs).2⟩

end

end Xag

end LiveHD.Usyn
