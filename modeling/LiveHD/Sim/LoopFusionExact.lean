import LiveHD.Sim.LoopFusionContract

/-!
# Loop fusion is exact

The valuations of a graph and of what the fusions of its groups leave correspond, with the same
values at every sink outside the fused loops and the same inputs for every member at every ordinal.
-/

namespace LiveHD.Sim.Fuse

open Relation List

/-- A sink of a graph that is none of a fused member's. -/
def Outside (g : Graph) (gs : List (List ℕ)) (s : Sink) : Prop :=
  ∀ n p, s = .node n p → n < g.nodes.length ∧ n ∉ gs.flatten

/-- A loop of the new graph runs every member of a group: its body has an instance of the member's
body, wired to ports that hold at each ordinal what the member's ports held. -/
def Runs (lib : Library) (g : Graph) (out : Library × Graph) (sem : Semantics) (ν ν₀ : Pin → ℤ)
    (group : List ℕ) : Prop :=
  ∃ f c D b, out.2.node f = some (.loop c D) ∧ out.1.graph c = some b ∧
    ∀ n ∈ group, ∃ (c₀ : ℕ) (L : SubnodeLoop) (i : ℕ) (port : ℕ → ℕ), g.node n = some (.loop c₀ L) ∧
    D.sameDomain L = true ∧
      b.node i = some (.sub c₀) ∧ (∀ d ∈ (lib.io c₀).inputs,
        (.input (port d.port), .node i d.port) ∈ b.edges) ∧
      ∀ r, ((lib.io c₀).fitInputs fun p => out.2.inputsAt out.1 sem ν f c D r (port p)) =
      g.inputsAt lib sem ν₀ n c₀ L r

/-- The same values outside the fused loops, and the same inputs within. -/
structure Agrees (lib : Library) (g : Graph) (gs : List (List ℕ))
    (out : Library × Graph) (sem : Semantics)
    (ν ν₀ : Pin → ℤ) : Prop where
  readers : ∀ s, Outside g gs s → out.2.values ν s = g.values ν₀ s
  ordinals : ∀ group ∈ gs, Runs lib g out sem ν ν₀ group

variable {lib : Library} {g : Graph} {gs : List (List ℕ)} {sem : Semantics}

lemma inputsAt_congr {ν ν' : Pin → ℤ} (hwf : g.WellFormed lib)
    (h : ∀ pin, g.Drives lib pin → ν pin = ν' pin)
    (n c : ℕ) (L : SubnodeLoop) (r : ℕ) :
    g.inputsAt lib sem ν n c L r = g.inputsAt lib sem ν' n c L r := by
  have hext : g.external ν n = g.external ν' n := by
    funext p
    exact congrArg _ (map_congr_left fun e he => h _ (hwf.driver e (mem_filter.1 he).1))
  obtain ⟨hp, hrun⟩ := Graph.running_congr lib sem hext c L r
  rw [Graph.inputsAt, Graph.inputsAt, hp, hrun]

lemma Agrees.congr {ν ν₀ ν₁ : Pin → ℤ} {out : Library × Graph} (hwf : g.WellFormed lib)
    (h : ∀ pin, g.Drives lib pin → ν₀ pin = ν₁ pin) (ha : Agrees lib g gs out sem ν ν₀) :
    Agrees lib g gs out sem ν ν₁ where
  readers s hs := by
    rw [ha.readers s hs]
    exact congrArg _ (map_congr_left fun e he => h _ (hwf.driver e (mem_filter.1 he).1))
  ordinals group hgro := by
    obtain ⟨f, c, D, b, hno, hgr, hme⟩ := ha.ordinals group hgro
    refine ⟨f, c, D, b, hno, hgr, fun n hn => ?_⟩
    obtain ⟨c₀, L, i, port, hn, hdo, hins, hwi, hin⟩ := hme n hn
    exact ⟨c₀, L, i, port, hn, hdo, hins, hwi,
      fun r => (hin r).trans (inputsAt_congr hwf h n c₀ L r)⟩

/-! ## The library -/

lemma exists_append (gs : List (List ℕ)) (s : Library × Graph) :
    ∃ new, (gs.foldl fuseGroup s).1 = s.1 ++ new := by
  induction gs generalizing s with
  | nil => exact ⟨[], (append_nil _).symm⟩
  | cons group gs ih =>
    obtain ⟨new, hnew⟩ := ih (fuseGroup s group)
    exact ⟨_ :: new, hnew.trans (append_cons _ _ _).symm⟩

lemma foldl_io (gs : List (List ℕ)) (s : Library × Graph) {c : ℕ} (hc : c < s.1.length) :
    (gs.foldl fuseGroup s).1.io c = s.1.io c ∧ (gs.foldl fuseGroup s).1.graph c = s.1.graph c := by
  obtain ⟨new, hnew⟩ := exists_append gs s
  rw [hnew, Library.io, Library.graph, getElem?_append_left hc]
  exact ⟨rfl, rfl⟩

/-- A fused body has instances only, so it does not see the definitions that come later. -/
lemma realizes_congr {lib₁ lib₂ : Library} {ms : List Member} {c : ℕ}
    (hms : ∀ m ∈ ms, lib₁.io m.callee = lib₂.io m.callee)
    (hc : lib₁.io c = lib₂.io c) (h : (fusedBody g ms).Realizes lib₁ sem c) :
    (fusedBody g ms).Realizes lib₂ sem c := by
  intro ins
  obtain ⟨ν, op, hν, hout⟩ := h ins
  rw [hc] at hout
  refine ⟨ν, op, ⟨hν.input, hν.const, fun i N hN p hp => ?_⟩, hout⟩
  have hN' := hN
  rw [Graph.node, fusedBody, getElem?_map, Option.join_eq_some_iff, Option.map_eq_some_iff] at hN
  obtain ⟨m, hm, hN⟩ := hN
  cases hN
  have hio := hms m (mem_of_getElem? hm)
  rw [Graph.hasOutput, ← hio] at hp
  rw [hν.out i _ hN' p hp, Graph.result, Graph.result, hio]

/-! ## The groups one after another -/

lemma node_foldl (h : Pending lib g gs) {n : ℕ} (hlt : n < g.nodes.length) (hn : n ∉ gs.flatten) :
    (gs.foldl fuseGroup (lib, g)).2.node n = g.node n := by
  induction gs generalizing lib g with
  | nil => rfl
  | cons group gs ih =>
    rw [flatten_cons, mem_append, not_or] at hn
    have hlt' : n < (fuseGroup (lib, g) group).2.nodes.length := by
      rw [length_nodes]
      exact hlt.trans (Nat.lt_succ_self _)
    exact (ih h.step hlt' hn.2).trans (h.setting.node_of_lt hlt hn.1)

/-- What the fusions of the groups leave corresponds to the graph before. -/
structure Simulates (lib : Library) (g : Graph) (gs : List (List ℕ)) (sem : Semantics)
    (σ : Pin → Pin) : Prop where
  solves : ∀ op ins ν, (gs.foldl fuseGroup (lib, g)).2.Solves
    (gs.foldl fuseGroup (lib, g)).1 sem ν op ins ↔
    g.Solves lib sem (ν ∘ σ) op ins
  exists_solves : ∀ op ins ν₀, g.Solves lib sem ν₀ op ins →
    ∃ ν, (gs.foldl fuseGroup (lib, g)).2.Solves (gs.foldl fuseGroup (lib, g)).1 sem ν op ins ∧
      ∀ pin, g.Drives lib pin → ν (σ pin) = ν₀ pin
  agrees : ∀ ν, Agrees lib g gs (gs.foldl fuseGroup (lib, g)) sem ν (ν ∘ σ)
  /-- The loops that are no members. -/
  inputsAt : ∀ n c L ν r, n < g.nodes.length → n ∉ gs.flatten → c < lib.length →
    (gs.foldl fuseGroup (lib, g)).2.inputsAt (gs.foldl fuseGroup (lib, g)).1 sem ν n c L r =
    g.inputsAt lib sem (ν ∘ σ) n c L r

lemma Simulates.nil (lib : Library) (g : Graph) (sem : Semantics) : Simulates lib g [] sem id where
  solves _ _ _ := .rfl
  exists_solves _ _ ν₀ hν := ⟨ν₀, hν, fun _ _ => rfl⟩
  agrees _ := ⟨fun _ _ => rfl, nofun⟩
  inputsAt _ _ _ _ _ _ _ _ := rfl

lemma Simulates.cons {group : List ℕ} (h : Pending lib g (group :: gs)) {σ : Pin → Pin}
    (hbo : (fusedBody g (members lib g group)).Realizes (fuseGroup (lib, g) group).1 sem lib.length)
    (hsim : Simulates (fuseGroup (lib, g) group).1 (fuseGroup (lib, g) group).2 gs sem σ) :
    Simulates lib g (group :: gs) sem (σ ∘ pinTo lib g group) := by
  have hs := h.setting
  have hlt : ∀ {n}, n < g.nodes.length → n < (fuseGroup (lib, g) group).2.nodes.length := by
    intro n hn
    rw [length_nodes]
    exact hn.trans (Nat.lt_succ_self _)
  have hlib : ∀ {c}, c < lib.length → c < (fuseGroup (lib, g) group).1.length := by
    intro c hc
    rw [fuseGroup_library, length_append]
    exact hc.trans (Nat.lt_succ_self _)
  have hf : g.nodes.length ∉ gs.flatten := by
    intro hmem
    obtain ⟨other, ho, hmem⟩ := mem_flatten.1 hmem
    obtain ⟨c, L, hno, -⟩ := (h.fusable other (.tail _ ho)).loop _ hmem
    exact absurd (lt_of_node hno) (lt_irrefl _)
  refine ⟨fun op ins ν => ?_, fun op ins ν₀ hν => ?_,
    fun ν => ⟨fun s hout => ?_, fun other ho => ?_⟩, fun n c L ν r hn hnot hc => ?_⟩
  · exact (hsim.solves op ins ν).trans (hs.solves_iff hbo (ν ∘ σ) op ins)
  · obtain ⟨ν₁, hν₁, hag⟩ := hs.exists_solves hbo hν
    obtain ⟨ν, hν, hag'⟩ := hsim.exists_solves op ins ν₁ hν₁
    exact ⟨ν, hν, fun pin hpin => (hag' _ (hs.drives_pinTo hpin)).trans (hag pin hpin)⟩
  · refine ((hsim.agrees ν).readers s fun n p hsi => ?_).trans (hs.values (fun n hn => ?_) (ν ∘ σ))
    · obtain ⟨hn, hnot⟩ := hout n p hsi
      rw [flatten_cons, mem_append, not_or] at hnot
      exact ⟨hlt hn, hnot.2⟩
    · obtain ⟨p, hsi⟩ := isNode_iff.1 hn
      obtain ⟨hn, hnot⟩ := hout n p hsi
      rw [flatten_cons, mem_append, not_or] at hnot
      exact ⟨hnot.1, hn.ne⟩
  · rcases mem_cons.1 ho with rfl | ho
    · refine ⟨g.nodes.length, lib.length, descriptor (members lib g other),
        fusedBody g (members lib g other), ?_, ?_, fun n hn => ?_⟩
      · refine (node_foldl h.step ?_ hf).trans hs.node_fused
        rw [length_nodes]
        exact Nat.lt_succ_self _
      · refine (foldl_io gs _ ?_).2.trans graph_fused
        rw [fuseGroup_library, length_append]
        exact Nat.lt_succ_self _
      · obtain ⟨x, hx, rfl⟩ := hs.exists_part hn
        obtain ⟨i, hi⟩ := getElem?_of_mem hx
        refine ⟨x.1.callee, x.1.loop, i, x.2.input, node_of_part hx,
          (hs.descriptor_domain (mem_of_mem_partsOf hx)).1,
          node_fusedBody hi, ?_, fun r => ?_⟩
        · rw [io_of_mem hx]
          exact fun d hd => input_mem_edges hi hd
        · rw [io_of_mem hx]
          refine Eq.trans ?_ (hs.inputsAt_fused hx (ν ∘ σ) hbo r)
          have hin := hsim.inputsAt g.nodes.length lib.length (descriptor (members lib g other)) ν r
            (by rw [length_nodes]; exact Nat.lt_succ_self _) hf
            (by rw [fuseGroup_library, length_append]; exact Nat.lt_succ_self _)
          exact congrArg _ (funext fun p => congrFun hin _)
    · obtain ⟨f, c, D, b, hno, hgr, hme⟩ := (hsim.agrees ν).ordinals other ho
      refine ⟨f, c, D, b, hno, hgr, fun n hn => ?_⟩
      obtain ⟨c₀, L, i, port, hn', hdo, hins, hwi, hin⟩ := hme n hn
      have hnot := h.disjoint ho n hn
      obtain ⟨c₁, L₁, hn₁, -⟩ := (h.fusable other (.tail _ ho)).loop n hn
      have hlen := lt_of_node hn₁
      rw [hs.node_of_lt hlen hnot] at hn'
      have hc := h.wf.callee n c₀ (by rw [Graph.callee?, hn'])
      rw [io_of_lt hc] at hwi hin
      exact ⟨c₀, L, i, port, hn', hdo, hins, hwi,
        fun r => (hin r).trans (hs.inputsAt_of_not hnot hlen (ν ∘ σ) hc L r)⟩
  · rw [flatten_cons, mem_append, not_or] at hnot
    exact (hsim.inputsAt n c L ν r (hlt hn) hnot.2 (hlib hc)).trans
      (hs.inputsAt_of_not hnot.1 hn (ν ∘ σ) hc L r)

lemma exists_simulates (h : Pending lib g gs) (hbo : ∀ c b, lib.length ≤ c →
      (gs.foldl fuseGroup (lib, g)).1.graph c = some b →
        b.Realizes (gs.foldl fuseGroup (lib, g)).1 sem c) :
    ∃ σ, Simulates lib g gs sem σ := by
  induction gs generalizing lib g with
  | nil => exact ⟨id, .nil lib g sem⟩
  | cons group gs ih =>
    have hlen : (fuseGroup (lib, g) group).1.length = lib.length + 1 := by
      rw [fuseGroup_library, length_append, length_singleton]
    obtain ⟨σ, hσ⟩ := ih h.step fun c b hc hb =>
      hbo c b (by rw [hlen] at hc; exact (Nat.le_succ _).trans hc) hb
    have hio : ∀ c, c < lib.length + 1 →
        ((group :: gs).foldl fuseGroup (lib, g)).1.io c = (fuseGroup (lib, g) group).1.io c :=
      fun c hc => (foldl_io gs (fuseGroup (lib, g) group) (hlen ▸ hc)).1
    refine ⟨_,
      .cons h (realizes_congr (fun m hm => ?_) (hio _ (Nat.lt_succ_self _)) (hbo _ _ le_rfl ?_)) hσ⟩
    · exact hio _ ((h.setting.plain hm).2.trans (Nat.lt_succ_self _))
    · exact (foldl_io gs (fuseGroup (lib, g) group) (hlen ▸ Nat.lt_succ_self _)).2.trans graph_fused

/-! ## What the new definitions compute -/

/-- The definitions that are new are fused bodies over the old ones. -/
lemma graph_new (h : Pending lib g gs) {k : ℕ}
    (hk : ∀ group ∈ gs, ∀ n ∈ group, ∀ c L, g.node n = some (.loop c L) → c < k) {c : ℕ} {b : Graph}
    (hc : lib.length ≤ c) (hb : (gs.foldl fuseGroup (lib, g)).1.graph c = some b) :
    ∃ (g' : Graph) (ms : List Member), b = fusedBody g' ms ∧ ∀ m ∈ ms, m.callee < k := by
  induction gs generalizing lib g with
  | nil =>
    change Library.graph lib c = _ at hb
    rw [Library.graph, getElem?_eq_none hc] at hb
    exact absurd hb (by simp)
  | cons group gs ih =>
    have hs := h.setting
    have hlen : (fuseGroup (lib, g) group).1.length = lib.length + 1 := by
      rw [fuseGroup_library, length_append, length_singleton]
    rcases hc.eq_or_lt with rfl | hlt
    · rw [foldl_cons, (foldl_io gs _ (hlen ▸ Nat.lt_succ_self _)).2, graph_fused] at hb
      refine ⟨g, members lib g group, (Option.some.inj hb).symm, fun m hm => ?_⟩
      obtain ⟨hid, hno, -⟩ := mem_members hm
      exact hk group (.head _) m.id hid m.callee m.loop hno
    · refine ih h.step (fun other ho n hn c L hcL => ?_) (by rw [hlen]; exact hlt) hb
      have ho' := mem_cons_of_mem group ho
      obtain ⟨c₁, L₁, hn₁, -⟩ := (h.fusable other ho').loop n hn
      rw [hs.node_of_lt (lt_of_node hn₁) (h.disjoint ho n hn)] at hcL
      exact hk other ho' n hn c L hcL

/-- The pins of a fused body, the instances computing `f`. -/
def bodyPins (lib : Library) (f : ℕ → (ℕ → ℤ) → ℕ → ℤ) (resolve : Multiset ℤ → ℤ)
    (b : Graph) (ins : ℕ → ℤ) : Pin → ℤ
  | .input i => (b.attrs (.input i)).fit (ins i)
  | .const v => v
  | .out i q =>
    match b.node i with
    | some (.sub c) =>
        (b.attrs (.out i q)).fit ((lib.io c).fitOutputs (f c ((lib.io c).fitInputs fun p =>
        resolve (b.values (fun
          | .input i => (b.attrs (.input i)).fit (ins i)
          | _ => 0) (.node i p)))) q)
    | _ => 0

lemma solves_bodyPins (lib : Library) (g : Graph) (ms : List Member) (sem : Semantics)
    {f : ℕ → (ℕ → ℤ) → ℕ → ℤ}
    (hf : ∀ m ∈ ms, sem.body m.callee = f m.callee)
    (op : ℕ → (ℕ → Multiset ℤ) → ℕ → ℤ) (ins : ℕ → ℤ) :
    (fusedBody g ms).Solves lib sem (bodyPins lib f sem.resolve (fusedBody g ms) ins) op ins where
  input _ := rfl
  const _ := rfl
  out i N hN p hp := by
    have hN' := hN
    rw [Graph.node, fusedBody, getElem?_map, Option.join_eq_some_iff, Option.map_eq_some_iff] at hN
    obtain ⟨m, hm, hN⟩ := hN
    cases hN
    rw [bodyPins, hN', Graph.result, hf m (mem_of_getElem? hm)]
    dsimp only
    refine congrArg _
      (congrFun (congrArg _ (congrArg _ (congrArg _ (funext fun p => congrArg sem.resolve ?_)))) _)
    refine congrArg _ (map_congr_left fun e he => ?_)
    obtain ⟨he, hs⟩ := mem_filter.1 he
    obtain ⟨x, -, he⟩ := mem_flatMap.1 he
    rcases mem_append.1 he with he | he
    · obtain ⟨io, -, rfl⟩ := mem_map.1 he
      rfl
    · obtain ⟨io, -, rfl⟩ := mem_map.1 he
      exact absurd hs (by simp)

/-- Whatever the old definitions compute, there is something for the new ones to compute. -/
lemma exists_semantics (h : Pending lib g gs) (sem : Semantics) :
    ∃ sem' : Semantics, (∀ c < lib.length, sem'.body c = sem.body c) ∧ sem'.resolve = sem.resolve ∧
      ∀ c b, lib.length ≤ c → (gs.foldl fuseGroup (lib, g)).1.graph c = some b →
      b.Realizes (gs.foldl fuseGroup (lib, g)).1 sem' c := by
  let out := (gs.foldl fuseGroup (lib, g)).1
  let body : ℕ → (ℕ → ℤ) → ℕ → ℤ := fun c =>
    if c < lib.length then sem.body c
    else match out.graph c with
      | some b => fun ins port => sem.resolve
        (b.values (bodyPins out sem.body sem.resolve b ins) (.output port))
      | none => sem.body c
  refine ⟨⟨body, sem.resolve, sem.resolve_singleton⟩, fun c hc => if_pos hc, rfl,
    fun c b hc hb ins => ?_⟩
  have hold : ∀ group ∈ gs, ∀ n ∈ group, ∀ c L, g.node n = some (.loop c L) → c < lib.length :=
    fun _ _ n _ c _ hn => h.wf.callee n c (by rw [Graph.callee?, hn])
  obtain ⟨g', ms, rfl, hms⟩ := graph_new h hold hc hb
  refine ⟨bodyPins out sem.body sem.resolve (fusedBody g' ms) ins,
    fun _ _ _ => 0, ?_, fun d _ => ?_⟩
  · let sem' : Semantics := ⟨body, sem.resolve, sem.resolve_singleton⟩
    exact solves_bodyPins out g' ms sem' (fun m hm => if_pos (hms m hm)) _ ins
  · have hout : out.graph c = some (fusedBody g' ms) := hb
    simp only [body, if_neg (not_lt.2 hc), hout]

/-! ## The dependencies -/

lemma foldl_acyclic (h : Pending lib g gs) (hac : ∀ n, ¬TransGen g.Dep n n) (n : ℕ) :
    ¬TransGen (gs.foldl fuseGroup (lib, g)).2.Dep n n := by
  induction gs generalizing lib g with
  | nil => exact hac n
  | cons group gs ih => exact ih h.step (h.setting.acyclic hac)

/-- A graph with a cycle has no groups. -/
lemma acyclic_of_groups (hwf : g.WellFormed lib) (h : groups lib g ≠ []) (n : ℕ) :
    ¬TransGen g.Dep n n := by
  have hdep : Needs g = g.Dep := by
    funext p s
    exact propext (needs_iff_dep hwf)
  rw [← hdep]
  exact (groups_chosen lib g).acyclic h n

/-- Loop fusion keeps the values of a graph, and the graph free of cycles. -/
theorem fuseParallelLoops_exact (lib : Library) (g : Graph)
    (hwf : g.WellFormed lib) : let out := fuseParallelLoops lib g
    (∀ group ∈ groups lib g, ∀ a ∈ group, ∀ b ∈ group, ¬TransGen g.Dep a b) ∧
      (∀ n, TransGen out.2.Dep n n → TransGen g.Dep n n) ∧
      ((∃ n, TransGen g.Dep n n) → out = (lib, g)) ∧
      ∀ sem : Semantics, (∀ c b, lib.length ≤ c → out.1.graph c = some b → b.Realizes out.1 sem c) →
      ∀ op ins,
        (∀ ν, out.2.Solves out.1 sem ν op ins → ∃ ν₀, g.Solves lib sem ν₀ op ins ∧
          Agrees lib g (groups lib g) out sem ν ν₀) ∧
        (∀ ν₀, g.Solves lib sem ν₀ op ins → ∃ ν, out.2.Solves out.1 sem ν op ins ∧
          Agrees lib g (groups lib g) out sem ν ν₀) ∧
        ((∀ n, ¬TransGen g.Dep n n) → ∀ ν ν₀, out.2.Solves out.1 sem ν op ins →
          g.Solves lib sem ν₀ op ins →
          Agrees lib g (groups lib g) out sem ν ν₀) := by
  intro out
  have h := pending_groups lib g hwf
  refine ⟨fun group hgroup a ha b hb => ?_, fun n hn => ?_, fun ⟨n, hn⟩ => ?_,
    fun sem hbody op ins => ?_⟩
  · exact (antichain_dep hwf).1 (h.fusable group hgroup).antichain a ha b hb
  · by_cases hgroups : groups lib g = []
    · have hout : out = (lib, g) := by
        change (groups lib g).foldl fuseGroup (lib, g) = _
        rw [hgroups]
        rfl
      rwa [hout] at hn
    · exact absurd hn (foldl_acyclic h (acyclic_of_groups hwf hgroups) n)
  · have hgroups : groups lib g = [] := by
      by_contra hne
      exact acyclic_of_groups hwf hne n hn
    change (groups lib g).foldl fuseGroup (lib, g) = _
    rw [hgroups]
    rfl
  · obtain ⟨σ, hσ⟩ := exists_simulates h hbody
    refine ⟨fun ν hν => ?_, fun ν₀ hν₀ => ?_, fun hacyclic ν ν₀ hν hν₀ => ?_⟩
    · exact ⟨ν ∘ σ, (hσ.solves op ins ν).1 hν, hσ.agrees ν⟩
    · obtain ⟨ν, hν, hagree⟩ := hσ.exists_solves op ins ν₀ hν₀
      exact ⟨ν, hν, (hσ.agrees ν).congr hwf hagree⟩
    · exact (hσ.agrees ν).congr hwf fun pin hpin =>
        Graph.Solves.unique hwf hacyclic ((hσ.solves op ins ν).1 hν) hν₀ hpin

/-- A body with a seed and an index that complements its seed, and two loops over it that carry its
result. -/
def pair : Library × Graph :=
  let port (p : ℕ) : PortDecl := ⟨p, 8, false⟩
  let L : SubnodeLoop := ⟨3, 2, 4, some 1, none, none⟩
  ([⟨⟨[port 0, port 1], [port 2], by decide, by decide⟩,
      some ⟨[some .cell], [(.input 0, .node 0 0), (.out 0 0, .output 2)], fun _ => ⟨8, false⟩⟩⟩],
    ⟨[some (.loop 0 L), some (.loop 0 L)],
      [(.input 0, .node 0 0), (.out 0 2, .node 0 0), (.out 0 2, .output 2),
        (.input 1, .node 1 0), (.out 1 2, .node 1 0),
        (.out 1 2, .output 3)], fun _ => ⟨8, false⟩⟩)

lemma wellFormed_pair : pair.2.WellFormed pair.1 where
  callee id c h := by
    have : c = 0 := by
      rcases id with _ | _ | n
      · exact (Option.some.inj h).symm
      · exact (Option.some.inj h).symm
      · exact absurd h (by simp [Graph.callee?, Graph.node, pair])
    rw [this]
    exact one_pos
  driver := by
    have h₀ : pair.2.Drives pair.1 (.out 0 2) := fun n q heq => by
      cases heq
      exact ⟨_, rfl, rfl⟩
    have h₁ : pair.2.Drives pair.1 (.out 1 2) := fun n q heq => by
      cases heq
      exact ⟨_, rfl, rfl⟩
    have hin : ∀ i, pair.2.Drives pair.1 (.input i) := fun i n q heq => by cases heq
    simp only [pair, forall_mem_cons]
    exact ⟨hin 0, h₀, h₀, hin 1, h₁, h₁, (by simp)⟩
  sink := by
    have hn : ∀ i < 2, ∀ n p, Sink.node i 0 = .node n p →
        (pair.2.node n).isSome ∧ ∀ c, pair.2.callee? n = some c →
        ((pair.1.io c).input? p).isSome := by
      intro i hi n p heq
      cases heq
      interval_cases i
      · exact ⟨rfl, fun c hc => by obtain rfl := Option.some.inj hc; rfl⟩
      · exact ⟨rfl, fun c hc => by obtain rfl := Option.some.inj hc; rfl⟩
    have hout : ∀ q n p, Sink.output q = .node n p →
        (pair.2.node n).isSome ∧ ∀ c, pair.2.callee? n = some c →
        ((pair.1.io c).input? p).isSome := fun q n p heq => by cases heq
    simp only [pair, forall_mem_cons]
    exact ⟨hn 0 (by simp), hn 0 (by simp), hout 2, hn 1 (by simp),
      hn 1 (by simp), hout 3, (by simp)⟩

/-- The two loops become one, and every pair of valuations agrees. -/
theorem fuseParallelLoops_exact_pair :
    groups pair.1 pair.2 = [[0, 1]] ∧ ∃ sem : Semantics, ∀ op ins ν ν₀,
    (fuseParallelLoops pair.1 pair.2).2.Solves (fuseParallelLoops pair.1 pair.2).1 sem ν op ins →
      pair.2.Solves pair.1 sem ν₀ op ins → Agrees pair.1 pair.2 [[0, 1]]
      (fuseParallelLoops pair.1 pair.2) sem ν ν₀ := by
  have hgroups : groups pair.1 pair.2 = [[0, 1]] := by decide
  obtain ⟨sem, -, -, hsem⟩ := exists_semantics (pending_groups pair.1 pair.2 wellFormed_pair)
    ⟨fun _ ins _ => -ins 0 - 1, Multiset.sum, fun v => Multiset.sum_singleton v⟩
  refine ⟨hgroups, sem, fun op ins ν ν₀ hν hν₀ => ?_⟩
  have hexact := (fuseParallelLoops_exact pair.1 pair.2 wellFormed_pair).2.2.2 sem hsem op ins
  exact hexact.2.2 (acyclic_of_groups wellFormed_pair (by rw [hgroups]; exact cons_ne_nil _ _)) ν ν₀
    hν hν₀

end LiveHD.Sim.Fuse
