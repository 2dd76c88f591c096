import LiveHD.Graph.CombDeps

/-!
# Combinational dependence is exact

The dependences of the outputs are those of the paths inside the bodies, whatever earlier queries
left in the cache, and those are the paths of the flattened design.
-/

namespace LiveHD.CombDeps

open Bool hiding or_false
open Worklist Relation Function List Body Nat Searching

/-! ## Paths in a body -/

variable {H : Hierarchy} {b b' top : Body} {a x y : Pin} {n c q port : ℕ}

/-- A combinational path from `a` to a pin of the same body, an instance being one step from an
input to an output that depends on it. -/
inductive Dep (H : Hierarchy) : Body → Pin → Pin → Prop
  | refl (b : Body) (a : Pin) : Dep H b a a
  | cell {b : Body} {a x : Pin} {n port q : ℕ} (h : Dep H b a x) (hn : b.kind n = some .comb)
      (hx : (x, ⟨n, port⟩) ∈ b.edges) :
      Dep H b a (.out n q)
  | inst {b b' : Body} {a x y : Pin} {n c port q : ℕ} (h : Dep H b a x)
      (hn : b.kind n = some (.sub c)) (hc : H.body c = some b')
      (hx : (x, ⟨n, port⟩) ∈ b.edges) (hport : port ∈ b'.inputs) (hq : q ∈ b'.outputs)
        (hy : b'.outDriver q = some y)
      (hinner : Dep H b' (.input port) y) : Dep H b a (.out n q)

/-- The output `q` of the definition `c` depends on its input `p`. -/
def DependsOn (H : Hierarchy) (c q p : ℕ) : Prop :=
  ∃ b y, H.body c = some b ∧ p ∈ b.inputs ∧ q ∈ b.outputs ∧
    b.outDriver q = some y ∧ Dep H b (.input p) y

def Exact (H : Hierarchy) (c q : ℕ) (deps : List ℕ) : Prop := ∀ p, p ∈ deps ↔ DependsOn H c q p

open Classical in
/-- What a pin reads, an instance output only what it depends on. -/
noncomputable def next (H : Hierarchy) (b : Body) : Pin → List Pin
  | .out n q =>
    match b.kind n with
    | some .comb => b.drivers n
    | some (.sub c) => ((b.into n).filter fun e => decide (DependsOn H c q e.1)).map (·.2)
    | some (.loop _) | some .register | none => []
  | _ => []

lemma mem_into {p : ℕ} : (p, x) ∈ b.into n ↔ (x, ⟨n, p⟩) ∈ b.edges := by
  simp only [Body.into, mem_map, mem_filter, beq_iff_eq, Prod.mk.injEq]
  constructor
  · rintro ⟨⟨pin, ⟨m, port⟩⟩, ⟨hmem, rfl⟩, rfl, rfl⟩
    exact hmem
  · intro h
    exact ⟨_, ⟨h, rfl⟩, rfl, rfl⟩

lemma mem_drivers : x ∈ b.drivers n ↔ ∃ port, (x, ⟨n, port⟩) ∈ b.edges := by
  rw [Body.drivers, mem_map]
  constructor
  · rintro ⟨⟨p, pin⟩, hmem, rfl⟩
    exact ⟨p, mem_into.1 hmem⟩
  · rintro ⟨p, hp⟩
    exact ⟨(p, x), mem_into.2 hp, rfl⟩

lemma mem_next_comb (hn : b.kind n = some .comb) : x ∈ next H b (.out n q) ↔
    ∃ port, (x, ⟨n, port⟩) ∈ b.edges := by
  rw [next, hn]
  exact mem_drivers

open Classical in
lemma mem_next_sub (hn : b.kind n = some (.sub c)) :
    x ∈ next H b (.out n q) ↔ ∃ port, (x, ⟨n, port⟩) ∈ b.edges ∧ DependsOn H c q port := by
  rw [next, hn]
  rw [mem_map]
  constructor
  · rintro ⟨⟨p, pin⟩, hmem, rfl⟩
    obtain ⟨hmem, hdep⟩ := mem_filter.1 hmem
    exact ⟨p, mem_into.1 hmem, of_decide_eq_true hdep⟩
  · rintro ⟨p, hp, hdep⟩
    exact ⟨(p, x), mem_filter.2 ⟨mem_into.2 hp, decide_eq_true hdep⟩, rfl⟩

/-- What a pin reads drives its node. -/
lemma edge_of_mem_next (h : y ∈ next H b x) : ∃ n q port, x = .out n q ∧ (y, ⟨n, port⟩) ∈ b.edges ∧
    (b.kind n = some .comb ∨ ∃ c, b.kind n = some (.sub c)) := by
  cases x with
  | input p => cases h
  | const v => cases h
  | out n q =>
    cases hn : b.kind n with
    | none =>
      rw [next, hn] at h
      cases h
    | some k =>
      cases k with
      | comb =>
        obtain ⟨port, hp⟩ := (mem_next_comb hn).1 h
        exact ⟨n, q, port, rfl, hp, .inl hn⟩
      | sub c =>
        obtain ⟨port, hp, -⟩ := (mem_next_sub hn).1 h
        exact ⟨n, q, port, rfl, hp, .inr ⟨c, hn⟩⟩
      | register =>
        rw [next, hn] at h
        cases h
      | loop c =>
        rw [next, hn] at h
        cases h

lemma dep_iff : Dep H b a x ↔ ReflTransGen (fun x y => y ∈ next H b x) x a := by
  rw [← reflTransGen_swap]
  constructor
  · intro h
    induction h with
    | refl _ _ => exact .refl
    | cell _ hn hx ih => exact ih.tail ((mem_next_comb hn).2 ⟨_, hx⟩)
    | inst _ hn hc hx hp hq hy hin ih _ =>
      exact ih.tail ((mem_next_sub hn).2 ⟨_, hx, _, _, hc, hp, hq, hy, hin⟩)
  · intro h
    induction h with
    | refl => exact .refl b a
    | tail _ hst ih =>
      obtain ⟨n, q, -, rfl, -, hn | ⟨c, hn⟩⟩ := edge_of_mem_next hst
      · obtain ⟨port, hx⟩ := (mem_next_comb hn).1 hst
        exact .cell ih hn hx
      · obtain ⟨port, hx, b', y, hc, hp, hq, hy, hin⟩ := (mem_next_sub hn).1 hst
        exact .inst ih hn hc hx hp hq hy hin

/-! ## The flattened design -/

/-- Up to a pin of the flattened design from `a`, by the frames that the path is still inside of. -/
inductive Trace (H : Hierarchy) (top : Body) (a : Pin) : List ℕ → Body → Pin → Prop
  | root {x : Pin} (h : Dep H top a x) : Trace H top a [] top x
  | enter {path : List ℕ} {b b' : Body} {u x : Pin} {n c port : ℕ} (hu : Trace H top a path b u)
      (hn : b.kind n = some (.sub c))
      (hc : H.body c = some b') (hx : (u, ⟨n, port⟩) ∈ b.edges) (hport : port ∈ b'.inputs)
        (h : Dep H b' (.input port) x) :
      Trace H top a (n :: path) b' x

namespace Trace

variable {path : List ℕ}

lemma extend {step : Pin} (h : Trace H top a path b x) (hst : ∀ s, Dep H b s x → Dep H b s step) :
    Trace H top a path b step := by
  cases h with
  | root h => exact .root (hst _ h)
  | enter hu hn hc hx hp h => exact .enter hu hn hc hx hp (hst _ h)

lemma body_eq (h : Trace H top a path b x) (hb : At H top path b') : b = b' := by
  induction h generalizing b' with
  | root _ =>
    cases hb
    rfl
  | enter _ hn hc _ _ _ ih =>
    cases hb with
    | inst hp hn' hc' =>
      obtain rfl := ih hp
      rw [hn] at hn'
      cases (Option.some.inj hn')
      exact Option.some.inj (hc.symm.trans hc')

/-- A step of the flattened design. -/
lemma feeds {path' : List ℕ} (h : Trace H top a path b x) (hst : Feeds H top (path, x) (path', y)) :
    ∃ b', Trace H top a path' b' y := by
  cases hst with
  | cell hp hn hx =>
    obtain rfl := h.body_eq hp
    exact ⟨b, h.extend fun _ hs => .cell hs hn hx⟩
  | enter hp hn hc hx hpo =>
    obtain rfl := h.body_eq hp
    exact ⟨_, .enter h hn hc hx hpo (.refl _ _)⟩
  | leave hp hn hc hq hx =>
    cases h with
    | enter hu hn' hc' hed hpo hin =>
      obtain rfl := hu.body_eq hp
      rw [hn] at hn'
      cases (Option.some.inj hn')
      cases (hc'.symm.trans hc)
      exact ⟨_, hu.extend fun _ hs => .inst hs hn hc hed hpo hq hx hin⟩

end Trace

lemma feeds_of_dep (h : Dep H b a x) :
    ∀ path, At H top path b → ReflTransGen (Feeds H top) (path, a) (path, x) := by
  induction h with
  | refl _ _ => exact fun _ _ => .refl
  | cell _ hn hx ih => exact fun path hp => (ih path hp).tail (.cell hp hn hx)
  | inst _ hn hc hx hpo hq hy _ ih ihinner =>
    intro path hp
    have hin := (ih path hp).tail (.enter hp hn hc hx hpo)
    exact (hin.trans (ihinner _ (.inst hp hn hc))).tail (.leave hp hn hc hq hy)

/-- The paths of the flattened design between two pins of the top are those through the bodies. -/
lemma feeds_iff_dep : ReflTransGen (Feeds H top) ([], a) ([], x) ↔ Dep H top a x := by
  constructor
  · intro h
    have key : ∀ s, ReflTransGen (Feeds H top) ([], a) s → ∃ b, Trace H top a s.1 b s.2 := by
      intro s hs
      induction hs with
      | refl => exact ⟨top, .root (.refl _ _)⟩
      | tail _ hst ih =>
        obtain ⟨b, hb⟩ := ih
        exact hb.feeds hst
    obtain ⟨b, hb⟩ := key _ h
    cases hb with
    | root h => exact h
  · exact fun h => feeds_of_dep h [] .root

/-! ## The dependences of the outputs -/

/-- The cached entries are exact, but for the open ones. -/
def Valid (H : Hierarchy) (opened : ℕ × ℕ → Prop) (cache : Cache) : Prop :=
  ∀ k deps, cache k = some deps → opened k ∨ Exact H k.1 k.2 deps

variable {opened : ℕ × ℕ → Prop} {cache : Cache}

lemma Valid.update {k : ℕ × ℕ} {deps : List ℕ} (h : Valid H (fun j => opened j ∨ j = k) cache)
    (hde : Exact H k.1 k.2 deps) :
    Valid H opened (Function.update cache k (some deps)) := by
  intro j l hj
  by_cases hjk : j = k
  · subst hjk
    rw [update_self] at hj
    exact .inr (Option.some.inj hj ▸ hde)
  · rw [update_of_ne hjk] at hj
    exact (h j l hj).imp_left fun ho => ho.resolve_right hjk

lemma Valid.seed (h : Valid H opened cache) (k : ℕ × ℕ) :
    Valid H (fun j => opened j ∨ j = k) (Function.update cache k (some [])) := by
  intro j l hj
  by_cases hjk : j = k
  · exact .inl (.inr hjk)
  · rw [update_of_ne hjk] at hj
    exact (h j l hj).imp_left .inl

/-- A function that answers for the definitions below a rank and keeps the cache valid. -/
def Answers (H : Hierarchy) (bound : ℕ) (deps : Cache → ℕ → ℕ → Option (List ℕ × Cache)) : Prop :=
  ∀ (opened : ℕ × ℕ → Prop) (cache : Cache) (c q : ℕ), H.rank c < bound →
    (∀ k, opened k → H.rank c < H.rank k.1) →
    (∀ b, H.body c = some b → q ∈ b.outputs) → Valid H opened cache →
    ∃ l cache', deps cache c q = some (l, cache') ∧ Exact H c q l ∧ Valid H opened cache'

lemma next_eq_filter {l : List ℕ} (hn : b.kind n = some (.sub c)) (hl : Exact H c q l) :
    ((b.into n).filter (·.1 ∈ l)).map (·.2) = next H b (.out n q) := by
  rw [next, hn]
  refine congrArg _ (filter_congr fun e _ => ?_)
  rw [decide_eq_decide]
  exact hl e.1

/-- One item of the walk inside a callee. -/
lemma coneVisit_spec {deps : Cache → ℕ → ℕ → Option (List ℕ × Cache)} {s : Cache × List ℕ}
    {seen : List Pin} (hde : Answers H (H.rank c) deps) (hc : H.body c = some b)
    (hop : ∀ k, opened k → H.rank c ≤ H.rank k.1)
    (hx : b.Declares H.body x) (hca : Valid H opened s.1)
    (hres : ∀ p, p ∈ s.2 ↔ p ∈ b.inputs ∧ .input p ∈ seen) :
    ∃ s', coneVisit b deps s x = some (s', next H b x) ∧ Valid H opened s'.1 ∧ ∀ p, p ∈ s'.2 ↔
    p ∈ b.inputs ∧ .input p ∈ x :: seen := by
  have hsk : (∀ p, x ≠ .input p) → ∀ p, p ∈ s.2 ↔ p ∈ b.inputs ∧ .input p ∈ x :: seen := by
    intro hne p
    rw [hres, mem_cons, or_iff_right (hne p).symm]
  cases x with
  | input i =>
    refine ⟨(s.1, if i ∈ b.inputs then i :: s.2 else s.2), rfl, hca, fun p => ?_⟩
    rw [mem_cons, Pin.input.injEq]
    split
    · rw [mem_cons, hres]
      refine ⟨?_, fun ⟨hp, hor⟩ => hor.imp_right fun h => ⟨hp, h⟩⟩
      rintro (rfl | ⟨hp, h⟩)
      · exact ⟨by assumption, .inl rfl⟩
      · exact ⟨hp, .inr h⟩
    · rw [hres]
      refine and_congr_right fun hp => (or_iff_right ?_).symm
      rintro rfl
      contradiction
  | const v => exact ⟨s, rfl, hca, hsk fun _ => nofun⟩
  | out n q =>
    have hre' := hsk fun _ => nofun
    rw [coneVisit, next]
    cases hn : b.kind n with
    | none => exact ⟨s, rfl, hca, hre'⟩
    | some k =>
      cases k with
      | comb => exact ⟨s, rfl, hca, hre'⟩
      | register => exact ⟨s, rfl, hca, hre'⟩
      | loop d => exact ⟨s, rfl, hca, hre'⟩
      | sub d =>
        have hra := H.acyclic c b n d hc hn
        obtain ⟨l, cache', hcl, hl, hca'⟩ :=
          hde opened s.1 d q hra (fun k hk => hra.trans_le (hop k hk))
          (fun b' hb' => hx n q d b' rfl hn hb') hca
        refine ⟨(cache', s.2), ?_, hca', hre'⟩
        change (deps s.1 d q).map _ = _
        rw [hcl]
        refine congrArg (fun l => some ((cache', s.2), l)) ?_
        rw [next_eq_filter hn hl, next, hn]

lemma skipConst_next (H : Hierarchy) (b : Body) :
    ∀ x, Body.skipConst x = true → next H b x = [] := by
  intro x hx
  cases x with
  | input p => rfl
  | const v => rfl
  | out n q => exact absurd hx false_ne_true

lemma length_next_le (H : Hierarchy) (b : Body) (x : Pin) :
    (next H b x).length ≤ (b.readsAll x).length := by
  cases x with
  | input p => exact le_rfl
  | const v => exact le_rfl
  | out n q =>
    rw [next, Body.readsAll]
    split
    · exact le_rfl
    · rw [drivers, length_map, length_map]
      exact length_filter_le _ _
    · exact zero_le _
    · exact zero_le _
    · exact zero_le _

lemma mem_pins_of_mem_next {roots : List Pin} (h : y ∈ next H b x) : y ∈ b.pins roots := by
  obtain ⟨n, q, port, -, hed, -⟩ := edge_of_mem_next h
  exact mem_append_right _ (mem_map_of_mem hed)

lemma reached_iff {roots : List Pin} : Reached Body.skipConst (next H b) roots x ↔
    Body.skipConst x = false ∧ ∃ r ∈ roots, Dep H b x r := by
  refine and_congr_right fun _ => exists_congr fun r => and_congr_right fun _ => ?_
  have hrd : Reads skipConst (next H b) = fun x y => y ∈ next H b x := by
    funext x y
    exact propext (reads_iff (skipConst_next H b))
  rw [dep_iff, hrd]

/-- `sub_output_deps` is exact, whatever the cache holds. -/
lemma subOutputDeps_answers (H : Hierarchy) (depth : ℕ) :
    Answers H depth (subOutputDeps H depth) := by
  induction depth with
  | zero => exact fun _ _ _ _ h => absurd h (Nat.not_lt_zero _)
  | succ depth ih =>
    intro opened cache c q hra hop hde hv
    rw [subOutputDeps]
    cases hkey : cache (c, q) with
    | some deps =>
      exact ⟨deps, cache, rfl, (hv _ _ hkey).resolve_left fun ho => absurd (hop _ ho) (lt_irrefl _),
        hv⟩
    | none =>
      have hsd := hv.seed (c, q)
      cases hc : H.body c with
      | none =>
        have hexa : Exact H c q [] := by
          refine fun p => iff_of_false not_mem_nil ?_
          rintro ⟨b, -, hb, -⟩
          rw [hc] at hb
          cases hb
        exact ⟨[], _, rfl, hexa, .update (fun k l hk => (hv k l hk).imp_left .inl) hexa⟩
      | some b =>
        have hq := hde b hc
        change ∃ l cache', (if q ∈ b.outputs then _ else _) = _ ∧ _
        rw [if_pos hq]
        have hpi : ∀ x ∈ b.pins (b.outDriver q).toList, b.Declares H.body x := by
          intro x hx
          rcases mem_append.1 hx with hx | hx
          · exact (H.declared c b hc).2 q x (Option.mem_toList.1 hx)
          · obtain ⟨e, he, rfl⟩ := mem_map.1 hx
            exact (H.declared c b hc).1 e he
        have hst := start skipConst (fun _ => false) (next H b) (b.outDriver q).toList
        obtain ⟨out, hse, hf, hres, -⟩ := search_spec (coneVisit b (subOutputDeps H depth))
          (fun s seen => Valid H (fun k => opened k ∨ k = (c, q)) s.1 ∧ ∀ p, p ∈ s.2 ↔
            p ∈ b.inputs ∧ .input p ∈ seen)
          (b.pins (b.outDriver q).toList) (fun _ _ _ _ hy _ => mem_pins_of_mem_next hy)
          (fun s seen x hs hx _ _ _ => coneVisit_spec
            (fun o k d r hd => ih o k d r (hd.trans_le (le_of_lt_succ hra))) hc
            (fun k hk => hk.elim (fun ho => (hop k ho).le) fun he => he ▸ le_rfl)
              (hpi x hx) hs.1 hs.2)
          (s := (update cache (c, q) (some []), []))
          ⟨hsd, fun p => ⟨nofun, fun h => absurd h.2 not_mem_nil⟩⟩ hst
          (fun x hx _ => mem_append_left _ hx) (fuel_mono (length_next_le H b) _ _ _)
        have hnot : out.found = false := by
          rw [← not_eq_true, hf]
          rintro ⟨_, -, hgo⟩
          cases hgo
        obtain ⟨⟨hca, hmem⟩, hsn⟩ := hres hnot
        have hexa : Exact H c q out.state.2 := by
          intro p
          rw [hmem, hsn, reached_iff]
          constructor
          · rintro ⟨hp, -, r, hr, hdep⟩
            exact ⟨b, r, hc, hp, hq, Option.mem_toList.1 hr, hdep⟩
          · rintro ⟨b', r, hb', hp, -, hr, hdep⟩
            cases (hc.symm.trans hb')
            exact ⟨hp, rfl, r, Option.mem_toList.2 hr, hdep⟩
        refine ⟨out.state.2, update out.state.1 (c, q) (some out.state.2),
          ?_, hexa, hca.update hexa⟩
        change Option.map _ (search _ _ _ _ _ _ _) = _
        rw [hse]
        rfl

/-! ## The two walks of a query -/

lemma mem_readers {m : ℕ} : n ∈ b.readers m ↔ ∃ q port, (.out m q, ⟨n, port⟩) ∈ b.edges := by
  rw [Body.readers, mem_map]
  constructor
  · rintro ⟨⟨pin, ⟨n', port⟩⟩, hmem, rfl⟩
    obtain ⟨hed, hout⟩ := mem_filter.1 hmem
    cases pin with
    | input p => exact absurd hout false_ne_true
    | const v => exact absurd hout Bool.false_ne_true
    | out m' q =>
      obtain rfl := beq_iff_eq.1 hout
      exact ⟨q, port, hed⟩
  · rintro ⟨q, port, hmem⟩
    exact ⟨_, mem_filter.2 ⟨hmem, beq_self_eq_true m⟩, rfl⟩

variable {target : ℕ}

/-- The prefilter drops no node of a path from the target. -/
lemma candidates_spec (hta : (b.kind target).isSome) : ∃ inside, candidates b target = some inside ∧
    target ∈ inside ∧ ∀ q x, Dep H b (.out target q) x → ∃ n q', x = .out n q' ∧ n ∈ inside := by
  have hsk : ((b.kind target).isNone ||
      (target != target && b.kind target == some .register)) = false := by
    rw [bne_self_eq_false]
    cases hk : b.kind target with
    | none => rw [hk] at hta; cases hta
    | some k => rfl
  have hite : ∀ m, ∀ n ∈ b.readers m, n ∈ target :: b.edges.map (·.2.node) := by
    intro m n hn
    obtain ⟨q, port, hed⟩ := mem_readers.1 hn
    exact .tail _ (mem_map.2 ⟨_, hed, rfl⟩)
  have hst := start (fun n => (b.kind n).isNone || (n != target && b.kind n == some .register))
    (fun _ => false) b.readers [target]
  obtain ⟨out, hse, hf, hsn, -⟩ :=
    search_spec (fun (_ : Unit) n => some ((), b.readers n)) (fun _ _ => True)
    (target :: b.edges.map (·.2.node)) (s := ()) (fun m _ _ n hn _ => hite m n hn)
      (fun _ _ _ _ _ _ _ _ => ⟨(), rfl, trivial⟩) trivial hst
    (fun n hn _ => mem_singleton.1 hn ▸ (.head _)) le_rfl
  have hnot : out.found = false := by
    rw [← not_eq_true, hf]
    rintro ⟨_, -, hgo⟩
    cases hgo
  have hmem := (hsn hnot).2
  have htop := (hmem target).2 ⟨hsk, target, mem_singleton_self _, .refl⟩
  refine ⟨out.seen, by rw [candidates, hse]; rfl, htop, fun q x hx => ?_⟩
  rw [dep_iff, ← reflTransGen_swap] at hx
  induction hx with
  | refl => exact ⟨target, q, rfl, htop⟩
  | @tail y x _ hste ih =>
    obtain ⟨m, qm, rfl, hm⟩ := ih
    obtain ⟨n, q', port, rfl, hed, hn⟩ := edge_of_mem_next hste
    have hns : ((b.kind n).isNone || (n != target && b.kind n == some .register)) = false := by
      rcases hn with hn | ⟨c, hn⟩
      · rw [hn]
        exact and_false _
      · rw [hn]
        exact Bool.and_false _
    obtain ⟨hms, r, hr, hre⟩ := (hmem m).1 hm
    exact ⟨n, q', rfl, (hmem n).2 ⟨hns, r, hr, hre.tail ⟨hms, mem_readers.2 ⟨qm, port, hed⟩⟩⟩⟩

open Classical in
/-- What a pin reads in the precise walk. -/
noncomputable def nextInside (H : Hierarchy) (b : Body) (inside : List ℕ) : Pin → List Pin
  | .out n q => if n ∈ inside then next H b (.out n q) else []
  | _ => []

variable {inside : List ℕ}

lemma mem_nextInside : y ∈ nextInside H b inside x ↔
    y ∈ next H b x ∧ ∃ n q, x = .out n q ∧ n ∈ inside := by
  cases x with
  | input p => exact ⟨nofun, fun ⟨_, _, _, h, _⟩ => nomatch h⟩
  | const v => exact ⟨nofun, fun ⟨_, _, _, h, _⟩ => nomatch h⟩
  | out n q =>
    rw [nextInside]
    split
    next hn => exact ⟨fun h => ⟨h, n, q, rfl, hn⟩, And.left⟩
    next hn =>
      refine iff_of_false not_mem_nil ?_
      rintro ⟨-, m, q', heq, hm⟩
      cases heq
      exact hn hm

lemma skipInput_nextInside (H : Hierarchy) (b : Body) (inside : List ℕ) :
    ∀ x, Body.skipInput x = true → nextInside H b inside x = [] := by
  intro x hx
  cases x with
  | input p => rfl
  | const v => rfl
  | out n q => exact absurd hx false_ne_true

/-- A path from `a` that stays inside is one of the precise walk. -/
lemma path_inside (hin : ∀ x, Dep H b a x → ∃ n q, x = .out n q ∧ n ∈ inside) (h : Dep H b a x) :
    ReflTransGen (fun x y => y ∈ nextInside H b inside x) x a := by
  rw [dep_iff] at h
  induction h using ReflTransGen.head_induction_on with
  | refl => exact .refl
  | head hst hr ih =>
    exact .head (mem_nextInside.2 ⟨hst, hin _ (dep_iff.2 (.head hst hr))⟩) ih

lemma walkVisit_spec {deps : Cache → ℕ → ℕ → Option (List ℕ × Cache)} {s : Cache}
    (hde : Answers H (H.rank c) deps) (hc : H.body c = some b) (hx : b.Declares H.body x)
    (hca : Valid H (fun _ => False) s) :
    ∃ s', walkVisit b inside deps s x = some (s', nextInside H b inside x) ∧
    Valid H (fun _ => False) s' := by
  cases x with
  | input p => exact ⟨s, rfl, hca⟩
  | const v => exact ⟨s, rfl, hca⟩
  | out n q =>
    rw [walkVisit, nextInside]
    split
    · rw [next]
      cases hn : b.kind n with
      | none => exact ⟨s, rfl, hca⟩
      | some k =>
        cases k with
        | comb => exact ⟨s, rfl, hca⟩
        | register => exact ⟨s, rfl, hca⟩
        | loop d => exact ⟨s, rfl, hca⟩
        | sub d =>
          obtain ⟨l, cache', hcl, hl, hca'⟩ :=
            hde (fun _ => False) s d q (H.acyclic c b n d hc hn) (fun _ hk => hk.elim)
            (fun b' hb' => hx n q d b' rfl hn hb') hca
          refine ⟨cache', ?_, hca'⟩
          change (deps s d q).map _ = _
          rw [hcl]
          refine congrArg (fun l => some (cache', l)) ?_
          rw [next_eq_filter hn hl, next, hn]
    · exact ⟨s, rfl, hca⟩

lemma isTarget_iff : isTarget inside target x = true ↔
    ∃ q, x = .out target q ∧ target ∈ inside := by
  cases x with
  | input p => exact iff_of_false Bool.false_ne_true fun ⟨_, h, _⟩ => nomatch h
  | const v => exact iff_of_false false_ne_true fun ⟨_, h, _⟩ => nomatch h
  | out n q =>
    rw [isTarget, and_eq_true, decide_eq_true_eq, beq_iff_eq]
    constructor
    · rintro ⟨hn, rfl⟩
      exact ⟨q, rfl, hn⟩
    · rintro ⟨q', heq, ht⟩
      cases heq
      exact ⟨ht, rfl⟩

/-- One query on a valid cache. -/
lemma combPinDependsOn_spec {driver : Pin} (hc : H.body c = some b)
    (hta : (b.kind target).isSome) (hdr : b.Declares H.body driver)
    (hca : Valid H (fun _ => False) cache) :
    ∃ r cache', combPinDependsOn H cache c driver target = some (r, cache') ∧
    Valid H (fun _ => False) cache' ∧
      (r = true ↔ CombPath H b target driver) := by
  have hp : CombPath H b target driver ↔
    ∃ q, Dep H b (.out target q) driver := exists_congr fun _ => feeds_iff_dep
  rw [hp]
  obtain ⟨inside, hcn, htop, hin⟩ := candidates_spec (H := H) hta
  cases driver with
  | input p =>
    refine ⟨false, cache, by rw [combPinDependsOn]; exact nofun, hca, iff_of_false false_ne_true ?_⟩
    rintro ⟨q, hq⟩
    obtain ⟨n, q', heq, -⟩ := hin q _ hq
    cases heq
  | const v =>
    refine ⟨false, cache, by rw [combPinDependsOn]; exact nofun, hca, iff_of_false false_ne_true ?_⟩
    rintro ⟨q, hq⟩
    obtain ⟨n, q', heq, -⟩ := hin q _ hq
    cases heq
  | out n qd =>
    have hsm : (b.kind target).isNone = false := by rw [← Option.not_isSome, hta]; rfl
    unfold combPinDependsOn
    rw [hc]
    change ∃ r cache', (if (b.kind target).isNone = true then _
      else (candidates b target).bind _) = _ ∧ _
    rw [hsm, hcn]
    change ∃ r cache', (if n ∈ inside then _ else _) = _ ∧ _
    by_cases hn : n ∈ inside
    · rw [if_pos hn]
      have hpi : ∀ x ∈ b.pins [.out n qd], b.Declares H.body x := by
        intro x hx
        rcases mem_append.1 hx with hx | hx
        · exact mem_singleton.1 hx ▸ hdr
        · obtain ⟨e, he, rfl⟩ := mem_map.1 hx
          exact (H.declared c b hc).1 e he
      have hlen : ∀ x, (nextInside H b inside x).length ≤ (b.readsAll x).length := by
        intro x
        cases x with
        | input p => exact le_rfl
        | const v => exact le_rfl
        | out m q =>
          rw [nextInside]
          split
          · exact length_next_le H b _
          · exact zero_le _
      have hst := start skipInput (isTarget inside target) (nextInside H b inside) [.out n qd]
      obtain ⟨out, hse, hf, -, -, hke⟩ :=
        search_spec (walkVisit b inside (subOutputDeps H (H.rank c)))
        (fun s _ => Valid H (fun _ => False) s) (b.pins [.out n qd])
          (fun _ _ _ _ hy _ => mem_pins_of_mem_next (mem_nextInside.1 hy).1)
        (fun s _ x hs hx _ _ _ => walkVisit_spec (subOutputDeps_answers H (H.rank c))
          hc (hpi x hx) hs) hca hst
        (fun x hx _ => mem_append_left _ hx) (fuel_mono hlen _ _ _)
      refine ⟨out.found, out.state, by rw [hse]; rfl, hke, hf.trans ?_⟩
      have hrd : Reads skipInput (nextInside H b inside) = fun x y =>
          y ∈ nextInside H b inside x := by
        funext x y
        exact propext (reads_iff (skipInput_nextInside H b inside))
      constructor
      · rintro ⟨x, ⟨-, r, hr, hx⟩, hgo⟩
        obtain ⟨q, rfl, -⟩ := isTarget_iff.1 hgo
        obtain rfl := mem_singleton.1 hr
        rw [hrd] at hx
        exact ⟨q, dep_iff.2 (.mono (fun _ _ h => (mem_nextInside.1 h).1) _ _ hx)⟩
      · rintro ⟨q, hq⟩
        refine ⟨.out target q, ⟨rfl, _, mem_singleton_self _, ?_⟩, isTarget_iff.2 ⟨q, rfl, htop⟩⟩
        rw [hrd]
        exact path_inside (hin q) hq
    · rw [if_neg hn]
      refine ⟨false, cache, rfl, hca, iff_of_false Bool.false_ne_true ?_⟩
      rintro ⟨q, hq⟩
      obtain ⟨m, q', heq, hm⟩ := hin q _ hq
      cases heq
      exact hn hm

/-- The query is about a node and a pin of a definition with a body. -/
def Query.Of (q : Query) (H : Hierarchy) (b : Body) : Prop :=
  H.body q.definition = some b ∧ (b.kind q.target).isSome ∧ b.Declares H.body q.driver

lemma Query.answer_spec {q : Query} (hq : q.Of H b) (hca : Valid H (fun _ => False) cache) :
    ∃ r cache', q.answer H cache = some (r, cache') ∧ Valid H (fun _ => False) cache' ∧
    (r = true ↔ CombPath H b q.target q.driver) := by
  obtain ⟨hc, hta, hdr⟩ := hq
  rw [Query.answer]
  cases q.shared with
  | true => exact combPinDependsOn_spec hc hta hdr hca
  | false =>
    have hem : Valid H (fun _ => False) fun _ => none := fun _ _ h => nomatch h
    obtain ⟨r, _, han, -, hr⟩ := combPinDependsOn_spec hc hta hdr hem
    refine ⟨r, cache, ?_, hca, hr⟩
    rw [han]
    rfl

lemma answers_spec (queries : List Query) (hqu : ∀ q ∈ queries, ∃ b, q.Of H b)
    (hca : Valid H (fun _ => False) cache) : ∃ l, answers H cache queries = some l ∧
      Forall₂ (fun (q : Query) r => r = true ↔
        ∃ b, H.body q.definition = some b ∧ CombPath H b q.target q.driver) queries l := by
  induction queries generalizing cache with
  | nil => exact ⟨[], rfl, .nil⟩
  | cons q queries ih =>
    obtain ⟨b, hb⟩ := hqu q (.head _)
    obtain ⟨r, cache', han, hca', hr⟩ := Query.answer_spec hb hca
    obtain ⟨l, hl, hre⟩ := ih (fun q hq => hqu q (.tail _ hq)) hca'
    refine ⟨r :: l, by
      rw [answers, han, Option.bind_some, hl]; rfl,
        .cons (hr.trans ⟨fun h => ⟨b, hb.1, h⟩, ?_⟩) hre⟩
    rintro ⟨b', hb', hp⟩
    cases (hb.1.symm.trans hb')
    exact hp

/-- `comb_pin_depends_on` answers whether the flattened design has a combinational path, whatever
queries went before. -/
theorem answers_iff_combPath (H : Hierarchy) (queries : List Query)
    (hqueries : ∀ q ∈ queries, ∃ b, q.Of H b) :
    ∃ l, answers H (fun _ => none) queries = some l ∧
      Forall₂ (fun (q : Query) r => r = true ↔
        ∃ b, H.body q.definition = some b ∧ CombPath H b q.target q.driver) queries l :=
  answers_spec queries hqueries fun _ _ h => nomatch h

/-- Output 0 reads input 0 and not input 1. -/
def leaf : Body where
  kind n := if n = 0 then some .comb else none
  edges := [(.input 0, ⟨0, 0⟩)]
  inputs := [0, 1]
  outputs := [0]
  outDriver _ := some (.out 0 0)

/-- An instance of `leaf` whose output feeds its own input 1, through a cell. -/
def feedback : Body where
  kind n := if n = 0 then some (.sub 0) else if n = 1 then some .comb else none
  edges := [(.input 0, ⟨0, 0⟩), (.out 1 0, ⟨0, 1⟩), (.out 0 0, ⟨1, 0⟩)]
  inputs := [0]
  outputs := [0]
  outDriver _ := some (.out 0 0)

lemma feedback_sub {n d : ℕ} (h : feedback.kind n = some (.sub d)) : d = 0 := by
  rw [feedback] at h
  dsimp only at h
  split at h
  · exact (Kind.sub.inj (Option.some.inj h)).symm
  · split at h
    · cases h
    · cases h

lemma leaf_sub {n d : ℕ} (h : leaf.kind n = some (.sub d)) : False := by
  rw [leaf] at h
  dsimp only at h
  split at h
  · cases h
  · cases h

def feedbackBody (c : ℕ) : Option Body := if c = 0 then some leaf
    else if c = 1 then some feedback else none

lemma feedback_declares (n : ℕ) : feedback.Declares feedbackBody (.out n 0) := by
  intro m q c b hpin hn hb
  cases hpin
  obtain rfl := feedback_sub hn
  cases hb
  exact .head _

def feedbackHierarchy : Hierarchy where
  body := feedbackBody
  rank c := c
  acyclic c b n d hc hn := by
    rw [feedbackBody] at hc
    split at hc
    · cases hc
      exact (leaf_sub hn).elim
    · split at hc
      · cases hc
        subst c
        exact feedback_sub hn ▸ Nat.one_pos
      · cases hc
  declared c b hc := by
    rw [feedbackBody] at hc
    split at hc
    · cases hc
      exact ⟨fun _ _ _ _ _ _ _ hn => (leaf_sub hn).elim,
        fun _ _ _ _ _ _ _ _ hn => (leaf_sub hn).elim⟩
    · split at hc
      · cases hc
        refine ⟨?_, fun q pin hpin => Option.some.inj hpin ▸ feedback_declares 0⟩
        intro e he
        simp only [feedback, mem_cons, not_mem_nil, or_false] at he
        rcases he with rfl | rfl | rfl
        · exact fun _ _ _ _ => nofun
        · exact feedback_declares 1
        · exact feedback_declares 0
      · cases hc

theorem answers_iff_combPath_feedback :
    ∃ l, answers feedbackHierarchy (fun _ => none)
    [⟨1, .out 0 0, 1, true⟩, ⟨1, .out 1 0, 0, true⟩, ⟨1, .out 0 0, 1, false⟩] = some l ∧
      Forall₂ (fun (q : Query) r => r = true ↔ ∃ b, feedbackHierarchy.body q.definition = some b ∧
        CombPath feedbackHierarchy b q.target q.driver)
        [⟨1, .out 0 0, 1, true⟩, ⟨1, .out 1 0, 0, true⟩, ⟨1, .out 0 0, 1, false⟩] l ∧
        l = [false, true, false] := by
  obtain ⟨l, hl, hall⟩ := answers_iff_combPath feedbackHierarchy
    [⟨1, .out 0 0, 1, true⟩, ⟨1, .out 1 0, 0, true⟩, ⟨1, .out 0 0, 1, false⟩] (by
      intro q hq
      simp only [mem_cons, not_mem_nil, or_false] at hq
      rcases hq with rfl | rfl | rfl
      · exact ⟨feedback, rfl, rfl, feedback_declares 0⟩
      · exact ⟨feedback, rfl, rfl, feedback_declares 1⟩
      · exact ⟨feedback, rfl, rfl, feedback_declares 0⟩)
  exact ⟨l, hl, hall, Option.some.inj (hl.symm.trans (by decide))⟩

end LiveHD.CombDeps
