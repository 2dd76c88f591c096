import LiveHD.Graph.FlattenSubsSound

/-!
# The rounds of inlining

The definitions that count as free of state are those whose hierarchy is finite and holds none, and
an instance is selected when a path without instances or state leads from one of its outputs to one
of its inputs.
-/

namespace LiveHD.FlattenSubs

open Relation List Bool Option

variable {lib : Library}

/-! ## Definitions without state -/

/-- A definition whose hierarchy ends and holds no state, no compact loop and no black box. -/
inductive Comb (lib : Library) : ℕ → Prop
  | mk {callee : ℕ} {cg : Def} (body : lib.body callee = some cg)
    (state : ∀ n ∈ cg.ids, n ∉ cg.state)
      (loops : ∀ n ∈ cg.ids, ∀ c, cg.kind n ≠ some (.loop c))
        (subs : ∀ n ∈ cg.ids, ∀ c, cg.kind n = some (.sub c) → Comb lib c) :
      Comb lib callee

/-- The first definition has an instance of the second. -/
def Instantiates (lib : Library) (c c' : ℕ) : Prop := ∃ cg, lib.body c = some cg ∧
    ∃ n ∈ cg.ids, cg.kind n = some (.sub c')

/-- No definition without state is inside itself. -/
lemma Comb.not_transGen {c : ℕ} (h : Comb lib c) : ¬TransGen (Instantiates lib) c c := by
  induction h with
  | @mk c cg hbo _ _ _ ih =>
    intro hcy
    obtain ⟨c', ⟨cg', hcg', n, hn, hk⟩, hp⟩ := TransGen.head'_iff.1 hcy
    cases (hbo.symm.trans hcg')
    exact ih n hn c' hk (.tail' hp ⟨cg, hbo, n, hn, hk⟩)

namespace Library

/-- What is remembered is right; the definitions that are looked at are remembered as not pure. -/
def CacheOk (lib : Library) (open_ : List ℕ) (cache : Cache) : Prop :=
  ∀ c ok, cache.lookup c = some ok → (ok = true → Comb lib c) ∧
    (ok = false → ¬Comb lib c ∨ c ∈ open_)

/-- What is asked about the instances of a definition keeps the memory and answers right. -/
def Answers (lib : Library) (open_ : List ℕ) (pure : Cache → ℕ → Bool × Cache) (c : ℕ) : Prop :=
  ∀ cache, CacheOk lib open_ cache → (∀ p ∈ open_, (cache.lookup p).isSome) →
    ((pure cache c).1 = true ↔ Comb lib c) ∧ CacheOk lib open_ (pure cache c).2 ∧
    ∀ p ∈ open_, ((pure cache c).2.lookup p).isSome

/-- A node that does not keep a definition from being free of state. -/
def NodeComb (lib : Library) (cg : Def) (n : ℕ) : Prop :=
  n ∉ cg.state ∧ (∀ c, cg.kind n ≠ some (.loop c)) ∧ ∀ c, cg.kind n = some (.sub c) → Comb lib c

variable {open_ : List ℕ} {pure : Cache → ℕ → Bool × Cache}

lemma nodesAreComb_spec {cg : Def} (ns : List ℕ)
    (hpu : ∀ n ∈ ns, ∀ c, cg.kind n = some (.sub c) → Answers lib open_ pure c) {cache : Cache}
    (hca : CacheOk lib open_ cache) (hop : ∀ p ∈ open_, (cache.lookup p).isSome) :
    ((nodesAreComb pure cg ns cache).1 = true ↔ ∀ n ∈ ns, NodeComb lib cg n) ∧
    CacheOk lib open_ (nodesAreComb pure cg ns cache).2 ∧
      ∀ p ∈ open_, ((nodesAreComb pure cg ns cache).2.lookup p).isSome := by
  induction ns generalizing cache with
  | nil => exact ⟨⟨nofun, fun _ => rfl⟩, hca, hop⟩
  | cons n ns ih =>
    have ht : ∀ m ∈ ns, ∀ c, cg.kind m = some (.sub c) → Answers lib open_ pure c := fun m hm =>
      hpu m (mem_cons_of_mem n hm)
    have hsto : ¬NodeComb lib cg n →
        ((false = true ↔ ∀ m ∈ n :: ns, NodeComb lib cg m)) := fun hn =>
      ⟨nofun, fun h => absurd (h n (.head _)) hn⟩
    have hgo : ∀ {cache}, NodeComb lib cg n → CacheOk lib open_ cache →
        (∀ p ∈ open_, (cache.lookup p).isSome) →
        ((nodesAreComb pure cg ns cache).1 = true ↔ ∀ m ∈ n :: ns, NodeComb lib cg m) ∧
        CacheOk lib open_ (nodesAreComb pure cg ns cache).2 ∧
          ∀ p ∈ open_, ((nodesAreComb pure cg ns cache).2.lookup p).isSome := by
      intro cache hn hca hop
      obtain ⟨hiff, hca', hop'⟩ := ih ht hca hop
      refine ⟨hiff.trans ⟨fun h m hm => ?_, fun h m hm => h m (mem_cons_of_mem n hm)⟩, hca', hop'⟩
      rcases mem_cons.1 hm with rfl | hm
      · exact hn
      · exact h m hm
    unfold nodesAreComb
    split
    next hst => exact ⟨hsto fun hn => hn.1 hst, hca, hop⟩
    next hst =>
      split
      next c hk => exact ⟨hsto fun hn => hn.2.1 c hk, hca, hop⟩
      next c hk =>
        obtain ⟨hiff, hca', hop'⟩ := hpu n (.head _) c hk cache hca hop
        split
        next cache' hp =>
          rw [hp] at hiff hca' hop'
          refine hgo ⟨hst, fun c' hk' => ?_, fun c' hk' => ?_⟩ hca' hop'
          · rw [hk] at hk'
            cases hk'
          · rw [hk] at hk'
            cases (Option.some.inj hk')
            exact hiff.1 rfl
        next cache' hp =>
          rw [hp] at hiff hca' hop'
          exact ⟨hsto fun hn => absurd (hiff.2 (hn.2.2 c hk)) false_ne_true, hca', hop'⟩
      next hlo hsub =>
        exact hgo ⟨hst, fun c hk => hlo c hk, fun c hk => absurd hk (hsub c)⟩ hca hop

lemma closureIsComb_spec {c : ℕ} (hpu : ∀ c', Instantiates lib c c' → Answers lib open_ pure c') :
    Answers lib open_ (fun cache c => lib.closureIsComb pure c cache) c := by
  intro cache hca hop
  dsimp only
  unfold closureIsComb
  split
  next hbo =>
    refine ⟨⟨nofun, fun h => ?_⟩, hca, hop⟩
    obtain ⟨hb, -, -, -⟩ := h
    cases hbo.symm.trans hb
  next cg hbo =>
    obtain ⟨hiff, hca', hop'⟩ := nodesAreComb_spec cg.ids
      (fun n hn c' hk => hpu c' ⟨cg, hbo, n, hn, hk⟩) hca hop
    refine ⟨hiff.trans ⟨fun h => ?_, fun h => ?_⟩, hca', hop'⟩
    · exact .mk hbo (fun n hn => (h n hn).1) (fun n hn => (h n hn).2.1) fun n hn => (h n hn).2.2
    · obtain ⟨hb, hst, hlo, hsu⟩ := h
      cases (hbo.symm.trans hb)
      exact fun n hn => ⟨hst n hn, hlo n hn, hsu n hn⟩

lemma isPureComb_spec (fuel : ℕ) {c : ℕ} (hnd : open_.Nodup) (hlt : ∀ p ∈ open_, p < lib.length)
    (hpa : ∀ p ∈ open_, TransGen (Instantiates lib) p c) (hfu : lib.length < fuel + open_.length) :
    Answers lib open_ (lib.isPureComb fuel) c := by
  induction fuel generalizing open_ c with
  | zero =>
    have hsub : open_ ⊆ range lib.length := fun p hp => mem_range.2 (hlt p hp)
    have hle := (subperm_of_subset hnd hsub).length_le
    rw [length_range] at hle
    exact absurd hfu (by rw [zero_add]; exact not_lt.2 hle)
  | succ fuel ih =>
    intro cache hca hop
    unfold isPureComb
    split
    next ok hlk =>
      refine ⟨⟨(hca c ok hlk).1, fun h => ?_⟩, hca, hop⟩
      cases ok with
      | true => rfl
      | false =>
        exact ((hca c false hlk).2 rfl).elim (absurd h) fun hmem =>
          absurd (hpa c hmem) h.not_transGen
    next hlk =>
      have hnew : c ∉ open_ := by
        intro hmem
        have hsm := hop c hmem
        rw [hlk] at hsm
        cases hsm
      have hcache₁ : CacheOk lib (c :: open_) ((c, false) :: cache) := by
        intro k ok hk
        rw [lookup_cons] at hk
        split at hk
        next hkc =>
          obtain rfl : k = c := beq_iff_eq.1 hkc
          cases hk
          exact ⟨nofun, fun _ => .inr (.head _)⟩
        · exact ⟨(hca k ok hk).1, fun hok => ((hca k ok hk).2 hok).imp_right (mem_cons_of_mem c)⟩
      have hopen₁ : ∀ p ∈ c :: open_, (((c, false) :: cache).lookup p).isSome := by
        intro p hp
        rw [lookup_cons]
        split
        · rfl
        next hpc =>
          rcases mem_cons.1 hp with rfl | hp
          · exact absurd (beq_self_eq_true p) (eq_false_iff.1 hpc)
          · exact hop p hp
      have hpu : ∀ c', Instantiates lib c c' →
          Answers lib (c :: open_) (lib.isPureComb fuel) c' := by
        intro c' hi
        have hc : c < lib.length := by
          obtain ⟨cg, hcg, -⟩ := hi
          by_contra hc
          rw [body, getElem?_eq_none (not_lt.1 hc)] at hcg
          cases hcg
        refine ih (nodup_cons.2 ⟨hnew, hnd⟩) (fun p hp => ?_) (fun p hp => ?_)
          (by rw [length_cons]; omega)
        · rcases mem_cons.1 hp with rfl | hp
          · exact hc
          · exact hlt p hp
        · rcases mem_cons.1 hp with rfl | hp
          · exact .single hi
          · exact (hpa p hp).tail hi
      obtain ⟨hiff, hcache₂, hopen₂⟩ := closureIsComb_spec hpu _ hcache₁ hopen₁
      refine ⟨hiff, fun k ok hk => ?_, fun p hp => ?_⟩
      · rw [lookup_cons] at hk
        split at hk
        next hkc =>
          obtain rfl : k = c := beq_iff_eq.1 hkc
          cases hk
          refine ⟨hiff.1, fun hf => .inl fun h => ?_⟩
          cases hf.symm.trans (hiff.2 h)
        next hkc =>
          refine ⟨(hcache₂ k ok hk).1, fun hok =>
            ((hcache₂ k ok hk).2 hok).imp_right fun hmem => ?_⟩
          exact (mem_cons.1 hmem).resolve_left fun heq => eq_false_iff.1 hkc (beq_iff_eq.2 heq)
      · rw [lookup_cons]
        split
        · rfl
        · exact hopen₂ p (mem_cons_of_mem c hp)

/-- The memory of the definitions makes no difference. -/
lemma subClosureIsComb_spec {cache : Cache} (hca : CacheOk lib [] cache) (c : ℕ) :
    ((lib.subClosureIsComb cache c).1 = true ↔ Comb lib c) ∧ CacheOk lib []
    (lib.subClosureIsComb cache c).2 := by
  have han : Answers lib [] (fun cache c => lib.closureIsComb
      (lib.isPureComb (lib.length + 1)) c cache) c :=
    closureIsComb_spec fun c' _ => isPureComb_spec (lib.length + 1) nodup_nil nofun
      nofun (Nat.lt_succ_self _)
  obtain ⟨hiff, hca', -⟩ := han cache hca nofun
  exact ⟨hiff, hca'⟩

end Library

/-! ## Loops through an instance -/

/-- A path without instances and state leads from an output of the node to one of its inputs. -/
def OnLoop (g : Def) (s : ℕ) : Prop :=
  ∃ r ∈ g.readNodes s, ReflTransGen (fun m m' => g.isBoundary m = false ∧ m' ∈ g.readNodes m) r s

variable {g : Def}

lemma Def.mem_ids_of_readNodes (hg : g.Legal) {m n : ℕ} (h : n ∈ g.readNodes m) : n ∈ g.ids := by
  obtain ⟨⟨port, d⟩, he, heq⟩ := mem_filterMap.1 h
  cases d with
  | out n' q =>
    obtain rfl := Option.some.inj heq
    exact mem_ids.2 (hg.driver _ (mem_sinkDrivers.1 he) n' q rfl).1
  | input p => cases heq
  | const v => cases heq

lemma Def.onFalseLoop_iff (hg : g.Legal) (s : ℕ) : g.onFalseLoop s = true ↔ OnLoop g s := by
  obtain ⟨out, hrun, hf, -⟩ := Worklist.search_spec (fun _ m => some ((), g.readNodes m))
    (fun _ _ => True) g.ids (s := ())
    (fun m _ _ b hb _ => mem_ids_of_readNodes hg hb)
      (fun _ _ m _ _ _ _ _ => ⟨(), rfl, trivial⟩) trivial
    (.start (fun m => m != s && g.isBoundary m) (· == s) g.readNodes (g.readNodes s).reverse)
    (fun m hm _ => mem_ids_of_readNodes hg (mem_reverse.1 hm)) le_rfl
  have hcut :
      ∀ r, ReflTransGen (Worklist.Reads (fun m => m != s && g.isBoundary m) g.readNodes) r s →
      ReflTransGen (fun m m' => g.isBoundary m = false ∧ m' ∈ g.readNodes m) r s := by
    intro r hp
    induction hp using ReflTransGen.head_induction_on with
    | refl => exact .refl
    | @head m m' hst _ ih =>
      by_cases hm : m = s
      · rw [hm]
      · have hsk : (m != s && g.isBoundary m) = false := hst.1
        rw [bne_iff_ne.2 hm] at hsk
        exact .head ⟨hsk, hst.2⟩ ih
  rw [onFalseLoop, hrun]
  refine hf.trans ?_
  constructor
  · rintro ⟨a, ⟨-, r, hr, hp⟩, hgo⟩
    obtain rfl : a = s := beq_iff_eq.1 hgo
    exact ⟨r, mem_reverse.1 hr, hcut r hp⟩
  · rintro ⟨r, hr, hp⟩
    have hsk : (s != s && g.isBoundary s) = false := by rw [bne_self_eq_false, Bool.false_and]
    refine ⟨s, ⟨hsk, r, mem_reverse.2 hr, .mono (fun m m' hst => ⟨?_, hst.2⟩) r s hp⟩,
      beq_self_eq_true s⟩
    change (m != s && g.isBoundary m) = false
    rw [hst.1, Bool.and_false]

/-! ## The rounds -/

lemma targets_spec (hg : g.Legal) (l : List (ℕ × ℕ)) {cache : Library.Cache}
    (hca : Library.CacheOk lib [] cache) :
    (∀ n, n ∈ (targets lib g l cache).1 ↔ ∃ c, (n, c) ∈ l ∧ Comb lib c ∧ OnLoop g n) ∧
    Library.CacheOk lib [] (targets lib g l cache).2 := by
  induction l generalizing cache with
  | nil => exact ⟨fun n => ⟨nofun, fun ⟨_, h, _⟩ => nomatch h⟩, hca⟩
  | cons e l ih =>
    obtain ⟨m, c⟩ := e
    obtain ⟨hok, hca'⟩ := Library.subClosureIsComb_spec hca c
    obtain ⟨hmem, hc''⟩ := ih hca'
    have hhe : ((lib.subClosureIsComb cache c).1 && g.onFalseLoop m) = true ↔
        Comb lib c ∧ OnLoop g m := by
      rw [and_eq_true, hok, Def.onFalseLoop_iff hg]
    refine ⟨fun n => ?_, hc''⟩
    change n ∈ (if ((lib.subClosureIsComb cache c).1 && g.onFalseLoop m) = true then
      m :: _ else _) ↔ _
    constructor
    · intro h
      have hcs : (n = m ∧ Comb lib c ∧ OnLoop g m) ∨
          n ∈ (targets lib g l (lib.subClosureIsComb cache c).2).1 := by
        split at h
        next hsel => exact (mem_cons.1 h).imp_left fun heq => ⟨heq, hhe.1 hsel⟩
        · exact .inr h
      rcases hcs with ⟨rfl, hsel⟩ | h
      · exact ⟨c, .head _, hsel⟩
      · obtain ⟨c', hc', hsel⟩ := (hmem n).1 h
        exact ⟨c', .tail _ hc', hsel⟩
    · rintro ⟨c', hc', hsel⟩
      rcases mem_cons.1 hc' with heq | hc'
      · cases heq
        rw [if_pos (hhe.2 hsel)]
        exact .head _
      · have hr := (hmem n).2 ⟨c', hc', hsel⟩
        split
        · exact .tail _ hr
        · exact hr

lemma mem_instances {n c : ℕ} : (n, c) ∈ instances g ↔ g.kind n = some (.sub c) := by
  constructor
  · intro h
    obtain ⟨m, -, heq⟩ := mem_filterMap.1 h
    split at heq
    next callee hk =>
      cases (Option.some.inj heq)
      exact hk
    · cases heq
  · intro hk
    refine mem_filterMap.2 ⟨n, Def.mem_ids.2 (by rw [hk]; rfl), ?_⟩
    rw [hk]

/-- The instances inlined in a round, each with the definition before it. -/
def roundSteps (lib : Library) : Def → List ℕ → List (Def × Def × ℕ)
  | _, [] => []
  | g, s :: ts =>
    match calleeBody lib g s with
    | none => roundSteps lib g ts
    | some cg => (g, cg, s) :: roundSteps lib (g.inlineSub cg s) ts

/-- The instances inlined. -/
def steps (lib : Library) : ℕ → Library.Cache → Def → List (Def × Def × ℕ)
  | 0, _, _ => []
  | round + 1, cache, g =>
    let (ts, cache) := targets lib g (instances g) cache
    if ts = [] then [] else roundSteps lib g ts ++
      steps lib round cache (ts.foldl (inlineTarget lib) (g, 0)).1

/-- The number of rounds in which an instance is inlined. -/
def roundsRun (lib : Library) : ℕ → Library.Cache → Def → ℕ
  | 0, _, _ => 0
  | round + 1, cache, g =>
    let (ts, cache) := targets lib g (instances g) cache
    if ts = [] then 0 else roundsRun lib round cache (ts.foldl (inlineTarget lib) (g, 0)).1 + 1

lemma foldl_inlineTarget_fst (ts : List ℕ) (g : Def) (i j : ℕ) :
    (ts.foldl (inlineTarget lib) (g, i)).1 = (ts.foldl (inlineTarget lib) (g, j)).1 := by
  induction ts generalizing g i j with
  | nil => rfl
  | cons s ts ih =>
    rw [foldl_cons, foldl_cons, inlineTarget, inlineTarget]
    dsimp only
    split
    · exact ih g i j
    · exact ih _ _ _

section

variable (hlib : ∀ c cg, lib.body c = some cg → cg.Legal)

include hlib

/-- A round keeps the design when the instances that it inlines do not feed themselves. -/
lemma round_sound {h : Def} {τ : List ℕ → List ℕ} {ts : List ℕ}
    (hts : ∀ s ∈ ts, ∃ c, g.kind s = some (.sub c) ∧ Comb lib c)
    (hpr : Preserves lib g h τ) (hh : h.Legal) (i : ℕ)
    (hcl : ∀ x ∈ roundSteps lib h ts, x.1.Clean x.2.1 x.2.2) :
    (∃ υ, Preserves lib g (ts.foldl (inlineTarget lib) (h, i)).1 υ) ∧
    (ts.foldl (inlineTarget lib) (h, i)).1.Legal := by
  induction ts generalizing h τ i with
  | nil => exact ⟨⟨τ, hpr⟩, hh⟩
  | cons s ts ih =>
    have hr : ∀ s' ∈ ts, ∃ c, g.kind s' = some (.sub c) ∧ Comb lib c := fun s' hs' =>
      hts s' (mem_cons_of_mem s hs')
    rw [foldl_cons, inlineTarget]
    unfold roundSteps at hcl
    cases hb : calleeBody lib h s with
    | none =>
      rw [hb] at hcl
      exact ih hr hpr hh i hcl
    | some cg =>
      rw [hb] at hcl
      obtain ⟨c, hk, hco⟩ := hts s (.head _)
      have hlt := Def.kind_lt (by rw [hk]; rfl)
      have hlv : (h.kind s).isSome := by
        rw [calleeBody] at hb
        split at hb
        next hk' =>
          rw [hk']
          rfl
        · cases hb
      have hbo : lib.body c = some cg := by rwa [calleeBody, (hpr.kept s hlt hlv).1, hk] at hb
      have hst : ∀ n, (cg.kind n).isSome → n ∉ cg.state := by
        obtain ⟨hb', hst, -, -⟩ := hco
        cases (hbo.symm.trans hb')
        exact fun n hn => hst n (Def.mem_ids.2 hn)
      have hinl : Def.Inlinable lib h cg s := ⟨hh, hb, hlib c cg hbo, hst⟩
      have hc := hcl _ (.head _)
      exact ih hr (hpr.trans (hc.preserves hinl))
        (hc.legal hh hinl.callee hinl.isSome hinl.ne_out) (i + 1)
        fun x hx => hcl x (.tail _ hx)

lemma rounds_sound (n : ℕ) {cache : Library.Cache} {i : ℕ}
    (hca : Library.CacheOk lib [] cache) (hg : g.Legal)
    (hcl : ∀ x ∈ steps lib n cache g, x.1.Clean x.2.1 x.2.2) :
    (∃ τ, Preserves lib g (rounds lib n cache (g, i)).1 τ) ∧ (rounds lib n cache (g, i)).1.Legal ∧
      ((∀ s c, (rounds lib n cache (g, i)).1.kind s = some (.sub c) → Comb lib c →
        ¬OnLoop (rounds lib n cache (g, i)).1 s) ∨
        roundsRun lib n cache g = n) := by
  induction n generalizing cache g i with
  | zero => exact ⟨⟨id, .refl lib g⟩, hg, .inr rfl⟩
  | succ n ih =>
    obtain ⟨hmem, hca'⟩ := targets_spec hg (instances g) hca
    unfold steps at hcl
    unfold rounds roundsRun
    dsimp only at hcl ⊢
    split
    next hnil =>
      refine ⟨⟨id, .refl lib g⟩, hg, .inl fun s c hk hco hlo => ?_⟩
      have hs := (hmem s).2 ⟨c, mem_instances.2 hk, hco, hlo⟩
      rw [hnil] at hs
      exact not_mem_nil hs
    next hne =>
      rw [if_neg hne] at hcl
      have hts : ∀ s ∈ (targets lib g (instances g) cache).1, ∃ c, g.kind s = some (.sub c) ∧
          Comb lib c := fun s hs => by
        obtain ⟨c, hc, hco, -⟩ := (hmem s).1 hs
        exact ⟨c, mem_instances.1 hc, hco⟩
      obtain ⟨⟨τ, hpr⟩, hle⟩ := round_sound hlib hts (.refl lib g) hg i fun x hx =>
        hcl x (mem_append_left _ hx)
      have hfst : ((targets lib g (instances g) cache).1.foldl (inlineTarget lib) (g, i)).1 =
          ((targets lib g (instances g) cache).1.foldl (inlineTarget lib) (g, 0)).1 :=
          foldl_inlineTarget_fst _ g i 0
      generalize hr : (targets lib g (instances g) cache).1.foldl (inlineTarget lib) (g, i) =
        r at hpr hle hfst ⊢
      obtain ⟨h, j⟩ := r
      obtain ⟨⟨υ, hpr'⟩, hle', hend⟩ := ih (i := j) hca' hle fun x hx =>
        hcl x (mem_append_right _ (hfst ▸ hx))
      refine ⟨⟨_, hpr.trans hpr'⟩, hle', hend.imp_right fun heq => ?_⟩
      rw [← hfst, heq]

/-- The design is preserved, no edge starts or ends at an instance that is gone, and the rounds end
with no instance left to inline, or at their bound, when no instance that is inlined feeds
itself. -/
theorem flattenFalseLoopSubs_sound {g : Def} (hg : g.Legal)
    (hclean : ∀ x ∈ steps lib 8 [] g, x.1.Clean x.2.1 x.2.2) :
    (∃ τ, Preserves lib g (flattenFalseLoopSubs lib g).1 τ) ∧
    (∀ e ∈ (flattenFalseLoopSubs lib g).1.edges,
      ((flattenFalseLoopSubs lib g).1.kind e.2.node).isSome ∧
      ∀ n port, e.1 = .out n port → ((flattenFalseLoopSubs lib g).1.kind n).isSome) ∧
    ((∀ s c, (flattenFalseLoopSubs lib g).1.kind s = some (.sub c) → Comb lib c →
      ¬OnLoop (flattenFalseLoopSubs lib g).1 s) ∨
      roundsRun lib 8 [] g = 8) := by
  obtain ⟨hpres, hlegal, hend⟩ := rounds_sound hlib 8 (i := 0) (fun _ _ h => by cases h) hg hclean
  exact ⟨hpres, fun e he => ⟨hlegal.sink e he, fun n port heq => (hlegal.driver e he n port heq).1⟩,
    hend⟩

end

/-! ## An instance that feeds itself -/

/-- A live driver other than the node of the outputs. -/
def Def.isLive (g : Def) : Pin → Bool
  | .out n _ => (g.kind n).isSome && n != g.out
  | _ => true

lemma Def.legal_of_forall (hed : ∀ e ∈ g.edges, (g.kind e.2.node).isSome = true ∧
    g.isLive e.1 = true)
    (hsi : ∀ e ∈ g.edges, ∀ e' ∈ g.edges, e.2 = e'.2 → e.1 = e'.1)
    (hout : g.kind g.out = some .other)
    (hde : ∀ e ∈ g.edges, e.2.node = g.out → e.2.port ∈ g.outputs)
    (hst : ∀ n ∈ g.state, n < g.nodes.length) : g.Legal := by
  have hone : ∀ x d d', (d, x) ∈ g.edges → (d', x) ∈ g.edges →
    d = d' := fun x d d' he he' => hsi _ he _ he' rfl
  refine ⟨fun e he => (hed e he).1, fun e he n port heq => ?_, hone, hout, fun port hp => ?_, hst⟩
  · have hlv := (hed e he).2
    rwa [heq, isLive, and_eq_true, bne_iff_ne] at hlv
  · obtain ⟨d, hd⟩ := isSome_iff_exists.1 hp
    exact hde _ ((driver_eq_some hone).1 hd) rfl

/-- A definition with `o0 = i0` and `o1 = ~i1`. -/
def wires : Def where
  nodes := [some (.cell .not), some .other]
  edges := [(.input 1, ⟨0, 0⟩), (.input 0, ⟨1, 0⟩), (.out 0 0, ⟨1, 1⟩)]
  out := 1
  outputs := [0, 1]
  state := []

/-- The output `o1` of an instance drives its own input `i0`. -/
def selfFed : Def where
  nodes := [some (.sub 0), some .other]
  edges := [(.out 0 1, ⟨0, 0⟩), (.input 0, ⟨0, 1⟩), (.out 0 0, ⟨1, 0⟩)]
  out := 1
  outputs := [0]
  state := []

/-- The output `o1` of an instance drives its own input `i0` through a cell. -/
def cellFed : Def where
  nodes := [some (.sub 0), some .other, some (.cell .not)]
  edges := [(.out 2 0, ⟨0, 0⟩), (.input 0, ⟨0, 1⟩), (.out 0 0, ⟨1, 0⟩), (.out 0 1, ⟨2, 0⟩)]
  out := 1
  outputs := [0]
  state := []

lemma wires_legal : ∀ c cg, Library.body [some wires] c = some cg → cg.Legal := by
  intro c cg hcg
  have hwi : wires.Legal := Def.legal_of_forall (by decide) (by decide)
    (by decide) (by decide) (by decide)
  cases c with
  | zero =>
    cases hcg
    exact hwi
  | succ c => cases hcg

lemma cellFed_legal : cellFed.Legal :=
  Def.legal_of_forall (by decide) (by decide) (by decide) (by decide) (by decide)

/-- The values that the design has once the instance is gone: the cell shows what it reads, and the
output of the instance anything. -/
def strayValues : List ℕ → ℕ → Option ℤ
  | [2], _ => some 0
  | [0], _ => some 1
  | _, _ => none

/-- An instance that feeds itself changes the design, and leaves an edge that ends at it. -/
theorem not_flattenFalseLoopSubs_sound :
    (∀ c cg, Library.body [some wires] c = some cg → cg.Legal) ∧ selfFed.Legal ∧
    (¬∃ τ, Preserves [some wires] selfFed (flattenFalseLoopSubs [some wires] selfFed).1 τ) ∧
    ∃ e ∈ (flattenFalseLoopSubs [some wires] selfFed).1.edges,
    (flattenFalseLoopSubs [some wires] selfFed).1.kind e.2.node = none := by
  refine ⟨wires_legal,
    (Def.legal_of_forall (by decide) (by decide) (by decide) (by decide) (by decide)), ?_, ?_⟩
  · rintro ⟨τ, h⟩
    obtain ⟨Φ, hΦ, hat⟩ := h.back (fun _ sinks outs => outs 0 = sinks 0) (fun _ => some 0)
        strayValues (flat_iff.2 fun n k hk hn => by
      match n, hk, hn with
      | 0, hk, _ => cases hk
      | 1, _, hn => exact absurd rfl hn
      | 2, hk, _ => exact .inr rfl
      | n + 3, hk, _ => cases hk)
    have hread : Φ [0] 0 = some 1 := by
      have hsink := (hat [1] rfl).2 0
      rw [(h.kept 1 (by decide) rfl).2 []] at hsink
      exact hsink.symm
    have hinst := flat_iff.1 hΦ 0 (.sub 0) rfl (by decide)
    have hcell := flat_iff.1 hinst.1 0 (.cell .not) rfl (by decide)
    have hnot : Φ [0, 0] 0 = some 0 := hcell.resolve_left not_mem_nil
    have h₀ : Φ [0] 0 = Φ [0] 1 := hinst.2 0
    have h₁ : Φ [0] 1 = Φ [0, 0] 0 := hinst.2 1
    rw [h₀, h₁, hnot] at hread
    cases hread
  · exact ⟨(.out 2 0, ⟨0, 0⟩), by decide, rfl⟩

/-- The instance drives no input of its own, as a check. -/
def Def.isClean (g cg : Def) (s : ℕ) : Bool :=
  g.edges.all fun e =>
    match e.1 with
    | .out n port => n != s || ((e.2.node != s || (g.leads cg s port).isNone) &&
      (g.leads cg s port).all (!·.isOut s))
    | _ => true

lemma Def.clean_of_isClean {cg : Def} {s : ℕ} (h : g.isClean cg s = true) : g.Clean cg s := by
  have hed : ∀ port x, (.out s port, x) ∈ g.edges → (x.node = s → g.leads cg s port = none) ∧
      ∀ port', g.leads cg s port ≠ some (.out s port') := by
    intro port x he
    have hx : (s != s || ((x.node != s || (g.leads cg s port).isNone) &&
      (g.leads cg s port).all (!·.isOut s))) = true := all_eq_true.1 h _ he
    rw [bne_self_eq_false, Bool.false_or, and_eq_true, or_eq_true, bne_iff_ne,
      isNone_iff_eq_none] at hx
    refine ⟨fun heq => hx.1.resolve_left (absurd heq), fun port' hle => ?_⟩
    have hall := hx.2
    rw [hle, all_some, Pin.isOut, beq_self_eq_true] at hall
    cases hall
  exact ⟨fun port p he => (hed port _ he).1 rfl, fun port x he => (hed port x he).2⟩

theorem flattenFalseLoopSubs_sound_cellFed :
    (∃ τ, Preserves [some wires] cellFed (flattenFalseLoopSubs [some wires] cellFed).1 τ) ∧
    (flattenFalseLoopSubs [some wires] cellFed).2 = 1 := by
  have hsteps : (steps [some wires] 8 [] cellFed).all (fun x => x.1.isClean x.2.1 x.2.2) =
    true := by decide
  exact ⟨(flattenFalseLoopSubs_sound wires_legal cellFed_legal fun x hx => Def.clean_of_isClean
    (all_eq_true.1 hsteps x hx)).1, by decide⟩

end LiveHD.FlattenSubs
