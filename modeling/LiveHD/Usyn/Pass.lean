import LiveHD.Usyn.XagInvariant
import LiveHD.Usyn.Budget

/-!
# Passes that rebuild a graph

A pass of `pass/usyn` reads an immutable source graph and appends to a candidate, metered by a
`Budget`.  It stops early with a status, or when the candidate throws; only a finished pass
publishes its candidate.
-/

namespace LiveHD.Usyn

open Function List Builds Xag

/-- Why a pass publishes nothing. -/
inductive Stop where
  | status (s : Status)
  | exception (e : XagError)
deriving DecidableEq

/-- A budget and the answers its admission callback will give. -/
structure Work where
  budget : Budget
  answers : ℕ → Bool := fun _ => true
  /-- Admission checks made so far. -/
  asked : ℕ := 0

def Work.spend (w : Work) (amount : ℕ) : Bool × Work :=
  let r := w.budget.spend (w.answers w.asked) amount
  (r.1, { w with budget := r.2, asked := if w.budget.samples amount then w.asked + 1 else w.asked })

/-- The budget and the candidate of a running pass. -/
structure PassState where
  work : Work
  candidate : Xag := {}

abbrev PassM := ExceptT Stop (StateM PassState)

namespace Pass

def exhausted {α : Type} : PassM α := throw (.status .searchExhausted)

def invalid {α : Type} : PassM α := throw (.status .invalid)

/-- Whether the budget grants an amount. -/
def trySpend (amount : ℕ) : PassM Bool := do
  let s ← get
  set { s with work := (s.work.spend amount).2 }
  pure (s.work.spend amount).1

def spend (amount : ℕ) : PassM Unit := do
  if (← trySpend amount) then pure () else exhausted

/-- Stop when a bound is passed. -/
def require (p : Prop) [Decidable p] : PassM Unit := if p then pure () else exhausted

def graph : PassM Xag := PassState.candidate <$> get

/-- An operation on the candidate. -/
def onGraph {α : Type} (m : XagM α) : PassM α := do
  let s ← get
  set { s with candidate := (m.run.run s.candidate).2 }
  match (m.run.run s.candidate).1 with
  | .ok a => pure a
  | .error e => throw (.exception e)

/-- The gate of a kind. -/
def gate (kind : Kind) (a b : Xsignal) : PassM Xsignal :=
  onGraph (if kind = .andGate then Xag.land a b else lxor a b)

end Pass

/-! ## Metered code and slices -/

/-- Code that a budget meters; it fails with a status. -/
abbrev WorkM := ExceptT Status (StateM Work)

namespace WorkM

variable (amount : ℕ)

def trySpend : WorkM Bool := do
  let w ← get
  set (w.spend amount).2
  pure (w.spend amount).1

def spend : WorkM Unit := do
  if (← trySpend amount) then pure () else throw .searchExhausted

lemma spend_yields : Yields (spend amount) fun _ => True := fun _ _ _ => trivial

end WorkM

def Work.slice (w : Work) (cap divisor reserve : ℕ) : Work :=
  { w with budget := w.budget.slice cap divisor reserve }

def Work.absorb (w child : Work) : Work :=
  { w with budget := w.budget.absorb child.budget, asked := child.asked }

namespace Pass

/-- Metered code whose stop is an answer. -/
def attempt {α : Type} (m : WorkM α) : PassM (Option α) := do
  let s ← get
  set { s with work := (m.run.run s.work).2 }
  pure (m.run.run s.work).1.toOption

/-- A pass on a slice of the budget. -/
def sliced {α : Type} (cap divisor reserve : ℕ) (m : PassM α) : PassM α := do
  let s ← get
  let r := m.run.run { s with work := s.work.slice cap divisor reserve }
  set { r.2 with work := s.work.absorb r.2.work }
  match r.1 with
  | .ok a => pure a
  | .error e => throw e

end Pass

/-- A signal under a phase. -/
def Xsignal.phased (s : Xsignal) (phase : Bool) : Xsignal := if phase then s.not else s

/-- The image of a signal when its node goes to `map`. -/
def translated (map : ℕ → Xsignal)
    (s : Xsignal) : Xsignal := if s.inverted then (map s.id).not else map s.id

lemma id_translated (map : ℕ → Xsignal) (s : Xsignal) : (translated map s).id = (map s.id).id := by
  unfold translated
  split <;> rfl

lemma Xag.Is.phased {g : Xag} {s : Xsignal} {f : (ℕ → Bool) → Bool} (h : g.Is s f) (phase : Bool) :
    g.Is (s.phased phase) fun env => f env ^^ phase := by
  cases phase with
  | true => exact h.not.congr fun env => (Bool.xor_true _).symm
  | false => exact h.congr fun env => (Bool.xor_false _).symm

/-- The image of a signal whose node goes to one of its value. -/
lemma Xag.Is.translated {source g : Xag} {map : ℕ → Xsignal} {s : Xsignal}
    (h : g.Is (map s.id) fun env => source.valueAt env s.id) :
    g.Is (Usyn.translated map s) fun env => source.eval env s := by
  unfold Usyn.translated
  split
  next hinv =>
    refine h.not.congr fun env => ?_
    rw [Xag.eval, Xsignal.value, hinv, Bool.xor_true]
  next hinv =>
    refine h.congr fun env => ?_
    rw [Xag.eval, Xsignal.value, Bool.eq_false_iff.2 hinv, Bool.xor_false]

lemma Xsignal.id_phased (s : Xsignal) (phase : Bool) : (s.phased phase).id = s.id := by
  cases phase <;> rfl

variable {α β : Type} [DecidableEq α] {m : α → Option β} {k i : α}

/-- Looking up a table with one more entry. -/
lemma update_eq_some {v x : β} (h : Function.update m k (some v) i = some x) :
    i = k ∧ v = x ∨ m i = some x := by
  rcases eq_or_ne i k with rfl | hne
  · rw [update_self] at h
    exact .inl ⟨rfl, Option.some.inj h⟩
  · rw [update_of_ne hne] at h
    exact .inr h

lemma isSome_update {v : β} (h : i = k ∨ (m i).isSome = true) :
    (Function.update m k (some v) i).isSome = true := by
  rcases eq_or_ne i k with rfl | hne
  · rw [update_self]
    rfl
  · rw [update_of_ne hne]
    exact h.resolve_left hne

/-! ## What a pass keeps -/

/-- Passes whose candidate grows. -/
def passArena : Arena PassState := Xag.arena.comap PassState.candidate

namespace Pass

variable {s : PassState} {α : Type}

lemma graph_builds (hs : s.candidate.Wf) : Builds passArena graph s fun t g =>
    t = s ∧ g = s.candidate := by
  refine (Builds.get (A := passArena) hs).map fun t u _ _ heq => ?_
  obtain ⟨rfl, rfl⟩ := heq
  exact ⟨rfl, rfl⟩

lemma graph_bind {k : Xag → PassM α} {P : PassState → α → Prop} (hs : s.candidate.Wf)
    (h : Builds passArena (k s.candidate) s P) : Builds passArena (graph >>= k) s P :=
  (graph_builds hs).bind fun t g _ _ heq => by
    obtain ⟨rfl, rfl⟩ := heq
    exact h

lemma onGraph_builds {m : XagM α} {P : Xag → α → Prop} (h : Builds arena m s.candidate P)
    (hs : s.candidate.Wf) : Builds passArena (onGraph m) s fun t a => P t.candidate a := by
  refine (Builds.get (A := passArena) hs).bind fun _ u hu _ heq => ?_
  obtain ⟨rfl, rfl⟩ := heq
  obtain ⟨hinv, hle, hP⟩ := h
  have hset := set (A := passArena) (ε := Stop) (s := u)
    (t := { u with candidate := (m.run.run u.candidate).2 }) hinv hle
  refine hset.bind fun t _ ht _ heq => ?_
  subst heq
  split
  next a ha => exact pure ht (hP a ha)
  · exact throw ht

lemma gate_builds (hs : s.candidate.Wf) {kind : Kind} (hk : kind.isGate = true) {a b : Xsignal}
    {f f' : (ℕ → Bool) → Bool} (ha : s.candidate.Is a f) (hb : s.candidate.Is b f') :
    Builds passArena (gate kind a b) s fun t r =>
    t.candidate.Is r (fun env => kind.op (f env) (f' env)) ∧
      (t.candidate.node r.id).level ≤ 1 + max (s.candidate.node a.id).level
      (s.candidate.node b.id).level ∧
      t.candidate.names = s.candidate.names := by
  have hg : Builds Xag.arena (if kind = .andGate then land a b else lxor a b) s.candidate fun h r =>
      h.IsGate kind a b r := by
    cases kind with
    | constant => cases hk
    | source => cases hk
    | andGate => exact (land_builds hs a b).mono fun _ _ _ _ h => h.2.2
    | xorGate => exact (lxor_builds hs a b).mono fun _ _ _ _ h => h.2.2
  have hns : Builds sameNames (if kind = .andGate then land a b else lxor a b) s.candidate
      fun _ _ => True := .ite (fun _ => land_names) fun _ => lxor_names
  refine (onGraph_builds (hg.and_le hns) hs).mono fun t r ht hle hr => ?_
  obtain ⟨hr, hns⟩ := hr
  refine ⟨hr.is (ha.mono hs ht hle) (hb.mono hs ht hle), ?_, hns⟩
  have hlv := hr.level
  rwa [hle.level ha.lt, hle.level hb.lt] at hlv

lemma lor_builds (hs : s.candidate.Wf) {a b : Xsignal} {f f' : (ℕ → Bool) → Bool}
    (ha : s.candidate.Is a f)
    (hb : s.candidate.Is b f') : Builds passArena (onGraph (Xag.lor a b)) s fun t r =>
      t.candidate.Is r (fun env => f env || f' env) ∧ t.candidate.names = s.candidate.names :=
  onGraph_builds ((lor_is hs ha hb).and_le lor_names) hs

end Pass

/-! ## Computations that only spend -/

/-- States with the same candidate. -/
def meterArena : Arena PassState where
  inv _ := True
  le s t := t.candidate = s.candidate
  refl _ := rfl
  trans hst htu := htu.trans hst

/-- A computation that leaves the candidate alone and whose results are in `P`. -/
def Meters {α : Type} (m : PassM α)
    (P : α → Prop) : Prop := ∀ s, Builds meterArena m s fun _ a => P a

namespace Meters

variable {α β : Type} {P Q : α → Prop}

lemma pure {a : α} (h : P a) : Meters (Pure.pure a) P := fun _ => .pure trivial h

lemma exhausted : Meters Pass.exhausted P := fun _ => .throw trivial

variable {m : PassM α}

lemma mono (h : Meters m P) (hPQ : ∀ a, P a → Q a) : Meters m Q :=
  fun s => (h s).mono fun _ a _ _ ha => hPQ a ha

lemma bind {k : α → PassM β} {R : β → Prop} (h : Meters m P)
    (hk : ∀ a, P a → Meters (k a) R) : Meters (m >>= k) R :=
  fun s => (h s).bind fun t a _ _ ha => hk a ha t

lemma map {f : α → β} {R : β → Prop} (h : Meters m P)
    (hf : ∀ a, P a → R (f a)) : Meters (f <$> m) R :=
  fun s => (h s).map fun _ a _ _ ha => hf a ha

lemma ite {p : Prop} [Decidable p] {m n : PassM α} (hm : p → Meters m P) (hn : ¬p → Meters n P) :
    Meters (if p then m else n) P :=
  fun s => .ite (fun hp => hm hp s) fun hp => hn hp s

lemma trySpend (amount : ℕ) : Meters (Pass.trySpend amount) fun _ => True := by
  intro s
  refine (Builds.get trivial).bind fun _ u _ _ heq => ?_
  obtain ⟨rfl, rfl⟩ := heq
  have hset := set (A := meterArena) (ε := Stop) (s := u)
    (t := { u with work := (u.work.spend amount).2 }) trivial rfl
  exact hset.bind fun _ _ _ _ _ => Builds.pure trivial trivial

lemma spend (amount : ℕ) : Meters (Pass.spend amount) fun _ => True :=
  (trySpend amount).bind fun _ _ => ite (fun _ => pure trivial) fun _ => exhausted

lemma require {p : Prop} [Decidable p] : Meters (Pass.require p) fun _ => p :=
  ite (fun hp => pure hp) fun _ => exhausted

/-- A loop; the invariant is indexed by the part that is done. -/
lemma foldlM {f : β → α → PassM β} {Q : List α → β → Prop} {l : List α} {b : β} (h0 : Q [] b)
    (hst : ∀ pre x post, l = pre ++ x :: post → ∀ b', Q pre b' → Meters (f b' x) (Q (pre ++ [x]))) :
    Meters (l.foldlM f b) (Q l) :=
  fun _ => .foldlM [] l trivial h0 fun pre x post heq t b' _ _ hQ => hst pre x post heq b' hQ t

/-- A loop over consecutive numbers, downwards. -/
lemma foldlM_down {f : β → ℕ → PassM β} {Q : ℕ → β → Prop} (a n : ℕ) {b : β} (h0 : Q (a + n) b)
    (hst : ∀ i, a ≤ i → i < a + n → ∀ b', Q (i + 1) b' → Meters (f b' i) (Q i)) :
    Meters ((List.range' a n).reverse.foldlM f b) (Q a) := by
  induction n generalizing b with
  | zero => exact .pure h0
  | succ n ih =>
    rw [range'_1_concat, reverse_append]
    refine (hst (a + n) (Nat.le_add_right _ _) (by omega) b h0).bind fun b' hb' => ?_
    exact ih hb' fun i hi hlt => hst i hi (by omega)

/-- What was metered is known of the unchanged candidate. -/
lemma builds {m : PassM α} (h : Meters m P) {s : PassState} (hs : s.candidate.Wf) :
    Builds passArena m s fun t a => t.candidate = s.candidate ∧ P a := by
  obtain ⟨-, hle, hP⟩ := h s
  have hca := hle
  refine ⟨?_, ?_, fun a ha => ⟨hca, hP a ha⟩⟩
  · show (m.run.run s).2.candidate.Wf
    rwa [hca]
  · show s.candidate.Extends (m.run.run s).2.candidate
    rw [hca]
    exact .refl _

end Meters

/-! ## Copied sources -/

namespace Xag

/-- The sources below a node. -/
def sourceCount (g : Xag) (id : ℕ) : ℕ :=
  ((List.range id).filter fun i => (g.node i).kind = .source).length

variable {g : Xag}

lemma sourceCount_succ (g : Xag) (id : ℕ) :
    g.sourceCount (id + 1) = g.sourceCount id + if (g.node id).kind = .source then 1 else 0 := by
  rw [sourceCount, range_succ, sourceCount]
  by_cases hk : (g.node id).kind = .source <;> simp [hk]

/-- The sources of a well-formed graph are numbered in node order. -/
lemma Wf.sourceIndex_eq (hg : g.Wf) {id : ℕ} (hid : id < g.size) (hk : (g.node id).kind = .source) :
    (g.node id).sourceIndex = g.sourceCount id := by
  have hsp : range g.size = range id ++ id :: range' (id + 1) (g.size - (id + 1)) := by
    have hap := range'_append_1 (s := 0) (m := id) (n := g.size - (id + 1) + 1)
    rw [zero_add] at hap
    rw [← range'_succ, range_eq_range', range_eq_range', hap]
    congr 1
    omega
  have hss := hg.sources
  rw [sourceIndices, hsp, filter_append, filter_cons, if_pos (by simpa using hk),
    map_append, map_cons] at hss
  have hget := congrArg (·[g.sourceCount id]?) hss
  simp only [sourceCount] at hget
  rw [getElem?_append_right (by simp), length_map, Nat.sub_self] at hget
  have hra := List.getElem?_eq_some_iff.1 hget.symm
  obtain ⟨hlt, heq⟩ := hra
  rw [getElem_range] at heq
  exact heq.symm

lemma Wf.sourceCount_size (hg : g.Wf) : g.sourceCount g.size = g.names.length := by
  have hlen := congrArg length hg.sources
  rwa [sourceIndices, length_map, length_range] at hlen

end Xag

/-- The copy of a source node. -/
def Pass.copySource (source : Xag) (id : ℕ) : PassM Xsignal :=
  onGraph (Xag.input (source.names.getD (source.node id).sourceIndex ""))

/-- The nodes below `id` that have to be there are, and the sources below `id` were copied in
order. -/
structure Rebuilt (source : Xag) (needed : ℕ → Prop) (id : ℕ) (g : Xag)
    (map : ℕ → Xsignal) : Prop where
  is : ∀ i < id, (source.node i).kind.isGate = false ∨ needed i →
    g.Is (map i) fun env => source.valueAt env i
  names : g.names = source.names.take (source.sourceCount id)

namespace Rebuilt

variable {source : Xag} {needed : ℕ → Prop} {id : ℕ} {g h : Xag} {map : ℕ → Xsignal}

section

variable (hr : Rebuilt source needed id g map)
include hr

lemma translated {s : Xsignal} (hid : s.id < id)
    (hs : (source.node s.id).kind.isGate = false ∨ needed s.id) :
    g.Is (Usyn.translated map s) fun env => source.eval env s :=
  (hr.is s.id hid hs).translated

/-- One more node. -/
lemma step (hg : g.Wf) (hh : h.Wf) (he : g.Extends h) {s : Xsignal}
    (hs : h.Is s fun env => source.valueAt env id)
    (hns : h.names = source.names.take (source.sourceCount (id + 1))) :
    Rebuilt source needed (id + 1) h (Function.update map id s) where
  is i hi hne := by
    rcases Nat.lt_succ_iff_lt_or_eq.1 hi with hlt | rfl
    · rw [update_of_ne hlt.ne]
      exact (hr.is i hlt hne).mono hg hh he
    · rwa [update_self]
  names := hns

/-- A gate that is not needed. -/
lemma skip (hg : (source.node id).kind.isGate = true) (hne : ¬needed id) :
    Rebuilt source needed (id + 1) g map where
  is i hi hor := by
    rcases Nat.lt_succ_iff_lt_or_eq.1 hi with hlt | rfl
    · exact hr.is i hlt hor
    · rcases hor with hor | hor
      · rw [hg] at hor
        cases hor
      · exact absurd hor hne
  names := by
    rw [hr.names, Xag.sourceCount_succ, if_neg, add_zero]
    intro hk
    rw [hk] at hg
    cases hg

end

/-- The empty candidate represents the constant. -/
lemma start (hsrc : source.Wf) (needed : ℕ → Prop) : Rebuilt source needed 1 {} fun _ => {} where
  is i hi _ := by
    obtain rfl : i = 0 := Nat.lt_one_iff.1 hi
    exact (Xag.wf_empty.is_constant false).congr fun env => (hsrc.valueAt_zero env).symm
  names := by
    rw [sourceCount_succ, (hsrc.constant 0 hsrc.pos).2 rfl]
    rfl

end Rebuilt

lemma Pass.copySource_builds {source : Xag} {needed : ℕ → Prop} {s : PassState}
    {map : ℕ → Xsignal} {id : ℕ}
    (hsrc : source.Wf) (hs : s.candidate.Wf) (hr : Rebuilt source needed id s.candidate map)
    (hid : id < source.size)
    (hk : (source.node id).kind = .source) :
    Builds passArena (Pass.copySource source id) s fun t r =>
      Rebuilt source needed (id + 1) t.candidate (Function.update map id r) ∧
      (t.candidate.node r.id).level = 0 := by
  have hind := hsrc.sourceIndex_eq hid hk
  have hsu : source.sourceCount (id + 1) = source.sourceCount id + 1 := by
    rw [sourceCount_succ, if_pos hk]
  have hlt : source.sourceCount id < source.names.length := by
    have hmo : ∀ n m, n ≤ m → source.sourceCount n ≤ source.sourceCount m := by
      intro n m hnm
      induction m, hnm using Nat.le_induction with
      | base => exact le_rfl
      | succ m _ ih => exact ih.trans (by rw [sourceCount_succ]; exact Nat.le_add_right _ _)
    have hle := hmo (id + 1) source.size hid
    rw [hsrc.sourceCount_size] at hle
    omega
  have hlen : s.candidate.names.length = source.sourceCount id := by
    rw [hr.names, length_take]
    omega
  refine (onGraph_builds (input_builds hs _) hs).mono fun t r ht hle hin => ?_
  obtain ⟨hns, -, his, hlv⟩ := hin
  refine ⟨hr.step hs ht hle (his.congr fun env => ?_) ?_, hlv⟩
  · rw [hlen, ← hind, hsrc.valueAt_source env hid hk]
  · rw [hns, hr.names, hsu, hind, take_add_one, getElem?_eq_getElem hlt, getD_eq_getElem _ _ hlt]
    rfl

/-- Outputs of a graph that compute, over the same sources, what others compute. -/
structure Preserves (source : Xag) (outputs : List Xsignal) (g : Xag)
    (outputs' : List Xsignal) : Prop where
  wf : g.Wf
  names : g.names = source.names
  lt : ∀ s ∈ outputs', s.id < g.size
  eval : ∀ env, outputs'.map (g.eval env) = outputs.map (source.eval env)

variable {outputs : List Xsignal}

/-- Outputs that each go to a signal of the same value. -/
lemma Preserves.of_map {source g : Xag} {f : Xsignal → Xsignal} (hg : g.Wf)
    (hns : g.names = source.names) (h : ∀ s ∈ outputs, g.Is (f s) fun env => source.eval env s) :
    Preserves source outputs g (outputs.map f) where
  wf := hg
  names := hns
  lt t ht := by
    obtain ⟨s, hs, rfl⟩ := mem_map.1 ht
    exact (h s hs).lt
  eval env := by
    rw [map_map]
    exact map_congr_left fun s hs => (h s hs).eval env

/-- The outputs of a graph that was rebuilt whole. -/
lemma Rebuilt.preserves {source : Xag} {needed : ℕ → Prop} {g : Xag}
    {map : ℕ → Xsignal} (hsrc : source.Wf)
    (hg : g.Wf) (hr : Rebuilt source needed source.size g map)
    (hout : ∀ s ∈ outputs, s.id < source.size ∧ needed s.id) :
    Preserves source outputs g (outputs.map (Usyn.translated map)) := by
  refine .of_map hg ?_ fun s hs => hr.translated (hout s hs).1 (.inr (hout s hs).2)
  rw [hr.names, hsrc.sourceCount_size, take_length]

/-! ## Outputs -/

/-- Marking signals. -/
lemma needed_foldl (leaves : List Xsignal) (needed : ℕ → Bool) (j : ℕ) :
    leaves.foldl (fun needed s => Function.update needed s.id true) needed j = true ↔
    needed j = true ∨ ∃ s ∈ leaves, s.id = j := by
  induction leaves generalizing needed with
  | nil => simp
  | cons s leaves ih =>
    rw [foldl_cons, ih, exists_mem_cons_iff, ← or_assoc]
    refine or_congr_left ?_
    by_cases hj : s.id = j
    · subst hj
      simp
    · rw [update_of_ne (Ne.symm hj)]
      simp [hj]

lemma any_size_le {source : Xag} (h : ¬outputs.any (source.size ≤ ·.id) = true) :
    ∀ s ∈ outputs, s.id < source.size := by
  intro s hs
  by_contra hlt
  exact h (any_eq_true.2 ⟨s, hs, decide_eq_true (not_lt.1 hlt)⟩)

/-! ## Stages -/

/-- Code over a budget that runs passes. -/
abbrev StopM := ExceptT Stop (StateM Work)

namespace StopM

/-- A pass on a graph; the result comes with what the graph became. -/
def onPass {α : Type} (m : PassM α) (g : Xag) : StopM (α × Xag) := do
  let w ← get
  let r := m.run.run ⟨w, g⟩
  set r.2.work
  match r.1 with
  | .ok a => pure (a, r.2.candidate)
  | .error e => throw e

/-- Code on a slice of the budget. -/
def sliced {α : Type} (cap divisor reserve : ℕ) (m : StopM α) : StopM α := do
  let w ← get
  let r := m.run.run (w.slice cap divisor reserve)
  set (w.absorb r.2)
  match r.1 with
  | .ok a => pure a
  | .error e => throw e

/-- A status is an answer; an exception is not caught. -/
def attempt {α : Type} (m : StopM α) : StopM (Option α) := do
  let w ← get
  let r := m.run.run w
  set r.2
  match r.1 with
  | .ok a => pure (some a)
  | .error (.status _) => pure none
  | .error (.exception e) => throw (.exception e)

variable {α : Type}

lemma onPass_yields {A : Arena PassState} {m : PassM α} {g : Xag} {P : α × Xag → Prop}
    (h : ∀ w, Builds A m ⟨w, g⟩ fun t a => P (a, t.candidate)) : Yields (onPass m g) P := by
  intro w r hr
  change ((match (m.run.run ⟨w, g⟩).1 with
    | .ok a => (pure (a, (m.run.run ⟨w, g⟩).2.candidate) : StopM (α × Xag))
    | .error e => throw e).run.run (m.run.run ⟨w, g⟩).2.work).1 = .ok r at hr
  cases hm : (m.run.run ⟨w, g⟩).1 with
  | ok a =>
    rw [hm] at hr
    cases hr
    exact (h w).2.2 a hm
  | error e =>
    rw [hm] at hr
    cases hr

lemma sliced_yields {m : StopM α} {P : α → Prop} (h : Yields m P) (cap divisor reserve : ℕ) :
    Yields (sliced cap divisor reserve m) P := by
  intro w a ha
  change ((match (m.run.run (w.slice cap divisor reserve)).1 with
    | .ok a => (pure a : StopM α)
    | .error e => throw e).run.run (w.absorb (m.run.run (w.slice cap divisor reserve)).2)).1 =
      .ok a at ha
  cases hm : (m.run.run (w.slice cap divisor reserve)).1 with
  | ok b =>
    rw [hm] at ha
    cases ha
    exact h _ a hm
  | error e =>
    rw [hm] at ha
    cases ha

lemma attempt_yields {m : StopM α} {P : α → Prop} (h : Yields m P) : Yields (attempt m) fun r =>
    ∀ a, r = some a → P a := by
  intro w r hr a ha
  subst ha
  change ((match (m.run.run w).1 with
    | .ok a => (pure (some a) : StopM (Option α))
    | .error (.status _) => pure none
    | .error (.exception e) => throw (Stop.exception e)).run.run (m.run.run w).2).1 =
      .ok (some a) at hr
  cases hm : (m.run.run w).1 with
  | ok b =>
    rw [hm] at hr
    cases hr
    exact h w a hm
  | error e =>
    rw [hm] at hr
    cases e <;> cases hr

end StopM

end LiveHD.Usyn
