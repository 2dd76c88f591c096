import LiveHD.Usyn.Pass
import LiveHD.Lib.Meter

/-!
# Passes with enough work and room

The operations of a graph throw past the node limit only, and a pass without admission
checks is refused for lack of credits or of room only.
-/

namespace LiveHD.Usyn

open ExceptT Nat Runs Xag

variable {c : ℕ}

lemma runs_of_builds {σ ε α : Type} {A B : Meter σ} {m : ExceptT ε (StateM σ) α}
    {s : σ} {P Q : σ → α → Prop}
    (h : Runs A m s c P) (hB : Builds B.toArena m s Q) (hhas : B.has = A.has) : Runs B m s c Q := by
  refine ⟨hB, ?_, ?_⟩
  · rw [hhas]
    exact h.leaves
  · rw [hhas]
    exact h.stops

namespace Xag

/-- Room for more nodes. -/
def meter : Meter Xag where
  toArena := arena
  has c g := g.size + c ≤ maxId
  mono hcd h := (Nat.add_le_add_left hcd _).trans h

/-- Room for more nodes in any graph. -/
def roomMeter : Meter Xag where
  inv _ := True
  le _ _ := True
  refl _ := trivial
  trans _ _ := trivial
  has c g := g.size + c ≤ maxId
  mono hcd h := (Nat.add_le_add_left hcd _).trans h

variable {g : Xag} {a b s t f : Xsignal}

/-- A graph that grows by at most one node. -/
lemma room_of_push {h : Xag} (hsz : h.size = g.size + 1) (d : ℕ)
    (hd : roomMeter.has (1 + d) g) : roomMeter.has d h := by
  change h.size + d ≤ maxId
  rwa [hsz, add_assoc]

lemma input_room (g : Xag) (name : String) : Runs roomMeter (input name) g 1 fun _ _ => True := by
  refine (get (A := roomMeter) trivial).bind (d := 1) fun _ h _ _ heq => ?_
  obtain ⟨rfl, rfl⟩ := heq
  refine .ite (fun hfu => ?_) fun hro => ?_
  · exact .throw trivial fun (hhas : h.size + 1 ≤ maxId) => Nat.not_le.2 hhas hfu
  · exact (set (A := roomMeter) trivial trivial (room_of_push (size_pushSource h name))).bind
        (d := 0) fun _ _ _ _ _ =>
      pure trivial trivial

lemma intern_room (kind : Kind) (a b : Xsignal) (g : Xag) :
    Runs roomMeter (intern kind a b) g 1 fun _ _ => True := by
  have hor : ∀ a b, Runs roomMeter (internOrdered kind a b) g 1 fun _ _ => True := by
    intro a b
    refine (get (A := roomMeter) trivial).bind (d := 1) fun _ h _ _ heq => ?_
    obtain ⟨rfl, rfl⟩ := heq
    cases h.index ⟨kind, a, b⟩ with
    | some id => exact (pure trivial trivial).more (zero_le _)
    | none =>
      refine .ite (fun hfu => ?_) fun hro => ?_
      · exact .throw trivial fun (hhas : h.size + 1 ≤ maxId) => Nat.not_le.2 hhas hfu
      · exact (set (A := roomMeter) trivial trivial (room_of_push (size_pushGate kind h))).bind
            (d := 0) fun _ _ _ _ _ =>
          pure trivial trivial
  exact .ite (fun _ => hor b a) fun _ => hor a b

/-- A signal of the graph passes the check. -/
lemma check_room {α : Type} {k : XagM α} {P : Xag → α → Prop} (hs : s.id < g.size)
    (hk : Runs roomMeter k g c P) :
    Runs roomMeter (check s >>= fun _ => k) g c P := by
  have hch : Runs roomMeter (check s) g 0 fun t _ => t = g := by
    refine (get (A := roomMeter) trivial).bind (d := 0) fun _ h _ _ heq => ?_
    obtain ⟨rfl, rfl⟩ := heq
    rw [if_neg (Nat.not_le.2 hs)]
    exact .pure trivial rfl
  have hbi := hch.bind (d := c) fun t _ _ _ heq => (show Runs roomMeter k t c P from heq ▸ hk)
  rwa [zero_add] at hbi

lemma land_room (ha : a.id < g.size) (hb : b.id < g.size) :
    Runs roomMeter (land a b) g 1 fun _ _ => True := by
  have hpu : ∀ r : Xsignal, Runs roomMeter (pure r : XagM Xsignal) g 1 fun _ _ => True := fun _ =>
    (pure trivial trivial).more (zero_le _)
  refine check_room ha (check_room hb ?_)
  refine .ite (fun _ => hpu _) fun _ => .ite (fun _ => hpu _) fun _ =>
    .ite (fun _ => hpu _) fun _ => ?_
  exact intern_room _ _ _ _

lemma lxor_room (ha : a.id < g.size) (hb : b.id < g.size) :
    Runs roomMeter (lxor a b) g 1 fun _ _ => True := by
  have hpu : ∀ r : Xsignal, Runs roomMeter (pure r : XagM Xsignal) g 1 fun _ _ => True := fun _ =>
    (pure trivial trivial).more (zero_le _)
  refine check_room ha (check_room hb ?_)
  refine .ite (fun _ => hpu _) fun _ => .ite (fun _ => hpu _) fun _ => ?_
  exact (intern_room _ _ _ _).map fun _ _ _ _ _ => trivial

/-! ## In well-formed graphs -/

lemma input_runs (hg : g.Wf) (name : String) : Runs meter (input name) g 1 fun h s =>
    h.names = g.names ++ [name] ∧ s = ⟨g.size, false⟩ ∧ h.Is s (fun env => env g.names.length) ∧
    (h.node s.id).level = 0 :=
  runs_of_builds (input_room g name) (input_builds hg name) rfl

section

variable (hg : g.Wf) (ha : a.id < g.size) (hb : b.id < g.size)
include hg ha hb

lemma land_runs : Runs meter (land a b) g 1 fun h s => h.IsGate .andGate a b s :=
  runs_of_builds (land_room ha hb) ((land_builds hg a b).mono fun _ _ _ _ h => h.2.2) rfl

lemma lxor_runs : Runs meter (lxor a b) g 1 fun h s => h.IsGate .xorGate a b s :=
  runs_of_builds (lxor_room ha hb) ((lxor_builds hg a b).mono fun _ _ _ _ h => h.2.2) rfl

lemma lor_runs : Runs meter (lor a b) g 1 fun h s => s.id < h.size :=
  (land_runs hg (a := a.not) (b := b.not) ha hb).map fun _ _ _ _ hs => hs.lt

end

/-- A multiplexer takes three gates at most. -/
lemma mux_runs (hg : g.Wf) (hs : s.id < g.size) (ht : t.id < g.size) (hf : f.id < g.size) :
    Runs meter (mux s t f) g 3 fun h r => h.Is r fun env =>
    bif g.eval env s then g.eval env t else g.eval env f := by
  have hbu := (mux_builds hg s t f).mono fun _ _ _ _ h => h.2.2.2
  suffices hma : Runs meter (mux s t f) g 3 fun _ _ => True from runs_of_builds hma hbu rfl
  have hone : ∀ {m : XagM Xsignal} {P : Xag → Xsignal → Prop}, Runs meter m g 1 P →
      Runs meter m g 3 fun _ _ => True := fun h =>
    (h.more (by decide)).mono fun _ _ _ _ _ => trivial
  have hpu : ∀ r : Xsignal, Runs meter (pure r : XagM Xsignal) g 3 fun _ _ => True := fun _ =>
    (pure hg trivial).more (zero_le _)
  have hch : ∀ {r : Xsignal} {k : XagM Xsignal}, r.id < g.size →
      Runs meter k g 3 (fun _ _ => True) →
      Runs meter (check r >>= fun _ => k) g 3 fun _ _ => True := by
    intro r k hr hk
    have hro : Runs roomMeter k g 3 fun _ _ =>
      True := ⟨⟨trivial, trivial, fun _ _ => trivial⟩, hk.leaves, hk.stops⟩
    exact runs_of_builds (check_room hr hro) (check_bind hg fun _ => hk.builds) rfl
  refine hch hs (hch ht (hch hf ?_))
  refine .ite (fun _ => hpu _) fun _ => .ite (fun _ => hpu _) fun _ => .ite (fun _ => ?_) fun _ =>
    ite (fun _ => ?_) fun _ => .ite (fun _ => ?_) fun _ => ?_
  · exact hone (lxor_runs hg hs hf)
  · exact .ite (fun _ => hone (lor_runs hg hs hf)) fun _ => hone (land_runs hg (a := s.not) hs hf)
  · exact .ite (fun _ => hone (lor_runs hg (a := s.not) hs ht)) fun _ => hone (land_runs hg hs ht)
  · refine (lxor_runs hg ht hf).bind (d := 2) fun h d hh he hd => ?_
    refine (land_runs hh (hs.trans_le he.size) hd.lt).bind (d := 1) fun k p hk he' hp => ?_
    exact (lxor_runs hk ((hf.trans_le he.size).trans_le he'.size) hp.lt).mono fun _ _ _ _ _ =>
      trivial

end Xag

/-! ## The supply of a pass -/

/-- Credits that no admission check guards. -/
structure Work.Has (w : Work) (c : ℕ) : Prop where
  live : w.budget.exhausted = false
  free : w.budget.admission = false
  credits : c ≤ w.budget.remaining

lemma Work.Has.mono {w : Work} {d : ℕ} (h : w.Has d)
    (hcd : c ≤ d) : w.Has c := ⟨h.live, h.free, hcd.trans h.credits⟩

lemma Work.Has.spend {w : Work} {d : ℕ} (h : w.Has (c + d)) :
    (w.spend c).1 = true ∧ (w.spend c).2.Has d := by
  have hsa : w.budget.samples c = false := by rw [Budget.samples, h.live, h.free]; rfl
  have hcr := h.credits
  have hle : ¬c > w.budget.remaining := by omega
  have hsp : w.budget.spend (w.answers w.asked) c = w.budget.charge c := by
    rw [Budget.spend, h.live, hsa]
    rfl
  rw [Work.spend]
  rw [hsp, Budget.charge]
  rw [if_neg hle]
  exact ⟨rfl, h.live, h.free, Nat.le_sub_of_add_le' hcr⟩

/-- Credits alone. -/
def Work.meter : Meter Work where
  toArena := Yields.anyArena
  has c w := w.Has c
  mono hcd h := h.mono hcd

lemma WorkM.spend_run (c : ℕ) (w : Work) : (WorkM.spend c).run.run w =
    (if (w.spend c).1 then .ok () else .error .searchExhausted, (w.spend c).2) := by
  change (run (if (w.spend c).1 = true then (pure () : WorkM Unit) else throw .searchExhausted)).run
    (w.spend c).2 = _
  cases (w.spend c).1 <;> rfl

lemma WorkM.spend_runs (c : ℕ) (w : Work) :
    Runs Work.meter (WorkM.spend c) w c fun _ _ => True := by
  refine ⟨⟨trivial, trivial, fun _ _ => trivial⟩, ?_, ?_⟩ <;> rw [WorkM.spend_run]
  · exact fun _ _ _ hd => hd.spend.2
  · intro e he hhas
    have hok := (Work.Has.spend (w := w) (c := c) (d := 0) hhas).1
    rw [hok] at he
    nomatch he

/-- Credits, and room up to a limit on the candidate, for an input with the property `p`. -/
def supply (limit : ℕ) (p : Prop) : Meter PassState where
  toArena := passArena
  has c s := s.work.Has c ∧ s.candidate.size + c ≤ limit ∧ p
  mono hcd h := ⟨h.1.mono hcd, (Nat.add_le_add_left hcd _).trans h.2.1, h.2.2⟩

namespace Pass

variable {limit : ℕ} {p : Prop} {s : PassState} {α : Type}

lemma onGraph_run (m : XagM α) (s : PassState) :
    (onGraph m).run.run s = (match (m.run.run s.candidate).1 with
    | .ok a => .ok a
    | .error e => .error (.exception e), { s with candidate := (m.run.run s.candidate).2 }) := by
  change (run (match (m.run.run s.candidate).1 with
    | .ok a => (pure a : PassM α)
    | .error e => throw (.exception e))).run { s with candidate := (m.run.run s.candidate).2 } = _
  cases (m.run.run s.candidate).1 <;> rfl

lemma spend_run (c : ℕ) (s : PassState) : (spend c).run.run s =
    (if (s.work.spend c).1 then .ok () else .error (.status .searchExhausted),
      { s with work := (s.work.spend c).2 }) := by
  change (run (if (s.work.spend c).1 = true then (pure () : PassM Unit) else exhausted)).run
    { s with work := (s.work.spend c).2 } = _
  cases (s.work.spend c).1 <;> rfl

/-- What only reads the candidate costs nothing. -/
lemma graph_runs (hs : s.candidate.Wf) : Runs (supply limit p) graph s 0 fun t g =>
    t = s ∧ g = s.candidate := by
  refine (get (A := supply limit p) hs).map fun t u _ _ heq => ?_
  obtain ⟨rfl, rfl⟩ := heq
  exact ⟨rfl, rfl⟩

lemma spend_runs (hs : s.candidate.Wf) (c : ℕ) : Runs (supply limit p) (spend c) s c fun t _ =>
    t.candidate = s.candidate := by
  have hbu := ((Meters.spend c).builds hs).mono fun _ _ _ _ h => h.1
  refine ⟨hbu, ?_, ?_⟩
  · rw [spend_run]
    intro _ _ d hd
    refine ⟨hd.1.spend.2, ?_, hd.2.2⟩
    have hro := hd.2.1
    change s.candidate.size + d ≤ limit
    omega
  · rw [spend_run]
    intro e he hhas
    have hok := (Work.Has.spend (w := s.work) (c := c) (d := 0) hhas.1).1
    rw [hok] at he
    nomatch he

/-- A bound that the supply implies. -/
lemma require_runs {q : Prop} [Decidable q] (hs : s.candidate.Wf)
    (hq : s.candidate.size + c ≤ limit → p → q) :
    Runs (supply limit p) (require q) s c fun t _ => t = s ∧ q := by
  refine .ite (fun h => (pure hs ⟨rfl, h⟩).more (zero_le _)) fun h => ?_
  exact .throw hs fun hhas => h (hq hhas.2.1 hhas.2.2)

/-- A refusal that the property excludes. -/
lemma valid_runs {q : Prop} [Decidable q] {m : PassM α} {P : PassState → α → Prop}
    (hs : s.candidate.Wf) (hq : p → q)
    (hm : q → Runs (supply limit p) m s c P) :
    Runs (supply limit p) (if q then m else invalid) s c P :=
  ite hm fun h => .throw hs fun hhas => h (hq hhas.2.2)

lemma onGraph_runs {m : XagM α} {P : Xag → α → Prop}
    (h : Runs meter m s.candidate c P) (hs : s.candidate.Wf)
    (hli : limit ≤ maxId) : Runs (supply limit p) (onGraph m) s c fun t a => P t.candidate a := by
  refine ⟨onGraph_builds h.builds hs, ?_, ?_⟩
  · rw [onGraph_run]
    intro a ha d hd
    cases hm : (m.run.run s.candidate).1 with
    | error e =>
      rw [hm] at ha
      nomatch ha
    | ok b =>
      have hro := hd.2.1
      have hl : (m.run.run s.candidate).2.size + (maxId - s.candidate.size - c) ≤ maxId := by
        refine h.leaves b hm _ ?_
        change s.candidate.size + _ ≤ maxId
        omega
      refine ⟨hd.1.mono (le_add_left d c), ?_, hd.2.2⟩
      change (m.run.run s.candidate).2.size + d ≤ limit
      omega
  · rw [onGraph_run]
    intro e he hhas
    cases hm : (m.run.run s.candidate).1 with
    | error e => exact h.stops e hm (hhas.2.1.trans hli)
    | ok b =>
      rw [hm] at he
      nomatch he

/-! ## Passes that cannot throw -/

variable {E : Stop → Prop}

/-- An operation for which there is room. -/
lemma onGraph_ends {m : XagM α} {P : Xag → α → Prop}
    (h : Runs meter m s.candidate c P) (hs : s.candidate.Wf)
    (hro : s.candidate.size + c ≤ maxId) : Ends passArena E (onGraph m) s fun t a =>
      P t.candidate a ∧ t.candidate.size ≤ s.candidate.size + c ∧ t.work = s.work := by
  obtain ⟨a, ha⟩ := h.result hro
  obtain ⟨hinv, hle, hP⟩ := onGraph_builds h.builds hs
  have hl : (m.run.run s.candidate).2.size + (maxId - s.candidate.size - c) ≤ maxId := by
    refine h.leaves a ha _ ?_
    change s.candidate.size + _ ≤ maxId
    omega
  refine ⟨⟨hinv, hle, fun b hb => ⟨hP b hb, ?_, ?_⟩⟩, fun e he => ?_⟩
  · rw [onGraph_run]
    change (m.run.run s.candidate).2.size ≤ _
    omega
  · rw [onGraph_run]
  · rw [onGraph_run, ha] at he
    nomatch he

lemma gate_ends (hs : s.candidate.Wf) {kind : Kind} (hk : kind.isGate = true) {a b : Xsignal}
    {f f' : (ℕ → Bool) → Bool}
    (ha : s.candidate.Is a f) (hb : s.candidate.Is b f') (hro : s.candidate.size + 1 ≤ maxId) :
    Ends passArena E (gate kind a b) s fun t r =>
    t.candidate.Is r (fun env => kind.op (f env) (f' env)) ∧
      t.candidate.names = s.candidate.names ∧
      t.candidate.size ≤ s.candidate.size + 1 ∧ t.work = s.work := by
  have hru : Runs meter (if kind = .andGate then land a b else lxor a b) s.candidate 1 fun _ _ =>
      True :=
    ite (fun _ => (land_runs hs ha.lt hb.lt).mono fun _ _ _ _ _ => trivial) fun _ =>
      (lxor_runs hs ha.lt hb.lt).mono fun _ _ _ _ _ => trivial
  have hen := onGraph_ends (E := E) hru hs hro
  obtain ⟨hinv, hle, hP⟩ := gate_builds hs hk ha hb
  exact ⟨⟨hinv, hle, fun r hr => ⟨(hP r hr).1, (hP r hr).2.2, (hen.builds.2.2 r hr).2⟩⟩, hen.stops⟩

lemma spend_ends (hs : s.candidate.Wf) {enough : Prop} {d : ℕ} (hw : enough → s.work.Has (c + d))
    (hE : ¬enough → E (.status .searchExhausted)) : Ends passArena E (spend c) s fun t _ =>
      t.candidate = s.candidate ∧ (enough → t.work.Has d) := by
  obtain ⟨hinv, hle, hP⟩ := (Meters.spend c).builds hs
  refine ⟨⟨hinv, hle, fun a ha => ⟨(hP a ha).1, fun hen => ?_⟩⟩, fun e he => ?_⟩
  · rw [spend_run]
    exact (hw hen).spend.2
  · rw [spend_run] at he
    cases hsp : (s.work.spend c).1 with
    | true =>
      rw [hsp] at he
      nomatch he
    | false =>
      rw [hsp] at he
      cases he
      refine hE fun hen => ?_
      rw [(hw hen).spend.1] at hsp
      cases hsp

end Pass

end LiveHD.Usyn
