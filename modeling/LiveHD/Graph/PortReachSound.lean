import LiveHD.Graph.MemoryDepsSound
import LiveHD.Graph.PortReach

/-!
# The summaries of the inputs that an output reads

The pass over the components and the walk of each output give what their own steps reach.  They
differ from the combinational paths at a sign extension and at a synchronous port of a mixed memory.
-/

namespace LiveHD.PortReach

open Relation Supports List

namespace Body

variable (b : Body)

/-- The one pass goes from pin to pin. -/
def ReadPath : Pin → Pin → Prop := ReflTransGen fun p q => q ∈ b.reads p

/-- What the walk of an output goes to: the input alone from a slice read. -/
def walkReads : Pin → List Pin
  | .out n q =>
    match b.inputAtomOf n q with
    | some atom => [.input atom.pid]
    | none => b.reads (.out n q)
  | _ => []

def WalkPath : Pin → Pin → Prop := ReflTransGen fun p q => q ∈ b.walkReads p

variable {b}

/-! ## Drivers -/

lemma mem_allInputs {n : ℕ} {p : Pin} : p ∈ b.allInputs n ↔ ∃ port, (p, ⟨n, port⟩) ∈ b.edges := by
  rw [allInputs, mem_map]
  constructor
  · rintro ⟨⟨port, p'⟩, he, rfl⟩
    obtain ⟨⟨d, s⟩, hd, heq⟩ := mem_map.1 (Netlist.sinkDrivers_perm n |>.mem_iff.1 he)
    obtain ⟨hed, hn⟩ := mem_filter.1 hd
    cases heq
    obtain rfl : s.node = n := beq_iff_eq.1 hn
    exact ⟨s.port, hed⟩
  · rintro ⟨port, hed⟩
    refine ⟨(port, p), (Netlist.sinkDrivers_perm n).mem_iff.2
      (mem_map.2 ⟨(p, ⟨n, port⟩), mem_filter.2 ⟨hed, ?_⟩, rfl⟩), rfl⟩
    exact beq_self_eq_true n

lemma mem_drivers {s : Sink} {p : Pin} : p ∈ b.drivers s ↔ (p, s) ∈ b.edges := by
  rw [Netlist.drivers, mem_map]
  constructor
  · rintro ⟨⟨d, t⟩, hd, rfl⟩
    obtain ⟨hed, heq⟩ := mem_filter.1 hd
    obtain rfl : t = s := beq_iff_eq.1 heq
    exact hed
  · exact fun h => ⟨(p, s), mem_filter.2 ⟨h, beq_self_eq_true s⟩, rfl⟩

lemma mem_instanceInputs {n q : ℕ} {row : ℕ → Option (List ℕ)} {p : Pin} :
    p ∈ b.instanceInputs n q row ↔
    ∃ ins, row q = some ins ∧ ∃ port ∈ ins, (p, ⟨n, port⟩) ∈ b.edges := by
  rw [instanceInputs, mem_flatMap]
  simp only [mem_drivers]
  cases hrow : row q with
  | none => exact ⟨fun ⟨_, h, _⟩ => absurd h not_mem_nil, fun ⟨_, h, _⟩ => nomatch h⟩
  | some ins =>
    constructor
    · rintro ⟨port, hp, hed⟩
      exact ⟨ins, rfl, port, hp, hed⟩
    · rintro ⟨ins', heq, port, hp, hed⟩
      cases heq
      exact ⟨port, hp, hed⟩

lemma decoded (h : b.Legal) {n : ℕ} (hn : b.role n = .memory) :
    Decoded (Memory.ofSinks (b.sinkDrivers n)) (b.memDepsOf n) := by
  refine decoded_decode ⟨?_, fun e he => (h.memory n hn).blocks e
    ((Netlist.sinkDrivers_perm n).mem_iff.1 he)⟩
  exact ((Netlist.sinkDrivers_perm n).map _).nodup_iff.2 (h.memory n hn).nodup

lemma mem_of_sinkOf {n raw : ℕ} {p : Pin}
    (h : sinkOf (b.sinkDrivers n) raw = some p) : p ∈ b.allInputs n := by
  obtain ⟨e, he, rfl⟩ := Option.map_eq_some_iff.1 h
  exact mem_map_of_mem (mem_of_find?_eq_some he)

/-- All that is read drives a sink. -/
lemma mem_edges_of_mem_reads (h : b.Legal) {p x : Pin} (hx : x ∈ b.reads p) :
    x ∈ b.edges.map (·.1) := by
  have hed : ∀ n port, (x, ⟨n, port⟩) ∈ b.edges →
    x ∈ b.edges.map (·.1) := fun n port he => mem_map.2 ⟨_, he, rfl⟩
  have hall : ∀ n, x ∈ b.allInputs n → x ∈ b.edges.map (·.1) := by
    intro n hx
    obtain ⟨port, he⟩ := mem_allInputs.1 hx
    exact hed n port he
  cases p with
  | input _ | const _ => cases hx
  | out n q =>
    rw [reads] at hx
    split at hx
    · cases hx
    · split at hx
      · obtain ⟨ins, -, port, -, he⟩ := mem_instanceInputs.1 hx
        exact hed n port he
      · split at hx
        · cases hx
        · exact hall n hx
    next hn =>
      rcases (decoded h hn).exists_pin_of_mem_deps hx with hx | ⟨raw, hraw⟩
      · exact hall n hx
      · exact hall n (mem_of_sinkOf hraw)
    · exact hall n hx

/-! ## The one pass -/

/-- What is read by the way of the pins that are no inputs. -/
lemma support_iff {p : Pin} (hp : ∃ n q, p = .out n q) (pid : ℕ) : Support b.succ b.direct p pid ↔
    b.ReadPath p (.input pid) := by
  constructor
  · rintro ⟨q, hre, hdi⟩
    obtain ⟨x, hx, heq⟩ := mem_filterMap.1 hdi
    have hla : (.input pid) ∈ b.reads q := by
      cases x with
      | input i =>
        cases heq
        exact hx
      | const _ | out _ _ => cases heq
    exact (ReflTransGen.mono (fun a c hc => (mem_filter.1 hc).1) _ _ hre).tail hla
  · intro h
    induction h using ReflTransGen.head_induction_on with
    | refl =>
      obtain ⟨n, q, heq⟩ := hp
      cases heq
    | @head a c hac hcx ih =>
      cases c with
      | const v =>
        rcases hcx.cases_head with heq | ⟨y, hy, -⟩
        · cases heq
        · cases hy
      | input i =>
        rcases hcx.cases_head with heq | ⟨y, hy, -⟩
        · cases heq
          exact ⟨a, .refl, mem_filterMap.2 ⟨_, hac, rfl⟩⟩
        · cases hy
      | out m r =>
        obtain ⟨x, hre, hx⟩ := ih ⟨m, r, rfl⟩
        exact ⟨x, .head (mem_filter.2 ⟨hac, rfl⟩) hre, hx⟩

lemma mem_pins_of_mem_succ (h : b.Legal) {p q : Pin} (hq : q ∈ b.succ p) : q ∈ b.pins :=
  mem_append_right _ (mem_edges_of_mem_reads h (mem_filter.1 hq).1)

/-- The rows of the one pass, from any state between two outputs. -/
lemma supportRows_spec (os : List ℕ) (hos : ∀ o ∈ os, o ∈ b.outputs) (s : State Pin ℕ)
    (hs : Idle b.succ b.direct b.pins s) :
    (b.supportRows os s).map (·.1) = os ∧
      ∀ r ∈ b.supportRows os s, ∀ pid, pid ∈ r.2 ↔
      ∃ d, b.outDriver r.1 = some d ∧ b.ReadPath d (.input pid) := by
  induction os generalizing s with
  | nil => exact ⟨rfl, nofun⟩
  | cons o os ih =>
    have hre := ih fun o ho => hos o (.tail _ ho)
    have hc : ∀ v pid, ¬b.ReadPath (.const v) (.input pid) := by
      intro v pid hpa
      rcases hpa.cases_head with heq | ⟨y, hy, -⟩
      · cases heq
      · cases hy
    have hrow : ∀ l t, Idle b.succ b.direct b.pins t →
        (∀ pid, pid ∈ l ↔ ∃ d, b.outDriver o = some d ∧ b.ReadPath d (.input pid)) →
        ((o, l) :: b.supportRows os t).map (·.1) = o :: os ∧
          ∀ r ∈ (o, l) :: b.supportRows os t, ∀ pid, pid ∈ r.2 ↔
          ∃ d, b.outDriver r.1 = some d ∧ b.ReadPath d (.input pid) := by
      intro l t ht hl
      refine ⟨congrArg _ (hre t ht).1, fun r hr => ?_⟩
      rcases mem_cons.1 hr with rfl | hr
      · exact hl
      · exact (hre t ht).2 r hr
    rw [supportRows]
    cases hd : b.outDriver o with
    | none => exact hrow [] s hs fun pid => ⟨nofun, fun ⟨_, heq, _⟩ => nomatch hd.symm.trans heq⟩
    | some d =>
      have hiff : ∀ pid, (∃ e, b.outDriver o = some e ∧ b.ReadPath e (.input pid)) ↔
          b.ReadPath d (.input pid) := by
        intro pid
        rw [hd]
        constructor
        · rintro ⟨e, heq, hpa⟩
          cases heq
          exact hpa
        · exact fun hpa => ⟨d, rfl, hpa⟩
      cases d with
      | const v => exact hrow [] s hs fun pid =>
        ⟨nofun, fun hp => absurd ((hiff pid).1 hp) (hc v pid)⟩
      | input i =>
        refine hrow [i] s hs fun pid => ?_
        rw [hiff, mem_singleton]
        constructor
        · rintro rfl
          exact .refl
        · intro hpa
          rcases hpa.cases_head with heq | ⟨y, hy, -⟩
          · exact (Pin.input.inj heq).symm
          · cases hy
      | out n q =>
        have hro : Pin.out n q ∈ b.pins :=
          mem_append_left _ (mem_filterMap.2 ⟨o, hos o (.head _), hd⟩)
        obtain ⟨hid, hsup⟩ := hs.supportOf hro
        exact hrow _ _ hid fun pid => by rw [hiff, hsup, support_iff ⟨n, q, rfl⟩]

/-! ## The walk -/

end Body

lemma mem_addAtom {atoms : List InAtom} {new : InAtom} {pid : ℕ} :
    pid ∈ (addAtom atoms new).map (·.pid) ↔ pid = new.pid ∨ pid ∈ atoms.map (·.pid) := by
  induction atoms with
  | nil => exact mem_cons
  | cons a v ih =>
    rw [addAtom]
    split
    · rw [map_cons, mem_cons, ih, map_cons, mem_cons, or_left_comm]
    next heq =>
      have hmem : pid = new.pid ∨ pid ∈ (a :: v).map (·.pid) ↔
          pid = a.pid ∨ pid ∈ v.map (·.pid) := by
        rw [map_cons, mem_cons, not_not.1 heq, ← or_assoc, or_self]
      rw [hmem]
      split
      · exact mem_cons
      split
      · exact mem_cons
      · exact mem_cons

namespace Walk

variable {w : Walk} {p x : Pin}

/-- The pins that are left: those on the stack, and those of the universe that are not marked. -/
def left (items : List Pin) (w : Walk) : ℕ :=
  w.stk.length + (items.filter fun p => decide (p ∉ w.seen)).length

/-- What marking pins does. -/
structure Enqueued (l : List Pin) (w w' : Walk) : Prop where
  atoms : w'.atoms = w.atoms
  expanded : w'.expanded = w.expanded
  seen : ∀ x, x ∈ w'.seen ↔ x ∈ w.seen ∨ x ∈ l ∧ x.isConst = false
  stk : ∀ x, x ∈ w'.stk ↔ x ∈ w.stk ∨ x ∈ w'.seen ∧ x ∉ w.seen
  left : ∀ items, (∀ x ∈ l, x ∈ items) → w'.left items ≤ w.left items

lemma Enqueued.refl (w : Walk) : Enqueued [] w w :=
  ⟨rfl, rfl, fun _ => (or_iff_left fun h => absurd h.1 not_mem_nil).symm,
    fun _ => (or_iff_left fun h => h.2 h.1).symm, fun _ _ => le_rfl⟩

lemma Enqueued.trans {l l' : List Pin} {w w' w'' : Walk} (h : Enqueued l w w')
    (h' : Enqueued l' w' w'') : Enqueued (l ++ l') w w'' where
  atoms := h'.atoms.trans h.atoms
  expanded := h'.expanded.trans h.expanded
  seen x := by rw [h'.seen, h.seen, mem_append, or_and_right, or_assoc]
  stk x := by
    rw [h'.stk, h.stk, or_assoc]
    refine or_congr_right ?_
    have hmo : x ∈ w'.seen → x ∈ w''.seen := fun hx => (h'.seen x).2 (.inl hx)
    have hmo' : x ∈ w.seen → x ∈ w'.seen := fun hx => (h.seen x).2 (.inl hx)
    constructor
    · rintro (⟨hx, hnot⟩ | ⟨hx, hnot⟩)
      · exact ⟨hmo hx, hnot⟩
      · exact ⟨hx, fun hold => hnot (hmo' hold)⟩
    · rintro ⟨hx, hnot⟩
      by_cases hmid : x ∈ w'.seen
      · exact .inl ⟨hmid, hnot⟩
      · exact .inr ⟨hx, hmid⟩
  left items hite := (h'.left items fun x hx => hite x (mem_append_right _ hx)).trans
    (h.left items fun x hx => hite x (mem_append_left _ hx))

lemma enqueued (w : Walk) (p : Pin) : Enqueued [p] w (w.enqueue p) := by
  have hsi : ∀ x, x ∈ w.seen ∨ x ∈ [p] ∧ x.isConst = false ↔
      x ∈ w.seen ∨ x = p ∧ p.isConst = false := by
    intro x
    rw [mem_singleton]
    refine or_congr_right ⟨?_, ?_⟩
    · rintro ⟨rfl, hx⟩
      exact ⟨rfl, hx⟩
    · rintro ⟨rfl, hx⟩
      exact ⟨rfl, hx⟩
  rw [enqueue]
  split
  next h =>
    refine ⟨rfl, rfl, fun x => ?_, fun x => (or_iff_left fun h => h.2 h.1).symm, fun _ _ => le_rfl⟩
    rw [hsi]
    refine (or_iff_left_of_imp ?_).symm
    rintro ⟨rfl, hc⟩
    rwa [hc, Bool.false_or, decide_eq_true_iff] at h
  next h =>
    obtain ⟨hc, hnew⟩ : p.isConst = false ∧ p ∉ w.seen := by
      rwa [Bool.or_eq_true, not_or, Bool.not_eq_true, decide_eq_true_iff] at h
    refine ⟨rfl, rfl, fun x => ?_, fun x => ?_, fun items hite => ?_⟩
    · rw [hsi, mem_cons, or_comm]
      exact or_congr_right (and_iff_left hc).symm
    · rw [mem_cons, mem_cons, or_comm]
      refine or_congr_right ⟨?_, ?_⟩
      · rintro rfl
        exact ⟨.inl rfl, hnew⟩
      · rintro ⟨hx, hnot⟩
        exact hx.resolve_right hnot
    · have hsum := sum_filter_add_le (q := p) (P := fun x => decide (x ∉ w.seen))
        (Q := fun x => decide (x ∉ p :: w.seen)) (fun _ => 1)
        (hite p (mem_singleton_self p)) (decide_eq_true hnew)
          (decide_eq_false (not_not.2 (.head _))) fun x hx => ?_
      · simp only [map_const', sum_replicate_nat] at hsum
        rw [left, left, length_cons]
        dsimp only
        omega
      · rw [decide_eq_true_iff] at hx ⊢
        exact fun hold => hx (.tail _ hold)

lemma enqueuedAll (w : Walk) (l : List Pin) : Enqueued l w (w.enqueueAll l) := by
  induction l generalizing w with
  | nil => exact .refl w
  | cons p l ih => exact (enqueued w p).trans (ih (w.enqueue p))

end Walk

namespace Body

variable {b : Body} {w w' : Walk} {d x : Pin}

/-- The pin is marked, or an input that is recorded. -/
def Noted (w : Walk) (x : Pin) : Prop := x.isConst = true ∨ x ∈ w.seen ∨
    ∃ pid ∈ w.atoms.map (·.pid), x = .input pid

/-- What the pin reads is noted. -/
def Visited (b : Body) (w : Walk) (d : Pin) : Prop :=
  (∀ pid, d = .input pid → pid ∈ w.atoms.map (·.pid)) ∧ ∀ x ∈ b.walkReads d, Noted w x

/-- A visit notes what the pin reads, and nothing else. -/
structure Visits (b : Body) (d : Pin) (w w' : Walk) : Prop where
  seen : ∀ x ∈ w.seen, x ∈ w'.seen
  atoms : ∀ pid ∈ w.atoms.map (·.pid), pid ∈ w'.atoms.map (·.pid)
  onlySeen : ∀ x ∈ w'.seen, x ∈ w.seen ∨ x ∈ b.walkReads d
  onlyAtoms : ∀ pid ∈ w'.atoms.map (·.pid), pid ∈ w.atoms.map (·.pid) ∨ d = .input pid ∨
    Pin.input pid ∈ b.walkReads d
  stk : ∀ x, x ∈ w'.stk ↔ x ∈ w.stk ∨ x ∈ w'.seen ∧ x ∉ w.seen
  visited : b.Visited w' d
  expanded : ∀ n ∈ w'.expanded, n ∈ w.expanded ∨ ∀ x ∈ b.allInputs n, x.isConst = true ∨ x ∈ w'.seen
  left : w'.left (b.edges.map (·.1)) ≤ w.left (b.edges.map (·.1))

lemma Visits.record {atom : InAtom} (h : d = .input atom.pid ∧ b.walkReads d = [] ∨
    (∃ n q, d = .out n q) ∧ b.walkReads d = [.input atom.pid]) :
    b.Visits d w { w with atoms := addAtom w.atoms atom } where
  seen _ hx := hx
  atoms _ hpid := mem_addAtom.2 (.inr hpid)
  onlySeen _ hx := .inl hx
  onlyAtoms pid hpid := by
    rcases mem_addAtom.1 hpid with rfl | hpid
    · rcases h with ⟨heq, -⟩ | ⟨-, heq⟩
      · exact .inr (.inl heq)
      · exact .inr (.inr (heq ▸ mem_singleton_self _))
    · exact .inl hpid
  stk x := (or_iff_left fun hx => hx.2 hx.1).symm
  visited := by
    rcases h with ⟨heq, hrd⟩ | ⟨⟨n, q, heq⟩, hrd⟩
    · refine ⟨fun pid hpid => mem_addAtom.2 (.inl ?_), fun x hx => ?_⟩
      · exact (Pin.input.inj (heq.symm.trans hpid)).symm
      · rw [hrd] at hx
        cases hx
    · refine ⟨fun pid hpid => ?_, fun x hx => ?_⟩
      · rw [heq] at hpid
        cases hpid
      · rw [hrd] at hx
        exact .inr (.inr ⟨atom.pid, mem_addAtom.2 (.inl rfl), mem_singleton.1 hx⟩)
  expanded _ hn := .inl hn
  left := le_rfl

lemma Visits.of_enqueued {l : List Pin} (hd : ∀ pid, d ≠ .input pid) (hrd : b.walkReads d = l)
    (hl : ∀ x ∈ l, x ∈ b.edges.map (·.1))
    (h : Walk.Enqueued l w w') : b.Visits d w w' where
  seen x hx := (h.seen x).2 (.inl hx)
  atoms pid hpid := by rwa [h.atoms]
  onlySeen x hx := by
    rcases (h.seen x).1 hx with hx | ⟨hx, -⟩
    · exact .inl hx
    · exact .inr (hrd ▸ hx)
  onlyAtoms pid hpid := .inl (by rwa [h.atoms] at hpid)
  stk := h.stk
  visited := by
    refine ⟨fun pid hpid => absurd hpid (hd pid), fun x hx => ?_⟩
    rw [hrd] at hx
    cases hc : x.isConst with
    | true => exact .inl hc
    | false => exact .inr (.inl ((h.seen x).2 (.inr ⟨hx, hc⟩)))
  expanded n hn := .inl (by rwa [h.expanded] at hn)
  left := h.left _ hl

lemma Visits.nothing (hd : ∀ pid, d ≠ .input pid) (hrd : b.walkReads d = []) : b.Visits d w w :=
  .of_enqueued hd hrd nofun (.refl w)

lemma Visits.expand {n : ℕ} (hd : ∀ pid, d ≠ .input pid) (hrd : b.walkReads d = b.allInputs n)
    (hexp : ∀ m ∈ w.expanded, ∀ x ∈ b.allInputs m, x.isConst = true ∨ x ∈ w.seen) :
    b.Visits d w (b.expand w n) := by
  have hl : ∀ x ∈ b.allInputs n, x ∈ b.edges.map (·.1) := by
    intro x hx
    obtain ⟨port, hed⟩ := mem_allInputs.1 hx
    exact mem_map.2 ⟨_, hed, rfl⟩
  rw [Body.expand]
  split
  next hn =>
    refine ⟨fun _ hx => hx, fun _ hpid => hpid, fun _ hx => .inl hx, fun _ hpid => .inl hpid,
      fun x => (or_iff_left fun hx => hx.2 hx.1).symm,
      ⟨fun pid hpid => absurd hpid (hd pid), fun x hx => ?_⟩, fun _ hm => .inl hm, le_rfl⟩
    rw [hrd] at hx
    exact (hexp n hn x hx).imp_right .inl
  next hn =>
    have henq := Walk.enqueuedAll { w with expanded := n :: w.expanded } (b.allInputs n)
    have hvi := Visits.of_enqueued hd hrd hl henq
    refine { hvi with expanded := fun m hm => ?_ }
    rcases mem_cons.1 (henq.expanded ▸ hm) with rfl | hm
    · refine .inr fun x hx => ?_
      cases hc : x.isConst with
      | true => exact .inl rfl
      | false => exact .inr ((henq.seen x).2 (.inr ⟨hx, hc⟩))
    · exact .inl hm

/-- A field read is a slice read. -/
lemma fieldRead_eq_none {n q : ℕ} (h : b.inputAtomOf n q = none) : b.fieldRead n = none := by
  rw [fieldRead]
  split
  next hk hval ham =>
    rw [inputAtomOf, hk] at h
    rwa [hval, ham] at h
  · rfl

/-- A pin that is taken from the stack. -/
lemma visits (hle : b.Legal) (hexp : ∀ m ∈ w.expanded, ∀ x ∈ b.allInputs m, x.isConst = true ∨
    x ∈ w.seen) :
    b.Visits d w (b.visit w d) := by
  cases d with
  | const v => exact .nothing nofun rfl
  | input pid => exact .record (.inl ⟨rfl, rfl⟩)
  | out n q =>
    have hd : ∀ pid, Pin.out n q ≠ .input pid := nofun
    rw [visit]
    cases hato : b.inputAtomOf n q with
    | some atom => exact .record (.inr ⟨⟨n, q, rfl⟩, by rw [walkReads, hato]⟩)
    | none =>
      have hrd : b.walkReads (.out n q) = b.reads (.out n q) := by rw [walkReads, hato]
      have hl : ∀ x ∈ b.reads (.out n q), x ∈ b.edges.map (·.1) := fun x hx =>
        mem_edges_of_mem_reads hle hx
      rw [reads] at hrd hl
      cases hro : b.role n with
      | register =>
        rw [hro] at hrd
        exact .nothing hd hrd
      | «instance» c =>
        rw [hro] at hrd hl
        dsimp only at hrd hl ⊢
        cases hrow : b.summary c with
        | some row =>
          rw [hrow] at hrd hl
          exact .of_enqueued hd hrd hl (Walk.enqueuedAll _ _)
        | none =>
          rw [hrow] at hrd
          cases hst : b.stateOutput n c q with
          | true =>
            rw [hst] at hrd
            exact .nothing hd hrd
          | false =>
            rw [hst] at hrd
            exact .expand hd hrd hexp
      | memory =>
        rw [hro] at hrd hl
        cases hde : (b.memDepsOf n).deps q true with
        | some l =>
          rw [hde] at hrd hl
          exact .of_enqueued hd hrd hl (Walk.enqueuedAll _ _)
        | none =>
          rw [hde] at hrd
          exact .expand hd hrd hexp
      | plain =>
        rw [hro] at hrd
        rw [fieldRead_eq_none hato]
        exact .expand hd hrd hexp

/-- The walk from a seed. -/
structure Walking (b : Body) (seed : Pin) (w : Walk) : Prop where
  started : seed.isConst = true ∨ seed ∈ w.seen
  seen : ∀ p ∈ w.seen, b.WalkPath seed p
  atoms : ∀ pid ∈ w.atoms.map (·.pid), b.WalkPath seed (.input pid)
  stk : ∀ p ∈ w.stk, p ∈ w.seen
  visited : ∀ p ∈ w.seen, p ∉ w.stk → b.Visited w p
  expanded : ∀ n ∈ w.expanded, ∀ x ∈ b.allInputs n, x.isConst = true ∨ x ∈ w.seen

lemma Noted.mono (h : Noted w x) (hv : b.Visits d w w') : Noted w' x := by
  rcases h with h | h | ⟨pid, hpid, heq⟩
  · exact .inl h
  · exact .inr (.inl (hv.seen x h))
  · exact .inr (.inr ⟨pid, hv.atoms pid hpid, heq⟩)

lemma Walking.visit {seed : Pin} {stk : List Pin} (h : b.Walking seed w) (hle : b.Legal)
    (hstk : w.stk = d :: stk) :
    b.Walking seed (b.visit { w with stk := stk } d) ∧
      (b.visit { w with stk := stk } d).left (b.edges.map (·.1)) < w.left (b.edges.map (·.1)) := by
  have hv := visits (d := d) (w := { w with stk := stk }) hle h.expanded
  have hd := h.stk d (hstk ▸ (.head _))
  have hpa := h.seen d hd
  constructor
  · constructor
    · exact h.started.imp_right (hv.seen seed)
    · intro p hp
      rcases hv.onlySeen p hp with hp | hp
      · exact h.seen p hp
      · exact hpa.tail hp
    · intro pid hpid
      rcases hv.onlyAtoms pid hpid with hpid | rfl | hpid
      · exact h.atoms pid hpid
      · exact hpa
      · exact hpa.tail hpid
    · intro p hp
      rcases (hv.stk p).1 hp with hp | ⟨hp, -⟩
      · exact hv.seen p (h.stk p (hstk ▸ mem_cons_of_mem d hp))
      · exact hp
    · intro p hp hnot
      by_cases hpd : p = d
      · rw [hpd]
        exact hv.visited
      · have hold : p ∈ w.seen := by
          by_contra hnew
          exact hnot ((hv.stk p).2 (.inr ⟨hp, hnew⟩))
        have hno' : p ∉ w.stk := by
          rw [hstk, mem_cons, not_or]
          exact ⟨hpd, fun hmem => hnot ((hv.stk p).2 (.inl hmem))⟩
        obtain ⟨hin, hrd⟩ := h.visited p hold hno'
        exact ⟨fun pid heq => hv.atoms pid (hin pid heq),
          fun x hx => (show Noted { w with stk := stk } x from hrd x hx).mono hv⟩
    · intro n hn x hx
      rcases hv.expanded n hn with hn | hn
      · exact (h.expanded n hn x hx).imp_right (hv.seen x)
      · exact hn x hx
  · refine hv.left.trans_lt ?_
    rw [Walk.left, Walk.left, hstk]
    exact Nat.add_lt_add_right (Nat.lt_succ_self _) _

lemma Walking.walkLoop {seed : Pin} (hle : b.Legal) {fuel : ℕ} (h : b.Walking seed w)
    (hfu : w.left (b.edges.map (·.1)) ≤ fuel) :
    b.Walking seed (b.walkLoop fuel w) ∧ (b.walkLoop fuel w).stk = [] := by
  induction fuel generalizing w with
  | zero => refine ⟨h, length_eq_zero_iff.1 (Nat.le_zero.1 ((Nat.le_add_right _ _).trans hfu))⟩
  | succ fuel ih =>
    rw [Body.walkLoop]
    split
    next hstk => exact ⟨h, hstk⟩
    next d stk hstk =>
      obtain ⟨hn, hls⟩ := h.visit hle hstk
      exact ih hn (Nat.le_of_lt_succ (hls.trans_le hfu))

/-- The walk of an output finds exactly what its own steps reach. -/
lemma mem_runWalk (hle : b.Legal) (seed : Pin) (pid : ℕ) : pid ∈ (b.runWalk seed).map (·.pid) ↔
    b.WalkPath seed (.input pid) := by
  have henq := Walk.enqueued ⟨[], [], [], []⟩ seed
  have hse : ∀ p ∈ (Walk.enqueue ⟨[], [], [], []⟩ seed).seen, p = seed := by
    intro p hp
    rcases (henq.seen p).1 hp with hp | ⟨hp, -⟩
    · cases hp
    · exact mem_singleton.1 hp
  have hsta : b.Walking seed (Walk.enqueue ⟨[], [], [], []⟩ seed) := by
    refine ⟨?_, fun p hp => ?_, fun pid hpid => ?_, fun p hp => ?_,
      fun p hp hnot => ?_, fun n hn => ?_⟩
    · cases hc : seed.isConst with
      | true => exact .inl rfl
      | false => exact .inr ((henq.seen seed).2 (.inr ⟨mem_singleton_self _, hc⟩))
    · rw [hse p hp]
      exact .refl
    · rw [henq.atoms] at hpid
      cases hpid
    · exact ((henq.stk p).1 hp).elim nofun (·.1)
    · exact absurd ((henq.stk p).2 (.inr ⟨hp, not_mem_nil⟩)) hnot
    · rw [henq.expanded] at hn
      cases hn
  have hfu : (Walk.enqueue ⟨[], [], [], []⟩ seed).left (b.edges.map (·.1)) ≤
      b.edges.length + 1 := by
    have hfi : ((b.edges.map (·.1)).filter
        fun p => decide (p ∉ (Walk.enqueue ⟨[], [], [], []⟩ seed).seen)).length ≤ b.edges.length :=
      (length_filter_le _ _).trans (length_map _).le
    have hstk : (Walk.enqueue ⟨[], [], [], []⟩ seed).stk.length ≤ 1 := by
      rw [Walk.enqueue]
      split
      · exact Nat.zero_le 1
      · exact le_rfl
    rw [Walk.left]
    omega
  obtain ⟨hdo, hem⟩ := hsta.walkLoop hle hfu
  constructor
  · exact hdo.atoms pid
  · have key : ∀ x, b.WalkPath seed x →
        Noted (b.walkLoop (b.edges.length + 1) (Walk.enqueue ⟨[], [], [], []⟩ seed)) x := by
      intro x hpa
      induction hpa with
      | refl => exact hdo.started.imp_right .inl
      | @tail p x _ hst ih =>
        rcases ih with hc | hp | ⟨i, -, rfl⟩
        · cases p with
          | const v => cases hst
          | input _ | out _ _ => cases hc
        · exact (hdo.visited p hp (by rw [hem]; exact not_mem_nil)).2 x hst
        · cases hst
    intro hpa
    rcases key _ hpa with hc | hp | ⟨i, hi, heq⟩
    · cases hc
    · exact (hdo.visited _ hp (by rw [hem]; exact not_mem_nil)).1 pid rfl
    · cases heq
      exact hi

end Body

end LiveHD.PortReach
