import LiveHD.Graph.Materialize
import LiveHD.Lib.Lists

/-!
# The wiring of the occurrences

What the loop over the ordinals builds: `Wired` after `r` of them.  No check that follows the first
new node fails once `preflight` has passed.
-/

namespace LiveHD

open Function List Nat Netlist

/-- `h'` adds nodes to `h`, and edges from pins other than those of `inst` into `rep` or into the
new nodes. -/
structure Netlist.Extends (inst rep : ℕ) (h h' : Netlist) : Prop where
  nodes : ∃ ns, h'.nodes = h.nodes ++ ns
  edges : ∃ es, h'.edges = h.edges ++ es ∧
    ∀ e ∈ es, (e.2.node = rep ∨ h.nodes.length ≤ e.2.node) ∧
    e.2.node < h'.nodes.length ∧ e.1.isOut inst = false

namespace Netlist.Extends

variable {inst rep : ℕ} {g h h' : Netlist}

lemma refl (inst rep : ℕ) (h : Netlist) : Extends inst rep h h :=
  ⟨⟨[], (append_nil _).symm⟩, [], (append_nil _).symm, nofun⟩

lemma length_le (he : Extends inst rep h h') : h.nodes.length ≤ h'.nodes.length := by
  obtain ⟨ns, hns⟩ := he.nodes
  rw [hns, length_append]
  exact le_add_right _ _

lemma trans (he : Extends inst rep g h) (he' : Extends inst rep h h') : Extends inst rep g h' := by
  have hle := he.length_le
  have hle' := he'.length_le
  obtain ⟨⟨ns, hns⟩, es, hes, hin⟩ := he
  obtain ⟨⟨ms, hms⟩, fs, hfs, hin'⟩ := he'
  refine ⟨⟨ns ++ ms, by rw [hms, hns, append_assoc]⟩,
    es ++ fs, by rw [hfs, hes, append_assoc], fun e h => ?_⟩
  rcases mem_append.1 h with h | h
  · exact ⟨(hin e h).1, (hin e h).2.1.trans_le hle', (hin e h).2.2⟩
  · exact ⟨(hin' e h).1.imp_right hle.trans, (hin' e h).2⟩

lemma create (inst rep : ℕ) (h : Netlist) (k : Kind) : Extends inst rep h (h.create k).1 :=
  ⟨⟨[some k], rfl⟩, [], (append_nil _).symm, nofun⟩

lemma connect (he : Extends inst rep g h) {d : Pin} {s : Sink}
    (hs : s.node = rep ∨ g.nodes.length ≤ s.node)
    (hlt : s.node < h.nodes.length) (hd : d.isOut inst = false) :
    Extends inst rep g (h.connect d s) := by
  obtain ⟨hns, es, hes, hin⟩ := he
  refine ⟨hns, es ++ [(d, s)], by rw [connect_edges, hes, append_assoc], fun e h => ?_⟩
  rcases mem_append.1 h with h | h
  · exact hin e h
  · rw [mem_singleton.1 h]
    exact ⟨hs, hlt, hd⟩

section

variable (he : Extends inst rep h h') {id : ℕ} (hid : id < h.nodes.length)
include he hid

lemma kind : h'.kind id = h.kind id := by
  obtain ⟨ns, hns⟩ := he.nodes
  rw [Netlist.kind, hns, getElem?_append_left hid, Netlist.kind]

lemma into (hne : id ≠ rep) : h'.into id = h.into id := by
  obtain ⟨-, es, hes, hin⟩ := he
  have hnil : es.filter (·.2.node == id) = [] := by
    refine filter_eq_nil_iff.2 fun e h heq => ?_
    have hn := beq_iff_eq.1 heq
    rcases (hin e h).1 with hrep | hle
    · exact hne (hn.symm.trans hrep)
    · exact absurd hid (not_lt.2 (hn ▸ hle))
  rw [Netlist.into, hes, filter_append, hnil, append_nil, Netlist.into]

lemma driver (hne : id ≠ rep) (port : ℕ) : h'.driver ⟨id, port⟩ = h.driver ⟨id, port⟩ := by
  rw [Netlist.driver, he.into hid hne, Netlist.driver]

end

lemma bounded (he : Extends inst rep h h') (hb : h.Bounded) : h'.Bounded := by
  have hle := he.length_le
  obtain ⟨-, es, hes, hin⟩ := he
  intro e h
  rw [hes] at h
  rcases mem_append.1 h with h | h
  · exact (hb e h).trans_le hle
  · exact (hin e h).2.1

end Netlist.Extends

namespace Netlist

variable {h : Netlist}

/-- A connection gives an unconnected sink its driver and leaves the others. -/
lemma driver_connect {d : Pin} {id p : ℕ} (hno : h.driver ⟨id, p⟩ = none) (q : ℕ) :
    (h.connect d ⟨id, p⟩).driver ⟨id, q⟩ = if q = p then some d else h.driver ⟨id, q⟩ := by
  rw [driver, show (h.connect d ⟨id, p⟩).into id = h.into id ++ [(p, d)] from
    into_connect_self d ⟨id, p⟩, find?_append]
  rcases eq_or_ne q p with rfl | hne
  · rw [driver, Option.map_eq_none_iff] at hno
    rw [hno]
    simp
  · have hla : find? (·.1 == q) [(p, d)] = none := by
      rw [find?_singleton, if_neg]
      rw [beq_iff_eq]
      exact hne.symm
    rw [if_neg hne, driver, hla, Option.or_none]

lemma driver_of_into_nil {id : ℕ} (hnil : h.into id = []) (p : ℕ) : h.driver ⟨id, p⟩ = none := by
  rw [driver, hnil]
  rfl

end Netlist

namespace Loop

/-- A compact instance of a graph: one external driver and one self edge for each of its sinks, one
driver for a sink that reads it, and distinct roles. -/
structure Ok (L : Loop) (g : Netlist) : Prop where
  inst_lt : L.inst < g.nodes.length
  bounded : g.Bounded
  external_nodup : ((L.external g).map (·.1)).Nodup
  carries_nodup : ((L.carries g).map (·.input)).Nodup
  readers : ∀ port sink, (port, sink) ∈ L.readers g → g.drivers sink = [.out L.inst port]
  roles : ∀ port, L.indexInput = some port → L.activationInput ≠ some port
  role_not_carry : ∀ port, L.isRoleInput port = true → L.isCarryDest g port = false

section

variable {L : Loop} {g : Netlist}

lemma inDriver_isOut {port : ℕ} {d : Pin} (h : L.inDriver g port = some d) :
    d.isOut L.inst = false := by
  obtain ⟨e, he, rfl⟩ := Option.map_eq_some_iff.1 h
  have hmem := mem_of_mem_filter (mem_of_getLast? he)
  have hext := (mem_filter.1 hmem).2
  rwa [Bool.not_eq_true'] at hext

/-- What the checks before the expansion establish. -/
structure Cleared (L : Loop) (g : Netlist) : Prop where
  index : L.indexInput.isSome = true → ∀ r < L.count, (L.indexAt r).isSome = true
  seeds : ∀ c ∈ L.carries g, (L.inDriver g c.input).isSome = true
  sources : 1 < L.count → ∀ c ∈ L.carries g, L.outputIsSized c.output = true
  zero : L.count = 0 → ∀ r ∈ L.readers g, L.isCarrySource g r.1 = true
  sized : L.count ≠ 0 → ∀ r ∈ L.readers g, L.outputIsSized r.1 = true
  next : 1 < L.count → L.activationInput.isSome = true → ∀ p, L.nextActiveOutput = some p →
    L.outputIsSized p = true

lemma cleared_of_preflight (h : L.preflight g = true) : L.Cleared g := by
  simp only [preflight, Bool.and_eq_true, Bool.or_eq_true, all_eq_true, decide_eq_true_eq,
    Option.isNone_iff_eq_none] at h
  obtain ⟨⟨⟨⟨⟨⟨-, -⟩, -⟩, hin⟩, hca⟩, hre⟩, hn⟩ := h
  refine ⟨fun hsm r hr => ?_, fun c hc => (hca c hc).1, fun hco c hc => ?_,
    fun h0 r hr => ?_, fun hne r hr => ?_,
    fun hco hact p hp => ?_⟩
  · rcases hin with hno | hall
    · rw [hno] at hsm
      cases hsm
    · exact hall r (mem_range.2 hr)
  · exact (hca c hc).2.resolve_left (not_le.2 hco)
  · have := hre r hr
    rwa [if_pos h0] at this
  · have := hre r hr
    rwa [if_neg hne] at this
  · rcases hn with (hle | hno) | hall
    · exact absurd hle (not_le.2 hco)
    · rw [hno] at hact
      cases hact
    · rwa [hp] at hall

/-! ## The occurrences -/

lemma createReps_eq (n : ℕ) (h : Netlist) :
    L.createReps n h = ({ h with nodes := h.nodes ++ replicate n (some (.sub L.callee)) },
      range' h.nodes.length n) := by
  induction n generalizing h with
  | zero => rw [createReps, replicate_zero, append_nil, range'_zero]
  | succ n ih =>
    rw [createReps]
    simp only [Netlist.create, ih, length_append, length_singleton, append_assoc, range'_succ,
      replicate_succ, singleton_append]

lemma reps_getD {base n r : ℕ} (hr : r < n) : (List.range' base n).getD r 0 = base + r := by
  rw [getD_eq_getElem?_getD, getElem?_range' hr, Option.getD_some, one_mul]

/-! ## The wires -/

/-- The driver of the activation input outside of the loop. -/
def outside (L : Loop) (g : Netlist) (act : ℕ) : Pin := (L.inDriver g act).getD (.const 1)

lemma outside_isOut (act : ℕ) : (L.outside g act).isOut L.inst = false := by
  rw [outside]
  rcases h : L.inDriver g act with - | d
  · rfl
  · exact inDriver_isOut h

section

variable (L : Loop) (g h : Netlist)

/-- A node the wiring created. -/
def Fresh (id : ℕ) : Prop := g.nodes.length + L.count ≤ id ∧ id < h.nodes.length

/-- How the activation of occurrence `i` is driven. -/
def ActiveAt (active : List Pin) (act : ℕ) : ℕ → Pin → Prop
  | 0, v => v = L.outside g act
  | i + 1, v =>
    match L.nextActiveOutput with
    | none => v = L.outside g act
    | some next => ∃ id prev, v = .out id 0 ∧ L.Fresh g h id ∧ h.kind id = some (.cell .and) ∧
        active[i]? = some prev ∧
        h.into id = [(0, prev), (1, .out (g.nodes.length + i) next)]

/-- How a carry input of occurrence `i` is driven. -/
def CarryAt (active carry : List Pin) (c : Carry) : ℕ → Pin → Prop
  | 0, v => L.inDriver g c.input = some v
  | i + 1, v =>
    if L.activationInput = none then v = .out (g.nodes.length + i) c.output
    else ∃ id a prior, v = .out id 0 ∧ L.Fresh g h id ∧ h.kind id = some (.cell .mux) ∧
      active[i]? = some a ∧ carry[i]? = some prior ∧
      h.into id = [(0, a), (1, prior), (2, .out (g.nodes.length + i) c.output)]

end

/-- The driver an input of occurrence `i` is to have. -/
def inputPin (L : Loop) (g : Netlist) (w : Wires) (i port : ℕ) : Option Pin :=
  if L.indexInput = some port then (L.indexAt i).map .const
  else if L.activationInput = some port then w.active[i]?
  else if L.isCarryDest g port then (w.carryInputs port)[i]?
  else L.inDriver g port

/-- The state of the wiring after `r` occurrences. -/
structure Wired (L : Loop) (g : Netlist) (r : ℕ) (w : Wires) : Prop where
  /-- The edges the wiring added lead to new nodes, and none comes from the compact instance. -/
  edges : ∃ es, w.net.edges = g.edges ++ es ∧ ∀ e ∈ es, g.nodes.length ≤ e.2.node ∧
    e.1.isOut L.inst = false
  bounded : w.net.Bounded
  length : g.nodes.length + L.count ≤ w.net.nodes.length
  kind : ∀ i < L.count, w.net.kind (g.nodes.length + i) = some (.sub L.callee)
  todo : ∀ i, r ≤ i → i < L.count → w.net.into (g.nodes.length + i) = []
  inputs : ∀ i < r, ∀ port, w.net.driver ⟨g.nodes.length + i, port⟩ = L.inputPin g w i port
  idle : L.activationInput = none → w.active = []
  active_length : L.activationInput.isSome = true → w.active.length = r
  carry_length : ∀ c ∈ L.carries g, (w.carryInputs c.input).length = r
  active : ∀ act, L.activationInput = some act → ∀ i v, w.active[i]? = some v →
    L.ActiveAt g w.net w.active act i v
  carry : ∀ c ∈ L.carries g, ∀ i v, (w.carryInputs c.input)[i]? = some v →
    L.CarryAt g w.net w.active (w.carryInputs c.input) c i v

variable {v : Pin}

section

variable {h h' : Netlist} {rep : ℕ} (he : Netlist.Extends L.inst rep h h')
  (hrep : rep < g.nodes.length + L.count)
include he hrep

lemma Fresh.mono {id : ℕ} (hid : L.Fresh g h id) :
    L.Fresh g h' id ∧ h'.kind id = h.kind id ∧ h'.into id = h.into id :=
  ⟨⟨hid.1, hid.2.trans_le he.length_le⟩, he.kind hid.2, he.into hid.2 (hrep.trans_le hid.1).ne'⟩

lemma ActiveAt.mono {active more : List Pin} {act i : ℕ} (ha : L.ActiveAt g h active act i v) :
    L.ActiveAt g h' (active ++ more) act i v := by
  cases i with
  | zero => exact ha
  | succ i =>
    rw [ActiveAt] at ha ⊢
    split at ha
    · exact ha
    · obtain ⟨id, prev, rfl, hf, hk, hpr, hin⟩ := ha
      obtain ⟨hf', hk', hin'⟩ := hf.mono he hrep
      exact ⟨id, prev, rfl, hf', hk'.trans hk, getElem?_append_of_eq_some hpr _, hin'.trans hin⟩

lemma CarryAt.mono {active carry more more' : List Pin} {c : Carry} {i : ℕ}
    (hc : L.CarryAt g h active carry c i v) :
    L.CarryAt g h' (active ++ more) (carry ++ more') c i v := by
  cases i with
  | zero => exact hc
  | succ i =>
    rw [CarryAt] at hc ⊢
    split
    next hact => rwa [if_pos hact] at hc
    next hact =>
      rw [if_neg hact] at hc
      obtain ⟨id, a, prior, rfl, hf, hk, ha, hpr, hin⟩ := hc
      obtain ⟨hf', hk', hin'⟩ := hf.mono he hrep
      exact ⟨id, a, prior, rfl, hf', hk'.trans hk, getElem?_append_of_eq_some ha _,
        getElem?_append_of_eq_some hpr _, hin'.trans hin⟩

end

/-! ## One occurrence -/

section

variable {rep : ℕ}

open Netlist.Extends

lemma foldl_invariants (pids : List ℕ) (hnd : pids.Nodup) (h : Netlist) (hlt : rep < h.nodes.length)
    (hno : ∀ p ∈ pids, h.driver ⟨rep, p⟩ = none) :
    let h' := pids.foldl (fun h p =>
      match L.inDriver g p with
      | some d => h.connect d ⟨rep, p⟩
      | none => h) h
    Netlist.Extends L.inst rep h h' ∧ h'.nodes = h.nodes ∧
      ∀ q, h'.driver ⟨rep, q⟩ = if q ∈ pids then L.inDriver g q else h.driver ⟨rep, q⟩ := by
  induction pids generalizing h with
  | nil => exact ⟨.refl _ _ _, rfl, fun q => (if_neg not_mem_nil).symm⟩
  | cons p pids ih =>
    obtain ⟨hp, hnd⟩ := nodup_cons.1 hnd
    rw [foldl_cons]
    rcases hd : L.inDriver g p with - | d
    · obtain ⟨he, hns, hdrv⟩ := ih hnd h hlt fun q hq => hno q (.tail _ hq)
      refine ⟨he, hns, fun q => (hdrv q).trans ?_⟩
      rcases eq_or_ne q p with rfl | hne
      · simp [hd, hno q mem_cons_self]
      · simp [hne]
    · have hco := @Netlist.driver_connect h d rep p (hno p (.head _))
      obtain ⟨he, hns, hdrv⟩ := ih hnd (h.connect d ⟨rep, p⟩) hlt fun q hq => by
        rw [hco, if_neg (ne_of_mem_of_not_mem hq hp), hno q (.tail _ hq)]
      have hone : Netlist.Extends L.inst rep h (h.connect d ⟨rep, p⟩) :=
        (refl L.inst rep h).connect (.inl rfl) hlt (inDriver_isOut hd)
      refine ⟨.trans hone he, hns, fun q => (hdrv q).trans ?_⟩
      rcases eq_or_ne q p with rfl | hne
      · simp [hd, hco]
      · simp [hne, hco]

lemma mem_invariantPids (p : ℕ) :
    p ∈ L.invariantPids g ↔ p ∈ (L.external g).map (·.1) ∧ L.isRoleInput p = false ∧
    L.isCarryDest g p = false := by
  simp [invariantPids]

lemma inDriver_eq_none {p : ℕ} (h : p ∉ (L.external g).map (·.1)) : L.inDriver g p = none := by
  rw [inDriver, filter_eq_nil_iff.2, getLast?_nil, Option.map_none]
  intro e he heq
  exact h (mem_map.2 ⟨e, he, beq_iff_eq.1 heq⟩)

variable {h : Netlist}

lemma wireInvariants_spec (hlt : rep < h.nodes.length) (hnil : h.into rep = []) :
    Netlist.Extends L.inst rep h (L.wireInvariants g rep h) ∧
    (L.wireInvariants g rep h).nodes = h.nodes ∧
      ∀ p, (L.wireInvariants g rep h).driver ⟨rep, p⟩ =
        if L.isRoleInput p = false ∧ L.isCarryDest g p = false then L.inDriver g p else none := by
  have hnd : (L.invariantPids g).Nodup :=
    (perm_insertionSort _ _).nodup_iff.2 ((nodup_dedup _).filter _)
  obtain ⟨he, hns, hdrv⟩ := @foldl_invariants L g rep _ hnd h hlt fun p _ =>
    driver_of_into_nil hnil p
  refine ⟨he, hns, fun p => (hdrv p).trans ?_⟩
  rw [Netlist.driver_of_into_nil hnil]
  by_cases hro : L.isRoleInput p = false ∧ L.isCarryDest g p = false
  · rw [if_pos hro]
    by_cases hmem : p ∈ L.invariantPids g
    · rw [if_pos hmem]
    · rw [if_neg hmem, inDriver_eq_none]
      exact fun hext => hmem ((mem_invariantPids p).2 ⟨hext, hro⟩)
  · rw [if_neg hro, if_neg]
    exact fun hmem => hro ((mem_invariantPids p).1 hmem).2

lemma wireIndex_spec {r : ℕ} (hlt : rep < h.nodes.length)
    (hin : L.indexInput.isSome = true → (L.indexAt r).isSome = true)
    (hno : ∀ p, L.indexInput = some p → h.driver ⟨rep, p⟩ = none) :
    ∃ h', L.wireIndex rep r h = .ok h' ∧ Netlist.Extends L.inst rep h h' ∧ h'.nodes = h.nodes ∧
      ∀ p, h'.driver ⟨rep, p⟩ = if L.indexInput = some p then (L.indexAt r).map .const
      else h.driver ⟨rep, p⟩ := by
  rw [wireIndex]
  rcases hi : L.indexInput with - | q
  · exact ⟨h, rfl, .refl _ _ _, rfl, fun p => (if_neg nofun).symm⟩
  · obtain ⟨v, hv⟩ := Option.isSome_iff_exists.1 (hin (by rw [hi]; rfl))
    rw [hv]
    refine ⟨_, rfl, (refl L.inst rep h).connect (.inl rfl) hlt rfl, rfl, fun p => ?_⟩
    rw [driver_connect (hno q hi)]
    rcases eq_or_ne p q with rfl | hne
    · rw [if_pos rfl, if_pos rfl]
      rfl
    · rw [if_neg hne, if_neg fun heq => hne (Option.some.inj heq).symm]

/-- Appending two operands to a new `And`. -/
lemma appendOperands_spec (hb : h.Bounded) {a b : Pin} (ha : a.isOut L.inst = false)
    (hbo : b.isOut L.inst = false) :
    let h' := appendOperand b h.nodes.length
      (appendOperand a h.nodes.length (h.create (.cell .and)).1)
    Netlist.Extends L.inst rep h h' ∧ h'.nodes.length = h.nodes.length + 1 ∧
      h'.kind h.nodes.length = some (.cell .and) ∧
      h'.into h.nodes.length = [(0, a), (1, b)] := by
  have hlt : h.nodes.length < (h.create (.cell .and)).1.nodes.length := by
    rw [create_length]
    exact lt_succ_self _
  have hfi : (appendOperand a h.nodes.length (h.create (.cell .and)).1).into h.nodes.length =
      [(0, a)] := by
    rw [appendOperand, into_create, into_eq_nil hb le_rfl]
    refine (into_connect_self a ⟨h.nodes.length, 0⟩).trans ?_
    rw [into_create, into_eq_nil hb le_rfl]
    rfl
  refine ⟨?_, create_length _, kind_create_self _, ?_⟩
  · exact ((create L.inst rep h (.cell .and)).connect (.inr le_rfl) hlt ha).connect
      (.inr le_rfl) hlt hbo
  · rw [appendOperand, hfi]
    refine (Netlist.into_connect_self b ⟨h.nodes.length, 1⟩).trans ?_
    rw [hfi]
    rfl

lemma out_isOut {inst id port : ℕ} (h : inst < id) :
    (Pin.out id port).isOut inst = false := beq_false_of_ne h.ne'

/-- The pins that drive an activation are not outputs of the compact instance. -/
lemma ActiveAt.isOut (hL : L.Ok g) {active : List Pin} {act i : ℕ}
    (ha : L.ActiveAt g h active act i v) : v.isOut L.inst = false := by
  cases i with
  | zero =>
    rw [show v = _ from ha]
    exact outside_isOut act
  | succ i =>
    rw [ActiveAt] at ha
    split at ha
    · rw [ha]
      exact outside_isOut act
    · obtain ⟨id, prev, rfl, hf, -⟩ := ha
      exact out_isOut (hL.inst_lt.trans_le ((le_add_right _ _).trans hf.1))

lemma CarryAt.isOut (hL : L.Ok g) {active carry : List Pin} {c : Carry} {i : ℕ}
    (hc : L.CarryAt g h active carry c i v) : v.isOut L.inst = false := by
  cases i with
  | zero => exact inDriver_isOut hc
  | succ i =>
    rw [CarryAt] at hc
    split at hc
    · rw [hc]
      exact out_isOut (hL.inst_lt.trans_le (le_add_right _ _))
    · obtain ⟨id, a, prior, rfl, hf, -⟩ := hc
      exact out_isOut (hL.inst_lt.trans_le ((le_add_right _ _).trans hf.1))

/-- The activation of occurrence `r` from that of the occurrences before it. -/
lemma activeValue_spec (hL : L.Ok g) (hC : L.Cleared g) {r : ℕ} (hr : r < L.count) (hb : h.Bounded)
    (hlen : g.nodes.length + L.count ≤ h.nodes.length) {active : List Pin} {act : ℕ}
    (hact : L.activationInput = some act)
    (hpr : ∀ i < r, ∃ v, active[i]? = some v ∧ h.driver ⟨g.nodes.length + i, act⟩ = some v ∧
      v.isOut L.inst = false) :
    ∃ h' v, L.activeValue g act (List.range' g.nodes.length L.count) r h = .ok (h', v) ∧
      Netlist.Extends L.inst (g.nodes.length + r) h h' ∧
      h'.into (g.nodes.length + r) = h.into (g.nodes.length + r) ∧
        L.ActiveAt g h' active act r v := by
  have ho := (Nat.add_lt_add_left hr _).trans_le hlen
  rcases r with - | k
  · exact ⟨h, _, rfl, .refl _ _ _, rfl, rfl⟩
  rcases hn : L.nextActiveOutput with - | next
  · refine ⟨h, L.outside g act, ?_, .refl _ _ _, rfl, ?_⟩
    · simp only [activeValue.eq_def, hn, outside]
    · rw [ActiveAt, hn]
  · obtain ⟨prev, hget, hdrv, hout⟩ := hpr k (lt_succ_self k)
    have hc := lt_of_le_of_lt (succ_le_succ (zero_le k)) hr
    have hsi := hC.next hc (by rw [hact]; rfl) next hn
    have hrep : (range' g.nodes.length L.count).getD k 0 = g.nodes.length + k :=
      reps_getD ((lt_succ_self k).trans hr)
    have hne : (Pin.out (g.nodes.length + k) next).isOut L.inst = false :=
      out_isOut (hL.inst_lt.trans_le (le_add_right _ _))
    obtain ⟨he, hsz, hk, hin⟩ := @appendOperands_spec L
      (g.nodes.length + (k + 1)) h hb prev _ hout hne
    have hcr : (h.create (.cell .and)).1.driver ⟨g.nodes.length + k, act⟩ = some prev := hdrv
    refine ⟨_, .out h.nodes.length 0, ?_, he, ?_, ?_⟩
    · simp only [activeValue.eq_def, hn, makeDriver, hsi, if_true, hrep, create_snd, hcr]
    · exact (@appendOperands_spec L h.nodes.length h hb prev _ hout hne).1.into ho ho.ne
    · rw [ActiveAt, hn]
      refine ⟨h.nodes.length, prev, rfl, ⟨hlen, ?_⟩, hk, hget, hin⟩
      rw [hsz]
      exact lt_succ_self _

/-- Connecting the three sinks of a new `Mux`. -/
lemma connectMux_spec (hb : h.Bounded) {a p o : Pin} (ha : a.isOut L.inst = false)
    (hp : p.isOut L.inst = false)
    (ho : o.isOut L.inst = false) :
    let m := h.nodes.length
    let h' := (((h.create (.cell .mux)).1.connect a ⟨m, 0⟩).connect p ⟨m, 1⟩).connect o ⟨m, 2⟩
    Netlist.Extends L.inst rep h h' ∧ h'.nodes.length = m + 1 ∧ h'.kind m = some (.cell .mux) ∧
      h'.into m = [(0, a), (1, p), (2, o)] := by
  have hlt : h.nodes.length < (h.create (.cell .mux)).1.nodes.length := by
    rw [create_length]
    exact lt_succ_self _
  have hin : ∀ (h₁ : Netlist) (l : List (ℕ × Pin)) (d : Pin) (q : ℕ), h₁.into h.nodes.length = l →
      (h₁.connect d ⟨h.nodes.length, q⟩).into h.nodes.length = l ++ [(q, d)] := by
    rintro h₁ l d q rfl
    exact into_connect_self d ⟨h.nodes.length, q⟩
  refine ⟨?_, create_length _, kind_create_self _, ?_⟩
  · exact (((create L.inst rep h (.cell .mux)).connect (.inr le_rfl) hlt ha).connect
      (.inr le_rfl) hlt hp).connect
      (.inr le_rfl) hlt ho
  · refine hin _ [(0, a), (1, p)] _ _ (hin _ [(0, a)] _ _ (hin _ [] _ _ ?_))
    exact Netlist.into_eq_nil hb le_rfl

section

variable (hL : L.Ok g) (hC : L.Cleared g) {r : ℕ} (hr : r < L.count)
include hL hC hr

lemma carryValue_spec {w : Wires} (hb : w.net.Bounded)
    (hlen : g.nodes.length + L.count ≤ w.net.nodes.length) {c : Carry} (hc : c ∈ L.carries g)
    (hac : L.activationInput.isSome = true → w.active.length = r + 1)
    (hca : (w.carryInputs c.input).length = r)
    (hcl : ∀ v, v ∈ w.active ∨ v ∈ w.carryInputs c.input → v.isOut L.inst = false) :
    ∃ h' v, L.carryValue g (range' g.nodes.length L.count) r w c = .ok (h', v) ∧
      Netlist.Extends L.inst (g.nodes.length + r) w.net h' ∧
      h'.into (g.nodes.length + r) = w.net.into (g.nodes.length + r) ∧
        L.CarryAt g h' w.active (w.carryInputs c.input) c r v := by
  have ho := (Nat.add_lt_add_left hr _).trans_le hlen
  rcases r with - | k
  · obtain ⟨d, hd⟩ := Option.isSome_iff_exists.1 (hC.seeds c hc)
    refine ⟨w.net, d, ?_, .refl _ _ _, rfl, hd⟩
    simp only [carryValue, hd]
  have hco := lt_of_le_of_lt (succ_le_succ (zero_le k)) hr
  have hsi := hC.sources hco c hc
  have hrep : (range' g.nodes.length L.count).getD k 0 = g.nodes.length + k :=
    reps_getD ((lt_succ_self k).trans hr)
  rcases hact : L.activationInput with - | act
  · refine ⟨w.net, .out (g.nodes.length + k) c.output, ?_, refl _ _ _, rfl, ?_⟩
    · simp only [carryValue, hrep, makeDriver, hsi, if_true, hact, Option.isNone_none]
    · rw [CarryAt, if_pos hact]
  · have hsm : L.activationInput.isSome = true := by rw [hact]; rfl
    obtain ⟨a, ha⟩ : ∃ a, w.active[k]? = some a := by
      refine ⟨_, getElem?_eq_getElem ?_⟩
      rw [hac hsm]
      exact (lt_succ_self k).trans (lt_succ_self _)
    obtain ⟨p, hp⟩ : ∃ p, (w.carryInputs c.input)[k]? = some p := by
      refine ⟨_, getElem?_eq_getElem ?_⟩
      rw [hca]
      exact lt_succ_self k
    have hla : (w.carryInputs c.input).getLast? = some p := by rwa [getLast?_eq_getElem?, hca]
    have hout : (Pin.out (g.nodes.length + k) c.output).isOut L.inst = false :=
      out_isOut (hL.inst_lt.trans_le (le_add_right _ _))
    have hmux := fun rep => @connectMux_spec L rep w.net hb a p _
      (hcl a (.inl (mem_of_getElem? ha)))
      (hcl p (.inr (mem_of_getElem? hp))) hout
    obtain ⟨he, hsz, hk, hin⟩ := hmux (g.nodes.length + (k + 1))
    refine ⟨_, .out w.net.nodes.length 0, ?_, he, (hmux w.net.nodes.length).1.into ho ho.ne, ?_⟩
    · simp only [carryValue, hrep, makeDriver, hsi, if_true, hact, Option.isNone_some,
        Bool.false_eq_true, if_false, ha, hla, hca,
        ne_eq, not_true_eq_false, create_snd]
    · rw [CarryAt, if_neg (by rw [hact]; exact nofun)]
      refine ⟨w.net.nodes.length, a, p, rfl, ⟨hlen, ?_⟩, hk, ha, hp, hin⟩
      rw [hsz]
      exact lt_succ_self _

/-- All the carry inputs of one occurrence. -/
lemma foldlM_wireCarry (cs : List Carry) (hcs : ∀ c ∈ cs, c ∈ L.carries g)
    (hnd : (cs.map (·.input)).Nodup) (w : Wires) (hb : w.net.Bounded)
    (hlen : g.nodes.length + L.count ≤ w.net.nodes.length)
    (hac : L.activationInput.isSome = true → w.active.length = r + 1)
    (hca : ∀ c ∈ cs, (w.carryInputs c.input).length = r ∧
      w.net.driver ⟨g.nodes.length + r, c.input⟩ = none)
    (hc : ∀ v ∈ w.active, v.isOut L.inst = false)
    (hc' : ∀ c ∈ cs, ∀ v ∈ w.carryInputs c.input, v.isOut L.inst = false) :
    ∃ w', cs.foldlM (L.wireCarry g (range' g.nodes.length L.count) r) w = .ok w' ∧
    w'.active = w.active ∧
      Netlist.Extends L.inst (g.nodes.length + r) w.net w'.net ∧
      (∀ c ∈ cs, ∃ v, w'.carryInputs c.input = w.carryInputs c.input ++ [v] ∧
        L.CarryAt g w'.net w.active (w.carryInputs c.input) c r v ∧
          w'.net.driver ⟨g.nodes.length + r, c.input⟩ = some v) ∧
      ∀ p ∉ cs.map (·.input), w'.carryInputs p = w.carryInputs p ∧
        w'.net.driver ⟨g.nodes.length + r, p⟩ = w.net.driver ⟨g.nodes.length + r, p⟩ := by
  induction cs generalizing w with
  | nil => exact ⟨w, rfl, rfl, .refl _ _ _, nofun, fun p _ => ⟨rfl, rfl⟩⟩
  | cons c cs ih =>
    obtain ⟨hnot, hnd⟩ := nodup_cons.1 hnd
    obtain ⟨hcl, hno⟩ := hca c (.head _)
    obtain ⟨h', v, hv, he, hint, hat⟩ := carryValue_spec hL hC hr hb hlen (hcs c (.head _)) hac hcl
      fun u hu => hu.elim (hc u) (hc' c (.head _) u)
    let w₁ : Wires := { w with
      net := h'.connect v ⟨g.nodes.length + r, c.input⟩
      carryInputs := update w.carryInputs c.input (w.carryInputs c.input ++ [v]) }
    have hst : L.wireCarry g (range' g.nodes.length L.count) r w c = .ok w₁ := by
      rw [wireCarry, hv, reps_getD hr]
      rfl
    have hlt := (Nat.add_lt_add_left hr _).trans_le (hlen.trans he.length_le)
    have he₁ : Netlist.Extends L.inst (g.nodes.length + r) w.net w₁.net :=
      he.connect (.inl rfl) hlt (hat.isOut hL)
    have hno' : h'.driver ⟨g.nodes.length + r, c.input⟩ = none := by rwa [Netlist.driver, hint]
    have hdrv : ∀ q, w₁.net.driver ⟨g.nodes.length + r, q⟩ = if q = c.input then some v
        else w.net.driver ⟨g.nodes.length + r, q⟩ := by
      intro q
      rw [driver_connect hno']
      refine congrArg _ ?_
      rw [Netlist.driver, hint]
      rfl
    have hold : ∀ p, p ≠ c.input →
      w₁.carryInputs p = w.carryInputs p := fun p hp => update_of_ne hp _ _
    have hne : ∀ d ∈ cs, d.input ≠ c.input := fun d hd heq => hnot (mem_map.2 ⟨d, hd, heq⟩)
    obtain ⟨w', hrun, hac', he', hin, hout⟩ :=
      ih (fun d hd => hcs d (.tail _ hd)) hnd w₁ (he₁.bounded hb)
      (hlen.trans he₁.length_le) hac
      (fun d hd => by
        rw [hold _ (hne d hd), hdrv, if_neg (hne d hd)]
        exact hca d (.tail _ hd))
      hc (fun d hd => by
        rw [hold _ (hne d hd)]
        exact hc' d (.tail _ hd))
    have hrep : g.nodes.length + r < g.nodes.length + L.count := Nat.add_lt_add_left hr _
    refine ⟨w', ?_, hac', .trans he₁ he', ?_, ?_⟩
    · rwa [foldlM_cons, hst]
    · intro d hd
      rcases mem_cons.1 hd with rfl | hd
      · obtain ⟨hke, hke'⟩ := hout d.input hnot
        refine ⟨v, ?_, ?_, ?_⟩
        · rw [hke]
          exact update_self _ _ _
        · have hco : Netlist.Extends L.inst (g.nodes.length + r) h' w₁.net :=
            (refl _ _ _).connect (.inl rfl) hlt (hat.isOut hL)
          have hmo : L.CarryAt g w'.net (w.active ++ []) (w.carryInputs d.input ++ []) d r v :=
            hat.mono (.trans hco he') hrep
          rwa [append_nil, append_nil] at hmo
        · simp [hke', hdrv]
      · obtain ⟨u, hu, hat', hdr'⟩ := hin d hd
        rw [hold _ (hne d hd)] at hu hat'
        exact ⟨u, hu, hat', hdr'⟩
    · intro p hp
      rw [map_cons, mem_cons, not_or] at hp
      obtain ⟨hke, hke'⟩ := hout p hp.2
      rw [hke, hke', hold p hp.1, hdrv, if_neg hp.1]
      exact ⟨rfl, rfl⟩

/-- The activation input of one occurrence. -/
lemma wireActive_spec {w : Wires} (hb : w.net.Bounded)
    (hlen : g.nodes.length + L.count ≤ w.net.nodes.length)
    (hpr : ∀ act, L.activationInput = some act → (∀ i < r, ∃ v, w.active[i]? = some v ∧
      w.net.driver ⟨g.nodes.length + i, act⟩ = some v ∧ v.isOut L.inst = false) ∧
        w.net.driver ⟨g.nodes.length + r, act⟩ = none) :
    ∃ w', L.wireActive g (range' g.nodes.length L.count) r w = .ok w' ∧
    w'.carryInputs = w.carryInputs ∧
      Netlist.Extends L.inst (g.nodes.length + r) w.net w'.net ∧
      (L.activationInput = none → w'.active = w.active) ∧
      (∀ act, L.activationInput = some act → ∃ v, w'.active = w.active ++ [v] ∧
        L.ActiveAt g w'.net w.active act r v) ∧
      ∀ p, w'.net.driver ⟨g.nodes.length + r, p⟩ =
        if L.activationInput = some p then w'.active[w.active.length]?
        else w.net.driver ⟨g.nodes.length + r, p⟩ := by
  rw [wireActive]
  rcases hact : L.activationInput with - | act
  · exact ⟨w, rfl, rfl, .refl _ _ _, fun _ => rfl, nofun, fun p => (if_neg nofun).symm⟩
  obtain ⟨hbe, hno⟩ := hpr act hact
  obtain ⟨h', v, hv, he, hin, hat⟩ := activeValue_spec hL hC hr hb hlen hact hbe
  have hlt := (Nat.add_lt_add_left hr _).trans_le (hlen.trans he.length_le)
  have hco : Netlist.Extends L.inst (g.nodes.length + r) h'
      (h'.connect v ⟨g.nodes.length + r, act⟩) :=
    (refl _ _ _).connect (.inl rfl) hlt (hat.isOut hL)
  have hno' : h'.driver ⟨g.nodes.length + r, act⟩ = none := by rwa [Netlist.driver, hin]
  refine ⟨{ w with net := h'.connect v ⟨g.nodes.length + r, act⟩, active := w.active ++ [v] }, ?_,
    rfl, trans he hco, nofun, ?_, ?_⟩
  · simp only [hv, reps_getD hr]
    rfl
  · rintro act' hac'
    cases hac'
    refine ⟨v, rfl, ?_⟩
    have hmo : L.ActiveAt g (h'.connect v ⟨g.nodes.length + r, act⟩) (w.active ++ []) act r v :=
      hat.mono hco (Nat.add_lt_add_left hr _)
    rwa [append_nil] at hmo
  · intro p
    rw [driver_connect hno', getElem?_concat_length]
    rcases eq_or_ne p act with rfl | hne
    · simp
    · rw [if_neg hne, if_neg fun heq => hne (Option.some.inj heq).symm,
        Netlist.driver, hin, Netlist.driver]

end

end

lemma isCarryDest_iff (p : ℕ) : L.isCarryDest g p = true ↔ p ∈ (L.carries g).map (·.input) := by
  rw [isCarryDest, any_eq_true, mem_map]
  simp only [beq_iff_eq]

lemma isRoleInput_iff (p : ℕ) : L.isRoleInput p = true ↔
    L.indexInput = some p ∨ L.activationInput = some p := by
  rw [isRoleInput, Bool.or_eq_true, beq_iff_eq, beq_iff_eq]

lemma getElem?_concat_of_le {α : Type} {l : List α} {u v : α} {n i : ℕ}
    (hlen : l.length = n) (hle : n ≤ i)
    (h : (l ++ [u])[i]? = some v) : i = n ∧ v = u := by
  rw [getElem?_append_right (hlen ▸ hle), hlen] at h
  rcases Nat.eq_zero_or_pos (i - n) with h0 | hpos
  · rw [h0] at h
    exact ⟨le_antisymm (Nat.sub_eq_zero_iff_le.1 h0) hle, (Option.some.inj h).symm⟩
  · rw [getElem?_eq_none (by exact hpos)] at h
    cases h

/-- What the four groups of inputs of occurrence `r` add to the wiring. -/
structure Ordinal (L : Loop) (g : Netlist) (r : ℕ) (w w' : Wires) : Prop where
  net : Netlist.Extends L.inst (g.nodes.length + r) w.net w'.net
  idle : L.activationInput = none → w'.active = w.active
  active : ∀ act, L.activationInput = some act → ∃ v, w'.active = w.active ++ [v] ∧
    L.ActiveAt g w'.net w.active act r v
  carry : ∀ c ∈ L.carries g, ∃ v, w'.carryInputs c.input = w.carryInputs c.input ++ [v] ∧
    L.CarryAt g w'.net w'.active (w.carryInputs c.input) c r v
  driver : ∀ p, w'.net.driver ⟨g.nodes.length + r, p⟩ = L.inputPin g w' r p

namespace Wired

variable {r : ℕ} {w : Wires}

section

variable (hL : L.Ok g) (hw : L.Wired g r w)
include hL hw

lemma active_clean {act : ℕ} (hact : L.activationInput = some act) (hv : v ∈ w.active) :
    v.isOut L.inst = false := by
  obtain ⟨i, hi⟩ := getElem?_of_mem hv
  exact (hw.active act hact i v hi).isOut hL

lemma carry_clean {c : Carry} (hc : c ∈ L.carries g) (hv : v ∈ w.carryInputs c.input) :
    v.isOut L.inst = false := by
  obtain ⟨i, hi⟩ := getElem?_of_mem hv
  exact (hw.carry c hc i v hi).isOut hL

/-- The driver of the activation input of an occurrence that is wired. -/
lemma active_driver {act : ℕ} (hact : L.activationInput = some act) {i : ℕ} (hi : i < r) :
    ∃ v, w.active[i]? = some v ∧ w.net.driver ⟨g.nodes.length + i, act⟩ = some v ∧
    v.isOut L.inst = false := by
  have hlen := hw.active_length (by rw [hact]; rfl)
  obtain ⟨v, hget⟩ : ∃ v, w.active[i]? = some v := ⟨_, getElem?_eq_getElem (by rw [hlen]; exact hi)⟩
  refine ⟨v, hget, ?_, hw.active_clean hL hact (mem_of_getElem? hget)⟩
  rw [hw.inputs i hi, inputPin, if_neg fun hidx => hL.roles act hidx hact, if_pos hact, hget]

end

lemma wireOrdinal_spec (hL : L.Ok g) (hC : L.Cleared g) (hr : r < L.count) (hw : L.Wired g r w) :
    ∃ w', L.wireOrdinal g (range' g.nodes.length L.count) w r = .ok w' ∧ L.Ordinal g r w w' := by
  have hrep : g.nodes.length + r < g.nodes.length + L.count := Nat.add_lt_add_left hr _
  have hlt := hrep.trans_le hw.length
  -- the invariant inputs and the index
  obtain ⟨he₁, hnodes₁, hdrv₁⟩ := @wireInvariants_spec L g _ w.net hlt (hw.todo r le_rfl hr)
  have hro : ∀ p, L.isRoleInput p = true →
      (L.wireInvariants g (g.nodes.length + r) w.net).driver ⟨g.nodes.length + r, p⟩ = none := by
    intro p hp
    rw [hdrv₁, if_neg]
    rintro ⟨hf, -⟩
    rw [hp] at hf
    cases hf
  obtain ⟨h₂, hind, he₂, hnodes₂, hdrv₂⟩ :=
    @wireIndex_spec L _ (L.wireInvariants g (g.nodes.length + r) w.net) r
    (hnodes₁ ▸ hlt) (fun h => hC.index h r hr) fun p hp => hro p ((isRoleInput_iff p).2 (.inl hp))
  have hext₂ := Netlist.Extends.trans he₁ he₂
  -- the activation
  obtain ⟨w₃, hac, hcarries₃, he₃, hidle₃, hat₃, hdrv₃⟩ :=
    @wireActive_spec L g hL hC r hr { w with net := h₂ }
    (hext₂.bounded hw.bounded) (hw.length.trans hext₂.length_le) fun act hact => by
      refine ⟨fun i hi => ?_, ?_⟩
      · obtain ⟨v, hget, hdrv, hcl⟩ := hw.active_driver hL hact hi
        refine ⟨v, hget, ?_, hcl⟩
        have hne : g.nodes.length + i ≠ g.nodes.length + r := fun h => hi.ne (add_left_cancel h)
        exact (hext₂.driver ((Nat.add_lt_add_left (hi.trans hr) _).trans_le hw.length) hne
          act).trans hdrv
      · rw [hdrv₂, if_neg fun hidx => hL.roles act hidx hact]
        exact hro act ((isRoleInput_iff act).2 (.inr hact))
  have hext₃ := Netlist.Extends.trans hext₂ he₃
  have hdrv : ∀ p, w₃.net.driver ⟨g.nodes.length + r, p⟩ = if L.activationInput = some p then
      w₃.active[w.active.length]?
      else if L.indexInput = some p then (L.indexAt r).map .const
      else if L.isRoleInput p = false ∧ L.isCarryDest g p = false then L.inDriver g p
        else none := by
    intro p
    rw [hdrv₃, hdrv₂, hdrv₁]
  -- the carries
  have hclean₃ : ∀ v ∈ w₃.active, v.isOut L.inst = false := by
    intro v hv
    rcases hact : L.activationInput with - | act
    · have hnil := (hidle₃ hact).trans (hw.idle hact)
      rw [hnil] at hv
      cases hv
    · obtain ⟨u, hu, hat⟩ := hat₃ act hact
      rw [hu] at hv
      rcases mem_append.1 hv with hv | hv
      · exact hw.active_clean hL hact hv
      · rw [mem_singleton.1 hv]
        exact hat.isOut hL
  have hlen₃ : L.activationInput.isSome = true → w₃.active.length = r + 1 := by
    intro hsm
    obtain ⟨act, hact⟩ := Option.isSome_iff_exists.1 hsm
    obtain ⟨u, hu, -⟩ := hat₃ act hact
    rw [hu, length_append]
    exact congrArg (· + 1) (hw.active_length hsm)
  have hfr : ∀ c ∈ L.carries g, w₃.net.driver ⟨g.nodes.length + r, c.input⟩ = none := by
    intro c hc
    have hde := (isCarryDest_iff _).2 (mem_map_of_mem hc)
    have hnot : L.isRoleInput c.input ≠ true := by
      intro hro
      rw [hL.role_not_carry _ hro] at hde
      cases hde
    rw [hdrv, if_neg fun h => hnot ((isRoleInput_iff _).2 (.inr h)),
      if_neg fun h => hnot ((isRoleInput_iff _).2 (.inl h)), if_neg]
    rintro ⟨-, hf⟩
    rw [hde] at hf
    cases hf
  obtain ⟨w', hrun, hac', he', hin, hout⟩ :=
    foldlM_wireCarry hL hC hr (L.carries g) (fun _ => id) hL.carries_nodup w₃
    (hext₃.bounded hw.bounded) (hw.length.trans hext₃.length_le) hlen₃
    (fun c hc => ⟨by rw [hcarries₃]; exact hw.carry_length c hc, hfr c hc⟩) hclean₃
    (fun c hc v hv => by
      rw [hcarries₃] at hv
      exact hw.carry_clean hL hc hv)
  have hex' := Netlist.Extends.trans hext₃ he'
  refine ⟨w', ?_, hex', fun hno => hac'.trans (hidle₃ hno), fun act hact => ?_,
    fun c hc => ?_, fun p => ?_⟩
  · rw [wireOrdinal, reps_getD hr, hind]
    show (do
      let w ← L.wireActive g (range' g.nodes.length L.count) r { w with net := h₂ }
      (L.carries g).foldlM (L.wireCarry g (range' g.nodes.length L.count) r) w) = _
    rwa [hac]
  · obtain ⟨v, hv, hat⟩ := hat₃ act hact
    refine ⟨v, hac'.trans hv, ?_⟩
    have hmo : L.ActiveAt g w'.net (w.active ++ []) act r v := hat.mono he' hrep
    rwa [append_nil] at hmo
  · obtain ⟨v, hv, hat, -⟩ := hin c hc
    rw [hcarries₃] at hv hat
    exact ⟨v, hv, hac' ▸ hat⟩
  · rw [inputPin]
    by_cases hde : p ∈ (L.carries g).map (·.input)
    · obtain ⟨c, hc, rfl⟩ := mem_map.1 hde
      obtain ⟨v, hv, -, hdr'⟩ := hin c hc
      have hca := (isCarryDest_iff c.input).2 hde
      have hnot : L.isRoleInput c.input ≠ true := by
        intro hro
        rw [hL.role_not_carry _ hro] at hca
        cases hca
      rw [if_neg fun h => hnot ((isRoleInput_iff _).2 (.inl h)), if_neg fun h =>
        hnot ((isRoleInput_iff _).2 (.inr h)), if_pos hca, hdr',
        hv, hcarries₃, ← hw.carry_length c hc]
      exact (getElem?_concat_length).symm
    · have hca := Bool.eq_false_iff.2 fun h => hde ((isCarryDest_iff p).1 h)
      rw [(hout p hde).2, hdrv, hca, hac']
      by_cases hidx : L.indexInput = some p
      · rw [if_neg (hL.roles p hidx), if_pos hidx, if_pos hidx]
      · rw [if_neg hidx, if_neg hidx]
        by_cases hact : L.activationInput = some p
        · rw [if_pos hact, if_pos hact, hw.active_length (by rw [hact]; rfl)]
        · have hro := Bool.eq_false_iff.2 fun h => ((isRoleInput_iff p).1 h).elim hidx hact
          rw [if_neg hact, if_neg hact, if_pos ⟨hro, rfl⟩]
          rfl

/-- One occurrence more. -/
lemma step (hr : r < L.count) (hw : L.Wired g r w) {w' : Wires} (ho : L.Ordinal g r w w') :
    L.Wired g (r + 1) w' := by
  have hrep : g.nodes.length + r < g.nodes.length + L.count := Nat.add_lt_add_left hr _
  have hne : ∀ i, i ≠ r → g.nodes.length + i ≠ g.nodes.length + r := fun i hi h =>
    hi (add_left_cancel h)
  have hlt : ∀ i < L.count, g.nodes.length + i < w.net.nodes.length := fun i hi =>
    (Nat.add_lt_add_left hi _).trans_le hw.length
  have hold : ∀ i < r, ∀ act, L.activationInput = some act → w'.active[i]? = w.active[i]? := by
    intro i hi act hact
    obtain ⟨v, hv, -⟩ := ho.active act hact
    rw [hv, getElem?_append_left]
    rwa [hw.active_length (by rw [hact]; rfl)]
  have hmo : ∃ more, w'.active = w.active ++ more := by
    rcases hact : L.activationInput with - | act
    · exact ⟨[], by rw [ho.idle hact, append_nil]⟩
    · obtain ⟨v, hv, -⟩ := ho.active act hact
      exact ⟨[v], hv⟩
  obtain ⟨more, hmo⟩ := hmo
  refine ⟨?_, ho.net.bounded hw.bounded, hw.length.trans ho.net.length_le, fun i hi => ?_,
    fun i hi hi' => ?_, fun i hi p => ?_,
    fun hno => (ho.idle hno).trans (hw.idle hno), fun hsm => ?_, fun c hc => ?_,
      fun act hact i v hv => ?_, fun c hc i v hv => ?_⟩
  · obtain ⟨es, hes, hin⟩ := hw.edges
    obtain ⟨fs, hfs, hin'⟩ := ho.net.edges
    refine ⟨es ++ fs, by rw [hfs, hes, append_assoc], fun e he => ?_⟩
    rcases mem_append.1 he with he | he
    · exact hin e he
    · refine ⟨?_, (hin' e he).2.2⟩
      rcases (hin' e he).1 with hn | hle
      · rw [hn]
        exact le_add_right _ _
      · exact ((le_add_right _ _).trans hw.length).trans hle
  · rw [ho.net.kind (hlt i hi), hw.kind i hi]
  · rw [ho.net.into (hlt i hi') (hne i (lt_of_succ_le hi).ne'), hw.todo i (le_of_succ_le hi) hi']
  · rcases Nat.lt_succ_iff_lt_or_eq.1 hi with hi | rfl
    · rw [ho.net.driver (hlt i (hi.trans hr)) (hne i hi.ne), hw.inputs i hi, inputPin, inputPin]
      by_cases hact : L.activationInput = some p
      · rw [hold i hi p hact, if_pos hact, if_pos hact]
      · rw [if_neg hact, if_neg hact]
        by_cases hde : L.isCarryDest g p = true
        · obtain ⟨c, hc, rfl⟩ := mem_map.1 ((isCarryDest_iff p).1 hde)
          obtain ⟨v, hv, -⟩ := ho.carry c hc
          rw [hv, getElem?_append_left (by rwa [hw.carry_length c hc])]
        · rw [if_neg hde, if_neg hde]
    · exact ho.driver p
  · obtain ⟨act, hact⟩ := Option.isSome_iff_exists.1 hsm
    obtain ⟨v, hv, -⟩ := ho.active act hact
    simp [hv, hw.active_length hsm]
  · obtain ⟨v, hv, -⟩ := ho.carry c hc
    simp [hv, hw.carry_length c hc]
  · obtain ⟨u, hu, hat⟩ := ho.active act hact
    have hlen := hw.active_length (by rw [hact]; rfl)
    rw [hu] at hv ⊢
    rcases lt_or_ge i r with hi | hi
    · rw [getElem?_append_left (by rwa [hlen])] at hv
      exact (hw.active act hact i v hv).mono ho.net hrep
    · obtain ⟨rfl, rfl⟩ := getElem?_concat_of_le hlen hi hv
      exact hat.mono (.refl _ _ _) hrep
  · obtain ⟨u, hu, hat⟩ := ho.carry c hc
    have hlen := hw.carry_length c hc
    rw [hu] at hv ⊢
    rcases lt_or_ge i r with hi | hi
    · rw [getElem?_append_left (by rwa [hlen])] at hv
      rw [hmo]
      exact (hw.carry c hc i v hv).mono ho.net hrep
    · obtain ⟨rfl, rfl⟩ := getElem?_concat_of_le hlen hi hv
      have hmn : L.CarryAt g w'.net (w'.active ++ []) (w.carryInputs c.input ++ [v]) c i v :=
        hat.mono (.refl _ _ _) hrep
      rwa [append_nil] at hmn

/-- All the occurrences. -/
lemma run (hL : L.Ok g) (hC : L.Cleared g) (n : ℕ) (hn : n ≤ L.count) (hw : L.Wired g 0 w) :
    ∃ w', (List.range n).foldlM (L.wireOrdinal g (List.range' g.nodes.length L.count)) w = .ok w' ∧
    L.Wired g n w' := by
  induction n with
  | zero => exact ⟨w, rfl, hw⟩
  | succ n ih =>
    obtain ⟨w₁, hrun, hw₁⟩ := ih (le_of_succ_le hn)
    obtain ⟨w', hst, ho⟩ := hw₁.wireOrdinal_spec hL hC (lt_of_succ_le hn)
    refine ⟨w', ?_, hw₁.step (lt_of_succ_le hn) ho⟩
    rw [range_succ, foldlM_append, hrun]
    show [n].foldlM (L.wireOrdinal g (range' g.nodes.length L.count)) w₁ = _
    rw [foldlM_cons, hst]
    rfl

/-- The occurrences before they are wired. -/
lemma start (hL : L.Ok g) : L.Wired g 0 ⟨(L.createReps L.count g).1, [], fun _ => []⟩ := by
  have hlen : (L.createReps L.count g).1.nodes.length = g.nodes.length + L.count := by
    simp [createReps_eq]
  have hed : (L.createReps L.count g).1.edges = g.edges := by rw [createReps_eq]
  refine ⟨⟨[], by simp [hed], nofun⟩, fun e he => ?_, hlen.ge, fun i hi => ?_, fun i _ hi =>
    ?_, nofun, fun _ => rfl,
    fun _ => rfl, fun _ _ => rfl, nofun, nofun⟩
  · rw [hed] at he
    rw [hlen]
    exact (hL.bounded e he).trans_le (le_add_right _ _)
  · rw [createReps_eq, Netlist.kind, getElem?_append_right (Nat.le_add_right _ _),
      Nat.add_sub_cancel_left,
      getElem?_replicate, if_pos hi]
    rfl
  · rw [Netlist.into, hed]
    exact into_eq_nil hL.bounded (le_add_right _ _)

end Wired

end

end Loop

end LiveHD
