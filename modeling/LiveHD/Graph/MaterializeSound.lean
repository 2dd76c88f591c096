import LiveHD.Graph.MaterializeWires

/-!
# What the readers of a materialized loop see

In a valuation of the expanded netlist, occurrence `r` computes the body on the state before ordinal
`r`.  A reader is bound to the output of the last occurrence, so a carry that an inactive last
ordinal should keep is not bypassed there as it is between the occurrences.
-/

namespace LiveHD.Loop

open List Nat Netlist

variable {L : Loop} {g : Netlist}

/-! ## The readers -/

/-- The reader an edge stands for. -/
def readerOf (L : Loop) (e : Pin × Sink) : Option (ℕ × Sink) :=
  match e.1 with
  | .out n p => if n = L.inst ∧ e.2.node ≠ L.inst then some (p, e.2) else none
  | _ => none

lemma readers_eq : L.readers g = g.edges.filterMap L.readerOf := rfl

lemma readerOf_eq_some {e : Pin × Sink} {r : ℕ × Sink} (h : L.readerOf e = some r) :
    e = (.out L.inst r.1, r.2) ∧ r.2.node ≠ L.inst := by
  rw [readerOf] at h
  split at h
  next n p hd =>
    rw [Option.ite_none_right_eq_some] at h
    obtain ⟨⟨rfl, hne⟩, h⟩ := h
    cases h
    exact ⟨Prod.ext hd rfl, hne⟩
  · cases h

lemma mem_readers {r : ℕ × Sink} (h : r ∈ L.readers g) :
    (.out L.inst r.1, r.2) ∈ g.edges ∧ r.2.node ≠ L.inst := by
  obtain ⟨e, he, hr⟩ := mem_filterMap.1 h
  obtain ⟨rfl, hne⟩ := readerOf_eq_some hr
  exact ⟨he, hne⟩

/-- A sink is read once. -/
lemma filter_readers (hL : L.Ok g) {port : ℕ} {sink : Sink} (h : (port, sink) ∈ L.readers g) :
    (L.readers g).filter (·.2 == sink) = [(port, sink)] := by
  have hco : (L.readers g).filter (·.2 == sink) =
      (g.edges.filter (·.2 == sink)).filterMap L.readerOf := by
    rw [readers_eq, filter_filterMap, filterMap_filter]
    refine filterMap_congr fun e _ => ?_
    rcases hr : L.readerOf e with - | r
    · split <;> rfl
    · obtain ⟨rfl, -⟩ := readerOf_eq_some hr
      rfl
  have hdr := hL.readers port sink h
  obtain ⟨e, he, hpin⟩ := map_eq_singleton_iff.1 hdr
  have hsi : e.2 = sink := by
    have hmem : e ∈ g.edges.filter (·.2 == sink) := by
      rw [he]
      exact mem_singleton_self e
    exact beq_iff_eq.1 (mem_filter.1 hmem).2
  have hone : L.readerOf e = some (port, sink) := by
    rw [readerOf, hpin, hsi]
    exact if_pos ⟨rfl, (mem_readers h).2⟩
  rw [hco, he, filterMap_cons, hone, filterMap_nil]

/-- The only driver of a reader once the compact instance is gone. -/
lemma drivers_delNode (hL : L.Ok g) {h : Netlist} {es : List (Pin × Sink)} (src : ℕ → Pin)
    (hed : h.edges = g.edges ++ es ++ (L.readers g).map fun r => (src r.1, r.2))
    (hes : ∀ e ∈ es, g.nodes.length ≤ e.2.node)
    {port : ℕ} {sink : Sink} (hr : (port, sink) ∈ L.readers g)
    (hsrc : (src port).isOut L.inst = false) :
    (h.delNode L.inst).drivers sink = [src port] := by
  have hold : g.edges.filter (·.2 == sink) = [(.out L.inst port, sink)] := by
    have hdr := hL.readers port sink hr
    obtain ⟨e, he, hpin⟩ := map_eq_singleton_iff.1 hdr
    have hmem : e ∈ g.edges.filter (·.2 == sink) := by
      rw [he]
      exact mem_singleton_self e
    rw [he, ← hpin, ← beq_iff_eq.1 (mem_filter.1 hmem).2]
  have hnew : es.filter (·.2 == sink) = [] := by
    refine filter_eq_nil_iff.2 fun e he heq => ?_
    have hlt := hL.bounded _ (mem_readers hr).1
    have hle := hes e he
    rw [beq_iff_eq.1 heq] at hle
    exact absurd hlt (not_lt.2 hle)
  have hrd : ((L.readers g).map fun r => (src r.1, r.2)).filter (·.2 == sink) =
      [(src port, sink)] := by
    rw [filter_map]
    exact congrArg _ (filter_readers hL hr)
  have hall : h.edges.filter (·.2 == sink) = [(.out L.inst port, sink), (src port, sink)] := by
    rw [hed, filter_append, filter_append, hold, hnew, hrd]
    rfl
  have hsw : (h.delNode L.inst).edges.filter (·.2 == sink) =
      (h.edges.filter (·.2 == sink)).filter fun e => !e.1.isOut L.inst && e.2.node != L.inst := by
    rw [delNode, filter_filter, filter_filter]
    refine filter_congr fun e _ => ?_
    rw [Bool.and_comm]
  rw [drivers, hsw, hall]
  have hse : (Pin.out L.inst port).isOut L.inst = true := beq_self_eq_true _
  have hne := bne_iff_ne.2 (mem_readers hr).2
  simp [hse, hsrc, hne]

lemma tieReaders_spec (hC : L.Cleared g) (h0 : L.count = 0) (readers : List (ℕ × Sink))
    (hr : ∀ r ∈ readers, r ∈ L.readers g)
    (h : Netlist) : ∃ h', L.tieReaders g h readers = .ok h' ∧
    h'.edges = h.edges ++ readers.map fun r =>
      ((((L.carries g).find? (·.output == r.1)).bind fun c => L.inDriver g c.input).getD (.const 0),
        r.2) := by
  induction readers generalizing h with
  | nil => exact ⟨h, rfl, (append_nil _).symm⟩
  | cons r readers ih =>
    obtain ⟨port, sink⟩ := r
    have hsrc := hC.zero h0 _ (hr _ (.head _))
    obtain ⟨c, hc⟩ := Option.isSome_iff_exists.1 (find?_isSome.2 (any_eq_true.1 hsrc))
    obtain ⟨d, hd⟩ := Option.isSome_iff_exists.1 (hC.seeds c (mem_of_find?_eq_some hc))
    obtain ⟨h', hrun, hed⟩ := ih (fun r h => hr r (.tail _ h)) (h.connect d sink)
    refine ⟨h', ?_, ?_⟩
    · rw [tieReaders, hc]
      simp only [hd]
      exact hrun
    · rw [hed, Netlist.connect_edges, map_cons, append_assoc, hc, Option.bind_some, hd]
      rfl

lemma bindReaders_spec (hC : L.Cleared g) (hne : L.count ≠ 0) (last : ℕ) (readers : List (ℕ × Sink))
    (hr : ∀ r ∈ readers, r ∈ L.readers g) (h : Netlist) :
    ∃ h', L.bindReaders last h readers = .ok h' ∧ h'.nodes = h.nodes ∧
      h'.edges = h.edges ++ readers.map fun r => (.out last r.1, r.2) := by
  induction readers generalizing h with
  | nil => exact ⟨h, rfl, rfl, (append_nil _).symm⟩
  | cons r readers ih =>
    obtain ⟨port, sink⟩ := r
    have hsi := hC.sized hne _ (hr _ (.head _))
    obtain ⟨h', hrun, hns, hed⟩ :=
      ih (fun r h => hr r (.tail _ h)) (h.connect (.out last port) sink)
    refine ⟨h', ?_, hns, ?_⟩
    · rwa [bindReaders, makeDriver, if_pos hsi]
    · rw [hed, Netlist.connect_edges, append_assoc]
      rfl

/-- The netlist of the expansion and the wiring it holds. -/
lemma expandOne_spec (hL : L.Ok g) (hC : L.Cleared g)
    (hpre : L.preflight g = true) (hne : L.count ≠ 0) :
    ∃ (w : Wires) (h : Netlist), L.expandOne g = .ok (h.delNode L.inst) ∧
    L.Wired g L.count w ∧ h.nodes = w.net.nodes ∧
      h.edges = w.net.edges ++ (L.readers g).map fun r =>
      (.out (g.nodes.length + (L.count - 1)) r.1, r.2) := by
  obtain ⟨w, hrun, hw⟩ := (Wired.start hL).run hL hC L.count le_rfl
  have hla : (range' g.nodes.length L.count).getD (L.count - 1) 0 =
      g.nodes.length + (L.count - 1) :=
    reps_getD (Nat.sub_one_lt hne)
  obtain ⟨h, hbi, hns, hed⟩ := bindReaders_spec hC hne (g.nodes.length + (L.count - 1))
    (L.readers g) (fun _ => id) w.net
  refine ⟨w, h, ?_, hw, hns, hed⟩
  have hre : (L.createReps L.count g).2 = range' g.nodes.length L.count := by rw [createReps_eq]
  rw [expandOne, hpre, if_neg hne]
  simp only [hre, hrun, hla]
  show (fun h : Netlist => h.delNode L.inst) <$>
    L.bindReaders (g.nodes.length + (L.count - 1)) w.net (L.readers g) = _
  rw [hbi]
  rfl

/-! ## The values of the occurrences -/

/-- A netlist that has the new nodes of the wiring and their edges. -/
structure Holding (L : Loop) (g : Netlist) (w : Wires) (h : Netlist) : Prop where
  kind : ∀ id, g.nodes.length ≤ id → h.kind id = w.net.kind id
  into : ∀ id, g.nodes.length ≤ id → h.into id = w.net.into id

lemma Wired.holding (hL : L.Ok g) {w : Wires} (hw : L.Wired g L.count w) {h : Netlist} {last : ℕ}
    (hns : h.nodes = w.net.nodes)
    (hed : h.edges = w.net.edges ++ (L.readers g).map fun r => (.out last r.1, r.2)) :
    L.Holding g w (h.delNode L.inst) := by
  have hint : ∀ id, g.nodes.length ≤ id → h.into id = w.net.into id := by
    intro id hid
    have hnil : ((L.readers g).map fun r => ((.out last r.1 : Pin), r.2)).filter
        (·.2.node == id) = [] := by
      refine filter_eq_nil_iff.2 fun e he heq => ?_
      obtain ⟨r, hr, rfl⟩ := mem_map.1 he
      have hlt := hL.bounded _ (mem_readers hr).1
      rw [beq_iff_eq.1 heq] at hlt
      exact absurd hlt (not_lt.2 hid)
    rw [into, hed, filter_append, hnil, append_nil, into]
  refine ⟨fun id hid => ?_, fun id hid => ?_⟩
  · rw [kind_delNode_of_ne (hL.inst_lt.trans_le hid).ne, Netlist.kind, hns, Netlist.kind]
  · rw [Netlist.into_delNode (hL.inst_lt.trans_le hid).ne, hint id hid]
    intro e he
    rw [hint id hid] at he
    obtain ⟨edge, hedg, rfl⟩ := mem_map.1 he
    obtain ⟨hmem, hn⟩ := mem_filter.1 hedg
    obtain ⟨es, hes, hin⟩ := hw.edges
    rw [hes] at hmem
    rcases mem_append.1 hmem with hmem | hmem
    · have hlt := hL.bounded edge hmem
      rw [beq_iff_eq.1 hn] at hlt
      exact absurd hlt (not_lt.2 hid)
    · exact (hin edge hmem).2

section

variable {w : Wires} {h : Netlist} {body : ℕ → (ℕ → Option ℤ) → ℕ → ℤ} {ν : Pin → ℤ}

/-- The pins of occurrence `i` hold the state before ordinal `i`. -/
structure Tracks (L : Loop) (g : Netlist) (w : Wires) (f : (ℕ → Option ℤ) → ℕ → ℤ)
    (ν : Pin → ℤ) (i : ℕ) : Prop where
  active : L.activationInput.isSome = true → ∀ v, w.active[i]? = some v →
    ν v = (L.running g f ν i).active
  carry : ∀ c ∈ L.carries g, ∀ v, (w.carryInputs c.input)[i]? = some v →
    ν v = (L.running g f ν i).carry c.input

lemma find_input (hL : L.Ok g) {c : Carry} (hc : c ∈ L.carries g) :
    (L.carries g).find? (·.input == c.input) = some c := by
  have hnd := hL.carries_nodup
  generalize L.carries g = cs at hc hnd
  induction cs with
  | nil => cases hc
  | cons d cs ih =>
    obtain ⟨hd, hnd⟩ := nodup_cons.1 hnd
    rcases mem_cons.1 hc with rfl | hc
    · rw [find?_cons, beq_self_eq_true]
    · have hne := beq_false_of_ne fun heq => hd (mem_map.2 ⟨c, hc, heq.symm⟩)
      rw [find?_cons, hne]
      exact ih hc hnd

lemma eval_and {h : Netlist} (hν : h.Solves body ν) {id : ℕ} {a b : Pin}
    (hk : h.kind id = some (.cell .and))
    (hin : h.into id = [(0, a), (1, b)]) : ν (.out id 0) = (ν a).land (ν b) := by
  refine hν.cell id .and hk _ ?_
  rw [Netlist.operands, hin]
  show some ((ν a).land ((ν b).land (-1))) = _
  rw [IntBits.land_neg_one]

lemma eval_mux {h : Netlist} (hν : h.Solves body ν) {id : ℕ} {s f t : Pin}
    (hk : h.kind id = some (.cell .mux))
    (hin : h.into id = [(0, s), (1, f), (2, t)]) :
    ν (.out id 0) = if ν s = 0 then ν f else ν t := by
  refine hν.cell id .mux hk _ ?_
  rw [Netlist.operands, hin]
  show Cell.evalOp .mux [(0, some (ν s)), (1, some (ν f)), (2, some (ν t))] = _
  rw [Cell.evalOp_mux, Option.bind_some]
  split <;> rfl

/-- An occurrence whose inputs hold the state computes the body on it. -/
lemma Tracks.outputs (hw : L.Wired g L.count w) (hh : L.Holding g w h) (hν : h.Solves body ν)
    {i : ℕ} (hi : i < L.count)
    (ht : L.Tracks g w (body L.callee) ν i) (port : ℕ) :
    ν (.out (g.nodes.length + i) port) = L.bodyOutputs g (body L.callee) ν i
    (L.running g (body L.callee) ν i) port := by
  have hid : g.nodes.length ≤ g.nodes.length + i := le_add_right _ _
  rw [hν.sub _ L.callee ((hh.kind _ hid).trans (hw.kind i hi))]
  refine congrArg (fun f => body L.callee f port) (funext fun p => ?_)
  have hdr : h.driver ⟨g.nodes.length + i, p⟩ = L.inputPin g w i p := by
    rw [← hw.inputs i hi]
    exact congrArg _ (congrArg _ (hh.into _ hid))
  rw [inputs, hdr, inputPin, bodyInputs]
  split_ifs with hidx hact hde
  · rcases L.indexAt i with - | v
    · rfl
    · exact congrArg some (hν.const v)
  · have hlen := hw.active_length (by rw [hact]; rfl)
    obtain ⟨v, hget⟩ : ∃ v, w.active[i]? = some v :=
      ⟨_, getElem?_eq_getElem (by rw [hlen]; exact hi)⟩
    rw [hget, Option.map_some, ht.active (by rw [hact]; rfl) v hget]
  · obtain ⟨c, hc, rfl⟩ := mem_map.1 ((isCarryDest_iff p).1 hde)
    obtain ⟨v, hget⟩ : ∃ v, (w.carryInputs c.input)[i]? = some v :=
      ⟨_, getElem?_eq_getElem (by rw [hw.carry_length c hc]; exact hi)⟩
    rw [hget, Option.map_some, ht.carry c hc v hget]
  · rfl

lemma Wired.tracks_zero (hw : L.Wired g L.count w) (hν : h.Solves body ν) :
    L.Tracks g w (body L.callee) ν 0 := by
  refine ⟨fun hsm v hget => ?_, fun c hc v hget => ?_⟩
  · obtain ⟨act, hact⟩ := Option.isSome_iff_exists.1 hsm
    have hv := hw.active act hact 0 v hget
    rw [hv, outside, running, Loop.start, hact, Option.bind_some]
    rcases L.inDriver g act with - | d
    · exact hν.const 1
    · rfl
  · have hv := hw.carry c hc 0 v hget
    show ν v = ((L.inDriver g c.input).map ν).getD 0
    rw [hv]
    rfl

section

variable (hL : L.Ok g) (hw : L.Wired g L.count w) (hh : L.Holding g w h) (hν : h.Solves body ν)
include hL hw hh hν

/-- The values of one occurrence more. -/
lemma Wired.tracks_succ {i : ℕ} (hi : i < L.count)
    (ht : L.Tracks g w (body L.callee) ν i) : L.Tracks g w (body L.callee) ν (i + 1) := by
  have hout := ht.outputs hw hh hν hi
  have hold : ∀ id, L.Fresh g w.net id → g.nodes.length ≤ id := fun id hid =>
    (le_add_right _ _).trans hid.1
  refine ⟨fun hsm v hget => ?_, fun c hc v hget => ?_⟩
  · obtain ⟨act, hact⟩ := Option.isSome_iff_exists.1 hsm
    have hat := hw.active act hact (i + 1) v hget
    rw [running, advance]
    rw [ActiveAt] at hat
    rcases hn : L.nextActiveOutput with - | next
    · rw [hn] at hat
      obtain ⟨u, hu⟩ : ∃ u, w.active[i]? = some u :=
        ⟨_, getElem?_eq_getElem (by rw [hw.active_length hsm]; exact hi)⟩
      have hsa : u = L.outside g act := by
        have hbe := hw.active act hact i u hu
        cases i with
        | zero => exact hbe
        | succ i => rwa [ActiveAt, hn] at hbe
      rw [hat, ← hsa]
      exact ht.active hsm u hu
    · rw [hn] at hat
      obtain ⟨id, prev, rfl, hf, hk, hprv, hin⟩ := hat
      rw [eval_and hν ((hh.kind id (hold id hf)).trans hk) ((hh.into id (hold id hf)).trans hin),
        ht.active hsm prev hprv, hout]
  · have hat := hw.carry c hc (i + 1) v hget
    rw [running, advance]
    simp only [find_input hL hc]
    rw [CarryAt] at hat
    by_cases hact : L.activationInput = none
    · rw [if_pos hact] at hat
      have hho : L.Holds (L.running g (body L.callee) ν i) := .inl hact
      rw [if_pos hho, hat, hout]
    · rw [if_neg hact] at hat
      obtain ⟨id, a, prior, rfl, hf, hk, ha, hpr, hin⟩ := hat
      have hsm := Option.isSome_iff_ne_none.2 hact
      rw [eval_mux hν ((hh.kind id (hold id hf)).trans hk) ((hh.into id (hold id hf)).trans hin),
        ht.active hsm a ha,
        ht.carry c hc prior hpr, hout]
      by_cases h0 : (L.running g (body L.callee) ν i).active = 0
      · rw [if_pos h0, if_neg]
        exact fun hho => hho.elim hact fun hne => hne h0
      · have hho : L.Holds (L.running g (body L.callee) ν i) := .inr h0
        rw [if_neg h0, if_pos hho]

/-- Each occurrence computes the body on the state before its ordinal. -/
lemma Wired.tracks {i : ℕ} (hi : i ≤ L.count) : L.Tracks g w (body L.callee) ν i := by
  induction i with
  | zero => exact hw.tracks_zero hν
  | succ i ih => exact hw.tracks_succ hL hh hν hi (ih (Nat.le_of_succ_le hi))

end

end

/-! ## Exactness -/

/-- The call refuses and changes nothing, or each external reader has one driver, which holds the
value of the loop. -/
def Exact (L : Loop) (g : Netlist) (body : ℕ → (ℕ → Option ℤ) → ℕ → ℤ) (ν : Pin → ℤ) : Prop :=
  if (L.materializeOccurrence g).1 = true then
    ∀ port sink, (port, sink) ∈ L.readers g →
      ∃ d, (L.materializeOccurrence g).2.drivers sink = [d] ∧
      ν d = L.finalValue g (body L.callee) ν port
  else (L.materializeOccurrence g).2 = g

section

variable {body : ℕ → (ℕ → Option ℤ) → ℕ → ℤ} {ν : Pin → ℤ}

lemma exact_of_refused (hpre : L.preflight g = false) : L.Exact g body ν := by
  have hrun : L.materializeOccurrence g = (false, g) := by
    rw [materializeOccurrence, expandOne, hpre]
    rfl
  rw [Exact, hrun]
  exact rfl

/-- Without ordinals a carried output is its seed. -/
lemma exact_of_zero (hL : L.Ok g) (hpre : L.preflight g = true)
    (h0 : L.count = 0) : L.Exact g body ν := by
  have hC := cleared_of_preflight hpre
  obtain ⟨h, htie, hed⟩ := tieReaders_spec hC h0 (L.readers g) (fun _ => id) g
  have hrun : L.materializeOccurrence g = (true, h.delNode L.inst) := by
    rw [materializeOccurrence, expandOne, hpre, if_pos h0, htie]
    rfl
  rw [Exact, hrun]
  intro port sink hr
  have hso := hC.zero h0 _ hr
  obtain ⟨c, hc⟩ := Option.isSome_iff_exists.1 (find?_isSome.2 (any_eq_true.1 hso))
  obtain ⟨d, hd⟩ := Option.isSome_iff_exists.1 (hC.seeds c (mem_of_find?_eq_some hc))
  let src (p : ℕ) : Pin := (((L.carries g).find? (·.output == p)).bind fun c => L.inDriver g
    c.input).getD (.const 0)
  have hsrc : src port = d := by
    show (((L.carries g).find? (·.output == port)).bind fun c => L.inDriver g c.input).getD
      (.const 0) = d
    rw [hc, Option.bind_some, hd]
    rfl
  refine ⟨d, ?_, ?_⟩
  · rw [← hsrc]
    refine @drivers_delNode L g hL h [] src ?_ nofun port sink hr ?_
    · rw [hed, append_nil]
    · rw [hsrc]
      exact inDriver_isOut hd
  · rw [finalValue, hc, h0]
    show ν d = ((L.inDriver g c.input).map ν).getD 0
    rw [hd]
    rfl

/-- What a carry holds after the last ordinal. -/
lemma running_last (hL : L.Ok g) {f : (ℕ → Option ℤ) → ℕ → ℤ} (hne : L.count ≠ 0) {c : Carry}
    (hc : c ∈ L.carries g) :
    (L.running g f ν L.count).carry c.input =
      if L.Holds (L.running g f ν (L.count - 1)) then L.bodyOutputs g f ν (L.count - 1)
      (L.running g f ν (L.count - 1)) c.output
      else (L.running g f ν (L.count - 1)).carry c.input := by
  obtain ⟨n, hn⟩ := exists_eq_succ_of_ne_zero hne
  rw [hn, Nat.succ_sub_one, running, advance]
  simp only [find_input hL hc]

section

variable (hL : L.Ok g) (hpre : L.preflight g = true) (hne : L.count ≠ 0)
  (hν : (L.materializeOccurrence g).2.Solves body ν)
include hL hpre hne hν

/-- A reader sees the output of the last occurrence. -/
lemma reader_sees : (L.materializeOccurrence g).1 = true ∧ ∀ port sink, (port, sink) ∈ L.readers g →
      ∃ d, (L.materializeOccurrence g).2.drivers sink = [d] ∧
        ν d = L.bodyOutputs g (body L.callee) ν (L.count - 1)
        (L.running g (body L.callee) ν (L.count - 1)) port := by
  obtain ⟨w, h, hrun, hw, hns, hed⟩ := expandOne_spec hL (cleared_of_preflight hpre) hpre hne
  have hmat : L.materializeOccurrence g = (true, h.delNode L.inst) := by
    rw [materializeOccurrence, hrun]
  rw [hmat] at hν ⊢
  have hh := hw.holding hL hns hed
  have hla := sub_one_lt hne
  have hout := (hw.tracks hL hh hν hla.le).outputs hw hh hν hla
  refine ⟨rfl, fun port sink hr => ⟨.out (g.nodes.length + (L.count - 1)) port, ?_, hout port⟩⟩
  obtain ⟨es, hes, hin⟩ := hw.edges
  refine drivers_delNode hL (fun p => .out (g.nodes.length + (L.count - 1)) p) ?_
    (fun e he => (hin e he).1) hr ?_
  · rw [hed, hes]
  · exact out_isOut (hL.inst_lt.trans_le (Nat.le_add_right _ _))

lemma exact_iff_lastKept : L.Exact g body ν ↔ L.LastKept g (body L.callee) ν := by
  obtain ⟨hok, hse⟩ := reader_sees hL hpre hne hν
  rw [Exact, if_pos hok]
  have hv : ∀ port sink c, (port, sink) ∈ L.readers g →
      (L.carries g).find? (·.output == port) = some c →
      L.finalValue g (body L.callee) ν port =
          if L.Holds (L.running g (body L.callee) ν (L.count - 1)) then
          L.bodyOutputs g (body L.callee) ν (L.count - 1)
            (L.running g (body L.callee) ν (L.count - 1)) port
        else (L.running g (body L.callee) ν (L.count - 1)).carry c.input := by
    intro port sink c _ hc
    have hp : c.output = port := by
      have := find?_some hc
      exact beq_iff_eq.1 this
    rw [finalValue, hc]
    exact (running_last hL hne (mem_of_find?_eq_some hc)).trans (by rw [hp])
  constructor
  · intro hexa port sink c hr hc
    obtain ⟨d, hd, hval⟩ := hse port sink hr
    obtain ⟨d', hd', hva'⟩ := hexa port sink hr
    obtain rfl : d = d' := singleton_inj.1 (hd.symm.trans hd')
    rw [hv port sink c hr hc, hval] at hva'
    by_cases hho : L.Holds (L.running g (body L.callee) ν (L.count - 1))
    · exact .inl hho
    · rw [if_neg hho] at hva'
      exact .inr hva'
  · intro hke port sink hr
    obtain ⟨d, hd, hval⟩ := hse port sink hr
    refine ⟨d, hd, hval.trans ?_⟩
    rcases hc : (L.carries g).find? (·.output == port) with - | c
    · rw [finalValue, hc]
    · rw [hv port sink c hr hc]
      rcases hke port sink c hr hc with hho | heq
      · rw [if_pos hho]
      · split
        · rfl
        · exact heq

end

end

/-- A compact loop is materialized exactly, in a valuation of the netlist the call leaves, when the
call refuses, when there is no ordinal, or when an inactive last ordinal outputs what the carries
hold. -/
theorem materializeOccurrence_exact_iff {L : Loop} {g : Netlist} (hL : L.Ok g)
    {body : ℕ → (ℕ → Option ℤ) → ℕ → ℤ} {ν : Pin → ℤ}
    (hν : (L.materializeOccurrence g).2.Solves body ν) :
    L.Exact g body ν ↔ (L.preflight g = true → L.count ≠ 0 → L.LastKept g (body L.callee) ν) := by
  rcases hpre : L.preflight g with - | -
  · exact iff_of_true (exact_of_refused hpre) nofun
  · rcases eq_or_ne L.count 0 with hzero | hne
    · exact iff_of_true (exact_of_zero hL hpre hzero) fun _ h => absurd hzero h
    · rw [exact_iff_lastKept hL hpre hne hν]
      exact ⟨fun h _ _ => h, fun h => h rfl hne⟩

/-! ## An accumulator -/

/-- A graph with one compact loop: its seed and its activation are graph inputs, and one sink reads
the accumulator. -/
def accumulatorNet : Netlist where
  nodes := [some .other, some (.loop 0)]
  edges := [(.input 0, ⟨1, 2⟩), (.input 1, ⟨1, 5⟩), (.out 1 3, ⟨1, 2⟩), (.out 1 3, ⟨0, 0⟩)]

def accumulator (count : ℕ) : Loop where
  inst := 1
  callee := 0
  io := some [(3, 12)]
  count := count
  indexInput := none
  activationInput := some 5
  nextActiveOutput := none
  indexAt r := some r
  validates := true

lemma accumulator_ok (count : ℕ) : (accumulator count).Ok accumulatorNet where
  inst_lt := one_lt_two
  bounded := by
    show ∀ e ∈ accumulatorNet.edges, e.2.node < 2
    decide
  external_nodup := by
    show [2, 5].Nodup
    decide
  carries_nodup := by
    show [2].Nodup
    decide
  readers := by
    rintro port sink h
    cases (mem_singleton.1 h)
    rfl
  roles := nofun
  role_not_carry := by
    intro port hro
    rcases (isRoleInput_iff port).1 hro with hidx | hact
    · cases hidx
    · cases hact
      rfl

/-- The body adds one to its carry. -/
def increment (_ : ℕ) (ins : ℕ → Option ℤ) (_ : ℕ) : ℤ := (ins 2).getD 0 + 1

/-- The seed is 7; node `n` outputs `outs n`. -/
def accumulatorValues (active : ℤ) (outs : ℕ → ℤ) : Pin → ℤ
  | .input 0 => 7
  | .input _ => active
  | .const v => v
  | .out n _ => outs n

/-- Two active ordinals: the occurrences are nodes 2 and 3, the bypass between them is node 4. -/
def twoActive : Pin → ℤ := accumulatorValues 1 fun n => if n = 3 then 9 else 8

lemma twoActive_solves : ((accumulator 2).materializeOccurrence accumulatorNet).2.Solves
    increment twoActive := by
  refine ⟨fun _ => rfl, fun id op hk x hx => ?_, fun id callee hk port => ?_⟩
  · match id with
    | 0 | 1 | 2 | 3 => cases hk
    | 4 =>
      cases hk
      exact Option.some.inj hx
    | id + 5 => cases hk
  · match id with
    | 0 | 1 | 4 => cases hk
    | 2 | 3 => rfl
    | id + 5 => cases hk

theorem accumulator_exact : (accumulator 2).Exact accumulatorNet increment twoActive := by
  refine (materializeOccurrence_exact_iff (accumulator_ok 2) twoActive_solves).2
    fun _ _ port sink c _ _ => .inl (.inr ?_)
  decide

/-- One inactive ordinal: its occurrence is node 2. -/
def oneIdle : Pin → ℤ := accumulatorValues 0 fun _ => 8

/-- The reader of a loop whose only ordinal is inactive sees 8 instead of the seed 7. -/
theorem accumulator_not_exact : (accumulator 1).Ok accumulatorNet ∧
    ((accumulator 1).materializeOccurrence accumulatorNet).2.Solves increment oneIdle ∧
    ¬(accumulator 1).Exact accumulatorNet increment oneIdle := by
  refine ⟨accumulator_ok 1, ⟨fun _ => rfl, fun id op hkind x hx => ?_,
    fun id callee hkind port => ?_⟩, fun h => ?_⟩
  · match id with
    | 0 | 1 | 2 => cases hkind
    | id + 3 => cases hkind
  · match id with
    | 0 | 1 => cases hkind
    | 2 => rfl
    | id + 3 => cases hkind
  · obtain ⟨d, hd, hval⟩ := h 3 ⟨0, 0⟩ (mem_singleton_self _)
    obtain rfl : .out 2 3 = d := singleton_inj.1 hd
    cases hval

end LiveHD.Loop
