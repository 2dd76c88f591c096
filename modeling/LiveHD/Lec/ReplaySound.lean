import LiveHD.Lec.Replay
import LiveHD.Lib.Framing
import LiveHD.Lib.Lists

/-!
# What a replay finds

The simulation writes over the values of the frame before; each variable is written before it is
read, so that the values are those of the model as a sequential circuit.
-/

namespace LiveHD.Lec.Replay

open Framing List

/-! ## Sequential semantics -/

namespace LitModel

variable (m : LitModel)

/-- The values of the variables, over the inputs and the registers. -/
def eval (inputs st : List Bool) : List Bool :=
  m.ands.foldl (fun v a => v ++ [bit v a.1 && bit v a.2]) (false :: (inputs ++ st))

/-- The registers at a cycle, over the inputs of each cycle. -/
def state (u : ℕ → List Bool) : ℕ → List Bool
  | 0 => .replicate m.regs.length false
  | c + 1 => m.next.map (bit (m.eval (u c) (state u c)))

/-- The values of the variables at a cycle. -/
def values (u : ℕ → List Bool) (c : ℕ) : List Bool := m.eval (u c) (m.state u c)

/-- The target is raised at a cycle. -/
def Raises (u : ℕ → List Bool) (c : ℕ) : Prop := bit (m.values u c) m.target = true

/-- The assumes hold at a cycle. -/
def Holds (u : ℕ → List Bool) (c : ℕ) : Prop := bit (m.values u c) m.ok = true

instance (u : ℕ → List Bool) : DecidablePred (m.Raises u) := fun _ =>
    inferInstanceAs (Decidable (_ = _))

instance (u : ℕ → List Bool) : DecidablePred (m.Holds u) := fun _ =>
    inferInstanceAs (Decidable (_ = _))

end LitModel

/-! ## The values are written in place -/

lemma bit_append {v w : List Bool} {l : ℕ} (h : l / 2 < v.length) : bit (v ++ w) l = bit v l := by
  rw [bit, bit, getD_append _ _ _ _ h]

/-- Values that are written end up behind those before. -/
lemma writeFrom_append (v bs rest : List Bool) {old : List Bool} (h : old.length = bs.length) :
    writeFrom (v ++ old ++ rest) v.length bs = v ++ bs ++ rest := by
  induction bs generalizing v old with
  | nil =>
    obtain rfl := length_eq_zero_iff.1 h
    rfl
  | cons b bs ih =>
    cases old with
    | nil => cases h
    | cons o old =>
      have hset : (v ++ o :: old ++ rest).set v.length b = v ++ [b] ++ old ++ rest := by simp
      have hr := ih (v ++ [b]) (Nat.succ.inj h)
      rw [length_append, length_singleton] at hr
      rw [writeFrom, hset, hr]
      simp

/-- The gates over earlier variables, written behind those. -/
lemma gates_append (v : List Bool) (as : List (ℕ × ℕ)) {old : List Bool}
    (h : old.length = as.length)
    (ho : ∀ i a, as[i]? = some a → a.1 / 2 < v.length + i ∧ a.2 / 2 < v.length + i) :
    LitModel.gates (v ++ old) v.length as = as.foldl
    (fun v a => v ++ [bit v a.1 && bit v a.2]) v := by
  induction as generalizing v old with
  | nil =>
    obtain rfl := length_eq_zero_iff.1 h
    exact append_nil v
  | cons a as ih =>
    cases old with
    | nil => cases h
    | cons o old =>
      obtain ⟨h1, h2⟩ := ho 0 a rfl
      have hset : (v ++ o :: old).set v.length (bit v a.1 && bit v a.2) =
          v ++ [bit v a.1 && bit v a.2] ++ old := by
        simp
      have hr := ih (v ++ [bit v a.1 && bit v a.2]) (Nat.succ.inj h) fun i a' ha => by
        have := ho (i + 1) a' (by rwa [getElem?_cons_succ])
        rw [length_append, length_singleton]
        omega
      rw [length_append, length_singleton] at hr
      rw [LitModel.gates, bit_append h1, bit_append h2, hset, hr, foldl_cons]

variable (as : List (ℕ × ℕ)) (v : List Bool)

lemma length_foldl_gates : (as.foldl (fun v a => v ++ [bit v a.1 && bit v a.2]) v).length =
    v.length + as.length := by
  induction as generalizing v with
  | nil => rfl
  | cons a as ih =>
    rw [foldl_cons, ih, length_append, length_singleton, length_cons, add_assoc, add_comm 1]

lemma prefix_foldl_gates : v <+: as.foldl (fun v a => v ++ [bit v a.1 && bit v a.2]) v := by
  induction as generalizing v with
  | nil => exact prefix_rfl
  | cons a as ih => exact (prefix_append _ _).trans (ih _)

namespace LitModel

variable (m : LitModel)

/-- Values of a frame that can be written over: one for each variable, the first the constant. -/
def Slate (v : List Bool) : Prop := ∃ rest, v = false :: rest ∧
    rest.length = m.pis.length + m.regs.length + m.ands.length

lemma slate_replicate : m.Slate (.replicate m.nvars false) := by
  refine ⟨.replicate (m.pis.length + m.regs.length + m.ands.length) false, ?_, length_replicate⟩
  rw [nvars, add_comm, replicate_succ]

lemma slate_eval {inputs st : List Bool} (hin : inputs.length = m.pis.length)
    (hst : st.length = m.regs.length) : m.Slate (m.eval inputs st) := by
  obtain ⟨l, hl⟩ := prefix_foldl_gates m.ands (false :: (inputs ++ st))
  have hlen := length_foldl_gates m.ands (false :: (inputs ++ st))
  refine ⟨inputs ++ st ++ l, ?_, ?_⟩
  · rw [eval, ← hl]
    simp
  · rw [← hl] at hlen
    simp only [length_append] at hlen ⊢
    omega

variable {m}

/-- A frame has the values of the circuit, whatever was there before. -/
lemma Slate.frame {v inputs st : List Bool} (hv : m.Slate v) (hin : inputs.length = m.pis.length)
    (hst : st.length = m.regs.length) :
    m.frame v inputs st = m.eval inputs st := by
  obtain ⟨rest, rfl, hr⟩ := hv
  have hlen : (inputs ++ st).length = m.pis.length + m.regs.length := by
    rw [length_append, hin, hst]
  have hsp : false :: rest = [false] ++ rest.take (inputs ++ st).length ++
      rest.drop (inputs ++ st).length := by
    rw [append_assoc, take_append_drop, singleton_append]
  have hwr : writeFrom (false :: rest) 1 (inputs ++ st) =
      [false] ++ (inputs ++ st) ++ rest.drop (inputs ++ st).length := by
    rw [hsp]
    refine writeFrom_append [false] (inputs ++ st) _ ?_
    rw [length_take]
    omega
  have hva : ([false] ++ (inputs ++ st)).length = 1 + (inputs ++ st).length := by
    rw [length_append, length_singleton]
  rw [LitModel.frame, hwr, ← hva]
  refine gates_append _ _ ?_ fun i a ha => ?_
  · rw [length_drop]
    omega
  · have := m.older i a ha
    omega

lemma length_state (u : ℕ → List Bool) (c : ℕ) : (m.state u c).length = m.regs.length := by
  cases c with
  | zero => exact length_replicate
  | succ c =>
    rw [state, length_map]
    exact m.length_next

lemma length_inputs (tr : Trace) (f : ℕ) : (m.inputs tr f).length = m.pis.length := length_map _

/-! ## The loop -/

/-- The loop from frame `f` on. -/
lemma replayLoop_eq (tr : Trace) (frames : ℤ) (n f : ℕ) (hn : frames = f + n)
    {v : List Bool} (hv : m.Slate v) :
    m.replayLoop tr frames n f v (m.state (m.inputs tr) f)
    ((List.range f).find? fun c => m.Raises (m.inputs tr) c) =
      if 0 < n ∧ ¬m.Holds (m.inputs tr) (f + n - 1) then none
      else (List.range (f + n)).find? fun c => m.Raises (m.inputs tr) c := by
  induction n generalizing f v with
  | zero => rfl
  | succ n ih =>
    have hfr : m.frame v (m.inputs tr f) (m.state (m.inputs tr) f) = m.values (m.inputs tr) f :=
      hv.frame (length_inputs tr f) (length_state _ f)
    -- The first failure so far, this frame counted.
    have hhit : (if ((range f).find? fun c => m.Raises (m.inputs tr) c) = none ∧
        bit (m.values (m.inputs tr) f) m.target = true then some f
        else (range f).find? fun c => m.Raises (m.inputs tr) c) = (range (f + 1)).find? fun c =>
          m.Raises (m.inputs tr) c := by
      rw [range_succ, find?_append, find?_singleton]
      cases hfi : (range f).find? fun c => m.Raises (m.inputs tr) c with
      | none =>
        change (if none = none ∧ m.Raises (m.inputs tr) f then some f else none) =
          if decide (m.Raises (m.inputs tr) f) = true then some f else none
        simp only [true_and, decide_eq_true_eq]
      | some c => simp
    have hsl : m.Slate (m.values (m.inputs tr) f) :=
      m.slate_eval (length_inputs tr f) (length_state _ f)
    have hla : (f : ℤ) = frames - 1 ↔ n = 0 := by omega
    simp only [replayLoop, hfr, hhit, hla]
    by_cases hend : n = 0
    · subst hend
      by_cases hok : bit (m.values (m.inputs tr) f) m.ok = false
      · have hnot : ¬m.Holds (m.inputs tr) f := fun h => absurd (h.symm.trans hok) (by decide)
        rw [if_pos ⟨rfl, hok⟩, if_pos ⟨one_pos, hnot⟩]
      · have hho := Bool.eq_true_of_not_eq_false hok
        rw [if_neg fun h => hok h.2, if_neg fun h => h.2 hho]
        rfl
    · rw [if_neg fun h => hend h.1]
      have hr := ih (f + 1) (by omega) hsl
      rw [show f + (n + 1) = f + 1 + n by omega]
      refine hr.trans ?_
      have hpos := pos_of_ne_zero hend
      simp only [hpos, Nat.succ_pos]

/-- `replay` finds the first failure, if the assumes hold in the last frame. -/
lemma replay_eq_some_iff (tr : Trace) (frames : ℤ) (f : ℕ) : m.replay tr frames = some f ↔
    f < frames ∧ m.Holds (m.inputs tr) (frames.toNat - 1) ∧ m.Raises (m.inputs tr) f ∧
    ∀ c < f, ¬m.Raises (m.inputs tr) c := by
  by_cases hpos : frames ≤ 0
  · rw [replay, Int.toNat_of_nonpos hpos]
    refine iff_of_false nofun fun h => ?_
    omega
  · have heq := replayLoop_eq tr frames frames.toNat 0 (by omega) m.slate_replicate
    rw [zero_add] at heq
    change m.replay tr frames = _ at heq
    rw [heq]
    have hto : 0 < frames.toNat := by omega
    by_cases hok : m.Holds (m.inputs tr) (frames.toNat - 1)
    · rw [if_neg fun h => h.2 hok, find?_range_eq_some]
      simp only [decide_eq_true_eq, mem_range, Bool.not_eq_true', decide_eq_false_iff_not]
      constructor
      · rintro ⟨hra, hlt, hfi⟩
        exact ⟨by omega, hok, hra, hfi⟩
      · rintro ⟨hlt, -, hra, hfi⟩
        exact ⟨hra, by omega, hfi⟩
    · rw [if_pos ⟨hto, hok⟩]
      exact iff_of_false nofun fun h => hok h.2.1

end LitModel

/-! ## The witness -/

/-- A value of the witness is the one of the simulation, where the simulation has the input. -/
def Watch.Shows (w : Watch) (m : LitModel) (tr : Trace) (c : ℕ) (value : List Char) : Prop :=
  value.length = w.width ∧ ∀ b < w.width, ∀ i : ℕ, m.pis[i]? = some (bitName w.symbol b) →
    value[w.width - 1 - b]? = (m.inputs tr c)[i]?.map fun x => if x = true then '1' else '0'

lemma isSome_cexValue {tr : Trace} {c : ℕ} {w : Watch} :
    (cexValue tr c w).isSome = true ↔ c < tr.length := by
  simp only [cexValue, if_neg w.named, Option.isSome_map, isSome_mapM_iff]
  constructor
  · intro h
    obtain ⟨ns, hns⟩ := Option.isSome_iff_exists.1 (h 0 (mem_range.2 w.pos))
    exact (List.getElem?_eq_some_iff.1 hns).1
  · intro h b _
    rw [getElem?_eq_getElem h]
    rfl

/-- The rows are read off the trace, if anything is watched. -/
lemma isSome_cexValues {tr : Trace} {watch : List Watch} {f : ℕ} :
    (cexValues tr watch f).isSome = true ↔ watch = [] ∨ f < tr.length := by
  simp only [cexValues, isSome_mapM_iff, isSome_cexValue]
  constructor
  · intro h
    refine or_iff_not_imp_left.2 fun hne => ?_
    obtain ⟨w, hw⟩ := exists_mem_of_ne_nil watch hne
    exact h f (mem_range.2 (Nat.lt_succ_self f)) w hw
  · rintro (rfl | hf) c hc w hw
    · cases hw
    · exact (Nat.le_of_lt_succ (mem_range.1 hc)).trans_lt hf

lemma shows_cexValue {m : LitModel} {tr : Trace} {c : ℕ} {w : Watch} {value : List Char}
    (h : cexValue tr c w = some value) : w.Shows m tr c value := by
  have hc := isSome_cexValue.1 (by rw [h]; rfl)
  obtain ⟨l, hl, rfl⟩ := Option.map_eq_some_iff.1 h
  have hfo := forall₂_of_mapM_eq_some hl
  have hlen : l.length = w.width := by rw [← hfo.length_eq, length_range]
  refine ⟨by rw [length_reverse, hlen], fun b hb i hi => ?_⟩
  have hbit := hfo.getElem? b
  rw [getElem?_range hb] at hbit
  have hlb : b < l.length := by rwa [hlen]
  rw [getElem?_eq_getElem hlb] at hbit
  have hv : (if escName (bitName w.symbol b) ∈ tr[c] then '1' else '0') = l[b] := by
    cases hbit with
    | some hb =>
      rw [if_neg w.named, getElem?_eq_getElem hc] at hb
      exact Option.some.inj hb
  have hin : l.reverse[w.width - 1 - b]? = l[b]? := by
    rw [getElem?_reverse (by omega)]
    congr 1
    omega
  have hinp : (m.inputs tr c)[i]? = some (decide (escName (bitName w.symbol b) ∈ tr[c])) := by
    rw [LitModel.inputs, getElem?_map, hi, getElem?_eq_getElem hc]
    rfl
  rw [hin, getElem?_eq_getElem hlb, hinp, ← hv]
  simp only [Option.map_some, decide_eq_true_eq]

/-! ## The counterexample path -/

section

variable (dar : LitModel → ℕ → Bool) (q : Query) (text : Bytes)

/-- What a reused counterexample promises: no frame outside of the trace is read, and an answer has
the first failure of the simulated model, under the assumes, and the inputs that were simulated. -/
def Faithful : Prop := ∃ r, cexReuse dar q text = some r ∧ ∀ a, r = some a →
    ∃ f : ℕ, a.frame = f ∧ f < q.frames ∧
  q.model.Raises (q.model.inputs (traceParse text)) f ∧
  (∀ c < f, ¬q.model.Raises (q.model.inputs (traceParse text)) c) ∧
  q.model.Holds (q.model.inputs (traceParse text)) (q.frames.toNat - 1) ∧
  a.values.length = f + 1 ∧ ∀ c row, a.values[c]? = some row →
  Forall₂ (fun w value => w.Shows q.model (traceParse text) c value) q.watch row

/-- The model, simulated on a trace with zeros after its end, first fails after the trace, and the
failure is taken as the first one there is. -/
structure Beyond : Prop where
  reused : q.reuse &&& kReuseCex ≠ 0 ∧ q.model.exact = true
  watched : q.watch ≠ []
  stored : traceParse text ≠ []
  late : ∃ f : ℕ, (traceParse text).length ≤ f ∧ f < q.frames ∧
    q.model.Raises (q.model.inputs (traceParse text)) f ∧
    (∀ c < f, ¬q.model.Raises (q.model.inputs (traceParse text)) c) ∧
    q.model.Holds (q.model.inputs (traceParse text)) (q.frames.toNat - 1) ∧
    ((f : ℤ) ≤ (if q.always then 0 else q.resetHold) ∨ modelBmcClean dar q.model f = true)

variable {dar q text}

lemma cexFrame_eq_some_iff {tr : Trace} {f : ℕ} : cexFrame dar q tr = some f ↔
    tr ≠ [] ∧ q.model.replay tr q.frames = some f ∧
    ((f : ℤ) ≤ (if q.always then 0 else q.resetHold) ∨ modelBmcClean dar q.model f = true) := by
  rw [cexFrame]
  by_cases htr : tr = []
  · rw [if_pos htr]
    exact iff_of_false nofun fun h => h.1 htr
  · rw [if_neg htr]
    cases hre : q.model.replay tr q.frames with
    | none => exact iff_of_false nofun fun h => nomatch h.2.1
    | some g =>
      by_cases hc : (g : ℤ) ≤ (if q.always then 0 else q.resetHold) ∨
        modelBmcClean dar q.model g = true
      · have heq : (if (g : ℤ) ≤ (if q.always then 0 else q.resetHold) ∨
          modelBmcClean dar q.model g = true then some g else none) = some g := if_pos hc
        constructor
        · intro h
          cases (heq.symm.trans h)
          exact ⟨htr, rfl, hc⟩
        · rintro ⟨-, h, -⟩
          exact heq.trans h
      · refine iff_of_false (fun h => ?_) fun h => ?_
        · exact nomatch (if_neg hc).symm.trans h
        · cases h.2.1
          exact hc h.2.2

/-- The stored counterexample is reused as promised, exactly when the model does not first fail
after the stored trace. -/
theorem faithful_iff : Faithful dar q text ↔ ¬Beyond dar q text := by
  rw [Faithful, cexReuse]
  by_cases hreuse : q.reuse &&& kReuseCex ≠ 0 ∧ q.model.exact = true
  · rw [if_pos hreuse]
    cases hframe : cexFrame dar q (traceParse text) with
    | none =>
      refine iff_of_true ⟨none, rfl, nofun⟩ ?_
      rintro ⟨-, -, hstored, f, -, hlt, hraises, hfirst, hholds, hclean⟩
      have hsome := cexFrame_eq_some_iff.2 ⟨hstored,
        (q.model.replay_eq_some_iff _ _ f).2 ⟨hlt, hholds, hraises, hfirst⟩, hclean⟩
      exact nomatch hframe.symm.trans hsome
    | some f =>
      obtain ⟨hstored, hreplay, hclean⟩ := cexFrame_eq_some_iff.1 hframe
      obtain ⟨hlt, hholds, hraises, hfirst⟩ := (q.model.replay_eq_some_iff _ _ f).1 hreplay
      constructor
      · rintro ⟨r, hr, -⟩ ⟨-, hwatched, -, g, hlate, -, hraises', hfirst', -, -⟩
        obtain ⟨values, hvalues, -⟩ := Option.map_eq_some_iff.1 hr
        -- There is one first failure.
        obtain rfl : f = g := by
          rcases lt_trichotomy f g with h | h | h
          · exact absurd hraises (hfirst' f h)
          · exact h
          · exact absurd hraises' (hfirst g h)
        rcases isSome_cexValues.1 (by rw [hvalues]; rfl) with h | h
        · exact hwatched h
        · exact absurd h (not_lt.2 hlate)
      · intro hbeyond
        have hin : q.watch = [] ∨ f < (traceParse text).length := by
          refine or_iff_not_imp_left.2 fun hwatched => ?_
          by_contra hle
          exact hbeyond ⟨hreuse, hwatched, hstored, f, not_lt.1 hle, hlt,
            hraises, hfirst, hholds, hclean⟩
        obtain ⟨values, hvalues⟩ := Option.isSome_iff_exists.1 (isSome_cexValues.2 hin)
        change ∃ r, (cexValues (traceParse text) q.watch f).map _ = some r ∧ _
        rw [hvalues]
        refine ⟨_, rfl, ?_⟩
        rintro a ⟨⟩
        have hrows := forall₂_of_mapM_eq_some hvalues
        refine ⟨f, rfl, hlt, hraises, hfirst, hholds, ?_, fun c row hrow => ?_⟩
        · rw [← hrows.length_eq, length_range]
        · have hc : c < f + 1 := by
            have := (List.getElem?_eq_some_iff.1 hrow).1
            rwa [← hrows.length_eq, length_range] at this
          have hrel := hrows.getElem? c
          rw [getElem?_range hc, show values[c]? = some row from hrow] at hrel
          cases hrel with
          | some hrow => exact (forall₂_of_mapM_eq_some hrow).imp fun w value => shows_cexValue
  · rw [if_neg hreuse]
    exact iff_of_true ⟨none, rfl, nofun⟩ fun h => hreuse h.reused

end

/-- A register that is set after the first cycle raises the target; the input is not read. -/
def lateModel : LitModel where
  pis := [bitName [120] 0]
  regs := [[114]]
  next := [1]
  ands := []
  target := 4
  exact := true
  length_next := rfl
  older := by simp
  next_lt := by decide
  target_lt := by decide
  ok_lt := by decide

/-- A trace of one frame, on a model that fails in the second one. -/
theorem not_faithful_late : ¬∀ dar q text, Faithful dar q text := by
  intro h
  let q : Query := ⟨lateModel, 2, false, 1, 2, [⟨[120], 1, by decide, by decide⟩]⟩
  obtain ⟨r, hr, -⟩ := h (fun _ _ => true) q (traceText [[bitName [120] 0]])
  have hnone : cexReuse (fun _ _ => true) q (traceText [[bitName [120] 0]]) = none := by decide
  exact nomatch hnone.symm.trans hr

end LiveHD.Lec.Replay
