import LiveHD.Lib.Chains
import LiveHD.Synth.Lnet

/-!
# Boundary buffers of a cell netlist

`pass/synth/cell_netlist.cpp`: the buffers whose whole fanout reaches the boundary through other
such buffers, and the aliases that take their place.
-/

namespace LiveHD.Synth

open List Chains

structure CellType where
  inputs : ℕ
  truth : BitVec 64

abbrev CellLibrary := List CellType

def CellLibrary.isIdentity (library : CellLibrary) (id : ℕ) : Bool :=
  library[id]?.any fun t => t.inputs = 1 ∧ t.truth = 0xAAAAAAAAAAAAAAAA#64

structure Cell where
  type : ℕ
  fanins : List (Option ℕ)
  output : ℕ
deriving DecidableEq

/-- A signal is driven by one source, latch or cell. -/
structure CellNetlist where
  cells : List Cell
  driver : (cells.map (·.output)).Nodup

namespace CellNetlist

variable (net : CellNetlist) (library : CellLibrary)

/-- The signal that a buffer forwards. -/
def bufferInput (c : Cell) : Option ℕ :=
  match c.fanins with
  | [some input] => if library.isIdentity c.type then some input else none
  | _ => none

def cellReaders (s : ℕ) : ℕ := (net.cells.map fun c => c.fanins.count (some s)).sum

def producer (s : ℕ) : Option Cell := net.cells.find? fun c =>
    c.output = s ∧ bufferInput library c ≠ none

structure Removal where
  remaining : ℕ → ℕ
  aliases : ℕ → Option ℕ := fun _ => none
  pending : List Cell

/-- One buffer of the queue. -/
def Removal.next (st : Removal) (c : Cell) (input : ℕ) : Removal where
  remaining := Function.update st.remaining input (st.remaining input - 1)
  aliases := Function.update st.aliases c.output (some input)
  pending := st.pending ++ if st.remaining input - 1 = 0 then
    (net.producer library input).toList else []

def drain : ℕ → ℕ → Removal → Removal
  | 0, _, st => st
  | fuel + 1, next, st =>
    match st.pending[next]? with
    | none => st
    | some c => drain fuel (next + 1) (st.next net library c ((c.fanins.headD none).getD 0))

def boundaryBufferAliases : ℕ → Option ℕ :=
  (net.drain library net.cells.length 0 {
    remaining := net.cellReaders
    pending := net.cells.filter fun c => bufferInput library c ≠ none ∧
      net.cellReaders c.output = 0 }).aliases

/-- A buffer all of whose readers among the cells are removed. -/
inductive Removed : Cell → Prop
  | buffer {c : Cell} (hc : c ∈ net.cells) (hbuf : bufferInput library c ≠ none)
    (hread : ∀ d ∈ net.cells, some c.output ∈ d.fanins → Removed d) : Removed c

/-- The values of the signals agree with the cells. -/
def Consistent (val : ℕ → Bool) : Prop :=
  ∀ c ∈ net.cells, ∀ ins, c.fanins.mapM id = some ins → ∀ t, library[c.type]? = some t →
    t.inputs = ins.length → ins.length ≤ 6 →
    val c.output = t.truth.getLsbD (rowIndex ins val)

variable {net library} {c d : Cell} {s t : ℕ} {st : Removal} {i : ℕ}

lemma eq_of_output (hc : c ∈ net.cells) (hd : d ∈ net.cells) (h : c.output = d.output) : c = d :=
  inj_on_of_nodup_map net.driver hc hd h

/-- The cells that read `s` and are not done. -/
def openReaders (net : CellNetlist) (done : List Cell) (s : ℕ) : ℕ :=
  (net.cells.map fun c => if c ∈ done then 0 else c.fanins.count (some s)).sum

lemma fanins_of_buffer (h : bufferInput library c = some t) :
    c.fanins = [some t] ∧ library.isIdentity c.type = true := by
  rw [bufferInput] at h
  split at h
  next input heq =>
    split at h
    next hid =>
      cases h
      exact ⟨heq, hid⟩
    · cases h
  · cases h

lemma openReaders_concat {done : List Cell} (hc : c ∈ net.cells) (hdo : c ∉ done) :
    openReaders net done s = c.fanins.count (some s) + openReaders net (done ++ [c]) s := by
  have hnd : net.cells.Nodup := .of_map _ net.driver
  rw [openReaders, openReaders, ← sum_map_erase _ hc, ← sum_map_erase _ hc, if_neg hdo,
    if_pos (by simp), zero_add]
  congr 2
  refine map_congr_left fun d hd => ?_
  have hne : d ≠ c := fun heq => hnd.not_mem_erase (heq ▸ hd)
  simp [hne]

lemma openReaders_eq_zero {done : List Cell} : openReaders net done s = 0 ↔
    ∀ d ∈ net.cells, some s ∈ d.fanins → d ∈ done := by
  simp only [openReaders, List.sum_eq_zero_iff_forall_eq_nat, forall_mem_map]
  refine forall₂_congr fun d _ => ?_
  by_cases h : d ∈ done
  · simp [h]
  · simp [h, count_eq_zero]

lemma producer_eq_some : net.producer library s = some d ↔
    d ∈ net.cells ∧ d.output = s ∧ bufferInput library d ≠ none := by
  constructor
  · intro h
    simpa using And.intro (mem_of_find?_eq_some h) (find?_some h)
  · rintro ⟨hd, rfl, hbuf⟩
    cases h : net.producer library d.output with
    | none =>
      have := find?_eq_none.1 h d hd
      simp [hbuf] at this
    | some e =>
      have he : e.output = d.output ∧ bufferInput library e ≠ none := by simpa using find?_some h
      rw [eq_of_output (mem_of_find?_eq_some h) hd he.1]

/-! ## The queue -/

variable (net library) in
/-- The first `i` buffers of the queue are done. -/
structure Inv (i : ℕ) (st : Removal) : Prop where
  nodup : st.pending.Nodup
  le : i ≤ st.pending.length
  removed : ∀ c ∈ st.pending, c ∈ net.cells ∧ Removed net library c
  remaining : ∀ s, st.remaining s = net.openReaders (st.pending.take i) s
  queued : ∀ c ∈ net.cells, bufferInput library c ≠ none →
    (c ∈ st.pending ↔ st.remaining c.output = 0)
  aliases : ∀ s t, st.aliases s = some t ↔
    ∃ c ∈ st.pending.take i, c.output = s ∧ bufferInput library c = some t
  total : Total st.aliases

lemma Removed.mem (h : Removed net library c) : c ∈ net.cells := by
  cases h
  assumption

lemma Removed.bufferInput_ne (h : Removed net library c) : bufferInput library c ≠ none := by
  cases h
  assumption

lemma Inv.next (h : Inv net library i st) (hc : st.pending[i]? = some c)
    (hin : bufferInput library c = some t) :
    Inv net library (i + 1) (st.next net library c t) := by
  obtain ⟨hlt, heq⟩ := List.getElem?_eq_some_iff.1 hc
  have hmem : c ∈ st.pending := mem_of_getElem? hc
  have hta : st.pending.take (i + 1) = st.pending.take i ++ [c] := by rw [take_add_one, hc]; rfl
  have hdo : c ∉ st.pending.take i := by
    have := h.nodup.sublist (take_sublist (i + 1) _)
    rw [hta] at this
    exact fun hin => (nodup_append.1 this).2.2 c hin c (mem_singleton_self c) rfl
  have hop := openReaders_concat (s := t) (h.removed c hmem).1 hdo
  rw [← h.remaining, (fanins_of_buffer hin).1, count_singleton_self, ← hta] at hop
  have hne : st.remaining t ≠ 0 := by omega
  have hse : c.output ≠ t := by
    rintro heq
    exact hne (heq ▸ (h.queued c (h.removed c hmem).1 (h.removed c hmem).2.bufferInput_ne).1 hmem)
  have hre : ∀ s, Function.update st.remaining t (st.remaining t - 1) s =
      net.openReaders (st.pending.take (i + 1)) s := by
    intro s
    by_cases hs : s = t
    · subst hs
      rw [Function.update_self]
      omega
    · rw [Function.update_of_ne hs, h.remaining, openReaders_concat (h.removed c hmem).1 hdo,
        (fanins_of_buffer hin).1, ← hta]
      simp [Ne.symm hs]
  -- The driver of `t` joins the queue with the last reader of `t`.
  have hlat : ∀ {d}, st.remaining t - 1 = 0 → net.producer library t = some d → d ∈ net.cells ∧
      Removed net library d ∧ d ∉ st.pending := by
    intro d h0 hpr
    obtain ⟨hd, rfl, hbuf⟩ := producer_eq_some.1 hpr
    have hrd := openReaders_eq_zero.1
      ((hre d.output).symm.trans ((Function.update_self ..).trans h0))
    refine ⟨hd, .buffer hd hbuf fun r hr hin => (h.removed r (mem_of_mem_take (hrd r hr hin))).2,
      fun hin => ?_⟩
    exact hne ((h.queued d hd hbuf).1 hin)
  have hpre : (st.next net library c t).pending.take (i + 1) = st.pending.take (i + 1) :=
    take_append_of_le_length hlt
  refine ⟨?_, ?_, ?_, fun s => ?_, fun d hd hbuf => ?_, fun s u => ?_, ?_⟩
  · refine h.nodup.append ?_ fun d hd hla => ?_
    · split
      · cases net.producer library t <;> simp
      · exact nodup_nil
    · split at hla
      next h0 => exact (hlat h0 (by simpa using hla)).2.2 hd
      · cases hla
  · exact Nat.le_trans hlt (by simp [Removal.next])
  · intro d hd
    rcases mem_append.1 hd with hd | hd
    · exact h.removed d hd
    · split at hd
      next h0 => exact (hlat h0 (by simpa using hd)).imp_right And.left
      · cases hd
  · rw [hpre]
    exact hre s
  · change d ∈ st.pending ++ _ ↔ Function.update st.remaining t _ d.output = 0
    by_cases hout : d.output = t
    · have hpr : net.producer library t = some d := producer_eq_some.2 ⟨hd, hout, hbuf⟩
      have hf : d ∉ st.pending := fun hin => hne (hout ▸ (h.queued d hd hbuf).1 hin)
      rw [hout, hpr]
      split
      next h0 => simp [h0]
      next h0 => simp [h0, hf]
    · rw [Function.update_of_ne hout, ← h.queued d hd hbuf, mem_append, or_iff_left]
      intro hla
      split at hla
      next h0 => exact hout (producer_eq_some.1 (by simpa using hla)).2.1
      · cases hla
  · rw [hpre, hta]
    change Function.update st.aliases c.output (some t) s = some u ↔ _
    by_cases hs : s = c.output
    · subst hs
      rw [Function.update_self]
      constructor
      · intro hu
        exact ⟨c, by simp, rfl, hin.trans hu⟩
      · rintro ⟨d, hd, heq, hu⟩
        have hd : d = c := eq_of_output ((h.removed d ?_).1) (h.removed c hmem).1 heq
        · rw [← hin, ← hd, hu]
        · rcases mem_append.1 hd with hd | hd
          · exact mem_of_mem_take hd
          · exact mem_singleton.1 hd ▸ hmem
    · rw [Function.update_of_ne hs, h.aliases]
      simp [Ne.symm hs]
  · refine h.total.update ⟨?_, .inl rfl⟩ hse hse
    refine Option.eq_none_iff_forall_ne_some.2 fun u hu => ?_
    obtain ⟨d, hd, rfl, hbuf⟩ := (h.aliases t u).1 hu
    have hd := mem_of_mem_take hd
    exact hne ((h.queued d (h.removed d hd).1 (h.removed d hd).2.bufferInput_ne).1 hd)

lemma drain_spec {fuel : ℕ} (h : Inv net library i st) (hfu : net.cells.length ≤ fuel + i) :
    ∃ j, Inv net library j (net.drain library fuel i st) ∧
    (net.drain library fuel i st).pending.length ≤ j := by
  induction fuel generalizing i st with
  | zero =>
    have hsub := (h.nodup.subperm fun c hc => (h.removed c hc).1).length_le
    exact ⟨i, h, by rw [drain]; omega⟩
  | succ fuel ih =>
    rw [drain]
    cases hc : st.pending[i]? with
    | none => exact ⟨i, h, List.getElem?_eq_none_iff.1 hc⟩
    | some c =>
      obtain ⟨t, ht⟩ := Option.ne_none_iff_exists'.1
        (h.removed c (mem_of_getElem? hc)).2.bufferInput_ne
      have hst := ih (h.next hc ht) (by omega)
      dsimp only
      rwa [(fanins_of_buffer ht).1]

lemma inv_init : Inv net library 0 {
    remaining := net.cellReaders
    pending := net.cells.filter fun c => bufferInput library c ≠ none ∧
      net.cellReaders c.output = 0 } := by
  have hop : ∀ s, net.cellReaders s = net.openReaders [] s := fun s => by
    simp [cellReaders, openReaders]
  refine ⟨(Nodup.of_map _ net.driver).filter _, Nat.zero_le _, fun c hc => ?_, hop,
    fun c hc hbuf => ?_, fun s t => ?_, fun s => ?_⟩
  · obtain ⟨hc, hbuf, h0⟩ : c ∈ net.cells ∧ bufferInput library c ≠ none ∧
      net.cellReaders c.output = 0 := by simpa using hc
    refine ⟨hc, .buffer hc hbuf fun d hd hin => ?_⟩
    cases openReaders_eq_zero.1 ((hop _).symm.trans h0) d hd hin
  · simp [hc, hbuf]
  · simp
  · exact ⟨s, .stop rfl⟩

/-- The aliases are the removed buffers. -/
lemma boundaryBufferAliases_spec : Total (net.boundaryBufferAliases library) ∧
    ∀ s t, net.boundaryBufferAliases library s = some t ↔
      ∃ c, Removed net library c ∧ c.output = s ∧ bufferInput library c = some t := by
  obtain ⟨j, h, hle⟩ := drain_spec (inv_init : Inv net library 0 _)
    (Nat.le_add_right net.cells.length 0)
  refine ⟨h.total, fun s t => (h.aliases s t).trans ?_⟩
  rw [take_of_length_le hle]
  refine exists_congr fun c => and_congr_left' ⟨fun hc => (h.removed c hc).2, fun hc => ?_⟩
  induction hc with
  | @buffer c hc hbuf _ ih =>
    rw [h.queued c hc hbuf, h.remaining, take_of_length_le hle, openReaders_eq_zero]
    exact ih

lemma Removed.perm {net' : CellNetlist} (hpe : net.cells.Perm net'.cells)
    (h : Removed net library c) : Removed net' library c := by
  induction h with
  | buffer hc hbuf _ ih => exact .buffer (hpe.subset hc) hbuf fun d hd => ih d (hpe.symm.subset hd)

lemma Consistent.buffer {val : ℕ → Bool} (h : Consistent net library val) (hc : c ∈ net.cells)
    (hbuf : bufferInput library c = some t) :
    val c.output = val t := by
  obtain ⟨hfa, hid⟩ := fanins_of_buffer hbuf
  obtain ⟨type, hty, hid⟩ := (Option.any_eq_true _ _).1 hid
  obtain ⟨hone, htr⟩ := of_decide_eq_true hid
  rw [h c hc [t] (by rw [hfa]; rfl) type hty hone (show 1 ≤ 6 by decide), htr, rowIndex_singleton]
  cases val t <;> rfl

theorem boundaryBufferAliases_exact (net : CellNetlist) (library : CellLibrary) :
    (∀ s t, net.boundaryBufferAliases library s = some t ↔
      ∃ c, Removed net library c ∧ c.output = s ∧ bufferInput library c = some t) ∧
    (∀ s, ¬Relation.TransGen (fun a b => net.boundaryBufferAliases library a = some b) s s) ∧
    (∀ val, Consistent net library val →
      ∀ s, ∃ f, Chains.Ends (net.boundaryBufferAliases library) s f ∧ val f = val s) ∧
    ∀ net' : CellNetlist, net'.cells.Perm net.cells →
    net'.boundaryBufferAliases library = net.boundaryBufferAliases library := by
  obtain ⟨htotal, hiff⟩ : Total (net.boundaryBufferAliases library) ∧
    _ := boundaryBufferAliases_spec
  refine ⟨hiff, htotal.irrefl, fun val hval s => ?_, fun net' hperm => ?_⟩
  · obtain ⟨f, hf⟩ := htotal s
    refine ⟨f, hf, ?_⟩
    induction hf with
    | stop _ => rfl
    | step hlink _ ih =>
      obtain ⟨c, hc, rfl, hbuf⟩ := (hiff _ _).1 hlink
      exact ih.trans (hval.buffer hc.mem hbuf).symm
  · ext s t
    simp only [boundaryBufferAliases_spec.2]
    exact exists_congr fun c => and_congr_left fun _ => ⟨.perm hperm, .perm hperm.symm⟩

end CellNetlist

end LiveHD.Synth
