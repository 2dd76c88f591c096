import LiveHD.Graph.MemoryDeps

/-!
# The decoded ports of a memory are those documented

But for the synchronous ports of a mixed memory: `type` alone decides the timing, so they count as
asynchronous.
-/

namespace LiveHD.PortReach

open MemoryDeps hiding update
open Option hiding or or_assoc
open Memory Function List Nat Pins

lemma MemorySinks.of_append {l m : List (ℕ × Pin)} (h : MemorySinks (l ++ m)) : MemorySinks l where
  nodup := (map_append ▸ h.nodup).of_append_left
  blocks e he := h.blocks e (mem_append_left _ he)

variable {l : List (ℕ × Pin)} {e : ℕ × Pin}

lemma MemorySinks.sinkOf_self (h : MemorySinks (l ++ [e])) : sinkOf l e.1 = none := by
  have hno : l.find? (·.1 == e.1) = none := by
    refine find?_eq_none.2 fun x hx hxe => ?_
    have hnd := h.nodup
    rw [map_append] at hnd
    exact disjoint_of_nodup_append hnd (mem_map_of_mem hx) (mem_singleton.2 (beq_iff_eq.1 hxe))
  rw [sinkOf, hno]
  rfl

lemma MemorySinks.sinkOf_concat (h : MemorySinks (l ++ [e])) (raw : ℕ) :
    sinkOf (l ++ [e]) raw = if e.1 = raw then some e.2 else sinkOf l raw := by
  have hse := h.sinkOf_self
  rw [sinkOf] at hse ⊢
  rw [find?_append]
  by_cases heq : e.1 = raw
  · subst heq
    rw [map_eq_none_iff.1 hse, if_pos rfl,
      find?_cons_of_pos (p := fun x : ℕ × Pin => x.1 == e.1) (beq_self_eq_true e.1)]
    rfl
  · rw [if_neg heq, find?_cons_of_neg (by rwa [beq_iff_eq]), find?_nil, or_none]
    rfl

/-! ## One sink -/

namespace MemoryDeps

variable {m : MemoryDeps}

/-- The pin of a port, in contrast to one of the whole memory or a clock. -/
def isPortPin (raw : ℕ) : Prop := raw ∉ [5, 15, 7, 12, 13, 14, 11, 1, 9, 8] ∧
    raw % memoryPortStride ≠ 2

lemma note_of_isPortPin (h : isPortPin e.1) : m.note e = { m with
    size := max m.size (e.1 / memoryPortStride + 1)
    pv := Function.update m.pv (e.1 / memoryPortStride)
      ((m.pv (e.1 / memoryPortStride)).set (e.1 % memoryPortStride) e.2) } := by
  obtain ⟨hout, hcl⟩ := h
  simp only [mem_cons] at hout
  unfold note
  rw [if_neg (by omega), if_neg (by omega), if_neg (by omega), if_neg (by simp; omega), if_neg hcl]

lemma pv_note_of_not (h : ¬isPortPin e.1) : (m.note e).pv = m.pv ∧ (m.note e).size = m.size := by
  unfold note
  dsimp only
  split
  · exact ⟨rfl, rfl⟩
  split
  · split <;> exact ⟨rfl, rfl⟩
  split
  · exact ⟨rfl, rfl⟩
  split
  · exact ⟨rfl, rfl⟩
  split
  · exact ⟨rfl, rfl⟩
  next hfwd hty hup hs hcl =>
    refine absurd ⟨?_, hcl⟩ h
    simp only [mem_cons, not_or] at hs ⊢
    exact ⟨(not_or.1 hfwd).1, (not_or.1 hfwd).2, hty, hup, hs⟩

/-- What a sink changes of a port. -/
lemma pv_note (i : ℕ) : (isPortPin e.1 ∧ e.1 / memoryPortStride = i ∧
    (m.note e).pv i = (m.pv i).set (e.1 % memoryPortStride) e.2) ∨
    (¬(isPortPin e.1 ∧ e.1 / memoryPortStride = i) ∧ (m.note e).pv i = m.pv i) := by
  by_cases h : isPortPin e.1
  · rw [note_of_isPortPin h]
    by_cases hi : e.1 / memoryPortStride = i
    · subst hi
      exact .inl ⟨h, rfl, update_self _ _ _⟩
    · exact .inr ⟨fun hc => hi hc.2, update_of_ne (Ne.symm hi) _ _⟩
  · exact .inr ⟨fun hc => h hc.1, congrFun (pv_note_of_not h).1 i⟩

/-- A sink of a port is known by its offset. -/
lemma eq_mul_add_iff {raw i base : ℕ} (hba : base < 16) : raw = memoryPortStride * i + base ↔
    raw / memoryPortStride = i ∧ raw % memoryPortStride = base := by
  rw [memoryPortStride]
  omega

lemma isPortPin_of_base {raw : ℕ} (h : raw % memoryPortStride ∈ [0, 3, 4, 10]) : isPortPin raw := by
  simp only [mem_cons, not_mem_nil, or_false, memoryPortStride] at h
  refine ⟨?_, ?_⟩
  · simp only [mem_cons, not_mem_nil, or_false]
    omega
  · rw [memoryPortStride]
    omega

/-- A field of the ports that the sink at one offset sets. -/
lemma field_note {γ : Type*} (F : MemPort → γ) (v : Pin → γ) {k : ℕ} (hba : k ∈ [0, 3, 4, 10])
    (hset : ∀ p d, F (MemPort.set p k d) = v d)
    (ho : ∀ p b d, b ≠ k → b ≠ 13 → F (MemPort.set p b d) = F p)
    (hbl : memoryPortStride ≤ e.1 → e.1 % memoryPortStride ≠ 13) (i : ℕ) :
    F ((m.note e).pv i) = if e.1 = memoryPortStride * i + k then v e.2 else F (m.pv i) := by
  have hlt : k < 16 := by
    simp only [mem_cons, not_mem_nil, or_false] at hba
    omega
  by_cases heq : e.1 = memoryPortStride * i + k
  · rw [if_pos heq]
    obtain ⟨hdiv, hmod⟩ := (eq_mul_add_iff hlt).1 heq
    rcases m.pv_note (e := e) i with ⟨-, -, hpv⟩ | ⟨hnot, -⟩
    · rw [hpv, hmod, hset]
    · exact absurd ⟨isPortPin_of_base (hmod ▸ hba), hdiv⟩ hnot
  · rw [if_neg heq]
    rcases m.pv_note (e := e) i with ⟨hp, hdiv, hpv⟩ | ⟨-, hpv⟩
    · rw [hpv]
      refine ho _ _ _ (fun hmod => heq ((eq_mul_add_iff hlt).2 ⟨hdiv, hmod⟩)) fun hmod => ?_
      by_cases hge : memoryPortStride ≤ e.1
      · exact hbl hge hmod
      · refine hp.1 ?_
        rw [Nat.mod_eq_of_lt (not_le.1 hge)] at hmod
        rw [hmod]
        decide
    · rw [hpv]

lemma update_note : (m.note e).update = if e.1 = 12 then some e.2 else m.update := by
  unfold note
  dsimp only
  split
  next h => rw [if_neg (by omega)]
  split
  next h =>
    rw [if_neg (by omega)]
    split <;> rfl
  split
  · rfl
  split
  · rfl
  split <;> rfl

lemma fwdNonzero_note : (m.note e).fwdNonzero =
    (m.fwdNonzero || (decide (e.1 = 5 ∨ e.1 = 15) && e.2 != .const 0)) := by
  unfold note
  dsimp only
  split
  next h =>
    rw [decide_eq_true h]
    rfl
  next h =>
    rw [decide_eq_false h, Bool.false_and, Bool.or_false]
    split
    · split <;> rfl
    split
    · rfl
    split
    · rfl
    split <;> rfl

lemma mtype_note : (m.note e).mtype = if e.1 = 7 then
    match e.2 with
    | .const v => v
    | _ => m.mtype
    else m.mtype := by
  unfold note
  dsimp only
  split
  next h => rw [if_neg (by omega)]
  split
  · cases e.2 <;> rfl
  split
  · rfl
  split
  · rfl
  split <;> rfl

lemma hasClock_note : (m.note e).hasClock =
    (m.hasClock || decide (e.1 % memoryPortStride = 2)) := by
  unfold note
  dsimp only
  split
  next h => rw [decide_eq_false (by rw [memoryPortStride]; omega), Bool.or_false]
  split
  next h =>
    rw [decide_eq_false (by rw [memoryPortStride]; omega), Bool.or_false]
    split <;> rfl
  split
  next h => rw [decide_eq_false (by rw [memoryPortStride]; omega), Bool.or_false]
  split
  next h =>
    rw [decide_eq_false, Bool.or_false]
    simp only [mem_cons, not_mem_nil, or_false] at h
    rw [memoryPortStride]
    omega
  split
  next h => rw [decide_eq_true h, Bool.or_true]
  next h => rw [decide_eq_false h, Bool.or_false]

lemma size_note : m.size ≤ (m.note e).size ∧
    (m.note e).size ≤ max m.size (e.1 / memoryPortStride + 1) ∧
    (isPortPin e.1 → e.1 / memoryPortStride < (m.note e).size) := by
  by_cases h : isPortPin e.1
  · rw [note_of_isPortPin h]
    exact ⟨le_max_left _ _, le_rfl, fun _ => (lt_succ_self _).trans_le (le_max_right _ _)⟩
  · rw [(pv_note_of_not h).2]
    exact ⟨le_rfl, le_max_left _ _, fun hc => absurd hc h⟩

end MemoryDeps

/-! ## All sinks -/

/-- The decoded ports are those of the sinks. -/
structure Decoded (d : Pins) (m : MemoryDeps) : Prop where
  addr : ∀ i, (m.pv i).addr = d.addr i
  en : ∀ i, (m.pv i).en = d.enable i
  din : ∀ i, (m.pv i).din = d.din i
  rd : ∀ i, (m.pv i).rd = (d.rdport i != 0)
  update : m.update = d.update
  hasClock : m.hasClock = true ↔ d.Clocked
  fwdNonzero : m.fwdNonzero = true ↔ d.Forwards
  mtype : m.mtype = d.type
  empty : ∀ i, m.size ≤ i → m.pv i = .empty
  size : m.size ≤ d.blocks

lemma decoded_decode (h : MemorySinks l) : Decoded (ofSinks l) (decode l) := by
  induction l using reverseRecOn with
  | nil =>
    have hcl : ¬(ofSinks []).Clocked := by
      rintro ⟨i, hi⟩
      cases hi
    have hfwd : ¬(ofSinks []).Forwards := by
      rintro ⟨raw, -, p, hp, -⟩
      cases hp
    exact ⟨fun _ => rfl, fun _ => rfl, fun _ => rfl, fun _ => rfl, rfl,
      ⟨nofun, fun h => absurd h hcl⟩, ⟨nofun, fun h => absurd h hfwd⟩, rfl,
      fun _ _ => rfl, le_rfl⟩
  | append_singleton l e ih =>
    have ih := ih h.of_append
    have hde : decode (l ++ [e]) = (decode l).note e := by
      rw [decode, foldl_append]
      rfl
    have hpin : ∀ raw, (ofSinks (l ++ [e])).pin raw = if e.1 = raw then some e.2
      else (ofSinks l).pin raw := h.sinkOf_concat
    have hbl : memoryPortStride ≤ e.1 → e.1 % memoryPortStride ≠ 13 := by
      intro hge hmod
      have hmem := h.blocks e (mem_append_right _ (mem_singleton_self _)) hge
      rw [hmod] at hmem
      revert hmem
      decide
    rw [hde]
    constructor
    · intro i
      have hf := field_note MemPort.addr some (k := 0) (by decide) (fun _ _ => rfl) (m := .decode l)
        (fun p b d hb _ => by rw [MemPort.set, if_neg hb]; split_ifs <;> rfl) hbl i
      rw [hf, Pins.addr, hpin, ih.addr]
      rfl
    · intro i
      have hf := field_note MemPort.en some (k := 4) (by decide) (fun _ _ => rfl) (m := .decode l)
        (fun p b d hb h13 => by
          rw [MemPort.set, if_neg (c := b = 4 ∨ b = 13) (not_or.2 ⟨hb, h13⟩)]; split_ifs <;> rfl)
          hbl i
      rw [hf, enable, hpin, ih.en]
      rfl
    · intro i
      have hf := field_note MemPort.din some (k := 3) (by decide) (fun _ _ => rfl) (m := .decode l)
        (fun p b d hb _ => by rw [MemPort.set]; split_ifs <;> rfl) hbl i
      rw [hf, Pins.din, hpin, ih.din]
      rfl
    · intro i
      have hf := field_note MemPort.rd (fun d => d.isConst && d != .const 0) (k := 10)
        (by decide) (fun _ _ => rfl)
        (m := .decode l) (fun p b d hb _ => by rw [MemPort.set]; split_ifs <;> rfl) hbl i
      rw [hf, rdport, hpin]
      split
      · cases e.2 with
        | const v =>
          change (Pin.const v != .const 0) = (v != 0)
          rw [Bool.eq_iff_iff, bne_iff_ne, bne_iff_ne, ne_eq, Pin.const.injEq]
        | input _ | out _ _ => rfl
      · rw [ih.rd]
        rfl
    · rw [update_note, Pins.update, hpin, ih.update]
      rfl
    · rw [hasClock_note, Bool.or_eq_true, ih.hasClock, decide_eq_true_iff]
      constructor
      · rintro (⟨i, hi⟩ | hcl)
        · refine ⟨i, ?_⟩
          rw [hpin]
          split
          · rfl
          · exact hi
        · refine ⟨e.1 / memoryPortStride, ?_⟩
          rw [hpin, if_pos ((eq_mul_add_iff (by decide)).2 ⟨rfl, hcl⟩)]
          rfl
      · rintro ⟨i, hi⟩
        rw [hpin] at hi
        by_cases heq : e.1 = memoryPortStride * i + 2
        · exact .inr ((eq_mul_add_iff (by decide)).1 heq).2
        · rw [if_neg heq] at hi
          exact .inl ⟨i, hi⟩
    · rw [fwdNonzero_note, Bool.or_eq_true, ih.fwdNonzero, Bool.and_eq_true, bne_iff_ne]
      constructor
      · rintro (⟨raw, hraw, p, hp, hne⟩ | ⟨hraw, hne⟩)
        · refine ⟨raw, hraw, p, ?_, hne⟩
          have hne' : e.1 ≠ raw := by
            rintro rfl
            cases hp.symm.trans h.sinkOf_self
          rwa [hpin, if_neg hne']
        · refine ⟨e.1, ?_, e.2, ?_, hne⟩
          · simpa using hraw
          · rw [hpin, if_pos rfl]
            rfl
      · rintro ⟨raw, hraw, p, hp, hne⟩
        rw [hpin] at hp
        by_cases heq : e.1 = raw
        · subst heq
          rw [if_pos rfl] at hp
          obtain rfl := mem_some_iff.1 hp
          refine .inr ⟨?_, hne⟩
          simpa using hraw
        · rw [if_neg heq] at hp
          exact .inl ⟨raw, hraw, p, hp, hne⟩
    · rw [mtype_note, type, hpin]
      by_cases heq : e.1 = 7
      · rw [if_pos heq, if_pos heq]
        have hse : (ofSinks l).pin 7 = none := heq ▸ h.sinkOf_self
        have hold : (decode l).mtype = 2 := by rw [ih.mtype, type, hse]
        cases e.2 with
        | const v => rfl
        | input _ | out _ _ => exact hold
      · rw [if_neg heq, if_neg heq, ih.mtype]
        rfl
    · intro i hi
      rcases pv_note (m := .decode l) (e := e) i with ⟨hpo, hdiv, -⟩ | ⟨-, hpv⟩
      · exact absurd (size_note.2.2 hpo) (not_lt.2 (hdiv ▸ hi))
      · rw [hpv]
        exact ih.empty i (size_note.1.trans hi)
    · have hblo : (ofSinks (l ++ [e])).blocks =
          max (ofSinks l).blocks (e.1 / memoryPortStride + 1) := by
        rw [ofSinks, foldl_append]
        rfl
      rw [hblo]
      exact size_note.2.1.trans (max_le_max_right _ ih.size)

/-! ## The outputs -/

lemma countP_range_of_le {P : ℕ → Bool} {n k : ℕ} (h : n ≤ k) (hP : ∀ i, n ≤ i → P i = false) :
    (range k).countP P = (range n).countP P := by
  induction k, h using le_induction with
  | base => rfl
  | succ k hk ih =>
    rw [range_succ, countP_append, ih, countP_singleton, hP k hk]
    rfl

lemma countP_range_succ (P : ℕ → Bool) (i : ℕ) :
    (range (i + 1)).countP P = (range i).countP P + if P i then 1 else 0 := by
  rw [range_succ, countP_append, countP_singleton]

lemma countP_range_mono (P : ℕ → Bool) {i j : ℕ} (h : i ≤ j) :
    (range i).countP P ≤ (range j).countP P := by
  induction j, h using le_induction with
  | base => exact le_rfl
  | succ j _ ih =>
    rw [countP_range_succ]
    exact ih.trans (le_add_right _ _)

namespace Decoded

variable {d : Pins} {m : MemoryDeps}

section

variable (h : Decoded d m)
include h

lemma isWrite (i : ℕ) : (m.pv i).isWrite = d.isWriter i := by
  rw [MemPort.isWrite, Pins.isWriter, h.addr, h.rd, bne, Bool.not_not]

lemma isReader (i : ℕ) : d.isReader i = (!(m.pv i).isPhantom && (m.pv i).rd) := by
  rw [Pins.isReader, MemPort.isPhantom, h.addr, h.en, h.din, h.rd]
  cases d.addr i <;> cases d.din i <;> cases d.enable i <;> rfl

/-- What is beyond the ports that were decoded is no port. -/
lemma isReader_of_size_le {i : ℕ} (hi : m.size ≤ i) : d.isReader i = false := by
  rw [h.isReader, h.empty i hi]
  rfl

lemma nWr : m.nWr = (range d.blocks).countP d.isWriter := by
  have hwr : ∀ i, m.size ≤ i → d.isWriter i = false := by
    intro i hi
    rw [← h.isWrite, h.empty i hi]
    rfl
  rw [countP_range_of_le h.size hwr]
  exact countP_congr fun i _ => by rw [h.isWrite]

/-- The loop over the ports, `i` being the next of them. -/
lemma readPort_eq_some_iff (want j : ℕ) :
    ∀ n i, m.readPort want (range' i n) ((range i).countP d.isReader) = some j ↔
    i ≤ j ∧ j < i + n ∧ d.isReader j = true ∧ d.dout j = want := by
  intro n
  induction n with
  | zero =>
    intro i
    refine ⟨nofun, ?_⟩
    rintro ⟨hle, hlt, -⟩
    exact absurd hlt (not_lt.2 hle)
  | succ n ih =>
    intro i
    have ih := ih (i + 1)
    rw [countP_range_succ] at ih
    have hre := h.isReader i
    rw [range'_succ, readPort]
    have hsk : d.isReader i = false →
        (i + 1 ≤ j ∧ j < i + 1 + n ∧ d.isReader j = true ∧ d.dout j = want ↔
        i ≤ j ∧ j < i + (n + 1) ∧ d.isReader j = true ∧ d.dout j = want) := by
      intro hi
      constructor
      · rintro ⟨hle, hlt, hr⟩
        exact ⟨le_of_succ_le hle, by omega, hr⟩
      · rintro ⟨hle, hlt, hj, hdo⟩
        have hne : i ≠ j := by
          rintro rfl
          rw [hi] at hj
          cases hj
        exact ⟨lt_of_le_of_ne hle hne, by omega, hj, hdo⟩
    cases hph : (m.pv i).isPhantom with
    | true =>
      rw [hph] at hre
      rw [hre] at ih
      rw [← hsk hre]
      exact ih
    | false =>
      rw [if_neg Bool.false_ne_true]
      cases hrd : (m.pv i).rd with
      | false =>
        rw [hph, hrd] at hre
        rw [hre] at ih
        rw [← hsk hre]
        exact ih
      | true =>
        rw [hph, hrd] at hre
        have hdo : m.nWr + (range i).countP d.isReader = d.dout i := by rw [h.nWr, dout]
        have hla : ∀ k, i < k → d.dout i < d.dout k := by
          intro k hk
          have hmo := countP_range_mono d.isReader (show i + 1 ≤ k from hk)
          rw [countP_range_succ, hre] at hmo
          exact Nat.add_lt_add_left hmo _
        rw [hre] at ih
        rw [if_neg (by rw [Bool.not_true]; exact Bool.false_ne_true), hdo]
        split
        next hwa =>
          constructor
          · rintro hij
            cases hij
            exact ⟨le_rfl, by omega, hre, hwa⟩
          · rintro ⟨hle, -, -, hj⟩
            rcases hle.lt_or_eq with hlt | rfl
            · exact absurd (hla j hlt) (by omega)
            · rfl
        next hwa =>
          refine ih.trans ?_
          constructor
          · rintro ⟨hle, hlt, hr⟩
            exact ⟨le_of_succ_le hle, by omega, hr⟩
          · rintro ⟨hle, hlt, hj, hdj⟩
            have hne : i ≠ j := by
              rintro rfl
              exact hwa hdj
            exact ⟨lt_of_le_of_ne hle hne, by omega, hj, hdj⟩

lemma readPort (want j : ℕ) : m.readPort want (range m.size) 0 = some j ↔ d.IsDout j want := by
  have key := h.readPort_eq_some_iff want j m.size 0
  rw [← range_eq_range', zero_add] at key
  refine key.trans ?_
  constructor
  · rintro ⟨-, hlt, hj, hdo⟩
    exact ⟨hlt.trans_le h.size, hj, hdo⟩
  · rintro ⟨-, hj, hdo⟩
    refine ⟨zero_le j, not_le.1 fun hle => ?_, hj, hdo⟩
    rw [h.isReader_of_size_le hle] at hj
    cases hj

lemma mem_written (p : Pin) : p ∈ m.update.toList ++ m.wrCones ↔ d.Written p := by
  have hco : ∀ i, p ∈ (m.pv i).cones ↔
      d.isWriter i = true ∧ (d.addr i = some p ∨ d.din i = some p ∨ d.enable i = some p) := by
    intro i
    rw [MemPort.cones, h.isWrite, h.addr, h.din, h.en]
    split
    next hi => simp only [mem_append, mem_toList, hi, true_and, or_assoc]
    next hi => simp only [not_mem_nil, hi, Bool.false_eq_true, false_and]
  rw [mem_append, wrCones, mem_flatMap, h.update, mem_toList]
  constructor
  · rintro (hp | ⟨i, -, hp⟩)
    · exact .update hp
    · exact .port ((hco i).1 hp).1 ((hco i).1 hp).2
  · rintro (hp | ⟨hi, hp⟩)
    · exact .inl hp
    · refine .inr ⟨_, mem_range.2 (not_le.1 fun hle => ?_), (hco _).2 ⟨hi, hp⟩⟩
      rw [← h.isWrite, h.empty _ hle] at hi
      cases hi

end

lemma exists_pin_of_written {p : Pin} (hp : d.Written p) : ∃ raw, d.pin raw = some p := by
  rcases hp with hp | ⟨-, hp | hp | hp⟩
  · exact ⟨_, hp⟩
  · exact ⟨_, hp⟩
  · exact ⟨_, hp⟩
  · exact ⟨_, hp⟩

/-- All that an output depends on drives a sink. -/
lemma exists_pin_of_mem_deps (h : Decoded d m) {all : List Pin} {pid : ℕ} {p : Pin}
    (hp : p ∈ (m.deps pid true).getD all) :
    p ∈ all ∨ ∃ raw, d.pin raw = some p := by
  have hwr : ∀ c : Bool, p ∈ (if c then m.update.toList ++ m.wrCones else []) →
      ∃ raw, d.pin raw = some p := by
    intro c hp
    split at hp
    · exact exists_pin_of_written ((h.mem_written p).1 hp)
    · cases hp
  rw [deps] at hp
  split at hp
  · exact .inr (hwr _ hp)
  · cases hpo : m.readPort pid (range m.size) 0 with
    | none =>
      rw [hpo] at hp
      exact .inl hp
    | some i =>
      rw [hpo, map_some] at hp
      split at hp
      · rw [h.addr, h.en] at hp
        rcases mem_append.1 hp with hp | hp
        · rcases mem_append.1 hp with hp | hp
          · exact .inr ⟨_, mem_toList.1 hp⟩
          · exact .inr ⟨_, mem_toList.1 hp⟩
        · exact .inr (hwr _ hp)
      · cases hp

/-- An output is that of one port. -/
lemma isDout_unique (h : Decoded d m) {i j pid : ℕ} (hi : d.IsDout i pid)
    (hj : d.IsDout j pid) : i = j :=
  some.inj (((h.readPort pid i).2 hi).symm.trans ((h.readPort pid j).2 hj))

/-- What an output depends on is as documented, apart from the synchronous ports of a mixed
memory. -/
lemma mem_deps (h : Decoded d m) (all : List Pin) {pid : ℕ} (hmi : ¬d.MixedSync pid) (p : Pin) :
    p ∈ (m.deps pid true).getD all ↔ d.Feeds (· ∈ all) pid p := by
  have hcl : (!m.hasClock) = true ↔ ¬d.Clocked := by
    rw [Bool.not_eq_true', ← h.hasClock, Bool.not_eq_true]
  rw [deps]
  split
  next hpid =>
    rw [Bool.and_true]
    constructor
    · intro hp
      split at hp
      next hc => exact .contents hpid (hcl.1 hc) ((h.mem_written p).1 hp)
      next => cases hp
    · rintro (⟨-, hc, hw⟩ | ⟨hne, _⟩ | ⟨hne, _⟩ | ⟨hne, _⟩)
      · rw [if_pos (hcl.2 hc)]
        exact (h.mem_written p).2 hw
      all_goals exact absurd hpid hne
  next hpid =>
    cases hpo : m.readPort pid (range m.size) 0 with
    | none =>
      have hno : ∀ i, ¬d.IsDout i pid := fun i hi =>
        nomatch hpo.symm.trans ((h.readPort pid i).2 hi)
      constructor
      · exact fun hp => .unknown hpid hno hp
      · rintro (⟨heq, _⟩ | ⟨_, hi, _⟩ | ⟨_, hi, _⟩ | ⟨-, -, hp⟩)
        · exact absurd heq hpid
        · exact absurd hi (hno _)
        · exact absurd hi (hno _)
        · exact hp
    | some i =>
      have hi := (h.readPort pid i).1 hpo
      have hsy : d.Synchronous i ↔ m.mtype = 1 := by
        rw [h.mtype]
        refine or_iff_left fun ⟨hth, htwo⟩ => hmi ⟨hpid, i, hi, hth, htwo⟩
      have hsh : (true && (m.fwdNonzero || !m.hasClock)) = true ↔ d.Forwards ∨ ¬d.Clocked := by
        rw [Bool.true_and, Bool.or_eq_true, h.fwdNonzero, hcl]
      rw [map_some]
      constructor
      · intro hp
        split at hp
        next hne =>
          rcases mem_append.1 hp with hp | hp
          · refine .read hpid hi (fun hs => hne (hsy.1 hs)) ?_
            rw [h.addr, h.en] at hp
            exact (mem_append.1 hp).imp mem_toList.1 mem_toList.1
          · split at hp
            next hs =>
              exact .forwarded hpid hi (fun hs => hne (hsy.1 hs)) (hsh.1 hs)
                ((h.mem_written p).1 hp)
            next => cases hp
        next => cases hp
      · rintro (⟨heq, _⟩ | ⟨-, hj, hs, hp⟩ | ⟨-, hj, hs, hfwd, hw⟩ | ⟨-, hno, _⟩)
        · exact absurd heq hpid
        · obtain rfl := h.isDout_unique hi hj
          rw [if_pos fun heq => hs (hsy.2 heq), h.addr, h.en]
          exact mem_append_left _ (mem_append.2 (hp.imp mem_toList.2 mem_toList.2))
        · obtain rfl := h.isDout_unique hi hj
          rw [if_pos fun heq => hs (hsy.2 heq), if_pos (hsh.2 hfwd)]
          exact mem_append_right _ ((h.mem_written p).2 hw)
        · exact absurd hi (hno i)

/-- A synchronous port of a mixed memory depends on nothing. -/
lemma not_feeds (h : Decoded d m) {all : Pin → Prop} {pid : ℕ} (hmi : d.MixedSync pid) (p : Pin) :
    ¬d.Feeds all pid p := by
  obtain ⟨hpid, i, hi, hth, htwo⟩ := hmi
  rintro (⟨heq, _⟩ | ⟨_, hj, hs, _⟩ | ⟨_, hj, hs, _⟩ | ⟨-, hno, _⟩)
  · exact hpid heq
  · obtain rfl := h.isDout_unique hi hj
    exact hs (.inr ⟨hth, htwo⟩)
  · obtain rfl := h.isDout_unique hi hj
    exact hs (.inr ⟨hth, htwo⟩)
  · exact hno i hi

end Decoded

end LiveHD.PortReach
