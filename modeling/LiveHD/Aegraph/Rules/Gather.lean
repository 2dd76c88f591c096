import LiveHD.Aegraph.Rules.Pack

/-!
# Gathered windows

The hand-written rules of `rules/mask.cpp` that find adjacent windows of one word among the
operands of an `And` or an `Or`: a run of single bits is one reduction, shifted windows that
tile are one wider window.
-/

namespace LiveHD.Aegraph

open Option hiding map mem_map
open IntBits List Cell Forall₂ LiveHD.Aegraph.Valuation

/-- An operand that is one bit of a word. -/
structure BitTerm where
  index : ℕ
  source : ClassId
  pos : ℕ

/-- An operand that is a window of a word, shifted left. -/
structure ShiftedWindow where
  index : ℕ
  source : ClassId
  lo : ℕ
  hi : ℕ
  shift : ℕ

def ShiftedWindow.delta (t : ShiftedWindow) : ℤ := t.lo - t.shift

section

variable {σ : Type} (eg : Egraph) (B : Builder σ)

/-- The operands that were not taken. -/
def keepRest (taken : List ℕ) (ops : List Operand) : List Operand :=
  (ops.zipIdx.filter fun o => !taken.contains o.2).map fun o => ⟨0, o.1.cls⟩

def bitTerms : List (Operand × ℕ) → RuleM σ (Option (List BitTerm))
  | [] => pure (some [])
  | (o, i) :: ops =>
    if o.bank ≠ 0 then pure none
    else sliceOf eg o.cls >>= fun s => match s.filter fun s => s.2.2 = s.2.1 + 1 with
      | some s => Option.map (⟨i, s.1, s.2.1⟩ :: ·) <$> bitTerms ops
      | none => bitTerms ops

/-- The first run of consecutive positions that is long enough, source by source as first seen.
A repeated position ends a run. -/
def bitRun (bits : List BitTerm) : Option (List BitTerm) :=
  (bits.map (·.source)).eraseDups.findSome? fun source =>
    let group := bits.filter (·.source == source)
    if group.length < 4 then none
    else ((group.insertionSort fun a b => a.pos ≤ b.pos).splitBy fun a b => b.pos ==
      a.pos + 1).find?
      fun run => 4 ≤ run.length ∧ run.length ≤ 62

/-- Whether every bit of a window of `n` bits is set, or whether some bit is. -/
def runTest (op : NtypeOp) (window : ClassId) (n : ℕ) : RuleM σ ClassId :=
  if op = .and then konst B (2 ^ n - 1) >>= fun ones => make B .eq [⟨0, window⟩, ⟨0, ones⟩]
  else make B .ror [⟨0, window⟩]

def bitRunReduction (root : Root) : RuleM σ (Option Result) :=
  if root.ops.length < 4 ∨ 256 < root.ops.length then pure none
  else bitTerms eg root.ops.zipIdx >>= fun bits => match bits.bind bitRun with
    | some (first :: run) => do
      let n := run.length + 1
      let window ← makeGetMask B first.source first.pos (first.pos + n)
      let test ← runTest B root.op window n
      let c ← makeBank B root.op (⟨0, test⟩ :: keepRest ((first :: run).map (·.index)) root.ops)
      pure (some (.add c))
    | _ => pure none

/-- The window under a `SHL` member, and the amount. -/
def shiftedSlice (c : ClassId) : RuleM σ (Option (ClassId × ℕ × ℕ × ℕ)) :=
  eachMember eg c fun m => match ((eg.enodeOf m).filter (·.op == .shl)).bind fun n =>
      pair n.operands with
    | none => pure none
    | some ab => (fun s => s.bind fun s => (eg.constAmount ab.2 kMaxLaneBit).map fun k => (s.1,
      s.2.1, s.2.2, k)) <$> sliceOf eg ab.1

/-- A bare window is shifted by zero. -/
def windowTerm (i : ℕ) (c : ClassId) :
    RuleM σ (Option ShiftedWindow) := shiftedSlice eg c >>= fun w => match w with
  | some (s, lo, hi, k) => pure (some ⟨i, s, lo, hi, k⟩)
  | none => (fun s => s.map fun s => ⟨i, s.1, s.2.1, s.2.2, 0⟩) <$> sliceOf eg c

def windowTerms : List (Operand × ℕ) → RuleM σ (Option (List ShiftedWindow))
  | [] => pure (some [])
  | (o, i) :: ops =>
    if o.bank ≠ 0 then pure none
    else windowTerm eg i o.cls >>= fun t => Option.map (t.toList ++ ·) <$> windowTerms ops

def ShiftedWindow.key (t : ShiftedWindow) : ℕ ×ₗ ℤ ×ₗ ℕ ×ₗ ℕ :=
  toLex (t.source, toLex (t.delta, toLex (t.shift, t.index)))

/-- Windows of one word that touch, in the word and at their destination. -/
def ShiftedWindow.tiles (a b : ShiftedWindow) : Bool :=
  b.source == a.source && b.delta == a.delta && b.shift == a.shift + (a.hi - a.lo)

/-- The runs of at least two windows. -/
def windowRuns (terms : List ShiftedWindow) : List (List ShiftedWindow) :=
  ((terms.insertionSort fun a b => a.key ≤ b.key).splitBy ShiftedWindow.tiles).filter (2 ≤ ·.length)

def windowWidth (run : List ShiftedWindow) : ℕ := (run.map fun t => t.hi - t.lo).sum

/-- One window for a run. -/
def mergedWindow (run : List ShiftedWindow) : RuleM σ ClassId := match run with
  | [] => konst B 0
  | first :: _ => makeGetMask B first.source first.lo (first.lo + windowWidth run) >>= fun window =>
    if first.shift = 0 then pure window
    else konst B first.shift >>= fun k => make B .shl [⟨0, window⟩, ⟨1, k⟩]

def orShiftedWindows (root : Root) : RuleM σ (Option Result) :=
  if root.ops.length < 2 ∨ 2 ^ 14 < root.ops.length then pure none
  else grantFuel (root.ops.length * 12) >>= fun _ =>
      windowTerms eg root.ops.zipIdx >>= fun terms => match terms with
    | none => pure none
    | some terms =>
      if (windowRuns terms).isEmpty then pure none
      else do
        let merged ← (windowRuns terms).mapM (mergedWindow B)
        let taken := (windowRuns terms).flatten.map (·.index)
        let c ← makeBank B .or (merged.map (⟨0, ·⟩) ++ keepRest taken root.ops)
        pure (some (.add c))

end

/-! ## The bits of an `And` and of an `Or` -/

section

variable {σ : Type} {eg : Egraph} {ρ : Valuation eg} {B : Builder σ}

/-- Bit `q` of a class is set. -/
def Valuation.Bit (ρ : Valuation eg) (c : ClassId)
    (q : ℕ) : Prop := ∃ x, ρ.val c = some x ∧ x.testBit q = true

variable {x : ℤ}

lemma Valuation.bit_iff {c : ClassId} (h : ρ.val c = some x) (q : ℕ) : ρ.Bit c q ↔
    x.testBit q = true := by
  constructor
  · rintro ⟨y, hy, hbit⟩
    cases (h.symm.trans hy)
    exact hbit
  · intro hbit
    exact ⟨x, h, hbit⟩

/-- Operands that all have a value. -/
def Valuation.Known (ρ : Valuation eg)
    (ops : List Operand) : Prop := ∀ o ∈ ops, ∃ x, ρ.val o.cls = some x

variable {ops : List Operand}

lemma Valuation.Known.reads (h : ρ.Known ops) : ∃ l, ρ.Reads ops l := by
  induction ops with
  | nil => exact ⟨[], .nil⟩
  | cons o ops ih =>
    obtain ⟨⟨x, hx⟩, hops⟩ := forall_mem_cons.1 h
    obtain ⟨l, hl⟩ := ih hops
    exact ⟨(o.bank, x) :: l, .cons ⟨rfl, hx⟩ hl⟩

variable {l : List (ℕ × ℤ)}

lemma Valuation.Reads.known (h : ρ.Reads ops l) : ρ.Known ops := by
  intro o ho
  obtain ⟨a, -, ha⟩ := Forall₂.exists_of_mem_left h ho
  exact ⟨a.2, ha.2⟩

lemma Valuation.Reads.exists_bit (h : ρ.Reads ops l) (q : ℕ) : (∃ a ∈ l, a.2.testBit q = true) ↔
    ∃ o ∈ ops, ρ.Bit o.cls q := by
  constructor
  · rintro ⟨a, ha, hbit⟩
    obtain ⟨o, ho, hoa⟩ := Forall₂.exists_of_mem_right h ha
    exact ⟨o, ho, a.2, hoa.2, hbit⟩
  · rintro ⟨o, ho, x, hx, hbit⟩
    obtain ⟨a, ha, hoa⟩ := exists_of_mem_left h ho
    cases (hx.symm.trans hoa.2)
    exact ⟨a, ha, hbit⟩

lemma Valuation.Reads.forall_bit (h : ρ.Reads ops l) (q : ℕ) : (∀ a ∈ l, a.2.testBit q = true) ↔
    ∀ o ∈ ops, ρ.Bit o.cls q := by
  constructor
  · intro hall o ho
    obtain ⟨a, ha, hoa⟩ := Forall₂.exists_of_mem_left h ho
    exact ⟨a.2, hoa.2, hall a ha⟩
  · intro hall a ha
    obtain ⟨o, ho, hoa⟩ := exists_of_mem_right h ha
    exact (ρ.bit_iff hoa.2 q).1 (hall o ho)

variable {v : ℤ}

/-- An `Or` is known when its operands are, and has the bits of all of them. -/
lemma evalOp_or_iff : Cell.evalOp .or (ρ.args ops) = some v ↔
    ρ.Known ops ∧ ∀ q, v.testBit q = true ↔ ∃ o ∈ ops, ρ.Bit o.cls q := by
  have hev : ∀ l, ρ.Reads ops l →
      Cell.evalOp .or (ρ.args ops) = some ((l.map (·.2)).foldr Int.lor 0) :=
    fun l hl => hl.evalOp rfl
  have hb : ∀ l, ρ.Reads ops l → ∀ q, ((l.map (·.2)).foldr Int.lor 0).testBit q = true ↔
      ∃ o ∈ ops, ρ.Bit o.cls q := by
    intro l hl q
    rw [testBit_foldr_lor, ← hl.exists_bit q]
    simp
  constructor
  · intro h
    obtain ⟨l, hl, hlv⟩ := ρ.exists_reads .or rfl h
    cases hlv
    exact ⟨hl.known, hb l hl⟩
  · rintro ⟨hknown, hv⟩
    obtain ⟨l, hl⟩ := hknown.reads
    rw [hev l hl]
    exact congrArg some (ext fun q => Bool.eq_iff_iff.2 ((hb l hl q).trans (hv q).symm))

/-- An `And` is known when its operands are, and has the bits that all of them have. -/
lemma evalOp_and_iff : Cell.evalOp .and (ρ.args ops) = some v ↔
    ρ.Known ops ∧ ∀ q, v.testBit q = true ↔ ∀ o ∈ ops, ρ.Bit o.cls q := by
  have hev : ∀ l, ρ.Reads ops l →
      Cell.evalOp .and (ρ.args ops) = some ((l.map (·.2)).foldr Int.land (-1)) :=
    fun l hl => hl.evalOp rfl
  have hb : ∀ l, ρ.Reads ops l → ∀ q, ((l.map (·.2)).foldr Int.land (-1)).testBit q = true ↔
      ∀ o ∈ ops, ρ.Bit o.cls q := by
    intro l hl q
    rw [testBit_foldr_land, ← hl.forall_bit q]
    simp
  constructor
  · intro h
    obtain ⟨l, hl, hlv⟩ := ρ.exists_reads .and rfl h
    cases hlv
    exact ⟨hl.known, hb l hl⟩
  · rintro ⟨hknown, hv⟩
    obtain ⟨l, hl⟩ := hknown.reads
    rw [hev l hl]
    exact congrArg some (ext fun q => Bool.eq_iff_iff.2 ((hb l hl q).trans (hv q).symm))

/-! ## Operands taken by their index -/

variable {o : Operand}

lemma mem_zipIdx_unique {o' : Operand} {i : ℕ} (h : (o, i) ∈ ops.zipIdx)
    (h' : (o', i) ∈ ops.zipIdx) : o = o' := by
  rw [mem_zipIdx_iff_getElem?] at h h'
  exact Option.some.inj (h.symm.trans h')

lemma mem_of_mem_zipIdx {i : ℕ} (h : (o, i) ∈ ops.zipIdx) : o ∈ ops := by
  rw [mem_zipIdx_iff_getElem?] at h
  exact mem_of_getElem? h

lemma mem_keepRest {taken : List ℕ} : o ∈ keepRest taken ops ↔
    ∃ o' i, (o', i) ∈ ops.zipIdx ∧ i ∉ taken ∧ o = ⟨0, o'.cls⟩ := by
  simp only [keepRest, mem_map, mem_filter, Bool.not_eq_true', contains_eq_mem,
    decide_eq_false_iff_not, Prod.exists]
  constructor
  · rintro ⟨o', i, ⟨hmem, hi⟩, rfl⟩
    exact ⟨o', i, hmem, hi, rfl⟩
  · rintro ⟨o', i, hmem, hi, rfl⟩
    exact ⟨o', i, ⟨hmem, hi⟩, rfl⟩

section

variable (P : ClassId → Prop) (taken : List ℕ) (ops : List Operand)

/-- An operand is taken or kept. -/
lemma exists_operand_iff : (∃ o ∈ ops, P o.cls) ↔
    (∃ o i, (o, i) ∈ ops.zipIdx ∧ i ∈ taken ∧ P o.cls) ∨ ∃ o ∈ keepRest taken ops, P o.cls := by
  constructor
  · rintro ⟨o, ho, hP⟩
    obtain ⟨i, hget⟩ := getElem?_of_mem ho
    have hi : (o, i) ∈ ops.zipIdx := mem_zipIdx_iff_getElem?.2 hget
    by_cases hta : i ∈ taken
    · exact .inl ⟨o, i, hi, hta, hP⟩
    · exact .inr ⟨⟨0, o.cls⟩, mem_keepRest.2 ⟨o, i, hi, hta, rfl⟩, hP⟩
  · rintro (⟨o, i, hi, -, hP⟩ | ⟨o, ho, hP⟩)
    · exact ⟨o, mem_of_mem_zipIdx hi, hP⟩
    · obtain ⟨o', i, hi, -, rfl⟩ := mem_keepRest.1 ho
      exact ⟨o', mem_of_mem_zipIdx hi, hP⟩

lemma forall_operand_iff : (∀ o ∈ ops, P o.cls) ↔
    (∀ o i, (o, i) ∈ ops.zipIdx → i ∈ taken → P o.cls) ∧ ∀ o ∈ keepRest taken ops, P o.cls := by
  have h := not_congr (exists_operand_iff (fun c => ¬P c) taken ops)
  push Not at h
  exact h

end

lemma Valuation.Known.keepRest (h : ρ.Known ops) (taken : List ℕ) :
    ρ.Known (keepRest taken ops) := by
  intro o ho
  obtain ⟨o', i, hi, -, rfl⟩ := mem_keepRest.1 ho
  exact h o' (mem_of_mem_zipIdx hi)

/-! ## A run of bits -/

/-- A term reads the operand at its index. -/
def BitTerm.Reads (ρ : Valuation eg) (ops : List (Operand × ℕ)) (t : BitTerm) : Prop :=
  ∃ o, (o, t.index) ∈ ops ∧ ∀ v, ρ.val o.cls = some v →
    ∃ x, ρ.val t.source = some x ∧ v = window x t.pos 1

lemma BitTerm.Reads.cons {ops : List (Operand × ℕ)} {t : BitTerm} (h : t.Reads ρ ops)
    (o : Operand × ℕ) : t.Reads ρ (o :: ops) := by
  obtain ⟨o', ho', hval⟩ := h
  exact ⟨o', .tail _ ho', hval⟩

lemma bitTerms_keeps (ops : List (Operand × ℕ)) :
    Keeps (Run.Sound (σ := σ) ρ) (bitTerms eg ops) fun r =>
    ∀ bits, r = some bits → ∀ t ∈ bits, t.Reads ρ ops := by
  induction ops with
  | nil =>
    refine .pure fun bits hb => ?_
    cases hb
    nofun
  | cons o ops ih =>
    obtain ⟨o, i⟩ := o
    refine .ite (fun _ => .pure nofun) fun _ => .bind (sliceOf_keeps o.cls) fun s hs => ?_
    split
    next s' hs' =>
      obtain ⟨rfl, hbit⟩ := filter_eq_some_iff.1 hs'
      refine .map ih fun r hr bits hb t ht => ?_
      obtain ⟨bits', rfl, rfl⟩ := map_eq_some_iff.1 hb
      rcases mem_cons.1 ht with rfl | ht
      · refine ⟨o, .head _, fun v hv => ?_⟩
        obtain ⟨-, hwin⟩ := hs s'.1 s'.2.1 s'.2.2 rfl
        obtain ⟨x, hx, rfl⟩ := hwin v hv
        rw [of_decide_eq_true hbit, Nat.add_sub_cancel_left]
        exact ⟨x, hx, rfl⟩
      · exact (hr bits' rfl t ht).cons _
    · exact ih.mono fun r hr bits hb t ht => (hr bits hb t ht).cons _

variable {run : List BitTerm}

/-- The positions of a run are consecutive. -/
lemma map_pos_of_isChain {first : BitTerm}
    (h : (first :: run).IsChain fun a b => (b.pos == a.pos + 1) = true) :
    (first :: run).map (·.pos) = List.range' first.pos (run.length + 1) := by
  induction run generalizing first with
  | nil => rfl
  | cons next run ih =>
    obtain ⟨hn, hrun⟩ := isChain_cons_cons.1 h
    rw [map_cons, ih hrun, beq_iff_eq.1 hn]
    rfl

lemma bitRun_spec {bits : List BitTerm} {first : BitTerm}
    (h : bitRun bits = some (first :: run)) :
    (∀ t ∈ first :: run, t ∈ bits ∧ t.source = first.source) ∧
      (first :: run).map (·.pos) = List.range' first.pos (run.length + 1) := by
  obtain ⟨source, -, hsrc⟩ := exists_of_findSome?_eq_some h
  dsimp only at hsrc
  split at hsrc
  · cases hsrc
  have hmem := mem_of_find?_eq_some hsrc
  refine ⟨?_, map_pos_of_isChain (isChain_of_mem_splitBy hmem)⟩
  have hgr : ∀ t ∈ first :: run, t ∈ bits ∧ t.source = source := by
    intro t ht
    have hfl := mem_flatten.2 ⟨_, hmem, ht⟩
    rwa [flatten_splitBy, mem_insertionSort, mem_filter, beq_iff_eq] at hfl
  intro t ht
  exact ⟨(hgr t ht).1, (hgr t ht).2.trans (hgr first (.head _)).2.symm⟩

/-- The bit of a term, when the operands are known. -/
lemma BitTerm.Reads.bit (hknown : ρ.Known ops) {t : BitTerm} (h : t.Reads ρ ops.zipIdx)
    (hx : ρ.val t.source = some x) : ∃ o, (o, t.index) ∈ ops.zipIdx ∧ ∀ q, ρ.Bit o.cls q ↔
    q = 0 ∧ x.testBit t.pos = true := by
  obtain ⟨o, ho, hval⟩ := h
  refine ⟨o, ho, fun q => ?_⟩
  obtain ⟨v, hv⟩ := hknown o (mem_of_mem_zipIdx ho)
  obtain ⟨x', hx', rfl⟩ := hval v hv
  cases (hx.symm.trans hx')
  rw [ρ.bit_iff hv, testBit_window, Bool.and_eq_true, decide_eq_true_eq, Nat.lt_one_iff]
  constructor
  · rintro ⟨rfl, hbit⟩
    exact ⟨rfl, hbit⟩
  · rintro ⟨rfl, hbit⟩
    exact ⟨rfl, hbit⟩

variable {lo : ℕ} {source : ClassId} {n : ℕ}

section

variable (hknown : ρ.Known ops) (hx : ρ.val source = some x)
  (hrun : ∀ t ∈ run, t.Reads ρ ops.zipIdx ∧ t.source = source)
  (hpos : run.map (·.pos) = List.range' lo n) (q : ℕ)
include hknown hx hrun hpos q

/-- The bits of the taken operands are the bits of the window. -/
lemma exists_taken_iff (P : Prop → Prop) :
    (∃ o i, (o, i) ∈ ops.zipIdx ∧ i ∈ run.map (·.index) ∧ P (ρ.Bit o.cls q)) ↔
      ∃ j < n, P (q = 0 ∧ x.testBit (lo + j) = true) := by
  constructor
  · rintro ⟨o, i, ho, hi, hP⟩
    obtain ⟨t, ht, rfl⟩ := mem_map.1 hi
    obtain ⟨hrd, hsrc⟩ := hrun t ht
    obtain ⟨o', ho', hbit⟩ := hrd.bit hknown (hsrc ▸ hx)
    obtain rfl := mem_zipIdx_unique ho ho'
    have hmem := hpos ▸ mem_map_of_mem ht
    rw [mem_range'_1] at hmem
    refine ⟨t.pos - lo, by omega, ?_⟩
    rwa [Nat.add_sub_cancel' hmem.1, ← propext (hbit q)]
  · rintro ⟨j, hj, hP⟩
    have hmem : lo + j ∈ run.map (·.pos) := hpos ▸ mem_range'_1.2 ⟨by omega, by omega⟩
    obtain ⟨t, ht, hpos⟩ := mem_map.1 hmem
    obtain ⟨hrd, hsrc⟩ := hrun t ht
    obtain ⟨o, ho, hbit⟩ := hrd.bit hknown (hsrc ▸ hx)
    refine ⟨o, t.index, ho, mem_map_of_mem ht, ?_⟩
    rwa [propext (hbit q), hpos]

lemma forall_taken_iff : (∀ o i, (o, i) ∈ ops.zipIdx → i ∈ run.map (·.index) → ρ.Bit o.cls q) ↔
      ∀ j < n, q = 0 ∧ x.testBit (lo + j) = true := by
  have h := not_congr (exists_taken_iff hknown hx hrun hpos q Not)
  push Not at h
  exact h

end

lemma testBit_flag (b : Bool) (q : ℕ) : (Cell.flag b).testBit q = true ↔ q = 0 ∧ b = true := by
  cases b with
  | false => simp [flag]
  | true =>
    have hone : (1 : ℤ).testBit q = decide (q < 1) := testBit_mask 1 q
    simp [flag, hone]

/-- A window with every bit set. -/
lemma window_eq_mask : window x lo n = 2 ^ n - 1 ↔ ∀ j < n, x.testBit (lo + j) = true := by
  constructor
  · intro h j hj
    have hbit := testBit_window x lo n j
    rw [h, testBit_mask, decide_eq_true hj] at hbit
    exact hbit.symm
  · intro h
    refine ext fun j => ?_
    rw [testBit_window, testBit_mask]
    by_cases hj : j < n
    · simp [h j hj]
    · rw [decide_eq_false hj, Bool.false_and]

lemma window_ne_zero : window x lo n ≠ 0 ↔ ∃ j < n, x.testBit (lo + j) = true := by
  constructor
  · intro h
    by_contra hno
    push Not at hno
    refine h (ext fun j => ?_)
    rw [testBit_window, testBit_zero]
    by_cases hj : j < n
    · rw [decide_eq_true hj]
      exact Bool.eq_false_iff.2 (hno j hj)
    · rw [decide_eq_false hj, Bool.false_and]
  · rintro ⟨j, hj, hbit⟩ h0
    have hwin := testBit_window x lo n j
    rw [h0, testBit_zero, decide_eq_true hj, hbit] at hwin
    cases hwin

section

variable (hB : B.Lawful ρ)
include hB

section

variable {window : ClassId} {w : ℤ} (hw : ρ.val window = some w) (n : ℕ)
include hw

lemma runTest_and_keeps :
    Keeps (Run.Sound ρ) (runTest B .and window n) fun c =>
    ρ.val c = some (Cell.flag (decide (w = 2 ^ n - 1))) := by
  refine .bind (konst_keeps hB _) fun ones hon => (make_keeps hB _ _).mono fun c hc => hc _ ?_
  simp [args, hw, hon, evalOp_eq]

lemma runTest_or_keeps : Keeps (Run.Sound ρ) (runTest B .or window n) fun c =>
    ρ.val c = some (Cell.flag (w != 0)) := by
  refine (make_keeps hB _ _).mono fun c hc => hc _ ?_
  rw [args, map_cons, hw]
  simp

end

/-- The test of a run stands for the operands of the run. -/
lemma runTest_keeps {op : NtypeOp} (hop : op = .and ∨ op = .or)
    (hr : Cell.evalOp op (ρ.args ops) = some v) (hn : 0 < n)
    (hx : ρ.val source = some x) (hrun : ∀ t ∈ run, t.Reads ρ ops.zipIdx ∧ t.source = source)
    (hpos : run.map (·.pos) = List.range' lo n) {win : ClassId}
    (hwin : ρ.val win = some (window x lo n)) :
    Keeps (Run.Sound ρ) (runTest B op win n) fun c =>
      Cell.evalOp op (ρ.args (⟨0, c⟩ :: keepRest (run.map (·.index)) ops)) = some v := by
  rcases hop with rfl | rfl
  · obtain ⟨hknown, hb⟩ := evalOp_and_iff.1 hr
    refine (runTest_and_keeps hB hwin n).mono fun c hc => evalOp_and_iff.2 ⟨?_, fun q => ?_⟩
    · exact forall_mem_cons.2 ⟨⟨_, hc⟩, hknown.keepRest _⟩
    rw [hb q, forall_operand_iff (ρ.Bit · q) (run.map (·.index)) ops, forall_mem_cons, ρ.bit_iff hc,
      testBit_flag, decide_eq_true_eq, window_eq_mask, forall_taken_iff hknown hx hrun hpos q]
    refine and_congr_left fun _ =>
      ⟨fun h => ⟨(h 0 hn).1, fun j hj => (h j hj).2⟩, fun h j hj => ⟨h.1, h.2 j hj⟩⟩
  · obtain ⟨hknown, hb⟩ := evalOp_or_iff.1 hr
    refine (runTest_or_keeps hB hwin n).mono fun c hc => evalOp_or_iff.2 ⟨?_, fun q => ?_⟩
    · exact forall_mem_cons.2 ⟨⟨_, hc⟩, hknown.keepRest _⟩
    rw [hb q, exists_operand_iff (ρ.Bit · q) (run.map (·.index)) ops,
      exists_mem_cons_iff, ρ.bit_iff hc,
      testBit_flag, bne_iff_ne, window_ne_zero, exists_taken_iff hknown hx hrun hpos q fun p => p]
    refine or_congr_left ⟨?_, ?_⟩
    · rintro ⟨j, hj, hq, hbit⟩
      exact ⟨hq, j, hj, hbit⟩
    · rintro ⟨hq, j, hj, hbit⟩
      exact ⟨j, hj, hq, hbit⟩

lemma bitRunReduction_keeps {root : Root} (hop : root.op = .and ∨ root.op = .or)
    (hr : Cell.evalOp root.op (ρ.args root.ops) = some v) :
    Keeps (Run.Sound ρ) (bitRunReduction eg B root) (Replaces ρ v) := by
  refine .ite (fun _ => keeps_none) fun _ => .bind (bitTerms_keeps _) fun bits hb => ?_
  split
  swap
  · exact keeps_none
  rename_i first run hfi
  obtain ⟨bits, rfl, hf⟩ := bind_eq_some_iff.1 hfi
  obtain ⟨hmem, hpos⟩ := bitRun_spec hf
  have hrun : ∀ t ∈ first :: run, t.Reads ρ root.ops.zipIdx ∧ t.source = first.source :=
    fun t ht => ⟨hb bits rfl t (hmem t ht).1, (hmem t ht).2⟩
  have hknown : ρ.Known root.ops := by
    rcases hop with hop | hop
    · exact (evalOp_and_iff.1 (hop ▸ hr)).1
    · exact (evalOp_or_iff.1 (hop ▸ hr)).1
  -- the source of the run has a value because the operands do
  obtain ⟨x, hx⟩ : ∃ x, ρ.val first.source = some x := by
    obtain ⟨o, ho, hval⟩ := (hrun first (.head _)).1
    obtain ⟨y, hy⟩ := hknown o (mem_of_mem_zipIdx ho)
    obtain ⟨x, hx, -⟩ := hval y hy
    exact ⟨x, hx⟩
  have hlt : first.pos < first.pos + (run.length + 1) := by omega
  refine .bind (makeGetMask_keeps hB first.source hlt) fun win hwin => ?_
  have hw := hwin x hx
  rw [Nat.add_sub_cancel_left] at hw
  refine .bind (runTest_keeps hB hop hr run.length.succ_pos hx hrun hpos hw) fun test hte => ?_
  have hba : isBank root.op = true := by
    rcases hop with hop | hop <;> rw [hop] <;> rfl
  refine .bind (makeBank_keeps hB hba _) fun c hc => .pure fun res hres => ?_
  cases hres
  exact hc v hte

end

/-! ## Shifted windows -/

def ShiftedWindow.value (t : ShiftedWindow) (x : ℤ) : ℤ := window x t.lo (t.hi - t.lo) * 2 ^ t.shift

/-- A term reads the operand at its index. -/
def ShiftedWindow.Reads (ρ : Valuation eg) (ops : List (Operand × ℕ)) (t : ShiftedWindow) : Prop :=
  t.lo < t.hi ∧ ∃ o, (o, t.index) ∈ ops ∧ ∀ v, ρ.val o.cls = some v →
    ∃ x, ρ.val t.source = some x ∧ v = t.value x

lemma shiftedSlice_keeps (c : ClassId) : Keeps (Run.Sound (σ := σ) ρ) (shiftedSlice eg c) fun r =>
    ∀ s lo hi k, r = some (s, lo, hi, k) → lo < hi ∧ ∀ v, ρ.val c = some v →
      ∃ x, ρ.val s = some x ∧ v = window x lo (hi - lo) * 2 ^ k := by
  refine (eachMember_keeps (P := fun m r => r.2.1 < r.2.2.1 ∧ ∀ v, ρ.val m = some v →
      ∃ x, ρ.val r.1 = some x ∧ v = window x r.2.1 (r.2.2.1 - r.2.1) * 2 ^ r.2.2.2)
        fun m => ?_).mono ?_
  · split
    · exact .pure nofun
    rename_i ab hab
    obtain ⟨⟨op, ops⟩, hn, hpa⟩ := bind_eq_some_iff.1 hab
    obtain ⟨hn, hop⟩ := filter_eq_some_iff.1 hn
    obtain rfl : op = .shl := beq_iff_eq.1 hop
    refine .map (sliceOf_keeps ab.1) fun s hs r hr => ?_
    obtain ⟨s', rfl, hr⟩ := bind_eq_some_iff.1 hr
    obtain ⟨k, hk, rfl⟩ := map_eq_some_iff.1 hr
    obtain ⟨hlt, hwin⟩ := hs s'.1 s'.2.1 s'.2.2 rfl
    refine ⟨hlt, fun v hv => ?_⟩
    have hval := (ρ.enodeOf hn).symm.trans hv
    rw [pair_eq hpa] at hval
    obtain ⟨y, hy, rfl⟩ := shl_val (constAmount_eq hk).1 hval
    obtain ⟨x, hx, rfl⟩ := hwin y hy
    exact ⟨x, hx, rfl⟩
  · intro r hr s lo hi k hs
    obtain ⟨m, hm, hlt, hval⟩ := hr _ hs
    exact ⟨hlt, fun v hv => hval v (hm.trans hv)⟩

lemma windowTerm_keeps (o : Operand) (i : ℕ) :
    Keeps (Run.Sound (σ := σ) ρ) (windowTerm eg i o.cls) fun r =>
    ∀ t, r = some t → t.Reads ρ [(o, i)] := by
  refine .bind (shiftedSlice_keeps o.cls) fun w hw => ?_
  split
  next s lo hi k =>
    obtain ⟨hlt, hval⟩ := hw s lo hi k rfl
    refine .pure fun t ht => ?_
    cases ht
    exact ⟨hlt, o, mem_singleton_self _, hval⟩
  · refine .map (sliceOf_keeps o.cls) fun s hs t ht => ?_
    obtain ⟨s', rfl, rfl⟩ := map_eq_some_iff.1 ht
    obtain ⟨hlt, hwin⟩ := hs s'.1 s'.2.1 s'.2.2 rfl
    refine ⟨hlt, o, mem_singleton_self _, fun v hv => ?_⟩
    obtain ⟨x, hx, rfl⟩ := hwin v hv
    exact ⟨x, hx, by simp [ShiftedWindow.value]⟩

lemma ShiftedWindow.Reads.mono {ops ops' : List (Operand × ℕ)}
    {t : ShiftedWindow} (h : t.Reads ρ ops)
    (hsub : ops ⊆ ops') : t.Reads ρ ops' := by
  obtain ⟨hlt, o, ho, hval⟩ := h
  exact ⟨hlt, o, hsub ho, hval⟩

lemma windowTerms_keeps (ops : List (Operand × ℕ)) :
    Keeps (Run.Sound (σ := σ) ρ) (windowTerms eg ops) fun r =>
    ∀ terms, r = some terms → ∀ t ∈ terms, t.Reads ρ ops := by
  induction ops with
  | nil =>
    refine .pure fun terms hte => ?_
    cases hte
    nofun
  | cons o ops ih =>
    obtain ⟨o, i⟩ := o
    refine .ite (fun _ => .pure nofun) fun _ => .bind (windowTerm_keeps o i) fun t ht => ?_
    refine .map ih fun r hr terms hte t' ht' => ?_
    obtain ⟨terms', rfl, rfl⟩ := map_eq_some_iff.1 hte
    rcases mem_append.1 ht' with hnew | hold
    · exact (ht t' (mem_toList.1 hnew)).mono (cons_subset_cons _ (nil_subset _))
    · exact (hr terms' rfl t' hold).mono (subset_cons_self _ _)

/-- The destinations of a run tile one range. -/
lemma covers_of_isChain {first : ShiftedWindow} {run : List ShiftedWindow}
    (h : (first :: run).IsChain fun a b => a.tiles b = true) :
    (∀ t ∈ first :: run, t.source = first.source ∧ t.delta = first.delta) ∧ ∀ q,
      (∃ t ∈ first :: run, t.shift ≤ q ∧ q < t.shift + (t.hi - t.lo)) ↔
        first.shift ≤ q ∧ q < first.shift + windowWidth (first :: run) := by
  induction run generalizing first with
  | nil => simp [windowWidth]
  | cons next run ih =>
    obtain ⟨hn, hrun⟩ := isChain_cons_cons.1 h
    simp only [ShiftedWindow.tiles, Bool.and_eq_true, beq_iff_eq] at hn
    obtain ⟨⟨hsrc, hde⟩, hsh⟩ := hn
    obtain ⟨hsa, hco⟩ := ih hrun
    refine ⟨forall_mem_cons.2 ⟨⟨rfl, rfl⟩, fun t ht => ?_⟩, fun q => ?_⟩
    · exact ⟨(hsa t ht).1.trans hsrc, (hsa t ht).2.trans hde⟩
    · have hw : windowWidth (first :: next :: run) =
          (first.hi - first.lo) + windowWidth (next :: run) := by
        simp [windowWidth]
      rw [exists_mem_cons_iff, hco q]
      omega

open ShiftedWindow

lemma ShiftedWindow.testBit_value (t : ShiftedWindow) (x : ℤ) (q : ℕ) :
    (t.value x).testBit q = true ↔
    (t.shift ≤ q ∧ q < t.shift + (t.hi - t.lo)) ∧ x.testBit (t.delta + q).toNat = true := by
  rw [ShiftedWindow.value, testBit_shiftLeft, testBit_window, Bool.and_eq_true,
    Bool.and_eq_true, decide_eq_true_eq,
    decide_eq_true_eq, and_assoc]
  refine and_congr_right fun hle => and_congr (by omega) ?_
  rw [show t.lo + (q - t.shift) = (t.delta + q).toNat by rw [delta]; omega]

/-- The merged window of a run has the bits of the operands of the run. -/
lemma mergedWindow_keeps (hB : B.Lawful ρ) (hknown : ρ.Known ops) {run : List ShiftedWindow}
    (hrd : ∀ t ∈ run, t.Reads ρ ops.zipIdx) (hch : run.IsChain fun a b => a.tiles b = true) :
    Keeps (Run.Sound ρ) (mergedWindow B run) fun c => (∃ z, ρ.val c = some z) ∧ ∀ q,
      ρ.Bit c q ↔ ∃ o i, (o, i) ∈ ops.zipIdx ∧ i ∈ run.map (·.index) ∧ ρ.Bit o.cls q := by
  cases run with
  | nil =>
    refine (konst_keeps hB 0).mono fun c hc => ⟨⟨0, hc⟩, fun q => ?_⟩
    rw [ρ.bit_iff hc]
    simp
  | cons first run =>
    obtain ⟨hsa, hco⟩ := covers_of_isChain hch
    obtain ⟨hlt, o, ho, hval⟩ := hrd first (.head _)
    obtain ⟨y, hy⟩ := hknown o (mem_of_mem_zipIdx ho)
    obtain ⟨x, hx, -⟩ := hval y hy
    -- each operand of the run, bit by bit
    have hbit : ∀ t ∈ first :: run, ∃ o, (o, t.index) ∈ ops.zipIdx ∧ ∀ q, ρ.Bit o.cls q ↔
        (t.shift ≤ q ∧ q < t.shift + (t.hi - t.lo)) ∧ x.testBit (first.delta + q).toNat = true := by
      intro t ht
      obtain ⟨-, o, ho, hval⟩ := hrd t ht
      obtain ⟨v, hv⟩ := hknown o (mem_of_mem_zipIdx ho)
      obtain ⟨x', hx', rfl⟩ := hval v hv
      obtain rfl : x = x' := Option.some.inj (hx.symm.trans ((hsa t ht).1 ▸ hx'))
      exact ⟨o, ho, fun q => by rw [ρ.bit_iff hv, t.testBit_value, (hsa t ht).2]⟩
    have hw : 0 < windowWidth (first :: run) := by
      rw [windowWidth, map_cons, sum_cons]
      omega
    let whole : ShiftedWindow := { first with hi := first.lo + windowWidth (first :: run) }
    have hwh : Keeps (Run.Sound ρ) (mergedWindow B (first :: run)) fun c =>
        ρ.val c = some (whole.value x) := by
      refine .bind (makeGetMask_keeps hB first.source (Nat.lt_add_of_pos_right hw)) fun win hwin =>
        ?_
      refine .ite (fun h0 => .pure ?_) fun _ => .bind (konst_keeps hB first.shift) fun k hk => ?_
      · rw [hwin x hx, value, show whole.shift = 0 from h0, pow_zero, mul_one]
      · refine (make_keeps hB _ _).mono fun c hc => hc _ ?_
        rw [args, map_cons, map_cons, map_nil, hwin x hx, hk, evalOp_shl,
          if_pos (Int.natCast_nonneg _), Int.toNat_natCast]
        rfl
    refine hwh.mono fun c hc => ⟨⟨_, hc⟩, fun q => ?_⟩
    have hr : whole.shift + (whole.hi - whole.lo) = first.shift + windowWidth (first :: run) :=
      congrArg (first.shift + ·) (Nat.add_sub_cancel_left _ _)
    rw [ρ.bit_iff hc, whole.testBit_value, hr, ← hco q]
    constructor
    · rintro ⟨⟨t, ht, hq⟩, hx⟩
      obtain ⟨o, ho, hiff⟩ := hbit t ht
      exact ⟨o, t.index, ho, mem_map_of_mem ht, (hiff q).2 ⟨hq, hx⟩⟩
    · rintro ⟨o, i, ho, hi, hq⟩
      obtain ⟨t, ht, rfl⟩ := mem_map.1 hi
      obtain ⟨o', ho', hiff⟩ := hbit t ht
      obtain rfl := mem_zipIdx_unique ho ho'
      obtain ⟨hq, hx⟩ := (hiff q).1 hq
      exact ⟨⟨t, ht, hq⟩, hx⟩

lemma windowRuns_spec {terms run : List ShiftedWindow} (h : run ∈ windowRuns terms) :
    (∀ t ∈ run, t ∈ terms) ∧ run.IsChain fun a b => a.tiles b = true := by
  obtain ⟨hmem, -⟩ := mem_filter.1 h
  refine ⟨fun t ht => ?_, isChain_of_mem_splitBy hmem⟩
  have hfl := mem_flatten.2 ⟨_, hmem, ht⟩
  rwa [flatten_splitBy, mem_insertionSort] at hfl

lemma orShiftedWindows_keeps (hB : B.Lawful ρ) {root : Root}
    (hr : Cell.evalOp .or (ρ.args root.ops) = some v) :
    Keeps (Run.Sound ρ) (orShiftedWindows eg B root) (Replaces ρ v) := by
  obtain ⟨hknown, hb⟩ := evalOp_or_iff.1 hr
  refine .ite (fun _ => keeps_none) fun _ => .bind (grantFuel_keeps _) fun _ _ => ?_
  refine .bind (windowTerms_keeps _) fun terms hte => ?_
  cases terms with
  | none => exact keeps_none
  | some terms =>
    refine .ite (fun _ => keeps_none) fun _ => ?_
    have hru : ∀ run ∈ windowRuns terms, Keeps (Run.Sound ρ) (mergedWindow B run) fun c =>
        (∃ z, ρ.val c = some z) ∧ ∀ q, ρ.Bit c q ↔
        ∃ o i, (o, i) ∈ root.ops.zipIdx ∧ i ∈ run.map (·.index) ∧ ρ.Bit o.cls q := by
      intro run hrun
      obtain ⟨hmem, hch⟩ := windowRuns_spec hrun
      exact mergedWindow_keeps hB hknown (fun t ht => hte terms rfl t (hmem t ht)) hch
    refine .bind (.mapM hru) fun merged hme => ?_
    refine .bind (makeBank_keeps hB rfl _) fun c hc => .pure fun res hres => ?_
    cases hres
    refine hc v (evalOp_or_iff.2 ⟨?_, fun q => ?_⟩)
    · refine forall_mem_append.2 ⟨fun o ho => ?_, hknown.keepRest _⟩
      obtain ⟨c, hc, rfl⟩ := mem_map.1 ho
      obtain ⟨run, -, hval, -⟩ := exists_of_mem_right hme hc
      exact hval
    · rw [hb q, exists_operand_iff (ρ.Bit · q) ((windowRuns terms).flatten.map (·.index)) root.ops]
      have hmr : (∃ o ∈ merged.map fun c => (⟨0, c⟩ : Operand), ρ.Bit o.cls q) ↔
          ∃ o i, (o, i) ∈ root.ops.zipIdx ∧
          i ∈ (windowRuns terms).flatten.map (·.index) ∧ ρ.Bit o.cls q := by
        constructor
        · rintro ⟨o, ho, hbit⟩
          obtain ⟨c, hc, rfl⟩ := mem_map.1 ho
          obtain ⟨run, hrun, -, hiff⟩ := exists_of_mem_right hme hc
          obtain ⟨o, i, hoi, hi, hbit⟩ := (hiff q).1 hbit
          obtain ⟨t, ht, rfl⟩ := mem_map.1 hi
          exact ⟨o, t.index, hoi, mem_map_of_mem (mem_flatten.2 ⟨run, hrun, ht⟩), hbit⟩
        · rintro ⟨o, i, hoi, hi, hbit⟩
          obtain ⟨t, ht, rfl⟩ := mem_map.1 hi
          obtain ⟨run, hrun, ht⟩ := mem_flatten.1 ht
          obtain ⟨c, hc, -, hiff⟩ := exists_of_mem_left hme hrun
          exact ⟨⟨0, c⟩, mem_map_of_mem hc, (hiff q).2 ⟨o, t.index, hoi, mem_map_of_mem ht, hbit⟩⟩
      rw [← hmr]
      constructor
      · rintro (⟨o, ho, hbit⟩ | ⟨o, ho, hbit⟩)
        · exact ⟨o, mem_append_left _ ho, hbit⟩
        · exact ⟨o, mem_append_right _ ho, hbit⟩
      · rintro ⟨o, ho, hbit⟩
        rcases mem_append.1 ho with ho | ho
        · exact .inl ⟨o, ho, hbit⟩
        · exact .inr ⟨o, ho, hbit⟩

end

end LiveHD.Aegraph
