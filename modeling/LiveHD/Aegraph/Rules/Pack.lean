import LiveHD.Aegraph.Rules.Window

/-!
# Packed words

The hand-written rules of `rules/mask.cpp` that rebuild a `Concat`: a window over several
lanes, an `Or` of disjoint fields, a write over a pack, and the clean-ups of a lane list.
-/

namespace LiveHD.Aegraph

open Cell hiding concat width
open IntBits List Option Int

section

variable {σ : Type} (eg : Egraph) (B : Builder σ)

/-- The operands of a `Concat` from pin `i` on: lane by lane, the value and then its width. -/
def concatOperands : ℕ → List (RuleM σ ClassId × ℕ) → RuleM σ (List Operand)
  | _, [] => pure []
  | i, (value, width) :: lanes => do
    let v ← value
    let w ← konst B width
    let ops ← concatOperands (i + 2) lanes
    pure (⟨i, v⟩ :: ⟨i + 1, w⟩ :: ops)

def makeConcat (lanes : List (RuleM σ ClassId × ℕ)) : RuleM σ ClassId :=
  concatOperands B 0 lanes >>= make B .concat

/-- The pieces of the lanes below bit `top` that the window `[lo, hi)` touches. -/
def straddlePieces (lo hi : ℕ) : ℕ → List (ClassId × ℕ) → List (RuleM σ ClassId × ℕ)
  | _, [] => []
  | top, (value, width) :: lanes =>
    let off := top - width
    let a := max lo off
    let b := min hi (off + width)
    if b ≤ a then straddlePieces lo hi off lanes
    else (if a = off ∧ b = off + width then pure value
      else makeGetMask B value (a - off) (b - off), b - a) ::
      straddlePieces lo hi off lanes

/-- The re-packed window; the pieces are built before the rule knows whether it applies. -/
def straddleWindow (x : ClassId) (lo hi : ℕ) (lanes : List (ClassId × ℕ)) :
    RuleM σ (Option Result) :=
  let pieces := straddlePieces B lo hi (lanesWidth lanes) lanes
  concatOperands B 0 pieces >>= fun ops =>
    if pieces.length < 2 ∨ lanesWidth lanes < hi then pure none
    else do
      let narrowed ← make B .concat ops
      let single ← singleUse B x
      pure (some (if single = true ∨ 64 < lanes.length ∧ 2 * pieces.length ≤ lanes.length then
        .subsume narrowed
        else .add narrowed))

def getmaskConcatStraddle (root : Root) : RuleM σ (Option Result) :=
  match getMaskWindow eg root.ops with
  | none => pure none
  | some (x, lo, hi) => memberNode eg x (·.op == .concat) >>= fun concat => match concat with
    | none => pure none
    | some n =>
      if n.operands.length < 4 ∨ 2 * 4096 < n.operands.length then pure none
      else match eg.concatLanes kMaxLaneBit 0 n.operands with
        | none => pure none
        | some lanes => straddleWindow B x lo hi lanes

/-- The shifted class and the amount of a `SHL` member, or the class itself. -/
def shiftedField (c : ClassId) : RuleM σ (ClassId × ℕ) := (fun r => r.getD (c, 0)) <$>
    memberSome eg c fun n =>
  if n.op = .shl then (pair n.operands).bind fun ab =>
  (eg.constAmount ab.2 kMaxLaneBit).map fun k => (ab.1, k) else none

/-- A field of a packed `Or`. -/
structure Field where
  value : ClassId
  lo : ℕ
  width : ℕ

/-- A value whose carrier may be wider than its width keeps the lane boundary as a window. -/
def carried (value : ClassId) (w : ℕ) : RuleM σ ClassId :=
  ask (storageUnsignedBits eg value) >>= fun storage =>
  if storage.any (decide <| · ≤ w) then pure value else makeGetMask B value 0 w

/-- The fields of an `Or`; a field that is provably zero is dropped. -/
def orFields : List Operand → RuleM σ (Option (List Field))
  | [] => pure (some [])
  | o :: ops =>
    if o.bank ≠ 0 then pure none
    else shiftedField eg o.cls >>= fun f =>
        ask (unsignedBits eg f.1) >>= fun bits => match bits with
      | none => pure none
      | some w =>
        if kMaxLaneBit < (f.2 + w : ℕ) then pure none
        else if w = 0 then orFields ops
        else carried eg B f.1 w >>= fun value => Option.map (⟨value, f.2, w⟩ :: ·) <$> orFields ops

def sortByLo (fields : List Field) : List Field := fields.insertionSort fun a b => a.lo ≤ b.lo

/-- The lanes of fields in ascending order from bit `pos` on, least significant first; gaps are zero
lanes. -/
def fieldPack : ℕ → List Field → RuleM σ (Option (List (ClassId × ℕ)))
  | _, [] => pure (some [])
  | pos, f :: fields =>
    if f.lo < pos then pure none
    else if pos < f.lo then konst B 0 >>= fun z =>
      Option.map ([(z, f.lo - pos), (f.value, f.width)] ++ ·) <$> fieldPack (f.lo + f.width) fields
    else Option.map ((f.value, f.width) :: ·) <$> fieldPack (f.lo + f.width) fields

/-- Lanes whose values are there. -/
def laneActs (lanes : List (ClassId × ℕ)) :
    List (RuleM σ ClassId × ℕ) := lanes.map fun l => (pure l.1, l.2)

def orPackToConcat (root : Root) : RuleM σ (Option Result) :=
  if root.ops.length < 3 ∨ 1024 < root.ops.length then pure none
  else do
    grantFuel (root.ops.length * 8)
    let fields ← orFields eg B root.ops
    match fields with
    | none => pure none
    | some fields =>
      if fields.length < 3 then pure none
      else fieldPack B 0 (sortByLo fields) >>= fun lanes => match lanes with
        | none => pure none
        | some lanes => (fun c => some (.add c)) <$> makeConcat B (laneActs lanes.reverse)

/-- A lane of a pack being rebuilt. -/
structure PackLane where
  value : ClassId
  lo : ℕ
  width : ℕ

/-- The lanes of a `Concat`, least significant first; `off` is the width of the lanes. -/
def packLanes : ℕ → List (ClassId × ℕ) → List PackLane
  | _, [] => []
  | off, (c, w) :: lanes => packLanes (off - w) lanes ++ [⟨c, off - w, w⟩]

/-- The lanes a `Set_mask` base can be read as: zero, a `Concat`, or a value below the window. -/
def packLanesOf (base : ClassId) (low : ℕ) : RuleM σ (Option (List PackLane)) :=
  if isInt eg base 0 then pure (some [])
  else memberNode eg base (·.op == .concat) >>= fun concat => match concat with
    | some n =>
      if n.operands.isEmpty = true ∨ 128 < n.operands.length then pure none
      else pure ((eg.concatLanes kMaxLaneBit 0 n.operands).map fun lanes => packLanes
        (lanesWidth lanes) lanes)
    | none => (fun f => if 0 < low ∧ f.fits low = true then some [⟨base, 0, low⟩] else none) <$>
      ask (factsOf eg base)

/-- The lanes after the write of `v` into `[l, h)`: kept below and above, replaced when covered
whole. -/
def writeLanes (l h : ℕ) (v : ClassId) : List PackLane → Bool → ℕ → RuleM σ (Option (List PackLane))
  | [], placed, keptTop =>
    if placed then pure (some [])
    else if keptTop < l then
      -- the window starts above the pack
      (fun z => some [⟨z, keptTop, l - keptTop⟩, ⟨v, l, h - l⟩]) <$> konst B 0
    else pure (some [⟨v, l, h - l⟩])
  | lane :: lanes, placed, keptTop =>
    if lane.lo + lane.width ≤ l then Option.map (lane :: ·) <$>
      writeLanes l h v lanes placed (lane.lo + lane.width)
    else if h ≤ lane.lo then
      Option.map ((if placed then [lane] else [⟨v, l, h - l⟩, lane]) ++ ·) <$>
        writeLanes l h v lanes true keptTop
    else if l ≤ lane.lo ∧ lane.lo + lane.width ≤ h then writeLanes l h v lanes placed keptTop
    else pure none

/-- The written lane keeps only the low bits of `v`. -/
def writtenValue (l h : ℕ) (v : ClassId) (lane : PackLane) : RuleM σ ClassId :=
  if lane.value = v ∧ lane.lo = l ∧ lane.width = h - l then ask (factsOf eg lane.value) >>= fun f =>
    if f.fits lane.width then pure lane.value else makeGetMask B lane.value 0 lane.width
  else pure lane.value

/-- The base, the window and the value of a `Set_mask` root. -/
def setMaskWindow (ops : List Operand) : Option (ClassId × ℕ × ℕ × ClassId) := match ops with
  | [a, l, h, v] => if a.bank = 0 ∧ l.bank = 2 ∧ h.bank = 3 ∧ v.bank = 4 then do
      let l ← eg.constI64 l.cls
      let h ← eg.constI64 h.cls
      if 0 ≤ l ∧ l < h ∧ h ≤ kMaxLaneBit then some (a.cls, l.toNat, h.toNat, v.cls) else none
    else none
  | _ => none

def setmaskToConcat (root : Root) : RuleM σ (Option Result) :=
  match setMaskWindow eg root.ops with
  | none => pure none
  | some (a, l, h, v) => packLanesOf eg a l >>= fun base => match base with
    | none => pure none
    | some base => writeLanes B l h v base false 0 >>= fun lanes => match lanes with
      | none => pure none
      | some lanes =>
        replaceBy (makeConcat B (lanes.reverse.map
          fun lane => (writtenValue eg B l h v lane, lane.width)))

/-- Leading zero lanes add nothing. -/
def dropZeroLanes : List (ClassId × ℕ) → List (ClassId × ℕ)
  | l :: l' :: lanes => if isInt eg l.1 0 then dropZeroLanes (l' :: lanes) else l :: l' :: lanes
  | lanes => lanes

/-- A leading lane narrower than its window; also whether it changed. -/
def narrowLane : List (ClassId × ℕ) → RuleM σ (List (ClassId × ℕ) × Bool)
  | [] => pure ([], false)
  | l :: lanes => ask (unsignedBits eg l.1) >>= fun bits =>
      match bits.filter (decide <| · < l.2) with
    | none => pure (l :: lanes, false)
    | some bits => (fun storage =>
        if storage.any (decide <| · ≤ max 1 bits) then ((l.1, max 1 bits) :: lanes, true)
          else (l :: lanes, false)) <$>
      ask (storageUnsignedBits eg l.1)

/-- Two adjacent constant lanes as one constant. -/
def mergedConst (hi lo : ClassId × ℕ) : Option ℤ := do
  let ch ← eg.constI64 hi.1
  let cl ← eg.constI64 lo.1
  if hi.2 + lo.2 ≤ 62 then some (ch % 2 ^ hi.2 * 2 ^ lo.2 + cl % 2 ^ lo.2) else none

/-- Two adjacent windows of one source, reassembled in order. -/
def mergedSlice (hi lo : ClassId × ℕ) : RuleM σ (Option (ClassId × ℕ × ℕ)) := do
  let sh ← sliceOf eg hi.1
  let sl ← sliceOf eg lo.1
  pure <| sh.bind fun sh => sl.bind fun sl =>
    if sh.1 = sl.1 ∧ sh.2.1 = sl.2.2 ∧ sh.2.2 - sh.2.1 = hi.2 ∧ sl.2.2 - sl.2.1 = lo.2 then
      some (sh.1, sl.2.1, sh.2.2)
    else none

def mergeLanes : List (ClassId × ℕ) → RuleM σ (List (ClassId × ℕ) × Bool)
  | hi :: lo :: lanes => match mergedConst eg hi lo with
    | some k => konst B k >>= fun c =>
      (fun r => (r.1, true)) <$> mergeLanes ((c, hi.2 + lo.2) :: lanes)
    | none => mergedSlice eg hi lo >>= fun s => match s with
      | some (src, a, b) => makeGetMask B src a b >>= fun c =>
        (fun r => (r.1, true)) <$> mergeLanes ((c, hi.2 + lo.2) :: lanes)
      | none => (fun r => (hi :: r.1, r.2)) <$> mergeLanes (lo :: lanes)
  | lanes => pure (lanes, false)
termination_by lanes => lanes.length

def concatLanesRule (root : Root) : RuleM σ (Option Result) :=
  match if root.ops.isEmpty then none else eg.concatLanes kMaxLaneBit 0 root.ops with
  | none => pure none
  | some lanes => do
    let kept := dropZeroLanes eg lanes
    let narrowed ← narrowLane eg kept
    let merged ← mergeLanes eg B narrowed.1
    if kept.length < lanes.length ∨ narrowed.2 = true ∨ merged.2 = true then
      replaceBy (makeConcat B (laneActs merged.1))
    else pure none

end

/-! ## Building a `Concat` -/

section

variable {σ : Type} {eg : Egraph} {ρ : Valuation eg} {B : Builder σ}

/-- Lanes whose values agree with `vals` inside their windows. -/
def LaneActs (ρ : Valuation eg) (lanes : List (RuleM σ ClassId × ℕ)) (vals : List (ℤ × ℕ)) : Prop :=
  Forall₂ (fun act x => act.2 = x.2 ∧ 0 < act.2 ∧ Keeps (Run.Sound ρ) act.1 fun c =>
    ∃ y, ρ.val c = some y ∧ y % 2 ^ act.2 = x.1 % 2 ^ act.2) lanes vals

variable {vals : List (ℤ × ℕ)}

lemma concatOperands_keeps (hB : B.Lawful ρ) {lanes : List (RuleM σ ClassId × ℕ)}
    (h : LaneActs ρ lanes vals) (i : ℕ) : Keeps (Run.Sound ρ) (concatOperands B i lanes) fun ops =>
      ∃ l ms, ρ.Reads ops l ∧ l.map (·.1) = List.range' i l.length ∧
      Cell.lanes (l.map (·.2)) = some ms ∧
        Cell.concat ms = Cell.concat vals ∧ Cell.width ms = Cell.width vals := by
  induction h generalizing i with
  | nil => exact .pure ⟨[], [], .nil, rfl, rfl, rfl, rfl⟩
  | @cons act x lanes vals hact _ ih =>
    obtain ⟨act, w⟩ := act
    obtain ⟨x, w'⟩ := x
    obtain ⟨rfl, hw, hact⟩ := hact
    refine .bind hact fun v hv => .bind (konst_keeps hB w) fun k hk =>
      .bind (ih (i + 2)) fun ops hops => ?_
    obtain ⟨y, hy, hmod⟩ := hv
    obtain ⟨l, ms, hl, hba, hms, hco, hwi⟩ := hops
    refine .pure ⟨(i, y) :: (i + 1, (w : ℤ)) :: l, (y, w) :: ms, ?_, ?_, ?_, ?_, ?_⟩
    · exact .cons ⟨rfl, hy⟩ (.cons ⟨rfl, hk⟩ hl)
    · rw [map_cons, map_cons, hba]
      rfl
    · simp only [map_cons, Cell.lanes, if_pos (natCast_pos.2 hw), hms, map_some, toNat_natCast]
    · rw [Cell.concat_cons, Cell.concat_cons, hco, hwi, hmod]
    · rw [width_cons, width_cons, hwi]

variable {ops : List Operand}

/-- The value of operands that spell lanes. -/
lemma evalOp_concat {l : List (ℕ × ℤ)} {ms : List (ℤ × ℕ)} (hl : ρ.Reads ops l)
    (hba : l.map (·.1) = List.range' 0 l.length) (hms : lanes (l.map (·.2)) = some ms) :
    Cell.evalOp .concat (ρ.args ops) = some (Cell.concat ms) := by
  rw [hl.evalOp rfl]
  simp only [evalKnown]
  rw [if_pos (by rw [hba, range_eq_range']), hms, map_some]

lemma makeConcat_keeps (hB : B.Lawful ρ) {lanes : List (RuleM σ ClassId × ℕ)}
    (h : LaneActs ρ lanes vals) :
    Keeps (Run.Sound ρ) (makeConcat B lanes) fun c => ρ.val c = some (Cell.concat vals) := by
  refine .bind (concatOperands_keeps hB h 0) fun ops hops => ?_
  obtain ⟨l, ms, hl, hba, hms, hco, -⟩ := hops
  exact (make_keeps hB _ _).mono fun c hc => hc _ (hco ▸ evalOp_concat hl hba hms)

variable {lanes : List (ClassId × ℕ)}

/-- Lanes whose values are there spell themselves. -/
lemma laneActs_of (h : LaneVals ρ lanes vals) (hpos : ∀ l ∈ lanes, 0 < l.2) :
    LaneActs (σ := σ) ρ (laneActs lanes) vals := by
  induction h with
  | nil => exact .nil
  | @cons l x lanes vals hlx _ ih =>
    obtain ⟨hw, hpos⟩ := forall_mem_cons.1 hpos
    exact .cons ⟨hlx.1, hw, .pure ⟨x.1, hlx.2, rfl⟩⟩ (ih hpos)

/-! ## A window over several lanes -/

/-- The values of the pieces of lanes. -/
def pieceVals (lo hi : ℕ) : List (ℤ × ℕ) → List (ℤ × ℕ)
  | [] => []
  | (x, w) :: vals =>
    let off := Cell.width vals
    let a := max lo off
    let b := min hi (off + w)
    if b ≤ a then pieceVals lo hi vals
      else (window x (a - off) (b - a), b - a) :: pieceVals lo hi vals

lemma concat_pieceVals {lo hi : ℕ} (hlt : lo < hi) (vals : List (ℤ × ℕ))
    (hpos : ∀ x ∈ vals, 0 < x.2) :
    Cell.width (pieceVals lo hi vals) = min hi (Cell.width vals) - lo ∧
      Cell.concat (pieceVals lo hi vals) = window (Cell.concat vals) lo
      (min hi (Cell.width vals) - lo) := by
  induction vals with
  | nil => simp [pieceVals, window]
  | cons x vals ih =>
    obtain ⟨hw, hpos⟩ := forall_mem_cons.1 hpos
    obtain ⟨hwi, hco⟩ := ih hpos
    rw [pieceVals, width_cons]
    split
    next hem =>
      refine ⟨by omega, ?_⟩
      rw [hco]
      refine ext fun i => ?_
      rw [testBit_window, testBit_window, testBit_concat_cons]
      grind
    next hto =>
      refine ⟨by rw [width_cons]; omega, ext fun i => ?_⟩
      rw [testBit_concat_cons, hwi, hco, testBit_window, testBit_window, testBit_window,
        Cell.testBit_concat_cons]
      grind

lemma lanesWidth_cons (c : ClassId) (w : ℕ) (lanes : List (ClassId × ℕ)) :
    lanesWidth ((c, w) :: lanes) = w + lanesWidth lanes := by
  simp [lanesWidth]

lemma straddlePieces_acts (hB : B.Lawful ρ) (lo hi : ℕ) (h : LaneVals ρ lanes vals) :
    LaneActs ρ (straddlePieces B lo hi (lanesWidth lanes) lanes) (pieceVals lo hi vals) := by
  induction h with
  | nil => exact .nil
  | @cons l x lanes vals hlx hrel ih =>
    obtain ⟨c, w⟩ := l
    obtain ⟨x, w'⟩ := x
    obtain ⟨rfl, hx⟩ := hlx
    have hoff : w + lanesWidth lanes - w = lanesWidth lanes := by omega
    have hw : Cell.width vals = lanesWidth lanes := (LaneVals.width hrel).symm
    rw [lanesWidth_cons, straddlePieces, pieceVals, hoff, hw]
    split
    · exact ih
    refine .cons ⟨rfl, by show 0 < _ - _; omega, ?_⟩ ih
    split
    · -- a whole lane is masked by the `Concat` itself
      rename_i hwh
      refine .pure ⟨x, hx, ?_⟩
      simp [hwh.1, window_zero]
    · refine (makeGetMask_keeps hB c (by omega)).mono fun v hv => ⟨_, hv x hx, ?_⟩
      rw [Nat.sub_sub_sub_cancel_right (le_max_right _ _)]

/-- The class of a member `Concat` with usable lanes. -/
lemma concat_vals {n : Enode} (hop : n.op = .concat) {limit : ℤ}
    (hla : eg.concatLanes limit 0 n.operands = some lanes) {v : ℤ}
    (hv : Cell.evalOp n.op (ρ.args n.operands) = some v) :
    ∃ vals, LaneVals ρ lanes vals ∧ v = Cell.concat vals := by
  obtain ⟨op, ops⟩ := n
  obtain rfl : op = .concat := hop
  obtain ⟨l, hl, hlv⟩ := ρ.exists_reads .concat rfl hv
  obtain ⟨vals, hva, hrel⟩ := concatLanes_vals hla hl
  simp only [evalKnown, hva] at hlv
  split at hlv
  · exact ⟨vals, hrel, (some.inj hlv).symm⟩
  · cases hlv

lemma LaneVals.pos (h : LaneVals ρ lanes vals) (hpos : ∀ l ∈ lanes, 0 < l.2) :
    ∀ x ∈ vals, 0 < x.2 := by
  intro x hx
  obtain ⟨l, hl, hlx⟩ := Forall₂.exists_of_mem_right h hx
  exact hlx.1 ▸ hpos l hl

variable {root : Root}

lemma getmaskConcatStraddle_keeps (hB : B.Lawful ρ) {v : ℤ}
    (hr : Cell.evalOp .getMask (ρ.args root.ops) = some v) :
    Keeps (Run.Sound ρ) (getmaskConcatStraddle eg B root) (Replaces ρ v) := by
  unfold getmaskConcatStraddle
  split
  · exact keeps_none
  rename_i x lo hi hwin
  obtain ⟨hlt, hval⟩ := getMaskWindow_val (ρ := ρ) hwin
  obtain ⟨y, hy, rfl⟩ := hval v hr
  refine .bind (memberNode_keeps x _) fun concat hco => ?_
  cases concat with
  | none => exact keeps_none
  | some n =>
    obtain ⟨hop, hn⟩ := hco n rfl
    refine .ite (fun _ => keeps_none) fun _ => ?_
    cases hla : eg.concatLanes kMaxLaneBit 0 n.operands with
    | none => exact keeps_none
    | some lanes =>
      obtain ⟨vals, hrel, rfl⟩ := concat_vals (beq_iff_eq.1 hop) hla (hn.symm.trans hy)
      have hpi := concatOperands_keeps hB (straddlePieces_acts hB lo hi hrel) 0
      refine .bind hpi fun ops hops => .ite (fun _ => keeps_none) fun hcn => ?_
      obtain ⟨l, ms, hl, hba, hms, hval, -⟩ := hops
      obtain ⟨-, hwi⟩ := concat_pieceVals hlt vals (hrel.pos (concatLanes_pos hla))
      have hhi : hi ≤ Cell.width vals := by
        rw [show Cell.width vals = lanesWidth lanes from hrel.width.symm]
        exact not_lt.1 fun h => hcn (.inr h)
      rw [min_eq_left hhi, ← hval] at hwi
      refine .bind (make_keeps hB .concat ops) fun c hc =>
        .bind (singleUse_keeps x) fun single _ => ?_
      refine .pure fun res hres => ?_
      have hcls : res.cls = c := by
        cases hres
        split <;> rfl
      rw [hcls, hc _ (evalOp_concat hl hba hms), hwi]

/-! ## An `Or` of disjoint fields -/

lemma shiftedField_keeps (c : ClassId) : Keeps (Run.Sound (σ := σ) ρ) (shiftedField eg c) fun f =>
    ∀ v, ρ.val c = some v → ∃ x, ρ.val f.1 = some x ∧ v = x * 2 ^ f.2 := by
  refine .map (memberSome_keeps c _) fun r hr v hv => ?_
  cases r with
  | none => exact ⟨v, hv, by simp⟩
  | some f =>
    obtain ⟨⟨op, ops⟩, hrd, hval⟩ := hr f rfl
    split at hrd
    next hop =>
      obtain rfl : op = .shl := hop
      obtain ⟨⟨a, b⟩, hab, hrd⟩ := bind_eq_some_iff.1 hrd
      obtain ⟨k, hk, rfl⟩ := map_eq_some_iff.1 hrd
      rw [hv, pair_eq hab] at hval
      exact shl_val (constAmount_eq hk).1 hval.symm
    · cases hrd

/-- The fields of an `Or`, their values and shifts: each fits its width. -/
def Fields (ρ : Valuation eg) (fields : List Field) (ps : List (ℤ × ℕ)) : Prop :=
  Forall₂ (fun f p => ρ.val f.value = some p.1 ∧ f.lo = p.2 ∧ 0 < f.width ∧ 0 ≤ p.1 ∧
    p.1 < 2 ^ f.width) fields ps

variable {x : ℤ}

section

variable (ha : SoundAnalyses ρ) (hB : B.Lawful ρ)
include ha hB

lemma carried_keeps (value : ClassId) {w : ℕ} (hw : 0 < w) (hx : ρ.val value = some x) (h0 : 0 ≤ x)
    (hlt : x < 2 ^ w) : Keeps (Run.Sound ρ) (carried eg B value w) fun c => ρ.val c = some x := by
  refine .bind (ask_keeps (storageBitsRec_keeps ha.facts kDepth value)) fun storage _ => ?_
  refine .ite (fun _ => .pure hx) fun _ => (makeGetMask_keeps hB value hw).mono fun c hc => ?_
  simp [hc x hx, window_zero_of_lt h0 hlt]

lemma orFields_keeps {l : List (ℕ × ℤ)} (hl : ρ.Reads ops l) :
    Keeps (Run.Sound ρ) (orFields eg B ops) fun r =>
    ∀ fields, r = some fields → ∃ ps, Fields ρ fields ps ∧
      ∀ q, (l.map (·.2)).any (·.testBit q) = fieldBit ps q := by
  induction hl with
  | nil =>
    refine .pure fun fields h => ?_
    cases h
    exact ⟨[], .nil, fun q => rfl⟩
  | @cons o y ops l hoy _ ih =>
    refine .ite (fun _ => .pure nofun) fun _ => ?_
    refine .bind (shiftedField_keeps o.cls) fun f hf => ?_
    refine .bind (ask_keeps (unsignedBits_keeps ha.facts f.1)) fun bits hb => ?_
    obtain ⟨x, hx, hyx⟩ := hf y.2 hoy.2
    cases bits with
    | none => exact .pure nofun
    | some w =>
      obtain ⟨h0, hlt⟩ := hb w rfl x hx
      refine .ite (fun _ => .pure nofun) fun _ => .ite (fun hw => ?_) fun hw => ?_
      · -- a field of width zero is zero
        refine ih.mono fun r hr fields hfi => ?_
        obtain ⟨ps, hps, hany⟩ := hr fields hfi
        have hx0 : x = 0 := by
          rw [hw] at hlt
          omega
        refine ⟨ps, hps, fun q => ?_⟩
        simp [hany q, hyx, hx0, testBit_zero]
      · have hpos := pos_of_ne_zero hw
        refine .bind (carried_keeps ha hB f.1 hpos hx h0 hlt) fun value hv => ?_
        refine .map ih fun r hr fields hfi => ?_
        obtain ⟨fields', rfl, rfl⟩ := map_eq_some_iff.1 hfi
        obtain ⟨ps, hps, hany⟩ := hr fields' rfl
        refine ⟨(x, f.2) :: ps, .cons ⟨hv, rfl, hpos, h0, hlt⟩ hps, fun q => ?_⟩
        simp [hany q, hyx, fieldBit, fieldBit]

omit ha in
/-- The lanes of ascending fields from bit `pos` on show the fields. -/
lemma fieldPack_keeps {fields : List Field} {ps : List (ℤ × ℕ)} (h : Fields ρ fields ps) (pos : ℕ) :
    Keeps (Run.Sound ρ) (fieldPack B pos fields) fun r =>
    ∀ lanes, r = some lanes → ∃ vals, LaneVals ρ lanes vals ∧
      (∀ l ∈ lanes, 0 < l.2) ∧ (∀ q, q < pos → fieldBit ps q = false) ∧
      ∀ i, (Cell.concat vals.reverse).testBit i = fieldBit ps (pos + i) := by
  induction h generalizing pos with
  | nil =>
    refine .pure fun lanes hl => ?_
    cases hl
    exact ⟨[], .nil, by simp, fun q _ => rfl, fun i => by simp [fieldBit]⟩
  | @cons f p fields ps hfp _ ih =>
    obtain ⟨hval, hlo, hpos, h0, hlt⟩ := hfp
    -- the lane of the field, then the lanes above it
    have hf : ∀ lanes vals, LaneVals ρ lanes vals → (∀ l ∈ lanes, 0 < l.2) →
        (∀ q, q < f.lo + f.width → fieldBit ps q = false) →
        (∀ i, (Cell.concat vals.reverse).testBit i = fieldBit ps (f.lo + f.width + i)) →
        ∀ i, (Cell.concat ((p.1, f.width) :: vals).reverse).testBit i =
        fieldBit (p :: ps) (f.lo + i) := by
      intro lanes vals _ _ hlow hb i
      rw [reverse_cons, testBit_concat_concat, fieldBit, any_cons, testBit_shiftLeft, ← hlo,
        decide_eq_true (Nat.le_add_right _ _), Bool.true_and, Nat.add_sub_cancel_left]
      change _ = (_ || fieldBit ps (f.lo + i))
      split
      · simp [hlow (f.lo + i) (by omega)]
      · rw [hb, (lt_two_pow_iff h0).1 hlt i (by omega)]
        congr 1
        omega
    have hlow : (∀ q, q < f.lo + f.width → fieldBit ps q = false) → ∀ q, q < f.lo →
        fieldBit (p :: ps) q = false := by
      intro hps q hq
      rw [fieldBit, any_cons, testBit_shiftLeft, decide_eq_false (by omega)]
      exact hps q (by omega)
    refine .ite (fun _ => .pure (by simp)) fun hge => .ite (fun hgap => ?_) fun hgap => ?_
    · refine .bind (konst_keeps hB 0) fun z hz =>
        .map (ih (f.lo + f.width)) fun r hr lanes hla => ?_
      obtain ⟨lanes', rfl, rfl⟩ := map_eq_some_iff.1 hla
      obtain ⟨vals, hrel, hpo', hps, hb⟩ := hr lanes' rfl
      refine ⟨(0, f.lo - pos) :: (p.1, f.width) :: vals, ?_, ?_,
        fun q hq => hlow hps q (by omega), fun i => ?_⟩
      · exact .cons ⟨rfl, hz⟩ (.cons ⟨rfl, hval⟩ hrel)
      · exact forall_mem_cons.2 ⟨by show 0 < f.lo - pos; omega, forall_mem_cons.2 ⟨hpos, hpo'⟩⟩
      · rw [reverse_cons, Cell.testBit_concat_concat, testBit_zero]
        split
        · rw [hlow hps (pos + i) (by omega)]
        · rw [hf lanes' vals hrel hpo' hps hb]
          congr 1
          omega
    · refine .map (ih (f.lo + f.width)) fun r hr lanes hla => ?_
      obtain ⟨lanes', rfl, rfl⟩ := map_eq_some_iff.1 hla
      obtain ⟨vals, hrel, hpo', hps, hb⟩ := hr lanes' rfl
      obtain rfl : pos = f.lo := by omega
      exact ⟨(p.1, f.width) :: vals, .cons ⟨rfl, hval⟩ hrel, forall_mem_cons.2 ⟨hpos, hpo'⟩,
        fun q hq => hlow hps q hq, hf lanes' vals hrel hpo' hps hb⟩

lemma orPackToConcat_keeps {v : ℤ} (hr : Cell.evalOp .or (ρ.args root.ops) = some v) :
    Keeps (Run.Sound ρ) (orPackToConcat eg B root) (Replaces ρ v) := by
  obtain ⟨l, hl, hlv⟩ := ρ.exists_reads .or rfl hr
  cases hlv
  refine .ite (fun _ => keeps_none) fun _ => .bind (grantFuel_keeps _) fun _ _ => ?_
  refine .bind (orFields_keeps ha hB hl) fun fields hf => ?_
  cases fields with
  | none => exact keeps_none
  | some fields =>
    obtain ⟨ps, hps, hany⟩ := hf fields rfl
    refine .ite (fun _ => keeps_none) fun _ => ?_
    have hs : (sortByLo fields).Perm fields := perm_insertionSort _ fields
    obtain ⟨ps', hps', hpe⟩ := perm_comp_forall₂ hs hps
    refine .bind (fieldPack_keeps hB hps' 0) fun lanes hla => ?_
    cases lanes with
    | none => exact keeps_none
    | some lanes =>
      obtain ⟨vals, hrel, hpos, -, hb⟩ := hla lanes rfl
      have hac : LaneActs (σ := σ) ρ (laneActs lanes.reverse) vals.reverse :=
        laneActs_of (forall₂_reverse_iff.2 hrel) fun l hl => hpos l (mem_reverse.1 hl)
      refine .map (makeConcat_keeps hB hac) fun c hc res hres => ?_
      cases hres
      refine hc.trans (congrArg some (ext fun q => ?_))
      rw [hb q, zero_add, testBit_foldr_lor, hany q, fieldBit, fieldBit, hpe.any_eq]

end

/-! ## A write over a pack -/

/-- Lanes from bit `off` on, least significant first, with their values. -/
def PackVals (ρ : Valuation eg) : ℕ → List PackLane → List (ℤ × ℕ) → Prop
  | _, [], vals => vals = []
  | _, _ :: _, [] => False
  | off, lane :: lanes, x :: vals =>
      lane.lo = off ∧ lane.width = x.2 ∧ 0 < x.2 ∧ ρ.val lane.value = some x.1 ∧
      PackVals ρ (off + x.2) lanes vals

variable {off : ℕ}

lemma PackVals.append {lanes lanes' : List PackLane} {vals' : List (ℤ × ℕ)}
    (h : PackVals ρ off lanes vals) (h' : PackVals ρ (off + Cell.width vals) lanes' vals') :
    PackVals ρ off (lanes ++ lanes') (vals ++ vals') := by
  induction lanes generalizing off vals with
  | nil =>
    obtain rfl : vals = [] := h
    exact h'
  | cons lane lanes ih =>
    cases vals with
    | nil => exact h.elim
    | cons x vals =>
      obtain ⟨h1, h2, h3, h4, h5⟩ := h
      rw [width_cons, ← add_assoc] at h'
      exact ⟨h1, h2, h3, h4, ih h5 h'⟩

/-- The lanes of a `Concat`. -/
lemma packLanes_vals (h : LaneVals ρ lanes vals)
    (hpos : ∀ l ∈ lanes, 0 < l.2) :
    PackVals ρ 0 (packLanes (lanesWidth lanes) lanes) vals.reverse := by
  induction h with
  | nil => rfl
  | @cons l x lanes vals hlx hrel ih =>
    obtain ⟨c, w⟩ := l
    obtain ⟨x, w'⟩ := x
    obtain ⟨rfl, hx⟩ := hlx
    obtain ⟨hw, hpos⟩ := forall_mem_cons.1 hpos
    have hoff : w + lanesWidth lanes - w = lanesWidth lanes := by omega
    rw [lanesWidth_cons, packLanes, hoff, reverse_cons]
    refine (ih hpos).append ⟨?_, rfl, hw, hx, rfl⟩
    have hwi : Cell.width vals.reverse = Cell.width vals := by simp [Cell.width]
    rw [hwi, zero_add]
    exact LaneVals.width hrel

section

variable (ha : SoundAnalyses ρ)
include ha

lemma packLanesOf_keeps (base : ClassId) (low : ℕ) :
    Keeps (Run.Sound (σ := σ) ρ) (packLanesOf eg base low) fun r =>
    ∀ lanes, r = some lanes → ∀ y, ρ.val base = some y →
      ∃ vals, PackVals ρ 0 lanes vals ∧ Cell.concat vals.reverse = y := by
  refine .ite (fun hze => .pure fun lanes hl y hy => ?_) fun _ => ?_
  · cases hl
    obtain rfl : 0 = y := Option.some.inj ((isInt_val hze).symm.trans hy)
    exact ⟨[], rfl, rfl⟩
  refine .bind (memberNode_keeps base _) fun concat hco => ?_
  cases concat with
  | some n =>
    refine .ite (fun _ => .pure nofun) fun _ => .pure fun lanes hl y hy => ?_
    obtain ⟨lanes', hl', rfl⟩ := map_eq_some_iff.1 hl
    obtain ⟨hop, hn⟩ := hco n rfl
    obtain ⟨vals, hrel, rfl⟩ := concat_vals (beq_iff_eq.1 hop) hl' (hn.symm.trans hy)
    exact ⟨vals.reverse, packLanes_vals hrel (concatLanes_pos hl'), by simp⟩
  | none =>
    refine .map (ask_keeps (ha.facts kDepth base)) fun f hf lanes hl y hy => ?_
    split at hl
    next hfi =>
      cases hl
      obtain ⟨h0, hlt⟩ := (hf y hy).lt_of_fits hfi.2
      refine ⟨[(y, low)], ⟨rfl, rfl, hfi.1, hy, rfl⟩, ?_⟩
      simp [Cell.concat, emod_eq_of_lt h0 hlt]
    · cases hl

end

section

variable (hB : B.Lawful ρ) {l h : ℕ} {v : ClassId} {z : ℤ}

/-- Above the window the lanes stay. -/
lemma writeLanes_above (hlh : l < h) (hoff : h ≤ off) {lanes : List PackLane}
    (hva : PackVals ρ off lanes vals) (keptTop : ℕ) :
    Keeps (Run.Sound ρ) (writeLanes B l h v lanes true keptTop) fun r =>
    ∀ lanes', r = some lanes' → lanes' = lanes := by
  induction lanes generalizing off vals keptTop with
  | nil => exact .pure fun lanes' h' => (some.inj h').symm
  | cons lane lanes ih =>
    cases vals with
    | nil => exact hva.elim
    | cons x vals =>
      obtain ⟨rfl, -, -, -, hre⟩ := hva
      refine .ite (fun hle => absurd hle (by omega)) fun _ =>
        .ite (fun _ => ?_) fun hgt => absurd hoff hgt
      refine .map (ih (by omega) hre keptTop) fun r hr lanes' h' => ?_
      obtain ⟨lanes'', rfl, rfl⟩ := map_eq_some_iff.1 h'
      rw [hr lanes'' rfl]
      rfl

/-- Past the start of the window: the new lane, and the lanes above it. -/
lemma writeLanes_inside (hlh : l < h) (hl : l < off) (hoff : off ≤ h) (hz : ρ.val v = some z)
    {lanes : List PackLane} (hva : PackVals ρ off lanes vals) :
    Keeps (Run.Sound ρ) (writeLanes B l h v lanes false l) fun r =>
    ∀ lanes', r = some lanes' → ∃ vals',
      PackVals ρ l lanes' vals' ∧ ∀ i, (Cell.concat vals'.reverse).testBit i =
        if i < h - l then z.testBit i else (Cell.concat vals.reverse).testBit (i + l - off) := by
  have hnew : h - l > 0 := by omega
  induction lanes generalizing off vals with
  | nil =>
    obtain rfl : vals = [] := hva
    refine .ite nofun fun _ => .ite (fun h => absurd h (lt_irrefl l)) fun _ =>
      .pure fun lanes' h' => ?_
    cases h'
    refine ⟨[(z, h - l)], ⟨rfl, rfl, hnew, hz, rfl⟩, fun i => ?_⟩
    rw [reverse_singleton, testBit_concat_singleton, reverse_nil, Cell.concat_nil, testBit_zero]
    grind
  | cons lane lanes ih =>
    cases vals with
    | nil => exact hva.elim
    | cons x vals =>
      obtain ⟨rfl, hw, hpos, hx, hre⟩ := hva
      refine .ite (fun hle => absurd hle (by omega)) fun _ => .ite (fun hge => ?_) fun _ => ?_
      · -- the lane starts where the window ends
        obtain hoff : lane.lo = h := le_antisymm hoff hge
        refine .map (writeLanes_above hlh (by omega) hre l) fun r hr lanes' h' => ?_
        obtain ⟨lanes'', rfl, rfl⟩ := map_eq_some_iff.1 h'
        obtain rfl := hr lanes'' rfl
        refine ⟨(z, h - l) :: x :: vals, ⟨rfl, rfl, hnew,
          hz, by rw [hoff]; show h = l + (h - l); omega, hw, hpos, hx, ?_⟩, fun i => ?_⟩
        · rwa [show l + (h - l) = lane.lo by omega]
        · rw [reverse_cons, testBit_concat_concat]
          split
          · rfl
          · congr 1
            omega
      · refine .ite (fun hco => ?_) fun _ => .pure nofun
        refine (ih (by omega) (by omega) hre).mono fun r hr lanes' h' => ?_
        obtain ⟨vals', hva', hb⟩ := hr lanes' h'
        refine ⟨vals', hva', fun i => ?_⟩
        rw [hb i]
        split
        · rfl
        · obtain ⟨x, w⟩ := x
          rw [reverse_cons, Cell.testBit_concat_concat, if_neg (by dsimp only at hw hco ⊢; omega)]
          congr 1
          omega

include hB in
/-- Below the window: the lanes stay up to its start. -/
lemma writeLanes_below (hlh : l < h) (hoff : off ≤ l) (hz : ρ.val v = some z)
    {lanes : List PackLane} (hva : PackVals ρ off lanes vals) :
    Keeps (Run.Sound ρ) (writeLanes B l h v lanes false off) fun r =>
    ∀ lanes', r = some lanes' → ∃ vals',
      PackVals ρ off lanes' vals' ∧ ∀ i, (Cell.concat vals'.reverse).testBit i =
        if l - off ≤ i ∧ i < h - off then z.testBit (i - (l - off))
        else (Cell.concat vals.reverse).testBit i := by
  have hnew : h - l > 0 := by omega
  induction lanes generalizing off vals with
  | nil =>
    obtain rfl : vals = [] := hva
    refine .ite nofun fun _ => .ite (fun hgap => ?_) fun hgap => .pure fun lanes' h' => ?_
    · refine .map (konst_keeps hB 0) fun c hc lanes' h' => ?_
      cases h'
      refine ⟨[(0, l - off), (z, h - l)], ⟨rfl, rfl, by show 0 < l - off; omega, hc,
        by show l = off + (l - off); omega, rfl, hnew, hz, rfl⟩, fun i => ?_⟩
      show (Cell.concat ([(z, h - l)] ++ [(0, l - off)])).testBit i = _
      rw [testBit_concat_concat, testBit_concat_singleton, reverse_nil,
        Cell.concat_nil, testBit_zero]
      split
      · rw [if_neg (by omega)]
      · have hiff : i - (l - off) < h - l ↔ l - off ≤ i ∧ i < h - off := by omega
        by_cases hi : l - off ≤ i ∧ i < h - off
        · rw [if_pos hi, decide_eq_true (hiff.2 hi), Bool.true_and]
        · rw [if_neg hi, decide_eq_false fun h => hi (hiff.1 h), Bool.false_and]
    · cases h'
      obtain rfl : off = l := by omega
      refine ⟨[(z, h - off)], ⟨rfl, rfl, hnew, hz, rfl⟩, fun i => ?_⟩
      rw [reverse_singleton, testBit_concat_singleton, reverse_nil, Cell.concat_nil, testBit_zero]
      grind
  | cons lane lanes ih =>
    cases vals with
    | nil => exact hva.elim
    | cons x vals =>
      obtain ⟨rfl, hw, hpos, hx, hre⟩ := hva
      obtain ⟨x, w⟩ := x
      refine .ite (fun hke => ?_) fun hke => .ite (fun hge => absurd hge (by omega)) fun _ => ?_
      · have hr' := hw ▸ hre
        refine .map (ih hke hr') fun r hr lanes' h' => ?_
        obtain ⟨lanes'', rfl, rfl⟩ := map_eq_some_iff.1 h'
        obtain ⟨vals', hva', hb⟩ := hr lanes'' rfl
        refine ⟨(x, w) :: vals', ⟨rfl, hw, hpos, hx, by rwa [hw] at hva'⟩, fun i => ?_⟩
        rw [reverse_cons, testBit_concat_concat, reverse_cons, testBit_concat_concat]
        grind
      · refine .ite (fun hco => ?_) fun _ => .pure nofun
        obtain hlo : lane.lo = l := le_antisymm hoff hco.1
        rw [hlo] at hre ⊢
        refine (writeLanes_inside hlh (by omega) (by omega) hz hre).mono fun r hr lanes' h' => ?_
        obtain ⟨vals', hva', hb⟩ := hr lanes' h'
        refine ⟨vals', hva', fun i => ?_⟩
        rw [reverse_cons, Cell.testBit_concat_concat]
        grind

lemma setMaskWindow_val {a : ClassId} {lo hi : ℕ} {s : ClassId}
    (hw : setMaskWindow eg ops = some (a, lo, hi, s)) :
    lo < hi ∧ ∀ x, Cell.evalOp .setMask (ρ.args ops) = some x →
      ∃ y z, ρ.val a = some y ∧ ρ.val s = some z ∧ x = splice y lo (hi - lo) z := by
  unfold setMaskWindow at hw
  split at hw
  next o l' h' o' =>
    split at hw
    next hba =>
      simp only [bind_eq_bind, bind_eq_some_iff] at hw
      obtain ⟨kl, hkl, kh, hkh, hw⟩ := hw
      split at hw
      next hle =>
        obtain ⟨rfl, rfl, rfl, rfl⟩ : o.cls = a ∧ kl.toNat = lo ∧ kh.toNat = hi ∧
          o'.cls = s := by simpa using hw
        refine ⟨by omega, fun x hx => ?_⟩
        simp only [Valuation.args, map_cons, map_nil, hba.1, hba.2.1, hba.2.2.1, hba.2.2.2,
          ρ.constI64 hkl, ρ.constI64 hkh] at hx
        cases hy : ρ.val o.cls with
        | none =>
          rw [hy] at hx
          cases hx
        | some y =>
          cases hz : ρ.val o'.cls with
          | none =>
            rw [hy, hz] at hx
            cases hx
          | some z =>
            rw [hy, hz, evalOp_setMask, bitRange_of hle.1 hle.2.1] at hx
            refine ⟨y, z, rfl, rfl, ?_⟩
            rw [show kh.toNat - kl.toNat = (kh - kl).toNat by omega]
            exact (some.inj hx).symm
      · cases hw
    · cases hw
  · cases hw

lemma writtenValue_keeps (ha : SoundAnalyses ρ) (hB : B.Lawful ρ)
    {lane : PackLane} (hpos : 0 < lane.width)
    (hx : ρ.val lane.value = some x) : Keeps (Run.Sound ρ) (writtenValue eg B l h v lane) fun c =>
      ∃ y, ρ.val c = some y ∧ y % 2 ^ lane.width = x % 2 ^ lane.width := by
  refine .ite (fun _ => ?_) fun _ => .pure ⟨x, hx, rfl⟩
  refine .bind (ask_keeps (ha.facts kDepth lane.value)) fun f _ => ?_
  refine .ite (fun _ => .pure ⟨x, hx, rfl⟩) fun _ => ?_
  refine (makeGetMask_keeps hB lane.value hpos).mono fun c hc => ⟨_, hc x hx, ?_⟩
  simp [window_zero]

lemma PackVals.acts (ha : SoundAnalyses ρ) (hB : B.Lawful ρ) {lanes : List PackLane}
    (hva : PackVals ρ off lanes vals) :
    LaneActs ρ (lanes.map fun lane => (writtenValue eg B l h v lane, lane.width)) vals := by
  induction lanes generalizing off vals with
  | nil =>
    obtain rfl : vals = [] := hva
    exact .nil
  | cons lane lanes ih =>
    cases vals with
    | nil => exact hva.elim
    | cons x vals =>
      obtain ⟨-, hw, hpos, hx, hr⟩ := hva
      have hla := hw.symm ▸ hpos
      exact .cons ⟨hw, hla, writtenValue_keeps ha hB hla hx⟩ (ih hr)

lemma setmaskToConcat_keeps (ha : SoundAnalyses ρ) (hB : B.Lawful ρ)
    (hr : Cell.evalOp .setMask (ρ.args root.ops) = some x) :
    Keeps (Run.Sound ρ) (setmaskToConcat eg B root) (Replaces ρ x) := by
  unfold setmaskToConcat
  split
  · exact keeps_none
  rename_i a l h v hwin
  obtain ⟨hlt, hval⟩ := setMaskWindow_val (ρ := ρ) hwin
  obtain ⟨y, z, hy, hz, rfl⟩ := hval x hr
  refine .bind (packLanesOf_keeps ha a l) fun base hba => ?_
  cases base with
  | none => exact keeps_none
  | some base =>
    obtain ⟨vals, hva, rfl⟩ := hba base rfl y hy
    refine .bind (writeLanes_below hB hlt (Nat.zero_le l) hz hva) fun lanes hl => ?_
    cases lanes with
    | none => exact keeps_none
    | some lanes =>
      obtain ⟨vals', hva', hb⟩ := hl lanes rfl
      have hac :
          LaneActs ρ (lanes.reverse.map fun lane => (writtenValue eg B l h v lane, lane.width))
          vals'.reverse := by
        rw [map_reverse]
        exact forall₂_reverse_iff.2 (hva'.acts ha hB)
      refine replaceBy_keeps ((makeConcat_keeps hB hac).mono fun c hc => ?_)
      refine hc.trans (congrArg some (ext fun i => ?_))
      rw [testBit_splice]
      grind

end

/-! ## The lane list of a `Concat` -/

lemma dropZeroLanes_vals (h : LaneVals ρ lanes vals) :
    ∃ vals', LaneVals ρ (dropZeroLanes eg lanes) vals' ∧ Cell.concat vals' = Cell.concat vals := by
  induction lanes using dropZeroLanes.induct eg generalizing vals with
  | case1 l l' lanes h0 ih =>
    cases h with
    | @cons _ x _ vals hlx hrel =>
      obtain ⟨x, w⟩ := x
      obtain ⟨vals', hva', hco⟩ := ih hrel
      rw [dropZeroLanes, if_pos h0]
      refine ⟨vals', hva', ?_⟩
      obtain rfl : x = 0 := some.inj (hlx.2.symm.trans (isInt_val h0))
      simp [hco, Cell.concat_cons]
  | case2 l l' lanes h0 =>
    rw [dropZeroLanes, if_neg h0]
    exact ⟨vals, h, rfl⟩
  | case3 lanes hsh =>
    rw [dropZeroLanes]
    · exact ⟨vals, h, rfl⟩
    · exact hsh

lemma dropZeroLanes_sublist (lanes : List (ClassId × ℕ)) :
    (dropZeroLanes eg lanes).Sublist lanes := by
  induction lanes using dropZeroLanes.induct eg with
  | case1 l l' lanes h0 ih =>
    rw [dropZeroLanes, if_pos h0]
    exact ih.cons l
  | case2 l l' lanes h0 => rw [dropZeroLanes, if_neg h0]
  | case3 lanes hsh => rwa [dropZeroLanes]

/-- Lanes with the value of a `Concat`. -/
def Spells (ρ : Valuation eg) (lanes : List (ClassId × ℕ)) (v : ℤ) : Prop :=
  (∀ l ∈ lanes, 0 < l.2) ∧ ∃ vals, LaneVals ρ lanes vals ∧ Cell.concat vals = v

/-- Below lanes of the same width and value a further lane lands on the same bits. -/
lemma Spells.cons {l : ClassId × ℕ} (hpos : 0 < l.2)
    (hx : ρ.val l.1 = some x) (hw : lanesWidth lanes = Cell.width vals)
    (h : Spells ρ lanes (Cell.concat vals)) :
    Spells ρ (l :: lanes) (Cell.concat ((x, l.2) :: vals)) := by
  obtain ⟨hpo', vals', hva', hco⟩ := h
  refine ⟨forall_mem_cons.2 ⟨hpos, hpo'⟩, (x, l.2) :: vals', .cons ⟨rfl, hx⟩ hva', ?_⟩
  have hw' := (LaneVals.width hva').symm.trans hw
  rw [Cell.concat_cons, Cell.concat_cons, hco, hw']

lemma narrowLane_keeps (ha : SoundAnalyses ρ) {v : ℤ} (h : Spells ρ lanes v) :
    Keeps (Run.Sound (σ := σ) ρ) (narrowLane eg lanes) fun r => Spells ρ r.1 v := by
  cases lanes with
  | nil => exact .pure h
  | cons l lanes =>
    refine .bind (ask_keeps (unsignedBits_keeps ha.facts l.1)) fun bits hb => ?_
    split
    · exact .pure h
    rename_i n hn
    obtain ⟨hsm, -⟩ := filter_eq_some_iff.1 hn
    refine .map (ask_keeps (storageBitsRec_keeps ha.facts kDepth l.1)) fun storage _ => ?_
    split
    · obtain ⟨hpos, vals, hva, rfl⟩ := h
      obtain ⟨-, hpos⟩ := forall_mem_cons.1 hpos
      cases hva with
      | @cons _ x _ vals hlx hrel =>
        obtain ⟨x, w⟩ := x
        obtain ⟨hw, hx⟩ := hlx
        obtain ⟨h0, hlt⟩ := hb n hsm x hx
        refine ⟨forall_mem_cons.2 ⟨lt_of_lt_of_le one_pos (le_max_left _ _), hpos⟩,
          (x, max 1 n) :: vals, .cons ⟨rfl, hx⟩ hrel, ?_⟩
        have hnw : n < w := by
          have hlt := (filter_eq_some_iff.1 hn).2
          rw [decide_eq_true_eq] at hlt
          exact hlt.trans_eq hw
        rw [Cell.concat_cons, Cell.concat_cons,
          emod_eq_of_lt h0 (hlt.trans_le (pow_le_pow_right₀ (by norm_num) (le_max_right 1 n))),
          emod_eq_of_lt h0 (hlt.trans_le (pow_le_pow_right₀ (by norm_num) hnw.le))]
    · exact h

/-- Two adjacent lanes as one, when the new value has the bits of both. -/
lemma spells_merge {hi lo : ClassId × ℕ} {v : ℤ} (h : Spells ρ (hi :: lo :: lanes) v)
    {c : ClassId} (hc : ∀ x y, ρ.val hi.1 = some x → ρ.val lo.1 = some y → ∃ z, ρ.val c = some z ∧
      z % 2 ^ (hi.2 + lo.2) = x % 2 ^ hi.2 * 2 ^ lo.2 + y % 2 ^ lo.2) :
      Spells ρ ((c, hi.2 + lo.2) :: lanes) v := by
  obtain ⟨hpos, vals, hva, rfl⟩ := h
  obtain ⟨hpo, hpos⟩ := forall_mem_cons.1 hpos
  obtain ⟨-, hpos⟩ := forall_mem_cons.1 hpos
  cases hva with
  | @cons _ x _ _ hx hrel =>
    cases hrel with
    | @cons _ y _ vals hy hrel =>
      obtain ⟨x, w⟩ := x
      obtain ⟨y, w'⟩ := y
      obtain ⟨hw, hx⟩ := hx
      obtain ⟨hw', hy⟩ := hy
      obtain ⟨z, hz, hmod⟩ := hc x y hx hy
      refine ⟨forall_mem_cons.2 ⟨Nat.add_pos_left hpo _, hpos⟩, (z, hi.2 + lo.2) :: vals,
        Forall₂.cons ⟨rfl, hz⟩ hrel, ?_⟩
      rw [Cell.concat_cons, Cell.concat_cons, Cell.concat_cons, width_cons, hmod, hw, hw']
      ring

lemma mergedConst_val {hi lo : ClassId × ℕ} {k : ℤ} (h : mergedConst eg hi lo = some k) {y : ℤ}
    (hx : ρ.val hi.1 = some x) (hy : ρ.val lo.1 = some y) :
    k = x % 2 ^ hi.2 * 2 ^ lo.2 + y % 2 ^ lo.2 := by
  simp only [mergedConst, bind_eq_bind, bind_eq_some_iff] at h
  obtain ⟨ch, hch, cl, hcl, h⟩ := h
  cases (hx.symm.trans (ρ.constI64 hch))
  cases (hy.symm.trans (ρ.constI64 hcl))
  split at h
  · exact (some.inj h).symm
  · cases h

/-- A masked pair fits the two windows. -/
lemma emod_append (x y : ℤ) (m n : ℕ) :
    (x % 2 ^ m * 2 ^ n + y % 2 ^ n) % 2 ^ (m + n) = x % 2 ^ m * 2 ^ n + y % 2 ^ n := by
  have hx := emod_lt_of_pos x (two_pow_pos m)
  have hy := emod_lt_of_pos y (two_pow_pos n)
  have hpos := two_pow_pos n
  refine emod_eq_of_lt ?_ ?_
  · have := emod_nonneg x (two_pow_pos m).ne'
    have := emod_nonneg y (two_pow_pos n).ne'
    positivity
  · calc x % 2 ^ m * 2 ^ n + y % 2 ^ n < (x % 2 ^ m + 1) * 2 ^ n := by linarith
      _ ≤ 2 ^ m * 2 ^ n := mul_le_mul_of_nonneg_right (by linarith) hpos.le
      _ = 2 ^ (m + n) := (pow_add 2 m n).symm

lemma mergedSlice_keeps (hi lo : ClassId × ℕ) :
    Keeps (Run.Sound (σ := σ) ρ) (mergedSlice eg hi lo) fun r =>
    ∀ src a b, r = some (src, a, b) → a < b ∧ ∀ x y, ρ.val hi.1 = some x → ρ.val lo.1 = some y →
      ∃ s, ρ.val src = some s ∧ window s a (b - a) = x % 2 ^ hi.2 * 2 ^ lo.2 + y % 2 ^ lo.2 := by
  refine .bind (sliceOf_keeps hi.1) fun sh hsh => .bind (sliceOf_keeps lo.1) fun sl hsl => .pure ?_
  rintro src a b h
  obtain ⟨⟨s, l1, h1⟩, rfl, hlo⟩ := bind_eq_some_iff.1 h
  obtain ⟨⟨s', l2, h2⟩, rfl, hrd⟩ := bind_eq_some_iff.1 hlo
  split at hrd
  next hco =>
    obtain ⟨rfl, rfl, rfl⟩ : s = src ∧ l2 = a ∧ h1 = b := by simpa using hrd
    obtain ⟨rfl, rfl, hwh, hwl⟩ : s = s' ∧ l1 = h2 ∧ h1 - l1 = hi.2 ∧ h2 - l2 = lo.2 := hco
    obtain ⟨hlt1, hva1⟩ := hsh s l1 h1 rfl
    obtain ⟨hlt2, hva2⟩ := hsl s l2 l1 rfl
    refine ⟨by omega, fun x y hx hy => ?_⟩
    obtain ⟨w, hw, rfl⟩ := hva1 x hx
    obtain ⟨w', hw', rfl⟩ := hva2 y hy
    cases (hw.symm.trans hw')
    refine ⟨w, hw, ?_⟩
    have hmo : window w l1 hi.2 % 2 ^ hi.2 = window w l1 hi.2 := emod_emod_of_dvd _ dvd_rfl
    have hmd : window w l2 lo.2 % 2 ^ lo.2 = window w l2 lo.2 := emod_emod_of_dvd _ dvd_rfl
    rw [hwh, hwl, hmo, hmd]
    refine ext fun i => ?_
    rw [testBit_append _ (window_nonneg _ _ _) (window_lt _ _ _), testBit_window,
      testBit_window, testBit_window]
    grind
  · cases hrd

lemma mergeLanes_keeps (hB : B.Lawful ρ) (lanes : List (ClassId × ℕ)) {v : ℤ}
    (h : Spells ρ lanes v) :
    Keeps (Run.Sound ρ) (mergeLanes eg B lanes) fun r =>
    lanesWidth r.1 = lanesWidth lanes ∧ Spells ρ r.1 v := by
  unfold mergeLanes
  split
  next hi lo lanes =>
    have hme : ∀ c, lanesWidth ((c, hi.2 + lo.2) :: lanes) =
        lanesWidth (hi :: lo :: lanes) := fun c => by
      rw [lanesWidth_cons, lanesWidth_cons, lanesWidth_cons, add_assoc]
    split
    next k hk =>
      refine .bind (konst_keeps hB k) fun c hc => ?_
      have hsp : Spells ρ ((c, hi.2 + lo.2) :: lanes) v :=
          spells_merge h fun x y hx hy => ⟨k, hc, by
        rw [mergedConst_val hk hx hy, emod_append]⟩
      exact .map (mergeLanes_keeps hB _ hsp) fun r hr => ⟨hr.1.trans (hme c), hr.2⟩
    · refine .bind (mergedSlice_keeps hi lo) fun s hs => ?_
      split
      next src a b =>
        obtain ⟨hab, hval⟩ := hs src a b rfl
        refine .bind (makeGetMask_keeps hB src hab) fun c hc => ?_
        have hsp : Spells ρ ((c, hi.2 + lo.2) :: lanes) v := spells_merge h fun x y hx hy => by
          obtain ⟨s, hs, hwn⟩ := hval x y hx hy
          exact ⟨_, hc s hs, by rw [hwn, emod_append]⟩
        exact .map (mergeLanes_keeps hB _ hsp) fun r hr => ⟨hr.1.trans (hme c), hr.2⟩
      · obtain ⟨hpos, vals, hva, rfl⟩ := h
        obtain ⟨hpo, hpos⟩ := forall_mem_cons.1 hpos
        cases hva with
        | @cons _ x _ vals hx hrel =>
          obtain ⟨x, w⟩ := x
          obtain ⟨hw, hx⟩ := hx
          obtain rfl : hi.2 = w := hw
          refine .map (mergeLanes_keeps hB (lo :: lanes) ⟨hpos, vals, hrel, rfl⟩) fun r hr => ?_
          obtain ⟨hwi, hsp⟩ := hr
          refine ⟨?_, .cons hpo hx (hwi.trans (LaneVals.width hrel)) hsp⟩
          rw [lanesWidth_cons, lanesWidth_cons hi.1, hwi]
  · exact .pure ⟨rfl, h⟩
termination_by lanes.length

lemma concatLanesRule_keeps (ha : SoundAnalyses ρ) (hB : B.Lawful ρ) {v : ℤ}
    (hr : Cell.evalOp .concat (ρ.args root.ops) = some v) :
    Keeps (Run.Sound ρ) (concatLanesRule eg B root) (Replaces ρ v) := by
  unfold concatLanesRule
  split
  · exact keeps_none
  rename_i lanes hla
  have hla : eg.concatLanes kMaxLaneBit 0 root.ops = some lanes := by
    split at hla
    · cases hla
    · exact hla
  obtain ⟨vals, hrel, rfl⟩ := concat_vals (n := ⟨.concat, root.ops⟩) rfl hla hr
  obtain ⟨vals', hre', hco⟩ := dropZeroLanes_vals hrel
  have hke : Spells ρ (dropZeroLanes eg lanes) (Cell.concat vals) :=
    ⟨fun l hl => concatLanes_pos hla l ((dropZeroLanes_sublist lanes).subset hl), vals', hre', hco⟩
  refine .bind (narrowLane_keeps ha hke) fun narrowed hna => ?_
  refine .bind (mergeLanes_keeps hB narrowed.1 hna) fun merged hme => ?_
  refine .ite (fun _ => ?_) fun _ => keeps_none
  obtain ⟨-, hpos, ms, hms, hval⟩ := hme
  rw [← hval]
  exact replaceBy_keeps (makeConcat_keeps hB (laneActs_of hms hpos))

end

end LiveHD.Aegraph
