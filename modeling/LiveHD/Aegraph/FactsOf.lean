import LiveHD.Lib.Keeps
import LiveHD.Aegraph.Cache
import LiveHD.Aegraph.Transfer.Positional

/-!
# The facts of a class

`node_facts`, `facts_rec` and `seed_leaf` of `runtime/analyses.cpp`.  Facts are computed from the
e-nodes of a class with a bounded recursion depth and memoised with the depth they were computed at.
-/

namespace LiveHD.Aegraph

open IntBits List BitVec Bool Option Cell Egraph Facts Function Int

namespace Egraph

variable (eg : Egraph)

/-- The constant window of a `Get_mask` or `Set_mask` that ends at or below `limit`. -/
def constWindow (ops : List Operand) (limit : ℤ) : Option (ℕ × ℕ) := do
  let l ← eg.constI64 (← byBank ops 2)
  let h ← eg.constI64 (← byBank ops 3)
  if 0 ≤ l ∧ l < h ∧ h ≤ limit then some (l.toNat, h.toNat) else none

/-- A constant amount in `[0, limit]`. -/
def constAmount (c : ClassId) (limit : ℤ) : Option ℕ := do
  let k ← eg.constI64 c
  if 0 ≤ k ∧ k ≤ limit then some k.toNat else none

/-- The lanes `(value, width)` of a `Concat`, each at most `limit` wide. -/
def concatLanes (limit : ℤ) : ℕ → List Operand → Option (List (ClassId × ℕ))
  | _, [] => some []
  | _, [_] => none
  | i, v :: w :: rest =>
    if v.bank = i ∧ w.bank = i + 1 then do
      let k ← eg.constI64 w.cls
      if 0 < k ∧ k ≤ limit then
        (concatLanes limit (i + 2) rest).map ((v.cls, k.toNat) :: ·) else none
    else none

end Egraph

section

variable (eg : Egraph) (get : ClassId → Query Facts)

/-- The operands at banks 0 and 1 of a binary node. -/
def binary (ops : List Operand) : Option (ClassId × ClassId) :=
  if ops.length = 2 then do
    let a ← byBank ops 0
    let b ← byBank ops 1
    some (a, b)
  else none

/-- The known bits of a `Concat` from its lanes in the low 64 bits; `off` is the width of the
lanes. -/
def concatBits : ℕ → List (ClassId × ℕ) → Query (BitVec 64 × BitVec 64)
  | _, [] => pure (0, 0)
  | off, (c, w) :: lanes => do
    let off := off - w
    if 64 ≤ off then concatBits off lanes
    else do
      let g ← get c
      let window := lowMask (min w (64 - off))
      let (kz, ko) ← concatBits off lanes
      pure ((g.kz &&& window) <<< off ||| kz, (g.ko &&& window) <<< off ||| ko)

def concatFacts (ops : List Operand) : Query Facts :=
  match if ops.isEmpty then none else eg.concatLanes 4096 0 ops with
  | none => pure .top
  | some lanes => do
    let total := (lanes.map (·.2)).sum
    let (kz, ko) ← concatBits get total lanes
    pure { lo := 0, hi := maskW (min total 200), kz, ko }

/-- The arms of a `Mux` whose ports are all connected. -/
def muxArms (ops : List Operand) : Option (ClassId × List ClassId) := do
  let sel ← byBank ops 0
  let arms := ops.drop 1
  if arms ≠ [] ∧ arms.map (·.bank) = List.range' 1 arms.length then
    some (sel, arms.map (·.cls)) else none

/-- An out-of-range selection has no value, so the selector of an n-ary `Mux` must be in range. -/
def selectorBounded (sel : ClassId) (arms : ℕ) : Query Bool :=
  if 2 < arms then (fun g => decide (0 ≤ g.lo ∧ g.hi ≤ (arms : ℤ) - 1)) <$> get sel else pure true

def joinAll : List Facts → Facts
  | [] => .top
  | f :: fs => fs.foldl join f

def muxFacts (ops : List Operand) : Query Facts :=
  match muxArms ops with
  | none => pure .top
  | some (sel, arms) => do
    let bounded ← selectorBounded get sel arms.length
    if bounded then joinAll <$> arms.mapM get else pure .top

def getMaskQuery (ops : List Operand) : Query Facts :=
  match if ops.length = 3 then eg.constWindow ops (2 ^ 30) else none, byBank ops 0 with
  | some (l, h), some a => getMaskFacts l h <$> get a
  | _, _ => pure .top

def setMaskQuery (ops : List Operand) : Query Facts :=
  match if ops.length = 4 then eg.constWindow ops 4096 else none, byBank ops 0, byBank ops 4 with
  | some (l, h), some a, some v => do
    let ga ← get a
    let gv ← get v
    pure (setMaskFacts l h ga gv)
  | _, _, _ => pure .top

/-- A shift by a constant amount, or by one that is not known. -/
def shiftQuery (const : ℕ → Facts → Facts) (any : Facts → Facts)
    (ops : List Operand) : Query Facts :=
  match binary ops with
  | some (a, b) => (match eg.constAmount b 4096 with
    | some k => const k
    | none => any) <$> get a
  | none => pure .top

def sextQuery (ops : List Operand) : Query Facts :=
  match binary ops with
  | some (a, b) => match eg.constAmount b 98 with
    | some bits => if 1 ≤ bits then sextFacts bits <$> get a else pure .top
    | none => pure .top
  | none => pure .top

/-- A division by a constant that `p` admits. -/
def divisorQuery (p : ℤ → Bool) (facts : ℤ → Facts → Facts) (ops : List Operand) : Query Facts :=
  match binary ops with
  | some (a, b) => match eg.constI64 b with
    | some c => if p c then facts c <$> get a else pure .top
    | none => pure .top
  | none => pure .top

/-- The facts of an e-node, before they are refined. -/
def opFacts (op : NtypeOp) (ops : List Operand) : Query Facts :=
  match op with
  | .sum => (fun gs => sumFacts ((ops.map (·.bank)).zip gs)) <$> ops.mapM fun o => get o.cls
  | .mult => multFacts <$> ops.mapM fun o => get o.cls
  | .and => andFacts <$> ops.mapM fun o => get o.cls
  | .or => orFacts <$> ops.mapM fun o => get o.cls
  | .xor => xorFacts <$> ops.mapM fun o => get o.cls
  | .not => match ops with
    | [o] => notFacts <$> get o.cls
    | _ => pure .top
  | .eq | .lt | .gt | .ror | .rxor => pure boolFacts
  | .popcount => pure (popcountFacts ((byBank ops 1).bind eg.constI64))
  | .getMask => getMaskQuery eg get ops
  | .setMask => setMaskQuery eg get ops
  | .shl => shiftQuery eg get shlFacts shlAnyFacts ops
  | .sra => shiftQuery eg get sraFacts sraAnyFacts ops
  | .sext => sextQuery eg get ops
  | .concat => concatFacts eg get ops
  | .mux => muxFacts get ops
  | .div => divisorQuery eg get (fun c => decide (0 < c)) divFacts ops
  | .rem => divisorQuery eg get (fun c => decide (c ≠ 0 ∧ c ≠ -2 ^ 63)) remFacts ops
  | .hotmux => pure .top

def nodeFacts (n : Enode) : Query Facts := refine <$> opFacts eg get n.op n.operands

end

/-- The facts of a constant: its value, or its sign when it is not an `int64`. -/
def konstFacts : Dlop → Facts
  | .integer v => if isI64 v then .ofConst v else if 0 ≤ v then { lo := 0 } else { hi := -1 }
  | .boolean _ => .top

/-- The facts of a class from its kind. -/
def classFacts (eg : Egraph) (get : ClassId → Query Facts) (seeds : ClassId → Option Facts)
    (c : ClassId) : Query Facts :=
  match eg.cls c with
  | .konst k => pure (konstFacts k)
  | .node n => nodeFacts eg get n
  | .uni a b => do
    let fa ← get a
    let fb ← get b
    pure (fa.meet fb)
  | .leaf => pure ((seeds c).getD .top)
  | .literal => pure .top

/-- Remember a fact with the budget it had. -/
def remember (c : ClassId) (depth : ℕ) (f : Facts) : Query Facts := do
  modify fun cache => { cache with facts := update cache.facts c (some (f, depth)) }
  pure f

/-- The facts of a class, from the memo or with a recursion budget. -/
def factsRec (eg : Egraph) : ℕ → ClassId → Query Facts
  | 0, _ => pure .top
  | depth + 1, c => do
    let cache ← MonadState.get
    match (cache.facts c).filter fun entry => depth + 1 ≤ entry.2 with
    | some (f, _) => pure f
    | none => classFacts eg (factsRec eg depth) cache.seeds c >>= remember c (depth + 1)

/-- The recursion budget of a question. -/
def kDepth : ℕ := 8

def factsOf (eg : Egraph) (c : ClassId) : Query Facts := factsRec eg kDepth c

/-- A leaf whose pin declares `bits` physical bits. -/
def seedLeaf (cache : AnalysisCache) (c : ClassId) (bits : ℕ) (isUnsigned : Bool) : AnalysisCache :=
  if 98 < bits ∧ isUnsigned then { cache with wideSeeds := update cache.wideSeeds c (some bits) }
  else if bits = 0 ∨ 98 < bits then cache
  else
    let f : Facts := if isUnsigned then { lo := 0, hi := maskW bits }
      else { lo := -2 ^ (bits - 1), hi := 2 ^ (bits - 1) - 1 }
    { cache with seeds := update cache.seeds c (some f.refine) }

/-! ## Soundness of an e-node -/

section

variable {eg : Egraph} {ρ : Valuation eg} {get : ClassId → Query Facts} {I : AnalysisCache → Prop}

/-- A question about a class, answered rightly from the caches of an invariant, which is kept. -/
def AnswersIn (I : AnalysisCache → Prop) (ρ : Valuation eg) (c : ClassId)
    (m : Query Facts) : Prop :=
  Keeps I m fun f => ∀ v, ρ.val c = some v → f.Sound v

/-- A question about a class, answered rightly from a sound cache, which stays sound. -/
def Answers (ρ : Valuation eg) (c : ClassId) (m : Query Facts) : Prop :=
  Keeps (AnalysisCache.Sound ρ) m fun f => ∀ v, ρ.val c = some v → f.Sound v

lemma binary_eq {ops : List Operand} {a b : ClassId} (h : binary ops = some (a, b)) :
    byBank ops 0 = some a ∧ byBank ops 1 = some b := by
  unfold binary at h
  split at h
  · simp only [bind_eq_bind, bind_eq_some_iff] at h
    obtain ⟨a', ha, b', hb, rfl, rfl⟩ := h
    exact ⟨ha, hb⟩
  · cases h

variable {limit : ℤ}

lemma constAmount_eq {c : ClassId} {k : ℕ} (h : eg.constAmount c limit = some k) :
    eg.constI64 c = some (k : ℤ) ∧ (k : ℤ) ≤ limit := by
  simp only [constAmount, bind_eq_bind, bind_eq_some_iff] at h
  obtain ⟨k', hk, h⟩ := h
  split at h
  next hle =>
    cases h
    rw [toNat_of_nonneg hle.1]
    exact ⟨hk, hle.2⟩
  · cases h

lemma constWindow_eq {ops : List Operand} {l h : ℕ} (hw : eg.constWindow ops limit = some (l, h)) :
    l < h ∧ (h : ℤ) ≤ limit ∧ (∃ c, byBank ops 2 = some c ∧ eg.constI64 c = some (l : ℤ)) ∧
      ∃ c, byBank ops 3 = some c ∧ eg.constI64 c = some (h : ℤ) := by
  simp only [constWindow, bind_eq_bind, bind_eq_some_iff] at hw
  obtain ⟨cl, hcl, l', hl, ch, hch, h', hh, hw⟩ := hw
  split at hw
  next hle =>
    cases (some.inj hw)
    refine ⟨by omega, by omega, ⟨cl, hcl, ?_⟩, ch, hch, ?_⟩
    · rw [hl, toNat_of_nonneg hle.1]
    · rw [hh, toNat_of_nonneg (by omega)]
  · cases hw

/-- Facts gathered for each operand. -/
lemma gather_sound {ops : List Operand} (hget : ∀ c, AnswersIn I ρ c (get c)) {l : List (ℕ × ℤ)}
    (hl : ρ.Reads ops l) : Keeps I (ops.mapM fun o => get o.cls) fun gs =>
      Operands ((ops.map (·.bank)).zip gs) l ∧ Forall₂ Facts.Sound gs (l.map (·.2)) := by
  refine .mono (.mapM fun o _ => hget o.cls) fun gs hgs => ?_
  induction hl generalizing gs with
  | nil =>
    cases hgs
    exact ⟨.nil, .nil⟩
  | cons hoa _ ih =>
    cases hgs with
    | cons hg hgs =>
      obtain ⟨h1, h2⟩ := ih _ hgs
      exact ⟨.cons ⟨hoa.1, hg _ hoa.2⟩ h1, .cons (hg _ hoa.2) h2⟩

/-- The lanes of a `Concat` and their values. -/
def LaneVals (ρ : Valuation eg) (lanes : List (ClassId × ℕ)) (vals : List (ℤ × ℕ)) : Prop :=
  Forall₂ (fun c x => c.2 = x.2 ∧ ρ.val c.1 = some x.1) lanes vals

variable {lanes : List (ClassId × ℕ)}

lemma LaneVals.width {vals : List (ℤ × ℕ)} (h : LaneVals ρ lanes vals) :
    (lanes.map (·.2)).sum = width vals := by
  induction h with
  | nil => rfl
  | cons h _ ih => simp [Cell.width, ih, h.1]

lemma concatLanes_vals {i : ℕ} {ops : List Operand}
    (h : eg.concatLanes limit i ops = some lanes) {l : List (ℕ × ℤ)} (hl : ρ.Reads ops l) :
    ∃ vals, Cell.lanes (l.map (·.2)) = some vals ∧ LaneVals ρ lanes vals := by
  induction i, ops using concatLanes.induct generalizing lanes l with
  | case1 i =>
    cases hl
    cases h
    exact ⟨[], rfl, Forall₂.nil⟩
  | case2 i o => cases h
  | case3 i v w rest hba ih =>
    cases hl with
    | @cons _ x _ _ hv hl =>
      cases hl with
      | @cons _ y _ _ hw hl =>
        rw [concatLanes, if_pos hba] at h
        simp only [bind_eq_bind, bind_eq_some_iff] at h
        obtain ⟨k, hk, h⟩ := h
        split at h
        next hpos =>
          obtain ⟨lanes', hla, rfl⟩ := map_eq_some_iff.1 h
          obtain ⟨vals, hva, hrel⟩ := ih hla hl
          have hkw := hw.2.symm.trans (ρ.constI64 hk)
          cases hkw
          refine ⟨(x.2, y.2.toNat) :: vals, ?_, .cons ⟨rfl, hv.2⟩ hrel⟩
          simp only [map_cons, lanes, if_pos hpos.1, hva, map_some]
        · cases h
  | case4 i v w rest hba =>
    rw [concatLanes, if_neg hba] at h
    cases h

/-- The known bits of the lanes, all of them below the width of the lanes. -/
lemma concatBits_sound (hget : ∀ c, AnswersIn I ρ c (get c)) {vals : List (ℤ × ℕ)}
    (h : LaneVals ρ lanes vals) :
    Keeps I (concatBits get (width vals) lanes) fun m =>
      KzOk m.1 (concat vals) ∧ KoOk m.2 (concat vals) ∧
      ∀ i, m.1.getLsbD i = true → i < width vals := by
  induction h with
  | nil => exact .pure ⟨kzOk_zero, koOk_zero, fun i hi => by simp at hi⟩
  | @cons c x lanes vals hcx _ ih =>
    obtain ⟨c, w⟩ := c
    obtain ⟨x, w'⟩ := x
    obtain ⟨rfl, hx⟩ := hcx
    have hoff : width ((x, w) :: vals) - w = width vals := by simp
    -- the lanes below `off` keep their bits
    have hr : ∀ m : BitVec 64 × BitVec 64, KzOk m.1 (concat vals) ∧ KoOk m.2 (concat vals) ∧
        (∀ i, m.1.getLsbD i = true → i < width vals) →
        KzOk m.1 (concat ((x, w) :: vals)) ∧ KoOk m.2 (concat ((x, w) :: vals)) ∧
          ∀ i, m.1.getLsbD i = true → i < width ((x, w) :: vals) := by
      rintro m ⟨hz, ho, hlt⟩
      refine ⟨fun i hi => ?_, fun i hi => ?_, fun i hi => ?_⟩
      · rw [testBit_concat_cons, if_pos (hlt i hi)]
        exact hz i hi
      · have hbit := ho i hi
        have : i < width vals := by
          by_contra hge
          have := (lt_two_pow_iff (concat_nonneg vals)).1 (concat_lt vals) i (by omega)
          rw [this] at hbit
          cases hbit
        rwa [testBit_concat_cons, if_pos this]
      · have := hlt i hi
        omega
    unfold concatBits
    simp only [hoff]
    refine .ite (fun _ => ih.mono hr) fun hlow => ?_
    refine .bind (hget c) fun g hg => .bind ih fun m hm => .pure ?_
    obtain ⟨hz, ho, hlt⟩ := hr m hm
    have hla : ∀ {b : BitVec 64} {i : ℕ},
        ((b &&& lowMask (min w (64 - width vals))) <<< width vals).getLsbD i = true →
        width vals ≤ i ∧ i - width vals < w ∧ b.getLsbD (i - width vals) = true := by
      intro b i hi
      rw [getLsbD_shiftLeft, getLsbD_and, getLsbD_lowMask] at hi
      grind
    refine ⟨fun i hi => ?_, fun i hi => ?_, fun i hi => ?_⟩
    · rw [getLsbD_or, or_eq_true] at hi
      rcases hi with hi | hi
      · obtain ⟨h1, h2, h3⟩ := hla hi
        rw [testBit_concat_cons, if_neg (by omega), (hg x hx).kz _ h3, Bool.and_false]
      · exact hz i hi
    · rw [getLsbD_or, or_eq_true] at hi
      rcases hi with hi | hi
      · obtain ⟨h1, h2, h3⟩ := hla hi
        rw [testBit_concat_cons, if_neg (by omega), (hg x hx).ko _ h3]
        simp [h2]
      · exact ho i hi
    · rw [getLsbD_or, or_eq_true] at hi
      rcases hi with hi | hi
      · obtain ⟨h1, h2, h3⟩ := hla hi
        rw [width_cons]
        omega
      · exact hlt i hi

lemma concatFacts_sound (hget : ∀ c, AnswersIn I ρ c (get c))
    {ops : List Operand} {l : List (ℕ × ℤ)}
    (hl : ρ.Reads ops l) {v : ℤ} (hv : evalKnown .concat l = some v) :
    Keeps I (concatFacts eg get ops) (·.Sound v) := by
  unfold concatFacts
  split
  · exact .pure top_sound
  next lanes hla =>
    have hla : eg.concatLanes 4096 0 ops = some lanes := by
      split at hla
      · cases hla
      · exact hla
    obtain ⟨vals, hva, hrel⟩ := concatLanes_vals hla hl
    have hval : v = Cell.concat vals := by
      simp only [evalKnown, hva] at hv
      split at hv
      · exact (some.inj hv).symm
      · cases hv
    subst hval
    simp only [hrel.width]
    refine .bind (concatBits_sound hget hrel) fun m hm => .pure ?_
    refine ⟨.of_le (concat_nonneg _), ?_, hm.1, hm.2.1, kInf_pos, lt_maskW _⟩
    rw [maskW_min]
    exact .maskW (concat_lt _)

lemma joinAll_sound {v : ℤ} {fs : List Facts} (h : ∃ g ∈ fs, g.Sound v) : (joinAll fs).Sound v := by
  have key : ∀ (f : Facts) (fs : List Facts), (∃ g ∈ f :: fs, g.Sound v) →
      (fs.foldl join f).Sound v := by
    intro f fs
    induction fs generalizing f with
    | nil => simp
    | cons g fs ih =>
      rintro ⟨g', hmem, hg⟩
      refine ih _ ?_
      rcases mem_cons.1 hmem with rfl | hmem
      · exact ⟨_, .head _, join_sound_left hg⟩
      rcases mem_cons.1 hmem with rfl | hmem
      · exact ⟨_, .head _, join_sound_right hg⟩
      · exact ⟨g', .tail _ hmem, hg⟩
  cases fs with
  | nil => exact top_sound
  | cons f fs => exact key f fs h

/-- A selector that has a value reads the operand of some port above 0. -/
lemma evalMux_port {args : List (ℕ × Option ℤ)} {v : ℤ} (h : evalMux args = some v) :
    ∃ p, 1 ≤ p ∧ byBank args p = some (some v) := by
  simp only [evalMux, bind_eq_bind, bind_eq_some_iff] at h
  obtain ⟨s, -, h⟩ := h
  split at h
  · exact ⟨_, by split <;> omega, join_eq_some_iff.1 h⟩
  split at h
  · exact ⟨_, Nat.le_add_left 1 _, join_eq_some_iff.1 h⟩
  · cases h

/-- A `Mux` with every port connected reads one of its arms. -/
lemma evalMux_arm {ops : List Operand} {sel : ClassId} {arms : List ClassId} {v : ℤ}
    (h : muxArms ops = some (sel, arms))
    (hv : Cell.evalOp .mux (ops.map fun o => (o.bank, ρ.val o.cls)) = some v) :
    ∃ c ∈ arms, ρ.val c = some v := by
  obtain ⟨p, hp, hba⟩ := evalMux_port hv
  simp only [muxArms, bind_eq_bind, bind_eq_some_iff] at h
  obtain ⟨sel', hsel, h⟩ := h
  split at h
  next har =>
    cases (some.inj h)
    obtain ⟨a, hfi, ha⟩ := map_eq_some_iff.1 hba
    obtain ⟨o, ho, rfl⟩ := mem_map.1 (mem_of_find?_eq_some hfi)
    have hob : o.bank = p := by simpa using find?_some hfi
    refine ⟨o.cls, mem_map.2 ⟨o, ?_, rfl⟩, ha⟩
    cases ops with
    | nil => cases ho
    | cons o₀ ops =>
      rcases mem_cons.1 ho with rfl | ho
      · -- the first operand is the selector: no arm is at bank 0
        exfalso
        obtain ⟨o', hfi', -⟩ := map_eq_some_iff.1 hsel
        have hmem := mem_of_find?_eq_some hfi'
        have hb : o'.bank = 0 := by simpa using find?_some hfi'
        rcases mem_cons.1 hmem with rfl | hmem
        · omega
        · have hr : o'.bank ∈ range' 1 ops.length :=
            har.2 ▸ mem_map.2 ⟨o', hmem, rfl⟩
          rw [mem_range'_1] at hr
          omega
      · exact ho
  · cases h

/-- Among facts about classes, one about a class with value `v` is sound for `v`. -/
lemma exists_sound_of_mem {cs : List ClassId} {fs : List Facts} {c : ClassId} {v : ℤ}
    (h : Forall₂ (fun c f => ∀ v, ρ.val c = some v → f.Sound v) cs fs) (hc : c ∈ cs)
    (hv : ρ.val c = some v) : ∃ f ∈ fs, f.Sound v := by
  induction h with
  | nil => cases hc
  | cons hf _ ih =>
    rcases mem_cons.1 hc with rfl | hc
    · exact ⟨_, .head _, hf v hv⟩
    · obtain ⟨f, hmem, hf⟩ := ih hc
      exact ⟨f, .tail _ hmem, hf⟩

lemma muxFacts_sound (hget : ∀ c, AnswersIn I ρ c (get c)) {ops : List Operand} {v : ℤ}
    (hv : Cell.evalOp .mux (ops.map fun o => (o.bank, ρ.val o.cls)) = some v) :
    Keeps I (muxFacts get ops) (·.Sound v) := by
  unfold muxFacts
  split
  · exact .pure top_sound
  next sel arms har =>
    obtain ⟨c, hc, hcv⟩ := evalMux_arm har hv
    refine .bind (P := fun _ => True) ?_ fun bounded _ => ?_
    · exact .ite (fun _ => .map (hget sel) fun _ _ => trivial) fun _ => .pure trivial
    refine .ite (fun _ => ?_) fun _ => .pure top_sound
    exact .map (.mapM fun c _ => hget c) fun fs hfs =>
      joinAll_sound (exists_sound_of_mem hfs hc hcv)

section

variable {ops : List Operand} {l : List (ℕ × ℤ)} (hl : ρ.Reads ops l)
include hl

/-- The values of the two operands of a binary node. -/
lemma reads_binary {a b : ClassId} (h : binary ops = some (a, b)) :
    ∃ x y, byBank l 0 = some x ∧ ρ.val a = some x ∧
      byBank l 1 = some y ∧ ρ.val b = some y := by
  obtain ⟨ha, hb⟩ := binary_eq h
  obtain ⟨x, hx, hxv⟩ := hl.byBank ha
  obtain ⟨y, hy, hyv⟩ := hl.byBank hb
  exact ⟨x, y, hx, hxv, hy, hyv⟩

/-- The constant window of a `Get_mask` or `Set_mask` is the one its cell reads. -/
lemma reads_window {lo hi : ℕ} (h : eg.constWindow ops limit = some (lo, hi)) :
    lo < hi ∧ byBank l 2 = some (lo : ℤ) ∧
      byBank l 3 = some (hi : ℤ) ∧ bitRange lo hi = some (lo, hi - lo) := by
  obtain ⟨hlt, -, ⟨cl, hcl, hkl⟩, ch, hch, hkh⟩ := constWindow_eq h
  obtain ⟨xl, hxl, hxlv⟩ := hl.byBank hcl
  obtain ⟨xh, hxh, hxhv⟩ := hl.byBank hch
  cases (hxlv.symm.trans (ρ.constI64 hkl))
  cases (hxhv.symm.trans (ρ.constI64 hkh))
  refine ⟨hlt, hxl, hxh, ?_⟩
  rw [bitRange_of (natCast_nonneg lo) (ofNat_lt.2 hlt), toNat_natCast,
    show ((hi : ℤ) - lo).toNat = hi - lo by omega]

end

/-- The shift of a class `a` by a constant amount, as `node_facts` recognises it. -/
def IsConstShl (eg : Egraph) (n : Enode) (a : ClassId) (k : ℕ) : Prop :=
  n.op = .shl ∧ ∃ b, binary n.operands = some (a, b) ∧ eg.constAmount b 4096 = some k

section

variable (hget : ∀ c, AnswersIn I ρ c (get c)) {ops : List Operand} {l : List (ℕ × ℤ)}
  (hl : ρ.Reads ops l) {v : ℤ}
include hget hl

lemma getMaskQuery_sound (hv : evalKnown .getMask l = some v) :
    Keeps I (getMaskQuery eg get ops) (·.Sound v) := by
  unfold getMaskQuery
  split
  next lo hi a hwin ha =>
    split at hwin
    · obtain ⟨-, h2, h3, hr⟩ := reads_window hl hwin
      obtain ⟨x, hx, hxv⟩ := hl.byBank ha
      simp only [evalKnown, h2, h3, hx, hr, bind_eq_bind, bind_some] at hv
      cases hv
      exact .map (hget a) fun g hg => getMaskFacts_sound lo (hg x hxv)
    · cases hwin
  · exact .pure top_sound

lemma setMaskQuery_sound (hv : evalKnown .setMask l = some v) :
    Keeps I (setMaskQuery eg get ops) (·.Sound v) := by
  unfold setMaskQuery
  split
  next lo hi a w hwin ha hw =>
    split at hwin
    · obtain ⟨hlt, h2, h3, hr⟩ := reads_window hl hwin
      obtain ⟨x, hx, hxv⟩ := hl.byBank ha
      obtain ⟨y, hy, hyv⟩ := hl.byBank hw
      simp only [evalKnown, h2, h3, hx, hy, hr, bind_eq_bind, bind_some] at hv
      cases hv
      refine .bind (hget a) fun ga hga => .bind (hget w) fun gv hgv => .pure ?_
      exact setMaskFacts_sound hlt.le (hga x hxv) (hgv y hyv)
    · cases hwin
  · exact .pure top_sound

/-- A shift, from what its transfer functions say about `f x k`, the value of the cell. -/
lemma shiftQuery_sound (op : NtypeOp) {f : ℤ → ℕ → ℤ}
    {const : ℕ → Facts → Facts} {any : Facts → Facts}
    (hf : ∀ {x y}, byBank l 0 = some x → byBank l 1 = some y → evalKnown op l = some v →
      0 ≤ y ∧ v = f x y.toNat)
    (hc : ∀ a b k x g, binary ops = some (a, b) → eg.constAmount b 4096 = some k → v = f x k →
      Facts.Sound g x → (const k g).Sound v)
    (hany : ∀ k x g, v = f x k → Facts.Sound g x → (any g).Sound v)
    (hv : evalKnown op l = some v) :
    Keeps I (shiftQuery eg get const any ops) (·.Sound v) := by
  unfold shiftQuery
  split
  next a b hab =>
    obtain ⟨x, y, hx, hxv, hy, hyv⟩ := reads_binary hl hab
    obtain ⟨hy0, hvf⟩ := hf hx hy hv
    refine .map (hget a) fun g hg => ?_
    cases hk : eg.constAmount b 4096 with
    | some k =>
      obtain ⟨hk', -⟩ := constAmount_eq hk
      cases (hyv.symm.trans (ρ.constI64 hk'))
      exact hc a b k x g hab hk (by simpa using hvf) (hg x hxv)
    | none => exact hany _ x g hvf (hg x hxv)
  · exact .pure top_sound

lemma shlQuery_sound (hv : evalKnown .shl l = some v)
    (hno : ∀ a k, ¬IsConstShl eg ⟨.shl, ops⟩ a k) :
    Keeps I (shiftQuery eg get shlFacts shlAnyFacts ops) (·.Sound v) := by
  refine shiftQuery_sound hget hl .shl (f := fun x k => x * 2 ^ k) ?_ ?_ ?_ hv
  · intro x y hx hy hv
    simp only [evalKnown, hx, hy, bind_eq_bind, bind_some] at hv
    split at hv
    · exact ⟨‹_›, (some.inj hv).symm⟩
    · cases hv
  · rintro a b k x g hab hk - -
    exact absurd ⟨rfl, b, hab, hk⟩ (hno a k)
  · rintro k x g rfl hg
    exact shlAnyFacts_sound k hg

lemma sraQuery_sound (hv : evalKnown .sra l = some v) :
    Keeps I (shiftQuery eg get sraFacts sraAnyFacts ops) (·.Sound v) := by
  refine shiftQuery_sound hget hl .sra (f := fun x k => x / 2 ^ k) ?_ ?_ ?_ hv
  · intro x y hx hy hv
    simp only [evalKnown, hx, hy, bind_eq_bind, bind_some] at hv
    split at hv
    · exact ⟨‹_›, (some.inj hv).symm⟩
    · cases hv
  · rintro a b k x g - - rfl hg
    exact sraFacts_sound k hg
  · rintro k x g rfl hg
    exact sraAnyFacts_sound k hg

lemma sextQuery_sound (hv : evalKnown .sext l = some v) :
    Keeps I (sextQuery eg get ops) (·.Sound v) := by
  unfold sextQuery
  split
  next a b hab =>
    obtain ⟨x, y, hx, hxv, hy, hyv⟩ := reads_binary hl hab
    split
    next bits hbi =>
      obtain ⟨hb, hle⟩ := constAmount_eq hbi
      cases (hyv.symm.trans (ρ.constI64 hb))
      refine .ite (fun h1 => ?_) fun _ => .pure top_sound
      simp only [evalKnown, hx, hy, bind_eq_bind, bind_some] at hv
      rw [if_pos (by omega)] at hv
      cases hv
      exact .map (hget a) fun g hg => sextFacts_sound h1 (by omega) (hg x hxv)
    · exact .pure top_sound
  · exact .pure top_sound

/-- A division, from what its transfer function says about the value `v` of the cell. -/
lemma divisorQuery_sound {p : ℤ → Bool} {facts : ℤ → Facts → Facts}
    (hfa : ∀ x c g, byBank l 0 = some x → byBank l 1 = some c → isI64 c = true → p c = true →
      Facts.Sound g x → (facts c g).Sound v) :
    Keeps I (divisorQuery eg get p facts ops) (·.Sound v) := by
  unfold divisorQuery
  split
  next a b hab =>
    obtain ⟨x, y, hx, hxv, hy, hyv⟩ := reads_binary hl hab
    split
    next c hc =>
      cases (hyv.symm.trans (ρ.constI64 hc))
      refine .ite (fun hp => ?_) fun _ => .pure top_sound
      exact .map (hget a) fun g hg => hfa x y g hx hy (eg.isI64_of_constI64 hc) hp (hg x hxv)
    · exact .pure top_sound
  · exact .pure top_sound

lemma divQuery_sound (hv : evalKnown .div l = some v) :
    Keeps I (divisorQuery eg get (fun c => decide (0 < c)) divFacts ops) (·.Sound v) := by
  refine divisorQuery_sound hget hl ?_
  intro x c g hx hc _ hp hg
  simp only [decide_eq_true_eq] at hp
  simp only [evalKnown, hx, hc, bind_eq_bind, bind_some, ne_eq, hp.ne',
    not_false_eq_true, if_true] at hv
  cases hv
  exact divFacts_sound hp hg

lemma remQuery_sound (hv : evalKnown .rem l = some v) : Keeps I
      (divisorQuery eg get (fun c => decide (c ≠ 0 ∧ c ≠ -2 ^ 63)) remFacts ops) (·.Sound v) := by
  refine divisorQuery_sound hget hl ?_
  intro x c g hx hc _ hp hg
  simp only [decide_eq_true_eq] at hp
  simp only [evalKnown, hx, hc, bind_eq_bind, bind_some, ne_eq, hp.1,
    not_false_eq_true, if_true] at hv
  cases hv
  exact remFacts_sound hp.1 hg

omit hget in
lemma popcount_sound (hv : evalKnown .popcount l = some v) :
    (popcountFacts ((byBank ops 1).bind eg.constI64)).Sound v := by
  simp only [evalKnown, bind_eq_bind, bind_eq_some_iff] at hv
  obtain ⟨k, hk, hv⟩ := hv
  split at hv
  next hk0 =>
    obtain ⟨x, -, hv⟩ := bind_eq_some_iff.1 hv
    cases hv
    refine popcountFacts_sound (natCast_nonneg _) fun w hw => ?_
    obtain ⟨c, hc, hw⟩ := bind_eq_some_iff.1 hw
    obtain ⟨y, hy, hyv⟩ := hl.byBank hc
    cases (hyv.symm.trans (ρ.constI64 hw))
    cases (hk.symm.trans hy)
    refine ⟨eg.isI64_of_constI64 hw, ?_⟩
    have : popcount x k.toNat ≤ k.toNat := by
      have := countP_le_length (p := x.testBit) (l := range k.toNat)
      rwa [length_range] at this
    omega
  · cases hv

end

/-- The value of a parity is 0 or 1. -/
lemma evalKnown_rxor {l : List (ℕ × ℤ)} {v : ℤ}
    (hv : evalKnown .rxor l = some v) : ∃ b, v = flag b := by
  simp only [evalKnown, bind_eq_bind, bind_eq_some_iff] at hv
  obtain ⟨k, -, hv⟩ := hv
  split at hv
  · obtain ⟨x, -, hv⟩ := bind_eq_some_iff.1 hv
    cases hv
    rcases Nat.mod_two_eq_zero_or_one (popcount x k.toNat) with h | h
    · exact ⟨false, by rw [h]; rfl⟩
    · exact ⟨true, by rw [h]; rfl⟩
  · cases hv

/-- The facts of an e-node, other than a shift by a constant. -/
lemma nodeFacts_sound (hget : ∀ c, AnswersIn I ρ c (get c)) {n : Enode} {v : ℤ}
    (hv : Cell.evalOp n.op (n.operands.map fun o => (o.bank, ρ.val o.cls)) = some v)
    (hno : ∀ a k, ¬IsConstShl eg n a k) :
    Keeps I (nodeFacts eg get n) (·.Sound v) := by
  obtain ⟨op, ops⟩ := n
  refine .map (P := (·.Sound v)) ?_ fun f hf => refine_sound hf
  by_cases hop : isStrict op = true
  · obtain ⟨l, hl, hv⟩ := ρ.exists_reads _ hop hv
    cases op with
    | mux => cases hop
    | hotmux => cases hop
    | concat => exact concatFacts_sound hget hl hv
    | sum =>
      cases hv
      exact .map (gather_sound hget hl) fun gs hgs => sumFacts_sound hgs.1
    | mult =>
      cases hv
      exact .map (gather_sound hget hl) fun gs hgs => multFacts_sound hgs.2
    | and =>
      cases hv
      exact .map (gather_sound hget hl) fun gs hgs => andFacts_sound hgs.2
    | or =>
      cases hv
      exact .map (gather_sound hget hl) fun gs hgs => orFacts_sound hgs.2
    | xor =>
      cases hv
      exact .map (gather_sound hget hl) fun gs hgs => xorFacts_sound hgs.2
    | not =>
      simp only [opFacts]
      split
      · cases hl with
        | cons hx hl =>
          cases hl
          cases hv
          exact .map (hget _) fun g hg => notFacts_sound (hg _ hx.2)
      · exact .pure top_sound
    | eq =>
      refine .pure ?_
      cases l with
      | nil =>
        cases hv
        exact boolFacts_sound true
      | cons a l =>
        cases hv
        exact boolFacts_sound _
    | lt | gt | ror =>
      cases hv
      exact .pure (boolFacts_sound _)
    | rxor =>
      obtain ⟨b, rfl⟩ := evalKnown_rxor hv
      exact .pure (boolFacts_sound b)
    | popcount => exact .pure (popcount_sound hl hv)
    | getMask => exact getMaskQuery_sound hget hl hv
    | setMask => exact setMaskQuery_sound hget hl hv
    | shl => exact shlQuery_sound hget hl hv hno
    | sra => exact sraQuery_sound hget hl hv
    | sext => exact sextQuery_sound hget hl hv
    | div => exact divQuery_sound hget hl hv
    | rem => exact remQuery_sound hget hl hv
  · cases op with
    | mux => exact muxFacts_sound hget hv
    | hotmux => exact .pure top_sound
    | _ => exact absurd rfl hop

/-- What asking about its operands keeps, asking about an e-node keeps. -/
lemma nodeFacts_keeps (hany : ∀ c, Keeps I (get c) fun _ => True) (n : Enode) :
    Keeps I (nodeFacts eg get n) fun _ => True := by
  have hall : ∀ f : List Facts → Facts, Keeps I
      (f <$> n.operands.mapM fun o => get o.cls) fun _ => True := fun f =>
    Keeps.map (.mapM fun o _ => hany o.cls) fun _ _ => trivial
  have hone : ∀ (f : Facts → Facts) c, Keeps I (f <$> get c) fun _ => True :=
    fun f c => .map (hany c) fun _ _ => trivial
  have htop : ∀ f : Facts, Keeps I (pure f) fun _ => True := fun _ => .pure trivial
  have hsh : ∀ const any, Keeps I (shiftQuery eg get const any n.operands)
      fun _ => True := by
    intro const any
    unfold shiftQuery
    split
    · exact hone _ _
    · exact htop _
  have hdi : ∀ p facts, Keeps I (divisorQuery eg get p facts n.operands)
      fun _ => True := by
    intro p facts
    unfold divisorQuery
    split
    · split
      · exact .ite (fun _ => hone _ _) fun _ => htop _
      · exact htop _
    · exact htop _
  have hb : ∀ lanes off, Keeps I (concatBits get off lanes) fun _ => True := by
    intro lanes
    induction lanes with
    | nil => exact fun off => .pure trivial
    | cons l lanes ih =>
      intro off
      refine .ite (fun _ => ih _) fun _ => .bind (hany _) fun g _ => ?_
      exact .bind (ih _) fun m _ => .pure trivial
  obtain ⟨op, ops⟩ := n
  refine .map (P := fun _ => True) ?_ fun _ _ => trivial
  cases op with
  | sum | mult | and | or | xor => exact hall _
  | not =>
    simp only [opFacts]
    split
    · exact hone _ _
    · exact htop _
  | eq | lt | gt | ror | rxor | popcount | hotmux => exact htop _
  | getMask =>
    simp only [opFacts, getMaskQuery]
    split
    · exact hone _ _
    · exact htop _
  | setMask =>
    simp only [opFacts, setMaskQuery]
    split
    · exact .bind (hany _) fun _ _ => .bind (hany _) fun _ _ => .pure trivial
    · exact htop _
  | shl | sra => exact hsh _ _
  | sext =>
    simp only [opFacts, sextQuery]
    split
    · split
      · exact .ite (fun _ => hone _ _) fun _ => htop _
      · exact htop _
    · exact htop _
  | concat =>
    simp only [opFacts, concatFacts]
    split
    · exact htop _
    · exact .bind (hb _ _) fun _ _ => .pure trivial
  | mux =>
    simp only [opFacts, muxFacts]
    split
    · exact htop _
    · refine .bind (P := fun _ => True) ?_ fun _ _ => ?_
      · exact .ite (fun _ => .map (hany _) fun _ _ => trivial) fun _ => .pure trivial
      · refine .ite (fun _ => ?_) fun _ => htop _
        exact .map (.mapM fun c _ => hany c) fun _ _ => trivial
  | div | rem => exact hdi _ _

end

end LiveHD.Aegraph
