import LiveHD.Aegraph.Rules.Gather

/-!
# The hand-written mask rules

The native rules of `rules/mask.cpp`, with the operators each is tried on.  A rule run in
an e-graph with sound analyses, over an engine that builds what it is asked for, answers a
class of the value of its root.
-/

namespace LiveHD.Aegraph

open IntBits List LiveHD.Aegraph.Valuation

inductive MaskRule where
  | getmaskLane | getmaskFits | getmaskDropTerms | getmaskSumChain | getmaskConcatStraddle
  | bitRunReduction | orShiftedWindows | orPackToConcat | setmaskToConcat | sraLane | concatLanes
deriving DecidableEq

namespace MaskRule

/-- The operators a rule is tried on. -/
def ops : MaskRule → List NtypeOp
  | getmaskLane | getmaskFits | getmaskDropTerms | getmaskSumChain | getmaskConcatStraddle =>
    [.getMask]
  | bitRunReduction => [.and, .or]
  | orShiftedWindows | orPackToConcat => [.or]
  | setmaskToConcat => [.setMask]
  | sraLane => [.sra]
  | concatLanes => [.concat]

variable {σ : Type}

def body (eg : Egraph) (B : Builder σ) : MaskRule → Root → RuleM σ (Option Result)
  | getmaskLane => Aegraph.getmaskLane eg B
  | getmaskFits => Aegraph.getmaskFits eg
  | getmaskDropTerms => Aegraph.getmaskDropTerms eg B
  | getmaskSumChain => Aegraph.getmaskSumChain eg B
  | getmaskConcatStraddle => Aegraph.getmaskConcatStraddle eg B
  | bitRunReduction => Aegraph.bitRunReduction eg B
  | orShiftedWindows => Aegraph.orShiftedWindows eg B
  | orPackToConcat => Aegraph.orPackToConcat eg B
  | setmaskToConcat => Aegraph.setmaskToConcat eg B
  | sraLane => Aegraph.sraLane eg B
  | concatLanes => Aegraph.concatLanesRule eg B

variable {eg : Egraph} {ρ : Valuation eg} {B : Builder σ}

lemma body_keeps (ha : SoundAnalyses ρ) (hB : B.Lawful ρ) (rule : MaskRule) {root : Root}
    (hop : root.op ∈ rule.ops)
    {v : ℤ} (hr : Cell.evalOp root.op (ρ.args root.ops) = some v) :
    Keeps (Run.Sound ρ) (rule.body eg B root) (Replaces ρ v) := by
  cases rule with
  | bitRunReduction => exact bitRunReduction_keeps hB (by simpa [ops] using hop) hr
  | getmaskLane => exact getmaskLane_keeps ha hB (mem_singleton.1 hop ▸ hr)
  | getmaskFits => exact getmaskFits_keeps ha (mem_singleton.1 hop ▸ hr)
  | getmaskDropTerms => exact getmaskDropTerms_keeps ha hB (mem_singleton.1 hop ▸ hr)
  | getmaskSumChain => exact getmaskSumChain_keeps ha hB (mem_singleton.1 hop ▸ hr)
  | getmaskConcatStraddle => exact getmaskConcatStraddle_keeps hB (mem_singleton.1 hop ▸ hr)
  | orShiftedWindows => exact orShiftedWindows_keeps hB (mem_singleton.1 hop ▸ hr)
  | orPackToConcat => exact orPackToConcat_keeps ha hB (mem_singleton.1 hop ▸ hr)
  | setmaskToConcat => exact setmaskToConcat_keeps ha hB (mem_singleton.1 hop ▸ hr)
  | sraLane => exact sraLane_keeps ha hB (mem_singleton.1 hop ▸ hr)
  | concatLanes => exact concatLanesRule_keeps ha hB (mem_singleton.1 hop ▸ hr)

/-- What a rule answers has the value of the class it rewrites. -/
theorem body_exact (ρ : Valuation eg) (ha : SoundAnalyses ρ) (hB : B.Lawful ρ)
    (rule : MaskRule) (root : Root)
    (hop : root.op ∈ rule.ops) (hnode : eg.cls root.cls = .node ⟨root.op, root.ops⟩) {v : ℤ}
    (hv : ρ.val root.cls = some v) (s : Run σ) (hs : s.Sound ρ) :
    (∀ res, ((rule.body eg B root).run s).1 = some res → ρ.val res.cls = ρ.val root.cls) ∧
    ((rule.body eg B root).run s).2.Sound ρ := by
  have hroot := (ρ.node _ _ hnode).symm.trans hv
  obtain ⟨hres, hsound⟩ := body_keeps ha hB rule hop hroot s hs
  exact ⟨fun res h => (hres res h).trans hv.symm, hsound⟩

end MaskRule

/-! ## An engine with everything built -/

/-- The values of the classes of an e-graph; the leaves past them run through the integers. -/
def tailedVal (vals : List ℤ) (c : ClassId) : Option ℤ :=
  some ((vals[c]?).getD (Equiv.intEquivNat.symm (c - vals.length)))

/-- A table of values with the integers behind it. -/
def Valuation.tailed {eg : Egraph} (vals : List ℤ)
    (h : ∀ c < eg.classes.length, eg.Respects (tailedVal vals) c) : Valuation eg :=
  have hall : ∀ c, eg.Respects (tailedVal vals) c := fun c => by
    by_cases hc : c < eg.classes.length
    · exact h c hc
    · have hl : eg.cls c = .leaf := by simp [Egraph.cls, getElem?_eq_none (not_lt.1 hc)]
      simp [Egraph.Respects, hl, tailedVal]
  { val := tailedVal vals
    leaf := fun c hc => by simpa only [Egraph.Respects, hc] using hall c
    literal := fun c hc => by simpa only [Egraph.Respects, hc] using hall c
    konst := fun c k hc => by simpa only [Egraph.Respects, hc] using hall c
    node := fun c n hc => by simpa only [Egraph.Respects, hc] using hall c
    uni := fun c a b hc => by simpa only [Egraph.Respects, hc] using hall c }

/-- The class of an e-node or a constant when the e-graph has it, and a leaf of its value
otherwise. -/
def hashCons (eg : Egraph) (vals : List ℤ) : Builder Unit where
  make op ops := pure <| match eg.classes.findIdx? (· == .node ⟨op, ops⟩) with
    | some c => c
    | none => vals.length + Equiv.intEquivNat
      ((Cell.evalOp op (ops.map fun o => (o.bank, tailedVal vals o.cls))).getD 0)
  konst k := pure <| match eg.classes.findIdx? (· == .konst (.integer k)) with
    | some c => c
    | none => vals.length + Equiv.intEquivNat k
  singleUse _ _ := false

lemma Egraph.cls_of_findIdx? {eg : Egraph} {e : Eclass} {c : ℕ}
    (h : eg.classes.findIdx? (· == e) = some c) : eg.cls c = e := by
  obtain ⟨hlt, heq, -⟩ := findIdx?_eq_some_iff_getElem.1 h
  rw [Egraph.cls, getElem?_eq_getElem hlt]
  exact beq_iff_eq.1 heq

lemma tailedVal_tail (vals : List ℤ) (v : ℤ) :
    tailedVal vals (vals.length + Equiv.intEquivNat v) = some v := by
  simp [tailedVal]

lemma hashCons_lawful {eg : Egraph} (vals : List ℤ)
    (h : ∀ c < eg.classes.length, eg.Respects (tailedVal vals) c) :
    (hashCons eg vals).Lawful (Valuation.tailed vals h) where
  make op ops := by
    refine .pure fun v hv => ?_
    split
    next c hc => exact ((tailed vals h).node c _ (Egraph.cls_of_findIdx? hc)).trans hv
    · change Cell.evalOp op (ops.map fun o => (o.bank, tailedVal vals o.cls)) = some v at hv
      rw [hv]
      exact tailedVal_tail vals v
  konst k := by
    refine .pure ?_
    split
    next c hc => exact (tailed vals h).konst c _ (Egraph.cls_of_findIdx? hc)
    · exact tailedVal_tail vals k

/-- Two halves of a word put back in place, next to the window they are. -/
def halvesEgraph : Egraph where
  classes := [.leaf, .konst (.integer 0), .konst (.integer 64), .konst (.integer 128),
    .node ⟨.getMask, [⟨0, 0⟩, ⟨2, 2⟩, ⟨3, 3⟩]⟩, .node ⟨.shl, [⟨0, 4⟩, ⟨1, 2⟩]⟩,
    .node ⟨.getMask, [⟨0, 0⟩, ⟨2, 1⟩, ⟨3, 2⟩]⟩, .node ⟨.or, [⟨0, 5⟩, ⟨0, 6⟩]⟩,
    .node ⟨.getMask, [⟨0, 0⟩, ⟨2, 1⟩, ⟨3, 3⟩]⟩]
  operandsFirst := by decide

def halvesVals : List ℤ :=
  [3 * 2 ^ 64 + 5, 0, 64, 128, 3, 3 * 2 ^ 64, 5, 3 * 2 ^ 64 + 5, 3 * 2 ^ 64 + 5]

def halvesRoot : Root := ⟨.or, [⟨0, 5⟩, ⟨0, 6⟩], 7⟩

lemma halves_respects : ∀ c < halvesEgraph.classes.length,
    halvesEgraph.Respects (tailedVal halvesVals) c := by
  decide

/-- The halves are read as the one window. -/
theorem body_exact_halves :
    ((MaskRule.orShiftedWindows.body halvesEgraph (hashCons halvesEgraph halvesVals)
      halvesRoot).run ⟨{}, 40, ()⟩).1 = some (.add 8) ∧
    tailedVal halvesVals 8 = tailedVal halvesVals 7 := by
  have hrun : ((MaskRule.orShiftedWindows.body halvesEgraph (hashCons halvesEgraph halvesVals)
      halvesRoot).run ⟨{}, 40, ()⟩).1 = some (.add 8) := rfl
  have hsat : ∀ c, ¬SaturatesAt (.tailed halvesVals halves_respects) c := by
    rintro c ⟨n, w, hc, ⟨a, k, hop, -⟩, hw, hsat⟩
    have hmem := Egraph.mem_of_node hc
    simp only [halvesEgraph, mem_cons, reduceCtorEq, Eclass.node.injEq, not_mem_nil,
      or_false, false_or] at hmem
    rcases hmem with rfl | rfl | rfl | rfl | rfl
    case inr.inl =>
      have hval := ((Valuation.tailed halvesVals halves_respects).node c _ hc).symm.trans hw
      obtain rfl : 3 * 2 ^ 64 = w := Option.some.inj hval
      norm_num [Saturates] at hsat
    all_goals cases hop
  have hconcat : halvesEgraph.ConcatsFit := by
    intro c ops lanes hc hlanes
    have hmem := Egraph.mem_of_node hc
    simp [halvesEgraph] at hmem
  exact ⟨hrun,
    (MaskRule.body_exact (.tailed halvesVals halves_respects) (soundAnalyses_of hsat hconcat)
    (hashCons_lawful halvesVals halves_respects) .orShiftedWindows halvesRoot
      (by decide) rfl rfl ⟨{}, 40, ()⟩
    (AnalysisCache.sound_empty _)).1 _ hrun⟩

end LiveHD.Aegraph
