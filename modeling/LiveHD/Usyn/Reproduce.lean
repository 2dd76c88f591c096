import LiveHD.Usyn.Record

/-!
# A credit floor reproduces the run it was recorded from

Every initial credit that the record of a run (`Budget.creditFloor`) reproduces replays the run,
decision by decision.  The simulation between two runs carries, for every budget made so far, that
its *final* record in the first run reproduces the size it has in the second.
-/

namespace LiveHD.Usyn

open Function List Nat Budget CreditShare World

namespace World

/-- The invariant of the budgets of a run. -/
structure Inv (w : World) : Prop where
  pos : 0 < w.cells
  ok : ∀ h < w.cells, (w.budget h).Ok
  parent_lt : ∀ h < w.cells, 0 < h → (w.cell h).parent < h
  sized : ∀ h < w.cells, 0 < h → (w.budget h).Sized (w.budget (w.cell h).parent)
  share_lt : ∀ s < w.shares, (w.share s).budget < w.cells
  share_of : ∀ s < w.shares, (w.share s).Of (w.budget (w.share s).budget)
  scope_lt : ∀ h ∈ w.scope, h < w.cells
  scope_pos : ∀ h ∈ w.scope, 0 < h
  scope_desc : w.scope.Pairwise (· > ·)
  scope_parent : ∀ h ∈ w.scope, w.live (w.cell h).parent = true
  closed : ∀ h < w.cells, 0 < h → h ∉ w.scope → (w.budget h).Absorbed (w.budget (w.cell h).parent)

/-- A later state of a run. -/
structure Later (w v : World) : Prop where
  cells : w.cells ≤ v.cells
  parent : ∀ h < w.cells, (v.cell h).parent = (w.cell h).parent
  budget : ∀ h < w.cells, (w.budget h).Step (v.budget h)

lemma live_iff {w : World} {h : Nat} : w.live h = true ↔ h = 0 ∨ h ∈ w.scope := by simp [live]

namespace Inv

variable {w : World}

lemma live_lt (hw : w.Inv) {h : Nat} (hl : w.live h = true) : h < w.cells := by
  rcases live_iff.1 hl with rfl | hm
  · exact hw.pos
  · exact hw.scope_lt h hm

lemma refl (hw : w.Inv) : Later w w := ⟨le_rfl, fun _ _ => rfl, fun h hh => .refl (hw.ok h hh)⟩

end Inv

lemma Later.trans {u v w : World} (h : Later u v) (k : Later v w) : Later u w where
  cells := le_trans h.cells k.cells
  parent i hi := (k.parent i (lt_of_lt_of_le hi h.cells)).trans (h.parent i hi)
  budget i hi := (h.budget i hi).trans (k.budget i (lt_of_lt_of_le hi h.cells))

/-! ## What one operation does to the world -/

section setBudget

variable {w : World} {h : Nat} {b : Budget}

@[simp] lemma setBudget_budget_self : (w.setBudget h b).budget h = b := by simp [setBudget, budget]

lemma setBudget_budget_of_ne {i : Nat} (hi : i ≠ h) : (w.setBudget h b).budget i = w.budget i := by
  simp [setBudget, budget, hi]

@[simp] lemma setBudget_parent (i : Nat) :
    ((w.setBudget h b).cell i).parent = (w.cell i).parent := by
  by_cases hi : i = h
  · subst hi; simp [setBudget]
  · simp [setBudget, hi]

@[simp] lemma setBudget_cells : (w.setBudget h b).cells = w.cells := rfl
@[simp] lemma setBudget_shares : (w.setBudget h b).shares = w.shares := rfl
@[simp] lemma setBudget_share : (w.setBudget h b).share = w.share := rfl
@[simp] lemma setBudget_scope : (w.setBudget h b).scope = w.scope := rfl

lemma setBudget_later (hw : w.Inv) (hs : (w.budget h).Step b) : Later w (w.setBudget h b) where
  cells := le_rfl
  parent i _ := setBudget_parent i
  budget i hi := by
    by_cases hih : i = h
    · subst hih
      rwa [setBudget_budget_self]
    · rw [setBudget_budget_of_ne hih]
      exact .refl (hw.ok i hi)

lemma setBudget_inv (hw : w.Inv) (hl : w.live h = true) (hs : (w.budget h).Step b) :
    (w.setBudget h b).Inv := by
  have later := setBudget_later hw hs
  refine ⟨hw.pos, fun i hi => (later.budget i hi).ok, ?_, ?_, hw.share_lt, ?_, hw.scope_lt,
    hw.scope_pos, hw.scope_desc, ?_, ?_⟩
  · intro i hi hpos
    rw [setBudget_parent]
    exact hw.parent_lt i hi hpos
  · intro i hi hpos
    rw [setBudget_parent]
    have hp := lt_trans (hw.parent_lt i hi hpos) hi
    exact (hw.sized i hi hpos).step (later.budget i hi) (later.budget _ hp)
  · intro s hs
    exact (hw.share_of s hs).step (later.budget _ (hw.share_lt s hs))
  · intro i hi
    rw [setBudget_parent]
    exact hw.scope_parent i hi
  · intro i hi hpos hni
    -- a finished slice is not live, so it is not the budget written
    have hih : i ≠ h := by
      rintro rfl
      rcases live_iff.1 hl with rfl | hm
      · exact lt_irrefl 0 hpos
      · exact hni hm
    rw [setBudget_parent, setBudget_budget_of_ne hih]
    have hp := lt_trans (hw.parent_lt i hi hpos) hi
    exact (hw.closed i hi hpos hni).mono (later.budget _ hp)

end setBudget

/-- The sample counter is not part of the invariant. -/
lemma Inv.sampled {w : World} (hw : w.Inv) (n : Nat) : Inv { w with sampled := n } :=
  ⟨hw.pos, hw.ok, hw.parent_lt, hw.sized, hw.share_lt, hw.share_of, hw.scope_lt, hw.scope_pos,
    hw.scope_desc, hw.scope_parent, hw.closed⟩

section openSlice

variable {w : World} {h cap divisor reserve : Nat}

lemma openSlice_budget_new : (w.openSlice h cap divisor reserve).budget w.cells =
    (w.budget h).slice cap divisor reserve := by
  simp [openSlice, budget]

lemma openSlice_cell_of_lt {i : Nat} (hi : i < w.cells) :
    (w.openSlice h cap divisor reserve).cell i = w.cell i := by
  simp [openSlice, hi.ne]

lemma openSlice_parent_new : ((w.openSlice h cap divisor reserve).cell w.cells).parent = h := by
  simp [openSlice]

lemma openSlice_budget_of_lt {i : Nat} (hi : i < w.cells) :
    (w.openSlice h cap divisor reserve).budget i = w.budget i :=
  congrArg Cell.budget (openSlice_cell_of_lt hi)

lemma openSlice_later (hw : w.Inv) : Later w (w.openSlice h cap divisor reserve) where
  cells := le_succ _
  parent i hi := by rw [openSlice_cell_of_lt hi]
  budget i hi := by
    rw [openSlice_budget_of_lt hi]
    exact .refl (hw.ok i hi)

lemma openSlice_inv (hw : w.Inv) (hl : w.live h = true) :
    (w.openSlice h cap divisor reserve).Inv := by
  have hh := hw.live_lt hl
  -- every budget is an old one or the new slice
  have cases : ∀ i < w.cells + 1, i < w.cells ∨ i = w.cells := fun i hi => by omega
  refine ⟨succ_pos _, ?_, ?_, ?_, ?_, ?_, ?_, ?_, ?_, ?_, ?_⟩
  · intro i hi
    rcases cases i hi with hi | rfl
    · rw [openSlice_budget_of_lt hi]
      exact hw.ok i hi
    · rw [openSlice_budget_new]
      exact slice_ok (hw.ok h hh) ..
  · intro i hi hpos
    rcases cases i hi with hi | rfl
    · rw [openSlice_cell_of_lt hi]
      exact hw.parent_lt i hi hpos
    · rwa [openSlice_parent_new]
  · intro i hi hpos
    rcases cases i hi with hi | rfl
    · rw [openSlice_cell_of_lt hi, openSlice_budget_of_lt hi,
        openSlice_budget_of_lt (lt_trans (hw.parent_lt i hi hpos) hi)]
      exact hw.sized i hi hpos
    · rw [openSlice_parent_new, openSlice_budget_new, openSlice_budget_of_lt hh]
      exact slice_sized ..
  · intro s hs
    exact lt_trans (hw.share_lt s hs) (lt_succ_self _)
  · intro s hs
    have := hw.share_of s hs
    rwa [← openSlice_budget_of_lt (hw.share_lt s hs)] at this
  · intro i hi
    rcases mem_cons.1 hi with rfl | hi
    · exact lt_succ_self _
    · exact lt_trans (hw.scope_lt i hi) (lt_succ_self _)
  · intro i hi
    rcases mem_cons.1 hi with rfl | hi
    · exact hw.pos
    · exact hw.scope_pos i hi
  · exact pairwise_cons.2 ⟨hw.scope_lt, hw.scope_desc⟩
  · intro i hi
    have keep : ∀ j, w.live j = true → (w.openSlice h cap divisor reserve).live j = true :=
      fun j hj => live_iff.2 ((live_iff.1 hj).imp id (mem_cons_of_mem _))
    rcases mem_cons.1 hi with rfl | hi
    · rw [openSlice_parent_new]
      exact keep _ hl
    · rw [openSlice_cell_of_lt (hw.scope_lt i hi)]
      exact keep _ (hw.scope_parent i hi)
  · intro i hi hpos hni
    have hni : i ≠ w.cells ∧ i ∉ w.scope := by rwa [← not_or, ← mem_cons]
    have hi := (cases i hi).resolve_right hni.1
    rw [openSlice_cell_of_lt hi, openSlice_budget_of_lt hi,
      openSlice_budget_of_lt (lt_trans (hw.parent_lt i hi hpos) hi)]
    exact hw.closed i hi hpos hni.2

end openSlice

section closeSlice

variable {w : World} {h : Nat} {scope : List Nat}

/-- What `~Work_slice` writes to the parent is a step of it. -/
lemma absorb_parent_step (hw : w.Inv) (hs : w.scope = h :: scope) :
    (w.budget (w.cell h).parent).Step ((w.budget (w.cell h).parent).absorb (w.budget h)) := by
  have hm : h ∈ w.scope := hs ▸ (.head _)
  have hh := hw.scope_lt h hm
  have hpos := hw.scope_pos h hm
  exact absorb_step (hw.ok _ (lt_trans (hw.parent_lt h hh hpos) hh)) (hw.ok h hh)
    (hw.sized h hh hpos)

lemma closeSlice_of_cons (hs : w.scope = h :: scope) :
    w.closeSlice = { w.setBudget (w.cell h).parent
      ((w.budget (w.cell h).parent).absorb (w.budget h)) with scope := scope } := by
  simp only [closeSlice, hs]

lemma closeSlice_of_nil (hs : w.scope = []) : w.closeSlice = w := by simp only [closeSlice, hs]

lemma closeSlice_later (hw : w.Inv) : Later w w.closeSlice := by
  cases hs : w.scope with
  | nil =>
    rw [closeSlice_of_nil hs]
    exact hw.refl
  | cons h scope =>
    rw [closeSlice_of_cons hs]
    have := setBudget_later hw (absorb_parent_step hw hs)
    exact ⟨this.cells, this.parent, this.budget⟩

lemma closeSlice_inv (hw : w.Inv) : w.closeSlice.Inv := by
  cases hs : w.scope with
  | nil => rwa [closeSlice_of_nil hs]
  | cons h scope =>
    have hm : h ∈ w.scope := hs ▸ (.head _)
    have hh := hw.scope_lt h hm
    have hpos := hw.scope_pos h hm
    have hp := hw.parent_lt h hh hpos
    have hsub : ∀ i ∈ scope, i ∈ w.scope := fun i hi => hs ▸ .tail _ hi
    have hde : (∀ i ∈ scope, i < h) ∧ scope.Pairwise (· > ·) :=
      pairwise_cons.1 (hs ▸ hw.scope_desc)
    have hst := absorb_parent_step hw hs
    have hv := setBudget_inv hw (hw.scope_parent h hm) hst
    rw [closeSlice_of_cons hs]
    refine ⟨hv.pos, hv.ok, hv.parent_lt, hv.sized, hv.share_lt, hv.share_of,
      fun i hi => hw.scope_lt i (hsub i hi), fun i hi => hw.scope_pos i (hsub i hi), hde.2, ?_, ?_⟩
    · intro i hi
      -- parents come before their slices, so the slice just closed is no one's parent
      have hlt := hw.parent_lt i (hw.scope_lt i (hsub i hi)) (hw.scope_pos i (hsub i hi))
      have hne := (lt_trans hlt (hde.1 i hi)).ne
      have hlv := live_iff.1 (hw.scope_parent i (hsub i hi))
      rw [hs, mem_cons] at hlv
      refine live_iff.2 ?_
      simp only [setBudget_parent]
      exact hlv.imp id (fun hm => hm.resolve_left hne)
    · intro i hi hip hni
      by_cases hih : i = h
      · subst hih
        have hne := hp.ne'
        show ((w.setBudget _ _).budget i).Absorbed
          ((w.setBudget _ _).budget ((w.setBudget _ _).cell i).parent)
        rw [setBudget_parent, setBudget_budget_self, setBudget_budget_of_ne hne]
        exact absorb_absorbed (hw.ok _ (lt_trans hp hh)) (hw.ok i hh) (hw.sized i hh hpos)
      · refine hv.closed i hi hip ?_
        rw [setBudget_scope, hs, mem_cons, not_or]
        exact ⟨hih, hni⟩

lemma closeSlice_scope : w.closeSlice.scope = w.scope.tail := by
  cases hs : w.scope with
  | nil => simp [closeSlice_of_nil hs, hs]
  | cons h scope => simp [closeSlice_of_cons hs]

end closeSlice

/-! ## Runs -/

variable {w : World}

lemma share_inv (hw : w.Inv) {h : Nat} (hl : w.live h = true) (cap divisor : Nat) : Inv { w with
      share := update w.share w.shares (read h (w.budget h) cap divisor)
      shares := w.shares + 1 } := by
  have cases : ∀ s < w.shares + 1, s < w.shares ∨ s = w.shares := fun s hs => by omega
  refine ⟨hw.pos, hw.ok, hw.parent_lt, hw.sized, ?_, ?_, hw.scope_lt, hw.scope_pos, hw.scope_desc,
    hw.scope_parent, hw.closed⟩
  · intro s hs
    rcases cases s hs with hs | rfl
    · simpa [hs.ne] using hw.share_lt s hs
    · simpa [CreditShare.read] using hw.live_lt hl
  · intro s hs
    rcases cases s hs with hs | rfl
    · dsimp only
      rw [update_of_ne hs.ne]
      exact hw.share_of s hs
    · dsimp only
      rw [update_self]
      exact read_of h (w.budget h) cap divisor

lemma liveShare_iff {s : Nat} : w.liveShare s = true ↔
    s < w.shares ∧ w.live (w.share s).budget = true := by
  simp [liveShare]

lemma setBudget_keeps (hw : w.Inv) {h : Nat} {b : Budget} (hl : w.live h = true)
    (hs : (w.budget h).Step b) : (w.setBudget h b).Inv ∧ Later w (w.setBudget h b) :=
  ⟨setBudget_inv hw hl hs, setBudget_later hw hs⟩

/-- An operation on a handle that is not live does nothing. -/
lemma guarded_inv (hw : w.Inv) {c : Bool} {r : Answer × World}
    (h : c = true → r.2.Inv ∧ Later w r.2) :
    (if c then r else (.none, w)).2.Inv ∧ Later w (if c then r else (.none, w)).2 := by
  split
  · exact h ‹_›
  · exact ⟨hw, hw.refl⟩

/-- One operation keeps the invariant and leads to a later world. -/
lemma step_inv (hw : w.Inv) (adm : Nat → Bool) (o : Op) :
    (w.step adm o).2.Inv ∧ Later w (w.step adm o).2 := by
  cases o with
  | spend h n =>
    refine guarded_inv hw fun hl => ?_
    obtain ⟨hinv, later⟩ :=
      setBudget_keeps hw hl (spend_step (hw.ok h (hw.live_lt hl)) (adm w.sampled) n)
    exact ⟨hinv.sampled _, later.cells, later.parent, later.budget⟩
  | has h n =>
    exact guarded_inv hw fun hl =>
      setBudget_keeps hw hl (has_step (hw.ok h (hw.live_lt hl)) n)
  | available h n =>
    exact guarded_inv hw fun hl =>
      setBudget_keeps hw hl (available_step (hw.ok h (hw.live_lt hl)) n)
  | share h cap divisor =>
    exact guarded_inv hw fun hl =>
      ⟨share_inv hw hl cap divisor, hw.refl.cells, hw.refl.parent, hw.refl.budget⟩
  | exceeds s x =>
    refine guarded_inv hw fun hl => ?_
    obtain ⟨hs, hlv⟩ := liveShare_iff.1 hl
    exact setBudget_keeps hw hlv
      (exceeds_step (hw.ok _ (hw.live_lt hlv)) (hw.share_of s hs) x)
  | clamp s x =>
    refine guarded_inv hw fun hl => ?_
    obtain ⟨hs, hlv⟩ := liveShare_iff.1 hl
    exact setBudget_keeps hw hlv
      (clamp_step (hw.ok _ (hw.live_lt hlv)) (hw.share_of s hs) x)
  | slice h cap divisor reserve =>
    exact guarded_inv hw fun hl => ⟨openSlice_inv hw hl, openSlice_later hw⟩
  | close => exact ⟨closeSlice_inv hw, closeSlice_later hw⟩

lemma unwind_inv (n : Nat) {w : World} (hw : w.Inv) : (unwind n w).Inv ∧ Later w (unwind n w) := by
  induction n generalizing w with
  | zero => exact ⟨hw, hw.refl⟩
  | succ n ih =>
    obtain ⟨hi, hl⟩ := ih (closeSlice_inv hw)
    exact ⟨hi, (closeSlice_later hw).trans hl⟩

lemma unwind_scope (n : Nat) (w : World) : (unwind n w).scope = w.scope.drop n := by
  induction n generalizing w with
  | zero => rfl
  | succ n ih => simp [unwind, ih, closeSlice_scope]

/-- A whole run keeps the invariant and leaves no slice open. -/
lemma run_inv (adm : Nat → Bool) (p : Prog) {w : World} (hw : w.Inv) :
    (run adm p w).2.Inv ∧ Later w (run adm p w).2 ∧ (run adm p w).2.scope = [] := by
  induction p generalizing w with
  | done =>
    obtain ⟨hi, hl⟩ := unwind_inv w.scope.length hw
    refine ⟨hi, hl, ?_⟩
    simp [run, unwind_scope]
  | op o k ih =>
    obtain ⟨hi, hl⟩ := step_inv hw adm o
    obtain ⟨hi', hl', hs⟩ := ih (w.step adm o).1 hi
    exact ⟨hi', hl.trans hl', hs⟩

/-- With every slice closed, a refusal anywhere is a refusal of the root. -/
lemma Inv.not_refused {w : World} (hw : w.Inv) (hs : w.scope = [])
    (hro : (w.budget 0).resourceExhausted = false) (h : Nat) (hh : h < w.cells) :
    (w.budget h).resourceExhausted = false := by
  induction h using Nat.strong_induction_on with
  | _ h ih =>
    rcases Nat.eq_zero_or_pos h with rfl | hpos
    · exact hro
    · have hp := hw.parent_lt h hh hpos
      have ha := hw.closed h hh hpos (hs ▸ not_mem_nil)
      cases hr : (w.budget h).resourceExhausted with
      | false => rfl
      | true => exact (ha.refused hr).symm.trans (ih _ hp (lt_trans hp hh))

/-! ## Two runs -/

/-- The worlds of two runs that have taken the same decisions so far. -/
structure Twin (w w' : World) : Prop where
  cells : w'.cells = w.cells
  scope : w'.scope = w.scope
  shares : w'.shares = w.shares
  parent : ∀ h < w.cells, (w'.cell h).parent = (w.cell h).parent
  budget : ∀ h < w.cells, (w.budget h).Twin (w'.budget h)
  share : ∀ s < w.shares, (w.share s).Twin (w'.share s)

/-- The final records `f` of the first run reproduce the sizes of the second. -/
def Replays (f w w' : World) : Prop :=
  ∀ h < w.cells, (f.budget h).Replays (w.budget h) (w'.budget h)

section

variable {w w' : World} (ht : Twin w w')
include ht

lemma Twin.live (h : Nat) : w'.live h = w.live h := by
  simp only [World.live, ht.scope]

lemma Twin.liveShare (s : Nat) : w'.liveShare s = w.liveShare s := by
  by_cases hs : s < w.shares
  · have hb : (w'.share s).budget = (w.share s).budget := by rw [ht.share s hs]
    simp only [World.liveShare, ht.shares, ht.live, hb]
  · simp [World.liveShare, ht.shares, hs]

lemma Twin.setBudget {h : Nat} {b b' : Budget} (hb : b.Twin b') :
    Twin (w.setBudget h b) (w'.setBudget h b') where
  cells := ht.cells
  scope := ht.scope
  shares := ht.shares
  parent i hi := by
    rw [setBudget_parent, setBudget_parent]
    exact ht.parent i hi
  budget i hi := by
    by_cases hih : i = h
    · subst hih
      rwa [setBudget_budget_self, setBudget_budget_self]
    · rw [setBudget_budget_of_ne hih, setBudget_budget_of_ne hih]
      exact ht.budget i hi
  share := ht.share

end

/-- Sizes do not change, so the guarantee carries over. -/
lemma Replays.later {f w w' v v' : World} (hr : Replays f w w') (hv : Later w v) (hv' : Later w' v')
    (ht : Twin w w') {h : Nat} (hh : h < w.cells) :
    (f.budget h).Replays (v.budget h) (v'.budget h) := by
  have hs := (hv.budget h hh).size
  have hs' := (hv'.budget h (ht.cells ▸ hh)).size
  have := hr h hh
  unfold Budget.Replays at this ⊢
  rwa [hs, hs']

/-- The two runs of a simulation, with the final world `f` the first leads to. -/
structure Sim (f w w' : World) : Prop where
  inv : w.Inv
  inv' : w'.Inv
  twin : Twin w w'
  replays : Replays f w w'

/-- A final world: every slice is closed and no budget was refused admission. -/
structure Final (f : World) : Prop where
  inv : f.Inv
  scope : f.scope = []
  granted : ∀ h < f.cells, (f.budget h).resourceExhausted = false

lemma Final.granted_of_step {f : World} (hf : Final f) {h : Nat} (hh : h < f.cells) {b : Budget}
    (hs : b.Step (f.budget h)) : b.resourceExhausted = false := by
  cases hr : b.resourceExhausted with
  | false => rfl
  | true => exact (hs.refused hr).symm.trans (hf.granted h hh)

section step

variable {f f' w w' : World}

section

variable (hsim : Sim f w w')
include hsim

/-- An operation that rewrites one live budget in place. -/
lemma Sim.setBudget {h : Nat} (hl : w.live h = true) {b b' : Budget}
    (hs : (w.budget h).Step b) (hs' : (w'.budget h).Step b') (hb : b.Twin b') :
    Sim f (w.setBudget h b) (w'.setBudget h b') where
  inv := setBudget_inv hsim.inv hl hs
  inv' := setBudget_inv hsim.inv' (hsim.twin.live h ▸ hl) hs'
  twin := hsim.twin.setBudget hb
  replays _ hi := hsim.replays.later (setBudget_later hsim.inv hs) (setBudget_later hsim.inv' hs')
    hsim.twin hi

lemma Sim.sampled (n n' : Nat) : Sim f { w with sampled := n } { w' with sampled := n' } :=
  ⟨hsim.inv.sampled n, hsim.inv'.sampled n',
    ⟨hsim.twin.cells, hsim.twin.scope, hsim.twin.shares, hsim.twin.parent, hsim.twin.budget,
      hsim.twin.share⟩, hsim.replays⟩

lemma Sim.share {h : Nat} (hl : w.live h = true) (cap divisor : Nat) : Sim f { w with
        share := update w.share w.shares (read h (w.budget h) cap divisor)
        shares := w.shares + 1 }
      { w' with
        share := update w'.share w'.shares (read h (w'.budget h) cap divisor)
        shares := w'.shares + 1 } := by
  have ht := hsim.twin
  refine ⟨share_inv hsim.inv hl cap divisor, share_inv hsim.inv' (ht.live h ▸ hl) cap divisor,
    ⟨ht.cells, ht.scope, congrArg (· + 1) ht.shares, ht.parent, ht.budget, ?_⟩, hsim.replays⟩
  intro s hs
  have hca : s < w.shares ∨ s = w.shares := by
    have : s < w.shares + 1 := hs
    omega
  dsimp only
  rw [ht.shares]
  rcases hca with hs | rfl
  · rw [update_of_ne hs.ne, update_of_ne hs.ne]
    exact ht.share s hs
  · rw [update_self, update_self]
    have hcon := (ht.budget h (hsim.inv.live_lt hl)).consumed
    simp only [CreditShare.read, CreditShare.Twin, hcon]

lemma Sim.openSlice (hfin : Final f) {h cap divisor reserve : Nat}
    (hl : w.live h = true) (hf : Later (w.openSlice h cap divisor reserve) f) :
    Sim f (w.openSlice h cap divisor reserve) (w'.openSlice h cap divisor reserve) := by
  have ht := hsim.twin
  have hh := hsim.inv.live_lt hl
  have hnew : w.cells < (w.openSlice h cap divisor reserve).cells := lt_succ_self _
  have cases : ∀ i < w.cells + 1, i < w.cells ∨ i = w.cells := fun i hi => by omega
  have hbu' : (w'.openSlice h cap divisor reserve).budget w.cells =
      (w'.budget h).slice cap divisor reserve := by rw [← ht.cells, openSlice_budget_new]
  have hpa' : ((w'.openSlice h cap divisor reserve).cell w.cells).parent = h := by
    rw [← ht.cells, openSlice_parent_new]
  refine ⟨openSlice_inv hsim.inv hl, openSlice_inv hsim.inv' (ht.live h ▸ hl),
    ⟨congrArg (· + 1) ht.cells, ?_, ht.shares, ?_, ?_, ht.share⟩, ?_⟩
  · simp only [World.openSlice, ht.cells, ht.scope]
  · intro i hi
    rcases cases i hi with hi | rfl
    · rw [openSlice_cell_of_lt hi, openSlice_cell_of_lt (ht.cells ▸ hi)]
      exact ht.parent i hi
    · rw [hpa', openSlice_parent_new]
  · intro i hi
    rcases cases i hi with hi | rfl
    · rw [openSlice_budget_of_lt hi, openSlice_budget_of_lt (ht.cells ▸ hi)]
      exact ht.budget i hi
    · rw [hbu', openSlice_budget_new]
      exact slice_twin (ht.budget h hh) ..
  · intro i hi
    rcases cases i hi with hi | rfl
    · rw [openSlice_budget_of_lt hi, openSlice_budget_of_lt (ht.cells ▸ hi)]
      exact hsim.replays i hi
    · -- the slice just opened is closed in the final world, hen absorbed there
      have hpar := hf.parent _ hnew
      rw [openSlice_parent_new] at hpar
      have ha := hfin.inv.closed w.cells (lt_of_lt_of_le hnew hf.cells) hsim.inv.pos
        (hfin.scope ▸ not_mem_nil)
      rw [hpar] at ha
      have hst := hf.budget _ hnew
      rw [openSlice_budget_new] at hst
      rw [hbu', openSlice_budget_new]
      exact slice_replays (hsim.inv.ok h hh) (ht.budget h hh) hst (hsim.replays h hh) ha

lemma Sim.closeSlice (hf : Later w.closeSlice f) : Sim f w.closeSlice w'.closeSlice := by
  have ht := hsim.twin
  cases hs : w.scope with
  | nil => rwa [closeSlice_of_nil hs, closeSlice_of_nil (ht.scope.trans hs)]
  | cons h scope =>
    have hs' := ht.scope.trans hs
    have hm : h ∈ w.scope := hs ▸ (.head _)
    have hh := hsim.inv.scope_lt h hm
    have hpos := hsim.inv.scope_pos h hm
    have hp := lt_trans (hsim.inv.parent_lt h hh hpos) hh
    have hh' := ht.cells ▸ hh
    have hpar := ht.parent h hh
    have hlv := hsim.inv.scope_parent h hm
    have hsi' := hsim.inv'.sized h hh' hpos
    have hst := absorb_parent_step hsim.inv hs
    have hst' := absorb_parent_step hsim.inv' hs'
    rw [hpar] at hsi' hst'
    have hfp := hf.budget (w.cell h).parent ((closeSlice_later hsim.inv).cells.trans_lt' hp)
    rw [closeSlice_of_cons hs] at hfp
    have htw := absorb_twin (ht.budget _ hp) (ht.budget h hh) (hsim.inv.ok _ hp)
      (hsim.inv'.ok _ (ht.cells ▸ hp)) (hsim.inv.ok h hh) (hsim.inv'.ok h hh')
      (hsim.inv.sized h hh hpos) hsi' (f := f.budget (w.cell h).parent)
      (by simpa [World.budget, World.setBudget] using hfp) (hsim.replays _ hp)
    have hset := hsim.setBudget hlv hst hst' htw
    refine ⟨closeSlice_inv hsim.inv, closeSlice_inv hsim.inv', ?_, ?_⟩
    · rw [closeSlice_of_cons hs, closeSlice_of_cons hs', hpar]
      exact ⟨hset.twin.cells, rfl, hset.twin.shares, hset.twin.parent,
        hset.twin.budget, hset.twin.share⟩
    · rw [closeSlice_of_cons hs, closeSlice_of_cons hs', hpar]
      exact hset.replays

/-- An operation under a guard that both runs take or neither. -/
lemma Sim.guarded {c c' : Bool} (hc : c' = c) {r r' : Answer × World}
    (hf : Later (if c then r else (.none, w)).2 f)
    (hf' : Later (if c' then r' else (.none, w')).2 f')
    (h : c = true → c' = true → Later r.2 f → Later r'.2 f' → r'.1 = r.1 ∧ Sim f r.2 r'.2) :
    (if c' then r' else (.none, w')).1 = (if c then r else (.none, w)).1 ∧
      Sim f (if c then r else (.none, w)).2 (if c' then r' else (.none, w')).2 := by
  subst hc
  cases c' with
  | true => exact h rfl rfl hf hf'
  | false => exact ⟨rfl, hsim⟩

/-- An operation that answers from one live budget and rewrites it in place. -/
lemma Sim.rewrite {h : Nat} (hl : w.live h = true) {α : Type} {a a' : α}
    {b b' : Budget} (k : α → Answer) (hf : Later (w.setBudget h b) f) (hs : (w.budget h).Step b)
    (hs' : (w'.budget h).Step b') (htw : b.Step (f.budget h) → a' = a ∧ b.Twin b') :
    k a' = k a ∧ Sim f (w.setBudget h b) (w'.setBudget h b') := by
  have hfh := hf.budget h (hsim.inv.live_lt hl)
  rw [setBudget_budget_self] at hfh
  obtain ⟨ha, hb⟩ := htw hfh
  exact ⟨congrArg k ha, hsim.setBudget hl hs hs' hb⟩

/-- A share and its budget as both runs read them. -/
lemma Sim.liveShare {s : Nat} (hl : w.liveShare s = true) (hl' : w'.liveShare s = true) :
    w.live (w.share s).budget = true ∧
      (w'.share s).budget = (w.share s).budget ∧ (w.share s).Twin (w'.share s) ∧
      (w.share s).Of (w.budget (w.share s).budget) ∧
      (w'.share s).Of (w'.budget (w.share s).budget) ∧
      (w.share s).budget < w.cells ∧ (w.share s).budget < w'.cells := by
  obtain ⟨hs, hlv⟩ := liveShare_iff.1 hl
  obtain ⟨hs', hlv'⟩ := liveShare_iff.1 hl'
  have htw := hsim.twin.share s hs
  have hb : (w'.share s).budget = (w.share s).budget := by rw [htw]
  have hof' := hsim.inv'.share_of s hs'
  rw [hb] at hlv' hof'
  exact ⟨hlv, hb, htw, hsim.inv.share_of s hs, hof', hsim.inv.live_lt hlv, hsim.inv'.live_lt hlv'⟩

/-- One operation answers the same in both runs and keeps them in step. -/
lemma Sim.step (hfin : Final f) (hfi' : Final f') (adm adm' : Nat → Bool)
    (o : Op) (hf : Later (w.step adm o).2 f) (hf' : Later (w'.step adm' o).2 f') :
    (w'.step adm' o).1 = (w.step adm o).1 ∧ Sim f (w.step adm o).2 (w'.step adm' o).2 := by
  have ht := hsim.twin
  have hok := hsim.inv.ok
  have hok' := hsim.inv'.ok
  cases o with
  | spend h n =>
    refine hsim.guarded (ht.live h) hf hf' fun hl hl' hf hf' => ?_
    have hh := hsim.inv.live_lt hl
    have hh' := hsim.inv'.live_lt hl'
    have hs := spend_step (hok h hh) (adm w.sampled) n
    have hs' := spend_step (hok' h hh') (adm' w'.sampled) n
    have hfh := hf.budget h hh
    have hfh' := hf'.budget h hh'
    simp only [World.budget, World.setBudget, update_self] at hfh hfh'
    obtain ⟨hans, htw⟩ := Budget.spend_twin (ht.budget h hh) (hok h hh) (hok' h hh') hfh
      (hsim.replays h hh) (hfin.granted_of_step (lt_of_lt_of_le hh hf.cells) hfh)
      (hfi'.granted_of_step (lt_of_lt_of_le hh' hf'.cells) hfh')
    exact ⟨congrArg Answer.flag hans, (hsim.setBudget hl hs hs' htw).sampled _ _⟩
  | has h n =>
    refine hsim.guarded (ht.live h) hf hf' fun hl hl' hf _ => ?_
    have hh := hsim.inv.live_lt hl
    have hh' := hsim.inv'.live_lt hl'
    exact hsim.rewrite hl .flag hf (has_step (hok h hh) n) (has_step (hok' h hh') n)
      fun hfh => has_twin (ht.budget h hh) (hok h hh) hfh (hsim.replays h hh)
  | available h n =>
    refine hsim.guarded (ht.live h) hf hf' fun hl hl' hf _ => ?_
    have hh := hsim.inv.live_lt hl
    have hh' := hsim.inv'.live_lt hl'
    exact hsim.rewrite hl .flag hf (available_step (hok h hh) n)
      (available_step (hok' h hh') n)
      fun hfh => available_twin (ht.budget h hh) (hok h hh) hfh (hsim.replays h hh)
  | share h cap divisor =>
    exact hsim.guarded (ht.live h) hf hf' fun hl _ _ _ => ⟨rfl, hsim.share hl cap divisor⟩
  | exceeds s x =>
    refine hsim.guarded (ht.liveShare s) hf hf' fun hl hl' hf _ => ?_
    obtain ⟨hlv, hb, htwi, hof, hof', hh, hh'⟩ := hsim.liveShare hl hl'
    rw [hb]
    exact hsim.rewrite hlv .flag hf (exceeds_step (hok _ hh) hof x)
      (exceeds_step (hok' _ hh') hof' x) fun hfh =>
        exceeds_twin htwi (ht.budget _ hh) (hok _ hh) hof hof' hfh (hsim.replays _ hh)
  | clamp s x =>
    refine hsim.guarded (ht.liveShare s) hf hf' fun hl hl' hf _ => ?_
    obtain ⟨hlv, hb, htwi, hof, hof', hh, hh'⟩ := hsim.liveShare hl hl'
    rw [hb]
    exact hsim.rewrite hlv .credits hf (clamp_step (hok _ hh) hof x)
      (clamp_step (hok' _ hh') hof' x) fun hfh =>
        clamp_twin htwi (ht.budget _ hh) (hok _ hh) hof hof' hfh (hsim.replays _ hh)
  | slice h cap divisor reserve =>
    exact hsim.guarded (ht.live h) hf hf' fun hl _ hf _ => ⟨rfl, hsim.openSlice hfin hl hf⟩
  | close => exact ⟨rfl, hsim.closeSlice hf⟩

end

lemma Sim.unwind (n : Nat) (hsim : Sim f w w') (hf : Later (unwind n w) f) :
    Sim f (unwind n w) (unwind n w') := by
  induction n generalizing w w' with
  | zero => exact hsim
  | succ n ih =>
    have hla := (unwind_inv n (closeSlice_inv hsim.inv)).2
    exact ih (hsim.closeSlice (hla.trans hf)) hf

/-- Two runs whose final records match answer alike to the end. -/
lemma Sim.run (adm adm' : Nat → Bool) (p : Prog) (hsim : Sim f w w') (hfin : Final f)
    (hfi' : Final f') (hf : (run adm p w).2 = f) (hf' : (run adm' p w').2 = f') :
    (run adm' p w').1 = (run adm p w).1 ∧ Sim f f f' := by
  induction p generalizing w w' with
  | done =>
    have hla : Later (.unwind w.scope.length w) f := hf ▸ hfin.inv.refl
    have := hsim.unwind _ hla
    simp only [run, hsim.twin.scope] at hf hf' ⊢
    rw [hf, hf'] at this
    exact ⟨trivial, this⟩
  | op o k ih =>
    have hi := (step_inv hsim.inv adm o).1
    have hi' := (step_inv hsim.inv' adm' o).1
    have hl := hf ▸ (run_inv adm (k _) hi).2.1
    have hl' := hf' ▸ (run_inv adm' (k _) hi').2.1
    obtain ⟨hans, hsi'⟩ := hsim.step hfin hfi' adm adm' o hl hl'
    simp only [run] at hf hf' ⊢
    rw [hans] at hf' ⊢
    obtain ⟨hr, hend⟩ := ih _ hsi' hf hf'
    exact ⟨congrArg _ hr, hend⟩

end step

lemma start_inv (admission : Bool) (interval : Nat) {credits : Nat} (hc : credits < 2 ^ 64) :
    (start admission interval credits).Inv where
  pos := Nat.one_pos
  ok _ _ := ⟨by simpa [start, budget, Budget.size] using hc, zero_le _, fun h => by cases h⟩
  parent_lt h hh hpos := absurd hpos (Nat.not_lt.2 (le_of_lt_succ hh))
  sized h hh hpos := absurd hpos (Nat.not_lt.2 (le_of_lt_succ hh))
  share_lt _ hs := absurd hs (not_lt_zero _)
  share_of _ hs := absurd hs (not_lt_zero _)
  scope_lt _ hm := nomatch hm
  scope_pos _ hm := nomatch hm
  scope_desc := .nil
  scope_parent _ hm := nomatch hm
  closed h hh hpos := absurd hpos (Nat.not_lt.2 (le_of_lt_succ hh))

end World

/-- The soundness of the stored record: whatever credits the credit floor of a run
reproduces, the program takes the same decisions on them, consumes the same work
and leaves the same credit floor.  The two runs may sample admission differently,
as long as neither is refused. -/
theorem outcome_reproduces (p : Prog) (adm adm' : Nat → Bool)
    (admission : Bool) (interval c c' : Nat)
    (hc : c < 2 ^ 64) (hc' : c' < 2 ^ 64)
    (hg : (p.outcome adm admission interval c).2.resourceExhausted = false)
    (hg' : (p.outcome adm' admission interval c').2.resourceExhausted = false)
    (hr : (p.outcome adm admission interval c).2.creditFloor.reproduces c' = true) :
    (p.outcome adm' admission interval c').1 = (p.outcome adm admission interval c).1 ∧
    (p.outcome adm' admission interval c').2.consumed =
    (p.outcome adm admission interval c).2.consumed ∧
    (p.outcome adm' admission interval c').2.creditFloor =
    (p.outcome adm admission interval c).2.creditFloor := by
  have hi := start_inv admission interval hc
  have hi' := start_inv admission interval hc'
  obtain ⟨hfi, hl, hs⟩ := run_inv adm p hi
  obtain ⟨hfi', hl', hs'⟩ := run_inv adm' p hi'
  have hfin : World.Final (run adm p (start admission interval c)).2 :=
    ⟨hfi, hs, hfi.not_refused hs hg⟩
  have hfin' : World.Final (run adm' p (start admission interval c')).2 :=
    ⟨hfi', hs', hfi'.not_refused hs' hg'⟩
  have hstep := hl.budget 0 Nat.one_pos
  have hsize : ∀ k, (((start admission interval k).budget 0).size) = k := fun k => Nat.zero_add k
  have hfsize := hstep.size.trans (hsize c)
  -- `reproduces` is what the simulation asks of the root
  have hrep : (p.outcome adm admission interval c).2.Replays
      ((start admission interval c).budget 0) ((start admission interval c').budget 0) := by
    unfold Budget.Replays
    unfold CreditFloor.reproduces creditFloor at hr
    rw [hsize, hsize]
    cases hb : (p.outcome adm admission interval c).2.bound with
    | false => simpa [hb] using hr
    | true =>
      have hcred : (p.outcome adm admission interval c).2.consumed +
        (p.outcome adm admission interval c).2.remaining = c := hfsize
      simpa [hb, hcred, u64_of_lt hc] using hr
  have hsim : World.Sim (run adm p (start admission interval c)).2
      (start admission interval c) (start admission interval c') := by
    refine ⟨hi, hi', ⟨rfl, rfl, rfl, fun _ _ => rfl, fun _ _ => rfl, fun _ _ => rfl⟩,
      fun h hh => ?_⟩
    obtain rfl : h = 0 := lt_one_iff.1 hh
    exact hrep
  obtain ⟨hans, hend⟩ := hsim.run adm adm' p hfin hfin' rfl rfl
  have ht : (p.outcome adm admission interval c).2.Twin (p.outcome adm' admission interval c').2 :=
    hend.twin.budget 0 (lt_of_lt_of_le Nat.one_pos hl.cells)
  refine ⟨hans, ht.consumed, ?_⟩
  have hfr := hend.replays 0 (lt_of_lt_of_le Nat.one_pos hl.cells)
  simp only [creditFloor, ht.consumed, ht.floor, ht.bound]
  cases hb : (p.outcome adm admission interval c).2.bound with
  | false => rfl
  | true =>
    have hsz : (p.outcome adm' admission interval c').2.size =
        (p.outcome adm admission interval c).2.size := by
      have hb' : ((run adm p (start admission interval c)).2.budget 0).bound = true := hb
      rwa [Budget.Replays, if_pos hb'] at hfr
    simp only [ht.remaining_eq hsz]

/-- A search that gives half of its credits to a nested one, three of them spent
there if they are available, and then charges itself one more. -/
def halfSearch : Prog :=
  .op (.slice 0 10 2 1) fun _ =>
  .op (.available 1 3) fun a =>
  if a = .flag true then .op (.spend 1 3) fun _ => .op .close fun _ =>
  .op (.spend 0 1) fun _ => .done
  else .done

theorem outcome_reproduces_halfSearch :
    (halfSearch.outcome (fun _ => true) true 4 20).2.creditFloor.reproduces 15 = true ∧
    (halfSearch.outcome (fun _ => true) true 4 15).1 =
    (halfSearch.outcome (fun _ => true) true 4 20).1 ∧
    (halfSearch.outcome (fun _ => true) true 4 15).2.consumed =
    (halfSearch.outcome (fun _ => true) true 4 20).2.consumed ∧
    (halfSearch.outcome (fun _ => true) true 4 15).2.creditFloor =
    (halfSearch.outcome (fun _ => true) true 4 20).2.creditFloor :=
  ⟨by decide, outcome_reproduces halfSearch _ _ true 4 20 15 (by decide) (by decide) (by decide)
    (by decide) (by decide)⟩

end LiveHD.Usyn
