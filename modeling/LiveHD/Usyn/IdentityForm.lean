import LiveHD.Lib.FirstUse
import LiveHD.Usyn.Identity

/-!
# What the identity keeps of a snapshot

Everything but spans, the name of the source graph, the pin of a constant, what an absent signal
carries, and the spellings of rows without `q`.
-/

namespace LiveHD.Usyn

open Framing Synth Function List

inductive IdentitySignal (ν D : Type)
  | absent (constant : Bool)
  | constant (bits : UInt32) (value : D)
  | pin (node : ν) (port bits : UInt32) (value : D)

structure IdentityRow (ν D : Type) where
  node : ν
  name : String
  role : StateRole
  bits : UInt32
  stages : UInt32
  widthKnown : Bool
  q : IdentitySignal ν D
  data : IdentitySignal ν D
  clock : IdentitySignal ν D
  clockRoot : IdentitySignal ν D
  enable : IdentitySignal ν D
  reset : IdentitySignal ν D
  initial : IdentitySignal ν D
  negClock : Bool
  clockEdgeKnown : Bool
  negReset : Bool
  asyncReset : Bool
  powerOn : Bool
  icg : Int32
  translatedBits : UInt64

structure IdentityClock (ν D : Type) where
  output : IdentitySignal ν D
  clock : IdentitySignal ν D
  enable : IdentitySignal ν D
  latchNode : ν
  parent : Int32
  name : String

structure IdentityForm (ν D : Type) where
  scope : StateScope
  logicalBoundary : Bool
  sources : List (IdentityRow ν D)
  clocks : List (IdentityClock ν D)
  bits : List StateBit
  controls : List StateControl
  controlSignals : List ControlSignal

variable {ν μ κ D S : Type}

/-! ## The form of a snapshot -/

def signalForm (s : SourceSignal ν D) : IdentitySignal ν D :=
  if s.present then if s.constant then .constant s.bits s.value
    else .pin s.node s.port s.bits s.value
  else .absent s.constant

def rowForm (barrier : String) (row : SourceState ν D S) : IdentityRow ν D where
  node := row.node
  name := if row.q.present then row.name else barrier
  role := row.role
  bits := row.bits
  stages := row.stages
  widthKnown := row.widthKnown
  q := signalForm row.q
  data := signalForm row.data
  clock := signalForm row.clock
  clockRoot := signalForm row.clockRoot
  enable := signalForm row.enable
  reset := signalForm row.reset
  initial := signalForm row.initial
  negClock := row.negClock
  clockEdgeKnown := row.clockEdgeKnown
  negReset := row.negReset
  asyncReset := row.asyncReset
  powerOn := row.powerOn
  icg := row.icg
  translatedBits := row.translatedBits

def clockForm (c : SourceClockGate ν D S) : IdentityClock ν D where
  output := signalForm c.output
  clock := signalForm c.clock
  enable := signalForm c.enable
  latchNode := c.latchNode
  parent := c.parent
  name := c.name

/-- The rows, the first one of index `k`. -/
def rowForms (barriers : List String) (rows : List (SourceState ν D S)) (k : ℕ) :
    List (IdentityRow ν D) :=
  (rows.zipIdx k).map fun r => rowForm (barriers.getD r.2 "") r.1

def identityForm (barriers : List String) (s : SourceStateTable ν D S) : IdentityForm ν D where
  scope := s.scope
  logicalBoundary := s.logicalBoundary
  sources := rowForms barriers s.sources 0
  clocks := s.clocks.map clockForm
  bits := s.bits
  controls := s.controls
  controlSignals := s.controlSignals

/-! ## Other node numbers -/

variable {f g : ν → μ}

namespace IdentitySignal

def map (f : ν → μ) : IdentitySignal ν D → IdentitySignal μ D
  | absent c => absent c
  | constant b v => constant b v
  | pin n p b v => pin (f n) p b v

def nodes : IdentitySignal ν D → List ν
  | pin n _ _ _ => [n]
  | _ => []

lemma map_map (f : ν → μ) (g : μ → κ) (s : IdentitySignal ν D) :
    (s.map f).map g = s.map (g ∘ f) := by cases s <;> rfl

lemma map_congr {s : IdentitySignal ν D} (h : ∀ n ∈ s.nodes, f n = g n) : s.map f = s.map g := by
  cases s with
  | absent | constant => rfl
  | pin n p b v => exact congrArg (pin · p b v) (h n (mem_singleton_self n))

@[simp] lemma nodes_map (f : ν → μ) (s : IdentitySignal ν D) :
    (s.map f).nodes = s.nodes.map f := by cases s <;> rfl

end IdentitySignal

@[simp] lemma signalForm_map (f : ν → μ) (s : SourceSignal ν D) :
    signalForm (s.map f) = (signalForm s).map f := by
  obtain ⟨_, _, present, constant, _, _⟩ := s
  cases present <;> cases constant <;> rfl

namespace IdentityRow

def signals (row : IdentityRow ν D) : List (IdentitySignal ν D) :=
  [row.q, row.data, row.clock, row.clockRoot, row.enable, row.reset, row.initial]

def map (f : ν → μ) (row : IdentityRow ν D) : IdentityRow μ D :=
  { row with
    node := f row.node
    q := row.q.map f
    data := row.data.map f
    clock := row.clock.map f
    clockRoot := row.clockRoot.map f
    enable := row.enable.map f
    reset := row.reset.map f
    initial := row.initial.map f }

def nodes (row : IdentityRow ν D) : List ν := row.node :: row.signals.flatMap IdentitySignal.nodes

lemma map_map (f : ν → μ) (g : μ → κ) (row : IdentityRow ν D) :
    (row.map f).map g = row.map (g ∘ f) := by
  simp only [map, IdentitySignal.map_map, comp_apply]

lemma signals_map (f : ν → μ) (row : IdentityRow ν D) :
    (row.map f).signals = row.signals.map (·.map f) := rfl

lemma nodes_map (f : ν → μ) (row : IdentityRow ν D) : (row.map f).nodes = row.nodes.map f := by
  rw [nodes, nodes, signals_map, map_cons, map_flatMap, flatMap_map]
  simp only [IdentitySignal.nodes_map]
  rfl

lemma map_congr {row : IdentityRow ν D} (h : ∀ n ∈ row.nodes, f n = g n) :
    row.map f = row.map g := by
  have hsi : ∀ s ∈ row.signals, s.map f = s.map g := fun s hs =>
    IdentitySignal.map_congr fun n hn => h n (.tail _ (mem_flatMap.2 ⟨s, hs, hn⟩))
  rw [signals] at hsi
  simp only [forall_mem_cons] at hsi
  obtain ⟨hq, hda, hcl, hr, hen, hre, hin, -⟩ := hsi
  rw [map, map, h _ (.head _), hq, hda, hcl, hr, hen, hre, hin]

end IdentityRow

lemma rowForm_map (f : ν → μ) (barrier : String) (row : SourceState ν D S) :
    rowForm barrier (row.map f) = (rowForm barrier row).map f := by
  simp only [rowForm, SourceState.map, signalForm_map]
  rfl

namespace IdentityClock

def signals (c : IdentityClock ν D) : List (IdentitySignal ν D) := [c.output, c.clock, c.enable]

def map (f : ν → μ) (c : IdentityClock ν D) : IdentityClock μ D :=
  { c with
    output := c.output.map f
    clock := c.clock.map f
    enable := c.enable.map f
    latchNode := f c.latchNode }

def nodes (c : IdentityClock ν D) : List ν :=
  c.signals.flatMap IdentitySignal.nodes ++ [c.latchNode]

lemma map_map (f : ν → μ) (g : μ → κ) (c : IdentityClock ν D) :
    (c.map f).map g = c.map (g ∘ f) := by
  simp only [map, IdentitySignal.map_map, comp_apply]

lemma signals_map (f : ν → μ) (c : IdentityClock ν D) :
    (c.map f).signals = c.signals.map (·.map f) := rfl

lemma nodes_map (f : ν → μ) (c : IdentityClock ν D) : (c.map f).nodes = c.nodes.map f := by
  rw [nodes, nodes, signals_map, map_append, map_flatMap, flatMap_map]
  simp only [IdentitySignal.nodes_map]
  rfl

lemma map_congr {c : IdentityClock ν D} (h : ∀ n ∈ c.nodes, f n = g n) : c.map f = c.map g := by
  have hsi : ∀ s ∈ c.signals, s.map f = s.map g := fun s hs =>
    IdentitySignal.map_congr fun n hn => h n (mem_append_left _ (mem_flatMap.2 ⟨s, hs, hn⟩))
  rw [signals] at hsi
  simp only [forall_mem_cons] at hsi
  obtain ⟨hou, hcl, hen, -⟩ := hsi
  rw [map, map, hou, hcl, hen, h c.latchNode (mem_append_right _ (mem_singleton_self _))]

end IdentityClock

lemma clockForm_map (f : ν → μ) (c : SourceClockGate ν D S) :
    clockForm (c.map f) = (clockForm c).map f := by
  simp only [clockForm, SourceClockGate.map, signalForm_map]
  rfl

namespace IdentityForm

def map (f : ν → μ) (s : IdentityForm ν D) : IdentityForm μ D :=
  { s with sources := s.sources.map (·.map f), clocks := s.clocks.map (·.map f) }

/-- The nodes, as they are written. -/
def nodes (s : IdentityForm ν D) : List ν :=
  s.sources.flatMap IdentityRow.nodes ++ s.clocks.flatMap IdentityClock.nodes

lemma map_map (f : ν → μ) (g : μ → κ) (s : IdentityForm ν D) : (s.map f).map g = s.map (g ∘ f) := by
  simp only [map, List.map_map, comp_def, IdentityRow.map_map, IdentityClock.map_map]

lemma nodes_map (f : ν → μ) (s : IdentityForm ν D) : (s.map f).nodes = s.nodes.map f := by
  rw [nodes, nodes, map_append, map_flatMap, map_flatMap]
  simp only [map, flatMap_map, IdentityRow.nodes_map, IdentityClock.nodes_map]

lemma map_congr {s : IdentityForm ν D} (h : ∀ n ∈ s.nodes, f n = g n) : s.map f = s.map g := by
  have hss : s.sources.map (·.map f) = s.sources.map (·.map g) := map_congr_left fun r hr =>
    IdentityRow.map_congr fun n hn => h n (mem_append_left _ (mem_flatMap.2 ⟨r, hr, hn⟩))
  have hcl : s.clocks.map (·.map f) = s.clocks.map (·.map g) := map_congr_left fun c hc =>
    IdentityClock.map_congr fun n hn => h n (mem_append_right _ (mem_flatMap.2 ⟨c, hc, hn⟩))
  rw [map, map, hss, hcl]

lemma map_id (s : IdentityForm ν D) : s.map id = s := by
  have hsi : ∀ x : IdentitySignal ν D, x.map id = x := fun x => by cases x <;> rfl
  have hrow : ∀ r : IdentityRow ν D, r.map id = r := fun r => by
    simp only [IdentityRow.map, hsi, id]
  have hcl : ∀ c : IdentityClock ν D, c.map id = c := fun c => by
    simp only [IdentityClock.map, hsi, id]
  simp only [map, hrow, hcl, map_id']

end IdentityForm

lemma identityForm_map (f : ν → μ) (barriers : List String) (s : SourceStateTable ν D S) :
    identityForm barriers (s.map f) = (identityForm barriers s).map f := by
  have hro : rowForms barriers (s.sources.map (.map f)) 0 =
      (rowForms barriers s.sources 0).map (·.map f) := by
    rw [rowForms, rowForms, zipIdx_map, map_map, map_map]
    exact map_congr_left fun r _ => rowForm_map f _ _
  have hcl : (s.clocks.map (.map f)).map clockForm = (s.clocks.map clockForm).map (·.map f) := by
    rw [map_map, map_map]
    exact map_congr_left fun c _ => clockForm_map f c
  rw [identityForm, identityForm, IdentityForm.map]
  dsimp only [SourceStateTable.map]
  rw [hro, hcl]

/-! ## Numbered by first use -/

variable [DecidableEq ν] [DecidableEq μ]

/-- The number of a node among those seen, as it is cast. -/
def number (ids : List ν) (n : ν) : UInt32 := UInt32.ofNat (ids.idxOf n)

def IdentityForm.numbered (s : IdentityForm ν D) : IdentityForm UInt32 D :=
  s.map (number (visit [] s.nodes))

lemma numbered_map (hf : Function.Injective f) (s : IdentityForm ν D) :
    (s.map f).numbered = s.numbered := by
  rw [IdentityForm.numbered, IdentityForm.numbered, IdentityForm.map_map, IdentityForm.nodes_map]
  refine IdentityForm.map_congr fun n _ => ?_
  have hvi : visit [] (s.nodes.map f) = (visit [] s.nodes).map f := visit_map hf [] s.nodes
  rw [comp_apply, number, number, hvi, idxOf_map hf]

/-- Equal numbered forms are renamings of each other, while the numbers fit. -/
lemma exists_perm_of_numbered [Finite ν] [Inhabited ν] {s t : IdentityForm ν D}
    (hs : (visit [] s.nodes).length ≤ 2 ^ 32)
    (ht : (visit [] t.nodes).length ≤ 2 ^ 32) (h : s.numbered = t.numbered) :
    ∃ σ : Equiv.Perm ν, s.map σ = t := by
  have hexa : ∀ {u : IdentityForm ν D}, (visit [] u.nodes).length ≤ 2 ^ 32 → ∀ n ∈ visit [] u.nodes,
      (number (visit [] u.nodes) n).toNat = (visit [] u.nodes).idxOf n := by
    intro u hu n hn
    have hlt := idxOf_lt_length_iff.2 hn
    rw [number, UInt32.toNat_ofNat', Nat.mod_eq_of_lt (hlt.trans_le hu)]
  have hidx : ∀ {u : IdentityForm ν D}, (visit [] u.nodes).length ≤ 2 ^ 32 →
      u.numbered.nodes.map UInt32.toNat = u.nodes.map (visit [] u.nodes).idxOf := by
    intro u hu
    rw [IdentityForm.numbered, IdentityForm.nodes_map, map_map]
    exact map_congr_left fun n hn => hexa hu n (mem_visit.2 (.inr hn))
  have hli : s.nodes.map (visit [] s.nodes).idxOf = t.nodes.map (visit [] t.nodes).idxOf := by
    rw [← hidx hs, h, hidx ht]
  obtain ⟨σ, hσ⟩ := exists_perm_of_idxOf hli
  -- the node of a number, among those of `t`
  let pick : UInt32 → ν := fun k => (visit [] t.nodes).getD k.toNat default
  have hpi : ∀ n ∈ visit [] t.nodes, ∀ k, k.toNat = (visit [] t.nodes).idxOf n → pick k = n := by
    intro n hn k hk
    have hlt := idxOf_lt_length_iff.2 hn
    change (visit [] t.nodes).getD k.toNat default = n
    rw [hk, getD_eq_getElem _ _ hlt, getElem_idxOf]
  refine ⟨σ, ?_⟩
  calc s.map σ = s.map (pick ∘ number (visit [] s.nodes)) := by
        refine IdentityForm.map_congr fun n hn => (hpi _ (hσ n hn).1 _ ?_).symm
        rw [hexa hs n (mem_visit.2 (.inr hn)), (hσ n hn).2]
    _ = s.numbered.map pick := (IdentityForm.map_map ..).symm
    _ = t.numbered.map pick := by rw [h]
    _ = t.map (pick ∘ number (visit [] t.nodes)) := IdentityForm.map_map ..
    _ = t.map id := IdentityForm.map_congr fun n hn =>
        hpi n (mem_visit.2 (.inr hn)) _ (hexa ht n (mem_visit.2 (.inr hn)))
    _ = t := t.map_id

end LiveHD.Usyn
