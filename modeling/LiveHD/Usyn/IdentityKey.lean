import LiveHD.Usyn.IdentitySound

/-!
# Equal identities

The logical identities of two inputs are equal exactly when the inputs agree on what `Same` lists:
the options, the network and the names at its positions, and the snapshots up to a renaming of their
nodes.
-/

namespace LiveHD.Usyn

open Writer hiding invalid
open Framing Synth List Lnet LogicalOptions Tells

/-- The numbers and characters of a network fit the types they are stored in. -/
structure Fits (raw : Lnet) : Prop where
  fanins : ∀ n ∈ raw.nodes, ∀ f ∈ n.fanins, f < 2 ^ 32
  inputs : ∀ p ∈ raw.inputs, p.node < 2 ^ 32
  outputs : ∀ p ∈ raw.outputs, p.node < 2 ^ 32 ∧ p.created < 2 ^ 32
  latches : ∀ l ∈ raw.latches, l.init.toNat < 256 ∧ l.q < 2 ^ 32 ∧ ∀ d ∈ l.d, d < Lnet.none32

/-- What `serialize_logical_identity` is called with. -/
structure IdentityInput (D S : Type) where
  raw : Lnet
  snapshot : SourceStateTable UInt64 D S
  names : IdentityNames := {}
  logical : LogicalOptions := {}
  producer : UInt64 := 0
  context : List UInt8 := []
  fits : Fits raw

/-- What is written for an input. -/
structure LogicalKey (D : Type) where
  logical : LogicalOptions
  producer : UInt64
  context : List UInt8
  form : IdentityForm UInt32 D
  network : NetworkForm

variable {D S : Type}

namespace IdentityInput

variable (i : IdentityInput D S)

def form : IdentityForm UInt64 D := identityForm i.names.barriers i.snapshot

def key : LogicalKey D where
  logical := i.logical
  producer := i.producer
  context := i.context
  form := i.form.numbered
  network := networkForm i.raw i.names

/-- The node numbers of a snapshot, each once. -/
def nodes : List UInt64 := visit [] i.form.nodes

variable [ArtifactDlop D]

/-- `serialize_logical_identity` -/
def serialize (limits : ArtifactLimits) (sizeof : Element → ℕ) (i : IdentityInput D S)
    (work : Work) : ArtifactBytes × Work :=
  serializeLogicalIdentity limits sizeof i.raw i.snapshot i.names i.logical
    i.producer i.context work

/-- The inputs agree on what the identity keeps. -/
structure Same (i j : IdentityInput D S) : Prop where
  logical : i.logical = j.logical
  producer : i.producer = j.producer
  context : i.context = j.context
  nodes : i.raw.nodes.map (fun n => (n.kind, n.fanins, n.table)) = j.raw.nodes.map fun n =>
    (n.kind, n.fanins, n.table)
  inputs : (i.raw.inputs.zipIdx.map fun p => (p.1.node, i.names.inputs.getD p.2 "")) =
    j.raw.inputs.zipIdx.map fun p => (p.1.node, j.names.inputs.getD p.2 "")
  outputs :
    (i.raw.outputs.zipIdx.map fun p => (p.1.node, p.1.created, i.names.outputs.getD p.2 "")) =
    j.raw.outputs.zipIdx.map fun p => (p.1.node, p.1.created, j.names.outputs.getD p.2 "")
  latches : i.raw.latches = j.raw.latches
  ports : i.names.ports = j.names.ports
  snapshot : ∃ σ : Equiv.Perm UInt64, identityForm i.names.barriers (i.snapshot.map σ) = j.form

end IdentityInput

/-! ## The key and what it keeps -/

namespace IdentityInput

variable {i j : IdentityInput D S}

lemma lid_inj {a b : ℕ} (ha : a < 2 ^ 32) (hb : b < 2 ^ 32) (h : lid a = lid b) : a = b := by
  have heq := congrArg UInt32.toNat h
  rwa [lid, lid, UInt32.toNat_ofNat', UInt32.toNat_ofNat', Nat.mod_eq_of_lt ha,
    Nat.mod_eq_of_lt hb] at heq

/-- Lists that agree in one form agree in another that is no finer. -/
lemma map_eq_of_map_eq {α γ δ : Type} {f f' : α → γ} {g g' : α → δ} {l m : List α}
    (hfg : ∀ a ∈ l, ∀ b ∈ m, f a = f' b → g a = g' b) (h : l.map f = m.map f') :
    l.map g = m.map g' := by
  induction l generalizing m with
  | nil =>
    rw [List.map_eq_nil_iff.1 h.symm]
    rfl
  | cons a l ih =>
    cases m with
    | nil => cases h
    | cons b m =>
      obtain ⟨hhe, ht⟩ := cons.inj h
      rw [map_cons, map_cons, hfg a mem_cons_self b mem_cons_self hhe,
        ih (fun c hc d hd => hfg c (mem_cons_of_mem _ hc) d (mem_cons_of_mem _ hd)) ht]

lemma latchNext_inj {l m : Lnet.Latch} (hl : ∀ d ∈ l.d, d < Lnet.none32)
    (hm : ∀ d ∈ m.d, d < Lnet.none32)
    (h : latchNext l = latchNext m) : l.d = m.d := by
  have hlt : ∀ {k : Lnet.Latch}, (∀ d ∈ k.d, d < none32) → k.d.getD none32 < 2 ^ 32 := by
    intro k hk
    cases hd : k.d with
    | none => decide
    | some d => exact (hk d hd).trans (by decide)
  have hval := lid_inj (hlt hl) (hlt hm) h
  cases hld : l.d with
  | none =>
    cases hmd : m.d with
    | none => rfl
    | some d =>
      rw [hld, hmd] at hval
      exact ((hm d hmd).ne hval.symm).elim
  | some c =>
    cases hmd : m.d with
    | none =>
      rw [hld, hmd] at hval
      exact ((hl c hld).ne hval).elim
    | some d =>
      rw [hld, hmd] at hval
      exact congrArg some hval

lemma latchForm_inj {l m : Lnet.Latch}
    (hl : l.init.toNat < 256 ∧ l.q < 2 ^ 32 ∧ ∀ d ∈ l.d, d < Lnet.none32)
    (hm : m.init.toNat < 256 ∧ m.q < 2 ^ 32 ∧ ∀ d ∈ m.d, d < none32)
    (h : latchForm l = latchForm m) : l = m := by
  obtain ⟨hin, hq, hd, hna⟩ : _ ∧ _ ∧ _ ∧ _ := by simpa [latchForm] using h
  have hch : l.init = m.init := by
    have hnat : l.init.toNat % 256 = m.init.toNat % 256 := by simpa using congrArg UInt8.toNat hin
    rw [Nat.mod_eq_of_lt hl.1, Nat.mod_eq_of_lt hm.1] at hnat
    exact Char.toNat_inj.1 hnat
  obtain ⟨name, init, q, d⟩ := l
  obtain ⟨name', init', q', d'⟩ := m
  obtain rfl : name = name' := hna
  obtain rfl : init = init' := hch
  obtain rfl : q = q' := lid_inj hl.2.1 hm.2.1 hq
  obtain rfl : d = d' := latchNext_inj hl.2.2 hm.2.2 hd
  rfl

lemma same_of_key (hi : i.nodes.length ≤ 2 ^ 32) (hj : j.nodes.length ≤ 2 ^ 32)
    (h : i.key = j.key) : i.Same j := by
  obtain ⟨hlo, hpr, hco, hfo, hne⟩ := LogicalKey.mk.inj h
  obtain ⟨hns, hin, hou, hla, hpo⟩ := NetworkForm.mk.inj hne
  refine ⟨hlo, hpr, hco, ?_, ?_, ?_, ?_, hpo, ?_⟩
  · refine map_eq_of_map_eq (fun a ha b hb hab => ?_) hns
    obtain ⟨hk, hfa, hta⟩ : _ ∧ _ ∧ _ := by simpa only [nodeForm, Prod.mk.injEq] using hab
    have hf : a.fanins.map id = b.fanins.map id :=
      map_eq_of_map_eq (fun f hf g hg => lid_inj (i.fits.fanins a ha f hf)
        (j.fits.fanins b hb g hg)) hfa
    have ht : a.table.map id = b.table.map id :=
      map_eq_of_map_eq (fun _ _ _ _ => UInt64.ofBitVec.inj) hta
    rw [hk, ← map_id a.fanins, hf, map_id, ← map_id a.table, ht, map_id]
  · refine map_eq_of_map_eq (fun a ha b hb hab => ?_) hin
    obtain ⟨hn, hna⟩ := Prod.mk.inj hab
    rw [lid_inj (i.fits.inputs _ (fst_mem_of_mem_zipIdx ha))
      (j.fits.inputs _ (fst_mem_of_mem_zipIdx hb)) hn, hna]
  · refine map_eq_of_map_eq (fun a ha b hb hab => ?_) hou
    obtain ⟨hn, hcr, hna⟩ : _ ∧ _ ∧ _ := by simpa only [Prod.mk.injEq] using hab
    have hai := i.fits.outputs _ (fst_mem_of_mem_zipIdx ha)
    have hbj := j.fits.outputs _ (fst_mem_of_mem_zipIdx hb)
    rw [lid_inj hai.1 hbj.1 hn, lid_inj hai.2 hbj.2 hcr, hna]
  · have hl : i.raw.latches.map id = j.raw.latches.map id :=
      map_eq_of_map_eq (fun l hl m hm => latchForm_inj (i.fits.latches l hl) (j.fits.latches m hm))
        hla
    rwa [List.map_id, List.map_id] at hl
  · have : Finite UInt64 := Finite.of_injective
      (fun x : UInt64 => (⟨x.toNat, x.toNat_lt⟩ : Fin (2 ^ 64)))
      fun _ _ h => UInt64.toNat.inj (Fin.mk.inj h)
    obtain ⟨σ, hσ⟩ := exists_perm_of_numbered hi hj hfo
    exact ⟨σ, (identityForm_map ..).trans hσ⟩

lemma key_of_same (h : i.Same j) : i.key = j.key := by
  obtain ⟨σ, hσ⟩ := h.snapshot
  have hfo : i.form.numbered = j.form.numbered := by
    rw [← hσ, identityForm_map, numbered_map σ.injective, form]
  have hns : i.raw.nodes.map nodeForm = j.raw.nodes.map nodeForm := by
    refine map_eq_of_map_eq (fun a _ b _ hab => ?_) h.nodes
    obtain ⟨hk, hfa, hta⟩ : _ ∧ _ ∧ _ := by simpa only [Prod.mk.injEq] using hab
    rw [nodeForm, nodeForm, hk, hfa, hta]
  have hin : inputForms i.names.inputs i.raw.inputs 0 =
      inputForms j.names.inputs j.raw.inputs 0 := by
    refine map_eq_of_map_eq (fun a _ b _ hab => ?_) h.inputs
    obtain ⟨hn, hna⟩ := Prod.mk.inj hab
    rw [hn, hna]
  have hou : outputForms i.names.outputs i.raw.outputs 0 =
      outputForms j.names.outputs j.raw.outputs 0 := by
    refine map_eq_of_map_eq (fun a _ b _ hab => ?_) h.outputs
    obtain ⟨hn, hcr, hna⟩ : _ ∧ _ ∧ _ := by simpa only [Prod.mk.injEq] using hab
    rw [hn, hcr, hna]
  rw [key, key, networkForm, networkForm, h.logical, h.producer, h.context, hfo, hns, hin,
    hou, h.latches, h.ports]

end IdentityInput

variable [ArtifactDlop D] (limits : ArtifactLimits) (sizeof : Element → ℕ)

/-! ## The bytes and the key -/

def Writer.keyCode (k : LogicalKey D) : WriterM Unit := do
  identityPolicy limits k.logical k.producer k.context
  formCode limits sizeof k.form
  networkCode limits sizeof k.network

lemma options_tells : Tells Any (Writer.options limits) id := by
  have hen := fields (Q := Any) limits (fun o : LogicalOptions => o.endpoint.fields)
    [4, 4, 4, 4, 4, 4, 4, 4, 4, 4, 4, 4, 4, 4, 4, 4, 4, 8, 4, 8, 4, 8, 4, 4, 4, 8, 8, 1] fun _ =>
      rfl
  have hre := fields (Q := Any) limits (fun o : LogicalOptions => o.residual.fields)
    [4, 4, 4, 4, 4, 4, 4, 8, 4, 4, 4, 4, 4, 4, 4, 4, 4, 8, 8, 1, 1, 1, 1, 1, 1, 1] fun _ => rfl
  have hown := fields (Q := Any) limits ownFields [4, 8, 4, 4, 4, 4, 8, 1, 1, 1] fun _ => rfl
  refine (hen.seq (hre.seq hown)).map fun a b _ _ h => ?_
  rw [Prod.mk.injEq, Prod.mk.injEq] at h
  exact eq_of_fields h.1 h.2.1 h.2.2

lemma keyCode_tells [LawfulDlop D] :
    Tells Any (Writer.keyCode limits sizeof : LogicalKey D → _) id := by
  have hve := fields (Q := Any) limits
    (fun k : LogicalKey D => [field (25 : UInt32), field (3 : UInt32), field (4 : UInt32),
      field (1 : UInt32), field k.producer])
    [4, 4, 4, 4, 8] fun _ => rfl
  have hco := string (Q := Any) limits fun k : LogicalKey D => k.context
  have hop := (options_tells limits).comap (R := Any)
    (k := fun k : LogicalKey D => k.logical) fun _ _ => trivial
  have hfo := (formCode_tells limits sizeof (D := D)).comap (R := Any)
    (k := LogicalKey.form) fun _ _ => trivial
  have hne := (networkCode_tells limits sizeof).comap (R := Any)
    (k := fun k : LogicalKey D => k.network)
    fun _ _ => trivial
  have hpo := hve.seq (hco.seq hop)
  refine (hpo.seq (hfo.seq hne)).map fun a b _ _ h => ?_
  obtain ⟨⟩ := a
  obtain ⟨⟩ := b
  simpa [and_assoc, and_left_comm] using h

namespace IdentityInput

/-- The conditions checked before anything is written. -/
def Admitted (i : IdentityInput D S) : Prop :=
  ¬(limits.bytes = 0 ∨ limits.decodedBytes = 0 ∨ limits.objects = 0 ∨ limits.nodes = 0 ∨
    limits.stringBytes = 0 ∨
    limits.formulaNodes = 0) ∧ Writer.namesMatch i.raw i.snapshot i.names

variable {limits sizeof} {i j : IdentityInput D S} {work work' : Work}

lemma serialize_eq : i.serialize limits sizeof work = Writer.result (do
    limitsValid limits
    if namesMatch i.raw i.snapshot i.names then pure ()
      else Writer.invalid "identity names do not match the region boundary"
    keyCode limits sizeof i.key) work := by
  rw [serialize, serializeLogicalIdentity, logicalIdentity, identitySource_eq, identityNetwork_eq]
  rfl

lemma serialize_of_admitted (h : i.Admitted limits) :
    i.serialize limits sizeof work = Writer.result (Writer.keyCode limits sizeof i.key) work := by
  rw [serialize_eq, limitsValid, if_neg h.1, if_pos h.2]
  rfl

lemma serialize_of_not_admitted (h : ¬i.Admitted limits) :
    (i.serialize limits sizeof work).1.status = .invalid := by
  rw [serialize_eq, limitsValid]
  split
  · rfl
  · next hli =>
    rw [if_neg fun hns => h ⟨hli, hns⟩]
    rfl

lemma admitted_of_feasible (h : (i.serialize limits sizeof work).1.status = .feasible) :
    i.Admitted limits := by
  by_contra hre
  rw [serialize_of_not_admitted hre] at h
  cases h

lemma result_ok {m : WriterM Unit} (h : (Writer.result m work).1.status = .feasible) :
    (m.run.run { work := work }).1 = .ok () ∧
    (result m work).1.bytes = (m.run.run { work := work }).2.bytes := by
  rw [result] at h ⊢
  rcases hrun : m.run.run { work := work } with ⟨e | a, s⟩
  · rw [hrun] at h
    exact (e.refused h).elim
  · exact ⟨rfl, rfl⟩

/-- Equal bytes are of equal keys. -/
lemma key_eq [LawfulDlop D] (hi : (i.serialize limits sizeof work).1.status = .feasible)
    (hj : (j.serialize limits sizeof work').1.status = .feasible)
    (hby : (i.serialize limits sizeof work).1.bytes = (j.serialize limits sizeof work').1.bytes) :
    i.key = j.key := by
  have hai := admitted_of_feasible hi
  have haj := admitted_of_feasible hj
  rw [serialize_of_admitted hai] at hi hby
  rw [serialize_of_admitted haj] at hj hby
  obtain ⟨hoki, hbyt⟩ := result_ok hi
  obtain ⟨hokj, hb⟩ := result_ok hj
  rw [hbyt, hb] at hby
  exact (keyCode_tells limits sizeof).eq (s := { work := work }) (t := { work := work' }) trivial
    trivial rfl hoki hokj hby

/-- Equal keys give one result. -/
lemma serialize_congr (hkey : i.key = j.key)
    (hns : Writer.namesMatch i.raw i.snapshot i.names ↔
      Writer.namesMatch j.raw j.snapshot j.names) :
    i.serialize limits sizeof work = j.serialize limits sizeof work := by
  rw [serialize_eq, serialize_eq, hkey]
  simp only [hns]

/-- The logical identity is injective up to what it leaves out, while at most `2 ^ 32` nodes are
numbered; inputs that agree otherwise have one identity. -/
theorem serialize_injective [LawfulDlop D] (limits : ArtifactLimits) (sizeof : Element → ℕ)
    (i j : IdentityInput D S)
    (work work' : Work) :
    (i.nodes.length ≤ 2 ^ 32 → j.nodes.length ≤ 2 ^ 32 →
      (i.serialize limits sizeof work).1.status = .feasible →
      (j.serialize limits sizeof work').1.status = .feasible →
      (i.serialize limits sizeof work).1.bytes =
        (j.serialize limits sizeof work').1.bytes → i.Same j) ∧
      (i.Same j → i.names = j.names →
        i.serialize limits sizeof work = j.serialize limits sizeof work) := by
  constructor
  · intro hi hj hfi hfj hbytes
    exact same_of_key hi hj (key_eq hfi hfj hbytes)
  · intro hsame hnames
    obtain ⟨σ, hσ⟩ := hsame.snapshot
    refine serialize_congr (key_of_same hsame) ?_
    have hinputs : i.raw.inputs.length = j.raw.inputs.length := by
      simpa using congrArg length hsame.inputs
    have houtputs : i.raw.outputs.length = j.raw.outputs.length := by
      simpa using congrArg length hsame.outputs
    have hsources : i.snapshot.sources.length = j.snapshot.sources.length := by
      simpa [identityForm, rowForms, SourceStateTable.map, form] using
        congrArg (length ∘ IdentityForm.sources) hσ
    rw [Writer.namesMatch, Writer.namesMatch, hnames, hinputs, houtputs, hsources]

end IdentityInput

/-! ## Two registers -/

/-- A constant of one bit. -/
structure Digit where
  value : Bool
deriving DecidableEq

instance : ArtifactDlop Digit where
  size _ := 1
  serialize v := [0, 0, 1, if v.value then 1 else 0] ++ List.replicate 15 0

instance : LawfulDlop Digit where
  unserialize b := ⟨b.getD 3 0 == 1⟩
  unserialize_serialize := by rintro ⟨_ | _⟩ <;> rfl

def absentPin : SourceSignal UInt64 Digit := { node := 0, value := ⟨false⟩ }

/-- A constant, read at a slot of the pool. -/
def constantPin (port : UInt32) : SourceSignal UInt64 Digit :=
  { node := 5, port := port, present := true, constant := true, bits := 1, value := ⟨true⟩ }

variable (node : UInt64) (reset : SourceSignal UInt64 Digit)

def registerRow : SourceState UInt64 Digit Unit where
  node := node
  name := "r"
  span := ()
  role := .registerCandidate
  bits := 1
  q := { node := node, present := true, bits := 1, value := ⟨false⟩ }
  data := { node := node, present := true, bits := 1, value := ⟨false⟩ }
  clock := absentPin
  clockRoot := absentPin
  enable := absentPin
  reset := reset
  initial := absentPin

/-- A register that an input toggles. -/
def toggle : Lnet :=
  (((((({} : Lnet).addInput "en").addLatch "r" '0').addLut [1, 2] kXor2).addOutput 2 "y").addOutput
    3 "z").setLatchInput 0 3

def registerInput : IdentityInput Digit Unit where
  raw := toggle
  snapshot := { sourceGraph := "", sources := [registerRow node reset] }
  fits := ⟨by decide, by decide, by decide, by decide⟩

def identityWork : Work := { budget := { remaining := 10000 } }

lemma registerInput_feasible :
    ((registerInput 1 (constantPin 0)).serialize {} (fun _ => 8) identityWork).1.status =
    .feasible := by decide +kernel

/-- Neither the number of a register nor the slot of a constant is written. -/
lemma registerInput_serialize (node : UInt64) (port : UInt32)
    (hkey : (registerInput node (constantPin port)).key = (registerInput 1 (constantPin 0)).key) :
    (registerInput node (constantPin port)).serialize {} (fun _ => 8) identityWork =
      (registerInput 1 (constantPin 0)).serialize {} (fun _ => 8) identityWork :=
  IdentityInput.serialize_congr hkey Iff.rfl

/-- A register of another node number. -/
theorem serialize_injective_registerInput :
    (registerInput 2 (constantPin 0)).Same (registerInput 1 (constantPin 0)) ∧
      (registerInput 2 (constantPin 0)).serialize {} (fun _ => 8) identityWork =
        (registerInput 1 (constantPin 0)).serialize {} (fun _ => 8) identityWork := by
  have hresult := registerInput_serialize 2 0 rfl
  have hinjective := IdentityInput.serialize_injective {} (fun _ => 8)
    (registerInput 2 (constantPin 0))
    (registerInput 1 (constantPin 0)) identityWork identityWork
  have hsame := hinjective.1 (by decide) (by decide)
    (by rw [hresult]; exact registerInput_feasible) registerInput_feasible
    (by rw [hresult])
  exact ⟨hsame, hinjective.2 hsame rfl⟩

/-- Two snapshots that no renaming of nodes relates have one identity. -/
theorem serialize_constantPin : ((registerInput 1 (constantPin 1)).serialize {} (fun _ => 8)
    identityWork).1.status = .feasible ∧
      ((registerInput 1 (constantPin 0)).serialize {} (fun _ => 8) identityWork).1.status =
      .feasible ∧
      ((registerInput 1 (constantPin 1)).serialize {} (fun _ => 8) identityWork).1.bytes =
        ((registerInput 1 (constantPin 0)).serialize {} (fun _ => 8) identityWork).1.bytes ∧
      ¬∃ σ : Equiv.Perm UInt64, (registerInput 1 (constantPin 1)).snapshot.map σ =
      (registerInput 1 (constantPin 0)).snapshot := by
  have hresult := registerInput_serialize 1 1 rfl
  refine
    ⟨by rw [hresult]; exact registerInput_feasible, registerInput_feasible, by rw [hresult], ?_⟩
  rintro ⟨σ, h⟩
  have hports : ([1] : List UInt32) = [0] :=
    congrArg (fun s => s.sources.map fun row => row.reset.port) h
  exact absurd hports (by decide)

end LiveHD.Usyn
