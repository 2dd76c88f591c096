import LiveHD.Usyn.IdentityCode

/-!
# What the logical identity determines

Each part of the identity is written so that its bytes tell the part and where it ends; the whole
identity then tells the options, the network and the numbered form of the snapshot.
-/

namespace LiveHD.Usyn

open Framing Synth EndpointOptions ResidualKnobs Tells Writer

variable {ν D S : Type} [ArtifactDlop D] (limits : ArtifactLimits) (sizeof : Element → ℕ)

/-! ## The options -/

lemma EndpointOptions.fields_injective : Function.Injective fields := by
  rintro ⟨⟨_, _, _⟩, _, _, _, _, _, ⟨_, _, _, _, _⟩⟩ ⟨⟨_, _, _⟩, _, _, _, _, _, ⟨_, _, _, _, _⟩⟩ h
  simpa [fields, and_assoc] using h

lemma ResidualKnobs.fields_injective : Function.Injective fields := by
  rintro ⟨⟩ ⟨⟩ h
  simpa [fields] using h

lemma LogicalOptions.eq_of_fields {o o' : LogicalOptions}
    (hen : o.endpoint.fields = o'.endpoint.fields)
    (hre : o.residual.fields = o'.residual.fields)
    (hown : o.ownFields = o'.ownFields) : o = o' := by
  obtain ⟨endpoint, residual⟩ := o
  obtain ⟨endpoint', residual'⟩ := o'
  obtain rfl := EndpointOptions.fields_injective hen
  obtain rfl := fields_injective hre
  simpa [LogicalOptions.ownFields] using hown

/-! ## The network -/

/-- What the identity keeps of a raw network and of the names. -/
structure NetworkForm where
  nodes : List (Lnet.Kind × List UInt32 × List UInt64)
  inputs : List (UInt32 × String)
  outputs : List (UInt32 × UInt32 × String)
  latches : List (UInt8 × UInt32 × UInt32 × String)
  ports : List String
deriving DecidableEq

def nodeForm (n : Lnet.Node) :
    Lnet.Kind × List UInt32 × List UInt64 := (n.kind, n.fanins.map lid, n.table.map UInt64.ofBitVec)

def inputForms (names : List String) (l : List Lnet.Input) (k : ℕ) : List (UInt32 × String) :=
  (l.zipIdx k).map fun p => (lid p.1.node, names.getD p.2 "")

def outputForms (names : List String) (l : List Lnet.Output) (k : ℕ) :
    List (UInt32 × UInt32 × String) :=
  (l.zipIdx k).map fun p => (lid p.1.node, lid p.1.created, names.getD p.2 "")

def latchForm (l : Lnet.Latch) :
    UInt8 × UInt32 × UInt32 × String := (UInt8.ofNat l.init.toNat, lid l.q, latchNext l, l.name)

def networkForm (raw : Lnet) (names : IdentityNames) : NetworkForm where
  nodes := raw.nodes.map nodeForm
  inputs := inputForms names.inputs raw.inputs 0
  outputs := outputForms names.outputs raw.outputs 0
  latches := raw.latches.map latchForm
  ports := names.ports

/-! ## The writer of the forms -/

namespace Writer

def nodeCode (n : Lnet.Kind × List UInt32 × List UInt64) : WriterM Unit := do
  enumeration limits (lnetKindCode n.1) 2
  sequence limits sizeof .lid n.2.1 (UInt32.toNat 8) (fun _ f => scalar limits f) ()
  sequence limits sizeof .word n.2.2 (UInt32.toNat 4) (fun _ w => scalar limits w) ()

def nodesCode (nodes : List (Lnet.Kind × List UInt32 × List UInt64)) : WriterM Unit := do
  count limits nodes.length limits.nodes.toNat
  size limits nodes.length
  nodes.forM (nodeCode limits sizeof)

def inputCode (p : UInt32 × String) : WriterM Unit := do
  scalar limits p.1
  string limits (chars p.2)

def outputCode (p : UInt32 × UInt32 × String) : WriterM Unit := do
  fields limits [field p.1, field p.2.1]
  string limits (chars p.2.2)

def latchCode (l : UInt8 × UInt32 × UInt32 × String) : WriterM Unit := do
  fields limits [field l.1, field l.2.1, field l.2.2.1]
  string limits (chars l.2.2.2)

def networkCode (n : NetworkForm) : WriterM Unit := do
  nodesCode limits sizeof n.nodes
  sequence limits sizeof .input n.inputs limits.nodes.toNat (fun _ p => inputCode limits p) ()
  sequence limits sizeof .output n.outputs limits.nodes.toNat (fun _ p => outputCode limits p) ()
  sequence limits sizeof .latch n.latches limits.nodes.toNat (fun _ l => latchCode limits l) ()
  sequence limits sizeof .string n.ports limits.nodes.toNat (fun _ p => string limits (chars p)) ()

lemma sequence_map {α α' : Type} (f : α → α') (code : α' → WriterM Unit)
    (element : Element) (l : List α) (n : ℕ) :
    sequence limits sizeof element (l.map f) n (fun _ a => code a) () =
      sequence limits sizeof element l n (fun _ a => code (f a)) () := by
  rw [sequence, sequence, List.length_map, List.foldlM_map]

lemma identityNode_eq (n : Lnet.Node) :
    identityNode limits sizeof n = nodeCode limits sizeof (nodeForm n) := by
  rw [nodeCode, nodeForm, sequence_map, sequence_map]
  rfl

lemma identityNodes_eq (l : List Lnet.Node) :
    identityNodes limits sizeof l = nodesCode limits sizeof (l.map nodeForm) := by
  rw [nodesCode, List.length_map, forM_map]
  exact congrArg (fun code => do
    count limits l.length limits.nodes.toNat; size limits l.length; l.forM code)
    (funext (identityNode_eq limits sizeof))

/-- A vector whose transfer counts its elements. -/
lemma foldlM_index {α α' : Type} {transfer : ℕ → α → WriterM ℕ}
    {code : α' → WriterM Unit} {form : α × ℕ → α'}
    (htr : ∀ k a, transfer k a = do code (form (a, k)); pure (k + 1)) (l : List α) (k : ℕ) :
    l.foldlM transfer k = (do ((l.zipIdx k).map form).forM code; pure (k + l.length)) := by
  induction l generalizing k with
  | nil => rfl
  | cons a l ih =>
    change _ = (code (form (a, k)) >>= fun _ => ((l.zipIdx (k + 1)).map form).forM code) >>= _
    rw [List.foldlM_cons, htr, bind_assoc, bind_assoc]
    simp only [pure_bind]
    rw [ih, List.length_cons, add_assoc, add_comm 1]

lemma inputs_eq (names : List String) (l : List Lnet.Input) (k : ℕ) :
    l.foldlM (identityInput limits names) k =
    (do (inputForms names l k).forM (inputCode limits); pure (k + l.length)) :=
  foldlM_index (fun k a => by simp only [identityInput, inputCode, bind_assoc]) l k

lemma outputs_eq (names : List String) (l : List Lnet.Output) (k : ℕ) :
    l.foldlM (identityOutput limits names) k =
    (do (outputForms names l k).forM (outputCode limits); pure (k + l.length)) :=
  foldlM_index (fun k a => by simp only [identityOutput, outputCode, bind_assoc]) l k

lemma identityNetwork_eq (raw : Lnet) (names : IdentityNames) :
    identityNetwork limits sizeof raw names = networkCode limits sizeof
    (networkForm raw names) := by
  have hin := sequence_eq limits sizeof .input limits.nodes.toNat (by simp [inputForms])
    (inputs_eq limits names.inputs raw.inputs 0)
  have hou := sequence_eq limits sizeof .output limits.nodes.toNat (by simp [outputForms])
    (outputs_eq limits names.outputs raw.outputs 0)
  rw [identityNetwork, networkCode, hin, hou, identityNodes_eq]
  simp only [bind_assoc, networkForm, sequence_map]
  rfl

end Writer

/-! ## What each part tells -/

section Tells

variable {α : Type} {Q : α → Prop}

lemma nodeCode_tells : Tells Any (Writer.nodeCode limits sizeof) id := by
  have hk := enumeration (Q := Any) limits lnetKindCode
    (fun n : Lnet.Kind × List UInt32 × List UInt64 => n.1) 2 (by rintro ⟨⟩ <;> decide)
      (by rintro ⟨⟩ ⟨⟩ <;> decide)
  have hfa := sequence (Q := Any) limits sizeof (scalar limits id) .lid
    (fun n : Lnet.Kind × List UInt32 × List UInt64 => n.2.1) 8
  have hta := sequence (Q := Any) limits sizeof (scalar limits id) .word
    (fun n : Lnet.Kind × List UInt32 × List UInt64 => n.2.2) 4
  refine (hk.seq (hfa.seq hta)).map fun a b _ _ h => ?_
  simpa using h

lemma inputCode_tells : Tells Any (Writer.inputCode limits) id := by
  refine ((scalar limits fun p : UInt32 × String => p.1).seq (.name limits fun p => p.2)).map
    fun a b _ _ h => h

lemma outputCode_tells : Tells Any (Writer.outputCode limits) id := by
  have hf := fields (Q := Any) limits
    (fun p : UInt32 × UInt32 × String => [field p.1, field p.2.1]) [4, 4]
    fun _ => rfl
  refine (hf.seq (name limits fun p => p.2.2)).map fun a b _ _ h => ?_
  simpa [Prod.ext_iff, and_assoc] using h

lemma latchCode_tells : Tells Any (Writer.latchCode limits) id := by
  have hf := fields (Q := Any) limits
    (fun l : UInt8 × UInt32 × UInt32 × String => [field l.1, field l.2.1, field l.2.2.1]) [1, 4, 4]
      fun _ => rfl
  refine (hf.seq (name limits fun l => l.2.2.2)).map fun a b _ _ h => ?_
  simpa [Prod.ext_iff, and_assoc] using h

open NetworkForm

lemma networkCode_tells : Tells Any (Writer.networkCode limits sizeof) id := by
  have hns := counted (Q := Any) limits (nodeCode_tells limits sizeof)
    NetworkForm.nodes limits.nodes
  have hin := sequence (Q := Any) limits sizeof (inputCode_tells limits) .input inputs limits.nodes
  have hou := sequence (Q := Any) limits sizeof (outputCode_tells limits) .output outputs
    limits.nodes
  have hla := sequence (Q := Any) limits sizeof (latchCode_tells limits) .latch latches limits.nodes
  have hpo := sequence (Q := Any) limits sizeof (name limits id) .string ports limits.nodes
  refine (hns.seq (hin.seq (hou.seq (hla.seq hpo)))).map fun a b _ _ h => ?_
  obtain ⟨⟩ := a
  obtain ⟨⟩ := b
  simpa using h

def signalFlags : IdentitySignal UInt32 D → List Field
  | .absent c => [field false, field c]
  | .constant _ _ => [field true, field true]
  | .pin _ _ _ _ => [field true, field false]

/-- What follows the flags of a signal. -/
def signalRest : IdentitySignal UInt32 D → WriterM Unit
  | .absent _ => pure ()
  | .constant b v => do
    Writer.scalar limits b
    value limits v
  | .pin n p b v => do
    scalar limits n
    scalar limits p
    scalar limits b
    value limits v

lemma signalCode_eq (s : IdentitySignal UInt32 D) :
    Writer.signalCode limits s = (do fields limits (signalFlags s); signalRest limits s) := by
  cases s with
  | absent c => exact (bind_pure _).symm
  | constant | pin => rfl

variable [LawfulDlop D]

/-- The flags of a signal say which fields follow. -/
lemma signalCode_tells : Tells Any (Writer.signalCode limits : IdentitySignal UInt32 D → _) id := by
  have hco : Tells Any (fun e : UInt32 × D => signalRest limits (.constant e.1 e.2)) id := by
    have hseq := (scalar (Q := Any) limits fun e : UInt32 × D => e.1).seq
      (value limits fun e => e.2)
    exact (hseq.congr fun _ _ => rfl).map fun a b _ _ h => h
  have hpin : Tells Any (fun e : UInt32 × UInt32 × UInt32 × D => signalRest limits
      (.pin e.1 e.2.1 e.2.2.1 e.2.2.2))
      id := by
    have hseq := (scalar (Q := Any) limits fun e : UInt32 × UInt32 × UInt32 × D => e.1).seq
      ((scalar limits fun e => e.2.1).seq
        ((scalar limits fun e => e.2.2.1).seq (value limits fun e => e.2.2.2)))
    exact (hseq.congr fun _ _ => rfl).map fun a b _ _ h => h
  have hr : ∀ k, Tells (fun s : IdentitySignal UInt32 D => True ∧ signalFlags s = k)
      (signalRest limits) id := by
    intro k
    by_cases hk : ∃ s : IdentitySignal UInt32 D, signalFlags s = k
    · obtain ⟨s, rfl⟩ := hk
      cases s with
      | absent c =>
        have hall : ∀ a : IdentitySignal UInt32 D, signalFlags a =
            signalFlags (.absent c : IdentitySignal UInt32 D) → a = .absent c := by
          rintro (_ | _ | _) h <;> simp [signalFlags] at h ⊢
          exact h
        refine ((none (Q := _) ()).congr fun a ha => ?_).map fun a b ha hb _ =>
          (hall a ha.2).trans (hall b hb.2).symm
        rw [hall a ha.2]
        rfl
      | constant b v =>
        refine hco.image fun a ha => ?_
        cases a with
        | absent | pin => simp [signalFlags] at ha
        | constant b' v' => exact ⟨(b', v'), trivial, rfl⟩
      | pin n p b v =>
        refine hpin.image fun a ha => ?_
        cases a with
        | absent | constant => simp [signalFlags] at ha
        | pin n' p' b' v' => exact ⟨(n', p', b', v'), trivial, rfl⟩
    · exact ⟨fun _ => [], fun _ => True, fun a ha => (hk ⟨a, ha.2⟩).elim,
        fun a _ ha => (hk ⟨a, ha.1.2⟩).elim⟩
  have hfl := fields (Q := Any) limits (signalFlags (D := D)) [1, 1] fun s => by cases s <;> rfl
  exact ((hfl.dep hr).congr fun s _ => signalCode_eq limits s).map fun a b _ _ h =>
    congrArg Prod.snd h

lemma rowCode_tells : Tells Any (Writer.rowCode limits : IdentityRow UInt32 D → _) id := by
  have hn := scalar (Q := Any) limits fun r : IdentityRow UInt32 D => r.node
  have hna := name (Q := Any) limits fun r : IdentityRow UInt32 D => r.name
  have hro := enumeration (Q := Any) limits stateRoleCode (fun r : IdentityRow UInt32 D => r.role) 5
    (by rintro ⟨⟩ <;> decide) (by rintro ⟨⟩ ⟨⟩ <;> decide)
  have hw := fields (Q := Any) limits
    (fun r : IdentityRow UInt32 D => [field r.bits, field r.stages, field r.widthKnown]) [4, 4, 1]
      fun _ => rfl
  have hsi := (signalCode_tells limits (D := D)).forM (Q := Any) IdentityRow.signals 7 fun _ => rfl
  have hfl := fields (Q := Any) limits
    (fun row : IdentityRow UInt32 D =>
      [field row.negClock, field row.clockEdgeKnown, field row.negReset, field row.asyncReset,
      field row.powerOn, field row.icg, field row.translatedBits]) [1, 1, 1, 1, 1, 4, 8] fun _ =>
      rfl
  refine (hn.seq (hna.seq (hro.seq (hw.seq (hsi.seq hfl))))).map fun a b _ _ h => ?_
  obtain ⟨⟩ := a
  obtain ⟨⟩ := b
  simpa [IdentityRow.signals, and_assoc] using h

lemma clockCode_tells : Tells Any (Writer.clockCode limits : IdentityClock UInt32 D → _) id := by
  have hsi := (signalCode_tells limits (D := D)).forM (Q := Any) IdentityClock.signals 3 fun _ =>
    rfl
  have hla := scalar (Q := Any) limits fun c : IdentityClock UInt32 D => c.latchNode
  have hpa := scalar (Q := Any) limits fun c : IdentityClock UInt32 D => c.parent
  have hna := name (Q := Any) limits fun c : IdentityClock UInt32 D => c.name
  refine (hsi.seq (hla.seq (hpa.seq hna))).map fun a b _ _ h => ?_
  obtain ⟨⟩ := a
  obtain ⟨⟩ := b
  simpa [IdentityClock.signals, and_assoc] using h

omit [LawfulDlop D] [ArtifactDlop D] in
lemma identityBit_tells : Tells Any (Writer.identityBit limits) id := by
  have hpl := fields (Q := Any) limits
    (fun b : StateBit => [field b.source, field b.stage, field b.bit, field b.latch])
    [4, 4, 4, 4] fun _ => rfl
  have hna := name (Q := Any) limits fun b : StateBit => b.name
  have hpi := fields (Q := Any) limits
    (fun b : StateBit => [field b.q.node, field b.q.inverted, field b.d.node, field b.d.inverted])
      [4, 1, 4, 1] fun _ => rfl
  refine (hpl.seq (hna.seq hpi)).map fun a b _ _ h => ?_
  obtain ⟨_, _, _, _, _, ⟨⟩, ⟨⟩⟩ := a
  obtain ⟨_, _, _, _, _, ⟨⟩, ⟨⟩⟩ := b
  simpa [and_assoc] using h

lemma identityControl_tells : Tells Any (Writer.identityControl limits sizeof) id := by
  have hsrc := scalar (Q := Any) limits fun c : StateControl => c.source
  have hk := enumeration (Q := Any) limits stateControlKindCode (fun c : StateControl => c.kind) 2
    (by rintro ⟨⟩ <;> decide) (by rintro ⟨⟩ ⟨⟩ <;> decide)
  have hou := sequence (Q := Any) limits sizeof (scalar limits id) .index
    StateControl.outputs limits.nodes
  refine (hsrc.seq (hk.seq hou)).map fun a b _ _ h => ?_
  obtain ⟨⟩ := a
  obtain ⟨⟩ := b
  simpa using h

lemma identityControlSignal_tells : Tells Any (Writer.identityControlSignal limits) id := by
  refine (fields (Q := Any) limits (fun c : ControlSignal => [field c.output, field c.roles,
    field c.prerouteExcluded, field c.prerouteRoot, field c.prerouteCut]) [4, 1, 1, 1, 1]
      fun _ => rfl).map fun a b _ _ h => ?_
  obtain ⟨⟩ := a
  obtain ⟨⟩ := b
  simpa using h

lemma formCode_tells : Tells Any
    (Writer.formCode limits sizeof : IdentityForm UInt32 D → _) id := by
  have hsc := enumeration (Q := Any) limits stateScopeCode
    (fun s : IdentityForm UInt32 D => s.scope) 2
    (by rintro ⟨⟩ <;> decide) (by rintro ⟨⟩ ⟨⟩ <;> decide)
  have hbo := scalar (Q := Any) limits fun s : IdentityForm UInt32 D => s.logicalBoundary
  have hss := sequence (Q := Any) limits sizeof (rowCode_tells limits (D := D)) .sourceState
    IdentityForm.sources limits.nodes
  have hcl := sequence (Q := Any) limits sizeof (clockCode_tells limits (D := D)) .clockGate
    IdentityForm.clocks limits.nodes
  have hb := sequence (Q := Any) limits sizeof (identityBit_tells limits) .stateBit
    (fun s : IdentityForm UInt32 D => s.bits) limits.nodes
  have hco := sequence (Q := Any) limits sizeof (identityControl_tells limits sizeof) .stateControl
    (fun s : IdentityForm UInt32 D => s.controls) limits.nodes
  have hsi := sequence (Q := Any) limits sizeof (identityControlSignal_tells limits) .controlSignal
    (fun s : IdentityForm UInt32 D => s.controlSignals) limits.nodes
  refine (hsc.seq (hbo.seq (hss.seq (hcl.seq (hb.seq (hco.seq hsi)))))).map fun a b _ _ h => ?_
  obtain ⟨⟩ := a
  obtain ⟨⟩ := b
  simpa using h

end Tells

end LiveHD.Usyn
