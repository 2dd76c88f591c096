import LiveHD.Usyn.IdentityForm

/-!
# The writer of an identity form

`identity_source` writes the numbered form of a snapshot, and nothing else about it.
-/

namespace LiveHD.Usyn

open Framing Synth List

variable {ν D S : Type} [DecidableEq ν] [ArtifactDlop D]
  (limits : ArtifactLimits) (sizeof : Element → ℕ)

namespace Writer

def signalCode : IdentitySignal UInt32 D → WriterM Unit
  | .absent c => fields limits [field false, field c]
  | .constant b v => do
    fields limits [field true, field true]
    scalar limits b
    value limits v
  | .pin n p b v => do
    fields limits [field true, field false]
    scalar limits n
    scalar limits p
    scalar limits b
    value limits v

def rowCode (row : IdentityRow UInt32 D) : WriterM Unit := do
  scalar limits row.node
  string limits (chars row.name)
  enumeration limits (stateRoleCode row.role) 5
  fields limits [field row.bits, field row.stages, field row.widthKnown]
  row.signals.forM (signalCode limits)
  fields limits [field row.negClock, field row.clockEdgeKnown, field row.negReset,
    field row.asyncReset, field row.powerOn,
    field row.icg, field row.translatedBits]

def clockCode (c : IdentityClock UInt32 D) : WriterM Unit := do
  c.signals.forM (signalCode limits)
  scalar limits c.latchNode
  scalar limits c.parent
  string limits (chars c.name)

def formCode (s : IdentityForm UInt32 D) : WriterM Unit := do
  enumeration limits (stateScopeCode s.scope) 2
  scalar limits s.logicalBoundary
  sequence limits sizeof .sourceState s.sources limits.nodes.toNat
    (fun _ row => rowCode limits row) ()
  sequence limits sizeof .clockGate s.clocks limits.nodes.toNat (fun _ c => clockCode limits c) ()
  identityTail limits sizeof s.bits s.controls s.controlSignals

variable {ids L : List ν}

lemma canonical_eq {n : ν} (h : visit ids [n] <+: L) :
    canonical ids n = (visit ids [n], number L n) := by
  change _ = ((if n ∈ ids then ids else ids ++ [n]), _)
  change (if n ∈ ids then ids else ids ++ [n]) <+: L at h
  rw [canonical, number]
  split
  next hn =>
    rw [if_pos hn] at h
    rw [h.idxOf_eq_of_mem hn]
  next hn =>
    rw [if_neg hn] at h
    rw [← h.idxOf_eq_of_mem (mem_append_right _ (mem_singleton_self n)), idxOf_append_of_notMem hn,
      idxOf_cons_self, Nat.add_zero]

lemma identitySignal_eq (s : SourceSignal ν D) (h : visit ids (signalForm s).nodes <+: L) :
    identitySignal limits ids s = (do
      signalCode limits ((signalForm s).map (number L))
      pure (visit ids (signalForm s).nodes)) := by
  obtain ⟨node, port, present, constant, bits, v⟩ := s
  cases present with
  | false => rfl
  | true =>
    cases constant with
    | true => simp only [signalForm, signalCode, IdentitySignal.map, if_true, bind_assoc]; rfl
    | false =>
      have hca := canonical_eq h
      simp only [identitySignal, signalForm, signalCode, IdentitySignal.map, if_true,
        hca, bind_assoc, pure_bind,
        Bool.false_eq_true, if_false]
      rfl

/-- A transfer that carries the nodes seen, over a whole vector. -/
lemma foldlM_visit {α : Type} {transfer : List ν → α → WriterM (List ν)}
    {code : α → WriterM Unit} {nodes : α → List ν}
    {l : List α} (htr : ∀ a ∈ l, ∀ ids, visit ids (nodes a) <+: L →
      transfer ids a = do code a; pure (visit ids (nodes a)))
    (h : visit ids (l.flatMap nodes) <+: L) :
    l.foldlM transfer ids = (do l.forM code; pure (visit ids (l.flatMap nodes))) := by
  induction l generalizing ids with
  | nil => rfl
  | cons a l ih =>
    rw [flatMap_cons, visit_append] at h ⊢
    change _ = (code a >>= fun _ => l.forM code) >>= _
    rw [foldlM_cons, htr a (.head _) ids ((prefix_visit _ _).trans h), bind_assoc, bind_assoc]
    simp only [pure_bind]
    rw [ih (fun b hb => htr b (.tail _ hb)) h]

/-- A vector whose elements leave something behind. -/
lemma sequence_eq {α α' β : Type} {transfer : β → α → WriterM β}
    {code : α' → WriterM Unit} {l : List α}
    {l' : List α'} {b b' : β} (element : Element) (n : ℕ) (hlen : l.length = l'.length)
    (h : l.foldlM transfer b = do l'.forM code; pure b') :
    sequence limits sizeof element l n transfer b = (do
      sequence limits sizeof element l' n (fun _ a => code a) ()
      pure b') := by
  rw [sequence, sequence, h, hlen, foldlM_unit]
  simp only [bind_assoc]

lemma forM_map {α α' : Type} (f : α → α') (code : α' → WriterM Unit) (l : List α) :
    (l.map f).forM code = l.forM (code ∘ f) := List.forM_map

lemma signals_eq (l : List (SourceSignal ν D))
    (h : visit ids (l.flatMap fun s => (signalForm s).nodes) <+: L) :
    l.foldlM (identitySignal limits) ids = (do
      ((l.map signalForm).map (·.map (number L))).forM (signalCode limits)
      pure (visit ids (l.flatMap fun s => (signalForm s).nodes))) := by
  rw [foldlM_visit (fun s _ ids h => identitySignal_eq limits s h) h, List.map_map, forM_map]
  rfl

variable {barriers : List String}

lemma identityRow_eq (row : SourceState ν D S) (k : ℕ)
    (h : visit ids (rowForm (barriers.getD k "") row).nodes <+: L) :
    identityRow limits barriers (ids, k) row = (do
      rowCode limits ((rowForm (barriers.getD k "") row).map (number L))
      pure (visit ids (rowForm (barriers.getD k "") row).nodes, k + 1)) := by
  have hns : (rowForm (barriers.getD k "") row).nodes =
    row.node :: (rowSignals row).flatMap fun s => (signalForm s).nodes := rfl
  rw [hns, visit_cons] at h ⊢
  have hca := canonical_eq ((prefix_visit _ _).trans h)
  rw [identityRow]
  simp only [hca, signals_eq limits _ h, bind_assoc, rowCode]
  rfl

lemma rows_eq (rows : List (SourceState ν D S)) (k : ℕ)
    (h : visit ids ((rowForms barriers rows k).flatMap IdentityRow.nodes) <+: L) :
    rows.foldlM (identityRow limits barriers) (ids, k) = (do
      ((rowForms barriers rows k).map (·.map (number L))).forM (rowCode limits)
      pure (visit ids ((rowForms barriers rows k).flatMap IdentityRow.nodes),
        k + rows.length)) := by
  induction rows generalizing ids k with
  | nil => rfl
  | cons row rows ih =>
    have hfo : rowForms barriers (row :: rows) k =
      rowForm (barriers.getD k "") row :: rowForms barriers rows (k + 1) := rfl
    rw [hfo, flatMap_cons, visit_append] at h ⊢
    change _ = (rowCode limits _ >>=
      fun _ => ((rowForms barriers rows (k + 1)).map _).forM (rowCode limits)) >>= _
    rw [foldlM_cons, identityRow_eq limits row k ((prefix_visit _ _).trans h),
      bind_assoc, bind_assoc]
    simp only [pure_bind]
    rw [ih _ h, length_cons, Nat.add_assoc, Nat.add_comm 1]

lemma identityClock_eq (c : SourceClockGate ν D S) (h : visit ids (clockForm c).nodes <+: L) :
    identityClock limits ids c = (do
      clockCode limits ((clockForm c).map (number L))
      pure (visit ids (clockForm c).nodes)) := by
  have hns : (clockForm c).nodes =
    ([c.output, c.clock, c.enable].flatMap fun s => (signalForm s).nodes) ++ [c.latchNode] := rfl
  rw [hns, visit_append] at h ⊢
  have hca := canonical_eq h
  rw [identityClock, signals_eq limits _ ((prefix_visit _ _).trans h)]
  simp only [hca, bind_assoc, pure_bind, clockCode]
  rfl

lemma clocks_eq (l : List (SourceClockGate ν D S))
    (h : visit ids ((l.map clockForm).flatMap IdentityClock.nodes) <+: L) :
    l.foldlM (identityClock limits) ids = (do
      ((l.map clockForm).map (·.map (number L))).forM (clockCode limits)
      pure (visit ids ((l.map clockForm).flatMap IdentityClock.nodes))) := by
  rw [flatMap_map] at h ⊢
  rw [foldlM_visit (fun c _ ids h => identityClock_eq limits c h) h, List.map_map, forM_map]
  rfl

/-- `identity_source` writes the numbered form. -/
lemma identitySource_eq (s : SourceStateTable ν D S) :
    identitySource limits sizeof s barriers = formCode limits sizeof
    (identityForm barriers s).numbered := by
  have hfi : visit [] ((rowForms barriers s.sources 0).flatMap IdentityRow.nodes) <+:
      visit [] (identityForm barriers s).nodes := by
    rw [IdentityForm.nodes, visit_append]
    exact prefix_visit _ _
  have hth : visit (visit [] ((rowForms barriers s.sources 0).flatMap IdentityRow.nodes))
      ((s.clocks.map clockForm).flatMap IdentityClock.nodes) <+:
      visit [] (identityForm barriers s).nodes := by
    rw [IdentityForm.nodes, visit_append]
    exact prefix_rfl
  have hro := rows_eq limits s.sources 0 hfi
  have hcl := clocks_eq limits s.clocks hth
  have hlen : s.sources.length = ((rowForms barriers s.sources 0).map
      (·.map (number (visit [] (identityForm barriers s).nodes)))).length := by simp [rowForms]
  have hss := sequence_eq limits sizeof .sourceState limits.nodes.toNat hlen hro
  have hga := sequence_eq limits sizeof .clockGate limits.nodes.toNat (by simp) hcl
  rw [identitySource, hss]
  simp only [bind_assoc, pure_bind, hga]
  rfl

end Writer

end LiveHD.Usyn
