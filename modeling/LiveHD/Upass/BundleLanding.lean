import LiveHD.Upass.BundleContents

/-!
# What lands in a bundle

The fields of a bundle after those of another were concatenated to it, segment by segment.
-/

namespace LiveHD.Upass

open List

variable {V : Type*}

/-! ## Positions -/

/-- The positional fields in their order. -/
def numbered (fields : List (Field V (Tree V))) : List (ℕ × Field V (Tree V)) :=
  fields.filterMap fun f => match f.seg with
    | .named _ => none
    | .unnamed p => some (p, f)

lemma mem_numbered {fields : List (Field V (Tree V))} {p : ℕ} {f : Field V (Tree V)} :
    (p, f) ∈ numbered fields ↔ f ∈ fields ∧ f.seg = .unnamed p := by
  rw [numbered, mem_filterMap]
  constructor
  · rintro ⟨g, hg, heq⟩
    cases hseg : g.seg with
    | named => rw [hseg] at heq; cases heq
    | unnamed q =>
      rw [hseg] at heq
      cases (Option.some.inj heq)
      exact ⟨hg, hseg⟩
  · rintro ⟨hf, hseg⟩
    exact ⟨f, hf, by rw [hseg]⟩

lemma nextUnnamed_le_iff (fields : List (Field V (Tree V))) (n : ℕ) :
    nextUnnamed fields ≤ n ↔ ∀ f ∈ fields, ∀ p, f.seg = .unnamed p → p < n := by
  have hfo : ∀ start : ℕ, fields.foldl (fun next f => match f.seg with
      | .named _ => next
      | .unnamed p => max next (p + 1)) start ≤ n ↔
        start ≤ n ∧ ∀ f ∈ fields, ∀ p, f.seg = .unnamed p → p < n := by
    induction fields with
    | nil => exact fun start => (and_iff_left fun f hf => by cases hf).symm
    | cons f fields ih =>
      intro start
      rw [foldl_cons, ih, forall_mem_cons]
      cases hseg : f.seg with
      | named x =>
        refine and_congr_right fun _ => (and_iff_right fun p hp => ?_).symm
        cases hp
      | unnamed p =>
        rw [max_le_iff, and_assoc]
        refine and_congr_right fun _ => and_congr_left' ?_
        exact ⟨fun h q hq => by cases hq; exact h, fun h => h p rfl⟩
  exact (hfo 0).trans (and_iff_right (Nat.zero_le n))

/-- There is nothing at the slots from the next one on. -/
lemma field_nextUnnamed (n : Node V (Tree V)) {k : ℕ} (hk : nextUnnamed n.fields ≤ k) :
    n.field (.unnamed k) = none :=
  Node.field_eq_none_iff.2 fun f hf hseg =>
    Nat.lt_irrefl k ((nextUnnamed_le_iff n.fields k).1 hk f hf k hseg)

/-! ## The steps -/

namespace Landing

variable {l : Landing V} {g f : Field V (Tree V)}

/-- The slots from the next one on are free, and the fields distinct. -/
structure Ready (l : Landing V) : Prop where
  distinct : l.node.Distinct
  free : ∀ k, l.nextUnnamed ≤ k → l.node.field (.unnamed k) = none

lemma field_renumber (h : l.Ready) (s : Seg) :
    (l.renumber g).node.field s = if s = .unnamed l.nextUnnamed then some
    { g with seg := .unnamed l.nextUnnamed } else l.node.field s :=
  Node.field_appendField (f := { g with seg := .unnamed l.nextUnnamed })
    h.distinct (h.free _ le_rfl) s

lemma Ready.renumber (h : l.Ready) : (l.renumber g).Ready where
  distinct := h.distinct.appendField
    (f := { g with seg := .unnamed l.nextUnnamed }) (h.free _ le_rfl)
  free k hk := by
    have hne : Seg.unnamed k ≠ .unnamed l.nextUnnamed := fun heq => by
      rw [Seg.unnamed.inj heq] at hk
      exact Nat.not_succ_le_self _ hk
    rw [field_renumber h, if_neg hne]
    exact h.free k (Nat.le_of_succ_le hk)

lemma field_land (h : l.Ready) (o : Option (Field V (Tree V))) (s : Seg) :
    (l.land o).node.field s = match o with
      | none => l.node.field s
      | some f => if s = f.seg then some f else l.node.field s := by
  cases o with
  | none => rfl
  | some f => exact Node.field_putField h.distinct s

lemma Ready.land (h : l.Ready) (o : Option (Field V (Tree V)))
    (ho : ∀ f ∈ o, ∃ x, f.seg = .named x) : (l.land o).Ready := by
  cases o with
  | none => exact h
  | some f =>
    refine ⟨h.distinct.putField, fun k hk => ?_⟩
    obtain ⟨x, hx⟩ := ho f rfl
    rw [field_land h]
    change (if Seg.unnamed k = f.seg then some f else l.node.field (.unnamed k)) = none
    rw [if_neg (by rw [hx]; exact Seg.noConfusion)]
    exact h.free k hk

end Landing

/-! ## The loop -/

section

variable [DlopCompare V]

namespace Tree

variable {l l' : Landing V} {g : Field V (Tree V)} {gs : List (Field V (Tree V))} {t u r : Tree V}

/-- What a field of the other bundle makes of the field of its name, if it is not dropped. -/
def combine (old : Option (Field V (Tree V))) (g : Field V (Tree V)) :
    Except (List Seg) (Option (Field V (Tree V))) :=
  match g.sub with
  | none => combineLeaf old g.seg g.leaf
  | some u => combineSub (fun v => concat v u) old g.seg g.leaf u

lemma concatFields_unnamed {p : ℕ} (hseg : g.seg = .unnamed p) :
    concatFields l (g :: gs) = concatFields (l.renumber g) gs := by
  obtain ⟨seg, leaf, sub⟩ := g
  obtain rfl := hseg
  rw [concatFields]

lemma concatFields_named {x : Text} (hseg : g.seg = .named x) :
    concatFields l (g :: gs) = (combine (l.node.field g.seg) g).bind fun f =>
    concatFields (l.land f) gs := by
  obtain ⟨seg, leaf, sub⟩ := g
  obtain rfl := hseg
  cases sub <;> rw [concatFields] <;> rfl

/-- The field keeps its name. -/
lemma combine_seg {old : Option (Field V (Tree V))} {o : Option (Field V (Tree V))}
    (h : combine old g = .ok o) :
    ∀ f ∈ o, f.seg = g.seg := by
  obtain ⟨seg, leaf, sub⟩ := g
  rintro f rfl
  cases sub with
  | none =>
    change combineLeaf old seg leaf = .ok (some f) at h
    unfold combineLeaf at h
    split at h
    · cases h
    · split at h
      · cases h
        rfl
      · split at h
        · cases h
        · split at h
          · cases h
            rfl
          · cases h
  | some u =>
    change combineSub (fun v => concat v u) old seg leaf u = .ok (some f) at h
    unfold combineSub at h
    split at h
    · cases h
      rfl
    · split at h
      · cases h
        rfl
      · cases h
    · split at h
      · cases h
        rfl
      · cases h

/-- The fields after the loop: a name by the rule for it, a position by the slot it got. -/
structure Landed (l l' : Landing V) (gs : List (Field V (Tree V))) : Prop where
  distinct : l'.node.Distinct
  scalar : l'.node.scalar = l.node.scalar
  other : ∀ x, (∀ g ∈ gs, g.seg ≠ .named x) → l'.node.field (.named x) = l.node.field (.named x)
  named : ∀ g ∈ gs, ∀ x, g.seg = .named x → ∃ o, combine (l.node.field (.named x)) g = .ok o ∧
    l'.node.field (.named x) = o.or (l.node.field (.named x))
  unnamed : ∀ k, l'.node.field (.unnamed k) = if k < l.nextUnnamed then l.node.field (.unnamed k)
    else ((numbered gs)[k - l.nextUnnamed]?).map fun pg => { pg.2 with seg := .unnamed k }

lemma Landed.nil (h : l.Ready) : Landed l l [] where
  distinct := h.distinct
  scalar := rfl
  other _ _ := rfl
  named g hg := by cases hg
  unnamed k := by
    split
    · rfl
    next hk => exact h.free k (not_lt.1 hk)

lemma Landed.cons_unnamed {p : ℕ} (h : l.Ready) (hseg : g.seg = .unnamed p)
    (hr : Landed (l.renumber g) l' gs) : Landed l l' (g :: gs) where
  distinct := hr.distinct
  scalar := hr.scalar
  other x hx := by
    rw [hr.other x fun g' hg' => hx g' (.tail _ hg'),
      Landing.field_renumber h, if_neg Seg.noConfusion]
  named g' hg' x hx := by
    rcases mem_cons.1 hg' with rfl | hg'
    · rw [hseg] at hx
      cases hx
    · have hna := hr.named g' hg' x hx
      rwa [Landing.field_renumber h, if_neg Seg.noConfusion] at hna
  unnamed k := by
    have hnu : numbered (g :: gs) = (p, g) :: numbered gs := by
      rw [numbered, filterMap_cons]
      split
      next hno =>
        rw [hseg] at hno
        cases hno
      next b hsm =>
        rw [hseg] at hsm
        cases hsm
        rfl
    rw [hr.unnamed, Landing.field_renumber h, hnu]
    change (if k < l.nextUnnamed + 1 then _
      else ((numbered gs)[k - (l.nextUnnamed + 1)]?).map _) = _
    rcases lt_trichotomy k l.nextUnnamed with hk | rfl | hk
    · rw [if_pos (hk.trans (Nat.lt_succ_self _)), if_pos hk,
        if_neg fun heq => hk.ne (Seg.unnamed.inj heq)]
    · rw [if_pos (Nat.lt_succ_self _), if_pos rfl, if_neg (lt_irrefl _), Nat.sub_self]
      rfl
    · rw [if_neg (not_lt.2 hk), if_neg hk.not_gt,
        show k - l.nextUnnamed = k - (l.nextUnnamed + 1) + 1 by omega, getElem?_cons_succ]

lemma Landed.cons_named {x : Text} {o : Option (Field V (Tree V))} (h : l.Ready)
    (hseg : g.seg = .named x)
    (hnew : ∀ g' ∈ gs, g'.seg ≠ g.seg) (ho : combine (l.node.field g.seg) g = .ok o)
    (hr : Landed (l.land o) l' gs) :
    Landed l l' (g :: gs) := by
  -- the fields of other segments are the old ones
  have hf : ∀ s, s ≠ .named x → (l.land o).node.field s = l.node.field s := by
    intro s hs
    rw [Landing.field_land h]
    cases o with
    | none => rfl
    | some f => exact if_neg (by rw [combine_seg ho f rfl, hseg]; exact hs)
  have hn : (l.land o).nextUnnamed = l.nextUnnamed := by cases o <;> rfl
  have hnu : numbered (g :: gs) = numbered gs := by
    rw [numbered, filterMap_cons]
    split
    · rfl
    next b hsm =>
      rw [hseg] at hsm
      cases hsm
  refine ⟨hr.distinct, ?_, ?_, ?_, ?_⟩
  · rw [hr.scalar]
    cases o with
    | none => rfl
    | some f => exact Node.scalar_putField
  · intro y hy
    rw [hr.other y fun g' hg' => hy g' (.tail _ hg')]
    refine hf _ fun heq => hy g (.head _) ?_
    rw [hseg, heq]
  · intro g' hg' y hy
    rcases mem_cons.1 hg' with rfl | hg'
    · rw [hseg] at hy
      cases hy
      rw [hseg] at ho
      refine ⟨o, ho, ?_⟩
      rw [hr.other x fun g'' hg'' => by rw [← hseg]; exact hnew g'' hg'', Landing.field_land h]
      cases o with
      | none => rfl
      | some f => exact if_pos ((combine_seg ho f rfl).trans hseg).symm
    · have hne : y ≠ x := by
        rintro rfl
        exact hnew g' hg' (hy.trans hseg.symm)
      have hna := hr.named g' hg' y hy
      rwa [hf _ fun heq => hne (Seg.named.inj heq)] at hna
  · intro k
    rw [hr.unnamed, hn, hf _ Seg.noConfusion, hnu]

lemma concatFields_landed (h : l.Ready) (hgs : (gs.map Field.seg).Nodup)
    (hok : concatFields l gs = .ok l') : Landed l l' gs := by
  induction gs generalizing l with
  | nil =>
    cases hok
    exact .nil h
  | cons g gs ih =>
    rw [map_cons, nodup_cons, mem_map] at hgs
    have hnew : ∀ g' ∈ gs, g'.seg ≠ g.seg := fun g' hg' heq => hgs.1 ⟨g', hg', heq⟩
    cases hseg : g.seg with
    | unnamed p =>
      rw [concatFields_unnamed hseg] at hok
      exact .cons_unnamed h hseg (ih h.renumber hgs.2 hok)
    | named x =>
      rw [concatFields_named hseg] at hok
      cases ho : combine (l.node.field g.seg) g with
      | error c =>
        rw [ho] at hok
        cases hok
      | ok o =>
        rw [ho] at hok
        exact .cons_named h hseg hnew ho
          (ih (h.land o fun f hf => ⟨x, (combine_seg ho f hf).trans hseg⟩) hgs.2 hok)

/-- The loop gets to its end when the rule has a result for every name. -/
lemma concatFields_isOk (h : l.Ready) (hgs : (gs.map Field.seg).Nodup)
    (hok : ∀ g ∈ gs, ∀ x, g.seg = .named x → ∃ o, combine (l.node.field g.seg) g = .ok o) :
    ∃ l', concatFields l gs = .ok l' := by
  induction gs generalizing l with
  | nil => exact ⟨l, by rw [concatFields]⟩
  | cons g gs ih =>
    rw [map_cons, nodup_cons, mem_map] at hgs
    cases hseg : g.seg with
    | unnamed p =>
      rw [concatFields_unnamed hseg]
      refine ih h.renumber hgs.2 fun g' hg' x hx => ?_
      rw [Landing.field_renumber h, if_neg (by rw [hx]; exact Seg.noConfusion)]
      exact hok g' (.tail _ hg') x hx
    | named x =>
      obtain ⟨o, ho⟩ := hok g (.head _) x hseg
      rw [concatFields_named hseg, ho]
      refine ih (h.land o fun f hf => ⟨x, (combine_seg ho f hf).trans hseg⟩)
        hgs.2 fun g' hg' y hy => ?_
      have hfi : (l.land o).node.field g'.seg = l.node.field g'.seg := by
        rw [Landing.field_land h]
        cases o with
        | none => rfl
        | some f =>
          exact if_neg (by rw [combine_seg ho f rfl]; exact fun heq => hgs.1 ⟨g', hg', heq⟩)
      rw [hfi]
      exact hok g' (.tail _ hg') y hy

end Tree

end

end LiveHD.Upass
