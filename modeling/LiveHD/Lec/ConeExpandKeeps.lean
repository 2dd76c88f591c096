import LiveHD.Lec.ReadOverWrite
import LiveHD.Lib.Lists

/-!
# The expansion keeps the obligations

The terms that are being expanded are terms of the solver's table, each at most once, so that the
expansion ends on definitions with cycles.  A result that was kept while a symbol was being expanded
has the value of its term wherever the definitions hold: the symbol itself has it.  In what is
returned no read is left of a written array, but for the terms of cycles of definitions.
-/

namespace LiveHD.Lec

open List Terms Relation

/-! ## Definitions -/

/-- A meaning and an assignment in which the definitions hold. -/
def Terms.Models (T : Terms) (definitions : List (ℕ × ℕ)) (sem : Meaning) (ρ : ℕ → Value) : Prop :=
  T.Proper sem ρ ∧ ∀ d ∈ definitions, T.eval sem ρ d.1 = T.eval sem ρ d.2

/-- The definitions that are kept are definitions, of the sorts of their symbols. -/
lemma Defs.of_mem_foldl {T : Terms} {ds : List (ℕ × ℕ)} {d : Defs} {p : ℕ × ℕ}
    (hp : p ∈ (ds.foldl (fun d sv => Defs.add T d sv.1 sv.2) d).defs) :
    p ∈ d.defs ∨ p ∈ ds ∧ T.sort p.1 = T.sort p.2 := by
  induction ds generalizing d with
  | nil => exact .inl hp
  | cons sv ds ih =>
    rw [foldl_cons] at hp
    rcases ih hp with h | ⟨h, hso⟩
    · rw [Defs.add] at h
      split at h
      · exact .inl h
      next hs =>
        split at h
        · rcases mem_append.1 h with h | h
          · exact .inl h
          · obtain rfl := mem_singleton.1 h
            refine .inr ⟨.head _, ?_⟩
            by_contra hne
            exact hs (.inr (.inr hne))
        · split at h
          · exact .inl h
          · exact .inl h
    · exact .inr ⟨.tail _ h, hso⟩

lemma of_mem_collectDefs {T : Terms} {definitions : List (ℕ × ℕ)} {p : ℕ × ℕ}
    (hp : p ∈ collectDefs T definitions) :
    p ∈ definitions ∧ T.sort p.1 = T.sort p.2 := by
  rcases Defs.of_mem_foldl (mem_of_mem_filter hp) with h | h
  · cases h
  · exact h

variable {t : ℕ}

lemma mem_of_lookup {l : List (ℕ × ℕ)} {r : ℕ} (h : l.lookup t = some r) : (t, r) ∈ l := by
  obtain ⟨l₁, l₂, rfl, -⟩ := lookup_eq_some_iff.1 h
  exact mem_append_right _ (.head _)

/-! ## Expanded terms -/

section

variable {T U U' : Terms} {definitions : List (ℕ × ℕ)} {t u : ℕ}

/-- The expansion of a term asks for its definition, or for its children. -/
def Asks (T : Terms) (definitions : List (ℕ × ℕ)) (t u : ℕ) : Prop :=
  (collectDefs T definitions).lookup t = some u ∨
    (collectDefs T definitions).lookup t = none ∧ u ∈ T.kids t

/-- A term in a term that asks for itself, where the expansion stops. -/
def Boundary (T : Terms) (definitions : List (ℕ × ℕ)) (t : ℕ) : Prop :=
  t < T.length ∧ ∃ c, TransGen (Asks T definitions) c c ∧
    ReflTransGen (fun x y => y ∈ (T.term x).children) c t

/-- Above the boundary a term has no symbol with a definition, and no read of a written array. -/
inductive Expanded (T : Terms) (definitions : List (ℕ × ℕ)) (U : Terms) : ℕ → Prop where
  | boundary {t : ℕ} : t < U.length → Boundary T definitions t → Expanded T definitions U t
  | node {t : ℕ} : t < U.length →
    ((U.term t).kind = .constant → (collectDefs T definitions).lookup t = none) →
    ((U.term t).kind = .fn .select → (U.term (U.child t 0)).kind ≠ .fn .store) →
    (∀ c ∈ (U.term t).children, Expanded T definitions U c) → Expanded T definitions U t

namespace Expanded

lemma lt (h : Expanded T definitions U t) : t < U.length := by
  cases h with
  | boundary hlt => exact hlt
  | node hlt => exact hlt

lemma getD_lt {l : List ℕ} (h : ∀ c ∈ l, Expanded T definitions U c) (hlt : t < U.length) :
    l.getD 0 0 < U.length := by
  cases l with
  | nil => exact (Nat.zero_le t).trans_lt hlt
  | cons c l => exact (h c (.head _)).lt

lemma mono (h : Expanded T definitions U t) (hle : U <+: U') : Expanded T definitions U' t := by
  induction h with
  | boundary hlt hb => exact .boundary (hlt.trans_le hle.length_le) hb
  | @node t hlt hdef hread hch ih =>
    have hte := term_mono hle hlt
    refine .node (hlt.trans_le hle.length_le) (hte ▸ hdef) ?_ (hte ▸ ih)
    rw [child, hte, term_mono hle (getD_lt hch hlt)]
    exact hread

/-- The children of an expanded term. -/
lemma children (hT : T.Sound) (hle : T <+: U) (h : Expanded T definitions U t) :
    ∀ c ∈ (U.term t).children, Expanded T definitions U c := by
  cases h with
  | boundary hlt hb =>
    obtain ⟨ht, d, hcycle, hin⟩ := hb
    rw [term_mono hle ht]
    intro c hc
    have hk : (T.term t).kind ≠ .constArray := by
      intro hk
      rw [hT.leaf t fun hop => hop.ne_constArray hk] at hc
      cases hc
    have hct := (hT.ok.kids_older hk hc).trans ht
    exact .boundary (hct.trans_le hle.length_le) ⟨hct, d, hcycle, hin.tail hc⟩
  | node _ _ _ hch => exact hch

lemma mkTerm {x : Term} (hop : x.kind ≠ .constant)
    (hch : ∀ c ∈ x.children, Expanded T definitions U c)
    (hread : x.kind = .fn .select → x.children ≠ [] ∧
      (U.term (x.children.getD 0 0)).kind ≠ .fn .store) :
    U <+: (U.mkTerm x).1 ∧ Expanded T definitions (U.mkTerm x).1 (U.mkTerm x).2 := by
  obtain ⟨hle, hlt, hte⟩ := mkTerm_spec U x
  refine ⟨hle, .node hlt (fun hk => absurd (hte ▸ hk) hop) (fun hk => ?_) ?_⟩
  · obtain ⟨hne, hst⟩ := hread (hte ▸ hk)
    obtain ⟨c, l, hx⟩ := exists_cons_of_ne_nil hne
    rw [hx] at hst hch
    rw [child, hte, hx]
    rwa [term_mono hle (getD_lt hch (hch c (.head _)).lt)]
  · rw [hte]
    exact fun c hc => (hch c hc).mono hle

variable {address array : ℕ}

lemma mkSelect (ha : Expanded T definitions U array) (had : Expanded T definitions U address)
    (hst : (U.term array).kind ≠ .fn .store) :
    U <+: (mkSelect U array address).1 ∧ Expanded T definitions
    (LiveHD.Lec.mkSelect U array address).1 (LiveHD.Lec.mkSelect U array address).2 :=
  mkTerm Kind.noConfusion (by simp [ha, had]) fun _ => ⟨cons_ne_nil _ _, hst⟩

lemma mkEqual (ha : Expanded T definitions U t) (hb : Expanded T definitions U u) :
    U <+: (mkEqual U t u).1 ∧ Expanded T definitions (LiveHD.Lec.mkEqual U t u).1
    (LiveHD.Lec.mkEqual U t u).2 :=
  mkTerm Kind.noConfusion (by simp [ha, hb]) (by simp)

lemma mkIte {c : ℕ} (hc : Expanded T definitions U c) (ha : Expanded T definitions U t)
    (hb : Expanded T definitions U u) :
    U <+: (mkIte U c t u).1 ∧ Expanded T definitions (LiveHD.Lec.mkIte U c t u).1
    (LiveHD.Lec.mkIte U c t u).2 :=
  mkTerm Kind.noConfusion (by simp [hc, ha, hb]) (by simp)

/-- One write before a read. -/
lemma readStep {r : Terms × ℕ} {w : ℕ × ℕ} (hle : U <+: r.1) (hr : Expanded T definitions r.1 r.2)
    (had : Expanded T definitions U address)
    (hw : Expanded T definitions U w.1 ∧ Expanded T definitions U w.2) :
    U <+: (readStep address w r).1 ∧ Expanded T definitions (LiveHD.Lec.readStep address w r).1
    (LiveHD.Lec.readStep address w r).2 := by
  rw [LiveHD.Lec.readStep]
  split
  · exact ⟨hle, hw.2.mono hle⟩
  · split
    · exact ⟨hle, hr⟩
    · have hcond := mkEqual (had.mono hle) (hw.1.mono hle)
      have hite := mkIte hcond.2 (hw.2.mono (hle.trans hcond.1)) (hr.mono hcond.1)
      exact ⟨hle.trans (hcond.1.trans hite.1), hite.2⟩

section

variable (hT : T.Sound) (hle : T <+: U) (hU : U.Ok)
include hT hle hU

/-- The writes of an array, and the array below them. -/
lemma stores {i e a : ℕ} (h : Expanded T definitions U a) (hs : U.sort a = .array i e) :
    (∀ w ∈ (U.stores a).1, Expanded T definitions U w.1 ∧ Expanded T definitions U w.2) ∧
      Expanded T definitions U (U.stores a).2 ∧ (U.term (U.stores a).2).kind ≠ .fn .store := by
  induction a using Nat.strong_induction_on with
  | _ a ih =>
    rw [Terms.stores]
    split
    next hk =>
      obtain ⟨hch, hs0, -, -⟩ := hU.store_children hk hs
      have hex := h.children hT hle
      rw [hch] at hex
      have h0 : U.child a 0 < a := hU.kids_older (by rw [hk]; exact Kind.noConfusion)
        (by rw [hch]; exact .head _)
      rw [dif_pos h0]
      obtain ⟨hw, hbase⟩ := ih _ h0 (hex _ (.head _)) hs0
      exact ⟨forall_mem_cons.2 ⟨⟨hex _ (by simp), hex _ (by simp)⟩, hw⟩, hbase⟩
    next hk => exact ⟨by simp, h, hk⟩

/-- A term over expanded children, read off the writes if it is a read. -/
lemma readOverWrite (ht : t < U.length) (hop : (U.term t).kind ≠ .constant)
    (hch : ∀ c ∈ (U.term t).children, Expanded T definitions U c) :
    U <+: (readOverWrite U t).1 ∧ Expanded T definitions (LiveHD.Lec.readOverWrite U t).1
    (LiveHD.Lec.readOverWrite U t).2 := by
  rw [LiveHD.Lec.readOverWrite]
  split
  next hk =>
    obtain ⟨hkids, i, e, hs, -⟩ := hU.select_children hk
    rw [hkids] at hch
    obtain ⟨hw, hbase, hst⟩ := stores hT hle hU (hch _ (.head _)) hs
    dsimp only
    split
    next hnil =>
      refine ⟨prefix_refl _, .node ht (fun h => absurd h hop) (fun _ hst' => ?_) (hkids ▸ hch)⟩
      have h0 : U.child (U.child t 0) 0 < U.child t 0 :=
        hU.kids_older (by rw [hst']; exact Kind.noConfusion)
          (by rw [(hU.store_children hst' hs).1]; exact .head _)
      rw [Terms.stores, if_pos hst', dif_pos h0] at hnil
      cases hnil
    · generalize (U.stores (U.child t 0)).1 = ws at hw
      induction ws with
      | nil => exact mkSelect hbase (hch _ (by simp)) hst
      | cons w ws ih =>
        obtain ⟨hw, hws⟩ := forall_mem_cons.1 hw
        obtain ⟨hle', hr⟩ := ih hws
        exact readStep hle' hr (hch _ (by simp)) hw
  next hk => exact ⟨prefix_refl _, .node ht (fun h => absurd h hop) (fun h => absurd h hk) hch⟩

end

end Expanded

end

/-- A term that stands for a term of `T` wherever the definitions hold, and is expanded. -/
structure Stands (T : Terms) (definitions : List (ℕ × ℕ)) (U : Terms) (t r : ℕ) : Prop where
  means : T.Means (T.Models definitions) U t r
  expanded : Expanded T definitions U r

lemma Stands.grow {T U U' : Terms} {definitions : List (ℕ × ℕ)} {r : ℕ}
    (h : Stands T definitions U t r) (hgr : U.Grown U') :
    Stands T definitions U' t r := ⟨h.means.grow hgr, h.expanded.mono hgr.le⟩

namespace Expansion

section

variable {T : Terms} {definitions : List (ℕ × ℕ)}

/-- The invariant of the expansion of terms of `T`. -/
structure Inv (T : Terms) (definitions : List (ℕ × ℕ)) (s : Expansion) : Prop where
  grown : T.Grown s.terms
  memo : ∀ p ∈ s.memo, p.1 < T.length ∧ Stands T definitions s.terms p.1 p.2
  nodup : s.active.Nodup
  active : ∀ t ∈ s.active, t < T.length

/-- What an expansion leaves: the same terms are active, and the table has grown. -/
structure After (T : Terms) (definitions : List (ℕ × ℕ)) (s s' : Expansion) : Prop where
  inv : s'.Inv T definitions
  grown : s.terms.Grown s'.terms
  active : s'.active = s.active

variable {s : Expansion}

lemma After.refl (h : s.Inv T definitions) :
    After T definitions s s := ⟨h, .refl h.grown.sound, rfl⟩

lemma After.trans {s' s'' : Expansion} (h : After T definitions s s')
    (h' : After T definitions s' s'') : After T definitions s s'' :=
  ⟨h'.inv, h.grown.trans h'.grown, h'.active.trans h.active⟩

/-- The term over its expanded children. -/
lemma fits_of_means (hT : T.Sound) {children : List ℕ} (hne : T.kids t ≠ [])
    (hch : Forall₂ (T.Means (T.Models definitions) s.terms) (T.kids t) children) :
    T.kids t = (T.term t).children ∧ s.terms.Fits { T.term t with children := children } := by
  have hk : (T.term t).kind ≠ .constArray := by
    intro hk
    exact hne (by rw [kids, if_pos hk])
  have hks : T.kids t = (T.term t).children := by rw [Terms.kids, if_neg hk]
  have hop : (T.term t).IsOp := by
    by_contra hop
    exact hne (hks.trans (hT.leaf t hop))
  have hs : children.map s.terms.sort = (T.term t).children.map T.sort := by
    rw [hks] at hch
    exact (hch.map_eq_map fun _ _ _ hm => hm.sort.symm).symm
  refine ⟨hks, hop, ?_, hT.ok.sorts t, ?_⟩
  · intro c hc
    obtain ⟨c', -, hc'⟩ := hch.exists_of_mem_right hc
    exact hc'.lt
  · intro f hf
    have hwe := hT.ok.sorted t
    unfold Terms.WellSorted at hwe
    rw [show (T.term t).kind = .fn f from hf] at hwe
    rwa [hs]

/-- The term over the expanded children stands for the term. -/
lemma Inv.rebuild (h : s.Inv T definitions) (hT : T.Sound) (ht : t < T.length)
    {children : List ℕ} (hne : T.kids t ≠ [])
    (hst : Forall₂ (Stands T definitions s.terms) (T.kids t) children) :
    After T definitions s (s.rebuild t children).1 ∧
    Stands T definitions (s.rebuild t children).1.terms t (s.rebuild t children).2 := by
  have hch := hst.imp fun _ _ h => h.means
  have hte := term_mono h.grown.le ht
  obtain ⟨r, hr⟩ : ∃ r, r = if children = s.terms.kids t then (s.terms, t)
    else s.terms.mkTerm { s.terms.term t with children := children } := ⟨_, rfl⟩
  have hkids : T.kids t = (T.term t).children := (fits_of_means hT hne hch).1
  have hop : (T.term t).kind ≠ .constant := (fits_of_means hT hne hch).2.op.ne_constant
  have hex : ∀ c ∈ children, Expanded T definitions s.terms c := by
    intro c hc
    obtain ⟨_, _, hc'⟩ := hst.exists_of_mem_right hc
    exact hc'.expanded
  have hterm : (r.1.term r.2).kind ≠ .constant ∧
      ∀ c ∈ (r.1.term r.2).children, Expanded T definitions r.1 c := by
    rw [hr]
    split
    next heq =>
      rw [hte, ← hkids]
      rw [heq, kids, hte] at hex
      exact ⟨hop, hex⟩
    · obtain ⟨hle, -, hterm⟩ := mkTerm_spec s.terms { s.terms.term t with children := children }
      rw [hterm]
      exact ⟨hte ▸ hop, fun c hc => (hex c hc).mono hle⟩
  have hme : s.terms.Grown r.1 ∧ T.Means (T.Models definitions) r.1 t r.2 := by
    rw [hr]
    split
    · exact ⟨.refl h.grown.sound, h.grown.means ht _⟩
    · obtain ⟨hks, hfi⟩ := fits_of_means hT hne hch
      rw [hte]
      obtain ⟨hgr, hlt, hs, hev⟩ := hfi.gives h.grown.sound
      refine ⟨hgr, hlt, hs, fun sem ρ hP => (hev sem ρ).trans ?_⟩
      have ha : children.map (s.terms.eval sem ρ) = (T.term t).children.map (T.eval sem ρ) := by
        rw [hks] at hch
        exact (hch.map_eq_map fun _ _ _ hm => (hm.eval sem ρ hP).symm).symm
      have hop := hfi.op
      rw [hT.ok.eval_apply hop, ← ha]
      rfl
  obtain ⟨hgr, hrd⟩ := hme.1.sound.readOverWrite hme.2.lt
  have hall := hme.1.trans hgr
  rw [Expansion.rebuild, ← hr]
  have hexp := Expanded.readOverWrite hT (h.grown.trans hme.1).le hme.1.sound.ok
    hme.2.lt hterm.1 hterm.2
  refine ⟨⟨⟨h.grown.trans hall, ?_, h.nodup, h.active⟩, hall, rfl⟩,
    ⟨hrd.lt, hrd.sort.trans hme.2.sort, fun sem ρ hP => ?_⟩, hexp.2⟩
  · intro p hp
    exact ⟨(h.memo p hp).1, (h.memo p hp).2.grow hall⟩
  · exact (hrd.eval sem ρ ((h.grown.trans hme.1).proper hP.1)).trans (hme.2.eval sem ρ hP)

/-- The recursive calls that are made while the terms of `active` are expanded. -/
def Expands (T : Terms) (definitions : List (ℕ × ℕ)) (active : List ℕ)
    (expand : Expansion → ℕ → Option (Expansion × ℕ)) : Prop :=
  ∀ s t, s.Inv T definitions → s.active = active → t < T.length →
    (∀ a ∈ active, TransGen (Asks T definitions) a t) →
    ∃ r, expand s t = some r ∧ After T definitions s r.1 ∧ Stands T definitions r.1.terms t r.2

variable {active : List ℕ}

section

variable {expand : Expansion → ℕ → Option (Expansion × ℕ)} (h : Expands T definitions active expand)
include h

lemma Expands.each {ts : List ℕ} (hts : ∀ t ∈ ts, t < T.length ∧ ∀ a ∈ active,
    TransGen (Asks T definitions) a t) (hs : s.Inv T definitions) (hac : s.active = active) :
    ∃ r, each expand s ts = some r ∧ After T definitions s r.1 ∧
    Forall₂ (Stands T definitions r.1.terms) ts r.2 := by
  induction ts generalizing s with
  | nil => exact ⟨_, rfl, .refl hs, .nil⟩
  | cons t ts ih =>
    obtain ⟨ht, hts⟩ := forall_mem_cons.1 hts
    obtain ⟨r, hr, haf, hme⟩ := h s t hs hac ht.1 ht.2
    obtain ⟨rs, hrs, haf', hme'⟩ := ih hts haf.inv (haf.active.trans hac)
    refine ⟨(rs.1, r.2 :: rs.2), ?_, haf.trans haf', .cons (hme.grow haf'.grown) hme'⟩
    rw [Expansion.each, hr]
    change (Expansion.each expand r.1 ts).map _ = _
    rw [hrs]
    rfl

lemma Expands.body (hT : T.Sound)
    (hde : ∀ d ∈ definitions, d.2 < T.length) (ht : t < T.length) (hs : s.Inv T definitions)
    (hac : s.active = active)
    (hask : ∀ u, Asks T definitions t u → ∀ a ∈ active, TransGen (Asks T definitions) a u) :
    ∃ r, body expand (collectDefs T definitions) s t = some r ∧ After T definitions s r.1 ∧
    Stands T definitions r.1.terms t r.2 := by
  rw [Expansion.body]
  split
  next v hv =>
    obtain ⟨hmem, hso⟩ := of_mem_collectDefs (mem_of_lookup hv)
    obtain ⟨r, hr, haf, hme⟩ := h s v hs hac (hde _ hmem) (hask v (.inl hv))
    refine ⟨r, hr, haf, ⟨hme.means.lt, hme.means.sort.trans hso.symm, fun sem ρ hP => ?_⟩,
      hme.expanded⟩
    exact (hme.means.eval sem ρ hP).trans (hP.2 _ hmem).symm
  next hno =>
    have hks : s.terms.kids t = T.kids t := by
      rw [kids, kids, term_mono hs.grown.le ht]
    rw [hks]
    split
    next hnil =>
      have hte := term_mono hs.grown.le ht
      have hch : (T.term t).children = [] := by
        by_cases hk : (T.term t).kind = .constArray
        · exact hT.leaf t fun hop => hop.ne_constArray hk
        · rwa [kids, if_neg hk] at hnil
      refine ⟨_, rfl, .refl hs, hs.grown.means ht _,
        .node (ht.trans_le hs.grown.le.length_le) (fun _ => hno) ?_ ?_⟩
      · intro hk
        rw [hte] at hk
        rw [(hT.ok.select_children hk).1] at hch
        cases hch
      · rw [hte, hch]
        exact forall_mem_nil _
    next hne =>
      have hold : ∀ c ∈ T.kids t, c < T.length ∧
          ∀ a ∈ active, TransGen (Asks T definitions) a c := by
        intro c hc
        refine ⟨?_, hask c (.inr ⟨hno, hc⟩)⟩
        rw [Terms.kids] at hc
        split at hc
        · cases hc
        next hk => exact (hT.ok.kids_older hk hc).trans ht
      obtain ⟨r, hr, haf, hme⟩ := h.each hold hs hac
      obtain ⟨haf', hme'⟩ := haf.inv.rebuild hT ht hne hme
      rw [hr]
      exact ⟨_, rfl, haf.trans haf', hme'⟩

end

/-- A term that is left. -/
lemma Inv.leave {r : ℕ} (h : s.Inv T definitions) (hac : s.active = t :: active) (ht : t < T.length)
    (hr : Stands T definitions s.terms t r) :
    (s.leave t r).Inv T definitions ∧ (s.leave t r).active = active := by
  have her : (s.leave t r).active = active := by
    rw [Expansion.leave, hac]
    exact erase_cons_head ..
  refine ⟨⟨h.grown, ?_, ?_, ?_⟩, her⟩
  · intro p hp
    rcases mem_append.1 hp with hp | hp
    · exact h.memo p hp
    · obtain rfl := mem_singleton.1 hp
      exact ⟨ht, hr⟩
  · rw [her]
    have hnd := h.nodup
    rw [hac] at hnd
    exact (nodup_cons.1 hnd).2
  · rw [her]
    intro u hu
    exact h.active u (by rw [hac]; exact .tail _ hu)

/-- The expansion of a term ends, as deep as there are terms that are not being expanded. -/
lemma expands_expand (hT : T.Sound) (hde : ∀ d ∈ definitions, d.2 < T.length) (fuel : ℕ) :
    ∀ active : List ℕ, T.length < fuel + active.length →
    Expands T definitions active (expand (collectDefs T definitions) fuel) := by
  induction fuel with
  | zero =>
    intro active hfu s t hs hac ht _
    -- There are no more active terms than terms.
    have hle : s.active.length ≤ T.length := by
      have hsub : s.active ⊆ range T.length := fun u hu => mem_range.2 (hs.active u hu)
      have hca := (subperm_of_subset hs.nodup hsub).length_le
      rwa [length_range] at hca
    rw [hac] at hle
    omega
  | succ fuel ih =>
    intro active hfu s t hs hac ht hasked
    rw [expand]
    split
    next r hr => exact ⟨_, rfl, .refl hs, (hs.memo _ (mem_of_lookup hr)).2⟩
    · split
      next hin =>
        have hb : Boundary T definitions t := ⟨ht, t, hasked t (hac ▸ hin), .refl⟩
        exact ⟨_, rfl, .refl hs, hs.grown.means ht _,
          .boundary (ht.trans_le hs.grown.le.length_le) hb⟩
      next hnot =>
        have hen : ({ s with active := t :: s.active } : Expansion).Inv T definitions :=
          ⟨hs.grown, hs.memo, nodup_cons.2 ⟨hnot, hs.nodup⟩, forall_mem_cons.2 ⟨ht, hs.active⟩⟩
        have hexp := ih (t :: active) (by rw [length_cons]; omega)
        have hask : ∀ u, Asks T definitions t u →
            ∀ a ∈ t :: active, TransGen (Asks T definitions) a u :=
          fun u hu => forall_mem_cons.2 ⟨.single hu, fun a ha => (hasked a ha).tail hu⟩
        obtain ⟨r, hr, haf, hme⟩ := hexp.body hT hde ht hen (by rw [hac]) hask
        obtain ⟨hinv, hac'⟩ := haf.inv.leave haf.active ht hme
        rw [hr]
        exact ⟨_, rfl, ⟨hinv, haf.grown, hac'⟩, hme⟩

end

end Expansion

/-! ## The obligations -/

/-- `expand_cone_definitions` ends, also on definitions with cycles, and keeps the number and the
order of the obligations.  What is returned for an obligation has its value wherever the definitions
hold: that of a read is the value of the latest write at its address.  But for terms of cycles, it
has no symbol with a definition and no read of a written array. -/
theorem expandConeDefinitions_keeps {T : Terms} (hT : T.Sound)
    {definitions : List (ℕ × ℕ)} {obligations : List ℕ}
    (hdefs : ∀ d ∈ definitions, d.2 < T.length) (hobligations : ∀ t ∈ obligations, t < T.length)
    {fuel : ℕ} (hfuel : T.length < fuel) :
    (∃ T' results, expandConeDefinitions fuel T definitions obligations = some (T', results) ∧ T <+:
      T' ∧ T'.Sound ∧
        results.length = obligations.length ∧
        Forall₂ (fun t r => Expanded T definitions T' r ∧
          ∀ sem ρ, sem.Sorted → T.Respects ρ →
          (∀ d ∈ definitions, T.eval sem ρ d.1 = T.eval sem ρ d.2) →
            T'.eval sem ρ r = T.eval sem ρ t ∧ ((T.term t).kind = .fn .select → T'.eval sem ρ r =
              T.mostRecent sem ρ (T.stores (T.child t 0)).1
                (T.eval sem ρ (T.stores (T.child t 0)).2) (T.eval sem ρ (T.child t 1))))
          obligations results) ∧
      ∀ t < T.length, (T.term t).kind = .fn .select → ∀ sem ρ, sem.Sorted → T.Respects ρ →
        (readOverWrite T t).1.eval sem ρ (readOverWrite T t).2 =
          T.mostRecent sem ρ (T.stores (T.child t 0)).1 (T.eval sem ρ (T.stores (T.child t 0)).2)
          (T.eval sem ρ (T.child t 1)) := by
  constructor
  · have hinv : ({ terms := T } : Expansion).Inv T definitions :=
      ⟨.refl hT, forall_mem_nil _, nodup_nil, forall_mem_nil _⟩
    have hexpands := Expansion.expands_expand hT hdefs fuel [] hfuel
    obtain ⟨r, hr, hafter, hstands⟩ :=
      hexpands.each (fun t ht => ⟨hobligations t ht, forall_mem_nil _⟩) hinv rfl
    refine ⟨r.1.terms, r.2, ?_, hafter.inv.grown.le, hafter.inv.grown.sound,
      hstands.length_eq.symm, ?_⟩
    · rw [expandConeDefinitions, hr]
      rfl
    · refine hstands.imp fun t u hst => ⟨hst.expanded, fun sem ρ hsem hρ hd => ?_⟩
      have heval := hst.means.eval sem ρ ⟨⟨hsem, hρ⟩, hd⟩
      exact ⟨heval, fun hkind => heval.trans (hT.eval_select hkind ⟨hsem, hρ⟩)⟩
  · intro t ht hkind sem ρ hsem hρ
    rw [(hT.readOverWrite ht).2.eval sem ρ ⟨hsem, hρ⟩]
    exact hT.eval_select hkind ⟨hsem, hρ⟩

/-- Symbols `x` and `y`, and a memory that is written to at the constant `1`, at `x` and at the
constant `2`, and read at `1`. -/
def writtenTerms : Terms :=
  [{ kind := .constant, sort := .bv 2 }, { kind := .constant, sort := .bv 2 },
    { kind := .constBitvector, sort := .bv 2, hex := ['1'] },
    { kind := .constBitvector, sort := .bv 2, hex := ['2'] },
    { kind := .constant, sort := .array 2 2 },
    { kind := .fn .store, sort := .array 2 2, children := [4, 2, 0] },
    { kind := .fn .store, sort := .array 2 2, children := [5, 0, 1] },
    { kind := .fn .store, sort := .array 2 2, children := [6, 3, 0] },
      { kind := .fn .select, sort := .bv 2, children := [7, 2] }]

lemma writtenTerms_ok : writtenTerms.Ok := by
  have hw : WidthOk 2 := ⟨by decide, by decide⟩
  refine .of_lt fun t ht => ?_
  match t, ht with
  | 0, _ => exact ⟨nofun, hw, trivial⟩
  | 1, _ => exact ⟨nofun, hw, trivial⟩
  | 2, _ => exact ⟨nofun, hw, 2, rfl, by decide⟩
  | 3, _ => exact ⟨nofun, hw, 2, rfl, by decide⟩
  | 4, _ => exact ⟨nofun, ⟨hw, hw⟩, trivial⟩
  | 5, _ => exact ⟨by decide, ⟨hw, hw⟩, 2, 2, rfl, rfl⟩
  | 6, _ => exact ⟨by decide, ⟨hw, hw⟩, 2, 2, rfl, rfl⟩
  | 7, _ => exact ⟨by decide, ⟨hw, hw⟩, 2, 2, rfl, rfl⟩
  | 8, _ => exact ⟨by decide, hw, 2, 2, rfl, rfl⟩

lemma writtenTerms_sound : writtenTerms.Sound := by
  refine ⟨writtenTerms_ok, fun t hop => ?_, ?_⟩
  · by_cases ht : t < 9
    · match t, ht with
      | 0, _ | 1, _ | 2, _ | 3, _ | 4, _ => rfl
      | 5, _ | 6, _ | 7, _ | 8, _ => exact absurd trivial hop
    · rw [Terms.term_eq_default (not_lt.1 ht)]
  · have hv : ∀ a : ℕ, a < 9 → writtenTerms.isBitVectorValue a = true → a = 2 ∨ a = 3 := by decide
    intro a b ha hb hva hvb _ heq
    rcases hv a ha hva with rfl | rfl
    · rcases hv b hb hvb with rfl | rfl
      · rfl
      · exact absurd heq (by decide)
    · rcases hv b hb hvb with rfl | rfl
      · exact absurd heq (by decide)
      · rfl

/-- A read over constant and symbolic writes, under definitions of `x` and `y` by each other. -/
theorem expandConeDefinitions_keeps_written :
    ∃ T' results, expandConeDefinitions 10 writtenTerms [(0, 1), (1, 0)]
    [8, 8] = some (T', results) ∧
      writtenTerms <+: T' ∧ T'.Sound ∧ results.length = 2 ∧
      Forall₂ (fun t r => Expanded writtenTerms [(0, 1), (1, 0)] T' r ∧ ∀ sem ρ, sem.Sorted →
        writtenTerms.Respects ρ →
        (∀ d ∈ [(0, 1), (1, 0)], writtenTerms.eval sem ρ d.1 = writtenTerms.eval sem ρ d.2) →
          T'.eval sem ρ r = writtenTerms.eval sem ρ t ∧
          ((writtenTerms.term t).kind = .fn .select → T'.eval sem ρ r =
            writtenTerms.mostRecent sem ρ (writtenTerms.stores (writtenTerms.child t 0)).1
              (writtenTerms.eval sem ρ (writtenTerms.stores (writtenTerms.child t 0)).2)
              (writtenTerms.eval sem ρ (writtenTerms.child t 1)))) [8, 8] results :=
  (expandConeDefinitions_keeps writtenTerms_sound (by decide) (by decide) (by decide)).1

end LiveHD.Lec
