import LiveHD.Lec.TermTape
import LiveHD.Lec.FnSound

/-!
# The term simulator computes SMT-LIB values

A node of the tape is one of a few kinds, each with its operands; an evaluation leaves every
node with what its operation gives from the nodes below; by induction along the tape these
are the values of the terms.
-/

namespace LiveHD.Lec

open Words Function List BitVec Bool Sim Terms

variable {T : Terms} {s : Sim} {id : ℕ} {assertions roots : List ℕ}

/-! ## Kinds of nodes -/

/-- A node with its operands and their sorts. -/
inductive NodeView (T : Terms) (s : Sim) (id : ℕ) : Prop
  | leaf (hop : (s.node id).op = .leaf) (hkind : (T.term (s.origOf id)).kind = .constant)
  | defined (k : ℕ) (hop : (s.node id).op = .alias)
      (hkind : (T.term (s.origOf id)).kind = .constant) (hkids : (s.node id).kids = [k])
      (hk : k < id) (hdef : s.defs (s.origOf id) = some (s.origOf k))
        (hsort : T.sort (s.origOf k) = T.sort (s.origOf id))
  | const (hop : (s.node id).op = .const) (hkind : (T.term (s.origOf id)).kind = .constBoolean ∨
    (T.term (s.origOf id)).kind = .constBitvector)
  | constArray (k i e : ℕ) (hop : (s.node id).op = .constArray)
      (hkind : (T.term (s.origOf id)).kind = .constArray)
      (hkids : (s.node id).kids = [k]) (hk : k < id)
        (horig : s.origOf k = (T.term (s.origOf id)).base)
      (hsort : T.sort (s.origOf id) = .array i e) (helem : T.sort (s.origOf k) = .bv e)
  | iteArray (c x y i e : ℕ) (hop : (s.node id).op = .fn .ite)
      (hkind : (T.term (s.origOf id)).kind = .fn .ite)
      (hkids : (s.node id).kids = [c, x, y]) (hlt : c < id ∧ x < id ∧ y < id)
      (horig : (T.term (s.origOf id)).children = [s.origOf c, s.origOf x, s.origOf y])
        (hsort : T.sort (s.origOf id) = .array i e)
      (hsorts : T.sort (s.origOf c) = .bool ∧ T.sort (s.origOf x) = .array i e ∧
        T.sort (s.origOf y) = .array i e)
  | select (a x i e : ℕ) (hop : (s.node id).op = .fn .select)
      (hkind : (T.term (s.origOf id)).kind = .fn .select)
      (hkids : (s.node id).kids = [a, x]) (hlt : a < id ∧ x < id)
        (horig : (T.term (s.origOf id)).children = [s.origOf a, s.origOf x])
      (hsort : T.sort (s.origOf id) = .bv e)
        (hsorts : T.sort (s.origOf a) = .array i e ∧ T.sort (s.origOf x) = .bv i)
  | store (a x y i e : ℕ) (hop : (s.node id).op = .fn .store)
      (hkind : (T.term (s.origOf id)).kind = .fn .store)
      (hkids : (s.node id).kids = [a, x, y]) (hlt : a < id ∧ x < id ∧ y < id)
      (horig : (T.term (s.origOf id)).children = [s.origOf a, s.origOf x, s.origOf y])
        (hsort : T.sort (s.origOf id) = .array i e)
      (hsorts : T.sort (s.origOf a) = .array i e ∧ T.sort (s.origOf x) = .bv i ∧
        T.sort (s.origOf y) = .bv e)
  | fn (f : Fn) (hop : (s.node id).op = .fn f) (hkind : (T.term (s.origOf id)).kind = .fn f)
      (hflat : (s.node id).sort ≠ .array)
      (hkids : Forall₂ (fun k o => k < id ∧ s.origOf k = o) (s.node id).kids
        (T.term (s.origOf id)).children)
      (hsorts : ∀ k ∈ (s.node id).kids, (s.node k).sort ≠ .array) (hmem : f ≠ .select ∧ f ≠ .store)

lemma SortFor.array_iff {n : Node} {σ : Srt} (h : SortFor n σ) : n.sort = .array ↔
    ∃ i e, σ = .array i e := by
  cases σ with
  | bool => exact iff_of_false (fun heq => nomatch h.1.symm.trans heq) (by rintro ⟨_, _, ⟨⟩⟩)
  | bv w => exact iff_of_false (fun heq => nomatch h.1.symm.trans heq) (by rintro ⟨_, _, ⟨⟩⟩)
  | array i e => exact iff_of_true h.1 ⟨i, e, rfl⟩
  | other => cases h

variable {α β : Type*} {R : α → β → Prop} {l : List α}

lemma forall₂_one {b : β} (h : Forall₂ R l [b]) : ∃ a, l = [a] ∧ R a b := by
  obtain ⟨a, l, hab, hl, rfl⟩ := forall₂_cons_right_iff.1 h
  obtain rfl := forall₂_nil_right_iff.1 hl
  exact ⟨a, rfl, hab⟩

lemma forall₂_two {b c : β} (h : Forall₂ R l [b, c]) : ∃ a a', l = [a, a'] ∧ R a b ∧ R a' c := by
  obtain ⟨a, l, hab, hl, rfl⟩ := forall₂_cons_right_iff.1 h
  obtain ⟨a', rfl, hac⟩ := forall₂_one hl
  exact ⟨a, a', rfl, hab, hac⟩

lemma forall₂_three {b c d : β} (h : Forall₂ R l [b, c, d]) :
    ∃ a a' a'', l = [a, a', a''] ∧ R a b ∧ R a' c ∧ R a'' d := by
  obtain ⟨a, l, hab, hl, rfl⟩ := forall₂_cons_right_iff.1 h
  obtain ⟨a', a'', rfl, hac, had⟩ := forall₂_two hl
  exact ⟨a, a', a'', rfl, hab, hac, had⟩

/-- Symbols are defined, by terms of their sorts. -/
lemma splitAssertions_defs (hT : T.Ok) (as : List ℕ) (defs : ℕ → Option ℕ) (cs : List ℕ)
    (hde : ∀ x t, defs x = some t → (T.term x).kind = .constant ∧ T.sort t = T.sort x) (x t : ℕ)
    (h : (splitAssertions T as (defs, cs)).1 x = some t) :
    (T.term x).kind = .constant ∧ T.sort t = T.sort x := by
  induction as generalizing defs cs with
  | nil => exact hde x t h
  | cons a as ih =>
    rw [splitAssertions] at h
    split at h
    next x' t' hdef =>
      split at h
      · refine ih _ _ (fun y u hy => ?_) h
        rcases eq_or_ne y x' with rfl | hne
        · rw [update_self] at hy
          cases hy
          rw [definition] at hdef
          split at hdef
          next x t hkind hch =>
            split at hdef
            next hsy =>
              cases (Option.some.inj hdef)
              have hsrt := hT.sorted a
              rw [Terms.WellSorted, hkind, hch] at hsrt
              obtain ⟨-, -, σ, hσ⟩ := hsrt
              rw [map_cons, map_cons, map_nil, forall_mem_cons, forall_mem_singleton] at hσ
              exact ⟨hsy, hσ.2.trans hσ.1.symm⟩
            · cases hdef
          · cases hdef
        · rw [update_of_ne hne] at hy
          exact hde y u hy
      · exact ih _ _ hde h
    · exact ih _ _ hde h

/-- An accepted tape, with definitions of the sorts of their symbols. -/
structure Accepted (T : Terms) (s : Sim) : Prop where
  tape : Tape T s
  defs : ∀ x t, s.defs x = some t → (T.term x).kind = .constant ∧ T.sort t = T.sort x

lemma Ready.accepted (hT : T.Ok) (hr : Ready T assertions roots s) : Accepted T s := by
  refine ⟨hr.tape, fun x t hdef => ?_⟩
  rw [hr.defs] at hdef
  exact splitAssertions_defs hT _ _ _ (by intro _ _ h; cases h) _ _ hdef

variable {f : Fn}

/-- The operands of a bit-vector operator are no arrays. -/
lemma flat_of_accepts {sorts : List NodeSort} (h : f.accepts sorts = true)
    (hf : f ≠ .ite ∧ f ≠ .select ∧ f ≠ .store) :
    ∀ σ ∈ sorts, σ ≠ .array := by
  have hall : ∀ τ : NodeSort, τ ≠ .array → sorts.all (· = τ) = true → ∀ σ ∈ sorts, σ ≠ .array := by
    intro τ hτ hall σ hσ
    rwa [of_decide_eq_true (all_eq_true.1 hall σ hσ)]
  cases f
  case ite => exact absurd rfl hf.1
  case select => exact absurd rfl hf.2.1
  case store => exact absurd rfl hf.2.2
  all_goals
    unfold Fn.accepts at h
    rw [and_eq_true, and_eq_true] at h
  case not | implies => exact hall .bool nofun (and_eq_true_iff.1 h.1.1).2
  case and | or | xor => exact hall .bool nofun h.1.1
  case eq | distinct =>
    rcases or_eq_true_iff.1 (and_eq_true_iff.1 h.1.1).2 with h | h
    · exact hall .bool nofun h
    · exact hall .bv nofun h
  all_goals exact hall .bv nofun h.2

/-- What a node of an accepted tape is. -/
lemma nodeView (hT : T.Ok) (hr : Accepted T s) (hid : id < s.nodes.length) : NodeView T s id := by
  have h := hr.tape.made id hid
  have hop := h.op
  have hkids := h.kids
  have hsrt := hT.sorted (s.origOf id)
  have hso : ∀ k ∈ (s.node id).kids, SortFor (s.node k) (T.sort (s.origOf k)) := by
    intro k hk
    obtain ⟨o, -, hko⟩ := h.kids.exists_of_mem_left hk
    exact (hr.tape.made k (hko.1.trans hid)).sort
  rw [OpFor] at hop
  rw [operands] at hkids
  rw [Terms.WellSorted] at hsrt
  cases hkind : (T.term (s.origOf id)).kind with
  | constant =>
    rw [hkind] at hop hkids
    cases hdef : s.defs (s.origOf id) with
    | none =>
      rw [hdef] at hkids
      rw [forall₂_nil_right_iff.1 hkids] at hop
      exact .leaf hop hkind
    | some d =>
      rw [hdef] at hkids
      obtain ⟨k, hk, hlt, rfl⟩ := forall₂_one hkids
      rw [hk] at hop
      exact .defined k hop hkind hk hlt hdef (hr.defs _ _ hdef).2
  | constBoolean =>
    rw [hkind] at hop
    exact .const hop (.inl hkind)
  | constBitvector =>
    rw [hkind] at hop
    exact .const hop (.inr hkind)
  | constArray =>
    rw [hkind] at hop hkids hsrt
    obtain ⟨k, hk, hlt, hor⟩ := forall₂_one hkids
    obtain ⟨i, e, hs, hel⟩ := hsrt
    exact .constArray k i e hop hkind hk hlt hor hs (hor ▸ hel)
  | other c =>
    rw [hkind] at hop
    cases hop
  | fn f =>
    rw [hkind] at hop hkids hsrt
    have hflat : f ≠ .ite ∧ f ≠ .select ∧ f ≠ .store → NodeView T s id := by
      intro hf
      have hflat := flat_of_accepts (h.accepts f hop.1) hf
      refine .fn f hop.1 hkind ?_ hkids (fun k hk => hflat _ (mem_map_of_mem hk)) hf.2
      rw [ne_eq, h.sort.array_iff]
      rintro ⟨i, e, hs⟩
      rw [hs] at hsrt
      cases f <;> first
        | exact hf.1 rfl
        | exact hf.2.2 rfl
        | (simp only [Fn.Typed] at hsrt; simp at hsrt)
    cases f
    case ite =>
      obtain ⟨tc, l, hch, hc, ht⟩ := map_eq_cons_iff.1
        (show (T.term (s.origOf id)).children.map T.sort = [.bool, _, _] from hsrt)
      obtain ⟨tx, l, rfl, hx, ht⟩ := map_eq_cons_iff.1 ht
      obtain ⟨ty, rfl, hy⟩ := map_eq_singleton_iff.1 ht
      have hks' := hkids
      rw [hch] at hks'
      obtain ⟨c, x, y, hk, ⟨hcid, rfl⟩, ⟨hxid, rfl⟩, ⟨hyid, rfl⟩⟩ := forall₂_three hks'
      by_cases har : (s.node id).sort = .array
      · obtain ⟨i, e, hs⟩ := h.sort.array_iff.1 har
        exact .iteArray c x y i e hop.1 hkind hk ⟨hcid, hxid, hyid⟩ hch hs ⟨hc,
          hx.trans hs, hy.trans hs⟩
      · refine .fn .ite hop.1 hkind har hkids ?_ ⟨(by simp), (by simp)⟩
        have hse := mt h.sort.array_iff.2 har
        rw [hk] at hso ⊢
        rw [forall_mem_cons, forall_mem_cons, forall_mem_singleton] at hso ⊢
        rw [ne_eq, ne_eq, ne_eq, hso.1.array_iff, hso.2.1.array_iff, hso.2.2.array_iff, hc, hx, hy]
        exact ⟨by rintro ⟨_, _, ⟨⟩⟩, hse, hse⟩
    case select =>
      obtain ⟨i, e, harg, hs⟩ := hsrt
      obtain ⟨ta, l, hch, ha, ht⟩ := map_eq_cons_iff.1 harg
      obtain ⟨tx, rfl, hx⟩ := map_eq_singleton_iff.1 ht
      rw [hch] at hkids
      obtain ⟨a, x, hk, ⟨haid, rfl⟩, ⟨hxid, rfl⟩⟩ := forall₂_two hkids
      exact .select a x i e hop.1 hkind hk ⟨haid, hxid⟩ hch hs ⟨ha, hx⟩
    case store =>
      obtain ⟨i, e, harg, hs⟩ := hsrt
      obtain ⟨ta, l, hch, ha, ht⟩ := map_eq_cons_iff.1 harg
      obtain ⟨tx, l, rfl, hx, ht⟩ := map_eq_cons_iff.1 ht
      obtain ⟨ty, rfl, hy⟩ := map_eq_singleton_iff.1 ht
      rw [hch] at hkids
      obtain ⟨a, x, y, hk, ⟨haid, rfl⟩, ⟨hxid, rfl⟩, ⟨hyid, rfl⟩⟩ := forall₂_three hkids
      exact .store a x y i e hop.1 hkind hk ⟨haid, hxid, hyid⟩ hch hs ⟨ha, hx, hy⟩
    all_goals exact hflat ⟨(by simp), (by simp), (by simp)⟩

/-! ## An evaluation -/

/-- The nodes whose words an array value reads are below. -/
def Arr.Below (k : ℕ) : Arr → Prop
  | .free _ => True
  | .const v => v < k
  | .store parent i v => parent.Below k ∧ i < k ∧ v < k

variable {k : ℕ}

lemma Arr.Below.mono {l : ℕ} (hkl : k ≤ l) {a : Arr} (h : a.Below k) : a.Below l := by
  induction a with
  | free _ => trivial
  | const v => exact lt_of_lt_of_le h hkl
  | store parent i v ih => exact ⟨ih h.1, h.2.1.trans_le hkl, h.2.2.trans_le hkl⟩

/-- Two states of one tape. -/
structure SameTape (s s' : Sim) : Prop where
  nodes : s'.nodes = s.nodes
  orig : s'.orig = s.orig
  leaves : s'.leaves = s.leaves
  nodeOf : s'.nodeOf = s.nodeOf
  defs : s'.defs = s.defs
  roots : s'.roots = s.roots
  constraints : s'.constraints = s.constraints

namespace SameTape

variable {s' s'' : Sim}

lemma refl (s : Sim) : SameTape s s := ⟨rfl, rfl, rfl, rfl, rfl, rfl, rfl⟩

section

variable (h : SameTape s s')
include h

lemma trans (h' : SameTape s' s'') : SameTape s s'' :=
  ⟨h'.nodes.trans h.nodes, h'.orig.trans h.orig, h'.leaves.trans h.leaves, h'.nodeOf.trans h.nodeOf,
    h'.defs.trans h.defs, h'.roots.trans h.roots,
    h'.constraints.trans h.constraints⟩

lemma node (id : ℕ) : s'.node id = s.node id := by rw [Sim.node, h.nodes, Sim.node]

lemma origOf (id : ℕ) : s'.origOf id = s.origOf id := by rw [Sim.origOf, h.orig, Sim.origOf]

lemma leafOf (l : ℕ) : s'.leafOf l = s.leafOf l := by rw [Sim.leafOf, h.leaves, Sim.leafOf]

lemma tape (hs : Tape T s) : Tape T s' := by
  constructor
  · rw [h.orig, h.nodes, hs.origLength]
  · rw [h.nodeOf, h.nodes]
    simp only [h.origOf]
    exact hs.marked
  · rw [h.nodes]
    intro id hid
    have hm := hs.made id hid
    constructor
    · rw [h.nodeOf, h.origOf]
      exact hm.mark
    · rw [h.node, h.origOf]
      exact hm.sort
    · rw [h.node, h.origOf]
      exact hm.op
    · rw [h.node]
      exact hm.nw
    · simp only [h.node, h.origOf, h.defs]
      exact hm.kids
    · simp only [h.node]
      exact hm.accepts
    · simp only [h.node, h.origOf, h.leafOf, h.leaves]
      exact hm.leaf
  · simp only [h.leaves, h.leafOf, h.node, h.nodes]
    exact hs.leaves

end

end SameTape

/-- Two states that agree on the nodes below one. -/
structure Agree (k : ℕ) (s s' : Sim) : Prop extends SameTape s s' where
  seeds : s'.seeds = s.seeds
  wordsOf : ∀ id < k, s'.wordsOf id = s.wordsOf id
  ref : ∀ id < k, s'.ref id = s.ref id

lemma Agree.mono {l : ℕ} {s' : Sim} (h : Agree l s s') (hkl : k ≤ l) : Agree k s s' :=
  ⟨h.toSameTape, h.seeds, fun id hid => h.wordsOf id (hid.trans_le hkl),
    fun id hid => h.ref id (hid.trans_le hkl)⟩

lemma Agree.select {s' : Sim} (h : Agree k s s') (w : ℕ) (idx : List Word)
    {a : Arr} (ha : a.Below k) :
    s'.select w idx a = s.select w idx a := by
  induction a with
  | free l => rw [Sim.select, Sim.select, Sim.seed, Sim.seed, h.seeds]
  | const v => rw [Sim.select, Sim.select, h.wordsOf v ha]
  | store parent i v ih =>
    rw [Sim.select, Sim.select, h.wordsOf i ha.2.1, h.wordsOf v ha.2.2, ih ha.1]

lemma Agree.kid {s' : Sim} (h : Agree k s s') {id : ℕ} (hid : id < k) : s'.kid id = s.kid id := by
  rw [Sim.kid, Sim.kid, h.node, h.wordsOf id hid]

variable {x y a : ℕ}

section Result

variable (own : List Word) (slot : Arr)

lemma result_leaf (hop : (s.node id).op = .leaf) : s.result own slot id =
    if (s.node id).sort = .array then (own, .free (s.node id).leaf)
    else (clearTop own (s.node id).width, slot) := by
  rw [Sim.result, hop]

lemma result_const (hop : (s.node id).op = .const) : s.result own slot id = (own, slot) := by
  rw [Sim.result, hop]

lemma result_alias (hop : (s.node id).op = .alias)
    (hkids : (s.node id).kids = [k]) : s.result own slot id =
    if (s.node id).sort = .array then (own, s.ref k) else (s.wordsOf k, slot) := by
  rw [Sim.result, hop, hkids]
  rfl

lemma result_constArray (hop : (s.node id).op = .constArray) (hkids : (s.node id).kids = [k]) :
    s.result own slot id = (own, .const k) := by
  rw [Sim.result, hop, hkids]
  rfl

lemma result_iteArray {c : ℕ} (hop : (s.node id).op = .fn .ite)
    (hkids : (s.node id).kids = [c, x, y]) (har : (s.node id).sort = .array) :
    s.result own slot id = (own, if (s.kid c).truth then s.ref x else s.ref y) := by
  rw [Sim.result, hop, hkids]
  dsimp only
  rw [if_pos har]
  change (own, s.ref ([c, x, y].getD (if (s.kid c).truth then 1 else 2) 0)) = _
  cases (s.kid c).truth <;> rfl

lemma result_select (hop : (s.node id).op = .fn .select) (hkids : (s.node id).kids = [a, x]) :
    s.result own slot id = ((s.select (s.node id).width (s.wordsOf x) (s.ref a)).1, slot) := by
  rw [Sim.result, hop, hkids]
  rfl

lemma result_store (hop : (s.node id).op = .fn .store) (hkids : (s.node id).kids = [a, x, y]) :
    s.result own slot id = (own, .store (s.ref a) x y) := by
  rw [Sim.result, hop, hkids]
  rfl

lemma result_fn (hop : (s.node id).op = .fn f) (hflat : (s.node id).sort ≠ .array)
    (hmem : f ≠ .select ∧ f ≠ .store) :
    s.result own slot id = (evalFn (s.node id).width (s.node id).p0 (s.node id).p1
      ((s.node id).kids.map s.kid) f, slot) := by
  rw [Sim.result, hop]
  cases f
  case select => exact absurd rfl hmem.1
  case store => exact absurd rfl hmem.2
  case ite => exact if_neg hflat
  all_goals rfl

end Result

/-- Array values refer to nodes below their own. -/
def Ordered (k : ℕ) (s : Sim) : Prop := ∀ id < k, (s.node id).sort = .array → (s.ref id).Below id

variable {e i : ℕ}

lemma sort_kid (hr : Accepted T s) (hid : id < s.nodes.length) (hk : k < id)
    (hs : T.sort (s.origOf k) = .array i e) : (s.node k).sort = .array :=
  (hr.tape.made k (hk.trans hid)).sort.array_iff.2 ⟨i, e, hs⟩

section Step

variable (hT : T.Ok) (hr : Accepted T s) (hid : id < s.nodes.length)
include hT hr hid

/-- What a node gets depends on the nodes below it only. -/
lemma Agree.result {s' : Sim} (h : Agree id s s') (hord : Ordered id s)
    (own : List Word) (slot : Arr) :
    s'.result own slot id = s.result own slot id := by
  have hn := h.node id
  cases nodeView hT hr hid with
  | leaf hop hkind => rw [result_leaf own slot hop, result_leaf own slot (hn ▸ hop), hn]
  | const hop hkind => rw [result_const own slot hop, result_const own slot (hn ▸ hop)]
  | defined k hop hkind hkids hk hdef hs =>
    rw [result_alias own slot hop hkids, result_alias own slot (hn ▸ hop) (hn ▸ hkids), hn,
      h.wordsOf k hk, h.ref k hk]
  | constArray k i e hop hkind hkids hk hor hs hel =>
    rw [result_constArray own slot hop hkids, result_constArray own slot (hn ▸ hop) (hn ▸ hkids)]
  | iteArray c x y i e hop hkind hkids hlt hor hs hsorts =>
    have har := (hr.tape.made id hid).sort.array_iff.2 ⟨i, e, hs⟩
    rw [result_iteArray own slot hop hkids har,
      result_iteArray own slot (hn ▸ hop) (hn ▸ hkids) (hn ▸ har), h.kid hlt.1,
      h.ref x hlt.2.1, h.ref y hlt.2.2]
  | select a x i e hop hkind hkids hlt hor hs hsorts =>
    have hb := (hord a hlt.1 (sort_kid hr hid hlt.1 hsorts.1)).mono hlt.1.le
    rw [result_select own slot hop hkids, result_select own slot (hn ▸ hop) (hn ▸ hkids), hn,
      h.wordsOf x hlt.2, h.ref a hlt.1,
      h.select _ _ hb]
  | store a x y i e hop hkind hkids hlt hor hs hsorts =>
    rw [result_store own slot hop hkids,
      result_store own slot (hn ▸ hop) (hn ▸ hkids), h.ref a hlt.1]
  | fn f hop hkind hflat hkids hsorts hmem =>
    have hmap : (s.node id).kids.map s'.kid = (s.node id).kids.map s.kid :=
        map_congr_left fun k hk => by
      obtain ⟨o, -, hko⟩ := hkids.exists_of_mem_left hk
      exact h.kid hko.1
    rw [result_fn own slot hop hflat hmem,
      result_fn own slot (hn ▸ hop) (hn ▸ hflat) hmem, hn, hmap]

lemma Ordered.result (hord : Ordered id s) (own : List Word) (slot : Arr)
    (har : (s.node id).sort = .array) :
    (s.result own slot id).2.Below id := by
  have hb : ∀ {k i e : ℕ}, k < id → T.sort (s.origOf k) = .array i e →
      (s.ref k).Below id := fun hk hs =>
    (hord _ hk (sort_kid hr hid hk hs)).mono hk.le
  obtain ⟨i, e, harr⟩ := (hr.tape.made id hid).sort.array_iff.1 har
  cases nodeView hT hr hid with
  | leaf hop hkind =>
    rw [result_leaf own slot hop, if_pos har]
    trivial
  | const hop hkind =>
    -- a constant is no array
    have hsrt := hT.sorted (s.origOf id)
    rw [Terms.WellSorted, harr] at hsrt
    rcases hkind with hkind | hkind
    · rw [hkind] at hsrt
      cases hsrt
    · rw [hkind] at hsrt
      obtain ⟨w, hw, -⟩ := hsrt
      cases hw
  | defined k hop hkind hkids hk hdef hs =>
    rw [result_alias own slot hop hkids, if_pos har]
    exact hb hk (hs.trans harr)
  | constArray k i e hop hkind hkids hk hor hs hel =>
    rwa [result_constArray own slot hop hkids]
  | iteArray c x y i e hop hkind hkids hlt hor hs hsorts =>
    rw [result_iteArray own slot hop hkids har]
    split
    · exact hb hlt.2.1 hsorts.2.1
    · exact hb hlt.2.2 hsorts.2.2
  | select a x i' e' hop hkind hkids hlt hor hs hsorts =>
    rw [harr] at hs
    cases hs
  | store a x y i e hop hkind hkids hlt hor hs hsorts =>
    rw [result_store own slot hop hkids]
    exact ⟨hb hlt.1 hsorts.1, hlt.2.1, hlt.2.2⟩
  | fn f hop hkind hflat hkids hsorts hmem => exact absurd har hflat

end Step

lemma SameTape.accepted {s' : Sim} (h : SameTape s s') (hr : Accepted T s) : Accepted T s' :=
  ⟨h.tape hr.tape, by rw [h.defs]; exact hr.defs⟩

/-- The nodes below `n` were evaluated, from a state `s`. -/
structure Evaluated (s : Sim) (n : ℕ) (s' : Sim) : Prop where
  same : SameTape s s'
  seeds : s'.seeds = s.seeds
  wordsLength : s'.words.length = s.words.length
  refsLength : s'.refs.length = s.refs.length
  settled : ∀ id < n, s'.result (s.wordsOf id) (s.ref id) id = (s'.wordsOf id, s'.ref id)
  rest : ∀ id, n ≤ id → s'.wordsOf id = s.wordsOf id ∧ s'.ref id = s.ref id
  ordered : Ordered n s'

section

variable (hT : T.Ok) (hr : Accepted T s) (hwords : s.words.length = s.nodes.length)
  (hrefs : s.refs.length = s.nodes.length)
include hT hr hwords hrefs

lemma Evaluated.step {n : ℕ}
    {s' : Sim} (h : Evaluated s n s') (hn : n < s.nodes.length) (record : Bool) :
    Evaluated s (n + 1) (s'.evalNode record n) := by
  have hr' := h.same.accepted hr
  have hn' : n < s'.nodes.length := by rwa [h.same.nodes]
  have hse : (s'.evalNode record n).wordsOf n = (s'.result (s.wordsOf n) (s.ref n) n).1 ∧
      (s'.evalNode record n).ref n = (s'.result (s.wordsOf n) (s.ref n) n).2 := by
    obtain ⟨hw, href⟩ := h.rest n le_rfl
    rw [← hw, ← href]
    constructor
    · exact (congrFun (getD_set (by rw [h.wordsLength, hwords]; exact hn) _ []) n).trans
        (update_self ..)
    · exact (congrFun (getD_set (by rw [h.refsLength, hrefs]; exact hn) _ default) n).trans
        (update_self ..)
  have ho : ∀ id, id ≠ n → (s'.evalNode record n).wordsOf id = s'.wordsOf id ∧
      (s'.evalNode record n).ref id = s'.ref id := by
    intro id hne
    constructor
    · exact (congrFun (getD_set (by rw [h.wordsLength, hwords]; exact hn) _ []) id).trans
        (update_of_ne hne ..)
    · exact (congrFun (getD_set (by rw [h.refsLength, hrefs]; exact hn) _ default) id).trans
        (update_of_ne hne ..)
  have hsa : SameTape s' (s'.evalNode record n) := ⟨rfl, rfl, rfl, rfl, rfl, rfl, rfl⟩
  have hag : Agree n s' (s'.evalNode record n) :=
    ⟨hsa, rfl, fun id hid => (ho id hid.ne).1, fun id hid => (ho id hid.ne).2⟩
  have hre : ∀ id < n + 1, ∀ own slot, (s'.evalNode record n).result own slot id =
      s'.result own slot id := fun id hid own slot =>
    (hag.mono (Nat.le_of_lt_succ hid)).result hT hr' (by omega)
    (fun k hk => h.ordered k (by omega)) own slot
  constructor
  · exact h.same.trans hsa
  · exact h.seeds
  · exact (length_set ..).trans h.wordsLength
  · exact (length_set ..).trans h.refsLength
  · intro id hid
    rw [hre id hid]
    rcases Nat.lt_succ_iff_lt_or_eq.1 hid with hlt | rfl
    · rw [h.settled id hlt, (ho id hlt.ne).1, (ho id hlt.ne).2]
    · rw [hse.1, hse.2]
  · intro id hid
    have hne : id ≠ n := by omega
    rw [(ho id hne).1, (ho id hne).2]
    exact h.rest id (by omega)
  · intro id hid har
    rcases Nat.lt_succ_iff_lt_or_eq.1 hid with hlt | rfl
    · rw [(ho id hlt.ne).2]
      exact h.ordered id hlt har
    · rw [hse.2]
      exact h.ordered.result hT hr' hn' _ _ har

/-- An evaluation leaves every node with what its operation gives. -/
lemma evalNodes_evaluated (record : Bool) : Evaluated s s.nodes.length (s.evalNodes record) := by
  have hrun : ∀ n ≤ s.nodes.length, Evaluated s n
      ((range n).foldl (fun s id => s.evalNode record id) { s with reads := [] }) := by
    intro n
    induction n with
    | zero =>
      intro _
      exact ⟨⟨rfl, rfl, rfl, rfl, rfl, rfl, rfl⟩, rfl, rfl, rfl, nofun,
        fun _ _ => ⟨rfl, rfl⟩, nofun⟩
    | succ n ih =>
      intro hn
      rw [range_succ, List.foldl_append]
      exact (ih (by omega)).step hT hr hwords hrefs (by omega) record
  exact hrun _ le_rfl

end

/-! ## Values -/

/-- What a node holds after an evaluation: words, or an array that is read at any index. -/
def Shows (s : Sim) (id : ℕ) : Value → Prop
  | .array i e g => ∀ (x : BitVec i) (idx : List Word), Holds idx x →
    Holds (s.select e idx (s.ref id)).1 (g x)
  | v => (s.kid id).Rep v

/-- The value of a leaf. -/
def Sim.leafValue (s : Sim) (id : ℕ) : Srt → Value
  | .bool => .bool (bit (s.wordsOf id) 0)
  | .bv w => .bv w (BitVec.ofNat w (value (s.wordsOf id)))
  | .array i e => .array i e fun x =>
    BitVec.ofNat e (value (freeRead (s.seed (s.node id).leaf) e (wordsFor x)))
  | .other => default

/-- The value that is read back from a node. -/
def Sim.nodeValue (s : Sim) (id : ℕ) : Srt → Value
  | .bool => .bool (s.kid id).truth
  | .bv w => .bv w (BitVec.ofNat w (value (s.wordsOf id)))
  | .array i e => .array i e fun x => BitVec.ofNat e (value (s.select e (wordsFor x) (s.ref id)).1)
  | .other => default

variable {v : Value}

lemma Shows.eq_nodeValue (hok : v.sort.Ok) (h : Shows s id v) : v = s.nodeValue id v.sort := by
  cases v with
  | bool p =>
    have hkid := h
    change Value.bool p = .bool (s.kid id).truth
    rw [hkid, truth_flag]
  | bv w x => exact congrArg (Value.bv w) h.2.eq_ofNat.symm
  | array i e g =>
    refine congrArg (Value.array i e) (funext fun x => ?_)
    exact (h x _ (holds_wordsFor hok.1.1 x)).eq_ofNat.symm

lemma Shows.rep (h : Shows s id v) : (s.kid id).Rep v := by
  cases v with
  | array i e g => trivial
  | _ => exact h

lemma holds_freeRead (seed : Word) (he : 0 < e) (idx : List Word) :
    Holds (freeRead seed e idx) (BitVec.ofNat e (value (freeRead seed e idx))) := by
  have hlen : ((range (nwords e)).map fun i =>
      splitmix (idx.foldl (fun h x => splitmix (h ^^^ x)) (seed ^^^ 0x5851f42d4c957f2d) +
      BitVec.ofNat 64 i)).length = nwords e := by simp
  refine ⟨by rw [freeRead, length_clearTop, hlen], ?_⟩
  rw [toNat_ofNat, Nat.mod_eq_of_lt]
  rw [freeRead, value_clearTop he hlen]
  exact Nat.mod_lt _ (Nat.two_pow_pos e)

/-- The words of a leaf, once the bits above its width are cleared, hold its value. -/
lemma rep_leaf {own : List Word} {σ : Srt} (hok : σ.Ok) (hflat : ∀ i e, σ ≠ .array i e)
    (ho : σ ≠ .other) (hlen : own.length = nwords σ.width)
    (hwords : s.wordsOf id = own) : Kid.Rep ⟨σ.width, clearTop own σ.width⟩ (s.leafValue id σ) := by
  cases σ with
  | bool =>
    obtain ⟨x, rfl⟩ := length_eq_one_iff.1 hlen
    change Kid.mk 1 (clearTop [x] 1) = ⟨1, [flag (bit (s.wordsOf id) 0)]⟩
    rw [hwords, clearTop_one rfl]
    congr 2
    refine eq_of_getLsbD_eq fun i hi => ?_
    change (x &&& topMask 1).getLsbD i = (flag (x.getLsbD 0)).getLsbD i
    rw [getLsbD_and, getLsbD_topMask one_pos hi]
    rcases eq_zero_or_pos i with rfl | hpos
    · cases x.getLsbD 0 <;> rfl
    · rw [decide_eq_false (by rw [nwords_one]; omega), Bool.and_false]
      cases x.getLsbD 0
      · exact BitVec.getLsbD_zero.symm
      · exact (getLsbD_one.trans
          (by rw [decide_eq_true (by decide), decide_eq_false (by omega)]; rfl)).symm
  | bv w =>
    refine ⟨rfl, .clearTop hok.1 hlen ?_⟩
    rw [hwords]
    rfl
  | array i e => exact absurd rfl (hflat i e)
  | other => exact absurd rfl ho

/-- The words of a constant hold its value. -/
lemma rep_const {t : ℕ} (hT : T.Ok) {n : Node} (hop : n.op = .const) (hs : SortFor n (T.sort t))
    (hnw : n.sort ≠ .array → n.nw = nwords n.width)
    (hkind : (T.term t).kind = .constBoolean ∨ (T.term t).kind = .constBitvector)
    (ρ : ℕ → Value) :
    (T.denote ρ t).sort = T.sort t ∧ (∀ i e, T.sort t ≠ .array i e) ∧
    Kid.Rep ⟨n.width, Sim.initialWords T t n⟩ (T.denote ρ t) := by
  have hsrt := hT.sorted t
  have hok := hT.sorts t
  rw [Terms.WellSorted] at hsrt
  rcases hkind with hkind | hkind
  · rw [hkind] at hsrt
    rw [hsrt] at hs
    rw [denote, hkind, hsrt, initialWords, hs.1, hop, hs.2]
    exact ⟨rfl, (by simp), rfl⟩
  · rw [hkind] at hsrt
    obtain ⟨w, hw, hlt⟩ := hsrt
    rw [hw] at hs hok
    rw [denote, hkind, hw, initialWords, hs.1, hop]
    have hle := pow_le_words hok.1
    have hnw' : n.nw = nwords w := by rw [hnw (by rw [hs.1]; simp), hs.2]
    refine ⟨rfl, (by simp), hs.2, by rw [length_parseHex, hnw'], ?_⟩
    rw [value_parseHex _ _ (by rw [hnw']; exact hlt.trans_le hle),
      toNat_ofNat, Nat.mod_eq_of_lt hlt]

lemma Value.exists_array (h : v.sort = .array i e) : ∃ g, v = .array i e g := by
  cases v with
  | array i' e' g =>
    cases h
    exact ⟨g, rfl⟩
  | bool _ => cases h
  | bv _ _ => cases h

/-- A node that shows the value of its term. -/
def Shown (T : Terms) (s F : Sim) (ρ : ℕ → Value) (id : ℕ) : Prop :=
  (T.denote ρ (s.origOf id)).sort = T.sort (s.origOf id) ∧ Shows F id (T.denote ρ (s.origOf id))

section Cases

variable {F : Sim} {ρ : ℕ → Value} (hT : T.Ok) (hr : Accepted T s)
  (hF : Evaluated s s.nodes.length F) (hid : id < s.nodes.length)

include hr hF in
lemma kid_eq (hk : k < s.nodes.length) : F.kid k = ⟨(T.sort (s.origOf k)).width, F.wordsOf k⟩ := by
  rw [kid, hF.same.node, (hr.tape.made k hk).sort.width]

include hr hF hid

/-- A node whose operation sets its words. -/
lemma shows_of_words {d : List Word} {slot : Arr}
    (hres : F.result (s.wordsOf id) (s.ref id) id = (d, slot))
    (hflat : ∀ i e, v.sort ≠ .array i e)
    (hrep : Kid.Rep ⟨(T.sort (s.origOf id)).width, d⟩ v) : Shows F id v := by
  have hd : d = F.wordsOf id := congrArg Prod.fst (hres.symm.trans (hF.settled id hid))
  rw [hd, ← kid_eq hr hF hid] at hrep
  cases v with
  | array i e g => exact absurd rfl (hflat i e)
  | bool p => exact hrep
  | bv w x => exact hrep

omit hr in
/-- A node whose operation sets its array value. -/
lemma shows_of_ref {own : List Word} {a : Arr} {g : BitVec i → BitVec e}
    (hres : F.result (s.wordsOf id) (s.ref id) id = (own, a))
    (hrd : ∀ (x : BitVec i) (idx : List Word), Holds idx x → Holds (F.select e idx a).1 (g x)) :
    Shows F id (.array i e g) := by
  have ha : a = F.ref id := congrArg Prod.snd (hres.symm.trans (hF.settled id hid))
  intro x idx hidx
  rw [← ha]
  exact hrd x idx hidx

include hT

lemma shown_leaf (hw : Written T s) (hop : (s.node id).op = .leaf)
    (hkind : (T.term (s.origOf id)).kind = .constant)
    (hρ : ρ (s.origOf id) = s.leafValue id (T.sort (s.origOf id))) : Shown T s F ρ id := by
  have hma := hr.tape.made id hid
  have hok := hT.sorts (s.origOf id)
  have hn := hF.same.node id
  have hres := result_leaf (s.wordsOf id) (s.ref id) (s := F) (hn ▸ hop)
  have ho : T.sort (s.origOf id) ≠ .other := fun heq => by
    have hs := hma.sort
    rw [heq] at hs
    cases hs
  have hso : (s.leafValue id (T.sort (s.origOf id))).sort = T.sort (s.origOf id) := by
    cases hσ : T.sort (s.origOf id) with
    | other => exact absurd hσ ho
    | _ => rfl
  have hden : T.denote ρ (s.origOf id) = s.leafValue id (T.sort (s.origOf id)) := by
    rw [denote, hkind, hρ]
  rw [hn] at hres
  rw [Shown, hden]
  refine ⟨hso, ?_⟩
  by_cases harr : (s.node id).sort = .array
  · obtain ⟨i, e, hie⟩ := hma.sort.array_iff.1 harr
    rw [if_pos harr] at hres
    rw [hie] at hok ⊢
    refine shows_of_ref hF hid hres fun x idx hidx => ?_
    rw [Sim.select, Sim.seed, hF.seeds, hidx.unique (holds_wordsFor hok.1.1 x)]
    exact holds_freeRead _ hok.2.1 _
  · rw [if_neg harr] at hres
    have hflat : ∀ i e, T.sort (s.origOf id) ≠ .array i e := fun i e heq =>
      harr (hma.sort.array_iff.2 ⟨i, e, heq⟩)
    refine shows_of_words hr hF hid hres (by rw [hso]; exact hflat) ?_
    rw [hma.sort.width]
    refine rep_leaf hok hflat ho ?_ rfl
    rw [hw.leafWords id hid hop harr, hma.nw harr, hma.sort.width]

omit hT in
lemma shown_defined (hop : (s.node id).op = .alias)
    (hkind : (T.term (s.origOf id)).kind = .constant) (hkids : (s.node id).kids = [k])
    (hk : k < id) (hs : T.sort (s.origOf k) = T.sort (s.origOf id)) (ih : Shown T s F ρ k)
    (hρ : ρ (s.origOf id) = T.denote ρ (s.origOf k)) : Shown T s F ρ id := by
  have hma := hr.tape.made id hid
  have hn := hF.same.node id
  have hres := result_alias (s.wordsOf id) (s.ref id) (s := F) (hn ▸ hop) (hn ▸ hkids)
  have hden : T.denote ρ (s.origOf id) = T.denote ρ (s.origOf k) := by
    rw [← hρ, Terms.denote, hkind]
  obtain ⟨hks, hksh⟩ := ih
  rw [hn] at hres
  rw [hs] at hks
  rw [Shown, hden]
  refine ⟨hks, ?_⟩
  by_cases harr : (s.node id).sort = .array
  · obtain ⟨i, e, hie⟩ := hma.sort.array_iff.1 harr
    obtain ⟨g, hg⟩ := Value.exists_array (hks.trans hie)
    rw [if_pos harr] at hres
    rw [hg] at hksh ⊢
    exact shows_of_ref hF hid hres hksh
  · rw [if_neg harr] at hres
    have hflat : ∀ i e, T.sort (s.origOf id) ≠ .array i e := fun i e heq =>
      harr (hma.sort.array_iff.2 ⟨i, e, heq⟩)
    refine shows_of_words hr hF hid hres (by rw [hks]; exact hflat) ?_
    rw [← hs, ← kid_eq hr hF (hk.trans hid)]
    exact hksh.rep

lemma shown_const (hw : Written T s) (hop : (s.node id).op = .const)
    (hkind : (T.term (s.origOf id)).kind = .constBoolean ∨
      (T.term (s.origOf id)).kind = .constBitvector) : Shown T s F ρ id := by
  have hma := hr.tape.made id hid
  have hn := hF.same.node id
  have hres := result_const (s.wordsOf id) (s.ref id) (s := F) (hn ▸ hop)
  obtain ⟨hs, hflat, hrep⟩ := rep_const hT hop hma.sort hma.nw hkind ρ
  refine ⟨hs, shows_of_words hr hF hid hres (by rw [hs]; exact hflat) ?_⟩
  rwa [hw.consts id hid hop, ← hma.sort.width]

omit hr in
lemma shown_constArray (hop : (s.node id).op = .constArray)
    (hkind : (T.term (s.origOf id)).kind = .constArray)
    (hkids : (s.node id).kids = [k]) (hor : s.origOf k = (T.term (s.origOf id)).base)
    (hs : T.sort (s.origOf id) = .array i e)
    (hel : T.sort (s.origOf k) = .bv e) (ih : Shown T s F ρ k) : Shown T s F ρ id := by
  have hn := hF.same.node id
  have hres := result_constArray (s.wordsOf id) (s.ref id) (s := F) (hn ▸ hop) (hn ▸ hkids)
  obtain ⟨hkso, hks⟩ := ih
  rw [Shown, hT.denote_constArray ρ hkind hs, ← hor]
  refine ⟨hs.symm, shows_of_ref hF hid hres fun x idx _ => ?_⟩
  exact (hks.rep.isBv (hkso.trans hel)).holds

lemma shown_iteArray {c : ℕ} (hop : (s.node id).op = .fn .ite)
    (hkind : (T.term (s.origOf id)).kind = .fn .ite)
    (hkids : (s.node id).kids = [c, x, y])
    (hor : (T.term (s.origOf id)).children = [s.origOf c, s.origOf x, s.origOf y])
    (hs : T.sort (s.origOf id) = .array i e)
    (hsorts : T.sort (s.origOf c) = .bool ∧ T.sort (s.origOf x) = .array i e ∧
      T.sort (s.origOf y) = .array i e)
    (ihc : Shown T s F ρ c) (ihx : Shown T s F ρ x) (ihy : Shown T s F ρ y) : Shown T s F ρ id := by
  have hn := hF.same.node id
  have harr := (hr.tape.made id hid).sort.array_iff.2 ⟨i, e, hs⟩
  have hres := result_iteArray (s.wordsOf id) (s.ref id) (s := F) (hn ▸ hop)
    (hn ▸ hkids) (hn ▸ harr)
  rw [(ihc.2.rep.isBool (ihc.1.trans hsorts.1)).truth] at hres
  have hden : T.denote ρ (s.origOf id) =
      if (T.denote ρ (s.origOf c)).truth then T.denote ρ (s.origOf x)
      else T.denote ρ (s.origOf y) := by
    rw [hT.denote_fn ρ hkind, hor]
    rfl
  rw [Shown, hden, hs]
  by_cases hc : (T.denote ρ (s.origOf c)).truth = true
  · obtain ⟨g, hg⟩ := Value.exists_array (ihx.1.trans hsorts.2.1)
    have hsh := ihx.2
    rw [hg] at hsh
    rw [if_pos hc] at hres ⊢
    rw [hg]
    exact ⟨rfl, shows_of_ref hF hid hres hsh⟩
  · obtain ⟨g, hg⟩ := Value.exists_array (ihy.1.trans hsorts.2.2)
    have hsh := ihy.2
    rw [hg] at hsh
    rw [if_neg hc] at hres ⊢
    rw [hg]
    exact ⟨rfl, shows_of_ref hF hid hres hsh⟩

lemma shown_select (hop : (s.node id).op = .fn .select)
    (hkind : (T.term (s.origOf id)).kind = .fn .select)
    (hkids : (s.node id).kids = [a, x])
    (hor : (T.term (s.origOf id)).children = [s.origOf a, s.origOf x])
    (hs : T.sort (s.origOf id) = .bv e)
    (hsorts : T.sort (s.origOf a) = .array i e ∧ T.sort (s.origOf x) = .bv i)
    (iha : Shown T s F ρ a) (ihx : Shown T s F ρ x) : Shown T s F ρ id := by
  have hn := hF.same.node id
  have hwi : (s.node id).width = e := by rw [(hr.tape.made id hid).sort.width, hs]; rfl
  have hres := result_select (s.wordsOf id) (s.ref id) (s := F) (hn ▸ hop) (hn ▸ hkids)
  rw [hn, hwi] at hres
  obtain ⟨g, hg⟩ := Value.exists_array (iha.1.trans hsorts.1)
  have hsh := iha.2
  rw [hg] at hsh
  have hden : T.denote ρ (s.origOf id) = .bv e (g ((T.denote ρ (s.origOf x)).bits i)) := by
    rw [hT.denote_fn ρ hkind, hor]
    change (T.denote ρ (s.origOf a)).select (T.denote ρ (s.origOf x)) = _
    rw [hg]
    rfl
  rw [Shown, hden]
  refine ⟨hs.symm, shows_of_words hr hF hid hres nofun ?_⟩
  rw [hs]
  exact ⟨rfl, hsh _ _ (ihx.2.rep.isBv (ihx.1.trans hsorts.2)).holds⟩

omit hr in
lemma shown_store (hop : (s.node id).op = .fn .store)
    (hkind : (T.term (s.origOf id)).kind = .fn .store)
    (hkids : (s.node id).kids = [a, x, y])
    (hor : (T.term (s.origOf id)).children = [s.origOf a, s.origOf x, s.origOf y])
    (hs : T.sort (s.origOf id) = .array i e)
    (hsorts : T.sort (s.origOf a) = .array i e ∧ T.sort (s.origOf x) = .bv i ∧
      T.sort (s.origOf y) = .bv e)
    (iha : Shown T s F ρ a) (ihx : Shown T s F ρ x) (ihy : Shown T s F ρ y) : Shown T s F ρ id := by
  have hn := hF.same.node id
  have hres := result_store (s.wordsOf id) (s.ref id) (s := F) (hn ▸ hop) (hn ▸ hkids)
  obtain ⟨g, hg⟩ := Value.exists_array (iha.1.trans hsorts.1)
  have hsh := iha.2
  rw [hg] at hsh
  have hx := (ihx.2.rep.isBv (ihx.1.trans hsorts.2.1)).holds
  have hy := (ihy.2.rep.isBv (ihy.1.trans hsorts.2.2)).holds
  have hden : T.denote ρ (s.origOf id) =
      .array i e (update g ((T.denote ρ (s.origOf x)).bits i)
        ((T.denote ρ (s.origOf y)).bits e)) := by
    rw [hT.denote_fn ρ hkind, hor]
    change (T.denote ρ (s.origOf a)).store (T.denote ρ (s.origOf x)) (T.denote ρ (s.origOf y)) = _
    rw [hg]
    rfl
  rw [Shown, hden]
  refine ⟨hs.symm, shows_of_ref hF hid hres fun z idx hidx => ?_⟩
  rw [Sim.select]
  have heq : equal (F.wordsOf x) idx = ((T.denote ρ (s.origOf x)).bits i == z) := hx.equal hidx
  rw [heq]
  rcases eq_or_ne z ((T.denote ρ (s.origOf x)).bits i) with rfl | hne
  · rwa [beq_self_eq_true, update_self]
  · rw [beq_eq_false_iff_ne.2 hne.symm, update_of_ne hne]
    exact hsh z idx hidx

omit hF in
/-- The operands of an operator hold the values of its arguments. -/
lemma fn_operands (hkind : (T.term (s.origOf id)).kind = .fn f)
    (hkids : Forall₂ (fun k o => k < id ∧ s.origOf k = o) (s.node id).kids
      (T.term (s.origOf id)).children)
    (hsorts : ∀ k ∈ (s.node id).kids, (s.node k).sort ≠ .array) (ih : ∀ k < id, Shown T s F ρ k) :
    f.Typed (T.term (s.origOf id)).indices.1 (T.term (s.origOf id)).indices.2
      (((T.term (s.origOf id)).children.map (T.denote ρ)).map Value.sort) (T.sort (s.origOf id)) ∧
    (∀ v ∈ (T.term (s.origOf id)).children.map (T.denote ρ), v.sort.Ok ∧
      ∀ i e, v.sort ≠ .array i e) ∧
    Forall₂ Kid.Rep ((s.node id).kids.map F.kid)
    ((T.term (s.origOf id)).children.map (T.denote ρ)) := by
  have hty := hT.sorted (s.origOf id)
  rw [Terms.WellSorted, hkind] at hty
  have hch : ∀ o ∈ (T.term (s.origOf id)).children, (T.denote ρ o).sort = T.sort o ∧
      ∀ i e, T.sort o ≠ .array i e := by
    intro o ho
    obtain ⟨k, hk, hlt, rfl⟩ := hkids.exists_of_mem_right ho
    exact ⟨(ih k hlt).1, fun i e heq => hsorts k hk
      ((hr.tape.made k (hlt.trans hid)).sort.array_iff.2 ⟨i, e, heq⟩)⟩
  have hmap : ((T.term (s.origOf id)).children.map (T.denote ρ)).map Value.sort =
      (T.term (s.origOf id)).children.map T.sort := by
    rw [map_map]
    exact map_congr_left fun o ho => (hch o ho).1
  refine ⟨hmap ▸ hty, fun v hv => ?_, ?_⟩
  · obtain ⟨o, ho, rfl⟩ := mem_map.1 hv
    rw [(hch o ho).1]
    exact ⟨hT.sorts o, (hch o ho).2⟩
  · rw [forall₂_map_left_iff, forall₂_map_right_iff]
    refine hkids.imp fun k o hko => ?_
    rw [← hko.2]
    exact (ih k hko.1).2.rep

section

variable (hop : (s.node id).op = .fn f) (hkind : (T.term (s.origOf id)).kind = .fn f)
  (hflat : (s.node id).sort ≠ .array)
  (hkids : Forall₂ (fun k o => k < id ∧ s.origOf k = o) (s.node id).kids
    (T.term (s.origOf id)).children)
  (hsorts : ∀ k ∈ (s.node id).kids, (s.node k).sort ≠ .array) (hmem : f ≠ .select ∧ f ≠ .store)
    (ih : ∀ k < id, Shown T s F ρ k)
include hop hkind hflat hkids hsorts hmem ih

lemma shown_fn : Shown T s F ρ id := by
  have hma := hr.tape.made id hid
  have hn := hF.same.node id
  have hres := result_fn (s.wordsOf id) (s.ref id) (s := F) (hn ▸ hop) (hn ▸ hflat) hmem
  have hin := hma.op
  obtain ⟨hty, hvs, hre⟩ := fn_operands hT hr hid hkind hkids hsorts ih
  have hs := Fn.sort_denote hty
  rw [OpFor, hkind] at hin
  rw [hn, hin.2] at hres
  rw [Shown, hT.denote_fn ρ hkind]
  refine ⟨hs, shows_of_words hr hF hid hres ?_ ?_⟩
  · rw [hs]
    exact fun i e heq => hflat (hma.sort.array_iff.2 ⟨i, e, heq⟩)
  · rw [hma.sort.width]
    exact evalFn_rep (hT.sorts _) (fun v hv => (hvs v hv).1) hre hty fun v hv => (hvs v hv).2

/-- The words of an operator's result are those of the loops over words. -/
lemma words_eq_wide :
    F.wordsOf id = wide (s.node id).width (T.term (s.origOf id)).indices.1
    (T.term (s.origOf id)).indices.2 ((s.node id).kids.map F.kid) f := by
  have hma := hr.tape.made id hid
  have hn := hF.same.node id
  have hse := hF.settled id hid
  have hin := hma.op
  obtain ⟨hty, hvs, hre⟩ := fn_operands hT hr hid hkind hkids hsorts ih
  rw [OpFor, hkind] at hin
  rw [result_fn _ _ (hn ▸ hop) (hn ▸ hflat) hmem, hn, hin.2, hma.sort.width] at hse
  have hwords : evalFn (T.sort (s.origOf id)).width _ _ _ f = F.wordsOf id := congrArg Prod.fst hse
  rw [← hwords, hma.sort.width]
  refine evalFn_eq_wide (hT.sorts _) (fun v hv => (hvs v hv).1) hre hty
    (fun v hv => (hvs v hv).2) ?_
  rw [Fn.sort_denote hty]
  exact fun i e heq => hflat (hma.sort.array_iff.2 ⟨i, e, heq⟩)

end

end Cases

section Induction

variable {F : Sim} {ρ : ℕ → Value} (hT : T.Ok) (hr : Accepted T s) (hw : Written T s)
  (hF : Evaluated s s.nodes.length F)
  (hleaf : ∀ id < s.nodes.length, (s.node id).op = .leaf →
    ρ (s.origOf id) = s.leafValue id (T.sort (s.origOf id)))
  (halias : ∀ id < s.nodes.length, ∀ k, (s.node id).op = .alias → (s.node id).kids = [k] →
    T.sort (s.origOf k) = T.sort (s.origOf id) →
    Shown T s F ρ k → ρ (s.origOf id) = T.denote ρ (s.origOf k))
include hT hr hw hF hleaf halias

/-- Every node shows the value of its term. -/
lemma shown_all (hid : id < s.nodes.length) : Shown T s F ρ id := by
  induction id using Nat.strong_induction_on with
  | _ id ih =>
    have ih' : ∀ k < id, Shown T s F ρ k := fun k hk => ih k hk (hk.trans hid)
    cases nodeView hT hr hid with
    | leaf hop hkind => exact shown_leaf hT hr hF hid hw hop hkind (hleaf id hid hop)
    | defined k hop hkind hkids hk hdef hs =>
      exact shown_defined hr hF hid hop hkind hkids hk hs (ih' k hk)
        (halias id hid k hop hkids hs (ih' k hk))
    | const hop hkind => exact shown_const hT hr hF hid hw hop hkind
    | constArray k i e hop hkind hkids hk hor hs hel =>
      exact shown_constArray hT hF hid hop hkind hkids hor hs hel (ih' k hk)
    | iteArray c x y i e hop hkind hkids hlt hor hs hsorts =>
      exact shown_iteArray hT hr hF hid hop hkind hkids hor hs hsorts (ih' c hlt.1)
        (ih' x hlt.2.1) (ih' y hlt.2.2)
    | select a x i e hop hkind hkids hlt hor hs hsorts =>
      exact shown_select hT hr hF hid hop hkind hkids hor hs hsorts (ih' a hlt.1) (ih' x hlt.2)
    | store a x y i e hop hkind hkids hlt hor hs hsorts =>
      exact shown_store hT hF hid hop hkind hkids hor hs hsorts (ih' a hlt.1)
        (ih' x hlt.2.1) (ih' y hlt.2.2)
    | fn f hop hkind hflat hkids hsorts hmem =>
      exact shown_fn hT hr hF hid hop hkind hflat hkids hsorts hmem ih'

end Induction

end LiveHD.Lec
