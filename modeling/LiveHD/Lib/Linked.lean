import Mathlib

/-!
# Linked cells

Cells at addresses, `kids a` the links of the cell at `a`.  A cell that has a height is the root of
a finite tree, and its height is at most the number of addresses.  A chain of cells with one
reference each can be entered at its top only.
-/

namespace LiveHD.Linked

open Relation List

variable {kids : ℕ → Option (List ℕ)} {a b c : ℕ} {l : List ℕ}

variable (kids) in
/-- The cell at `a` has a link to `b`. -/
def Link (a b : ℕ) : Prop := ∃ l, kids a = some l ∧ b ∈ l

/-- The links of a chain lead from its top to all of it. -/
lemma reaches_of_isChain {R : ℕ → ℕ → Prop} {l : List ℕ} {x : ℕ} (h : (a :: l).IsChain R)
    (hx : x ∈ a :: l) : ReflTransGen R a x := by
  induction l generalizing a with
  | nil => exact mem_singleton.1 hx ▸ .refl
  | cons b l ih =>
    rw [isChain_cons_cons] at h
    rcases mem_cons.1 hx with rfl | hx
    · exact .refl
    · exact .head h.1 (ih h.2 hx)

variable (kids) in
/-- `Tall n a`: what hangs from the cell at `a` is finite, and of height `n`. -/
inductive Tall : ℕ → ℕ → Prop
  | node {a : ℕ} {l : List ℕ} (height : ℕ → ℕ) (hkids : kids a = some l)
    (h : ∀ b ∈ l, Tall (height b) b) :
      Tall ((l.map height).foldr max 0 + 1) a

lemma le_foldr_max {l : List ℕ} {n : ℕ} (h : n ∈ l) : n ≤ l.foldr max 0 := by
  induction l with
  | nil => cases h
  | cons m l ih =>
    rcases mem_cons.1 h with rfl | h
    · exact le_max_left _ _
    · exact (ih h).trans (le_max_right _ _)

lemma foldr_max_mem {l : List ℕ} (h : 0 < l.foldr max 0) : l.foldr max 0 ∈ l := by
  induction l with
  | nil => cases h
  | cons m l ih =>
    rw [foldr_cons] at h ⊢
    rcases le_total m (l.foldr max 0) with hle | hle
    · rw [max_eq_right hle] at h ⊢
      exact .tail _ (ih h)
    · rw [max_eq_left hle]
      exact .head _

namespace Tall

variable {m n k : ℕ}

lemma unique (hm : Tall kids m a) (hn : Tall kids n a) : m = n := by
  induction hm generalizing n with
  | node hei hks _ ih =>
    cases hn with
    | node hei' hks' h' =>
      cases (hks.symm.trans hks')
      rw [map_congr_left fun b hb => ih b hb (h' b hb)]

section

variable (h : Tall kids n a)
include h

lemma pos : 0 < n := by
  cases h with
  | node => exact Nat.succ_pos _

/-- The cell below is lower. -/
lemma link (hab : Link kids a b) : ∃ m < n, Tall kids m b := by
  cases h with
  | node hei hks h =>
    obtain ⟨l, hl, hb⟩ := hab
    cases (hks.symm.trans hl)
    exact ⟨hei b, Nat.lt_succ_of_le (le_foldr_max (mem_map_of_mem hb)), h b hb⟩

lemma reaches (hab : ReflTransGen (Link kids) a b) : ∃ m ≤ n, Tall kids m b := by
  induction hab with
  | refl => exact ⟨n, le_rfl, h⟩
  | tail _ hbc ih =>
    obtain ⟨m, hm, hb⟩ := ih
    obtain ⟨k, hk, hc⟩ := hb.link hbc
    exact ⟨k, hk.le.trans hm, hc⟩

/-- Nothing hangs from itself. -/
lemma acyclic (hab : Link kids a b) : ¬ReflTransGen (Link kids) b a := by
  intro hba
  obtain ⟨m, hm, hb⟩ := h.link hab
  obtain ⟨k, hk, ha⟩ := hb.reaches hba
  exact absurd (h.unique ha) (by omega)

/-- Every height up to that of a cell is the height of a cell below it. -/
lemma exists_of_le (hpos : 0 < k) (hk : k ≤ n) : ∃ b, Tall kids k b := by
  induction h with
  | @node a l hei hks h ih =>
    rcases hk.lt_or_eq with hlt | rfl
    · have hle := Nat.lt_succ_iff.1 hlt
      obtain ⟨b, hb, heq⟩ := mem_map.1 (foldr_max_mem (hpos.trans_le hle))
      exact ih b hb (heq ▸ hle)
    · exact ⟨a, .node hei hks h⟩

lemma isSome_kids : (kids a).isSome = true := by
  cases h with
  | node _ hks => rw [hks]; rfl

/-- A height is at most the number of addresses. -/
lemma le_card {N : ℕ} (hN : ∀ a, (kids a).isSome = true → a < N) : n ≤ N := by
  have hce : ∀ i : Fin n, ∃ a, Tall kids (i + 1) a := fun i => h.exists_of_le i.val.succ_pos i.isLt
  choose address had using hce
  let f : Fin n → Fin N := fun i => ⟨address i, hN _ (had i).isSome_kids⟩
  have hf : Function.Injective f := by
    intro i j hij
    have hadd : address i = address j := congrArg Fin.val hij
    have hj := had j
    rw [← hadd] at hj
    exact Fin.ext (Nat.succ_inj.1 ((had i).unique hj))
  simpa using Fintype.card_le_of_injective f hf

/-- Cells that keep their links keep their heights. -/
lemma congr {kids' : ℕ → Option (List ℕ)}
    (hk : ∀ b l, kids b = some l → kids' b = some l) : Tall kids' n a := by
  induction h with
  | node hei hks _ ih => exact .node hei (hk _ _ hks) ih

end

end Tall

/-! ## Counted references -/

section

variable (kids)

/-- The cells down from `a`, as often as there are ways to them. -/
def below : ℕ → ℕ → List ℕ
  | 0, _ => []
  | fuel + 1, a => a :: ((kids a).getD []).flatMap (below fuel)

/-- The cells that some references keep. -/
def live (N : ℕ) (refs : List ℕ) : List ℕ := (refs.flatMap (below kids N)).dedup

/-- The number of references to a cell, those of cells that are kept among them. -/
def useCount (N : ℕ) (refs : List ℕ) (x : ℕ) : ℕ :=
  refs.count x + ((live kids N refs).map fun a => ((kids a).getD []).count x).sum

/-- All cells are below `N`, and the references are to finite trees. -/
structure Held (N : ℕ) (refs : List ℕ) : Prop where
  bound : ∀ a, (kids a).isSome = true → a < N
  tall : ∀ r ∈ refs, ∃ n, Tall kids n r

end

variable {N : ℕ} {refs : List ℕ} {x y z r : ℕ}

lemma mem_below_iff {n fuel : ℕ} (h : Tall kids n a) (hfu : n ≤ fuel) : b ∈ below kids fuel a ↔
    ReflTransGen (Link kids) a b := by
  induction fuel generalizing n a with
  | zero => exact absurd hfu (not_le.2 h.pos)
  | succ fuel ih =>
    obtain ⟨l, hl⟩ := Option.isSome_iff_exists.1 h.isSome_kids
    have hlo : ∀ c ∈ l, b ∈ below kids fuel c ↔ ReflTransGen (Link kids) c b := by
      intro c hc
      obtain ⟨m, hm, hc⟩ := h.link ⟨l, hl, hc⟩
      exact ih hc (by omega)
    rw [below, hl, Option.getD_some, mem_cons, mem_flatMap, ReflTransGen.cases_head_iff]
    constructor
    · rintro (rfl | ⟨c, hc, hb⟩)
      · exact .inl rfl
      · exact .inr ⟨c, ⟨l, hl, hc⟩, (hlo c hc).1 hb⟩
    · rintro (rfl | ⟨c, ⟨l', hl', hc⟩, hb⟩)
      · exact .inl rfl
      · cases (hl.symm.trans hl')
        exact .inr ⟨c, hc, (hlo c hc).2 hb⟩

namespace Held

variable (h : Held kids N refs)
include h

lemma mem_live_iff : x ∈ live kids N refs ↔ ∃ r ∈ refs, ReflTransGen (Link kids) r x := by
  rw [live, mem_dedup, mem_flatMap]
  refine exists_congr fun r => and_congr_right fun hr => ?_
  obtain ⟨n, hn⟩ := h.tall r hr
  exact mem_below_iff hn (hn.le_card h.bound)

lemma mem_live (hr : r ∈ refs) : r ∈ live kids N refs := h.mem_live_iff.2 ⟨r, hr, .refl⟩

lemma live_of_reaches (hx : x ∈ live kids N refs) (hxy : ReflTransGen (Link kids) x y) :
    y ∈ live kids N refs := by
  obtain ⟨r, hr, hrx⟩ := h.mem_live_iff.1 hx
  exact h.mem_live_iff.2 ⟨r, hr, hrx.trans hxy⟩

end Held

lemma one_le_count_of_link (hxy : Link kids y x) : 1 ≤ ((kids y).getD []).count x := by
  obtain ⟨l, hl, hx⟩ := hxy
  rw [hl]
  exact count_pos_iff.2 hx

lemma count_le_useCount (hy : y ∈ live kids N refs) :
    refs.count x + ((kids y).getD []).count x ≤ useCount kids N refs x := by
  have hmem := mem_map_of_mem (f := fun a => ((kids a).getD []).count x) hy
  exact Nat.add_le_add_left (single_le_sum (fun _ _ => Nat.zero_le _) _ hmem) _

section

variable (hown : useCount kids N refs x ≤ 1) (hy : y ∈ live kids N refs)
include hown hy

/-- A cell that is held by one reference is not linked to. -/
lemma notMem_of_link (hyx : Link kids y x) : x ∉ refs := by
  intro hx
  have hc := count_le_useCount (x := x) hy
  have href := count_pos_iff.2 hx
  have hli := one_le_count_of_link hyx
  omega

/-- A cell with one link to it has it from one cell. -/
lemma eq_of_link (hz : z ∈ live kids N refs) (hyx : Link kids y x)
    (hzx : Link kids z x) : y = z := by
  by_contra hne
  have hpa : [y, z].Subperm (live kids N refs) :=
    List.Nodup.subperm (by simpa using hne) (by simp [hy, hz])
  have hsum : ([y, z].map fun a => ((kids a).getD []).count x).sum ≤
      ((live kids N refs).map fun a => ((kids a).getD []).count x).sum := by
    obtain ⟨m, hpe, hsub⟩ := hpa
    rw [← (hpe.map _).sum_eq]
    exact (hsub.map _).sum_le_sum fun _ _ => Nat.zero_le _
  rw [map_cons, map_cons, map_nil, sum_cons, sum_cons, sum_nil] at hsum
  have hy1 := one_le_count_of_link hyx
  have hz1 := one_le_count_of_link hzx
  rw [useCount] at hown
  omega

end

/-- A chain of cells with one reference each is entered at its top. -/
lemma Held.reaches_top (h : Held kids N refs) {rest : List ℕ}
    (hch : (a :: rest).IsChain (Link kids))
    (hown : ∀ x ∈ rest, useCount kids N refs x ≤ 1) (ha : a ∈ live kids N refs)
    (hr : r ∈ live kids N refs)
    (hx : x ∈ a :: rest) (hrx : ReflTransGen (Link kids) r x) :
    ReflTransGen (Link kids) r a ∨ r ∈ rest := by
  induction rest generalizing a with
  | nil =>
    rw [mem_singleton.1 hx] at hrx
    exact .inl hrx
  | cons b rest ih =>
    rcases mem_cons.1 hx with rfl | hx
    · exact .inl hrx
    · rw [isChain_cons_cons] at hch
      obtain ⟨hab, hch⟩ := hch
      have hb := h.live_of_reaches ha (.single hab)
      rcases ih hch (fun x hx => hown x (.tail _ hx)) hb hx with hrb | hre
      · rcases ReflTransGen.cases_tail hrb with rfl | ⟨c, hrc, hcb⟩
        · exact .inr (.head _)
        · have hc := h.live_of_reaches hr hrc
          rw [eq_of_link (hown b (.head _)) ha hc hab hcb]
          exact .inl hrc
      · exact .inr (.tail _ hre)

end LiveHD.Linked
