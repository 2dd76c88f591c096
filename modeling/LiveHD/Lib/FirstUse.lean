import Mathlib

/-!
# Numbering by first use

A list of names, each numbered by the position of its first use.  The numbers of two lists agree
exactly when one list is the other renamed.
-/

namespace LiveHD

open List

variable {ν μ : Type*} [DecidableEq ν] [DecidableEq μ]

/-- The names seen after the uses `l`, in the order of their first uses. -/
def visit (ids l : List ν) : List ν :=
  l.foldl (fun ids n => if n ∈ ids then ids else ids ++ [n]) ids

lemma visit_append (ids l m : List ν) :
    visit ids (l ++ m) = visit (visit ids l) m := List.foldl_append

lemma visit_cons (ids : List ν) (n : ν) (l : List ν) :
    visit ids (n :: l) = visit (visit ids [n]) l := rfl

lemma prefix_visit (ids l : List ν) : ids <+: visit ids l := by
  induction l generalizing ids with
  | nil => exact prefix_rfl
  | cons n l ih =>
    refine List.IsPrefix.trans ?_ (ih _)
    beta_reduce
    split
    · exact prefix_rfl
    · exact prefix_append ids [n]

lemma mem_visit {ids l : List ν} {n : ν} : n ∈ visit ids l ↔ n ∈ ids ∨ n ∈ l := by
  induction l generalizing ids with
  | nil => exact (or_iff_left not_mem_nil).symm
  | cons m l ih =>
    refine ih.trans ?_
    rw [mem_cons, ← or_assoc]
    apply or_congr_left
    beta_reduce
    split
    next hm =>
      constructor
      · exact .inl
      · rintro (h | rfl)
        · exact h
        · exact hm
    next => rw [mem_append, mem_singleton]

lemma visit_map {f : ν → μ} (hf : Function.Injective f) (ids l : List ν) :
    visit (ids.map f) (l.map f) = (visit ids l).map f := by
  induction l generalizing ids with
  | nil => rfl
  | cons n l ih =>
    rw [map_cons, visit_cons, visit_cons ids, ← ih]
    have hst : visit (ids.map f) [f n] = (visit ids [n]).map f := by
      change (if f n ∈ ids.map f then _ else _) = (if n ∈ ids then _ else _ : List ν).map f
      by_cases hn : n ∈ ids
      · rw [if_pos hn, if_pos (mem_map_of_mem hn)]
      · rw [if_neg hn, if_neg (hn ∘ (mem_map_of_injective hf).1), map_append]
        rfl
    rw [hst]

lemma idxOf_map {f : ν → μ} (hf : Function.Injective f) (l : List ν) (n : ν) :
    (l.map f).idxOf (f n) = l.idxOf n := by
  induction l with
  | nil => rfl
  | cons m l ih =>
    rw [map_cons, idxOf_cons, idxOf_cons, ih]
    by_cases h : m = n
    · rw [h, beq_self_eq_true, beq_self_eq_true]
    · rw [beq_false_of_ne h, beq_false_of_ne (hf.ne h)]

/-- Lists with the same numbers are renamings of each other. -/
lemma exists_perm_of_idxOf [Finite ν] {l m : List ν}
    (h : l.map (visit [] l).idxOf = m.map (visit [] m).idxOf) :
    ∃ σ : Equiv.Perm ν, ∀ n ∈ l, σ n ∈ visit [] m ∧
    (visit [] m).idxOf (σ n) = (visit [] l).idxOf n := by
  obtain ⟨_⟩ := nonempty_fintype ν
  rcases l with _ | ⟨d, l⟩
  · exact ⟨Equiv.refl ν, fun _ => nofun⟩
  -- the name of `m` at the same number
  let pick : ν → ν := fun n => (visit [] m).getD ((visit [] (d :: l)).idxOf n) d
  have hpi : ∀ n ∈ d :: l, pick n ∈ visit [] m ∧
      (visit [] m).idxOf (pick n) = (visit [] (d :: l)).idxOf n := by
    intro n hn
    have hmem := h ▸ mem_map_of_mem hn
    obtain ⟨n', hn', heq⟩ := mem_map.1 hmem
    have hfi : pick n = n' := by
      have hlt := idxOf_lt_length_iff.2 (mem_visit.2 (.inr hn') : n' ∈ visit [] m)
      change (visit [] m).getD ((visit [] (d :: l)).idxOf n) d = n'
      rw [← heq, getD_eq_getElem _ _ hlt, getElem_idxOf]
    exact hfi ▸ ⟨mem_visit.2 (.inr hn'), heq⟩
  have hinj : Set.InjOn pick ((d :: l).toFinset : Set ν) := by
    intro a ha b hb hab
    have ha' := mem_toFinset.1 ha
    have hb' := mem_toFinset.1 hb
    have hidx : (visit [] (d :: l)).idxOf a = (visit [] (d :: l)).idxOf b := by
      rw [← (hpi a ha').2, hab, (hpi b hb').2]
    exact (idxOf_inj (mem_visit.2 (.inr ha'))).1 hidx
  obtain ⟨g, hg⟩ := Finset.exists_equiv_extend_of_card_eq (t := Finset.univ) rfl
    (Finset.subset_univ _) hinj
  let e : (Finset.univ : Finset ν) ≃ ν := Equiv.subtypeUnivEquiv Finset.mem_univ
  refine ⟨g.trans e, fun n hn => ?_⟩
  have hn' : (g.trans e) n = pick n := hg n (mem_toFinset.2 hn)
  rw [hn']
  exact hpi n hn

end LiveHD
