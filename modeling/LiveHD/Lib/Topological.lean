import Mathlib

/-!
# Topological orders and contractions

An order of the elements of a relation in which each comes after those it depends on, and what
becomes of the paths of a relation when a set of its elements is contracted to one.
-/

namespace LiveHD

open Relation List

variable {α β : Type*} {r : α → α → Prop}

/-- Each element comes after those it depends on. -/
def Topological (r : α → α → Prop) (order : List α) : Prop :=
  ∀ before s after, order = before ++ s :: after → ∀ p, r p s → p ∈ before

/-- A list of which each element depends on another one of it has a cycle. -/
lemma exists_transGen_self {l : List α} (hne : ∃ a, a ∈ l) (h : ∀ b ∈ l, ∃ a ∈ l, r a b) :
    ∃ a, TransGen r a a := by
  by_contra hall
  have hir : ∀ a, ¬TransGen r a a := fun a ha => hall ⟨a, ha⟩
  have hwf : WellFounded fun a b : {a // a ∈ l} => TransGen r a.1 b.1 := by
    have : Finite {a // a ∈ l} := finite_toSet l
    have : Std.Irrefl fun a b : {a // a ∈ l} => TransGen r a.1 b.1 := ⟨fun a => hir a.1⟩
    exact Finite.wellFounded_of_trans_of_irrefl _
  obtain ⟨a, ha⟩ := hne
  obtain ⟨⟨b, hb⟩, -, hmin⟩ := hwf.has_min Set.univ ⟨⟨a, ha⟩, trivial⟩
  obtain ⟨c, hc, hcb⟩ := h b hb
  exact hmin ⟨c, hc⟩ trivial (.single hcb)

namespace Topological

variable {order : List α}

lemma nil : Topological r [] := by
  intro before s after h
  exact absurd h.symm (append_ne_nil_of_right_ne_nil _ (cons_ne_nil _ _))

section

variable (h : Topological r order)
include h

lemma concat {x : α} (hx : ∀ p, r p x → p ∈ order) : Topological r (order ++ [x]) := by
  intro before s after heq p hp
  rcases eq_nil_or_concat after with rfl | ⟨init, last, rfl⟩
  · obtain ⟨rfl, hs⟩ := append_inj' heq rfl
    rw [← singleton_inj.1 hs] at hp
    exact hx p hp
  · rw [concat_eq_append, ← cons_append, ← append_assoc] at heq
    exact h before s init (append_inj' heq rfl).1 p hp

/-- What reaches an element stands before it. -/
lemma mem_of_transGen {a b : α} (hab : TransGen r a b) :
    ∀ {before after : List α}, order = before ++ b :: after → a ∈ before := by
  induction hab with
  | single hab =>
    intro before after heq
    exact h _ _ _ heq _ hab
  | @tail p b _ hpb ih =>
    intro before after heq
    obtain ⟨l₁, l₂, rfl⟩ := append_of_mem (h _ _ _ heq _ hpb)
    rw [append_assoc] at heq
    exact mem_append_left _ (ih heq)

lemma mem_of_reflTransGen {a b : α} (hab : ReflTransGen r a b) (hb : b ∈ order) : a ∈ order := by
  rcases reflTransGen_iff_eq_or_transGen.1 hab with rfl | hab
  · exact hb
  · obtain ⟨l₁, l₂, heq⟩ := append_of_mem hb
    rw [heq]
    exact mem_append_left _ (h.mem_of_transGen hab heq)

lemma not_transGen_self (hnd : order.Nodup) {a : α} (ha : a ∈ order) : ¬TransGen r a a := by
  intro haa
  obtain ⟨before, after, rfl⟩ := append_of_mem ha
  exact (nodup_append.1 hnd).2.2 a (h.mem_of_transGen haa rfl) a (.head _) rfl

/-- No element reaches one that stands before it. -/
lemma pairwise_not_transGen (hnd : order.Nodup) : order.Pairwise fun b a => ¬TransGen r a b := by
  have key : ∀ before rest, order = before ++ rest → rest.Pairwise fun b a => ¬TransGen r a b := by
    intro before rest
    induction rest generalizing before with
    | nil =>
      intro _
      exact .nil
    | cons b after ih =>
      intro heq
      refine pairwise_cons.2 ⟨fun a ha hab => ?_, ih (before ++ [b]) (by rw [heq, append_cons])⟩
      rw [heq] at hnd
      exact (nodup_append.1 hnd).2.2 a (h.mem_of_transGen hab heq) a (.tail _ ha) rfl
  exact key [] order rfl

end

end Topological

/-! ## Contracting a set -/

/-- `c` sends no two elements to one, those of `S` apart. -/
def Collapses (c : α → β) (S : Set α) : Prop := ∀ x y, c x = c y → x = y ∨ x ∈ S ∧ y ∈ S

/-- No element of `S` reaches one of `S`. -/
def Antichain (r : α → α → Prop) (S : Set α) : Prop := ∀ x ∈ S, ∀ y ∈ S, ¬TransGen r x y

namespace Collapses

variable {c : α → β} {S : Set α} {r' : β → β → Prop}

section

variable (hc : Collapses c S) (hS : Antichain r S)
  (hr : ∀ x y, r' x y → ∃ a b, r a b ∧ c a = x ∧ c b = y)
include hc hS hr

/-- A path after the contraction is a path before it, or goes through the contracted set once. -/
lemma exists_path {x y : β} (h : TransGen r' x y) : ∃ a b, c a = x ∧ c b = y ∧
      (TransGen r a b ∨ (∃ m ∈ S, TransGen r a m) ∧ ∃ m ∈ S, TransGen r m b) := by
  induction h with
  | single h =>
    obtain ⟨a, b, hab, ha, hb⟩ := hr _ _ h
    exact ⟨a, b, ha, hb, .inl (.single hab)⟩
  | tail _ h ih =>
    obtain ⟨a, b, ha, hb, hab⟩ := ih
    obtain ⟨b', d, hbd, hb', hd⟩ := hr _ _ h
    refine ⟨a, d, ha, hd, ?_⟩
    rcases hc b b' (hb.trans hb'.symm) with rfl | ⟨hbS, hbS'⟩
    · rcases hab with hab | ⟨hto, m, hm, hmb⟩
      · exact .inl (hab.tail hbd)
      · exact .inr ⟨hto, m, hm, hmb.tail hbd⟩
    · rcases hab with hab | ⟨-, m, hm, hmb⟩
      · exact .inr ⟨⟨b, hbS, hab⟩, b', hbS', .single hbd⟩
      · exact absurd hmb (hS m hm b hbS)

/-- Contracting an antichain closes no cycle. -/
lemma acyclic (hac : ∀ a, ¬TransGen r a a) (x : β) : ¬TransGen r' x x := by
  intro h
  obtain ⟨a, b, ha, hb, hab⟩ := hc.exists_path hS hr h
  rcases hc a b (ha.trans hb.symm) with rfl | ⟨haS, hbS⟩
  · rcases hab with hab | ⟨⟨m, hm, ham⟩, m', hm', hma⟩
    · exact hac a hab
    · exact hS m' hm' m hm (hma.trans ham)
  · rcases hab with hab | ⟨⟨m, hm, ham⟩, -⟩
    · exact hS a haS b hbS hab
    · exact hS a haS m hm ham

/-- A path between two elements that are not contracted was there, or its start reaches the
contracted set. -/
lemma transGen_or {a b : α} (ha : a ∉ S) (hb : b ∉ S) (h : TransGen r' (c a) (c b)) :
    TransGen r a b ∨ ∃ m ∈ S, TransGen r a m := by
  obtain ⟨a', b', ha', hb', hab⟩ := hc.exists_path hS hr h
  obtain rfl : a' = a := (hc a' a ha').resolve_right fun h => ha h.2
  obtain rfl : b' = b := (hc b' b hb').resolve_right fun h => hb h.2
  exact hab.imp id And.left

end

end Collapses

end LiveHD
