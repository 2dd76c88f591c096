import Mathlib

/-!
# Computations that keep an invariant

`Keeps I m P`: from every state in `I` the stateful computation `m` returns a result in
`P` and ends in `I`.  A memo table is such a state: `I` says its entries are right.
-/

namespace LiveHD

variable {σ α β γ : Type}

/-- From a state in `I`, `m` returns a result in `P` and ends in `I`. -/
def Keeps (I : σ → Prop) (m : StateM σ α) (P : α → Prop) : Prop :=
  ∀ s, I s → P (m.run s).1 ∧ I (m.run s).2

namespace Keeps

variable {I : σ → Prop} {P Q : α → Prop}

lemma pure {a : α} (h : P a) : Keeps I (Pure.pure a) P := fun _ hs => ⟨h, hs⟩

lemma mono {m : StateM σ α} (h : Keeps I m P) (hPQ : ∀ a, P a → Q a) : Keeps I m Q :=
  fun s hs => ⟨hPQ _ (h s hs).1, (h s hs).2⟩

lemma bind {m : StateM σ α} {k : α → StateM σ β} {R : β → Prop} (h : Keeps I m P)
    (hk : ∀ a, P a → Keeps I (k a) R) : Keeps I (m >>= k) R :=
  fun s hs => hk _ (h s hs).1 _ (h s hs).2

lemma map {m : StateM σ α} {f : α → β} {R : β → Prop} (h : Keeps I m P)
    (hf : ∀ a, P a → R (f a)) : Keeps I (f <$> m) R :=
  fun s hs => ⟨hf _ (h s hs).1, (h s hs).2⟩

lemma get : Keeps I (MonadState.get : StateM σ σ) I := fun _ hs => ⟨hs, hs⟩

lemma modify {f : σ → σ} (h : ∀ s, I s → I (f s)) :
    Keeps I (modify f : StateM σ PUnit) fun _ => True :=
  fun s hs => ⟨trivial, h s hs⟩

lemma ite {p : Prop} [Decidable p] {m n : StateM σ α} (hm : p → Keeps I m P)
    (hn : ¬p → Keeps I n P) : Keeps I (if p then m else n) P := by
  split
  · exact hm ‹_›
  · exact hn ‹_›

/-- One query for each element of a list. -/
lemma mapM {f : β → StateM σ α} {R : β → α → Prop} {xs : List β}
    (h : ∀ x ∈ xs, Keeps I (f x) (R x)) : Keeps I (xs.mapM f) (List.Forall₂ R xs) := by
  induction xs with
  | nil => exact .pure List.Forall₂.nil
  | cons x xs ih =>
    rw [List.mapM_cons]
    refine .bind (h x List.mem_cons_self) fun a ha => ?_
    refine .bind (ih fun y hy => h y (List.mem_cons_of_mem _ hy)) fun as has => ?_
    exact .pure (.cons ha has)

lemma forM {f : β → StateM σ PUnit} {xs : List β} (h : ∀ x ∈ xs, Keeps I (f x) fun _ => True) :
    Keeps I (xs.forM f) fun _ => True := by
  induction xs with
  | nil => exact .pure trivial
  | cons x xs ih =>
    exact .bind (h x List.mem_cons_self) fun _ _ => ih fun y hy => h y (List.mem_cons_of_mem _ hy)

end Keeps

end LiveHD
