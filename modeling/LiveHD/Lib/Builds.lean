import Mathlib

/-!
# Computations that grow a state

`Builds A m s P`: run from `s`, the computation `m`, which may stop with an error, ends in a state
that keeps the invariant and is above `s`, and a result it returns is in `P`.
-/

namespace LiveHD

/-- States with an invariant, and the order in which they grow. -/
structure Arena (σ : Type) where
  inv : σ → Prop
  le : σ → σ → Prop
  refl : ∀ s, le s s
  trans : ∀ {s t u}, le s t → le t u → le s u

/-- States of which a part grows. -/
def Arena.comap {σ τ : Type} (A : Arena τ) (f : σ → τ) : Arena σ where
  inv s := A.inv (f s)
  le s t := A.le (f s) (f t)
  refl s := A.refl (f s)
  trans := A.trans

variable {σ τ ε ε' α β : Type}

lemma run_bind (m : ExceptT ε (StateM σ) α) (k : α → ExceptT ε (StateM σ) β) (s : σ) :
    (m >>= k).run.run s = match m.run.run s with
      | (.ok a, t) => (k a).run.run t
      | (.error e, t) => (.error e, t) := by
  change ((ExceptT.bindCont k (m.run.run s).1).run (m.run.run s).2) = _
  rcases m.run.run s with ⟨_ | a, t⟩ <;> rfl

def Builds (A : Arena σ) (m : ExceptT ε (StateM σ) α) (s : σ) (P : σ → α → Prop) : Prop :=
  A.inv (m.run.run s).2 ∧ A.le s (m.run.run s).2 ∧
    ∀ a, (m.run.run s).1 = .ok a → P (m.run.run s).2 a

variable {m : ExceptT ε (StateM σ) α} {f : β → α → ExceptT ε (StateM σ) β}
  {k : α → ExceptT ε (StateM σ) β}
   {R : σ → β → Prop} {n : ExceptT ε (StateM σ) α} {b : β}

namespace Builds

variable {A : Arena σ} {s : σ} {P Q : σ → α → Prop}

lemma pure {a : α} (hs : A.inv s) (h : P s a) :
    Builds A (Pure.pure a : ExceptT ε (StateM σ) α) s P :=
  ⟨hs, A.refl s, fun b hb => by cases hb; exact h⟩

lemma throw {e : ε} (hs : A.inv s) : Builds A (throw e : ExceptT ε (StateM σ) α) s P :=
  ⟨hs, A.refl s, nofun⟩

lemma mono (h : Builds A m s P)
    (hPQ : ∀ t a, A.inv t → A.le s t → P t a → Q t a) : Builds A m s Q :=
  ⟨h.1, h.2.1, fun a ha => hPQ _ a h.1 h.2.1 (h.2.2 a ha)⟩

lemma bind (h : Builds A m s P) (hk : ∀ t a, A.inv t → A.le s t → P t a → Builds A (k a) t R) :
    Builds A (m >>= k) s R := by
  obtain ⟨hinv, hle, hP⟩ := h
  unfold Builds
  rw [run_bind]
  rcases hm : m.run.run s with ⟨e | a, t⟩
  · rw [hm] at hinv hle
    exact ⟨hinv, hle, nofun⟩
  · rw [hm] at hinv hle hP
    obtain ⟨hin', hle', hR⟩ := hk t a hinv hle (hP a rfl)
    exact ⟨hin', A.trans hle hle', hR⟩

lemma map {f : α → β} (h : Builds A m s P) (hf : ∀ t a, A.inv t → A.le s t → P t a → R t (f a)) :
    Builds A (f <$> m) s R := by
  exact h.bind fun t a ht hle hP => .pure ht (hf t a ht hle hP)

lemma get (hs : A.inv s) : Builds A (MonadState.get : ExceptT ε (StateM σ) σ) s fun t a =>
    t = s ∧ a = s :=
  ⟨hs, A.refl s, fun a ha => by cases ha; exact ⟨rfl, rfl⟩⟩

lemma set {t : σ} (ht : A.inv t) (hle : A.le s t) :
    Builds A (MonadStateOf.set t : ExceptT ε (StateM σ) PUnit) s fun u _ => u = t :=
  ⟨ht, hle, fun a ha => by cases ha; rfl⟩

/-- The result of a run. -/
lemma of_run (h : Builds A m s P) {t : σ} {a : α} (hrun : m.run.run s = (.ok a, t)) : P t a := by
  have hP := h.2.2 a (congrArg Prod.fst hrun)
  rwa [hrun] at hP

/-- What is known of a computation in two orders. -/
lemma and {A' : Arena σ} (h : Builds A m s P) (h' : Builds A' m s Q) :
    Builds A m s fun t a => P t a ∧ Q t a :=
  ⟨h.1, h.2.1, fun a ha => ⟨h.2.2 a ha, h'.2.2 a ha⟩⟩

/-- What the same computation does in a coarser order. -/
lemma and_le {A' : Arena σ} (h : Builds A m s P) (h' : Builds A' m s Q) :
    Builds A m s fun t a => P t a ∧ A'.le s t :=
  ⟨h.1, h.2.1, fun a ha => ⟨h.2.2 a ha, h'.2.1⟩⟩

lemma ite {p : Prop} [Decidable p] (hm : p → Builds A m s P) (hn : ¬p → Builds A n s P) :
    Builds A (if p then m else n) s P := by
  split
  · exact hm ‹_›
  · exact hn ‹_›

end Builds

/-! ## Errors -/

/-- A computation that builds and stops with an error in `E` only. -/
structure Ends (A : Arena σ) (E : ε → Prop) (m : ExceptT ε (StateM σ) α) (s : σ)
    (P : σ → α → Prop) : Prop where
  builds : Builds A m s P
  stops : ∀ e, (m.run.run s).1 = .error e → E e

namespace Ends

variable {A : Arena σ} {E : ε → Prop} {s : σ} {P Q : σ → α → Prop}

lemma pure {a : α} (hs : A.inv s) (h : P s a) : Ends A E (Pure.pure a) s P := ⟨.pure hs h, nofun⟩

lemma throw {e : ε} (hs : A.inv s) (h : E e) : Ends A E (throw e) s P where
  builds := .throw hs
  stops e' he := by
    cases he
    exact h

lemma mono (h : Ends A E m s P)
    (hPQ : ∀ t a, A.inv t → A.le s t → P t a → Q t a) : Ends A E m s Q :=
  ⟨h.builds.mono hPQ, h.stops⟩

lemma bind (h : Ends A E m s P) (hk : ∀ t a, A.inv t → A.le s t → P t a → Ends A E (k a) t R) :
    Ends A E (m >>= k) s R := by
  refine ⟨h.builds.bind fun t a ht hle hP => (hk t a ht hle hP).builds, fun e he => ?_⟩
  obtain ⟨hinv, hle, hP⟩ := h.builds
  have hst := h.stops
  rw [run_bind] at he
  rcases hm : m.run.run s with ⟨e' | a, t⟩
  · rw [hm] at hst he
    cases he
    exact hst e rfl
  · rw [hm] at hinv hle hP he
    exact (hk t a hinv hle (hP a rfl)).stops e he

lemma map {f : α → β} (h : Ends A E m s P) (hf : ∀ t a, A.inv t → A.le s t → P t a → R t (f a)) :
    Ends A E (f <$> m) s R := by
  exact h.bind fun t a ht hle hP => .pure ht (hf t a ht hle hP)

lemma ite {p : Prop} [Decidable p] (hm : p → Ends A E m s P) (hn : ¬p → Ends A E n s P) :
    Ends A E (if p then m else n) s P := by
  split
  · exact hm ‹_›
  · exact hn ‹_›

/-- A loop over a list; the invariant is indexed by the part that is done. -/
lemma foldlM {Q : List α → σ → β → Prop} (done rest : List α)
    (hs : A.inv s) (h0 : Q done s b)
    (hst : ∀ pre x post, done ++ rest = pre ++ x :: post → ∀ t b', A.inv t →
      A.le s t → Q pre t b' → Ends A E (f b' x) t (Q (pre ++ [x]))) :
      Ends A E (rest.foldlM f b) s (Q (done ++ rest)) := by
  induction rest generalizing done s b with
  | nil =>
    rw [List.append_nil]
    exact .pure hs h0
  | cons x rest ih =>
    refine (hst done x rest rfl s b hs (A.refl s) h0).bind fun t b' ht hle hQ => ?_
    have happ : done ++ x :: rest = done ++ [x] ++ rest := by simp
    rw [happ]
    refine ih (done ++ [x]) ht hQ fun pre y post heq u b'' hu hle' hQ' => ?_
    exact hst pre y post (happ.trans heq) u b'' hu (A.trans hle hle') hQ'

/-- A loop over consecutive numbers. -/
lemma foldlM_range' {f : β → ℕ → ExceptT ε (StateM σ) β} {Q : ℕ → σ → β → Prop}
    (a n : ℕ) (hs : A.inv s)
    (h0 : Q a s b) (hst : ∀ i, a ≤ i → i < a + n → ∀ t b', A.inv t → A.le s t → Q i t b' →
      Ends A E (f b' i) t (Q (i + 1))) : Ends A E ((List.range' a n).foldlM f b) s (Q (a + n)) := by
  induction n generalizing a s b with
  | zero => exact .pure hs h0
  | succ n ih =>
    refine (hst a le_rfl (by omega) s b hs (A.refl s) h0).bind fun t b' ht hle hQ => ?_
    rw [show a + (n + 1) = a + 1 + n by omega]
    refine ih (a + 1) ht hQ fun i hi hlt u b'' hu hle' hQ' => ?_
    exact hst i (by omega) (by omega) u b'' hu (A.trans hle hle') hQ'

end Ends

namespace Builds

variable {A : Arena σ} {s : σ}

lemma ends {P : σ → α → Prop} (h : Builds A m s P) :
    Ends A (fun _ => True) m s P := ⟨h, fun _ _ => trivial⟩

lemma foldlM {Q : List α → σ → β → Prop} (done rest : List α)
    (hs : A.inv s) (h0 : Q done s b)
    (hst : ∀ pre x post, done ++ rest = pre ++ x :: post → ∀ t b', A.inv t →
      A.le s t → Q pre t b' → Builds A (f b' x) t (Q (pre ++ [x]))) :
    Builds A (rest.foldlM f b) s (Q (done ++ rest)) :=
  (Ends.foldlM done rest hs h0 fun pre x post heq t b' ht hle hQ =>
    (hst pre x post heq t b' ht hle hQ).ends).builds

lemma foldlM_range' {f : β → ℕ → ExceptT ε (StateM σ) β} {Q : ℕ → σ → β → Prop}
    (a n : ℕ) (hs : A.inv s)
    (h0 : Q a s b) (hst : ∀ i, a ≤ i → i < a + n → ∀ t b', A.inv t → A.le s t → Q i t b' →
      Builds A (f b' i) t (Q (i + 1))) : Builds A ((List.range' a n).foldlM f b) s (Q (a + n)) :=
  (Ends.foldlM_range' a n hs h0 fun i hi hlt t b' ht hle hQ =>
    (hst i hi hlt t b' ht hle hQ).ends).builds

end Builds

/-! ## Results alone -/

/-- Every result of a computation is in `P`. -/
def Yields (m : ExceptT ε (StateM σ) α)
    (P : α → Prop) : Prop := ∀ s a, (m.run.run s).1 = .ok a → P a

namespace Yields

variable {P Q : α → Prop}

/-- The arena that asks for nothing. -/
def anyArena : Arena σ where
  inv _ := True
  le _ _ := True
  refl _ := trivial
  trans _ _ := trivial

lemma builds (h : Yields m P) (s : σ) : Builds anyArena m s fun _ a => P a :=
  ⟨trivial, trivial, h s⟩

lemma pure {a : α} (h : P a) : Yields (Pure.pure a : ExceptT ε (StateM σ) α) P := fun _ _ hb => by
  cases hb
  exact h

lemma throw {e : ε} : Yields (throw e : ExceptT ε (StateM σ) α) P := fun _ _ h => nomatch h

lemma mono (h : Yields m P) (hPQ : ∀ a, P a → Q a) : Yields m Q := fun s a ha => hPQ a (h s a ha)

lemma bind {R : β → Prop} (h : Yields m P) (hk : ∀ a, P a → Yields (k a) R) : Yields (m >>= k) R :=
  fun s => ((h.builds s).bind fun t a _ _ ha => (hk a ha).builds t).2.2

lemma map {f : α → β} {R : β → Prop} (h : Yields m P) (hf : ∀ a, P a → R (f a)) :
    Yields (f <$> m) R := by
  exact h.bind fun a ha => .pure (hf a ha)

lemma ite {p : Prop} [Decidable p] (hm : p → Yields m P) (hn : ¬p → Yields n P) :
    Yields (if p then m else n) P := by
  split
  · exact hm ‹_›
  · exact hn ‹_›

/-- A loop; the invariant is indexed by the part that is done. -/
lemma foldlM {Q : List α → β → Prop} {l : List α} (h0 : Q [] b)
    (hst : ∀ pre x post, l = pre ++ x :: post → ∀ b', Q pre b' → Yields (f b' x) (Q (pre ++ [x]))) :
    Yields (l.foldlM f b) (Q l) :=
  fun _ => (Builds.foldlM (A := anyArena) (Q := fun pre _ b => Q pre b) [] l trivial h0
      fun pre x post heq t b' _ _ hQ =>
    (hst pre x post heq b' hQ).builds t).2.2

end Yields

end LiveHD
