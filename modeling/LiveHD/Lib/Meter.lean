import LiveHD.Lib.Builds

/-!
# Computations on a supply

A computation may stop because a supply in its state (credits, room) ran out.
`Runs A m s c P`: the computation builds as in `Builds`, it stops only from a state without
the supply `c`, and it leaves what was there beyond `c`.
-/

namespace LiveHD

/-- An arena whose states hold a supply. -/
structure Meter (σ : Type) extends Arena σ where
  has : ℕ → σ → Prop
  mono : ∀ {c d s}, c ≤ d → has d s → has c s

variable {σ ε α β : Type}

structure Runs (A : Meter σ) (m : ExceptT ε (StateM σ) α) (s : σ) (c : ℕ)
    (P : σ → α → Prop) : Prop where
  builds : Builds A.toArena m s P
  leaves : ∀ a, (m.run.run s).1 = .ok a → ∀ d, A.has (c + d) s → A.has d (m.run.run s).2
  stops : ∀ e, (m.run.run s).1 = .error e → ¬A.has c s

namespace Runs

variable {A : Meter σ} {s : σ} {c d : ℕ} {P Q : σ → α → Prop}

lemma pure {a : α} (hs : A.inv s) (h : P s a) :
    Runs A (Pure.pure a : ExceptT ε (StateM σ) α) s 0 P where
  builds := .pure hs h
  leaves _ _ d hd := by rwa [Nat.zero_add] at hd
  stops _ he := nomatch he

lemma throw {e : ε} (hs : A.inv s) (h : ¬A.has c s) :
    Runs A (throw e : ExceptT ε (StateM σ) α) s c P where
  builds := .throw hs
  leaves _ ha := nomatch ha
  stops _ _ := h

variable {m : ExceptT ε (StateM σ) α}

lemma mono (h : Runs A m s c P)
    (hPQ : ∀ t a, A.inv t → A.le s t → P t a → Q t a) : Runs A m s c Q :=
  ⟨h.builds.mono hPQ, h.leaves, h.stops⟩

/-- A larger supply. -/
lemma more (h : Runs A m s c P) (hcd : c ≤ d) : Runs A m s d P where
  builds := h.builds
  leaves a ha k hk := h.leaves a ha k (A.mono (Nat.add_le_add_right hcd k) hk)
  stops e he hd := h.stops e he (A.mono hcd hd)

lemma bind {k : α → ExceptT ε (StateM σ) β} {R : σ → β → Prop} (h : Runs A m s c P)
    (hk : ∀ t a, A.inv t → A.le s t → P t a → Runs A (k a) t d R) :
    Runs A (m >>= k) s (c + d) R := by
  obtain ⟨hinv, hle, hP⟩ := h.builds
  have hlv := h.leaves
  have hst := h.stops
  refine ⟨h.builds.bind fun t a ht hl hp => (hk t a ht hl hp).builds, ?_, ?_⟩
  · intro b hb e he
    rw [run_bind] at hb ⊢
    rcases hm : m.run.run s with ⟨x | a, t⟩
    · rw [hm] at hb
      nomatch hb
    · rw [hm] at hinv hle hP hlv hb
      refine (hk t a hinv hle (hP a rfl)).leaves b hb e (hlv a rfl (d + e) ?_)
      rwa [← Nat.add_assoc]
  · intro x hx hhas
    rw [run_bind] at hx
    rcases hm : m.run.run s with ⟨y | a, t⟩
    · rw [hm] at hst
      exact hst y rfl (A.mono (Nat.le_add_right c d) hhas)
    · rw [hm] at hinv hle hP hlv hx
      exact (hk t a hinv hle (hP a rfl)).stops x hx (hlv a rfl d hhas)

lemma map {f : α → β} {R : σ → β → Prop} (h : Runs A m s c P)
    (hf : ∀ t a, A.inv t → A.le s t → P t a → R t (f a)) : Runs A (f <$> m) s c R := by
  rw [map_eq_pure_bind]
  exact h.bind fun t a ht hle hP => .pure ht (hf t a ht hle hP)

lemma get (hs : A.inv s) : Runs A (MonadState.get : ExceptT ε (StateM σ) σ) s 0 fun t a =>
    t = s ∧ a = s where
  builds := .get hs
  leaves _ _ d hd := by rwa [Nat.zero_add] at hd
  stops _ he := nomatch he

lemma set {t : σ} (ht : A.inv t) (hle : A.le s t) (hl : ∀ d, A.has (c + d) s → A.has d t) :
    Runs A (MonadStateOf.set t : ExceptT ε (StateM σ) PUnit) s c fun u _ => u = t where
  builds := .set ht hle
  leaves _ _ := hl
  stops _ he := nomatch he

lemma ite {p : Prop} [Decidable p] {n : ExceptT ε (StateM σ) α} (hm : p → Runs A m s c P)
    (hn : ¬p → Runs A n s c P) : Runs A (if p then m else n) s c P := by
  split
  · exact hm ‹_›
  · exact hn ‹_›

/-- A loop over a list with the cost of each element; the invariant is indexed by the part that is
done. -/
lemma foldlM {f : β → α → ExceptT ε (StateM σ) β} {Q : List α → σ → β → Prop} (cost : α → ℕ)
    (done rest : List α) {b : β}
    (hs : A.inv s) (h0 : Q done s b)
    (hst : ∀ pre x post, done ++ rest = pre ++ x :: post → ∀ t b', A.inv t →
      A.le s t → Q pre t b' → Runs A (f b' x) t (cost x) (Q (pre ++ [x]))) :
    Runs A (rest.foldlM f b) s (rest.map cost).sum (Q (done ++ rest)) := by
  induction rest generalizing done s b with
  | nil =>
    rw [List.append_nil]
    exact .pure hs h0
  | cons x rest ih =>
    rw [List.foldlM_cons, List.map_cons, List.sum_cons]
    refine (hst done x rest rfl s b hs (A.refl s) h0).bind fun t b' ht hle hQ => ?_
    have happ : done ++ x :: rest = done ++ [x] ++ rest := by simp
    rw [happ]
    refine ih (done ++ [x]) ht hQ fun pre y post heq u b'' hu hle' hQ' => ?_
    exact hst pre y post (happ.trans heq) u b'' hu (A.trans hle hle') hQ'

/-- A loop over consecutive numbers. -/
lemma foldlM_range' {f : β → ℕ → ExceptT ε (StateM σ) β} {Q : ℕ → σ → β → Prop}
    (a n : ℕ) {b : β} (hs : A.inv s)
    (h0 : Q a s b) (hst : ∀ i, a ≤ i → i < a + n → ∀ t b', A.inv t → A.le s t → Q i t b' →
      Runs A (f b' i) t c (Q (i + 1))) :
      Runs A ((List.range' a n).foldlM f b) s (n * c) (Q (a + n)) := by
  induction n generalizing a s b with
  | zero =>
    rw [Nat.zero_mul]
    exact .pure hs h0
  | succ n ih =>
    rw [List.range'_succ, List.foldlM_cons, Nat.succ_mul, Nat.add_comm (n * c) c]
    refine (hst a le_rfl (by omega) s b hs (A.refl s) h0).bind fun t b' ht hle hQ => ?_
    rw [show a + (n + 1) = a + 1 + n by omega]
    refine ih (a + 1) ht hQ fun i hi hlt u b'' hu hle' hQ' => ?_
    exact hst i (by omega) (by omega) u b'' hu (A.trans hle hle') hQ'

/-- With the supply there is a result. -/
lemma result (h : Runs A m s c P) (hs : A.has c s) : ∃ a, (m.run.run s).1 = .ok a := by
  cases hm : (m.run.run s).1 with
  | ok a => exact ⟨a, rfl⟩
  | error e => exact absurd hs (h.stops e hm)

end Runs

end LiveHD
