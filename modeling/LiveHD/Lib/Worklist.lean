import Mathlib

/-!
# Worklists

A search that takes items from a stack, passes over those that it skips or has seen, stops at a
goal, and pushes what an item reads.  Visiting an item may change a state, which an invariant
relates to the items seen.
-/

namespace LiveHD.Worklist

open Relation List

variable {σ α : Type*}

/-- What a search leaves: the state, the items seen, and whether it stopped at a goal. -/
structure Outcome (σ α : Type*) where
  state : σ
  seen : List α
  found : Bool

/-- The search; `none` when a visit fails or the fuel does not suffice. -/
def search [DecidableEq α] (skip goal : α → Bool) (visit : σ → α → Option (σ × List α)) :
    ℕ → σ → List α → List α → Option (Outcome σ α)
  | _, s, [], seen => some ⟨s, seen, false⟩
  | 0, _, _ :: _, _ => none
  | fuel + 1, s, a :: stack, seen =>
    if skip a || decide (a ∈ seen) then search skip goal visit fuel s stack seen
    else if goal a then some ⟨s, a :: seen, true⟩
    else match visit s a with
      | none => none
      | some (s', l) => search skip goal visit fuel s' (l.reverse ++ stack) (a :: seen)

variable (skip goal : α → Bool) (next : α → List α)

/-- `a`, which is not skipped, reads `b`. -/
def Reads (a b : α) : Prop := skip a = false ∧ b ∈ next a

/-- An item that is not skipped is read from the roots. -/
def Reached (roots : List α) (a : α) : Prop := skip a = false ∧
    ∃ r ∈ roots, ReflTransGen (Reads skip next) r a

/-- Steps that suffice: each item of `items` is visited once. -/
def fuel [DecidableEq α] (items stack seen : List α) : ℕ :=
  stack.length + ((items.filter fun a => decide (a ∉ seen)).map fun a => (next a).length).sum

/-- The stack and the items seen, on the way from the roots. -/
structure Searching (roots stack seen : List α) : Prop where
  reached : ∀ a ∈ stack, ∃ r ∈ roots, ReflTransGen (Reads skip next) r a
  visited : ∀ a ∈ seen, Reached skip next roots a ∧ goal a = false
  started : ∀ a ∈ roots, skip a = false → a ∈ seen ∨ a ∈ stack
  closed : ∀ a ∈ seen, ∀ b ∈ next a, skip b = false → b ∈ seen ∨ b ∈ stack

variable {skip goal next} {roots stack seen : List α} {a : α}

lemma Searching.start (skip goal : α → Bool) (next : α → List α) (roots : List α) :
    Searching skip goal next roots roots [] where
  reached a ha := ⟨a, ha, .refl⟩
  visited _ h := nomatch h
  started _ ha _ := .inr ha
  closed _ h := nomatch h

/-- An item that is passed over. -/
lemma Searching.pass (h : Searching skip goal next roots (a :: stack) seen)
    (ha : skip a = true ∨ a ∈ seen) :
    Searching skip goal next roots stack seen := by
  have hr : ∀ b, skip b = false → b ∈ seen ∨ b ∈ a :: stack → b ∈ seen ∨ b ∈ stack := by
    rintro b hsk (hb | hb)
    · exact .inl hb
    · rcases mem_cons.1 hb with rfl | hb
      · refine ha.elim (fun hs => ?_) .inl
        rw [hs] at hsk
        cases hsk
      · exact .inr hb
  exact ⟨fun b hb => h.reached b (.tail _ hb), h.visited, fun b hb hs =>
    hr b hs (h.started b hb hs),
    fun b hb c hc hs => hr c hs (h.closed b hb c hc hs)⟩

/-- An item that is visited. -/
lemma Searching.visit (h : Searching skip goal next roots (a :: stack) seen) (hsk : skip a = false)
    (hgo : goal a = false) :
    Searching skip goal next roots ((next a).reverse ++ stack) (a :: seen) := by
  obtain ⟨r, hr, hra⟩ := h.reached a (.head _)
  have hre : ∀ b, b ∈ seen ∨ b ∈ a :: stack → b ∈ a :: seen ∨ b ∈ (next a).reverse ++ stack := by
    rintro b (hb | hb)
    · exact .inl (.tail _ hb)
    · rcases mem_cons.1 hb with rfl | hb
      · exact .inl (.head _)
      · exact .inr (mem_append_right _ hb)
  refine ⟨fun b hb => ?_, fun b hb => ?_,
    fun b hb hs => hre b (h.started b hb hs), fun b hb c hc hs => ?_⟩
  · rcases mem_append.1 hb with hb | hb
    · exact ⟨r, hr, hra.tail ⟨hsk, mem_reverse.1 hb⟩⟩
    · exact h.reached b (.tail _ hb)
  · rcases mem_cons.1 hb with rfl | hb
    · exact ⟨⟨hsk, r, hr, hra⟩, hgo⟩
    · exact h.visited b hb
  · rcases mem_cons.1 hb with rfl | hb
    · exact .inr (mem_append_left _ (mem_reverse.2 hc))
    · exact hre c (h.closed b hb c hc hs)

/-- When the stack is empty, all that the roots reach has been seen. -/
lemma Searching.mem_seen (h : Searching skip goal next roots [] seen)
    (ha : Reached skip next roots a) : a ∈ seen := by
  obtain ⟨hsk, r, hr, hra⟩ := ha
  induction hra with
  | refl => exact (h.started r hr hsk).resolve_right not_mem_nil
  | @tail b c _ hbc ih => exact (h.closed b (ih hbc.1) c hbc.2 hsk).resolve_right not_mem_nil

lemma fuel_visit [DecidableEq α] {items : List α} (hmem : a ∈ items) (hse : a ∉ seen) :
    fuel next items ((next a).reverse ++ stack)
    (a :: seen) < fuel next items (a :: stack) seen := by
  have key : ((items.filter fun b => decide (b ∉ a :: seen)).map fun b => (next b).length).sum +
      (next a).length ≤
      ((items.filter fun b => decide (b ∉ seen)).map fun b => (next b).length).sum := by
    have hle : ∀ l : List α, ((l.filter fun b => decide (b ∉ a :: seen)).map
        fun b => (next b).length).sum ≤
        ((l.filter fun b => decide (b ∉ seen)).map fun b => (next b).length).sum := by
      intro l
      induction l with
      | nil => exact le_rfl
      | cons b l ih =>
        by_cases hb : b ∈ seen
        · rw [filter_cons_of_neg (by simp [hb]), filter_cons_of_neg (by simp [hb])]
          exact ih
        · rw [filter_cons_of_pos (p := fun b => decide (b ∉ seen)) (by simp [hb])]
          by_cases hba : b = a
          · rw [filter_cons_of_neg (by simp [hba])]
            exact ih.trans (Nat.le_add_left _ _)
          · rw [filter_cons_of_pos (by simp [hb, hba])]
            exact Nat.add_le_add_left ih _
    obtain ⟨l₁, l₂, rfl⟩ := append_of_mem hmem
    rw [filter_append, filter_append, filter_cons_of_neg (by simp),
      filter_cons_of_pos (by simpa using hse)]
    simp only [map_append, sum_append, map_cons, sum_cons]
    have h₁ := hle l₁
    have h₂ := hle l₂
    omega
  rw [fuel, fuel, length_append, length_reverse, length_cons]
  omega

lemma fuel_mono [DecidableEq α] {next' : α → List α} (h : ∀ a, (next a).length ≤ (next' a).length)
    (items stack seen : List α) :
    fuel next items stack seen ≤ fuel next' items stack seen :=
  Nat.add_le_add_left (sum_le_sum fun a _ => h a) _

lemma reads_iff (h : ∀ a, skip a = true → next a = []) {b : α} :
    Reads skip next a b ↔ b ∈ next a := by
  refine ⟨And.right, fun hb => ⟨?_, hb⟩⟩
  cases ha : skip a with
  | false => rfl
  | true =>
    rw [h a ha] at hb
    cases hb

/-- A search whose visits read `next` and keep the invariant ends, at a goal when the roots reach
one; otherwise it has seen what the roots reach. -/
lemma search_spec [DecidableEq α] (visit : σ → α → Option (σ × List α)) (I : σ → List α → Prop)
    (items : List α) {steps : ℕ} {s : σ}
    (hcl : ∀ a ∈ items, skip a = false → ∀ b ∈ next a, skip b = false → b ∈ items)
    (hvi : ∀ s seen a, I s seen → a ∈ items → skip a = false → a ∉ seen → goal a = false →
      ∃ s', visit s a = some (s', next a) ∧ I s' (a :: seen))
    (hinv : I s seen) (h : Searching skip goal next roots stack seen)
    (hsta : ∀ a ∈ stack, skip a = false → a ∈ items)
    (hst : fuel next items stack seen ≤ steps) :
    ∃ out, search skip goal visit steps s stack seen = some out ∧
    (out.found = true ↔ ∃ a, Reached skip next roots a ∧ goal a = true) ∧
      (out.found = false → I out.state out.seen ∧ ∀ a, a ∈ out.seen ↔ Reached skip next roots a) ∧
      ∃ seen, I out.state seen := by
  have hdo : ∀ {s seen}, I s seen → Searching skip goal next roots [] seen →
      ((false = true ↔ ∃ a, Reached skip next roots a ∧ goal a = true) ∧
        (false = false → I s seen ∧ ∀ a, a ∈ seen ↔ Reached skip next roots a) ∧
          ∃ seen, I s seen) := by
    intro s seen hinv h
    refine ⟨⟨fun hf => absurd hf Bool.false_ne_true, fun ⟨a, ha, hgo⟩ => ?_⟩,
      fun _ => ⟨hinv, fun a => ⟨fun ha => (h.visited a ha).1, h.mem_seen⟩⟩, seen, hinv⟩
    rwa [(h.visited a (h.mem_seen ha)).2] at hgo
  induction steps generalizing s stack seen with
  | zero =>
    obtain rfl : stack = [] := length_eq_zero_iff.1
      (Nat.le_zero.1 ((Nat.le_add_right _ _).trans hst))
    exact ⟨⟨s, seen, false⟩, rfl, hdo hinv h⟩
  | succ steps ih =>
    cases stack with
    | nil => exact ⟨⟨s, seen, false⟩, rfl, hdo hinv h⟩
    | cons a stack =>
      rw [search]
      have hr : ∀ b ∈ stack, skip b = false → b ∈ items := fun b hb => hsta b (.tail _ hb)
      cases hpa : skip a || decide (a ∈ seen) with
      | true =>
        rw [Bool.or_eq_true, decide_eq_true_eq] at hpa
        refine ih hinv (h.pass hpa) hr ?_
        rw [fuel, length_cons] at hst
        rw [fuel]
        omega
      | false =>
        rw [if_neg Bool.false_ne_true]
        obtain ⟨hsk, hse⟩ := Bool.or_eq_false_iff.1 hpa
        have hse := of_decide_eq_false hse
        have hmem := hsta a (.head _) hsk
        cases hgo : goal a with
        | true =>
          exact ⟨⟨s, a :: seen, true⟩, if_pos rfl,
            ⟨fun _ => ⟨a, ⟨hsk, h.reached a (.head _)⟩, hgo⟩, fun _ => rfl⟩,
            fun hf => absurd hf.symm Bool.false_ne_true, seen, hinv⟩
        | false =>
          obtain ⟨s', hvis, hin'⟩ := hvi s seen a hinv hmem hsk hse hgo
          rw [hvis]
          refine ih hin' (h.visit hsk hgo) (fun b hb hs => ?_)
            (Nat.le_of_lt_succ ((fuel_visit hmem hse).trans_le hst))
          rcases mem_append.1 hb with hb | hb
          · exact hcl a hmem hsk b (mem_reverse.1 hb) hs
          · exact hr b hb hs

end LiveHD.Worklist
