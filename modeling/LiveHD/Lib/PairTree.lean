import Mathlib

/-!
# Balanced reduction

Neighbours are combined in rounds until at most one value is left.  Under any reading that turns the
combination into an associative operation, the result reads as the plain fold.
-/

namespace LiveHD.PairTree

universe u v

variable {α : Type u} {β : Type v} (f : α → α → α)

/-- One round; an odd last value is kept. -/
def halve : List α → List α
  | x :: y :: l => f x y :: halve l
  | l => l

lemma length_halve_le (l : List α) : (halve f l).length ≤ l.length := by
  induction l using halve.induct with
  | case1 x y l ih => exact Nat.succ_le_succ (Nat.le_trans ih (Nat.le_succ _))
  | case2 l h =>
    have heq : halve f l = l := by
      rw [halve]
      exact h
    exact Nat.le_of_eq (congrArg List.length heq)

lemma length_halve_lt {l : List α} (h : 1 < l.length) : (halve f l).length < l.length := by
  match l, h with
  | x :: y :: l, _ => exact Nat.succ_lt_succ (Nat.lt_succ_of_le (length_halve_le f l))

/-- `while (level.size() > 1)`. -/
def reduce (l : List α) : List α := if 1 < l.length then reduce (halve f l) else l
termination_by l.length
decreasing_by exact length_halve_lt f ‹_›

variable {f} {h : α → β} {g : β → β → β} (hf : ∀ x y, h (f x y) = g (h x) (h y))
  (hassoc : ∀ a b c, g (g a b) c = g a (g b c)) {e : β}

include hf hassoc

lemma foldr_halve (l : List α) : ((halve f l).map h).foldr g e = (l.map h).foldr g e := by
  induction l using halve.induct with
  | case1 x y l ih => simp only [halve, List.map_cons, List.foldr_cons, ih, hf, hassoc]
  | case2 l hl => rw [halve]; exact hl

lemma reduce_headD (he : ∀ b, g b e = b) {d : α} (hd : h d = e) (l : List α) :
    h ((reduce f l).headD d) = (l.map h).foldr g e := by
  induction l using reduce.induct f with
  | case1 l hl ih => rw [reduce, if_pos hl, ih, foldr_halve hf hassoc]
  | case2 l hl =>
    rw [reduce]
    match l, Nat.le_of_not_lt hl with
    | [], _ => exact hd
    | [x], _ => exact (he (h x)).symm

omit hf hassoc

/-- A balanced conjunction. -/
lemma reduce_all {h : α → Bool} (hf : ∀ x y, h (f x y) = (h x && h y)) {d : α}
    (hd : h d = true) (l : List α) :
    h ((reduce f l).headD d) = l.all h := by
  rw [reduce_headD hf Bool.and_assoc Bool.and_true hd, List.foldr_map]
  induction l with
  | nil => rfl
  | cons x l ih => rw [List.foldr_cons, ih, List.all_cons]

/-- A balanced disjunction. -/
lemma reduce_any {h : α → Bool} (hf : ∀ x y, h (f x y) = (h x || h y)) {d : α}
    (hd : h d = false) (l : List α) :
    h ((reduce f l).headD d) = l.any h := by
  rw [reduce_headD hf Bool.or_assoc Bool.or_false hd, List.foldr_map]
  induction l with
  | nil => rfl
  | cons x l ih => rw [List.foldr_cons, ih, List.any_cons]

end LiveHD.PairTree
