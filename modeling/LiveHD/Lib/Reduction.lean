import Mathlib

/-!
# Reductions

A list combined by an associative operator: the bracketing does not matter, and for an operator that
is also commutative and idempotent neither do order and repetition.
-/

namespace LiveHD

open List

variable {α : Type*}

/-- A way to bracket a combination. -/
inductive Bracketing (α : Type*) where
  | leaf (a : α)
  | node (l r : Bracketing α)

namespace Bracketing

def leaves : Bracketing α → List α
  | leaf a => [a]
  | node l r => l.leaves ++ r.leaves

def eval (f : α → α → α) : Bracketing α → α
  | leaf a => a
  | node l r => f (l.eval f) (r.eval f)

lemma leaves_ne_nil (t : Bracketing α) : t.leaves ≠ [] := by
  cases t with
  | leaf a => exact cons_ne_nil _ _
  | node l r =>
    intro h
    exact l.leaves_ne_nil (append_eq_nil_iff.1 h).1

/-- Every bracketing of the same leaves has the same value. -/
lemma eval_eq_foldl (f : α → α → α) [Std.Associative f] (t : Bracketing α) {a : α} {l : List α}
    (h : t.leaves = a :: l) :
    t.eval f = l.foldl f a := by
  induction t generalizing a l with
  | leaf b =>
    cases h
    rfl
  | node x y ihx ihy =>
    obtain ⟨b, m, hx⟩ := exists_cons_of_ne_nil x.leaves_ne_nil
    obtain ⟨c, k, hy⟩ := exists_cons_of_ne_nil y.leaves_ne_nil
    rw [leaves, hx, hy, cons_append] at h
    cases h
    rw [eval, ihx hx, ihy hy, List.foldl_append, foldl_cons, foldl_assoc]

end Bracketing

section

variable (f : α → α → α) [Std.Commutative f] [Std.Associative f]

lemma foldl_op_comm (l : List α) (a b : α) : l.foldl f (f a b) = f (l.foldl f a) b := by
  induction l generalizing a with
  | nil => rfl
  | cons c l ih =>
    have hass : ∀ x y z, f (f x y) z = f x (f y z) := Std.Associative.assoc
    have hco : f b c = f c b := Std.Commutative.comm b c
    have hsw : f (f a b) c = f (f a c) b := by rw [hass, hco, ← hass]
    rw [foldl_cons, foldl_cons, hsw, ih]

lemma foldl_foldl_comm (l m : List α) (a : α) :
    l.foldl f (m.foldl f a) = m.foldl f (l.foldl f a) := by
  induction m generalizing a with
  | nil => rfl
  | cons b m ih => rw [foldl_cons, foldl_cons, ih, foldl_op_comm f l a b]

variable [Std.IdempotentOp f]

/-- What has been combined is absorbed. -/
lemma foldl_absorb {l m : List α} (h : ∀ x ∈ m, x ∈ l) (a : α) :
    m.foldl f (l.foldl f a) = l.foldl f a := by
  induction m with
  | nil => rfl
  | cons b m ih =>
    have hb : f (l.foldl f a) b = l.foldl f a := by
      obtain ⟨l₁, l₂, rfl⟩ := append_of_mem (h b (.head _))
      have hass : ∀ x, f (f x b) b = f x (f b b) := fun x => Std.Associative.assoc x b b
      have hid : f b b = b := Std.IdempotentOp.idempotent b
      rw [List.foldl_append, foldl_cons, foldl_op_comm f l₂, hass, hid]
    rw [foldl_cons, hb]
    exact ih fun x hx => h x (.tail _ hx)

/-- Only the members count. -/
lemma foldl_eq_of_mem_iff {l m : List α} (h : ∀ x, x ∈ l ↔ x ∈ m) (a : α) :
    l.foldl f a = m.foldl f a := by
  rw [← foldl_absorb f (fun x hx => (h x).1 hx) a, foldl_foldl_comm,
    foldl_absorb f fun x hx => (h x).2 hx]

/-- Neither the bracketing nor repetition counts. -/
lemma Bracketing.eval_eq_of_mem_iff (t : Bracketing α) {a : α} {l : List α}
    (h : ∀ x, x ∈ t.leaves ↔ x ∈ a :: l) : t.eval f = l.foldl f a := by
  obtain ⟨b, m, ht⟩ := exists_cons_of_ne_nil t.leaves_ne_nil
  rw [ht] at h
  have hid : ∀ x, f x x = x := Std.IdempotentOp.idempotent
  have hse : ∀ x (k : List α), k.foldl f x = (x :: k).foldl f x :=
    fun x k => by rw [foldl_cons, hid]
  calc t.eval f = m.foldl f b := t.eval_eq_foldl f ht
    _ = (b :: m).foldl f b := hse b m
    _ = (a :: l).foldl f b := foldl_eq_of_mem_iff f h b
    _ = (b :: l).foldl f a := by
      have hco : f b a = f a b := Std.Commutative.comm b a
      rw [foldl_cons, foldl_cons, hco]
    _ = (a :: b :: l).foldl f a := hse a (b :: l)
    _ = (a :: l).foldl f a := by
      have hb := (h b).1 (.head _)
      refine foldl_eq_of_mem_iff f (fun x => ⟨fun hx => ?_, fun hx => ?_⟩) a
      · rcases mem_cons.1 hx with rfl | hx
        · exact .head _
        · exact (mem_cons.1 hx).elim (fun heq => heq ▸ hb) (mem_cons_of_mem a)
      · exact (mem_cons.1 hx).elim (fun heq => heq ▸ (.head _)) fun hx =>
          mem_cons_of_mem a (mem_cons_of_mem b hx)
    _ = l.foldl f a := (hse a l).symm

end

end LiveHD
