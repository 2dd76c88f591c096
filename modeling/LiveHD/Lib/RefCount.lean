import Mathlib

/-!
# Reference counts

A node is counted once for each edge from a node with a positive count and once for each anchor
outside; the cost is the weight of the nodes with a positive count.  `Exact` accounts for the
changes that are still to be made.
-/

namespace LiveHD.RefCount

open Finset

variable {size : ℕ} {reads : ℕ → ℕ → ℕ} {weight : ℕ → ℕ} {refs : ℕ → ℕ}

/-- The sum over the nodes with a positive count. -/
def counted (size : ℕ) (refs f : ℕ → ℕ) : ℕ :=
  ∑ m ∈ Finset.range size, if refs m = 0 then 0 else f m

lemma counted_update {id : ℕ} (hid : id < size) (v : ℕ) (f : ℕ → ℕ) :
    counted size (Function.update refs id v) f + (if refs id = 0 then 0 else f id) =
      counted size refs f + if v = 0 then 0 else f id := by
  have hmem := mem_range.2 hid
  rw [counted, counted, ← add_sum_erase _ _ hmem, ← add_sum_erase _
    (fun m => if refs m = 0 then 0 else f m) hmem, Function.update_self]
  have hr : ∑ m ∈ (Finset.range size).erase id,
      (if Function.update refs id v m = 0 then 0 else f m) =
      ∑ m ∈ (Finset.range size).erase id, if refs m = 0 then 0 else f m := by
    refine sum_congr rfl fun m hm => ?_
    rw [Function.update_of_ne (ne_of_mem_erase hm)]
  rw [hr, Nat.add_right_comm, Nat.add_comm _ (if refs id = 0 then 0 else f id),
    Nat.add_assoc, Nat.add_assoc]
  exact congrArg _ (Nat.add_comm _ _)

lemma counted_grow {size' : ℕ} (hle : size ≤ size') {f f' : ℕ → ℕ} (hf : ∀ m < size, f' m = f m)
    (hnew : ∀ m, size ≤ m → refs m = 0) :
    counted size' refs f' = counted size refs f := by
  have hsub := range_subset_range.2 hle
  rw [counted, ← sum_subset hsub fun m _ hm => ?_]
  · refine sum_congr rfl fun m hm => ?_
    rw [hf m (mem_range.1 hm)]
  · rw [hnew m (Nat.le_of_not_lt fun hlt => hm (mem_range.2 hlt)), if_pos rfl]

lemma le_counted {m : ℕ} (hm : m < size) (hpos : refs m ≠ 0) (f : ℕ → ℕ) :
    f m ≤ counted size refs f := by
  refine le_trans ?_ (single_le_sum (f := fun m => if refs m = 0 then 0 else f m)
    (fun _ _ => Nat.zero_le _) (mem_range.2 hm))
  exact (if_neg hpos).ge

/-- Different nodes with positive counts. -/
lemma sum_le_counted {l : List ℕ} (hnd : l.Nodup)
    (hl : ∀ m ∈ l, m < size ∧ refs m ≠ 0) (f : ℕ → ℕ) :
    (l.map f).sum ≤ counted size refs f := by
  rw [← List.sum_toFinset f hnd]
  have hsub : l.toFinset ⊆ Finset.range size := fun m hm =>
    mem_range.2 (hl m (List.mem_toFinset.1 hm)).1
  refine le_trans (le_of_eq ?_) (sum_le_sum_of_subset hsub)
  refine sum_congr rfl fun m hm => ?_
  rw [if_neg (hl m (List.mem_toFinset.1 hm)).2]

/-- Counts that are right up to changes that are still to be made. -/
structure Exact (size : ℕ) (reads : ℕ → ℕ → ℕ) (weight : ℕ → ℕ) (anchors due : ℕ → ℤ)
    (refs : ℕ → ℕ) (cost : ℕ) : Prop where
  count : ∀ n, (refs n : ℤ) + due n = counted size refs (reads · n) + anchors n
  price : cost = counted size refs weight

namespace Exact

variable {anchors due : ℕ → ℤ} {cost : ℕ}

section

variable (h : Exact size reads weight anchors due refs cost)
include h

/-- One change; a node that comes to life or dies passes it on to what it reads. -/
lemma step {id v cost' : ℕ} (hid : id < size) {delta : ℤ} (hv : (v : ℤ) = refs id + delta)
    (hco : cost' + (if refs id = 0 then 0 else weight id) = cost + if v = 0 then 0 else weight id) :
    Exact size reads weight anchors (fun n => due n - (if n = id then delta else 0) +
      ((if v = 0 then 0 else reads id n) - (if refs id = 0 then 0 else reads id n)))
      (Function.update refs id v) cost' where
  count n := by
    have hrd := congrArg (Nat.cast : ℕ → ℤ) (@counted_update _ refs _ hid v (reads · n))
    have hc := h.count n
    push_cast at hrd ⊢
    rcases eq_or_ne n id with rfl | hne
    · rw [Function.update_self, if_pos rfl]
      linarith
    · rw [Function.update_of_ne hne, if_neg hne]
      linarith
  price := by
    have hwe := @counted_update _ refs _ hid v weight
    have hpr := h.price
    omega

/-- A change that is asked for. -/
lemma ask (f : ℕ → ℤ) : Exact size reads weight (fun n => anchors n + f n)
    (fun n => due n + f n) refs cost where
  count n := by
    have hc := h.count n
    linarith
  price := h.price

lemma grow {size' : ℕ} (hle : size ≤ size') {reads' : ℕ → ℕ → ℕ}
    {weight' : ℕ → ℕ} (hrd : ∀ m < size, reads' m = reads m)
    (hwe : ∀ m < size, weight' m = weight m)
    (hnew : ∀ m, size ≤ m → refs m = 0) : Exact size' reads' weight' anchors due refs cost where
  count n := by
    rw [counted_grow hle (fun m hm => congrFun (hrd m hm) n) hnew]
    exact h.count n
  price := by rw [counted_grow hle hwe hnew, h.price]

lemma congr {anchors' due' : ℕ → ℤ} (han : ∀ n, anchors n = anchors' n)
    (hdue : ∀ n, due n = due' n) : Exact size reads weight anchors' due' refs cost where
  count n := by
    rw [← han n, ← hdue n]
    exact h.count n
  price := h.price

end

variable (h : Exact size reads weight anchors (fun _ => 0) refs cost)

include h

/-- An anchored node is counted. -/
lemma pos_of_anchor {n : ℕ} (hn : 0 < anchors n) : refs n ≠ 0 := by
  have hc := h.count n
  omega

/-- What a counted node reads is counted. -/
lemma pos_of_reads (han : ∀ n, 0 ≤ anchors n) {m n : ℕ} (hm : m < size) (hpos : refs m ≠ 0)
    (hrd : reads m n ≠ 0) : refs n ≠ 0 := by
  have hc := h.count n
  have hle := le_counted hm hpos (reads · n)
  have hanc := han n
  omega

section

variable (han : ∀ n, 0 ≤ anchors n) (hrd : ∀ m < size, ∀ n, reads m n ≠ 0 → n < m) {anchors' : ℕ →
  ℤ} {refs' : ℕ → ℕ} {cost' r : ℕ} (h' : Exact size reads weight anchors' (fun _ => 0) refs' cost')
  (hold : ∀ n, n ≠ r → 0 < anchors' n → 0 < anchors n) (hr : ∀ n, reads r n ≠ 0 → refs n ≠ 0)
include han hrd h' hold hr

/-- New anchors on one node only bring that node to life, where what it reads is alive. -/
lemma alive_of_alive : ∀ m, refs' m ≠ 0 → refs m ≠ 0 ∨ m = r := by
  intro m
  -- readers are younger, so the argument goes from the youngest node down
  induction hk : size - m using Nat.strong_induction_on generalizing m with
  | _ k ih =>
    intro hm
    by_cases hmr : m = r
    · exact .inr hmr
    refine .inl ?_
    have hc := h'.count m
    by_cases hanc : 0 < anchors' m
    · exact h.pos_of_anchor (hold m hmr hanc)
    have hpos : counted size refs' (reads · m) ≠ 0 := by omega
    obtain ⟨x, hx, hne⟩ := exists_ne_zero_of_sum_ne_zero hpos
    have hxs := mem_range.1 hx
    rw [ne_eq, ite_eq_left_iff, not_forall] at hne
    obtain ⟨hxp, hxr⟩ := hne
    have hlt := hrd x hxs m hxr
    rcases ih (size - x) (by omega) x rfl hxp with hx | rfl
    · exact h.pos_of_reads han hxs hx hxr
    · exact hr m hxr

lemma cost_le : cost' ≤ cost + if refs r = 0 then weight r else 0 := by
  have hal := h.alive_of_alive han hrd h' hold hr
  rw [h.price, h'.price, counted, counted]
  by_cases hsz : r < size
  · rw [← add_sum_erase _ _ (mem_range.2 hsz), ← add_sum_erase _
      (fun m => if refs m = 0 then 0 else weight m) (mem_range.2 hsz)]
    have hre : ∑ m ∈ (Finset.range size).erase r, (if refs' m = 0 then 0 else weight m) ≤
        ∑ m ∈ (Finset.range size).erase r, if refs m = 0 then 0 else weight m := by
      refine sum_le_sum fun m hm => ?_
      split
      · exact Nat.zero_le _
      next hm' => rw [if_neg ((hal m hm').resolve_right (ne_of_mem_erase hm))]
    have htop : (if refs' r = 0 then 0 else weight r) ≤
        (if refs r = 0 then 0 else weight r) + if refs r = 0 then weight r else 0 := by
      split <;> split <;> omega
    omega
  · refine le_trans (sum_le_sum fun m hm => ?_) (Nat.le_add_right _ _)
    split
    · exact Nat.zero_le _
    next hm' => rw [if_neg ((hal m hm').resolve_right fun heq => hsz (heq ▸ mem_range.1 hm))]

end

end Exact

end LiveHD.RefCount
