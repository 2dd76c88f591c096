import LiveHD.Sim.LoopFusion
import LiveHD.Lib.Topological

/-!
# The bits of the ancestors

The rows of the ancestor words, one for each node: a bit set in a row is seen in that row only,
and a row merged into another adds its bits.
-/

namespace LiveHD.Sim.Fuse

open Function List BitVec

variable {g : Graph}

lemma and_shiftLeft_one_ne_zero (x : BitVec 64) {k : ℕ} (hk : k < 64) :
    (x &&& (1#64 <<< k) != 0#64) = x.getLsbD k := by
  have hbit : ∀ i < 64, (x &&& (1#64 <<< k)).getLsbD i = (x.getLsbD i && decide (i = k)) := by
    intro i hi
    rw [getLsbD_and, getLsbD_shiftLeft, getLsbD_one]
    grind
  cases hx : x.getLsbD k with
  | true =>
    refine bne_iff_ne.2 fun h => ?_
    have := hbit k hk
    rw [h, hx, BitVec.getLsbD_zero] at this
    simp at this
  | false =>
    rw [bne_eq_false_iff_eq]
    refine eq_of_getLsbD_eq fun i hi => ?_
    rw [hbit i hi, BitVec.getLsbD_zero]
    by_cases hik : i = k
    · rw [hik, hx, Bool.false_and]
    · rw [decide_eq_false hik, Bool.and_false]

lemma testAncestor_eq (a : ℕ → BitVec 64) (id bit : ℕ) :
    testAncestor g a id bit = (a (id * words g + bit / 64)).getLsbD (bit % 64) :=
  and_shiftLeft_one_ne_zero _ (Nat.mod_lt _ (by omega))

/-- The words of different rows are different. -/
lemma row_inj {W x y i j : ℕ} (hi : i < W) (hj : j < W)
    (h : x * W + i = y * W + j) : x = y ∧ i = j := by
  have hW := (Nat.zero_le i).trans_lt hi
  have hx : (x * W + i) / W = x := by
    rw [add_comm, Nat.add_mul_div_right _ _ hW, Nat.div_eq_of_lt hi, zero_add]
  have hy : (y * W + j) / W = y := by
    rw [add_comm, Nat.add_mul_div_right _ _ hW, Nat.div_eq_of_lt hj, zero_add]
  have hxy : x = y := by rw [← hx, h, hy]
  subst hxy
  exact ⟨rfl, Nat.add_left_cancel h⟩

lemma testAncestor_set (a : ℕ → BitVec 64) (id : ℕ) {b bit : ℕ} (hb : b / 64 < words g)
    (hbit : bit / 64 < words g) (x : ℕ) :
    testAncestor g (Function.update a (id * words g + b / 64)
      (a (id * words g + b / 64) ||| 1#64 <<< (b % 64))) x bit =
      (testAncestor g a x bit || (decide (x = id) && decide (bit = b))) := by
  rw [testAncestor_eq, testAncestor_eq, update_apply]
  split
  next h =>
    obtain ⟨rfl, hw⟩ := row_inj hbit hb h
    rw [h, getLsbD_or, getLsbD_shiftLeft, getLsbD_one]
    have hdiv := Nat.div_add_mod bit 64
    have hdi' := Nat.div_add_mod b 64
    have hmod : bit % 64 < 64 := Nat.mod_lt _ (by omega)
    have : bit = b ↔ bit % 64 = b % 64 := by omega
    simp only [decide_true, Bool.true_and, this]
    congr 1
    grind
  next h =>
    have : ¬(x = id ∧ bit = b) := by
      rintro ⟨rfl, rfl⟩
      exact h rfl
    rw [← Bool.decide_and, decide_eq_false this, Bool.or_false]

/-- The row of a sink after the first `n` words of a producer's row are merged into it. -/
lemma merge_apply {W id sink : ℕ} (hne : sink ≠ id) (a : ℕ → BitVec 64) {n : ℕ} (hn : n ≤ W)
    (x : ℕ) {w : ℕ} (hw : w < W) :
    (List.range n).foldl (fun (a : ℕ → BitVec 64) word =>
        Function.update a (sink * W + word)
          (a (sink * W + word) ||| a (id * W + word))) a (x * W + w) =
      if x = sink ∧ w < n then a (x * W + w) ||| a (id * W + w) else a (x * W + w) := by
  induction n generalizing x w with
  | zero => rw [if_neg fun h => absurd h.2 (Nat.not_lt_zero _)]; rfl
  | succ n ih =>
    have hn' : n < W := hn
    rw [range_succ, List.foldl_append, foldl_cons, foldl_nil, update_apply]
    split
    next h =>
      obtain ⟨rfl, rfl⟩ := row_inj hw hn' h
      rw [ih hn'.le x hw, ih hn'.le id hw, if_neg fun h => absurd h.2 (lt_irrefl _),
        if_neg fun h => hne h.1.symm,
        if_pos ⟨rfl, Nat.lt_succ_self _⟩]
    next h =>
      rw [ih hn'.le x hw]
      refine if_congr (and_congr_right fun hx => ?_) rfl rfl
      subst hx
      have : w ≠ n := fun hwn => h (by rw [hwn])
      omega

lemma testAncestor_release {id sink : ℕ} (hne : sink ≠ id) (s : Visit) {bit : ℕ}
    (hbit : bit / 64 < words g) (x : ℕ) :
    testAncestor g (release g id s sink).ancestors x bit =
      (testAncestor g s.ancestors x bit ||
        (decide (x = sink) && testAncestor g s.ancestors id bit)) := by
  rw [testAncestor_eq, testAncestor_eq, testAncestor_eq]
  change ((List.range (words g)).foldl _ s.ancestors (x * words g + bit / 64)).getLsbD _ = _
  rw [merge_apply hne _ le_rfl x hbit]
  split
  next h => rw [getLsbD_or, decide_eq_true h.1, Bool.true_and]
  next h => rw [decide_eq_false fun hx => h ⟨hx, hbit⟩, Bool.false_and, Bool.or_false]

lemma testAncestor_releases {id : ℕ} {sinks : List ℕ} (hid : id ∉ sinks) (s : Visit) {bit : ℕ}
    (hbit : bit / 64 < words g) (x : ℕ) :
    testAncestor g (sinks.foldl (release g id) s).ancestors x bit =
      (testAncestor g s.ancestors x bit ||
        (decide (x ∈ sinks) && testAncestor g s.ancestors id bit)) := by
  induction sinks generalizing s with
  | nil => simp
  | cons sink sinks ih =>
    obtain ⟨hne, hid⟩ := ne_and_not_mem_of_not_mem_cons hid
    rw [foldl_cons, ih hid, testAncestor_release hne.symm s hbit x,
      testAncestor_release hne.symm s hbit id,
      decide_eq_false hne, Bool.false_and, Bool.or_false,
        Bool.or_assoc, ← Bool.and_or_distrib_right, ← Bool.decide_or]
    simp only [mem_cons]

/-! ## The queue -/

@[simp] lemma release_visited (id : ℕ) (s : Visit) (sink : ℕ) :
    (release g id s sink).visited = s.visited := rfl

/-- The successors of a node are counted down, and those that reach zero are ready. -/
lemma releases_queue (id : ℕ) (sinks : List ℕ) (s : Visit) (hc : ∀ x, sinks.count x ≤ s.indegree x)
    (hre : ∀ x ∈ sinks, x ∉ s.ready) (hnd : s.ready.Nodup) :
    let t := sinks.foldl (release g id) s
    (∀ x, t.indegree x = s.indegree x - sinks.count x) ∧
      (∀ x, x ∈ t.ready ↔ x ∈ s.ready ∨ x ∈ sinks ∧ s.indegree x = sinks.count x) ∧
      t.ready.Nodup := by
  induction sinks generalizing s with
  | nil => simp [hnd]
  | cons sink sinks ih =>
    have hsi : sinks.count sink + 1 ≤ s.indegree sink := by
      rw [← count_cons_self (a := sink)]
      exact hc sink
    have hin : ∀ x, (release g id s sink).indegree x = s.indegree x - if x = sink then 1
        else 0 := by
      intro x
      change Function.update s.indegree sink (s.indegree sink - 1) x = _
      rw [update_apply]
      split
      next h => rw [h]
      next => rfl
    have hco : ∀ x, (sink :: sinks).count x = sinks.count x + if x = sink then 1 else 0 := by
      intro x
      rw [count_cons]
      exact congrArg _ (if_congr (beq_iff_eq.trans eq_comm) rfl rfl)
    have hmem : ∀ x, x ∈ (release g id s sink).ready ↔
        x ∈ s.ready ∨ x = sink ∧ s.indegree sink = 1 := by
      intro x
      change x ∈ (if Function.update s.indegree sink (s.indegree sink - 1) sink = 0 then
        s.ready.orderedInsert (· ≤ ·) sink
        else s.ready) ↔ _
      rw [update_self]
      split
      next h =>
        rw [mem_orderedInsert]
        have : s.indegree sink = 1 := by omega
        tauto
      next h =>
        have : s.indegree sink ≠ 1 := by omega
        tauto
    have hc' : ∀ x, sinks.count x ≤ (release g id s sink).indegree x := by
      intro x
      rw [hin x]
      have := hc x
      rw [hco] at this
      omega
    have hr' : ∀ x ∈ sinks, x ∉ (release g id s sink).ready := by
      intro x hx hxr
      rcases (hmem x).1 hxr with hxr | ⟨rfl, hone⟩
      · exact hre x (.tail _ hx) hxr
      · have := count_pos_iff.2 hx
        omega
    have hnd' : (release g id s sink).ready.Nodup := by
      change (if _ = 0 then s.ready.orderedInsert (· ≤ ·) sink else s.ready).Nodup
      split
      · exact (perm_orderedInsert _ _ _).nodup_iff.2 (nodup_cons.2 ⟨hre sink (.head _), hnd⟩)
      · exact hnd
    obtain ⟨hi, hr, hn⟩ := ih (release g id s sink) hc' hr' hnd'
    refine ⟨fun x => ?_, fun x => ?_, hn⟩
    · rw [foldl_cons, hi x, hin x, hco x, Nat.sub_sub, add_comm (ite _ _ _)]
    · rw [foldl_cons, hr x, hmem x, hin x, hco x, mem_cons]
      have := hc x
      rw [hco x] at this
      by_cases hx : x = sink
      · rw [if_pos hx] at this ⊢
        have h0 : x ∉ sinks → sinks.count x = 0 := count_eq_zero.2
        have hpos : x ∈ sinks → 0 < sinks.count x := count_pos_iff.2
        rw [← hx]
        constructor
        · rintro ((h | ⟨-, h⟩) | ⟨hxs, h⟩)
          · exact .inl h
          · exact .inr ⟨.inl rfl, by omega⟩
          · exact .inr ⟨.inl rfl, by omega⟩
        · rintro (h | ⟨-, h⟩)
          · exact .inl (.inl h)
          · by_cases hxs : x ∈ sinks
            · exact .inr ⟨hxs, by omega⟩
            · have := h0 hxs
              exact .inl (.inr ⟨rfl, by omega⟩)
      · rw [if_neg hx, add_zero, Nat.sub_zero]
        simp only [hx, false_or, false_and, or_false]

end LiveHD.Sim.Fuse
