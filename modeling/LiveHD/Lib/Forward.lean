import Mathlib

/-!
# Forward passes

The nodes of a graph in topological order take their values one after the other, each
from the values before it.
-/

namespace LiveHD

open List

variable {ν γ : Type} (f : (ℕ → γ) → ν → γ) (d : γ)

/-- The values `init`, then those of the nodes. -/
def forward (init : List γ) (nodes : List ν) : List γ :=
  nodes.foldl (fun vals n => vals ++ [f (vals.getD · d) n]) init

variable {f d} {init : List γ} {nodes : List ν}

lemma forward_append (nodes more : List ν) :
    forward f d init (nodes ++ more) = forward f d (forward f d init nodes) more :=
  List.foldl_append

@[simp] lemma forward_singleton (n : ν) :
    forward f d init [n] = init ++ [f (init.getD · d) n] := rfl

@[simp] lemma length_forward : (forward f d init nodes).length = init.length + nodes.length := by
  induction nodes generalizing init with
  | nil => rfl
  | cons n nodes ih =>
    rw [forward, foldl_cons]
    have h : (forward f d (init ++ [f (init.getD · d) n]) nodes).length = _ := ih
    rw [forward] at h
    rw [h, length_append, length_singleton, length_cons]
    omega

lemma prefix_forward : init <+: forward f d init nodes := by
  induction nodes generalizing init with
  | nil => exact prefix_rfl
  | cons n nodes ih => exact (prefix_append init [f (init.getD · d) n]).trans ih

lemma getD_of_prefix {l m : List γ} (h : l <+: m) {i : ℕ} (hi : i < l.length) :
    m.getD i d = l.getD i d := by
  obtain ⟨t, rfl⟩ := h
  exact getD_append _ _ _ _ hi

/-- Further nodes leave the values as they are. -/
lemma getD_forward_append {more : List ν} {i : ℕ} (hi : i < init.length + nodes.length) :
    (forward f d init (nodes ++ more)).getD i d = (forward f d init nodes).getD i d := by
  rw [forward_append]
  exact getD_of_prefix prefix_forward (by rwa [length_forward])

lemma getD_forward_init {i : ℕ} (hi : i < init.length) :
    (forward f d init nodes).getD i d = init.getD i d :=
  getD_of_prefix prefix_forward hi

/-- Where a node reads older values only, its value is over the values of the whole pass. -/
lemma getD_forward {j : ℕ} {n : ν} (hn : nodes[j]? = some n)
    (hlo : ∀ val val' : ℕ → γ, (∀ i < init.length + j, val i = val' i) → f val n = f val' n) :
    (forward f d init nodes).getD (init.length + j) d = f
    ((forward f d init nodes).getD · d) n := by
  obtain ⟨pre, post, rfl, rfl⟩ : ∃ pre post, nodes = pre ++ [n] ++ post ∧ pre.length = j := by
    obtain ⟨hj, hget⟩ := List.getElem?_eq_some_iff.1 hn
    refine ⟨nodes.take j, nodes.drop (j + 1), ?_, length_take_of_le (Nat.le_of_lt hj)⟩
    rw [← hget, take_append_getElem hj, take_append_drop]
  have hpre : ∀ i < init.length + pre.length, (forward f d init (pre ++ [n] ++ post)).getD i d =
      (forward f d init pre).getD i d := by
    intro i hi
    rw [append_assoc]
    exact getD_forward_append hi
  have hla : init.length + pre.length < init.length + (pre ++ [n]).length := by
    rw [length_append]
    exact Nat.lt_succ_self _
  rw [hlo _ _ hpre, getD_forward_append hla, forward_append, forward_singleton,
    getD_append_right _ _ _ _ (Nat.le_of_eq length_forward), length_forward,
      Nat.sub_self, getD_cons_zero]

end LiveHD
