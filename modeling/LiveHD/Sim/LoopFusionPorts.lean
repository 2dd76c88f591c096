import LiveHD.Sim.LoopFusion
import LiveHD.Lib.Lists

/-!
# The ports of the fused body

Where a member's port goes: each port of a member's own has a port of the fused body to itself,
of the same width, and every index port goes to the shared one, which is as wide as each of them.
-/

namespace LiveHD.Sim

open List

namespace GraphIo

variable {io : GraphIo} {p : ℕ} {d : PortDecl}

lemma input?_eq_some_iff : io.input? p = some d ↔
    d ∈ io.inputs ∧ d.port = p := find?_map_eq_some io.inputs_nodup

lemma output?_eq_some_iff : io.output? p = some d ↔
    d ∈ io.outputs ∧ d.port = p := find?_map_eq_some io.outputs_nodup

lemma isSome_output? (h : d ∈ io.outputs) : (io.output? d.port).isSome := by
  rw [output?_eq_some_iff.2 ⟨h, rfl⟩]
  rfl

lemma fitInputs_of_mem (h : d ∈ io.inputs) (raw : ℕ → ℤ) :
    io.fitInputs raw d.port = d.fit (raw d.port) := by
  rw [fitInputs, input?_eq_some_iff.2 ⟨h, rfl⟩]
  rfl

lemma fitOutputs_of_mem (h : d ∈ io.outputs) (raw : ℕ → ℤ) :
    io.fitOutputs raw d.port = d.fit (raw d.port) := by
  rw [fitOutputs, output?_eq_some_iff.2 ⟨h, rfl⟩]
  rfl

lemma fitInputs_congr {raw raw' : ℕ → ℤ}
    (h : ∀ d ∈ io.inputs, d.fit (raw d.port) = d.fit (raw' d.port)) :
    io.fitInputs raw = io.fitInputs raw' := by
  funext p
  rw [fitInputs, fitInputs]
  cases hp : io.input? p with
  | none => rfl
  | some d =>
    obtain ⟨hd, rfl⟩ := input?_eq_some_iff.1 hp
    exact h d hd

end GraphIo

/-! ## A member -/

namespace Member

variable {m : Member} {d : PortDecl}

lemma mem_ownInputs : d ∈ m.ownInputs ↔ d ∈ m.io.inputs ∧ m.isIndex d.port = false := by
  rw [ownInputs, mem_filter, Bool.not_eq_true']

lemma mem_indexPorts : d ∈ m.indexPorts ↔ d ∈ m.io.inputs ∧ m.isIndex d.port = true := mem_filter

lemma keys_zipIdx (l : List PortDecl) (n : ℕ) :
    ((l.zipIdx n).map fun x => (x.1.port, x.2)).map (·.1) = l.map (·.port) := by
  have hfst : (l.zipIdx n).map (PortDecl.port ∘ Prod.fst) = l.map (·.port) := by
    rw [← List.map_map, zipIdx_map_fst]
  rwa [List.map_map]

lemma nodup_inputs_mapPorts (m : Member) (next : ℕ) :
    ((m.mapPorts next).inputs.map (·.1)).Nodup := by
  have hpe : (m.indexPorts ++ m.ownInputs).Perm m.io.inputs := filter_append_perm _ _
  have hke : (m.mapPorts next).inputs.map (·.1) = (m.indexPorts ++ m.ownInputs).map (·.port) := by
    rw [mapPorts, map_append, keys_zipIdx, List.map_map, map_append]
    rfl
  rw [hke]
  exact (hpe.map (·.port)).nodup_iff.2 m.io.inputs_nodup

lemma nodup_outputs_mapPorts (m : Member) (next : ℕ) :
    ((m.mapPorts next).outputs.map (·.1)).Nodup := by
  rw [mapPorts, keys_zipIdx]
  exact m.io.outputs_nodup

lemma input_mapPorts_of_mem {next p q : ℕ} (h : (p, q) ∈ (m.mapPorts next).inputs) :
    (m.mapPorts next).input p = q := by
  rw [Ports.input, (find?_key_eq_some (m.nodup_inputs_mapPorts next)).2 ⟨h, rfl⟩]
  rfl

lemma output_mapPorts_of_mem {next p q : ℕ} (h : (p, q) ∈ (m.mapPorts next).outputs) :
    (m.mapPorts next).output p = q := by
  rw [Ports.output, (find?_key_eq_some (m.nodup_outputs_mapPorts next)).2 ⟨h, rfl⟩]
  rfl

lemma input_index (h : d ∈ m.indexPorts) (next : ℕ) : (m.mapPorts next).input d.port = 0 :=
  input_mapPorts_of_mem (mem_append_left _
    (mem_map_of_mem (f := fun d : PortDecl => (d.port, 0)) h))

/-- A port of its own is numbered by its place. -/
lemma input_own {next k : ℕ} (h : (d, k) ∈ m.ownInputs.zipIdx next) :
    (m.mapPorts next).input d.port = k :=
  input_mapPorts_of_mem (mem_append_right _
    (mem_map_of_mem (f := fun x : PortDecl × ℕ => (x.1.port, x.2)) h))

lemma output_own {next k : ℕ} (h : (d, k) ∈ m.io.outputs.zipIdx (next + m.ownInputs.length)) :
    (m.mapPorts next).output d.port = k :=
  output_mapPorts_of_mem (mem_map_of_mem (f := fun x : PortDecl × ℕ => (x.1.port, x.2)) h)

end Member

/-- The place of an element of a list numbered from `n`. -/
lemma exists_mem_zipIdx {α : Type*} {l : List α} {a : α} (h : a ∈ l) (n : ℕ) :
    ∃ k, (a, k) ∈ l.zipIdx n ∧ n ≤ k ∧ k < n + l.length := by
  obtain ⟨i, hi, rfl⟩ := getElem_of_mem h
  refine ⟨n + i, ?_, Nat.le_add_right _ _, Nat.add_lt_add_left hi n⟩
  rw [mk_add_mem_zipIdx_iff_getElem?]
  exact getElem?_eq_getElem hi

lemma eq_of_mem_zipIdx {α : Type*} {l : List α} {a b : α} {n k : ℕ} (ha : (a, k) ∈ l.zipIdx n)
    (hb : (b, k) ∈ l.zipIdx n) : a = b := by
  obtain ⟨-, ha⟩ := mk_mem_zipIdx_iff_le_and_getElem?_sub.1 ha
  obtain ⟨-, hb⟩ := mk_mem_zipIdx_iff_le_and_getElem?_sub.1 hb
  exact Option.some.inj (ha.symm.trans hb)

/-! ## The members together -/

namespace Fuse

@[simp] lemma widen_port (x : PortDecl × ℕ) : (widen x).port = x.2 := rfl

variable {ms : List Member} {next : ℕ} {x y : Member × Ports} {d e : PortDecl}

lemma map_fst_parts (next : ℕ) (ms : List Member) : (parts next ms).map (·.1) = ms := by
  induction ms generalizing next with
  | nil => rfl
  | cons m ms ih => exact congrArg (m :: ·) (ih _)

lemma exists_mapPorts (h : x ∈ parts next ms) : ∃ n, x.2 = x.1.mapPorts n := by
  induction ms generalizing next with
  | nil => cases h
  | cons m ms ih =>
    rcases mem_cons.1 h with rfl | h
    · exact ⟨next, rfl⟩
    · exact ih h

section

variable (hx : x ∈ parts next ms)
include hx

lemma input_of_index (hd : d ∈ x.1.indexPorts) : x.2.input d.port = 0 := by
  obtain ⟨n, hn⟩ := exists_mapPorts hx
  rw [hn]
  exact x.1.input_index hd n

/-- A port of a member's own has a declaration on the fused body. -/
lemma widen_mem_inputDecls (hd : d ∈ x.1.ownInputs) :
    widen (d, x.2.input d.port) ∈ inputDecls next ms := by
  induction ms generalizing next with
  | nil => cases hx
  | cons m ms ih =>
    rcases mem_cons.1 hx with rfl | hx
    · obtain ⟨k, hk, -, -⟩ := exists_mem_zipIdx hd next
      refine mem_append_left _ ?_
      rw [m.input_own hk]
      exact mem_map_of_mem hk
    · exact mem_append_right _ (ih hx)

lemma widen_mem_outputDecls (hd : d ∈ x.1.io.outputs) :
    widen (d, x.2.output d.port) ∈ outputDecls next ms := by
  induction ms generalizing next with
  | nil => cases hx
  | cons m ms ih =>
    rcases mem_cons.1 hx with rfl | hx
    · obtain ⟨k, hk, -, -⟩ := exists_mem_zipIdx hd (next + m.ownInputs.length)
      refine mem_append_left _ ?_
      rw [m.output_own hk]
      exact mem_map_of_mem hk
    · exact mem_append_right _ (ih hx)

lemma le_input (hd : d ∈ x.1.ownInputs) : next ≤ x.2.input d.port :=
  le_of_mem_inputDecls ms (widen_mem_inputDecls hx hd)

lemma le_output (hd : d ∈ x.1.io.outputs) : next ≤ x.2.output d.port :=
  le_of_mem_outputDecls ms (widen_mem_outputDecls hx hd)

end

/-- Every declaration of an output is that of a member's. -/
lemma exists_of_mem_outputDecls (he : e ∈ outputDecls next ms) :
    ∃ x ∈ parts next ms, ∃ d ∈ x.1.io.outputs, e = widen (d, x.2.output d.port) := by
  induction ms generalizing next with
  | nil => cases he
  | cons m ms ih =>
    rcases mem_append.1 he with he | he
    · obtain ⟨⟨d, k⟩, hk, rfl⟩ := mem_map.1 he
      refine ⟨_, .head _, d, fst_mem_of_mem_zipIdx hk, ?_⟩
      rw [m.output_own hk]
    · obtain ⟨x, hx, hd⟩ := ih he
      exact ⟨x, .tail _ hx, hd⟩

lemma input_inj (hx : x ∈ parts next ms) (hy : y ∈ parts next ms) (hd : d ∈ x.1.ownInputs)
    (he : e ∈ y.1.ownInputs)
    (h : x.2.input d.port = y.2.input e.port) : x = y ∧ d = e := by
  induction ms generalizing next with
  | nil => cases hx
  | cons m ms ih =>
    have hlt : ∀ d ∈ m.ownInputs, (m.mapPorts next).input d.port < next + m.size := by
      intro d hd
      obtain ⟨k, hk, -, hlt⟩ := exists_mem_zipIdx hd next
      rw [m.input_own hk]
      exact hlt.trans_le (Nat.add_le_add_left (Nat.le_add_right _ _) _)
    rcases mem_cons.1 hx with rfl | hx
    · rcases mem_cons.1 hy with rfl | hy
      · obtain ⟨k, hk, -, -⟩ := exists_mem_zipIdx hd next
        obtain ⟨l, hl, -, -⟩ := exists_mem_zipIdx he next
        rw [m.input_own hk, m.input_own hl] at h
        rw [h] at hk
        exact ⟨rfl, eq_of_mem_zipIdx hk hl⟩
      · exact absurd h ((hlt d hd).trans_le (le_input hy he)).ne
    · rcases mem_cons.1 hy with rfl | hy
      · exact absurd h ((hlt e he).trans_le (le_input hx hd)).ne'
      · exact ih hx hy

lemma output_inj (hx : x ∈ parts next ms) (hy : y ∈ parts next ms) (hd : d ∈ x.1.io.outputs)
    (he : e ∈ y.1.io.outputs)
    (h : x.2.output d.port = y.2.output e.port) : x = y ∧ d = e := by
  induction ms generalizing next with
  | nil => cases hx
  | cons m ms ih =>
    have hlt : ∀ d ∈ m.io.outputs, (m.mapPorts next).output d.port < next + m.size := by
      intro d hd
      obtain ⟨k, hk, -, hlt⟩ := exists_mem_zipIdx hd (next + m.ownInputs.length)
      rwa [m.output_own hk, Member.size, ← add_assoc]
    rcases mem_cons.1 hx with rfl | hx
    · rcases mem_cons.1 hy with rfl | hy
      · obtain ⟨k, hk, -, -⟩ := exists_mem_zipIdx hd (next + m.ownInputs.length)
        obtain ⟨l, hl, -, -⟩ := exists_mem_zipIdx he (next + m.ownInputs.length)
        rw [m.output_own hk, m.output_own hl] at h
        rw [h] at hk
        exact ⟨rfl, eq_of_mem_zipIdx hk hl⟩
      · exact absurd h ((hlt d hd).trans_le (le_output hy he)).ne
    · rcases mem_cons.1 hy with rfl | hy
      · exact absurd h ((hlt e he).trans_le (le_output hx hd)).ne'
      · exact ih hx hy

/-- A port of a member's own is not the shared index port. -/
lemma input_ne_index (hx : x ∈ parts (firstPort ms) ms) (hy : y ∈ parts (firstPort ms) ms)
    (hd : d ∈ x.1.ownInputs)
    (he : e ∈ y.1.indexPorts) : x.2.input d.port ≠ y.2.input e.port := by
  have hin : hasIndex ms = true := by
    refine any_eq_true.2 ⟨y.1, ?_, ?_⟩
    · rw [← map_fst_parts (firstPort ms) ms]
      exact mem_map_of_mem hy
    · have := (Member.mem_indexPorts.1 he).2
      rw [Member.isIndex, beq_iff_eq] at this
      rw [this]
      rfl
  have hle := le_input hx hd
  rw [firstPort, if_pos hin] at hle
  rw [input_of_index hy he]
  exact Nat.one_le_iff_ne_zero.1 hle

/-! ## The shared index -/

lemma le_foldl_max (l : List PortDecl) (b : ℕ) :
    b ≤ l.foldl (fun b d => max b d.bits) b ∧
    ∀ d ∈ l, d.bits ≤ l.foldl (fun b d => max b d.bits) b := by
  induction l generalizing b with
  | nil => exact ⟨le_rfl, nofun⟩
  | cons e l ih =>
    obtain ⟨hb, hl⟩ := ih (max b e.bits)
    refine ⟨(le_max_left _ _).trans hb, fun d hd => ?_⟩
    rcases mem_cons.1 hd with rfl | hd
    · exact (le_max_right _ _).trans hb
    · exact hl d hd

/-- No bit of an index port is cut by the shared one. -/
lemma width_le_indexBits (hd : d ∈ indexDecls ms) :
    d.width ≤ (⟨0, indexBits ms, indexUnsigned ms⟩ : PortDecl).width := by
  refine max_le (le_max_left _ _) (le_max_of_le_right ?_)
  rw [indexBits]
  cases hsi : d.unsign with
  | true =>
    have hle := (le_foldl_max _ 1).2 d (mem_filter.2 ⟨hd, hsi⟩)
    split
    · exact hle
    · exact le_max_of_le_right (hle.trans (Nat.le_succ _))
  | false =>
    have hle : d.bits ≤ indexSignedBits ms :=
      (le_foldl_max _ 0).2 d (mem_filter.2 ⟨hd, by rw [hsi]; rfl⟩)
    have hall : indexUnsigned ms = false := by
      rw [indexUnsigned, all_eq_false]
      exact ⟨d, hd, by rw [hsi]; exact Bool.false_ne_true⟩
    rw [hall]
    exact le_max_of_le_left hle

lemma mem_indexDecls (hx : x ∈ parts next ms) (hd : d ∈ x.1.indexPorts) : d ∈ indexDecls ms := by
  refine mem_flatMap.2 ⟨x.1, ?_, hd⟩
  rw [← map_fst_parts next ms]
  exact mem_map_of_mem hx

end Fuse

end LiveHD.Sim
