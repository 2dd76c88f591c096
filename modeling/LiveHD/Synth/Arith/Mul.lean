import LiveHD.Synth.Arith.Sum

/-!
# The multipliers of `build_mul`

`array`, `tree` and `csa` sum the shifted partial products of extended operands.  `tdm` compresses
the partial-product matrix column by column, with Baugh–Wooley encoding of a signed matrix, and
folds the matrix of a square.
-/

namespace LiveHD.Synth

open Finset hiding cons forall_mem_cons map map_cons map_map range sum_cons
open Function List Nat BitAlgebra Carry Ops

universe u v

inductive MultKind where
  | array | tree | csa | tdm
deriving DecidableEq

/-- A signal of a `tdm` column with its depth. -/
structure Term (Bit : Type u) where
  bit : Bit
  level : ℕ

/-- Descending depth, stable ties. -/
def Term.push {Bit : Type u} (column : List (Term Bit)) (bit : Bit) (level : ℕ) : List (Term Bit) :=
  column.takeWhile (fun t => !decide (t.level < level)) ++
    ⟨bit, level⟩ :: column.dropWhile (fun t => !decide (t.level < level))

namespace Ops

variable {Bit : Type u} (ops : Ops Bit)

/-- Partial product `k`: `(b[k] ? a : 0)` shifted up by `k`, within `outW` bits. -/
def partialProduct (a b : List Bit) (outW k : ℕ) : List Bit :=
  (range outW).map fun i =>
    if k ≤ i ∧ i - k < a.length then ops.and_ (ops.get b k) (ops.get a (i - k)) else ops.zero

/-- One pass of `tree`: neighbouring rows are added, an odd last one is kept. -/
def treePass (adder : AdderKind) (blockSize : ℕ) : List (List Bit) → List (List Bit)
  | x :: y :: rows => (ops.buildAdd adder blockSize x y ops.zero).sum ::
    treePass adder blockSize rows
  | rows => rows

lemma treePass_length_le (adder : AdderKind) (bs : ℕ) (rows : List (List Bit)) :
    (ops.treePass adder bs rows).length ≤ rows.length := by
  induction rows using treePass.induct with
  | case1 x y rows ih =>
    simp only [treePass, length_cons]
    omega
  | case2 rows h => rwa [treePass]

lemma treePass_length_lt (adder : AdderKind) (bs : ℕ) {rows : List (List Bit)}
    (h : 1 < rows.length) : (ops.treePass adder bs rows).length < rows.length := by
  match rows, h with
  | x :: y :: rows, _ =>
    have := ops.treePass_length_le adder bs rows
    simp only [treePass, length_cons]
    omega

/-- `while (rows.size() > 1)`. -/
def treeAll (adder : AdderKind) (blockSize : ℕ) (rows : List (List Bit)) : List (List Bit) :=
  if 1 < rows.length then treeAll adder blockSize (ops.treePass adder blockSize rows) else rows
termination_by rows.length
decreasing_by exact ops.treePass_length_lt adder blockSize ‹_›

/-- The seven-AND full adder of `tdm_mul`, complemented around a known one.
`isOne` is the `== ops.one()` test, where the handles have one. -/
def tdmAdder (isOne : Bit → Bool) (x y z : Bit) : Bit × Bit :=
  let complement := isOne x || isOne y || isOne z
  let x := if complement then ops.inv x else x
  let y := if complement then ops.inv y else y
  let z := if complement then ops.inv z else z
  let ab := ops.and_ x y
  let nab := ops.and_ (ops.inv x) (ops.inv y)
  let parity := ops.and_ (ops.inv ab) (ops.inv nab)
  let pc := ops.and_ parity z
  let npc := ops.and_ (ops.inv parity) (ops.inv z)
  let sum := ops.and_ (ops.inv pc) (ops.inv npc)
  let carry := ops.or_ ab pc
  (if complement then ops.inv sum else sum, if complement then ops.inv carry else carry)

lemma push_length (column : List (Term Bit)) (bit : Bit) (level : ℕ) :
    (Term.push column bit level).length = column.length + 1 := by
  rw [Term.push, length_append, length_cons, ← add_assoc, ← length_append,
    takeWhile_append_dropWhile]

/-- The three terms popped from the back of a column, last one first, and the rest. -/
def pop3 (column : List (Term Bit)) : Option (Term Bit × Term Bit × Term Bit × List (Term Bit)) :=
  match column.reverse with
  | x :: y :: z :: rest => some (x, y, z, rest.reverse)
  | _ => none

lemma pop3_eq {column rest : List (Term Bit)} {x y z : Term Bit}
    (h : pop3 column = some (x, y, z, rest)) : column = rest ++ [z, y, x] := by
  unfold pop3 at h
  split at h
  next heq =>
    obtain ⟨rfl, rfl, rfl, rfl⟩ := h
    have := congrArg reverse heq
    simpa using this
  · cases h

lemma length_of_pop3 {column : List (Term Bit)} (h : pop3 column = none) : column.length ≤ 2 := by
  unfold pop3 at h
  split at h
  · cases h
  next hne =>
    rw [← length_reverse]
    match hr : column.reverse, hne with
    | [], _ => simp
    | [_], _ => simp
    | [_, _], _ => simp
    | x :: y :: z :: rest, hne => exact (hne x y z rest rfl).elim

/-- `while (column.size() > 2)`: full adders of the three shallowest signals, their
carries pushed to the next column. -/
def tdmColumn (isOne : Bit → Bool) (column next : List (Term Bit)) :
    List (Term Bit) × List (Term Bit) :=
  match h : pop3 column with
  | some (x, y, z, rest) =>
    let level := max x.level (max y.level z.level)
    let sc := ops.tdmAdder isOne x.bit y.bit z.bit
    tdmColumn isOne (Term.push rest sc.1 (level + 2)) (Term.push next sc.2 (level + 1))
  | none => (column, next)
termination_by column.length
decreasing_by
  rw [push_length, pop3_eq h, length_append]
  simp

/-- `row0[i]`: the first signal left in a column. -/
def row0Bit : List (Term Bit) → Bit
  | [] => ops.zero
  | t :: _ => t.bit

/-- `row1[i]`: the second signal, when two are left. -/
def row1Bit : List (Term Bit) → Bit
  | [_, t] => t.bit
  | _ => ops.zero

/-- One turn of the loop over the columns: the two rows get their bit. -/
def tdmStep (isOne : Bit → Bool) (s : (ℕ → List (Term Bit)) × List Bit × List Bit) (i : ℕ) :
    (ℕ → List (Term Bit)) × List Bit × List Bit :=
  let r := ops.tdmColumn isOne (s.1 i) (s.1 (i + 1))
  let column := r.1
  (update (update s.1 i column) (i + 1) r.2, s.2.1 ++ [ops.row0Bit column],
    s.2.2 ++ [ops.row1Bit column])

/-- Partial product `(i, j)` of the matrix, inverted where Baugh–Wooley has a
negative weight. -/
def tdmProduct (a b : List Bit) (signedMatrix : Bool) (i j : ℕ) : Bit :=
  let pp := ops.and_ (ops.get a i) (ops.get b j)
  if signedMatrix && (decide (i + 1 = a.length) != decide (j + 1 = b.length)) then
    ops.inv pp else pp

/-- The columns of the partial-product matrix, with the Baugh–Wooley constants. -/
def tdmColumns (a b : List Bit) (signedMatrix squared : Bool) : ℕ → List (Term Bit) :=
  let pushAt := fun (columns : ℕ → List (Term Bit)) (c : ℕ) (bit : Bit) =>
    update columns c (Term.push (columns c) bit 0)
  let columns := (range a.length).foldl (fun columns i =>
    (range' (if squared then i else 0) (b.length - if squared then i else 0)).foldl
      (fun columns j => pushAt columns (if squared && decide (i < j) then i + j + 1 else i + j)
        (ops.tdmProduct a b signedMatrix i j)) columns) fun _ => []
  if signedMatrix then
    pushAt (pushAt (pushAt columns (a.length - 1) ops.one) (b.length - 1) ops.one)
      (a.length + b.length - 1) ops.one
  else columns

/-- `tdm_mul`. -/
def tdmMul (isOne : Bit → Bool) (adder : AdderKind) (blockSize : ℕ) (a b : List Bit) (outW : ℕ)
    (aSigned bSigned squared : Bool) : List Bit :=
  if outW = 0 then []
  else if a.isEmpty || b.isEmpty then replicate outW ops.zero
  else
    let signedMatrix := aSigned || bSigned
    let a := if signedMatrix && !aSigned then a ++ [ops.zero] else a
    let b := if signedMatrix && !bSigned then b ++ [ops.zero] else b
    let width := a.length + b.length
    let s := (range width).foldl (ops.tdmStep isOne)
      (ops.tdmColumns a b signedMatrix squared, [], [])
    let result := (ops.buildAdd adder blockSize s.2.1 s.2.2 ops.zero).sum
    ops.extend result signedMatrix outW

/-- The operand a caller hands to `build_mul`: the native vector for `tdm`, and one
extended to the output width for the other kinds (`blast.hpp`, the `Mult` cell). -/
def mulOperand (kind : MultKind) (v : List Bit) (isSigned : Bool) (outW : ℕ) : List Bit :=
  if kind = .tdm then v else ops.extend v isSigned outW

/-- `build_mul`. -/
def buildMul (kind : MultKind) (isOne : Bit → Bool) (adder : AdderKind) (blockSize : ℕ)
    (a b : List Bit) (outW : ℕ) (aSigned bSigned squared : Bool) : List Bit :=
  let rows := (range (min b.length outW)).map (ops.partialProduct a b outW)
  let zeros := replicate outW ops.zero
  match kind with
  | .tdm => ops.tdmMul isOne adder blockSize a b outW aSigned bSigned
      (squared && decide (a.length = b.length))
  | .array => rows.foldl (fun acc pp => (ops.buildAdd adder blockSize acc pp ops.zero).sum) zeros
  | .csa => ops.buildSum adder blockSize (rows.map fun row => ⟨row, false, false⟩) outW
  | .tree => (ops.treeAll adder blockSize rows).headD zeros

end Ops

namespace BitAlgebra

variable {Bit : Type u} {Env : Type v} {A : BitAlgebra Bit Env} {ρ : Env}

/-! ## Shifted partial products -/

variable (a b : List Bit)

lemma partialProduct_holds (outW k : ℕ) :
    A.Holds ρ outW (A.partialProduct a b outW k) (2 ^ k * (A.bit ρ b k).toNat * A.value ρ a) := by
  refine .of_bits ?_
  set x : ℕ → Bool := fun i => A.bit ρ b k && A.bit ρ a i
  have hbi : ∀ i, A.eval ρ (if k ≤ i ∧ i - k < a.length then
      A.and_ (A.get b k) (A.get a (i - k)) else A.zero) = if k ≤ i then x (i - k) else false := by
    intro i
    by_cases hk : k ≤ i
    · by_cases ha : i - k < a.length
      · simp [hk, ha, x, bit]
      · simp [ha, x, bit_of_length_le (A := A) (ρ := ρ) (Nat.not_lt.1 ha)]
    · simp [hk]
  rw [bitsVal_congr fun i _ => hbi i]
  have hsh : bitsVal (fun i => if k ≤ i then x (i - k) else false) outW =
      bitsVal (fun i => if k ≤ i then x (i - k) else false) (k + (a.length + outW)) % 2 ^ outW :=
    (bitsVal_mod (by omega)).symm
  have hval : bitsVal x (a.length + outW) = (A.bit ρ b k).toNat * A.value ρ a := by
    rw [value_eq (le_add_right a.length outW), bitsVal, bitsVal, mul_sum]
    refine sum_congr rfl fun i _ => ?_
    cases hb : A.bit ρ b k <;> simp [x, hb]
  rw [hsh, Carry.bitsVal_shift, hval]
  push_cast
  rw [mul_assoc]
  exact Int.mod_modEq _ _

lemma partialProducts_rowsHold (outW m : ℕ) :
    A.RowsHold ρ outW ((range m).map (A.partialProduct a b outW))
      (Carry.bitsVal (A.bit ρ b) m * A.value ρ a) := by
  induction m with
  | zero => simpa using RowsHold.nil outW
  | succ m ih =>
    rw [range_succ, map_append, Carry.bitsVal_succ]
    refine (ih.append (.cons (partialProduct_holds a b outW m) (.nil outW))).congr ?_
    push_cast
    rw [add_zero, add_mul]

/-- The partial products sum to the product of the unsigned values. -/
lemma rows_rowsHold (outW : ℕ) :
    A.RowsHold ρ outW ((range (min b.length outW)).map (A.partialProduct a b outW))
      (A.value ρ a * A.value ρ b) := by
  refine (partialProducts_rowsHold a b outW _).congr ?_
  have hb : (bitsVal (A.bit ρ b) (min b.length outW) : ℤ) ≡ A.value ρ b [ZMOD 2 ^ outW] := by
    rcases le_total b.length outW with h | h
    · rw [min_eq_left h]
      rfl
    · rw [min_eq_right h, ← Carry.bitsVal_mod h]
      push_cast
      exact Int.mod_modEq _ _
  rw [mul_comm (A.value ρ a : ℤ)]
  exact hb.mul_right _

lemma zeros_holds (n : ℕ) : A.Holds ρ n (replicate n A.zero) 0 :=
  ⟨length_replicate, by rw [value_zeros]; exact .refl _⟩

variable {n : ℕ}

section

variable (adder : AdderKind) (bs : ℕ)
include adder bs

/-- Serial accumulation of rows. -/
lemma foldl_buildAdd_holds (rows : List (List Bit))
    {acc : List Bit} {y : ℤ} (hacc : A.Holds ρ n acc y) (hlen : ∀ row ∈ rows, row.length = n) :
    A.Holds ρ n (rows.foldl (fun acc pp => (A.buildAdd adder bs acc pp A.zero).sum) acc)
      (y + ((rows.map (A.value ρ)).sum : ℕ)) := by
  induction rows generalizing acc y with
  | nil => simpa using hacc
  | cons row rows ih =>
    obtain ⟨hrow, hro⟩ := forall_mem_cons.1 hlen
    have hadd := Holds.add adder bs hacc ⟨hrow, .refl (A.value ρ row : ℤ)⟩
    rw [map_cons, sum_cons]
    refine (ih hadd hro).congr ?_
    rw [cast_add, add_assoc]

lemma treePass_rowsHold {rows : List (List Bit)} {z : ℤ} (h : A.RowsHold ρ n rows z) :
    A.RowsHold ρ n (A.treePass adder bs rows) z := by
  have key : (∀ row ∈ rows, row.length = n) →
      A.RowsHold ρ n (A.treePass adder bs rows) ((rows.map (A.value ρ)).sum : ℕ) := by
    clear h
    induction rows using treePass.induct with
    | case1 x y rows ih =>
      intro hlen
      simp only [forall_mem_cons] at hlen
      obtain ⟨hx, hy, hro⟩ := hlen
      have hadd := Holds.add (A := A) (ρ := ρ) adder bs
        ⟨hx, .refl (A.value ρ x : ℤ)⟩ ⟨hy, .refl (A.value ρ y : ℤ)⟩
      refine (RowsHold.cons hadd (ih hro)).congr ?_
      simp only [add_assoc]
      rfl
    | case2 rows hro =>
      intro hlen
      rw [Ops.treePass]
      · exact ⟨hlen, .refl _⟩
      · exact hro
  exact (key h.length).congr h.value

lemma treeAll_holds (rows : List (List Bit)) {z : ℤ} (h : A.RowsHold ρ n rows z) :
    A.Holds ρ n ((A.treeAll adder bs rows).headD (replicate n A.zero)) z := by
  induction rows using treeAll.induct A.toOps adder bs with
  | case1 rows hlen ih =>
    rw [treeAll, if_pos hlen]
    exact ih (treePass_rowsHold adder bs h)
  | case2 rows hlen =>
    rw [Ops.treeAll]
    match rows, hlen with
    | [], _ => exact (zeros_holds n).congr (by simpa using h.value)
    | [row], _ => exact ⟨h.length row (by simp), by simpa using h.value⟩
    | _ :: _ :: _, hlen => simp at hlen

lemma csa_holds {rows : List (List Bit)} {z : ℤ} (h : A.RowsHold ρ n rows z) :
    A.Holds ρ n (A.buildSum adder bs (rows.map fun row => ⟨row, false, false⟩) n) z := by
  refine (buildSum_holds adder bs _ n).congr ?_
  have hsum : ((rows.map fun row => (⟨row, false, false⟩ : SumOperand Bit)).map
      (A.contribution ρ)).sum = (((rows.map (A.value ρ)).sum : ℕ) : ℤ) := by
    rw [map_map, cast_list_sum, map_map]
    rfl
  rw [hsum]
  exact h.value

end

/-- The three row multipliers, on operands of any width. -/
lemma buildMul_rows_holds (kind : MultKind) (hk : kind ≠ .tdm) (isOne : Bit → Bool)
    (adder : AdderKind) (bs : ℕ) (a b : List Bit) (outW : ℕ) (aSigned bSigned squared : Bool) :
    A.Holds ρ outW (A.buildMul kind isOne adder bs a b outW aSigned bSigned squared)
      (A.value ρ a * A.value ρ b) := by
  have hro := rows_rowsHold (A := A) (ρ := ρ) a b outW
  cases kind with
  | tdm => exact absurd rfl hk
  | array =>
    refine (foldl_buildAdd_holds adder bs _ (zeros_holds outW) hro.length).congr ?_
    rw [zero_add]
    exact hro.value
  | tree => exact treeAll_holds adder bs _ hro
  | csa => exact csa_holds adder bs hro

/-! ## Columns

The weight of the matrix is kept exactly, the column past the last included. -/

/-- The number of ones in a column. -/
def colVal (A : BitAlgebra Bit Env) (ρ : Env) (column : List (Term Bit)) : ℕ :=
  (column.map fun t => (A.eval ρ t.bit).toNat).sum

/-- The weight of columns `lo, …, hi - 1`. -/
def colsVal (A : BitAlgebra Bit Env) (ρ : Env) (columns : ℕ → List (Term Bit)) (lo hi : ℕ) : ℕ :=
  ∑ c ∈ Finset.Ico lo hi, 2 ^ c * A.colVal ρ (columns c)

open Term

lemma colVal_push (column : List (Term Bit)) (b : Bit) (level : ℕ) :
    A.colVal ρ (Term.push column b level) = A.colVal ρ column + (A.eval ρ b).toNat := by
  have hsp := congrArg (A.colVal ρ)
    (column.takeWhile_append_dropWhile (p := fun t => !decide (t.level < level)))
  simp only [colVal, map_append, sum_append_nat] at hsp
  simp only [colVal, push, map_append, map_cons, sum_append_nat, sum_cons]
  omega

lemma tdmAdder_val (isOne : Bit → Bool) (x y z : Bit) :
    (A.eval ρ (A.tdmAdder isOne x y z).1).toNat + 2 * (A.eval ρ (A.tdmAdder isOne x y z).2).toNat =
      (A.eval ρ x).toNat + (A.eval ρ y).toNat + (A.eval ρ z).toNat := by
  simp only [tdmAdder]
  -- the full adder is self-dual, so complementing around it changes nothing
  cases isOne x || isOne y || isOne z <;>
    simp only [if_true, Bool.false_eq_true, if_false, eval_and, eval_or, eval_inv] <;>
    cases A.eval ρ x <;> cases A.eval ρ y <;> cases A.eval ρ z <;> rfl

lemma tdmColumn_val (isOne : Bit → Bool) (column next : List (Term Bit)) :
    A.colVal ρ (A.tdmColumn isOne column next).1 + 2 * A.colVal ρ
    (A.tdmColumn isOne column next).2 =
        A.colVal ρ column + 2 * A.colVal ρ next ∧
      (A.tdmColumn isOne column next).1.length ≤ 2 := by
  induction column, next using tdmColumn.induct A.toOps isOne with
  | case1 column next x y z rest hpop level sc ih =>
    have hcol := pop3_eq hpop
    have hadd := tdmAdder_val (A := A) (ρ := ρ) isOne x.bit y.bit z.bit
    rw [Ops.tdmColumn]
    split
    next heq =>
      rw [hpop] at heq
      cases heq
      obtain ⟨ih1, ih2⟩ := ih
      refine ⟨?_, ih2⟩
      rw [ih1, colVal_push, colVal_push, hcol]
      simp only [colVal, map_append, map_cons, map_nil, sum_append_nat, sum_cons, sum_nil, sc] at hadd ⊢
      omega
    next heq =>
      rw [hpop] at heq
      cases heq
  | case2 column next hpop =>
    rw [tdmColumn]
    split
    next heq =>
      rw [hpop] at heq
      cases heq
    · exact ⟨rfl, Ops.length_of_pop3 hpop⟩

lemma value_concat (v : List Bit) (b : Bit) :
    A.value ρ (v ++ [b]) = A.value ρ v + 2 ^ v.length * (A.eval ρ b).toNat := by
  rw [value, length_append, length_singleton, bitsVal_succ]
  congr 1
  · refine bitsVal_congr fun i hi => ?_
    simp [bit, Ops.get, getElem?_append_left hi]
  · simp [bit, Ops.get]

/-- Two rows take what is left of a column. -/
lemma colVal_of_length_le {column : List (Term Bit)} (h : column.length ≤ 2) : A.colVal ρ column =
      (A.eval ρ (A.row0Bit column)).toNat + (A.eval ρ (A.row1Bit column)).toNat := by
  match column, h with
  | [], _ => simp [colVal, row0Bit, row1Bit]
  | [x], _ => simp [colVal, row0Bit, row1Bit]
  | [x, y], _ => simp [colVal, Ops.row0Bit, Ops.row1Bit]

/-- Columns before `i` are in the rows, the others still in the matrix. -/
structure TdmInv (A : BitAlgebra Bit Env) (ρ : Env) (width total i : ℕ)
    (s : (ℕ → List (Term Bit)) × List Bit × List Bit) : Prop where
  length0 : s.2.1.length = i
  length1 : s.2.2.length = i
  value : A.value ρ s.2.1 + A.value ρ s.2.2 + A.colsVal ρ s.1 i (width + 1) = total

lemma colsVal_succ {columns : ℕ → List (Term Bit)} {lo hi : ℕ} (h : lo < hi) :
    A.colsVal ρ columns lo hi = 2 ^ lo * A.colVal ρ
    (columns lo) + A.colsVal ρ columns (lo + 1) hi :=
  Finset.sum_eq_sum_Ico_succ_bot h _

lemma colsVal_congr {columns columns' : ℕ → List (Term Bit)} {lo hi : ℕ}
    (h : ∀ c, lo ≤ c → columns c = columns' c) :
    A.colsVal ρ columns lo hi = A.colsVal ρ columns' lo hi :=
  Finset.sum_congr rfl fun c hc => by rw [h c (mem_Ico.1 hc).1]

lemma tdmStep_inv (isOne : Bit → Bool) {width total i : ℕ} (hi : i < width)
    {s : (ℕ → List (Term Bit)) × List Bit × List Bit} (h : A.TdmInv ρ width total i s) :
    A.TdmInv ρ width total (i + 1) (A.tdmStep isOne s i) := by
  obtain ⟨columns, row0, row1⟩ := s
  obtain ⟨hl0, hl1, hval⟩ := h
  dsimp only at hl0 hl1 hval
  obtain ⟨hcol, hlen⟩ := tdmColumn_val (A := A) (ρ := ρ) isOne (columns i) (columns (i + 1))
  have htwo := colVal_of_length_le (A := A) (ρ := ρ) hlen
  refine ⟨by simp [tdmStep, hl0], by simp [tdmStep, hl1], ?_⟩
  simp only [Ops.tdmStep]
  rw [value_concat, value_concat, hl0, hl1, colsVal_succ (by omega), update_self]
  rw [colsVal_succ (by omega), colsVal_succ (by omega : i + 1 < width + 1)] at hval
  have hr : A.colsVal ρ (update (update columns i
      (A.tdmColumn isOne (columns i) (columns (i + 1))).1) (i + 1)
      (A.tdmColumn isOne (columns i) (columns (i + 1))).2) (i + 1 + 1) (width + 1) =
      A.colsVal ρ columns (i + 1 + 1) (width + 1) :=
    colsVal_congr fun c hc => by rw [update_of_ne (by omega), update_of_ne (by omega)]
  have hsc := congrArg (2 ^ i * ·) hcol
  rw [htwo] at hsc
  simp only [mul_add, ← mul_assoc, ← pow_succ] at hsc
  omega

/-- The two rows hold the weight of the matrix. -/
lemma tdmRows_val (isOne : Bit → Bool) (columns : ℕ → List (Term Bit)) (width : ℕ) :
    let s := (range width).foldl (A.tdmStep isOne) (columns, [], [])
    s.2.1.length = width ∧ s.2.2.length = width ∧
      A.value ρ s.2.1 + A.value ρ s.2.2 ≡ A.colsVal ρ columns 0 (width + 1) [MOD 2 ^ width] := by
  have h := foldl_range_rec (f := A.tdmStep isOne) (s := (columns, [], []))
    (A.TdmInv ρ width (A.colsVal ρ columns 0 (width + 1))) width
    ⟨rfl, rfl, by simp [value]⟩ fun i hi t ht => tdmStep_inv isOne hi ht
  refine ⟨h.length0, h.length1, ?_⟩
  have hla : A.colsVal ρ ((range width).foldl (A.tdmStep isOne) (columns, [], [])).1 width
      (width + 1) ≡ 0 [MOD 2 ^ width] := by
    rw [colsVal, Nat.Ico_succ_singleton]
    exact modEq_zero_iff_dvd.2 (Dvd.intro _ rfl)
  rw [← h.value]
  exact (hla.add_left _).symm

lemma colsVal_pushAt {columns : ℕ → List (Term Bit)} {c hi : ℕ}
    (hc : c < hi) (b : Bit) (level : ℕ) :
    A.colsVal ρ (update columns c (Term.push (columns c) b level)) 0 hi =
    A.colsVal ρ columns 0 hi + 2 ^ c * (A.eval ρ b).toNat := by
  have hmem := mem_Ico.2 ⟨zero_le c, hc⟩
  rw [colsVal, colsVal, ← add_sum_erase _ _ hmem, ← add_sum_erase _ _ hmem,
    update_self, colVal_push, mul_add]
  have hr : ∑ x ∈ (Finset.Ico 0 hi).erase c,
      2 ^ x * A.colVal ρ (update columns c (push (columns c) b level) x) =
      ∑ x ∈ (Finset.Ico 0 hi).erase c, 2 ^ x * A.colVal ρ (columns x) :=
    sum_congr rfl fun x hx => by rw [update_of_ne (ne_of_mem_erase hx)]
  omega

section

variable (A : BitAlgebra Bit Env) (ρ : Env) (a b : List Bit)

/-- Partial product `(i, j)` as a number. -/
def product (signedMatrix : Bool) (i j : ℕ) : ℕ :=
  (A.eval ρ (A.tdmProduct a b signedMatrix i j)).toNat

/-- The weight of the matrix before compression. -/
def matrixVal (signedMatrix squared : Bool) : ℕ :=
  ∑ i ∈ Finset.range a.length, ∑ j ∈ Finset.Ico (if squared then i else 0) b.length,
    2 ^ (if squared && decide (i < j) then i + j + 1 else i + j) * A.product ρ a b signedMatrix i j

end

lemma tdmColumns_val (a b : List Bit) (signedMatrix squared : Bool) (ha : 0 < a.length)
    (hb : 0 < b.length) (hsq : squared = true → a.length = b.length) :
    A.colsVal ρ (A.tdmColumns a b signedMatrix squared) 0
    (a.length + b.length + 1) = A.matrixVal ρ a b signedMatrix squared +
        if signedMatrix then 2 ^ (a.length - 1) + 2 ^ (b.length - 1) + 2 ^ (a.length + b.length - 1)
        else 0 := by
  set hi := a.length + b.length + 1 with hhi
  set col : ℕ → ℕ → ℕ := fun i j => if squared && decide (i < j) then i + j + 1 else i + j with hcol
  have hin : ∀ i < a.length, ∀ j < b.length, col i j < hi := by
    intro i hi' j hj
    simp only [hcol]
    split <;> omega
  set inner : (ℕ → List (Term Bit)) → ℕ → ℕ → List (Term Bit) := fun columns i =>
    (range' (if squared then i else 0) (b.length - if squared then i else 0)).foldl
      (fun columns j => update columns (col i j)
        (push (columns (col i j)) (A.tdmProduct a b signedMatrix i j) 0)) columns with hinner
  have hinn : ∀ columns, ∀ i < a.length, A.colsVal ρ (inner columns i) 0 hi =
      A.colsVal ρ columns 0 hi + ∑ j ∈ Finset.Ico (if squared then i else 0) b.length,
        2 ^ col i j * A.product ρ a b signedMatrix i j := by
    intro columns i hi'
    set lo := if squared then i else 0 with hlo
    have hle : lo ≤ b.length := by
      cases squared with
      | false => simp [hlo]
      | true =>
        have := hsq rfl
        simp only [hlo, if_true]
        omega
    have h0 : A.colsVal ρ columns 0 hi = A.colsVal ρ columns 0 hi +
        ∑ j ∈ Finset.Ico lo lo, 2 ^ col i j * A.product ρ a b signedMatrix i j := by simp
    have key := foldl_range'_rec (f := fun (columns : ℕ → List (Term Bit)) j =>
        update columns (col i j)
          (push (columns (col i j)) (A.tdmProduct a b signedMatrix i j) 0)) (s := columns)
      (fun j c => A.colsVal ρ c 0 hi = A.colsVal ρ columns 0 hi + ∑ j ∈ Finset.Ico lo j,
        2 ^ col i j * A.product ρ a b signedMatrix i j)
      (b.length - lo) h0 ?_
    · rwa [Nat.add_sub_cancel' hle] at key
    · intro j hloj hj c hc
      rw [colsVal_pushAt (hin i hi' j (by omega)), hc, Finset.sum_Ico_succ_top hloj, add_assoc]
      rfl
  have hou : A.colsVal ρ ((range a.length).foldl inner fun _ => []) 0 hi =
      A.matrixVal ρ a b signedMatrix squared := by
    refine foldl_range_rec (f := inner) (s := fun _ => []) (fun i c => A.colsVal ρ c 0 hi =
      ∑ i ∈ Finset.range i, ∑ j ∈ Finset.Ico (if squared then i else 0) b.length,
        2 ^ col i j * A.product ρ a b signedMatrix i j) a.length ?_ ?_
    · simp [colsVal, colVal]
    · intro i hi' c hc
      rw [hinn c i hi', hc, Finset.sum_range_succ]
  cases signedMatrix with
  | false =>
    rw [← hou]
    rfl
  | true =>
    rw [← hou]
    simp only [tdmColumns, if_true]
    rw [colsVal_pushAt (by omega), colsVal_pushAt (by omega), colsVal_pushAt (by omega)]
    simp only [eval_one, Bool.toNat_true, Nat.mul_one, Nat.add_assoc]
    rfl

/-- Folding the symmetric half of the matrix one column up keeps its weight. -/
lemma sum_symm_fold (f : ℕ → ℕ → ℕ) (hf : ∀ i j, f i j = f j i) (m : ℕ) :
    ∑ i ∈ Finset.range m, ∑ j ∈ Finset.Ico i m,
        2 ^ (if i < j then i + j + 1 else i + j) * f i j =
      ∑ i ∈ Finset.range m, ∑ j ∈ Finset.range m, 2 ^ (i + j) * f i j := by
  induction m with
  | zero => rfl
  | succ m ih =>
    have hl : ∀ i ∈ Finset.range m, ∑ j ∈ Finset.Ico i (m + 1),
        2 ^ (if i < j then i + j + 1 else i + j) * f i j =
        (∑ j ∈ Finset.Ico i m, 2 ^ (if i < j then i + j + 1 else i + j) * f i j) +
        2 * (2 ^ (i + m) * f i m) := by
      intro i hi
      have hi := Finset.mem_range.1 hi
      rw [sum_Ico_succ_top hi.le, if_pos hi]
      ring
    rw [Finset.sum_range_succ, Finset.sum_range_succ, sum_congr rfl hl,
      sum_add_distrib, ih, Nat.Ico_succ_singleton, Finset.sum_singleton, if_neg (lt_irrefl m)]
    have hr : ∑ i ∈ Finset.range m, ∑ j ∈ Finset.range (m + 1), 2 ^ (i + j) * f i j =
        (∑ i ∈ Finset.range m, ∑ j ∈ Finset.range m, 2 ^ (i + j) * f i j) + ∑ i ∈ Finset.range m,
        2 ^ (i + m) * f i m := by
      rw [← sum_add_distrib]
      exact sum_congr rfl fun i _ => Finset.sum_range_succ _ m
    have hrow : ∑ j ∈ Finset.range (m + 1), 2 ^ (m + j) * f m j =
        (∑ i ∈ Finset.range m, 2 ^ (i + m) * f i m) + 2 ^ (m + m) * f m m := by
      rw [Finset.sum_range_succ]
      congr 1
      exact sum_congr rfl fun j _ => by rw [hf m j, Nat.add_comm m j]
    rw [hr, hrow, ← mul_sum]
    ring

variable (a : List Bit) (signedMatrix : Bool)

lemma product_comm (i j : ℕ) :
    A.product ρ a a signedMatrix i j = A.product ρ a a signedMatrix j i := by
  unfold product Ops.tdmProduct
  rw [bne_comm]
  split <;> simp [Bool.and_comm]

/-- The squarer's matrix weighs the same as the full one. -/
lemma matrixVal_squared : A.matrixVal ρ a a signedMatrix true =
    A.matrixVal ρ a a signedMatrix false := by
  simp only [matrixVal, Bool.true_and, decide_eq_true_eq, if_true, Bool.false_and,
    Bool.false_eq_true, if_false, ← range_eq_Ico]
  exact sum_symm_fold _ (product_comm a signedMatrix) a.length

variable (a b : List Bit)

lemma product_unsigned (i j : ℕ) :
    A.product ρ a b false i j = (A.bit ρ a i).toNat * (A.bit ρ b j).toNat := by
  simp only [product, Ops.tdmProduct, Bool.false_and, Bool.false_eq_true, if_false, eval_and, bit]
  cases A.eval ρ (A.get a i) <;> cases A.eval ρ (A.get b j) <;> rfl

lemma matrixVal_unsigned : A.matrixVal ρ a b false false = A.value ρ a * A.value ρ b := by
  simp only [matrixVal, value, bitsVal, sum_mul_sum, Bool.false_and, Bool.false_eq_true,
    if_false, ← range_eq_Ico, product_unsigned]
  refine Finset.sum_congr rfl fun i _ => Finset.sum_congr rfl fun j _ => ?_
  ring

/-! ## Baugh–Wooley -/

/-- A partial product of a signed matrix, inverted in its last row and column but
not in the corner. -/
lemma product_signed {m : ℕ} (ha : a.length = m + 1) (hb : b.length = n + 1) (i j : ℕ) :
    (A.product ρ a b true i j : ℤ) = if (i = m) = (j = n) then
      ((A.bit ρ a i).toNat : ℤ) * (A.bit ρ b j).toNat
      else 1 - ((A.bit ρ a i).toNat : ℤ) * (A.bit ρ b j).toNat := by
  have hi : (i + 1 = a.length) = (i = m) := by rw [ha]; simp
  have hj : (j + 1 = b.length) = (j = n) := by rw [hb]; simp
  simp only [product, tdmProduct, Bool.true_and, hi, hj, bit]
  have hpr : ((A.eval ρ (A.and_ (A.get a i) (A.get b j))).toNat : ℤ) =
      ((A.eval ρ (A.get a i)).toNat : ℤ) * (A.eval ρ (A.get b j)).toNat := by
    rw [eval_and]
    cases A.eval ρ (A.get a i) <;> cases A.eval ρ (A.get b j) <;> rfl
  by_cases h : (i = m) = (j = n)
  · have : (decide (i = m) != decide (j = n)) = false := by simp [h]
    rw [if_pos h, this, if_neg Bool.false_ne_true, hpr]
  · have : (decide (i = m) != decide (j = n)) = true := by
      rwa [bne_iff_ne, ne_eq, decide_eq_decide, ← eq_iff_iff]
    rw [if_neg h, this, if_pos rfl, eval_inv, ← hpr]
    cases A.eval ρ (A.and_ (A.get a i) (A.get b j)) <;> rfl

/-- The signed value, with the last bit at its negative weight. -/
lemma intValue_signed (v : List Bit) (hv : v.length = n + 1) :
    A.intValue ρ true v = Carry.bitsVal (A.bit ρ v) n - 2 ^ n * ((A.bit ρ v n).toNat : ℤ) := by
  rw [intValue, value, hv, bitsVal_succ, Nat.add_sub_cancel]
  cases A.bit ρ v n with
  | false => simp
  | true => simp; ring

/-- The weight of a signed matrix and its constants is the product, `2 ^ width` over. -/
lemma matrixVal_signed (a b : List Bit) (ha : 0 < a.length) (hb : 0 < b.length) :
    (A.matrixVal ρ a b true false : ℤ) +
        (2 ^ (a.length - 1) + 2 ^ (b.length - 1) + 2 ^ (a.length + b.length - 1)) =
      A.intValue ρ true a * A.intValue ρ true b + 2 ^ (a.length + b.length) := by
  obtain ⟨m, hm⟩ := Nat.exists_eq_add_of_lt ha
  obtain ⟨n, hn⟩ := Nat.exists_eq_add_of_lt hb
  rw [zero_add] at hm hn
  set x : ℕ → ℤ := fun i => ((A.bit ρ a i).toNat : ℤ) with hx
  set y : ℕ → ℤ := fun j => ((A.bit ρ b j).toNat : ℤ) with hy
  set X : ℤ := ∑ i ∈ Finset.range m, 2 ^ i * x i with hX
  set Y : ℤ := ∑ j ∈ Finset.range n, 2 ^ j * y j with hY
  have hXv : (bitsVal (A.bit ρ a) m : ℤ) = X := by
    rw [bitsVal]
    push_cast
    rfl
  have hYv : (bitsVal (A.bit ρ b) n : ℤ) = Y := by
    rw [bitsVal]
    push_cast
    rfl
  have hge : ∀ k : ℕ, ∑ i ∈ Finset.range k, (2 : ℤ) ^ i = 2 ^ k - 1 := by
    intro k
    induction k with
    | zero => rfl
    | succ k ih => rw [Finset.sum_range_succ, ih]; ring
  -- the matrix, split into its body, last column, last row and corner
  have hbo : ∑ i ∈ Finset.range m, ∑ j ∈ Finset.range n,
      (2 : ℤ) ^ (i + j) * (x i * y j) = X * Y := by
    rw [sum_mul_sum]
    refine sum_congr rfl fun i _ => sum_congr rfl fun j _ => ?_
    ring
  have hco : ∑ i ∈ Finset.range m, (2 : ℤ) ^ (i + n) * (1 - x i * y n) =
      2 ^ n * (2 ^ m - 1) - 2 ^ n * y n * X := by
    rw [← hge m, mul_sum, mul_sum, ← sum_sub_distrib]
    refine sum_congr rfl fun i _ => ?_
    ring
  have hrow : ∑ j ∈ Finset.range n, (2 : ℤ) ^ (m + j) * (1 - x m * y j) =
      2 ^ m * (2 ^ n - 1) - 2 ^ m * x m * Y := by
    rw [← hge n, mul_sum, mul_sum, ← sum_sub_distrib]
    refine sum_congr rfl fun j _ => ?_
    ring
  have hma : (A.matrixVal ρ a b true false : ℤ) =
        (X * Y + (2 ^ n * (2 ^ m - 1) - 2 ^ n * y n * X)) +
        ((2 ^ m * (2 ^ n - 1) - 2 ^ m * x m * Y) + 2 ^ (m + n) * (x m * y n)) := by
    simp only [matrixVal, Bool.false_and, Bool.false_eq_true, if_false, ← range_eq_Ico, hm, hn]
    push_cast
    rw [Finset.sum_range_succ, ← hbo, ← hco, ← hrow, ← sum_add_distrib]
    congr 1
    · refine sum_congr rfl fun i hi => ?_
      have hi := (Finset.mem_range.1 hi).ne
      rw [Finset.sum_range_succ]
      congr 1
      · refine sum_congr rfl fun j hj => ?_
        have hj := (Finset.mem_range.1 hj).ne
        rw [product_signed a b hm hn, if_pos (by simp [hi, hj])]
      · rw [product_signed a b hm hn, if_neg (by simp [hi])]
    · rw [Finset.sum_range_succ]
      congr 1
      · refine sum_congr rfl fun j hj => ?_
        have hj := (Finset.mem_range.1 hj).ne
        rw [product_signed a b hm hn, if_neg (by simp [hj])]
      · rw [product_signed a b hm hn, if_pos (by simp)]
  rw [hma, intValue_signed a hm, intValue_signed b hn, hXv, hYv, hm, hn]
  have e1 : m + 1 - 1 = m := rfl
  have e2 : n + 1 - 1 = n := rfl
  have e3 : m + 1 + (n + 1) - 1 = m + n + 1 := by omega
  have e4 : m + 1 + (n + 1) = m + n + 1 + 1 := by omega
  rw [e1, e2, e3]
  ring

/-! ## The native-width product -/

variable (v : List Bit)

lemma intValue_unsigned : A.intValue ρ false v = A.value ρ v := by simp [intValue]

/-- A zero sign bit makes a signed vector of an unsigned one. -/
lemma intValue_concat_zero : A.intValue ρ true (v ++ [A.zero]) = A.value ρ v := by
  rw [intValue, value_concat]
  simp [bit, Ops.get]

lemma abs_intValue_signed_le (hv : v.length = n + 1) :
    |A.intValue ρ true v| ≤ 2 ^ n := by
  have hlt : (Carry.bitsVal (A.bit ρ v) n : ℤ) < 2 ^ n := by
    exact_mod_cast bitsVal_lt (A.bit ρ v) n
  rw [intValue_signed v hv, abs_le]
  cases A.bit ρ v n <;> simp <;> omega

/-- A signed vector that holds a number of its range has that value. -/
lemma Holds.intValue_signed {v : List Bit} {z : ℤ} (h : A.Holds ρ (n + 1) v z) (hz : |z| < 2 ^ n) :
    A.intValue ρ true v = z := by
  have hv := abs_intValue_signed_le (A := A) (ρ := ρ) v h.length
  have hmod : A.intValue ρ true v ≡ z [ZMOD 2 ^ (n + 1)] := by
    have hse := extend_holds (A := A) (ρ := ρ) v true (n + 1)
    have hext : A.extend v true (n + 1) = v := by
      apply ext_getElem
      · simp [Ops.extend, h.length]
      · intro i h1 h2
        simp [Ops.extend, Ops.get, h2]
    rw [hext] at hse
    exact hse.value.symm.trans h.value
  obtain ⟨k, hk⟩ := hmod.dvd
  rw [abs_lt] at hz
  rw [abs_le] at hv
  have hpow : (2 : ℤ) ^ (n + 1) = 2 * 2 ^ n := by rw [pow_succ]; ring
  rw [hpow] at hk
  have hlow : (-1 : ℤ) < k := by
    by_contra hle
    have : (2 : ℤ) * 2 ^ n * k ≤ 2 * 2 ^ n * (-1) := by gcongr; omega
    omega
  have hhi : k < 1 := by
    by_contra hle
    have : (2 : ℤ) * 2 ^ n * 1 ≤ 2 * 2 ^ n * k := by gcongr; omega
    omega
  obtain rfl : k = 0 := by omega
  omega

/-- The matrix of two vectors read with one signedness, compressed and added. -/
lemma tdmMatrix_holds (isOne : Bit → Bool) (adder : AdderKind) (bs : ℕ) (a b : List Bit)
    (signedMatrix squared : Bool) (ha : 0 < a.length) (hb : 0 < b.length)
    (hsq : squared = true → a = b) :
    let s := (range (a.length + b.length)).foldl (A.tdmStep isOne)
      (A.tdmColumns a b signedMatrix squared, [], [])
    A.Holds ρ (a.length + b.length) (A.buildAdd adder bs s.2.1 s.2.2 A.zero).sum
      (A.intValue ρ signedMatrix a * A.intValue ρ signedMatrix b) := by
  intro s
  obtain ⟨h0, h1, hval⟩ := tdmRows_val (A := A) (ρ := ρ) isOne
    (A.tdmColumns a b signedMatrix squared) (a.length + b.length)
  have hma : A.matrixVal ρ a b signedMatrix squared = A.matrixVal ρ a b signedMatrix false := by
    cases squared with
    | false => rfl
    | true =>
      obtain rfl := hsq rfl
      exact matrixVal_squared a signedMatrix
  rw [tdmColumns_val a b signedMatrix squared ha hb fun h => congrArg _ (hsq h), hma] at hval
  refine (Holds.add adder bs ⟨h0, .refl (A.value ρ _ : ℤ)⟩ ⟨h1, .refl (A.value ρ _ : ℤ)⟩).congr ?_
  refine (Int.natCast_modEq_iff.2 hval).trans ?_
  cases signedMatrix with
  | false =>
    rw [matrixVal_unsigned]
    rfl
  | true =>
    have hbw := matrixVal_signed (A := A) (ρ := ρ) a b ha hb
    rw [if_pos rfl]
    push_cast
    rw [hbw]
    exact Int.modEq_iff_dvd.2 (by rw [sub_add_cancel_left]; exact (dvd_refl _).neg_right)

/-- A product fits in the sum of the widths, so a vector of that width holds it exactly. -/
lemma intValue_product {a b r : List Bit} {isSigned : Bool} (ha : 0 < a.length) (hb : 0 < b.length)
    (h : A.Holds ρ (a.length + b.length) r (A.intValue ρ isSigned a * A.intValue ρ isSigned b)) :
    A.intValue ρ isSigned r = A.intValue ρ isSigned a * A.intValue ρ isSigned b := by
  cases isSigned with
  | false =>
    simp only [intValue_unsigned] at h ⊢
    have hlt : A.value ρ a * A.value ρ b < 2 ^ (a.length + b.length) := by
      rw [pow_add]
      exact mul_lt_mul'' (value_lt a) (value_lt b)
    rw [h.eq_emod]
    exact Int.emod_eq_of_lt (by positivity) (by exact_mod_cast hlt)
  | true =>
    obtain ⟨m, hm⟩ := Nat.exists_eq_add_of_lt ha
    obtain ⟨n, hn⟩ := Nat.exists_eq_add_of_lt hb
    rw [zero_add] at hm hn
    have hw : a.length + b.length = m + n + 1 + 1 := by omega
    rw [hw] at h
    refine h.intValue_signed ?_
    rw [abs_mul]
    calc |A.intValue ρ true a| * |A.intValue ρ true b| ≤ 2 ^ m * 2 ^ n :=
          mul_le_mul (abs_intValue_signed_le a hm) (abs_intValue_signed_le b hn)
            (abs_nonneg _) (by positivity)
      _ < 2 ^ (m + n + 1) := by
          rw [← pow_add]
          exact pow_lt_pow_right₀ (by norm_num) (lt_succ_self _)

/-- The operand of the matrix keeps the value the caller gave it. -/
lemma intValue_matrixOperand (v : List Bit) (isSigned signedMatrix : Bool)
    (h : isSigned = true → signedMatrix = true) :
    A.intValue ρ signedMatrix (if signedMatrix && !isSigned then v ++ [A.zero] else v) =
    A.intValue ρ isSigned v := by
  cases isSigned with
  | true => simp [h rfl]
  | false =>
    cases signedMatrix with
    | false => rfl
    | true => simpa [intValue_unsigned] using intValue_concat_zero v

lemma tdmMul_holds (isOne : Bit → Bool) (adder : AdderKind) (bs : ℕ) (a b : List Bit) (outW : ℕ)
    (aSigned bSigned squared : Bool) (hsq : squared = true → a = b ∧ aSigned = bSigned) :
    A.Holds ρ outW (A.tdmMul isOne adder bs a b outW aSigned bSigned squared)
      (A.intValue ρ aSigned a * A.intValue ρ bSigned b) := by
  unfold Ops.tdmMul
  split
  · subst outW
    exact ⟨rfl, by simpa using Int.modEq_one⟩
  split
  next hem =>
    have h0 : ∀ isSigned, A.intValue ρ isSigned ([] : List Bit) = 0 := by
      intro isSigned
      simp [intValue, value, bit, Ops.get]
    have : A.intValue ρ aSigned a * A.intValue ρ bSigned b = 0 := by
      rcases Bool.or_eq_true_iff.1 hem with h | h
      · rw [isEmpty_iff.1 h, h0, zero_mul]
      · rw [isEmpty_iff.1 h, h0, mul_zero]
    rw [this]
    exact zeros_holds outW
  next hne =>
    rw [Bool.or_eq_true_iff, not_or, List.isEmpty_iff, List.isEmpty_iff] at hne
    rw [← intValue_matrixOperand (A := A) (ρ := ρ) a aSigned
      (aSigned || bSigned) (fun h => by simp [h]),
      ← intValue_matrixOperand (A := A) (ρ := ρ) b bSigned
        (aSigned || bSigned) (fun h => by simp [h])]
    set a' := if (aSigned || bSigned) && !aSigned then a ++ [A.zero] else a with ha'
    set b' := if (aSigned || bSigned) && !bSigned then b ++ [A.zero] else b with hb'
    have hpo : 0 < a'.length := by
      have := length_pos_iff.2 hne.1
      rw [ha']
      split <;> simp [this]
    have hps : 0 < b'.length := by
      have := length_pos_iff.2 hne.2
      rw [hb']
      split <;> simp [this]
    have hres := tdmMatrix_holds (A := A) (ρ := ρ) isOne adder bs a' b' (aSigned || bSigned) squared
      hpo hps (fun h => by
        obtain ⟨rfl, rfl⟩ := hsq h
        rfl)
    refine (extend_holds _ (aSigned || bSigned) outW).congr ?_
    rw [intValue_product hpo hps hres]

end BitAlgebra

/-- Every multiplier architecture computes the product of its operands as the caller
reads them, modulo `2 ^ outW`.  A caller asks for the squarer only for the same nets
with the same signedness. -/
theorem buildMul_value {Bit : Type u} {Env : Type v} (A : BitAlgebra Bit Env) (kind : MultKind)
    (isOne : Bit → Bool) (adder : AdderKind) (blockSize : ℕ) (a b : List Bit) (outW : ℕ)
    (aSigned bSigned squared : Bool) (hsq : squared = true → a = b ∧ aSigned = bSigned) (ρ : Env) :
    (A.buildMul kind isOne adder blockSize (A.mulOperand kind a aSigned outW)
      (A.mulOperand kind b bSigned outW) outW aSigned bSigned squared).length = outW ∧
    (A.value ρ (A.buildMul kind isOne adder blockSize (A.mulOperand kind a aSigned outW)
      (A.mulOperand kind b bSigned outW) outW aSigned bSigned squared) : ℤ) =
      A.intValue ρ aSigned a * A.intValue ρ bSigned b % 2 ^ outW := by
  have key :
      A.Holds ρ outW (A.buildMul kind isOne adder blockSize (A.mulOperand kind a aSigned outW)
      (A.mulOperand kind b bSigned outW) outW aSigned bSigned squared)
      (A.intValue ρ aSigned a * A.intValue ρ bSigned b) := by
    by_cases hk : kind = .tdm
    · subst hk
      exact BitAlgebra.tdmMul_holds isOne adder blockSize a b outW aSigned bSigned _
        fun h => hsq (Bool.and_eq_true_iff.1 h).1
    · refine (buildMul_rows_holds kind hk isOne adder blockSize _ _ outW aSigned bSigned
        squared).congr ?_
      rw [mulOperand, mulOperand, if_neg hk, if_neg hk]
      exact (extend_holds a aSigned outW).value.mul
        (extend_holds b bSigned outW).value
  exact ⟨key.length, key.eq_emod⟩

theorem buildMul_value_square :
    (true = true → [true, false, true] = [true, false, true] ∧ true = true) ∧
    (boolAlgebra.buildMul .tdm id .brent 1 [true, false, true] [true, false, true]
      8 true true true).length
      = 8 ∧
    (boolAlgebra.value () (boolAlgebra.buildMul .tdm id .brent 1 [true, false,
      true] [true, false, true] 8
      true true true) : ℤ) =
      boolAlgebra.intValue () true [true, false, true] * boolAlgebra.intValue
      () true [true, false, true]
        % 2 ^ 8 :=
  ⟨fun _ => ⟨rfl, rfl⟩, buildMul_value boolAlgebra .tdm id .brent 1 [true, false, true]
    [true, false, true] 8 true true true (fun _ => ⟨rfl, rfl⟩) ()⟩

end LiveHD.Synth
