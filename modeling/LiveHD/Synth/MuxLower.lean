import LiveHD.Synth.Arith.Compare

/-!
# Lowering a multiplexer

One bit of a `Mux` in `blast_comb`: a condition for two arms, and else either a tree over the
selector bits or a cover of decoded products.  An arm index is an `int`; a shift of it by 32 or more
places is undefined in the source, and then there is no lowering here.
-/

namespace LiveHD.Synth

open Function List Ops PairTree

universe u v w

namespace Ops

variable {Bit : Type u} {Pin : Type w} (ops : Ops Bit) [DecidableEq Bit]

/-- `tree` over the selector bits below `n`. -/
def muxTree (sel : ℕ → Bit) (armBit : Pin → Bit) : ℕ → List (ℕ × Pin) → Bit
  | _, [] => ops.zero
  | 0, arm :: group =>
    (arm :: group).foldl (fun result arm => ops.or_ result (armBit arm.2)) ops.zero
  | sb + 1, arm :: group =>
    let lo := muxTree sel armBit sb ((arm :: group).filter fun arm => !arm.1.testBit sb)
    let hi := muxTree sel armBit sb ((arm :: group).filter fun arm => arm.1.testBit sb)
    if sel sb = ops.zero then lo else if sel sb = ops.one then hi else ops.select (sel sb) hi lo

/-- `hit`: the selector matches value `v`.  A selector of more than 32 bits has none here: the
source shifts a 32-bit value by the number of the bit. -/
def muxHit (sel : ℕ → Bit) (selBits v : ℕ) : Option Bit :=
  if selBits ≤ 32 then
    let literals := (List.range selBits).map fun sb =>
      if v.testBit sb then sel sb else ops.inv (sel sb)
    some ((PairTree.reduce ops.and_ literals).headD ops.one)
  else none

/-- The decoded products; an arm that never matches is not read. -/
def muxProducts (sel : ℕ → Bit) (selBits : ℕ) (armBit : Pin → Bit) :
    List (ℕ × Pin) → Option (List Bit)
  | [] => some []
  | (v, drv) :: data => do
    let hit ← ops.muxHit sel selBits v
    let products ← muxProducts sel selBits armBit data
    some (if hit = ops.zero then products else ops.and_ (armBit drv) hit :: products)

/-- `condition`, for two arms. -/
def muxCondition (selConst : Option ℤ) (sel : ℕ → Bit) (selBits : ℕ) : Bit :=
  match selConst with
  | some c => if c ≠ 0 then ops.one else ops.zero
  | none => (PairTree.reduce ops.or_ ((List.range selBits).map sel)).headD ops.zero

/-- `sel_bits`; a selector without a width has one bit. -/
def selWidth (selBits : ℕ) : ℕ := if selBits = 0 then 1 else selBits

/-- A bit of a `Mux`: `selConst` is the selector when it is a constant without unknowns, `data` its
arms by value. -/
def muxBit (muxTreeOpt : Bool) (selConst : Option ℤ) (sel : ℕ → Bit)
    (selBits : ℕ) (armBit : Pin → Bit)
    (data : List (ℕ × Pin)) : Option Bit :=
  let selBits := selWidth selBits
  match data with
  | [(0, no), (1, yes)] =>
    let condition := ops.muxCondition selConst sel selBits
    some (if condition = ops.zero then armBit no else if condition = ops.one then armBit yes
      else ops.select condition (armBit yes) (armBit no))
  | data =>
    if muxTreeOpt && selBits ≤ 32 then some (ops.muxTree sel armBit selBits data)
    else (ops.muxProducts sel selBits armBit data).map fun products =>
      (PairTree.reduce ops.or_ products).headD ops.zero

end Ops

namespace BitAlgebra

variable {Bit : Type u} {Env : Type v} {Pin : Type w} {A : BitAlgebra Bit Env}
  {ρ : Env} [DecidableEq Bit]
  {sel : ℕ → Bit} {armBit : Pin → Bit} {n : ℕ}

section

variable (A : BitAlgebra Bit Env) (ρ : Env) (sel : ℕ → Bit)

/-- The low `n` bits of the selector, as a number. -/
def selValue (n : ℕ) : ℕ := Carry.bitsVal (fun i => A.eval ρ (sel i)) n

/-- Some arm whose index has the low `n` bits of the selector is set. -/
def Covers (armBit : Pin → Bit) (n : ℕ) (data : List (ℕ × Pin)) : Prop :=
  ∃ arm ∈ data, (∀ sb < n, arm.1.testBit sb = A.eval ρ (sel sb)) ∧ A.eval ρ (armBit arm.2) = true

end

lemma eval_muxTree (n : ℕ) (data : List (ℕ × Pin)) : A.eval ρ (A.muxTree sel armBit n data) = true ↔
    A.Covers ρ sel armBit n data := by
  induction n generalizing data with
  | zero =>
    have hfo : ∀ d, A.eval ρ (data.foldl (fun result arm => A.or_ result (armBit arm.2)) d) =
        (A.eval ρ d || data.any fun arm => A.eval ρ (armBit arm.2)) := by
      induction data with
      | nil => simp
      | cons arm data ih => intro d; rw [foldl_cons, ih, eval_or, any_cons, Bool.or_assoc]
    cases data with
    | nil => simp [muxTree, Covers]
    | cons arm data => rw [muxTree, hfo]; simp [Covers]
  | succ n ih =>
    cases data with
    | nil => simp [muxTree, Covers]
    | cons arm data =>
      -- both branches are read under the bit that leads to them
      have hbr : A.eval ρ (A.muxTree sel armBit (n + 1) (arm :: data)) = if A.eval ρ (sel n) then
          A.eval ρ (A.muxTree sel armBit n ((arm :: data).filter fun arm => arm.1.testBit n)) else
          A.eval ρ (A.muxTree sel armBit n ((arm :: data).filter fun arm => !arm.1.testBit n)) := by
        rw [muxTree]
        split
        next h => rw [h, eval_zero, if_neg Bool.false_ne_true]
        · split
          next h => rw [h, eval_one, if_pos rfl]
          · rw [eval_select]
      rw [hbr]
      have hsp : ∀ v : ℕ, (∀ sb < n + 1, v.testBit sb = A.eval ρ (sel sb)) ↔
          v.testBit n = A.eval ρ (sel n) ∧ ∀ sb < n, v.testBit sb = A.eval ρ (sel sb) :=
        fun v => Nat.forall_lt_succ_right.trans and_comm
      simp only [Covers, hsp]
      cases A.eval ρ (sel n) with
      | true =>
        rw [if_pos rfl, ih, Covers]
        simp only [mem_filter, and_assoc]
      | false =>
        rw [if_neg Bool.false_ne_true, ih, Covers]
        simp only [mem_filter, Bool.not_eq_true', and_assoc]

variable {data : List (ℕ × Pin)}

lemma eval_muxProducts {products : List Bit} (h : A.muxProducts sel n armBit data = some products) :
    products.any (A.eval ρ) = true ↔ A.Covers ρ sel armBit n data := by
  induction data generalizing products with
  | nil =>
    cases h
    simp [Covers]
  | cons arm data ih =>
    obtain ⟨v, drv⟩ := arm
    obtain ⟨hit, hhit, h⟩ := Option.bind_eq_some_iff.1 h
    obtain ⟨rest, hr, h⟩ := Option.bind_eq_some_iff.1 h
    cases h
    have hma : A.eval ρ hit = true ↔ ∀ sb < n, v.testBit sb = A.eval ρ (sel sb) := by
      unfold muxHit at hhit
      split at hhit
      · cases hhit
        rw [reduce_all (A.eval_and ρ) (A.eval_one ρ), all_map, all_eq_true]
        simp only [mem_range, comp_apply]
        refine forall₂_congr fun sb _ => ?_
        cases v.testBit sb with
        | true => rw [if_pos rfl, eq_comm]
        | false => rw [if_neg Bool.false_ne_true, eval_inv, Bool.not_eq_true', eq_comm]
      · exact absurd hhit (Option.some_ne_none _).symm
    have hco : A.Covers ρ sel armBit n ((v, drv) :: data) ↔
        A.eval ρ hit = true ∧ A.eval ρ (armBit drv) = true ∨ A.Covers ρ sel armBit n data := by
      rw [hma]
      simp only [Covers, exists_mem_cons_iff]
    rw [hco]
    split
    next h0 =>
      rw [ih hr, h0]
      simp
    · rw [any_cons, Bool.or_eq_true, ih hr, eval_and, Bool.and_eq_true,
        and_comm (a := A.eval ρ (armBit drv) = true)]

omit [DecidableEq Bit] in
lemma eval_muxCondition (selConst : Option ℤ) : A.eval ρ (A.muxCondition selConst sel n) = true ↔
    selConst.elim (A.selValue ρ sel n ≠ 0) (· ≠ 0) := by
  cases selConst with
  | some c => by_cases hc : c = 0 <;> simp [muxCondition, hc]
  | none =>
    rw [muxCondition, reduce_any (A.eval_or ρ) (A.eval_zero ρ)]
    simp only [selValue, Carry.bitsVal]
    simp

omit [DecidableEq Bit] in
/-- An index that agrees with the selector, as numbers. -/
lemma agrees_iff {v : ℕ} : (∀ sb < n, v.testBit sb = A.eval ρ (sel sb)) ↔
    v % 2 ^ n = A.selValue ρ sel n := by
  rw [← Carry.bitsVal_testBit, selValue]
  constructor
  · exact fun h => Carry.bitsVal_congr h
  · intro h sb hsb
    rw [← Carry.testBit_bitsVal (x := v.testBit) hsb, h, Carry.testBit_bitsVal hsb]

/-- Off the two-armed form both lowerings are the cover. -/
lemma eval_muxBit {muxTreeOpt : Bool} {selConst : Option ℤ} {r : Bit}
    (har : ∀ no yes, data ≠ [(0, no), (1, yes)])
    (h : A.muxBit muxTreeOpt selConst sel n armBit data = some r) :
    A.eval ρ r = true ↔ A.Covers ρ sel armBit (selWidth n) data := by
  unfold muxBit at h
  dsimp only at h
  split at h
  · exact absurd rfl (har _ _)
  · split at h
    · cases h
      exact eval_muxTree _ data
    · obtain ⟨products, hpr, rfl⟩ := Option.map_eq_some_iff.1 h
      rw [PairTree.reduce_any (A.eval_or ρ) (A.eval_zero ρ)]
      exact eval_muxProducts hpr

lemma muxProducts_isSome (hn : n ≤ 32) (data : List (ℕ × Pin)) :
    (A.muxProducts sel n armBit data).isSome := by
  induction data with
  | nil => rfl
  | cons arm data ih =>
    obtain ⟨rest, hr⟩ := Option.isSome_iff_exists.1 ih
    simp [muxProducts, muxHit, hn, hr]

lemma muxBit_isSome (hn : n ≤ 32) (muxTreeOpt : Bool) (selConst : Option ℤ)
    (data : List (ℕ × Pin)) :
    (A.muxBit muxTreeOpt selConst sel n armBit data).isSome := by
  unfold muxBit
  dsimp only
  split
  · rfl
  · split
    · rfl
    · rw [Option.isSome_map]
      refine muxProducts_isSome ?_ data
      unfold selWidth
      split <;> omega

omit [DecidableEq Bit] in
/-- Distinct indices that all fit the selector: the cover is the arm at its value. -/
lemma covers_iff_lookup (hke : (data.map Prod.fst).Nodup) (hfit : ∀ arm ∈ data, arm.1 < 2 ^ n) :
    A.Covers ρ sel armBit n data ↔
    ((data.lookup (A.selValue ρ sel n)).map fun d => A.eval ρ (armBit d)) = some true := by
  induction data with
  | nil => simp [Covers]
  | cons arm data ih =>
    obtain ⟨v, drv⟩ := arm
    rw [map_cons, nodup_cons] at hke
    rw [forall_mem_cons] at hfit
    have ht := ih hke.2 hfit.2
    rw [Covers, exists_mem_cons_iff, agrees_iff, Nat.mod_eq_of_lt hfit.1, lookup_cons]
    by_cases hv : v = A.selValue ρ sel n
    · rw [hv]
      have hno : ¬∃ arm ∈ data, (∀ sb < n, arm.1.testBit sb = A.eval ρ (sel sb)) ∧
          A.eval ρ (armBit arm.2) = true := by
        rintro ⟨arm, harm, hag, -⟩
        rw [agrees_iff, Nat.mod_eq_of_lt (hfit.2 arm harm), ← hv] at hag
        exact hke.1 (mem_map.2 ⟨arm, harm, hag⟩)
      simp [hno]
    · rw [beq_false_of_ne (Ne.symm hv)]
      rw [← ht]
      simp [hv, Covers]

end BitAlgebra

open BitAlgebra in
/-- A two-armed multiplexer is a condition on its selector.  Off that form, and for a selector of at
most 32 bits, the tree and the cover both collect the arms whose index has the low bits of the
selector: the selected arm, where the indices fit. -/
theorem muxBit_exact {Bit : Type u} {Env : Type v} {Pin : Type w} [DecidableEq Bit]
    (A : BitAlgebra Bit Env) (ρ : Env)
    (muxTreeOpt : Bool) (selConst : Option ℤ) (sel : ℕ → Bit) (selBits : ℕ) (armBit : Pin → Bit) :
    (∀ no yes, ∃ r, A.muxBit muxTreeOpt selConst sel selBits armBit [(0, no), (1, yes)] = some r ∧
      A.eval ρ r = A.eval ρ
      (armBit (if selConst.elim (decide (A.selValue ρ sel (selWidth selBits) ≠ 0))
        (fun c => decide (c ≠ 0)) then yes else no))) ∧
    ∀ data : List (ℕ × Pin), (∀ no yes, data ≠ [(0, no), (1, yes)]) → selBits ≤ 32 →
      ∃ r, A.muxBit muxTreeOpt selConst sel selBits armBit data = some r ∧
        (A.eval ρ r = true ↔ ∃ arm ∈ data, arm.1 % 2 ^ selWidth selBits =
          A.selValue ρ sel (selWidth selBits) ∧
          A.eval ρ (armBit arm.2) = true) ∧
        ((data.map Prod.fst).Nodup → (∀ arm ∈ data, arm.1 < 2 ^ selWidth selBits) → A.eval ρ r =
          ((data.lookup (A.selValue ρ sel (selWidth selBits))).elim false
            fun d => A.eval ρ (armBit d))) := by
  constructor
  · intro no yes
    refine ⟨_, rfl, ?_⟩
    have hbool : A.eval ρ (A.muxCondition selConst sel (selWidth selBits)) =
        selConst.elim (decide (A.selValue ρ sel (selWidth selBits) ≠ 0))
        (fun c => decide (c ≠ 0)) := by
      rw [Bool.eq_iff_iff, eval_muxCondition]
      cases selConst <;> simp
    rw [← hbool]
    split
    next h => rw [h, eval_zero, if_neg Bool.false_ne_true]
    · split
      next h => rw [h, eval_one, if_pos rfl]
      · rw [eval_select, apply_ite armBit, apply_ite (A.eval ρ)]
  · intro data harms hn
    have hsome : (A.muxBit muxTreeOpt selConst sel selBits armBit data).isSome :=
      muxBit_isSome hn muxTreeOpt selConst data
    obtain ⟨r, hr⟩ := Option.isSome_iff_exists.1 hsome
    have hcover := eval_muxBit (ρ := ρ) harms hr
    refine ⟨r, hr, ?_, fun hkeys hfit => ?_⟩
    · rw [hcover, Covers]
      simp only [agrees_iff]
    · rw [Bool.eq_iff_iff, hcover, covers_iff_lookup hkeys hfit]
      cases data.lookup (A.selValue ρ sel (selWidth selBits)) <;> simp

/-- A three-armed multiplexer with one selector bit reads the arms zero and two together. -/
theorem not_muxBit_selects : ¬∀
    (muxTreeOpt : Bool) (sel : ℕ → Bool) (selBits : ℕ) (data : List (ℕ × Bool)),
    (data.map Prod.fst).Nodup → (∀ no yes, data ≠ [(0, no), (1, yes)]) →
    boolAlgebra.muxBit muxTreeOpt none sel selBits id data =
        some ((data.lookup (boolAlgebra.selValue () sel (Ops.selWidth selBits))).getD false) := by
  intro h
  have hdata := h true (fun _ => false) 1 [(0, false), (1, false), (2, true)] (by decide) (by simp)
  have hcover := BitAlgebra.eval_muxBit (A := boolAlgebra) (ρ := ()) (by simp) hdata
  exact absurd (hcover.2 ⟨(2, true), by simp, by decide, rfl⟩) (by decide)

theorem muxBit_exact_three : ∃ r,
    boolAlgebra.muxBit false none (fun _ => true) 2 id [(0, false), (3, true)] = some r ∧
    boolAlgebra.eval () r = true := by
  obtain ⟨r, hr, -, h⟩ := (muxBit_exact boolAlgebra () false none (fun _ => true) 2 id).2
    [(0, false), (3, true)] (by simp)
    (by decide)
  exact ⟨r, hr, h (by decide) (by decide)⟩

end LiveHD.Synth
