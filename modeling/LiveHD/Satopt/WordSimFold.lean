import LiveHD.Satopt.WordSim

/-!
# The simulator and the folder on one cell

Where neither declines, `column` and `foldNode` give a cell the same integer, but for `LT` and `GT`:
the folder compares the sums of the two banks, the simulator each operand of one bank with each
operand of the other.
-/

namespace LiveHD.Satopt

open Cell hiding bitRange evalOp
open Driven hiding value
open Aegraph.Fold hiding value
open Option hiding all all_eq_true all_map any any_map map map_map or or_assoc or_self
open IntBits Aegraph Function List Bool Int Nat NtypeOp

/-- Two results are equal unless one of them is missing. -/
def Agree (x y : Option ℤ) : Prop := ∀ a, x = some a → ∀ b, y = some b → a = b

@[simp] lemma agree_none_left (y : Option ℤ) : Agree none y := nofun

@[simp] lemma agree_none_right (x : Option ℤ) : Agree x none := fun _ _ => nofun

@[simp] lemma agree_some (a b : ℤ) : Agree (some a) (some b) ↔ a = b :=
  ⟨fun h => h a rfl b rfl, fun h _ ha _ hb => some.inj ha ▸ some.inj hb ▸ h⟩

lemma Agree.refl (x : Option ℤ) : Agree x x := fun _ ha _ hb => some.inj (ha.symm.trans hb)

variable (op : NtypeOp) (cls : Driven → ℕ) (s : Driven)

/-- A sink as an operand of the folder, its driver in class `cls`. -/
def operand : EvalOperand (Option ℤ) :=
  ⟨s.port, op.sinkBank s.port, cls s, some s.value⟩

def knownOperand : EvalOperand ℤ := ⟨s.port, op.sinkBank s.port, cls s, s.value⟩

/-- A sink as an argument of `evalOp`. -/
def evalArg (op : NtypeOp) (s : Driven) : EvalArg := ⟨s.port, op.sinkBank s.port, s.value⟩

lemma flag_land (a b : Bool) : (flag a).land (flag b) = flag (a && b) := by
  cases a <;> cases b <;> rfl

lemma flag_inj {a b : Bool} : flag a = flag b ↔ a = b := by
  cases a <;> cases b <;> decide

@[simp] lemma flag_ne_zero (a : Bool) : (flag a != 0) = a := by
  cases a <;> rfl

lemma foldl_land_flag {α : Type} (p : α → Bool) (l : List α) (c : Bool) :
    l.foldl (fun v x => v.land (flag (p x))) (flag c) = flag (c && l.all p) := by
  induction l generalizing c with
  | nil => simp
  | cons x l ih => rw [foldl_cons, flag_land, ih, all_cons, Bool.and_assoc]

/-! ## Banks and ports -/

section

variable {op : NtypeOp} {pins : List Driven}

lemma ins_of_one (h : op.sinkBankCount = 1) : ins op pins 0 = pins.map (·.value) := by
  rw [ins, filter_eq_self.2]
  intro s _
  rw [sinkBank, h]
  rfl

lemma filter_port (hasc : pins.Pairwise (·.port < ·.port)) (port : ℕ) :
    pins.filter (fun s => s.port == port) = (byPort pins port).toList := by
  induction hasc with
  | nil => rfl
  | @cons s pins hs _ ih =>
    rw [filter_cons, byPort, find?_cons]
    rcases hp : s.port == port with - | -
    · exact ih
    · have hnil : pins.filter (fun t => t.port == port) = [] := by
        refine filter_eq_nil_iff.2 fun t ht heq => (hs t ht).ne ?_
        rw [beq_iff_eq.1 hp, beq_iff_eq.1 heq]
      rw [hnil]
      rfl

lemma arg_eq (hop : op.sinkBankCount = 0) (hasc : pins.Pairwise (·.port < ·.port)) (port : ℕ) :
    arg op pins port = (byPort pins port).map (·.value) := by
  have hba : ∀ p, op.sinkBank p = p := by
    intro p
    rw [sinkBank, hop]
    rfl
  rw [arg, ins]
  simp only [hba]
  rw [filter_port hasc]
  cases byPort pins port <;> rfl

lemma findPort_map {α : Type} (f : Driven → EvalOperand α)
    (hf : ∀ s, (f s).port = s.port) (port : ℕ) :
    findPort (pins.map f) port = (byPort pins port).map f := by
  rw [findPort, find?_map]
  congr 2
  funext s
  rw [comp_apply, hf]

lemma mem_of_byPort {port : ℕ} {s : Driven} (h : byPort pins port = some s) :
    s ∈ pins ∧ s.port = port :=
  have hp := find?_some h
  ⟨mem_of_find?_eq_some h, beq_iff_eq.1 hp⟩

lemma byPort_of_mem (hasc : pins.Pairwise (·.port < ·.port)) {s : Driven} (hs : s ∈ pins) :
    byPort pins s.port = some s := by
  have hmem : s ∈ pins.filter (fun t => t.port == s.port) := mem_filter.2 ⟨hs, beq_self_eq_true _⟩
  rw [filter_port hasc] at hmem
  exact mem_toList.1 hmem

end

/-! ## One operator at a time -/

section

variable {payloadBits : ℤ → ℕ} {noLanes : Option ℤ} {pins : List Driven} {cls : Driven → ℕ}
  {valueOf : ℕ → Option ℤ}

/-- What the folder and the simulator make of a cell that needs all its operands. -/
def Agrees (payloadBits : ℤ → ℕ) (noLanes : Option ℤ) (valueOf : ℕ → Option ℤ)
    (cls : Driven → ℕ) (op : NtypeOp)
    (pins : List Driven) : Prop :=
  Agree ((foldKnown payloadBits op (pins.map (knownOperand op cls))).result valueOf)
    (column noLanes op pins)

section

variable (hasc : pins.Pairwise (·.port < ·.port))
  (hcls : ∀ s ∈ pins, valueOf (cls s) = some s.value)
include hasc hcls

lemma agrees_shl : Agrees payloadBits noLanes valueOf cls .shl pins := by
  rw [Agrees, column, arg_eq rfl hasc, arg_eq rfl hasc, foldKnown, findPort_map _ fun _ => rfl,
    findPort_map _ fun _ => rfl]
  rcases ha : byPort pins 0 with - | a
  · exact agree_none_left _
  rcases hb : byPort pins 1 with - | b
  · exact agree_none_left _
  simp only [map_some, bind_eq_bind, bind_some]
  split_ifs with hlen h0
  · exact agree_none_left _
  · have hv : shlOp a.value b.value = some a.value := by
      rw [show b.value = 0 from h0, shlOp, if_pos le_rfl, toNat_zero, pow_zero, mul_one]
    rw [result, knownOperand, hcls a (mem_of_byPort ha).1, hv]
    exact .refl _
  · simp only [knownOperand]
    rcases shlOp a.value b.value with - | v
    · exact agree_none_left _
    · exact (agree_some _ _).2 (zero_lor v)

lemma agrees_sra : Agrees payloadBits noLanes valueOf cls .sra pins := by
  rw [Agrees, column, arg_eq rfl hasc, arg_eq rfl hasc, foldKnown, findPort_map _ fun _ => rfl,
    findPort_map _ fun _ => rfl]
  rcases ha : byPort pins 0 with - | a
  · exact agree_none_left _
  rcases hb : byPort pins 1 with - | b
  · exact agree_none_left _
  simp only [map_some, bind_eq_bind, bind_some]
  split_ifs with hbad h0
  · exact agree_none_left _
  · have hv : sraOp a.value b.value = some a.value := by
      rw [show b.value = 0 from h0, sraOp, if_pos ⟨le_rfl, rfl⟩, toNat_zero, pow_zero, ediv_one]
    rw [result, knownOperand, hcls a (mem_of_byPort ha).1, hv]
    exact .refl _
  · simp only [knownOperand]
    rcases sraOp a.value b.value with - | v
    · exact agree_none_left _
    · exact (agree_some _ _).2 rfl

end

lemma agrees_sext (hasc : pins.Pairwise (·.port < ·.port)) :
    Agrees payloadBits noLanes valueOf cls .sext pins := by
  rw [Agrees, column, arg_eq rfl hasc, arg_eq rfl hasc, foldKnown, findPort_map _ fun _ => rfl,
    findPort_map _ fun _ => rfl]
  rcases byPort pins 0 with - | a
  · exact agree_none_left _
  rcases byPort pins 1 with - | b
  · exact agree_none_left _
  simp only [map_some, bind_eq_bind, bind_some]
  split_ifs
  · exact agree_none_left _
  · exact agree_none_left _
  · exact agree_none_right _
  · exact (agree_some _ _).2 rfl

lemma agrees_not : Agrees payloadBits noLanes valueOf cls .not pins := by
  rw [Agrees, column]
  rcases pins with - | ⟨s, - | ⟨t, pins⟩⟩
  · exact agree_none_left _
  · rw [arg, ins, filter_cons]
    rcases (not.sinkBank s.port == 0) with - | -
    · exact agree_none_right _
    · exact (agree_some _ _).2 rfl
  · exact agree_none_left _

/-- The two readings of a window. -/
lemma bitRange_eq {lo hi : Driven} (hlo : byPort pins 2 = some lo)
    (hhi : byPort pins 3 = some hi) {w : ℕ × ℕ}
    (h : Driven.bitRange pins = some w) : windowOf lo.value hi.value = some w := by
  rw [Driven.bitRange, constAt, constAt, hlo, hhi, bind_some, bind_some] at h
  obtain ⟨l, hl, h⟩ := bind_eq_some_iff.1 h
  obtain ⟨u, hu, h⟩ := bind_eq_some_iff.1 h
  rw [ite_none_right_eq_some] at hl hu
  rwa [some.inj hl.2, some.inj hu.2]

lemma agrees_getMask (hasc : pins.Pairwise (·.port < ·.port)) :
    Agrees payloadBits noLanes valueOf cls .getMask pins := by
  rw [Agrees, column, arg_eq rfl hasc, arg_eq rfl hasc, foldKnown, findPort_map _ fun _ => rfl,
    findPort_map _ fun _ => rfl,
    findPort_map _ fun _ => rfl]
  rcases byPort pins 0 with - | a
  · exact agree_none_left _
  rcases hlo : byPort pins 2 with - | lo
  · exact agree_none_left _
  rcases hhi : byPort pins 3 with - | hi
  · exact agree_none_left _
  rcases hw : bitRange pins with - | w
  · exact agree_none_right _
  simp only [map_some, knownOperand, bitRange_eq hlo hhi hw]
  split_ifs
  · exact agree_none_left _
  · exact (agree_some _ _).2 rfl

lemma agrees_setMask (hasc : pins.Pairwise (·.port < ·.port)) :
    Agrees payloadBits noLanes valueOf cls .setMask pins := by
  rw [Agrees, column, arg_eq rfl hasc, arg_eq rfl hasc, arg_eq rfl hasc, foldKnown,
    findPort_map _ fun _ => rfl,
    findPort_map _ fun _ => rfl, findPort_map _ fun _ => rfl, findPort_map _ fun _ => rfl]
  rcases byPort pins 0 with - | a
  · exact agree_none_left _
  rcases hlo : byPort pins 2 with - | lo
  · exact agree_none_left _
  rcases hhi : byPort pins 3 with - | hi
  · exact agree_none_left _
  rcases byPort pins 4 with - | v
  · exact agree_none_left _
  rcases hw : bitRange pins with - | w
  · exact agree_none_right _
  simp only [map_some, knownOperand, bitRange_eq hlo hhi hw]
  split_ifs
  · exact agree_none_left _
  · exact (agree_some _ _).2 rfl

lemma reductionCount_eq {b : Driven} (hb : byPort pins 1 = some b) {n : ℕ}
    (h : reductionCount pins = some n) : n = b.value.toNat := by
  rw [reductionCount, constAt, hb, bind_some] at h
  obtain ⟨count, hc, h⟩ := bind_eq_some_iff.1 h
  rw [ite_none_right_eq_some] at hc h
  rw [← some.inj h.2, some.inj hc.2]

/-- `Rxor` and `Popcount` -/
lemma agrees_reduction {op : NtypeOp} (hop : op = .rxor ∨ op = .popcount)
    (hasc : pins.Pairwise (·.port < ·.port)) :
    Agrees payloadBits noLanes valueOf cls op pins := by
  rcases hop with rfl | rfl
  all_goals
    rw [Agrees, column, arg_eq rfl hasc, foldKnown, findPort_map _ fun _ => rfl,
      findPort_map _ fun _ => rfl]
    rcases byPort pins 0 with - | a
    · exact agree_none_left _
    rcases hb : byPort pins 1 with - | b
    · exact agree_none_left _
    rcases hc : reductionCount pins with - | n
    · exact agree_none_right _
    obtain rfl := reductionCount_eq hb hc
    simp only [map_some, length_map, knownOperand]
    by_cases hbad : pins.length ≠ 2 ∨ ¬justI64 b.value ∨ b.value < 0 ∨ intMax < b.value
    · rw [if_pos hbad]
      exact agree_none_left _
    · rw [if_neg hbad]
      exact (agree_some _ _).2 rfl

lemma foldl_sum (pins : List Driven) (r : ℤ) :
    (pins.map (knownOperand .sum cls)).foldl
    (fun r o => if o.bank = 0 then r + o.val else r - o.val) r =
      r + (ins .sum pins 0).sum - (ins .sum pins 1).sum := by
  induction pins generalizing r with
  | nil =>
    show r = r + 0 - 0
    simp
  | cons s pins ih =>
    rw [map_cons, foldl_cons, ih, ins, ins, ins, ins, filter_cons, filter_cons, knownOperand]
    rcases mod_two_eq_zero_or_one s.port with h | h
    all_goals
      simp only [sinkBank, sinkBankCount, h, beq_self_eq_true, if_true, map_cons, sum_cons]
      simp only [Nat.reduceBEq, false_eq_true, if_false, one_ne_zero]
      ring

lemma agrees_sum : Agrees payloadBits noLanes valueOf cls .sum pins := by
  have hsub : ∀ (l : List ℤ) (r : ℤ), l.foldl (· - ·) r = r - l.sum := by
    intro l
    induction l with
    | nil => exact fun r => (sub_zero r).symm
    | cons x l ih =>
      intro r
      rw [foldl_cons, ih, sum_cons]
      ring
  rw [Agrees, column, foldKnown, result, agree_some, foldl_sum, hsub, ← sum_eq_foldl, zero_add]

/-- `And`, `Or`, `Xor` and `Mult` fold their operands from the first one, or from the identity. -/
lemma foldl_eq_foldFirst {op : NtypeOp} {f : ℤ → ℤ → ℤ} {e : ℤ}
    (he : ∀ x, f e x = x) (hne : pins ≠ []) :
    (pins.map (knownOperand op cls)).foldl (fun r o => f r o.val) e = foldFirst f
    (pins.map (·.value)) := by
  obtain ⟨s, pins, rfl⟩ := exists_cons_of_ne_nil hne
  rw [foldl_map, map_cons, foldFirst, foldl_map]
  exact congrArg (fun x => pins.foldl (fun r t => f r t.value) x) (he s.value)

lemma agrees_and (hne : pins ≠ []) : Agrees payloadBits noLanes valueOf cls .and pins := by
  rw [Agrees, column, ins_of_one rfl]
  exact (agree_some _ _).2 (foldl_eq_foldFirst neg_one_land hne)

lemma agrees_or (hne : pins ≠ []) : Agrees payloadBits noLanes valueOf cls .or pins := by
  rw [Agrees, column, ins_of_one rfl]
  exact (agree_some _ _).2 (foldl_eq_foldFirst zero_lor hne)

lemma agrees_xor (hne : pins ≠ []) : Agrees payloadBits noLanes valueOf cls .xor pins := by
  rw [Agrees, column, ins_of_one rfl]
  exact (agree_some _ _).2 (foldl_eq_foldFirst zero_xor hne)

lemma agrees_mult (hne : pins ≠ []) : Agrees payloadBits noLanes valueOf cls .mult pins := by
  rw [Agrees, column, ins_of_one rfl]
  exact (agree_some _ _).2 (foldl_eq_foldFirst one_mul hne)

lemma foldl_ror (l : List ℤ) (c : Bool) :
    l.foldl (fun v x => flag (v != 0 || x != 0)) (flag c) = flag (c || l.any (· != 0)) := by
  induction l generalizing c with
  | nil => rw [foldl_nil, any_nil, Bool.or_false]
  | cons x l ih => rw [foldl_cons, flag_ne_zero, ih, any_cons, Bool.or_assoc]

lemma agrees_ror : Agrees payloadBits noLanes valueOf cls .ror pins := by
  rw [Agrees, column, foldKnown, ins_of_one rfl, result, agree_some]
  have hfo := foldl_ror (pins.map (·.value)) false
  refine Eq.trans ?_ hfo.symm
  rw [any_map, any_map]
  rfl

lemma agrees_eq : Agrees payloadBits noLanes valueOf cls .eq pins := by
  rw [Agrees, column, ins_of_one rfl]
  rcases pins with - | ⟨s, pins⟩
  · exact agree_none_left _
  refine (agree_some _ _).2 ?_
  have hfo := foldl_land_flag (s.value == ·) (pins.map (·.value)) true
  refine Eq.trans ?_ hfo.symm
  rw [all_map, all_map]
  rfl

/-! ### Comparisons -/

/-- Comparing all pairs of operands of two banks decides as comparing their sums does. -/
def Comparable (cmp : ℤ → ℤ → Bool) (as bs : List ℤ) : Prop :=
  as ≠ [] → bs ≠ [] → ((∀ a ∈ as, ∀ b ∈ bs, cmp a b = true) ↔ cmp as.sum bs.sum = true)

lemma compareBanks_eq (cmp : ℤ → ℤ → Bool) {as bs : List ℤ} (ha : as ≠ []) (hb : bs ≠ []) :
    compareBanks cmp as bs = some (flag (as.all fun a => bs.all fun b => cmp a b)) := by
  have hin : ∀ (c : Bool) (a : ℤ), bs.foldl (fun v b => v.land (flag (cmp a b))) (flag c) =
      (flag c).land (flag (bs.all fun b => cmp a b)) := by
    intro c a
    rw [foldl_land_flag, flag_land]
  have hou : ∀ (l : List ℤ) (c : Bool),
      l.foldl (fun v a => bs.foldl (fun v b => v.land (flag (cmp a b))) v) (flag c) =
      flag (c && l.all fun a => bs.all fun b => cmp a b) := by
    intro l
    induction l with
    | nil =>
      intro c
      rw [foldl_nil, all_nil, Bool.and_true]
    | cons a l ih =>
      intro c
      rw [foldl_cons, hin, flag_land, ih, all_cons, Bool.and_assoc]
  rw [compareBanks, if_neg]
  · exact congrArg some ((hou as true).trans (congrArg flag (true_and _)))
  · rw [or_eq_true, List.isEmpty_iff, List.isEmpty_iff]
    exact not_or.2 ⟨ha, hb⟩

section

variable {op : NtypeOp} (hop : op.sinkBankCount = 2)
include hop

lemma sinkBank_of_two (port : ℕ) : op.sinkBank port = port % 2 := by
  rw [sinkBank, hop]
  rfl

/-- The loop over the operands of a comparison. -/
lemma foldl_sides (pins : List Driven) (s : Sides) :
    (pins.map (knownOperand op cls)).foldl Sides.add s =
      ⟨s.a + (ins op pins 0).sum, s.b + (ins op pins 1).sum, s.hasA || !(ins op pins 0).isEmpty,
        s.hasB || !(ins op pins 1).isEmpty⟩ := by
  induction pins generalizing s with
  | nil =>
    show s = ⟨s.a + 0, s.b + 0, s.hasA || false, s.hasB || false⟩
    simp
  | cons p pins ih =>
    rw [map_cons, foldl_cons, ih, ins, ins, ins, ins, Sides.add, knownOperand]
    rcases mod_two_eq_zero_or_one p.port with h | h
    all_goals simp [sinkBank_of_two hop, h, add_assoc]

lemma agree_compare (cmp : ℤ → ℤ → Bool) :
    Agree ((foldCompare cmp (pins.map (knownOperand op cls))).result valueOf)
    (compareBanks cmp (ins op pins 0) (ins op pins 1)) ↔
      Comparable cmp (ins op pins 0) (ins op pins 1) := by
  rw [foldCompare, foldl_sides hop]
  rcases eq_or_ne (ins op pins 0) [] with ha | ha
  · simp [ha, Comparable, result]
  rcases eq_or_ne (ins op pins 1) [] with hb | hb
  · simp [hb, Comparable, result]
  rw [compareBanks_eq cmp ha hb]
  have hpos : ∀ l : List ℤ, l ≠ [] → (false || !l.isEmpty) = true := by
    intro l hl
    rwa [Bool.false_or, not_eq_true', isEmpty_eq_false_iff]
  simp only [hpos _ ha, hpos _ hb, zero_add, Bool.not_true, Bool.or_self, false_eq_true,
    if_false, result, agree_some,
    flag_inj, Comparable]
  rw [Bool.eq_iff_iff]
  simp only [all_eq_true]
  exact ⟨fun h _ _ => h.symm, fun h => (h ha hb).symm⟩

end

/-! ### Lanes -/

lemma foldl_max_range (m : ℕ) : (List.range (m + 1)).foldl max 0 = m := by
  induction m with
  | zero => rfl
  | succ m ih =>
    rw [List.range_succ, foldl_append, ih, foldl_cons, foldl_nil, max_eq_right (le_succ m)]

lemma concatLane_eq (hasc : pins.Pairwise (·.port < ·.port))
    (hc : ∀ s ∈ pins, s.port % 2 = 1 → s.isConst = true)
    {value width : Driven} (hv : value ∈ pins) (hw : width ∈ pins) {i : ℕ}
    (hvp : value.port = 2 * i)
    (hwp : width.port = 2 * i + 1)
    (hok : justI64 width.value ∧ 0 < width.value ∧ width.value ≤ intMax) :
    concatLane pins i = some (value.value, width.value.toNat) := by
  have hodd := hc width hw (by rw [hwp, mul_add_mod])
  rw [concatLane, constAt, ← hwp, ← hvp, byPort_of_mem hasc hv, byPort_of_mem hasc hw]
  simp only [bind_some, hodd]
  exact if_pos hok

/-- The lanes the folder accepts are those of the decoder, and the ports are dense. -/
lemma foldLanes_eq (hasc : pins.Pairwise (·.port < ·.port))
    (hc : ∀ s ∈ pins, s.port % 2 = 1 → s.isConst = true)
    (rest : List Driven) (hr : ∀ s ∈ rest, s ∈ pins) (i : ℕ) (lanes : List (ℤ × ℕ))
    (h : foldLanes payloadBits i (rest.map (knownOperand .concat cls)) = some lanes) :
    rest.map (·.port) = range' (2 * i) (2 * lanes.length) ∧
    (range' i lanes.length).mapM (concatLane pins) = some lanes := by
  match rest with
  | [] =>
    cases h
    exact ⟨rfl, rfl⟩
  | [_] => cases h
  | value :: width :: rest =>
    rw [map_cons, map_cons, foldLanes, ite_none_right_eq_some] at h
    obtain ⟨⟨hvp, hwp, hi64, hpos, hmax, -⟩, h⟩ := h
    obtain ⟨lanes', hl', rfl⟩ := map_eq_some_iff.1 h
    obtain ⟨hpo, hmap⟩ := foldLanes_eq hasc hc rest (fun s hs => hr s (.tail _ (.tail _ hs)))
      (i + 1) lanes' hl'
    have hla := concatLane_eq hasc hc (hr value (.head _)) (hr width (.tail _ (.head _)))
      hvp hwp ⟨hi64, hpos, hmax⟩
    refine ⟨?_, ?_⟩
    · rw [map_cons, map_cons, hpo]
      exact congrArg₂ cons hvp (congrArg₂ cons hwp rfl)
    · rw [length_cons, range'_succ, mapM_cons, hla, hmap]
      rfl

lemma agrees_concat (hasc : pins.Pairwise (·.port < ·.port))
    (hc : ∀ s ∈ pins, s.port % 2 = 1 → s.isConst = true)
    (hne : pins ≠ []) : Agrees payloadBits noLanes valueOf cls .concat pins := by
  rw [Agrees, foldKnown, column]
  rcases hfo : foldLanes payloadBits 0 (pins.map (knownOperand .concat cls)) with - | lanes
  · exact agree_none_left _
  obtain ⟨hpo, hmap⟩ := foldLanes_eq hasc hc pins (fun _ => id) 0 lanes hfo
  obtain ⟨n, hn⟩ : ∃ n, lanes.length = n + 1 := by
    refine exists_eq_succ_of_ne_zero fun h0 => hne ?_
    rw [h0] at hpo
    exact map_eq_nil_iff.1 hpo
  have hmax : maxPort pins = 2 * n + 1 := by
    rw [maxPort, ← foldl_map, hpo, hn, ← range_eq_range']
    exact foldl_max_range _
  have hl : concatLanes pins = lanes := by
    rw [concatLanes, hmax, if_neg,
      show (2 * n + 1 + 1) / 2 = lanes.length by omega, range_eq_range', hmap]
    · rfl
    · rw [or_eq_true, List.isEmpty_iff, beq_iff_eq]
      exact not_or.2 ⟨hne, by omega⟩
  rw [hl]
  obtain ⟨l, ls, rfl⟩ := exists_cons_of_length_eq_add_one hn
  exact (agree_some _ _).2 rfl

/-! ### Selectors -/

lemma agree_mux (hcls : ∀ s ∈ pins, valueOf (cls s) = some s.value) :
    Agree ((foldMux (pins.map (operand .mux cls))).result valueOf) (column noLanes .mux pins) := by
  rw [column]
  rcases hm : muxArms pins with - | m
  · exact agree_none_right _
  rw [muxArms.eq_def] at hm
  split at hm
  next s f t =>
    rw [ite_none_right_eq_some] at hm
    obtain ⟨⟨hs, hf, ht⟩, hm⟩ := hm
    cases hm
    have hvf := hcls f (by simp)
    have hvt := hcls t (by simp)
    by_cases hsa : cls t = cls f
    · have hft : f.value = t.value := by
        rw [hsa, hvf] at hvt
        exact some.inj hvt
      simp [foldMux, operand, hs, hsa, result, hvf, hft]
    · by_cases h0 : s.value = 0
      · simp [foldMux, operand, hs, hf, ht, hsa, h0, isTwoArm, findPort, result, hvf]
      · simp [foldMux, operand, hs, hf, ht, hsa, h0, isTwoArm, findPort, result, hvt]
  · cases hm

lemma selectedArms_cons (c v : Driven)
    (pairs : List (EvalOperand (Option ℤ) × EvalOperand (Option ℤ))) :
    selectedArms ((operand .hotmux cls c, operand .hotmux cls v) :: pairs) =
      if c.value = 0 then selectedArms pairs else cls v :: selectedArms pairs := by
  rw [selectedArms, filter_cons]
  by_cases h0 : c.value = 0
  · rw [if_neg, if_pos h0, selectedArms]
    rw [operand, h0]
    exact false_ne_true
  · rw [if_pos, if_neg h0]
    · rfl
    · rw [bne_iff_ne]
      exact fun h => h0 (some.inj h)

/-- The first selected arm of a `Hotmux` is its first active one; without one both fall back
alike. -/
lemma selectedArms_eq (pins : List Driven) (hcls : ∀ s ∈ pins, valueOf (cls s) = some s.value) :
    (hotPairs (pins.map (operand .hotmux cls))).1.all (·.1.val.isSome) = true ∧
      (∀ c cs, selectedArms (hotPairs (pins.map (operand .hotmux cls))).1 = c :: cs →
        valueOf c = some (firstActive (hotmuxInputs pins).1 (hotmuxInputs pins).2)) ∧
      (selectedArms (hotPairs (pins.map (operand .hotmux cls))).1 = [] →
        firstActive (hotmuxInputs pins).1 (hotmuxInputs pins).2 = (hotmuxInputs pins).2.getD 0) ∧
      (hotPairs (pins.map (operand .hotmux cls))).2.map
      (valueOf ·.cls) = (hotmuxInputs pins).2.map some := by
  match pins with
  | [] => exact ⟨rfl, nofun, fun _ => rfl, rfl⟩
  | [d] => exact ⟨rfl, nofun, fun _ => rfl, congrArg some (hcls d (.head _))⟩
  | c :: v :: rest =>
    obtain ⟨hall, hsel, hno, hfa⟩ := selectedArms_eq rest fun s hs => hcls s (.tail _ (.tail _ hs))
    simp only [map_cons, hotPairs, hotmuxInputs, selectedArms_cons, firstActive]
    by_cases h0 : c.value = 0
    · rw [if_pos h0, if_pos h0]
      exact ⟨hall, hsel, hno, hfa⟩
    · rw [if_neg h0, if_neg h0]
      refine ⟨hall, ?_, nofun, hfa⟩
      rintro k ks hk
      rw [← (cons.inj hk).1]
      exact hcls v (.tail _ (.head _))

lemma agree_hotmux (hcls : ∀ s ∈ pins, valueOf (cls s) = some s.value) :
    Agree ((foldHotmux (pins.map (operand .hotmux cls))).result valueOf)
    (column noLanes .hotmux pins) := by
  obtain ⟨hall, hsel, hno, hfa⟩ := selectedArms_eq pins hcls
  rw [foldHotmux, column]
  by_cases hem : ((hotmuxInputs pins).1.isEmpty && (hotmuxInputs pins).2.isNone) = true
  · rw [if_pos hem]
    exact agree_none_right _
  split
  · exact agree_none_left _
  split
  · exact agree_none_left _
  next p pairs fallback hpa =>
    rw [hpa] at hall hsel hno hfa
    rw [if_pos hall]
    split
    next c hc =>
      rw [result, hsel c [] hc]
      exact Agree.refl _
    next d hd =>
      rcases hin : (hotmuxInputs pins).2 with - | x
      all_goals rw [hin] at hfa hno
      · cases hfa
      · rw [result, hno hd, show valueOf d.cls = some x from some.inj hfa]
        exact Agree.refl _
    next hd =>
      rcases hin : (hotmuxInputs pins).2 with - | x
      all_goals rw [hin] at hfa hno
      · rw [hno hd]
        exact Agree.refl _
      · cases hfa
    · exact agree_none_left _

end

/-! ## The whole folder -/

/-- The condition a cell adds: only the comparisons have one. -/
def Consistent (op : NtypeOp) (pins : List Driven) : Prop :=
  match op with
  | .lt => Comparable (fun a b => decide (a < b)) (ins op pins 0) (ins op pins 1)
  | .gt => Comparable (fun a b => decide (a > b)) (ins op pins 0) (ins op pins 1)
  | _ => True

section

variable (payloadBits : ℤ → ℕ) (noLanes : Option ℤ) {op : NtypeOp} {cls : Driven → ℕ}
  {valueOf : ℕ → Option ℤ}

lemma mapM_operand (pins : List Driven) :
    ((pins.map (operand op cls)).mapM fun o => o.val.map
      fun v => ({ o with val := v } : EvalOperand ℤ)) =
      some (pins.map (knownOperand op cls)) := by
  induction pins with
  | nil => rfl
  | cons s pins ih =>
    rw [map_cons, mapM_cons, ih]
    rfl

variable {pins : List Driven}

lemma foldNode_of_strict (hne : pins ≠ []) (hop : isStrict op = true) :
    foldNode payloadBits op (pins.map (operand op cls)) = foldKnown payloadBits op
    (pins.map (knownOperand op cls)) := by
  rw [foldNode.eq_def, if_neg]
  · split
    · cases hop
    · cases hop
    · rw [mapM_operand]
  · rwa [List.isEmpty_iff, map_eq_nil_iff]

lemma foldNode_agree_iff (n : Sinks op) (hcls : ∀ s ∈ n.pins, valueOf (cls s) = some s.value) :
    Agree ((foldNode payloadBits op (n.pins.map (operand op cls))).result valueOf)
    (column noLanes op n.pins) ↔
      Consistent op n.pins := by
  obtain ⟨pins, hasc, hc⟩ := n
  rcases eq_or_ne pins [] with rfl | hne
  · refine ⟨fun _ => ?_, fun _ => agree_none_left _⟩
    cases op <;> first | trivial | exact fun h => absurd rfl h
  have hif : (pins.map (operand op cls)).isEmpty = false := by
    rw [isEmpty_eq_false_iff]
    exact fun h => hne (map_eq_nil_iff.1 h)
  have hst := @foldNode_of_strict payloadBits op cls pins hne
  cases op with
  | mux =>
    rw [foldNode, hif]
    exact iff_of_true (agree_mux hcls) trivial
  | hotmux =>
    rw [foldNode, hif]
    exact iff_of_true (agree_hotmux hcls) trivial
  | lt =>
    have htwo : lt.sinkBankCount = 2 := rfl
    rw [hst rfl, foldKnown]
    exact agree_compare htwo _
  | gt =>
    have htwo : gt.sinkBankCount = 2 := rfl
    rw [hst rfl, foldKnown]
    exact agree_compare htwo _
  | div | rem => exact iff_of_true (agree_none_right _) trivial
  | sum | mult | and | or | xor | ror | not | getMask | setMask | sext | concat | eq | shl |
      sra | rxor | popcount =>
    rw [hst rfl]
    refine iff_of_true ?_ trivial
    first
      | exact agrees_sum | exact agrees_mult hne | exact agrees_and hne | exact agrees_or hne
      | exact agrees_xor hne
      | exact agrees_ror | exact agrees_not | exact agrees_getMask hasc
      | exact agrees_setMask hasc | exact agrees_sext hasc
      | exact agrees_concat hasc (hc rfl) hne | exact agrees_eq | exact agrees_shl hasc hcls
      | exact agrees_sra hasc hcls
      | exact agrees_reduction (.inl rfl) hasc | exact agrees_reduction (.inr rfl) hasc

omit payloadBits noLanes

lemma eq_of_port_eq (hasc : pins.Pairwise (·.port < ·.port)) {s t : Driven}
    (hs : s ∈ pins) (ht : t ∈ pins)
    (hp : s.port = t.port) : s = t := by
  have hfi := byPort_of_mem hasc hs
  rw [hp, byPort_of_mem hasc ht] at hfi
  exact (some.inj hfi).symm

variable {args : List EvalArg}

section

variable (hasc : pins.Pairwise (·.port < ·.port)) (h : args.Perm (pins.map (evalArg op)))
include hasc h

lemma insertionSort_args : (args.zipIdx.insertionSort (·.1.port ≤ ·.1.port)).map Prod.fst =
    pins.map (evalArg op) := by
  have hpe : ((args.zipIdx.insertionSort (·.1.port ≤ ·.1.port)).map Prod.fst).Perm
      (pins.map (evalArg op)) := by
    refine ((perm_insertionSort (fun a b : EvalArg × ℕ => a.1.port ≤ b.1.port) _).map _).trans ?_
    rwa [zipIdx_map_fst]
  have hpi : (pins.map (evalArg op)).Pairwise (·.port ≤ ·.port) :=
    pairwise_map.2 (hasc.imp fun h => h.le)
  refine Perm.eq_of_pairwise (fun a b ha hb hab hba => ?_) ?_ hpi hpe
  · obtain ⟨s, hs, rfl⟩ := mem_map.1 (hpe.mem_iff.1 ha)
    obtain ⟨t, ht, rfl⟩ := mem_map.1 hb
    rw [eq_of_port_eq hasc hs ht (le_antisymm hab hba)]
  · exact pairwise_map.2 (pairwise_insertionSort (fun a b : EvalArg × ℕ => a.1.port ≤ b.1.port) _)

/-- Sorting the arguments gives the sinks back, each with the class of its argument. -/
lemma scratchOperands_eq : scratchOperands args =
    pins.map (operand op fun s => args.idxOf (evalArg op s)) := by
  have hnd : args.Nodup := by
    refine (Perm.nodup_iff h).2 (pairwise_map.2 (hasc.imp fun hlt heq => hlt.ne ?_))
    exact congrArg EvalArg.port heq
  have hpa : ∀ p ∈ args.zipIdx.insertionSort (·.1.port ≤ ·.1.port), p.2 = args.idxOf p.1 := by
    intro p hp
    obtain ⟨hlt, hget⟩ := List.getElem?_eq_some_iff.1
      (mem_zipIdx_iff_getElem?.1 ((mem_insertionSort _).1 hp))
    rw [← hget, hnd.idxOf_getElem]
  have hmap := congrArg (map fun a : EvalArg =>
    (⟨a.port, a.bank, args.idxOf a, some a.value⟩ : EvalOperand (Option ℤ)))
    (insertionSort_args hasc h)
  rw [map_map, map_map] at hmap
  refine Eq.trans (map_congr_left fun p hp => ?_) hmap
  rw [comp_apply, hpa p hp]

lemma evalOp_eq {payloadBits : ℤ → ℕ} :
    ∃ cls valueOf, (∀ s ∈ pins, valueOf (cls s) = some s.value) ∧
      evalOp payloadBits op args = (foldNode payloadBits op (pins.map (operand op cls))).result
      valueOf := by
  refine ⟨fun s => args.idxOf (evalArg op s), fun c => args[c]?.map (·.value), fun s hs => ?_, ?_⟩
  · show (args[args.idxOf (evalArg op s)]?).map (·.value) = some s.value
    rw [getElem?_idxOf (h.mem_iff.2 (mem_map_of_mem hs))]
    rfl
  · rw [evalOp, scratchOperands_eq hasc h]

end

end

/-- Where neither declines, the folder and the simulator give a cell the same integer exactly when
the cell is `Consistent`: the arguments of `evalOp` come in any order, and `foldNode` reads its
operands from classes that hold their integers. -/
theorem folder_agrees_iff_consistent (payloadBits : ℤ → ℕ) (noLanes : Option ℤ)
    {op : NtypeOp} (n : Sinks op) :
    (∀ args : List EvalArg, args.Perm (n.pins.map (evalArg op)) →
        (Agree (evalOp payloadBits op args) (column noLanes op n.pins) ↔ Consistent op n.pins)) ∧
      ∀ (cls : Driven → ℕ) (valueOf : ℕ → Option ℤ),
      (∀ s ∈ n.pins, valueOf (cls s) = some s.value) →
        (Agree ((foldNode payloadBits op (n.pins.map (operand op cls))).result valueOf)
          (column noLanes op n.pins) ↔
          Consistent op n.pins) := by
  refine ⟨fun args h => ?_, fun cls valueOf h => foldNode_agree_iff payloadBits noLanes n h⟩
  obtain ⟨cls, valueOf, hcls, heq⟩ := evalOp_eq n.ascending h
  rw [heq]
  exact foldNode_agree_iff payloadBits noLanes n hcls

/-- `5 < 7`, each side a single operand. -/
def lessThan : Sinks .lt where
  pins := [⟨0, false, 5⟩, ⟨1, false, 7⟩]
  ascending := by decide
  widths := nofun

theorem folder_agrees_lessThan :
    Agree (evalOp (fun _ => 64) .lt [⟨1, 1, 7⟩, ⟨0, 0, 5⟩]) (column none .lt lessThan.pins) := by
  refine ((folder_agrees_iff_consistent (fun _ => 64) none lessThan).1 _ (by decide)).2 fun _ _ =>
    ?_
  decide

/-- `5, 5 < 7`: two operands on the left. -/
def twoLessThan : Sinks .lt where
  pins := [⟨0, false, 5⟩, ⟨1, false, 7⟩, ⟨2, false, 5⟩]
  ascending := by decide
  widths := nofun

theorem twoLessThan_disagrees :
    evalOp (fun _ => 64) .lt (twoLessThan.pins.map (evalArg .lt)) = some 0 ∧
    column none .lt twoLessThan.pins = some 1 ∧
    ¬Agree (evalOp (fun _ => 64) .lt (twoLessThan.pins.map (evalArg .lt)))
    (column none .lt twoLessThan.pins) := by
  have hfold : evalOp (fun _ => 64) .lt (twoLessThan.pins.map (evalArg .lt)) = some 0 := by decide
  have hsim : column none .lt twoLessThan.pins = some 1 := by decide
  refine ⟨hfold, hsim, fun h => ?_⟩
  rw [hfold, hsim, agree_some] at h
  cases h

end LiveHD.Satopt
