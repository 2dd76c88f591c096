import LiveHD.Lib.IntBits

/-!
# The meaning of the combinational cells

`Ntype_op` of `graph/cell.hpp`: unlimited-precision integers, operands tagged with the sink bank
they occupy.  A value the cell does not determine, such as `x / 0` or an illegal window, is `none`;
every cell but the selectors is strict.
-/

namespace LiveHD

/-- The pure operators of `Ntype_op`. -/
inductive NtypeOp where
  | sum | mult | div | rem
  | and | or | xor | ror | not
  | getMask | setMask | sext | concat
  | lt | gt | eq
  | shl | sra
  | mux | hotmux
  | rxor | popcount
deriving DecidableEq

namespace Cell

open IntBits

variable {α : Type*}

/-- The first operand on a bank. -/
def byBank (args : List (ℕ × α)) (bank : ℕ) : Option α := (args.find? (·.1 == bank)).map (·.2)

/-- The operands of a bank. -/
def bank (args : List (ℕ × ℤ)) (p : ℕ → Bool) : List ℤ := (args.filter (p ·.1)).map (·.2)

def flag (b : Bool) : ℤ := if b then 1 else 0

/-- Number of ones among the low `n` bits. -/
def popcount (x : ℤ) (n : ℕ) : ℕ := (List.range n).countP x.testBit

/-- The lanes `(value, width)` of a `Concat`, most significant first. -/
def lanes : List ℤ → Option (List (ℤ × ℕ))
  | [] => some []
  | [_] => none
  | v :: w :: rest => if 0 < w then (lanes rest).map ((v, w.toNat) :: ·) else none

/-- The value of lanes, each masked into its window. -/
def concat (lanes : List (ℤ × ℕ)) : ℤ := lanes.foldl (fun acc l => acc * 2 ^ l.2 + l.1 % 2 ^ l.2) 0

/-- A bit window `[lo, hi)`: its first bit and its width. -/
def bitRange (lo hi : ℤ) : Option (ℕ × ℕ) :=
  if 0 ≤ lo ∧ lo < hi then some (lo.toNat, (hi - lo).toNat) else none

/-- A cell all of whose operands are known. -/
def evalKnown (op : NtypeOp) (args : List (ℕ × ℤ)) : Option ℤ :=
  match op with
  | .sum => some ((bank args (· == 0)).sum - (bank args (· != 0)).sum)
  | .mult => some (args.map (·.2)).prod
  | .and => some ((args.map (·.2)).foldr Int.land (-1))
  | .or => some ((args.map (·.2)).foldr Int.lor 0)
  | .xor => some ((args.map (·.2)).foldr Int.xor 0)
  | .ror => some (flag (args.any (·.2 != 0)))
  | .not => match args with
    | [(_, x)] => some (-x - 1)
    | _ => none
  | .eq => match args with
    | [] => some 1
    | a :: rest => some (flag (rest.all (·.2 == a.2)))
  | .lt => some (flag (decide ((bank args (· == 0)).sum < (bank args (· != 0)).sum)))
  | .gt => some (flag (decide ((bank args (· == 0)).sum > (bank args (· != 0)).sum)))
  | .getMask => do
    let (lo, n) ← bitRange (← byBank args 2) (← byBank args 3)
    some (window (← byBank args 0) lo n)
  | .setMask => do
    let (lo, n) ← bitRange (← byBank args 2) (← byBank args 3)
    some (splice (← byBank args 0) lo n (← byBank args 4))
  | .sext => do
    let b ← byBank args 1
    if 1 ≤ b then some (sext (← byBank args 0) b.toNat) else none
  | .shl => do
    let b ← byBank args 1
    if 0 ≤ b then some ((← byBank args 0) * 2 ^ b.toNat) else none
  | .sra => do
    let b ← byBank args 1
    if 0 ≤ b then some ((← byBank args 0) / 2 ^ b.toNat) else none
  | .div => do
    let b ← byBank args 1
    if b ≠ 0 then some ((← byBank args 0).tdiv b) else none
  | .rem => do
    let b ← byBank args 1
    if b ≠ 0 then some ((← byBank args 0).tmod b) else none
  | .rxor => do
    let b ← byBank args 1
    if 0 ≤ b then some ((popcount (← byBank args 0) b.toNat % 2 : ℕ)) else none
  | .popcount => do
    let b ← byBank args 1
    if 0 ≤ b then some (popcount (← byBank args 0) b.toNat) else none
  | .concat =>
    -- lane `i` lives at pids `2 i` and `2 i + 1`
    if args.map (·.1) = List.range args.length then (lanes (args.map (·.2))).map concat else none
  | .mux | .hotmux => none

/-- A `Mux`: two arms read the selector as a condition, more arms as an index. -/
def evalMux (args : List (ℕ × Option ℤ)) : Option ℤ := do
  let s ← (byBank args 0).join
  if args.map (·.1) = [0, 1, 2] then (byBank args (if s = 0 then 1 else 2)).join
  else if 0 ≤ s then (byBank args (s.toNat + 1)).join
  else none

/-- The active arms of a `Hotmux`, and its default. -/
def hotArms : List (Option ℤ) → Option (List (Option ℤ) × Option ℤ)
  | [] => some ([], some 0)
  | [d] => some ([], d)
  | c :: v :: rest => do
    let c ← c
    let (active, default) ← hotArms rest
    some (if c = 0 then active else v :: active, default)

/-- An exclusive `Hotmux`: at most one control is active. -/
def evalHotmux (args : List (ℕ × Option ℤ)) : Option ℤ :=
  if args.map (·.1) = List.range args.length then
    match hotArms (args.map (·.2)) with
    | some ([], default) => default
    | some ([v], _) => v
    | _ => none
  else none

/-- All operands, when each is known. -/
def known : List (ℕ × Option ℤ) → Option (List (ℕ × ℤ))
  | [] => some []
  | (b, x) :: args => do
    let x ← x
    let args ← known args
    some ((b, x) :: args)

/-- The value of a cell. -/
def evalOp (op : NtypeOp) (args : List (ℕ × Option ℤ)) : Option ℤ :=
  match op with
  | .mux => evalMux args
  | .hotmux => evalHotmux args
  | op => (known args).bind (evalKnown op)

/-! ## Cells on known operands -/

/-- The operators that need every operand. -/
def isStrict (op : NtypeOp) : Bool := op != .mux && op != .hotmux

lemma evalOp_of_strict {op : NtypeOp} (h : isStrict op = true) (args : List (ℕ × Option ℤ)) :
    evalOp op args = (known args).bind (evalKnown op) := by
  cases op <;> first | rfl | cases h

lemma known_eq_some {args : List (ℕ × Option ℤ)} {l : List (ℕ × ℤ)} :
    known args = some l ↔ List.Forall₂ (fun a x => a = (x.1, some x.2)) args l := by
  induction args generalizing l with
  | nil => cases l <;> simp [known]
  | cons a args ih =>
    obtain ⟨b, x⟩ := a
    cases x with
    | none =>
      cases l <;> simp [known]
    | some x =>
      cases l with
      | nil => cases h : known args <;> simp [known, h]
      | cons y l =>
        obtain ⟨c, y⟩ := y
        rw [List.forall₂_cons, ← ih]
        cases h : known args <;> simp [known, h]

@[simp] lemma known_nil : known [] = some [] := rfl

@[simp] lemma known_cons (b : ℕ) (x : ℤ) (args : List (ℕ × Option ℤ)) :
    known ((b, some x) :: args) = (known args).map ((b, x) :: ·) := by
  cases h : known args <;> simp [known, h]

@[simp] lemma known_map_append (b : ℕ) (xs : List ℤ) (args : List (ℕ × Option ℤ)) :
    known (xs.map (fun x => (b, some x)) ++ args) = (known args).map
    (xs.map (fun x => (b, x)) ++ ·) := by
  induction xs with
  | nil => simp
  | cons x xs ih =>
    simp only [List.map_cons, List.cons_append, known_cons, ih]
    cases known args <;> rfl

@[simp] lemma known_map (b : ℕ) (xs : List ℤ) :
    known (xs.map fun x => (b, some x)) = some (xs.map fun x => (b, x)) := by
  simpa using known_map_append b xs []

section

variable (p : ℕ → Bool) (b : ℕ)

@[simp] lemma bank_nil : bank [] p = [] := rfl

@[simp] lemma bank_cons (x : ℤ) (args : List (ℕ × ℤ)) :
    bank ((b, x) :: args) p = if p b then x :: bank args p else bank args p := by
  simp only [bank, List.filter_cons]
  split <;> rfl

@[simp] lemma bank_append (l r : List (ℕ × ℤ)) : bank (l ++ r) p = bank l p ++ bank r p := by
  simp [bank]

@[simp] lemma bank_map (xs : List ℤ) :
    bank (xs.map fun x => (b, x)) p = if p b then xs else [] := by
  induction xs with
  | nil => simp
  | cons x xs ih =>
    rw [List.map_cons, bank_cons, ih]
    split <;> rfl

end

section

variable (args : List (ℕ × Option ℤ))

attribute [local simp] evalOp evalKnown

@[simp] lemma evalOp_sum : evalOp .sum args = (known args).map fun l =>
    (bank l (· == 0)).sum - (bank l (· != 0)).sum := by
  cases h : known args <;> simp [h]

@[simp] lemma evalOp_mult : evalOp .mult args = (known args).map fun l => (l.map (·.2)).prod := by
  cases h : known args <;> simp [h]

@[simp] lemma evalOp_and : evalOp .and args = (known args).map fun l =>
    (l.map (·.2)).foldr Int.land (-1) := by
  cases h : known args <;> simp [h]

@[simp] lemma evalOp_or : evalOp .or args = (known args).map fun l =>
    (l.map (·.2)).foldr Int.lor 0 := by
  cases h : known args <;> simp [h]

@[simp] lemma evalOp_xor : evalOp .xor args = (known args).map fun l =>
    (l.map (·.2)).foldr Int.xor 0 := by
  cases h : known args <;> simp [h]

@[simp] lemma evalOp_ror : evalOp .ror args = (known args).map fun l =>
    flag (l.any (·.2 != 0)) := by
  cases h : known args <;> simp [h]

end

lemma flag_congr {p q : Prop} [Decidable p] [Decidable q] (h : p ↔ q) :
    flag (decide p) = flag (decide q) := by
  rw [decide_eq_decide.2 h]

lemma bitRange_of {lo hi : ℤ} (h0 : 0 ≤ lo) (h : lo < hi) :
    bitRange lo hi = some (lo.toNat, (hi - lo).toNat) := if_pos ⟨h0, h⟩

section

variable (x y z lo hi : ℤ)

@[simp] lemma evalOp_not : evalOp .not [(0, some x)] = some (-x - 1) := rfl

@[simp] lemma evalOp_getMask : evalOp .getMask [(0, some x), (2, some lo), (3, some hi)] =
    (bitRange lo hi).map fun w => window x w.1 w.2 := by
  show ((bitRange lo hi).bind fun w => some (window x w.1 w.2)) = _
  cases bitRange lo hi <;> rfl

@[simp] lemma evalOp_setMask :
    evalOp .setMask [(0, some x), (2, some lo), (3, some hi), (4, some y)] =
    (bitRange lo hi).map fun w => splice x w.1 w.2 y := by
  show ((bitRange lo hi).bind fun w => some (splice x w.1 w.2 y)) = _
  cases bitRange lo hi <;> rfl

@[simp] lemma evalOp_sext : evalOp .sext [(0, some x), (1, some y)] = if 1 ≤ y then
    some (sext x y.toNat) else none := rfl

@[simp] lemma evalOp_shl : evalOp .shl [(0, some x), (1, some y)] = if 0 ≤ y then
    some (x * 2 ^ y.toNat) else none := rfl

@[simp] lemma evalOp_sra : evalOp .sra [(0, some x), (1, some y)] = if 0 ≤ y then
    some (x / 2 ^ y.toNat) else none := rfl

@[simp] lemma evalOp_div : evalOp .div [(0, some x), (1, some y)] = if y ≠ 0 then some (x.tdiv y)
    else none := rfl

@[simp] lemma evalOp_rem : evalOp .rem [(0, some x), (1, some y)] = if y ≠ 0 then some (x.tmod y)
    else none := rfl

@[simp] lemma evalOp_eq : evalOp .eq [(0, some x), (0, some y)] = some (flag (decide (x = y))) := by
  show some (flag ([(0, y)].all (·.2 == x))) = _
  rw [flag_congr (eq_comm (a := x))]
  simp [flag]

@[simp] lemma evalOp_lt : evalOp .lt [(0, some x), (1, some y)] = some (flag (decide (x < y))) := by
  show some (flag (decide (x + 0 < y + 0))) = _
  simp

@[simp] lemma evalOp_gt : evalOp .gt [(0, some x), (1, some y)] = some (flag (decide (x > y))) := by
  show some (flag (decide (x + 0 > y + 0))) = _
  simp

lemma evalOp_concat_one {n : ℤ} (hn : 0 < n) :
    evalOp .concat [(0, some x), (1, some n)] = some (x % 2 ^ n.toNat) := by
  show ((lanes [x, n]).map concat) = _
  simp [lanes, concat, hn]

lemma evalOp_concat_two {m n : ℤ} (hm : 0 < m) (hn : 0 < n) :
    evalOp .concat [(0, some x), (1, some m), (2, some y), (3, some n)] =
      some (x % 2 ^ m.toNat * 2 ^ n.toNat + y % 2 ^ n.toNat) := by
  show ((lanes [x, m, y, n]).map concat) = _
  simp [lanes, concat, hm, hn]

@[simp] lemma evalOp_mux (s f t : Option ℤ) : evalOp .mux [(0, s), (1, f), (2, t)] = s.bind fun s =>
    if s = 0 then f else t := by
  cases s with
  | none => rfl
  | some s =>
    by_cases h : s = 0
    · subst h
      rfl
    · simp [evalOp, evalMux, byBank, h]

end

/-! ## Packed lanes -/

/-- The width of all lanes. -/
def width (ls : List (ℤ × ℕ)) : ℕ := (ls.map (·.2)).sum

@[simp] lemma width_nil : width [] = 0 := rfl

@[simp] lemma width_cons (v : ℤ) (w : ℕ) (ls : List (ℤ × ℕ)) :
    width ((v, w) :: ls) = w + width ls := by
  simp [width]

lemma concat_foldl (acc : ℤ) (ls : List (ℤ × ℕ)) :
    ls.foldl (fun acc l => acc * 2 ^ l.2 + l.1 % 2 ^ l.2) acc = acc * 2 ^ width ls + concat ls := by
  induction ls generalizing acc with
  | nil => simp [concat]
  | cons l ls ih =>
    rw [concat, List.foldl_cons, List.foldl_cons, ih, ih, width_cons]
    ring

@[simp] lemma concat_nil : concat [] = 0 := rfl

lemma concat_cons (v : ℤ) (w : ℕ) (ls : List (ℤ × ℕ)) :
    concat ((v, w) :: ls) = v % 2 ^ w * 2 ^ width ls + concat ls := by
  rw [concat, List.foldl_cons, concat_foldl]
  ring

lemma concat_nonneg (ls : List (ℤ × ℕ)) : 0 ≤ concat ls := by
  induction ls with
  | nil => rfl
  | cons l ls ih =>
    rw [concat_cons]
    have := Int.emod_nonneg l.1 (two_pow_pos l.2).ne'
    positivity

lemma concat_lt (ls : List (ℤ × ℕ)) : concat ls < 2 ^ width ls := by
  induction ls with
  | nil => simp
  | cons l ls ih =>
    obtain ⟨v, w⟩ := l
    have hmod := Int.emod_lt_of_pos v (two_pow_pos w)
    have hpos := two_pow_pos (width ls)
    rw [concat_cons, width_cons, pow_add]
    calc v % 2 ^ w * 2 ^ width ls + concat ls
        < v % 2 ^ w * 2 ^ width ls + 2 ^ width ls := by linarith
      _ = (v % 2 ^ w + 1) * 2 ^ width ls := by ring
      _ ≤ 2 ^ w * 2 ^ width ls := mul_le_mul_of_nonneg_right (by linarith) hpos.le

/-- The first lane is the most significant one. -/
lemma testBit_concat_cons (v : ℤ) (w : ℕ) (ls : List (ℤ × ℕ)) (i : ℕ) :
    (concat ((v, w) :: ls)).testBit i =
      if i < width ls then (concat ls).testBit i else decide (i - width ls < w) &&
      v.testBit (i - width ls) := by
  rw [concat_cons, testBit_append _ (concat_nonneg ls) (concat_lt ls), testBit_mod]

lemma testBit_concat_singleton (v : ℤ) (w i : ℕ) :
    (concat [(v, w)]).testBit i = (decide (i < w) && v.testBit i) := by
  rw [concat, List.foldl_cons, List.foldl_nil, zero_mul, zero_add, testBit_mod]

/-- The last lane is the least significant one. -/
lemma testBit_concat_concat (ls : List (ℤ × ℕ)) (v : ℤ) (w i : ℕ) :
    (concat (ls ++ [(v, w)])).testBit i = if i < w then v.testBit i
    else (concat ls).testBit (i - w) := by
  have hco : concat (ls ++ [(v, w)]) = concat ls * 2 ^ w + v % 2 ^ w := by simp [concat]
  rw [hco, testBit_append _ (Int.emod_nonneg v (two_pow_pos w).ne')
    (Int.emod_lt_of_pos v (two_pow_pos w)), testBit_mod]
  by_cases hi : i < w
  · rw [if_pos hi, if_pos hi, decide_eq_true hi, Bool.true_and]
  · rw [if_neg hi, if_neg hi]

end Cell

end LiveHD
