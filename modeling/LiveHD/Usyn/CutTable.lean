import LiveHD.Usyn.Unate

/-!
# Tables of cuts

The 256-bit tables of `pass/usyn/lut_cover.cpp`: a function of eight variables, of which one
of fewer variables ignores the last ones.  Variables are exchanged, tested and dropped on the
four words of a table; here they are read back as functions of an assignment of the variables.
-/

namespace LiveHD.Usyn.LutCover

open BitVec hiding lt_trichotomy
open Bool hiding true_and
open Synth Function List Equiv Nat

abbrev Table := Fin 4 → Word

def kVar (j : ℕ) : Word :=
  [0xAAAAAAAAAAAAAAAA#64, 0xCCCCCCCCCCCCCCCC#64, 0xF0F0F0F0F0F0F0F0#64,
    0xFF00FF00FF00FF00#64, 0xFFFF0000FFFF0000#64,
    0xFFFFFFFF00000000#64].getD j 0

def kOnes : Table := fun _ => BitVec.allOnes 64

def varTable (j : ℕ) : Table := fun w =>
  if j < 6 then kVar j else if w.val.testBit (j - 6) then BitVec.allOnes 64 else 0

/-- Exchange two variables `i < j < 6` of a word. -/
def swap64 (t : Word) (i j : ℕ) : Word :=
  let shift := 2 ^ j - 2 ^ i
  let m := kVar i &&& ~~~kVar j
  (t &&& ~~~(m ||| (m <<< shift))) ||| ((t &&& m) <<< shift) ||| ((t >>> shift) &&& m)

/-- `swap_vars` for `i < j`. -/
def swapOrdered (t : Table) (i j : ℕ) : Table :=
  if j < 6 then
    fun w => swap64 (t w) i j
  else if i < 6 then
    -- `j` selects words: a word and its partner exchange their hal
    fun w =>
      let partner : Fin 4 := Fin.ofNat 4 (w.val ^^^ 2 ^ (j - 6))
      if w.val.testBit (j - 6) then
        (t w &&& kVar i) ||| ((t partner &&& kVar i) >>> 2 ^ i)
      else
        (t w &&& ~~~kVar i) ||| ((t partner &&& ~~~kVar i) <<< 2 ^ i)
  else
    ![t 0, t 2, t 1, t 3]

def swapVars (t : Table) (i j : ℕ) : Table :=
  if i = j then t else if j < i then swapOrdered t j i else swapOrdered t i j

def depends (t : Table) (j : ℕ) : Bool :=
  if j < 6 then
    (List.finRange 4).any fun w => ((t w >>> 2 ^ j) &&& ~~~kVar j) != (t w &&& ~~~kVar j)
  else
    (finRange 4).any fun w => !w.val.testBit (j - 6) &&
      t w != t (Fin.ofNat 4 (w.val ||| 2 ^ (j - 6)))

/-- `to_truth`: the table over its first `n` variables. -/
def toTruth (t : Table) (n : ℕ) : Unate.TruthTable where
  inputs := n
  words := if n < 6 then [t 0 &&& ((1#64 <<< 2 ^ n) - 1#64)] else (List.ofFn t).take (2 ^ (n - 6))

/-- The function of `2 ^ m` rows over the functions `e`. -/
def compose (eval : ℕ → Bool) (e : List Table) : Table := fun w =>
  ((List.range (2 ^ e.length)).filter eval).foldl (fun t y =>
    t ||| (e.mapIdx fun j t => if y.testBit j then t w else ~~~t w).foldl (· &&& ·) (allOnes 64))
    0#64

/-- A cut: the function of a node over its leaves, in ascending order.  The cost, depth and
duplication data of a cut only rank it. -/
structure Cut where
  leaves : List ℕ := []
  table : Table := fun _ => 0

/-- `std::lower_bound` -/
def lowerBound (u : List ℕ) (x : ℕ) : ℕ := u.findIdx (x ≤ ·)

/-- The table of a cut over the sorted union `u` of leaves, a superset of its own. -/
def expand (c : Cut) (u : List ℕ) : Table :=
  (List.range c.leaves.length).foldr
    (fun i t => swapVars t i (lowerBound u (c.leaves.getD i 0))) c.table

/-- Drop the leaf `j`: its variable moves behind the others. -/
def dropLeaf (c : Cut) (j : ℕ) : Cut where
  leaves := c.leaves.eraseIdx j
  table := (List.range' j (c.leaves.length - 1 - j)).foldl (fun t q => swapVars t q (q + 1)) c.table

/-- Drop the leaves outside the support. -/
def reduce (c : Cut) : Cut :=
  (List.range c.leaves.length).foldr (fun j c => if depends c.table j then c else dropLeaf c j) c

/-! ## Tables as functions -/

def Table.get (t : Table) (x : ℕ) : Bool := (t (Fin.ofNat 4 (x / 64))).getLsbD (x % 64)

/-- The row of an assignment of the eight variables. -/
def row (a : ℕ → Bool) : ℕ := rowIndex (List.range 8) a

/-- The value of a table under an assignment of its variables. -/
def Table.app (t : Table) (a : ℕ → Bool) : Bool := t.get (row a)

lemma row_lt (a : ℕ → Bool) : row a < 256 := rowIndex_lt _ a

variable {j : ℕ}

lemma testBit_row (a : ℕ → Bool) (hj : j < 8) : (row a).testBit j = a j := by
  rw [row, testBit_rowIndex, getElem?_range hj]
  rfl

variable {x : ℕ}

lemma row_eq_of_testBit {a : ℕ → Bool} (hx : x < 256)
    (h : ∀ j < 8, x.testBit j = a j) : row a = x := by
  refine Nat.eq_of_testBit_eq fun j => ?_
  rcases Nat.lt_or_ge j 8 with hj | hj
  · rw [testBit_row a hj, h j hj]
  · have hle := Nat.pow_le_pow_right Nat.two_pos hj
    rw [testBit_lt_two_pow ((row_lt a).trans_le hle), testBit_lt_two_pow (hx.trans_le hle)]

/-- A row with the bits of two variables exchanged. -/
def swapRow (i j x : ℕ) : ℕ := if x.testBit i = x.testBit j then x else x ^^^ 2 ^ i ^^^ 2 ^ j

lemma get_varTable : ∀ j < 8, ∀ x < 256, (varTable j).get x = x.testBit j := by decide +kernel

lemma or_two_pow_low : ∀ j < 6, ∀ x < 256, x ||| 2 ^ j =
    if (x % 64).testBit j then x else 64 * (x / 64) + (2 ^ j + x % 64) := by decide +kernel

lemma or_two_pow_high : ∀ b < 2, ∀ x < 256, x ||| 2 ^ (6 + b) =
    if (x / 64).testBit b then x else 64 * ((x / 64) ||| 2 ^ b) + x % 64 := by decide +kernel

lemma getLsbD_kVar : ∀ j < 6, ∀ r < 64, (kVar j).getLsbD r = r.testBit j := by decide

lemma xor_div_64 (a b : ℕ) : (a ^^^ b) / 64 = a / 64 ^^^ b / 64 := xor_div_two_pow (n := 6)

lemma xor_mod_64 (a b : ℕ) : (a ^^^ b) % 64 = a % 64 ^^^ b % 64 := xor_mod_two_pow (n := 6)

lemma testBit_mod_64 (x : ℕ) {k : ℕ} (hk : k < 6) : (x % 64).testBit k = x.testBit k := by
  rw [show 64 = 2 ^ 6 from rfl, testBit_mod_two_pow, decide_eq_true hk, Bool.true_and]

lemma two_pow_div_mod : ∀ k < 6, 2 ^ k / 64 = 0 ∧ 2 ^ k % 64 = 2 ^ k := by decide

lemma swapRow_word {i : ℕ} (hi : i < 6) (hj : j < 6) (x : ℕ) :
    swapRow i j x / 64 = x / 64 ∧ swapRow i j x % 64 = swapRow i j (x % 64) := by
  rw [swapRow, swapRow, testBit_mod_64 x hi, testBit_mod_64 x hj]
  split
  · exact ⟨rfl, rfl⟩
  · rw [xor_div_64, xor_div_64, xor_mod_64, xor_mod_64, (two_pow_div_mod i hi).1,
      (two_pow_div_mod j hj).1,
      (two_pow_div_mod i hi).2, (two_pow_div_mod j hj).2, Nat.xor_zero, Nat.xor_zero]
    exact ⟨rfl, rfl⟩

/-- The rows of a word that exchanging `i` and `j` takes from above. -/
def fromAbove (i j r : ℕ) : Bool := r.testBit i && !r.testBit j

/-- Those it takes from below. -/
def fromBelow (i j r : ℕ) : Bool := !decide (r < 2 ^ j - 2 ^ i) &&
    fromAbove i j (r - (2 ^ j - 2 ^ i))

lemma fromAbove_fromBelow : ∀ i < 6, ∀ j < 6, i < j →
    ∀ r < 64, (fromAbove i j r && fromBelow i j r) = false := by decide

lemma swapRow_eq : ∀ i < 6, ∀ j < 6, i < j → ∀ r < 64, swapRow i j r =
    if fromAbove i j r then 2 ^ j - 2 ^ i + r
    else if fromBelow i j r then r - (2 ^ j - 2 ^ i) else r := by decide

variable {i : ℕ}

lemma getLsbD_swap64 (t : Word) {r : ℕ} (hij : i < j) (hj : j < 6) (hr : r < 64) :
    (swap64 t i j).getLsbD r = t.getLsbD (swapRow i j r) := by
  have hi := hij.trans hj
  have hm : ∀ r < 64, (kVar i &&& ~~~kVar j).getLsbD r = fromAbove i j r := by
    intro r hr
    rw [getLsbD_and, getLsbD_not, getLsbD_kVar i hi r hr, getLsbD_kVar j hj r hr, decide_eq_true hr,
      Bool.true_and, fromAbove]
  have hba : r - (2 ^ j - 2 ^ i) < 64 := (sub_le _ _).trans_lt hr
  have hrd : (swap64 t i j).getLsbD r = ((t.getLsbD r && !(fromAbove i j r || fromBelow i j r)) ||
      (t.getLsbD (r - (2 ^ j - 2 ^ i)) && fromBelow i j r) ||
        (t.getLsbD (2 ^ j - 2 ^ i + r) && fromAbove i j r)) := by
    simp only [swap64, getLsbD_or, getLsbD_and, getLsbD_not, getLsbD_shiftLeft,
      getLsbD_ushiftRight, hm r hr, hm _ hba, decide_eq_true hr, Bool.true_and, fromBelow]
    rw [Bool.and_left_comm]
  have hone := fromAbove_fromBelow i hi j hj hij r hr
  rw [hrd, swapRow_eq i hi j hj hij r hr]
  cases hup : fromAbove i j r with
  | true =>
    rw [hup, Bool.true_and] at hone
    simp [hone]
  | false => cases hdo : fromBelow i j r <;> simp

/-! ## Exchanging variables -/

lemma xor_two_pow : ∀ i < 6, ∀ r < 64, r ^^^ 2 ^ i = if r.testBit i then r - 2 ^ i
    else 2 ^ i + r := by decide

/-- How a variable that selects words and one that does not are exchanged. -/
lemma swapRow_mixed (hi : i < 6) {b : ℕ} (hb : b < 2) (x : ℕ) :
    swapRow i (6 + b) x = if (x / 64).testBit b = (x % 64).testBit i then x
    else 64 * ((x / 64) ^^^ 2 ^ b) + if (x / 64).testBit b then 2 ^ i + x % 64
    else x % 64 - 2 ^ i := by
  have hhi : (x / 64).testBit b = x.testBit (6 + b) := by
    rw [show 64 = 2 ^ 6 from rfl, testBit_div_two_pow, Nat.add_comm]
  have hpow : ∀ b < 2, 2 ^ (6 + b) / 64 = 2 ^ b ∧ 2 ^ (6 + b) % 64 = 0 := by decide
  rw [swapRow, ← hhi, ← testBit_mod_64 x hi]
  by_cases h : (x / 64).testBit b = (x % 64).testBit i
  · rw [if_pos h, if_pos h.symm]
  · rw [if_neg h, if_neg (Ne.symm h), ← Nat.div_add_mod (x ^^^ 2 ^ i ^^^ 2 ^ (6 + b)) 64,
      xor_div_64, xor_div_64, xor_mod_64,
      xor_mod_64, (two_pow_div_mod i hi).1, (two_pow_div_mod i hi).2, (hpow b hb).1, (hpow b hb).2,
      Nat.xor_zero, Nat.xor_zero,
      xor_two_pow i hi _ (Nat.mod_lt x (by decide))]
    cases hb : (x / 64).testBit b <;> cases hi : (x % 64).testBit i <;> simp_all

/-- The rows that one bit above or below a row are reached by a shift. -/
lemma testBit_above : ∀ i < 6, ∀ r < 64, (decide (2 ^ i + r < 64) && (2 ^ i + r).testBit i) =
    !r.testBit i := by decide

lemma testBit_below : ∀ i < 6, ∀ r < 64, (!decide (r < 2 ^ i) && !(r - 2 ^ i).testBit i) =
    r.testBit i := by decide

lemma getLsbD_kVar_eq (hj : j < 6) (r : ℕ) :
    (kVar j).getLsbD r = (decide (r < 64) && r.testBit j) := by
  rcases lt_or_ge r 64 with hr | hr
  · rw [getLsbD_kVar j hj r hr, decide_eq_true hr, Bool.true_and]
  · rw [BitVec.getLsbD_of_ge _ _ hr, decide_eq_false (Nat.not_lt.2 hr), Bool.false_and]

open Table

lemma Table.get_add (t : Table) (w : ℕ) {r : ℕ} (hr : r < 64) :
    t.get (64 * w + r) = (t (Fin.ofNat 4 w)).getLsbD r := by
  rw [get, mul_add_div (by decide), div_eq_of_lt hr, add_zero, mul_add_mod, mod_eq_of_lt hr]

lemma get_swapOrdered_mixed (t : Table) {b : ℕ} (hi : i < 6) (hb : b < 2) (hx : x < 256) :
    (swapOrdered t i (6 + b)).get x = t.get (swapRow i (6 + b) x) := by
  have hr : x % 64 < 64 := Nat.mod_lt x (by decide)
  have hw : x / 64 < 4 := Nat.div_lt_of_lt_mul hx
  have hval : (Fin.ofNat 4 (x / 64)).val = x / 64 := mod_eq_of_lt hw
  have hab := testBit_above i hi _ hr
  have hbe := testBit_below i hi _ hr
  have hba : x % 64 - 2 ^ i < 64 := (sub_le _ _).trans_lt hr
  rw [swapRow_mixed hi hb]
  simp only [swapOrdered, Nat.not_lt.2 (le_add_right 6 b), if_false, if_pos hi,
    Nat.add_sub_cancel_left]
  rw [Table.get, hval]
  cases hsel : (x / 64).testBit b with
  | true =>
    simp only [if_true, getLsbD_or, getLsbD_and, getLsbD_ushiftRight, getLsbD_kVar i hi _ hr,
      getLsbD_kVar_eq hi, hab]
    cases hbit : (x % 64).testBit i with
    | true => simp [Table.get]
    | false =>
      rw [hbit, Bool.not_false, and_eq_true, decide_eq_true_eq] at hab
      simp [get_add _ _ hab.1]
  | false =>
    simp only [false_eq_true, if_false, getLsbD_or, getLsbD_and, getLsbD_shiftLeft, getLsbD_not,
      getLsbD_kVar i hi _ hr, getLsbD_kVar i hi _ hba, decide_eq_true hr,
        decide_eq_true hba, Bool.true_and]
    rw [Bool.and_left_comm, hbe]
    cases hbit : (x % 64).testBit i with
    | true => simp [get_add _ _ hba]
    | false => simp [Table.get]

lemma get_swapOrdered (t : Table) (hij : i < j) (hj : j < 8) (hx : x < 256) :
    (swapOrdered t i j).get x = t.get (swapRow i j x) := by
  rcases lt_or_ge j 6 with hj6 | hj6
  · obtain ⟨hw, hr⟩ := swapRow_word (hij.trans hj6) hj6 x
    rw [swapOrdered, if_pos hj6, Table.get, Table.get, hw, hr]
    exact getLsbD_swap64 _ hij hj6 (mod_lt x (by decide))
  · obtain ⟨b, rfl⟩ := Nat.exists_eq_add_of_le hj6
    rcases Nat.lt_or_ge i 6 with hi6 | hi6
    · exact get_swapOrdered_mixed t hi6 (by omega) hx
    · -- the variables 6 and 7
      obtain rfl : i = 6 := by omega
      obtain rfl : b = 1 := by omega
      have hw : ∀ x < 256, swapRow 6 7 x / 64 = [0, 2, 1, 3].getD (x / 64) 0 ∧
        swapRow 6 7 x % 64 = x % 64 := by decide +kernel
      obtain ⟨hwo, hrow⟩ := hw x hx
      have hpi : ∀ w < 4, ![t 0, t 2, t 1, t 3] (Fin.ofNat 4 w) =
          t (Fin.ofNat 4 ([0, 2, 1, 3].getD w 0)) := by
        intro w hw
        match w, hw with
        | 0, _ | 1, _ | 2, _ | 3, _ => rfl
      rw [swapOrdered, if_neg (by decide), if_neg (by decide), Table.get, Table.get, hwo, hrow,
        hpi _ (Nat.div_lt_of_lt_mul hx)]

lemma swapRow_comm (i j x : ℕ) : swapRow i j x = swapRow j i x := by
  simp only [swapRow, eq_comm (b := x.testBit j), Nat.xor_assoc, Nat.xor_comm (2 ^ i)]

lemma get_swapVars (t : Table) (hi : i < 8) (hj : j < 8) (hx : x < 256) :
    (swapVars t i j).get x = t.get (swapRow i j x) := by
  unfold swapVars
  rcases lt_trichotomy i j with hij | rfl | hij
  · rw [if_neg hij.ne, if_neg hij.asymm, get_swapOrdered t hij hj hx]
  · rw [if_pos rfl, swapRow, if_pos rfl]
  · rw [if_neg hij.ne', if_pos hij, get_swapOrdered t hij hi hx, swapRow_comm]

lemma testBit_swapRow (i j x k : ℕ) : (swapRow i j x).testBit k = x.testBit (Equiv.swap i j k) := by
  unfold swapRow
  split
  next heq =>
    rcases eq_or_ne k i with rfl | hki
    · rw [swap_apply_left, heq]
    · rcases eq_or_ne k j with rfl | hkj
      · rw [swap_apply_right, heq]
      · rw [swap_apply_of_ne_of_ne hki hkj]
  next hne =>
    have hij : i ≠ j := fun h => hne (by rw [h])
    have hnot := (eq_not_of_ne (Ne.symm hne))
    rcases eq_or_ne k i with rfl | hki
    · simp [hij.symm, hnot]
    · rcases eq_or_ne k j with rfl | hkj
      · simp [hij, hnot]
      · simp [hki.symm, hkj.symm, swap_apply_of_ne_of_ne hki hkj]

lemma swapRow_lt (hi : i < 8) (hj : j < 8) (hx : x < 256) : swapRow i j x < 256 := by
  have hpow : ∀ k < 8, 2 ^ k < 2 ^ 8 := fun k hk => Nat.pow_lt_pow_right Nat.one_lt_two hk
  unfold swapRow
  split
  · exact hx
  · exact Nat.xor_lt_two_pow (n := 8) (Nat.xor_lt_two_pow (n := 8) hx (hpow i hi)) (hpow j hj)

lemma swap_lt {k : ℕ} (hi : i < 8) (hj : j < 8) (hk : k < 8) : Equiv.swap i j k < 8 := by
  rw [swap_apply_def]
  split_ifs
  · exact hj
  · exact hi
  · exact hk

/-- `swap_vars` exchanges two variables. -/
lemma app_swapVars (t : Table) (hi : i < 8) (hj : j < 8) (a : ℕ → Bool) :
    (swapVars t i j).app a = t.app (a ∘ Equiv.swap i j) := by
  rw [app, get_swapVars t hi hj (row_lt a)]
  congr 1
  refine (row_eq_of_testBit (swapRow_lt hi hj (row_lt a)) fun k hk => ?_).symm
  rw [testBit_swapRow, testBit_row a (swap_lt hi hj hk), comp_apply]

lemma app_varTable (hj : j < 8) (a : ℕ → Bool) : (varTable j).app a = a j := by
  rw [Table.app, get_varTable j hj _ (row_lt a), testBit_row a hj]

/-! ## Support -/

variable {t : Table}

lemma get_of_not_depends (hj : j < 8) (h : depends t j = false) (hx : x < 256) :
    t.get (x ||| 2 ^ j) = t.get x := by
  have hr : x % 64 < 64 := Nat.mod_lt x (by decide)
  rcases lt_or_ge j 6 with hj6 | hj6
  · rw [depends, if_pos hj6, any_eq_false] at h
    have hw := h (Fin.ofNat 4 (x / 64)) (mem_finRange _)
    rw [not_eq_true, bne_eq_false_iff_eq] at hw
    rw [or_two_pow_low j hj6 x hx]
    split
    · rfl
    next hbit =>
      rw [not_eq_true] at hbit
      have hab := testBit_above j hj6 _ hr
      rw [hbit, Bool.not_false, and_eq_true, decide_eq_true_eq] at hab
      have hrd := congrArg (·.getLsbD (x % 64)) hw
      simp only [getLsbD_and, getLsbD_not, getLsbD_ushiftRight, getLsbD_kVar j hj6 _ hr, hbit,
        decide_eq_true hr, Bool.not_false, Bool.and_true] at hrd
      rw [get_add _ _ hab.1, hrd, Table.get]
  · obtain ⟨b, rfl⟩ := Nat.exists_eq_add_of_le hj6
    rw [depends, if_neg (Nat.not_lt.2 hj6), any_eq_false] at h
    have hw := h (Fin.ofNat 4 (x / 64)) (mem_finRange _)
    have hval : (Fin.ofNat 4 (x / 64)).val = x / 64 := mod_eq_of_lt (Nat.div_lt_of_lt_mul hx)
    rw [hval, Nat.add_sub_cancel_left] at hw
    rw [or_two_pow_high b (by omega) x hx]
    split
    · rfl
    next hbit =>
      rw [not_eq_true] at hbit
      rw [hbit, Bool.not_false, Bool.true_and, not_eq_true, bne_eq_false_iff_eq] at hw
      rw [get_add _ _ hr, ← hw, Table.get]

lemma not_depends_of_get (hj : j < 8) (h : ∀ x < 256, t.get (x ||| 2 ^ j) = t.get x) :
    depends t j = false := by
  have hlt : ∀ (w : Fin 4) {r : ℕ}, r < 64 → 64 * w.val + r < 256 := by
    intro w r hr
    omega
  have hwo : ∀ (w : Fin 4) {r : ℕ}, r < 64 → (64 * w.val + r) / 64 = w.val ∧
      (64 * w.val + r) % 64 = r := by
    intro w r hr
    omega
  have hof : ∀ w : Fin 4, Fin.ofNat 4 w.val = w := fun w => Fin.ext (Nat.mod_eq_of_lt w.isLt)
  rcases lt_or_ge j 6 with hj6 | hj6
  · rw [depends, if_pos hj6, any_eq_false]
    intro w _
    rw [not_eq_true, bne_eq_false_iff_eq]
    refine eq_of_getLsbD_eq fun r hr => ?_
    simp only [getLsbD_and, getLsbD_not, getLsbD_ushiftRight,
      getLsbD_kVar j hj6 _ hr, decide_eq_true hr]
    cases hbit : r.testBit j with
    | true => simp
    | false =>
      have hab := testBit_above j hj6 _ hr
      rw [hbit, Bool.not_false, and_eq_true, decide_eq_true_eq] at hab
      have hx := h _ (hlt w hr)
      rw [or_two_pow_low j hj6 _ (hlt w hr), (hwo w hr).1, (hwo w hr).2, hbit,
        if_neg Bool.false_ne_true,
        get_add _ _ hab.1, get_add _ _ hr, hof] at hx
      rw [hx]
  · obtain ⟨b, rfl⟩ := Nat.exists_eq_add_of_le hj6
    rw [depends, if_neg (Nat.not_lt.2 hj6), any_eq_false]
    intro w _
    rw [Nat.add_sub_cancel_left, not_eq_true]
    cases hbit : w.val.testBit b with
    | true => rfl
    | false =>
      rw [Bool.not_false, Bool.true_and, bne_eq_false_iff_eq]
      refine eq_of_getLsbD_eq fun r hr => ?_
      have hx := h _ (hlt w hr)
      rw [or_two_pow_high b (by omega) _ (hlt w hr), (hwo w hr).1, (hwo w hr).2, hbit,
        if_neg Bool.false_ne_true,
        get_add _ _ hr, get_add _ _ hr, hof] at hx
      exact hx.symm

/-- A table ignores a variable that it does not depend on. -/
lemma app_congr_of_not_depends (hj : j < 8) (h : depends t j = false) {a b : ℕ → Bool}
    (hab : ∀ k, k ≠ j → a k = b k) : t.app a = t.app b := by
  rw [Table.app, Table.app, ← get_of_not_depends hj h (row_lt a), ←
    get_of_not_depends hj h (row_lt b)]
  congr 1
  refine eq_of_testBit_eq fun k => ?_
  rw [testBit_or, testBit_or]
  rcases eq_or_ne j k with rfl | hk
  · simp
  · rcases lt_or_ge k 8 with hk8 | hk8
    · rw [testBit_row a hk8, testBit_row b hk8, hab k hk.symm]
    · have hle := Nat.pow_le_pow_right Nat.two_pos hk8
      rw [testBit_lt_two_pow ((row_lt a).trans_le hle),
        testBit_lt_two_pow ((row_lt b).trans_le hle)]

/-! ## Composition -/

lemma getLsbD_foldl_or {ι : Type} (f : ι → Word) (l : List ι) (acc : Word) (r : ℕ) :
    (l.foldl (fun t y => t ||| f y) acc).getLsbD r =
    (acc.getLsbD r || l.any fun y => (f y).getLsbD r) := by
  induction l generalizing acc with
  | nil => simp
  | cons y l ih => rw [foldl_cons, ih, BitVec.getLsbD_or, any_cons, Bool.or_assoc]

lemma getLsbD_foldl_and (l : List Word) (acc : Word) (r : ℕ) :
    (l.foldl (· &&& ·) acc).getLsbD r = (acc.getLsbD r && l.all (·.getLsbD r)) := by
  induction l generalizing acc with
  | nil => simp
  | cons y l ih => rw [foldl_cons, ih, BitVec.getLsbD_and, all_cons, Bool.and_assoc]

/-- One product of the composition holds exactly at its own row. -/
lemma getLsbD_product (e : List Table) {y r : ℕ} (hr : r < 64) (hy : y < 2 ^ e.length) (w : Fin 4) :
    ((e.mapIdx fun j t => if y.testBit j then t w else ~~~t w).foldl (· &&& ·)
      (BitVec.allOnes 64)).getLsbD r =
      decide (y = rowIndex e fun t => (t w).getLsbD r) := by
  rw [getLsbD_foldl_and, BitVec.getLsbD_allOnes, decide_eq_true hr, Bool.true_and, Bool.eq_iff_iff,
    all_eq_true, decide_eq_true_eq]
  have hmem : (∀ v ∈ e.mapIdx fun j t => if y.testBit j then t w else ~~~t w, v.getLsbD r = true) ↔
      ∀ (j : ℕ) (t : Table), e[j]? = some t → y.testBit j = (t w).getLsbD r := by
    constructor
    · intro h j t ht
      have hj := h (if y.testBit j then t w else ~~~t w)
        (mem_of_getElem? (i := j) (by rw [getElem?_mapIdx, ht]; rfl))
      cases hbit : y.testBit j with
      | true => simpa [hbit] using hj.symm
      | false => simpa [hbit, hr] using hj
    · intro h v hv
      obtain ⟨j, hj⟩ := mem_iff_getElem?.1 hv
      rw [getElem?_mapIdx] at hj
      obtain ⟨t, ht, rfl⟩ := Option.map_eq_some_iff.1 hj
      have hbit := h j t ht
      cases hy : y.testBit j with
      | true => simpa [hy] using hbit.symm
      | false => simpa [hy, hr] using hbit.symm
  rw [hmem]
  constructor
  · intro h
    refine eq_of_testBit_eq fun j => ?_
    rw [testBit_rowIndex]
    cases ht : e[j]? with
    | some t => exact h j t ht
    | none =>
      have hle := Nat.pow_le_pow_right Nat.two_pos (getElem?_eq_none_iff.1 ht)
      exact testBit_lt_two_pow (hy.trans_le hle)
  · rintro rfl j t ht
    rw [testBit_rowIndex, ht]
    rfl

/-- The composition is the function over the values of its arguments. -/
lemma app_compose (eval : ℕ → Bool) (e : List Table) (a : ℕ → Bool) :
    (compose eval e).app a = eval (rowIndex e (·.app a)) := by
  have hr : row a % 64 < 64 := Nat.mod_lt _ (by decide)
  have hlt := rowIndex_lt e (·.app a)
  rw [app, Table.get, compose, getLsbD_foldl_or, getLsbD_zero, Bool.false_or,
    Bool.eq_iff_iff, any_eq_true]
  constructor
  · rintro ⟨y, hy, hpr⟩
    obtain ⟨hra, hev⟩ := mem_filter.1 hy
    rw [getLsbD_product e hr (mem_range.1 hra), decide_eq_true_eq] at hpr
    rwa [hpr] at hev
  · intro hev
    refine ⟨rowIndex e (·.app a), mem_filter.2 ⟨mem_range.2 hlt, hev⟩, ?_⟩
    rw [getLsbD_product e hr hlt]
    exact decide_eq_true rfl

/-! ## Cuts -/

/-- The cut computes `y` where the nodes have the values `val`. -/
def Cut.Computes (c : Cut) (val : ℕ → Bool) (y : Bool) : Prop :=
  ∀ a : ℕ → Bool, (∀ (i leaf : ℕ), c.leaves[i]? = some leaf → a i = val leaf) → c.table.app a = y

section

variable {c : Cut} {val : ℕ → Bool} {y : Bool} {u : List ℕ}

section

variable (hu : u.Pairwise (· < ·)) (hx : x ∈ u)
include hu hx

lemma getElem?_lowerBound : u[lowerBound u x]? = some x := by
  induction u with
  | nil => nomatch hx
  | cons z u ih =>
    rw [lowerBound, findIdx_cons]
    obtain ⟨hz, hu⟩ := pairwise_cons.1 hu
    rcases mem_cons.1 hx with rfl | hx
    · rw [decide_eq_true le_rfl]
      rfl
    · rw [decide_eq_false (Nat.not_le.2 (hz x hx))]
      exact ih hu hx

lemma lowerBound_lt : lowerBound u x < u.length :=
  (List.getElem?_eq_some_iff.1 (getElem?_lowerBound hu hx)).1

lemma lowerBound_lt_of_lt {z : ℕ} (hz : z ∈ u) (hxz : x < z) : lowerBound u x < lowerBound u z := by
  obtain ⟨hltx, hge⟩ := List.getElem?_eq_some_iff.1 (getElem?_lowerBound hu hx)
  obtain ⟨hltz, hgt⟩ := List.getElem?_eq_some_iff.1 (getElem?_lowerBound hu hz)
  rcases lt_trichotomy (lowerBound u x) (lowerBound u z) with h | h | h
  · exact h
  · have hxz' : x = z := by
      rw [← hge, ← hgt]
      congr 1
    exact absurd hxz' hxz.ne
  · have hzx := pairwise_iff_getElem.1 hu _ _ hltz hltx h
    rw [hge, hgt] at hzx
    exact absurd hxz hzx.asymm

end

lemma le_of_increasing {pos : ℕ → ℕ} {s : ℕ} (hmo : ∀ i k, i < k → k < s → pos i < pos k) :
    ∀ i < s, i ≤ pos i := by
  intro i
  induction i with
  | zero => exact fun _ => Nat.zero_le _
  | succ i ih =>
    intro hi
    exact succ_le_of_lt ((ih (lt_of_succ_lt hi)).trans_lt (hmo i (i + 1) (lt_succ_self i) hi))

/-- Exchanging each variable with its new position, from the last one down. -/
lemma app_foldr_swap (pos : ℕ → ℕ) (s : ℕ) (hpos : ∀ i < s, pos i < 8)
    (hmo : ∀ i k, i < k → k < s → pos i < pos k)
    (t : Table) (a : ℕ → Bool) : ∃ b : ℕ → Bool, (∀ i < s, b i = a (pos i)) ∧
    (∀ p, s ≤ p → (∀ i < s, pos i < p) → b p = a p) ∧
      ((List.range s).foldr (fun i t => swapVars t i (pos i)) t).app a = t.app b := by
  induction s generalizing t with
  | zero => exact ⟨a, nofun, fun _ _ _ => rfl, rfl⟩
  | succ s ih =>
    have hlt := hpos s (lt_succ_self s)
    have hle := le_of_increasing hmo s (lt_succ_self s)
    obtain ⟨b, hb, hfr, happ⟩ := ih (fun i hi => hpos i (lt_succ_of_lt hi))
      (fun i k hik hk => hmo i k hik (lt_succ_of_lt hk)) (swapVars t s (pos s))
    rw [app_swapVars t (hle.trans_lt hlt) hlt] at happ
    refine ⟨b ∘ swap s (pos s), fun i hi => ?_, fun p hp hbe => ?_, ?_⟩
    · rcases Nat.lt_succ_iff_lt_or_eq.1 hi with hi | rfl
      · rw [comp_apply, swap_apply_of_ne_of_ne hi.ne (hi.trans_le hle).ne, hb i hi]
      · rw [comp_apply, swap_apply_left]
        exact hfr _ hle fun k hk => hmo k _ hk (lt_succ_self _)
    · rw [comp_apply, swap_apply_of_ne_of_ne (lt_of_succ_le hp).ne' (hbe s (lt_succ_self s)).ne']
      exact hfr p (le_of_succ_le hp) fun i hi => hbe i (lt_succ_of_lt hi)
    · rw [range_succ, foldr_append, foldr_cons, foldr_nil, happ]

lemma Cut.Computes.expand (h : c.Computes val y) (hu : u.Pairwise (· < ·)) (hlen : u.length ≤ 8)
    (hl : c.leaves.Pairwise (· < ·)) (hsub : ∀ leaf ∈ c.leaves, leaf ∈ u) :
    Cut.Computes ⟨u, expand c u⟩ val y := by
  have hget : ∀ {i : ℕ} (hi : i < c.leaves.length), c.leaves.getD i 0 = c.leaves[i] := fun hi =>
    getD_eq_getElem _ _ hi
  have hmem : ∀ i < c.leaves.length, c.leaves.getD i 0 ∈ u := by
    intro i hi
    rw [hget hi]
    exact hsub _ (getElem_mem hi)
  have hmo : ∀ i k, i < k → k < c.leaves.length →
      lowerBound u (c.leaves.getD i 0) < lowerBound u (c.leaves.getD k 0) := by
    intro i k hik hk
    have hi := hik.trans hk
    refine lowerBound_lt_of_lt hu (hmem i hi) (hmem k hk) ?_
    rw [hget hi, hget hk]
    exact pairwise_iff_getElem.1 hl i k hi hk hik
  intro a ha
  obtain ⟨b, hb, -, happ⟩ := app_foldr_swap
    (fun i => lowerBound u (c.leaves.getD i 0)) c.leaves.length
    (fun i hi => (lowerBound_lt hu (hmem i hi)).trans_le hlen) hmo c.table a
  rw [LutCover.expand, happ]
  refine h b fun i leaf hle => ?_
  obtain ⟨hi, hval⟩ := List.getElem?_eq_some_iff.1 hle
  rw [hb i hi, ha _ _ (getElem?_lowerBound hu (hmem i hi)), hget hi, hval]

/-- Moving the variable `j` behind the next `m` ones. -/
lemma app_foldl_swap {m : ℕ} (hjm : j + m < 8) (t : Table) (a : ℕ → Bool) :
    ((List.range' j m).foldl (fun t q => swapVars t q (q + 1)) t).app a =
      t.app fun k => if k = j then a (j + m) else if j < k ∧ k ≤ j + m then a (k - 1) else a k := by
  induction m generalizing a with
  | zero =>
    refine congrArg t.app (funext fun k => ?_)
    rcases eq_or_ne k j with rfl | hk
    · rw [if_pos rfl, add_zero]
    · rw [if_neg hk, if_neg (by omega)]
  | succ m ih =>
    rw [range'_concat, foldl_append, one_mul, foldl_cons, foldl_nil,
      app_swapVars _ (by omega) (by omega), ih (by omega)]
    refine congrArg t.app (funext fun k => ?_)
    rcases eq_or_ne k j with rfl | hk
    · rw [if_pos rfl, if_pos rfl, comp_apply, swap_apply_left]
      rfl
    · rw [if_neg hk, if_neg hk]
      rcases eq_or_ne k (j + m + 1) with rfl | hla
      · rw [if_neg (by omega), if_pos (by omega), comp_apply, swap_apply_right]
        rfl
      · by_cases hmid : j < k ∧ k ≤ j + m
        · rw [if_pos hmid, if_pos (by omega), comp_apply,
            swap_apply_of_ne_of_ne (by omega) (by omega)]
        · rw [if_neg hmid, if_neg (by omega), comp_apply, swap_apply_of_ne_of_ne (by omega) hla]

lemma Cut.Computes.dropLeaf (h : c.Computes val y) (hlen : c.leaves.length ≤ 8)
    (hj : j < c.leaves.length)
    (hdep : depends c.table j = false) : (dropLeaf c j).Computes val y := by
  intro a ha
  have hla : j + (c.leaves.length - 1 - j) = c.leaves.length - 1 := by omega
  -- the variable that moved away is read as the leaf it stood for
  rw [LutCover.dropLeaf, app_foldl_swap (by omega), hla,
      app_congr_of_not_depends (hj.trans_le hlen) hdep (b := fun k =>
    if k = j then val c.leaves[j] else if j < k ∧ k ≤ c.leaves.length - 1 then a (k - 1) else a k)]
  · refine h _ fun i leaf hl => ?_
    have hi := (List.getElem?_eq_some_iff.1 hl).1
    rcases lt_trichotomy i j with hij | rfl | hij
    · rw [if_neg hij.ne, if_neg fun h => hij.asymm h.1]
      exact ha i leaf ((getElem?_eraseIdx_of_lt hij).trans hl)
    · rw [if_pos rfl, (List.getElem?_eq_some_iff.1 hl).2]
    · rw [if_neg hij.ne', if_pos ⟨hij, le_sub_one_of_lt hi⟩]
      refine ha (i - 1) leaf ?_
      change (c.leaves.eraseIdx j)[i - 1]? = _
      rw [getElem?_eraseIdx_of_ge (by omega), Nat.sub_add_cancel (by omega), hl]
  · intro k hk
    rw [if_neg hk, if_neg hk]

/-- What dropping one leaf keeps, dropping all those outside the support keeps. -/
lemma reduce_induction {P : Cut → Prop} (h : P c)
    (hdr : ∀ (c : Cut) (j : ℕ), P c → j < c.leaves.length → depends c.table j = false →
      P (dropLeaf c j)) : P (reduce c) := by
  have hlo : ∀ (s : ℕ) (c : Cut), P c → s ≤ c.leaves.length →
      P ((range s).foldr (fun j c => if depends c.table j then c else dropLeaf c j) c) := by
    intro s
    induction s with
    | zero => exact fun c h _ => h
    | succ s ih =>
      intro c h hs
      rw [range_succ, foldr_append, foldr_cons, foldr_nil]
      split
      · exact ih c h (le_of_succ_le hs)
      next hdep =>
        refine ih _ (hdr c s h hs (Bool.not_eq_true _ ▸ hdep)) ?_
        rw [LutCover.dropLeaf, length_eraseIdx_of_lt hs]
        exact le_sub_one_of_lt hs
  exact hlo _ c h le_rfl

/-- A variable that a table reads. -/
def Essential (t : Table) (j : ℕ) : Prop :=
  ∃ a b : ℕ → Bool, (∀ k, k ≠ j → a k = b k) ∧ t.app a ≠ t.app b

lemma essential_of_depends (hj : j < 8) (h : depends t j = true) : Essential t j := by
  by_contra hnot
  have hget : ∀ x < 256, t.get (x ||| 2 ^ j) = t.get x := by
    intro x hx
    have hor := Nat.or_lt_two_pow (n := 8) hx (Nat.pow_lt_pow_right Nat.one_lt_two hj)
    by_contra hne
    refine hnot ⟨(x ||| 2 ^ j).testBit, x.testBit, fun k hk => ?_, ?_⟩
    · rw [testBit_or, testBit_two_pow_of_ne hk.symm, Bool.or_false]
    · rwa [app, app, row_eq_of_testBit hor fun _ _ => rfl, row_eq_of_testBit hx fun _ _ => rfl]
  rw [not_depends_of_get hj hget] at h
  exact false_ne_true h

/-- An assignment before the variable `j` moves to the last place. -/
def unshift (j last : ℕ) (a : ℕ → Bool) (k : ℕ) : Bool :=
  if k < j then a k else if k < last then a (k + 1) else if k = last then a j else a k

lemma app_dropLeaf_unshift (hlen : c.leaves.length ≤ 8) (hj : j < c.leaves.length) (a : ℕ → Bool) :
    (dropLeaf c j).table.app (unshift j (c.leaves.length - 1) a) = c.table.app a := by
  have hla : j + (c.leaves.length - 1 - j) = c.leaves.length - 1 := by omega
  rw [LutCover.dropLeaf, app_foldl_swap (by omega), hla]
  refine congrArg c.table.app (funext fun k => ?_)
  rcases eq_or_ne k j with rfl | hk
  · rw [if_pos rfl, unshift, if_neg (by omega), if_neg (lt_irrefl _), if_pos rfl]
  · rw [if_neg hk]
    by_cases hmid : j < k ∧ k ≤ c.leaves.length - 1
    · rw [if_pos hmid, unshift, if_neg (by omega), if_pos (by omega), Nat.sub_add_cancel (by omega)]
    · rw [if_neg hmid, unshift]
      rcases lt_or_ge k j with hlt | hge
      · rw [if_pos hlt]
      · rw [if_neg (by omega), if_neg (by omega), if_neg (by omega)]

lemma Essential.dropLeaf (hlen : c.leaves.length ≤ 8) (hji : j ≤ i) (hi : i + 1 < c.leaves.length)
    (h : Essential c.table (i + 1)) : Essential (dropLeaf c j).table i := by
  obtain ⟨a, b, hab, hne⟩ := h
  have hj : j < c.leaves.length := by omega
  refine ⟨unshift j (c.leaves.length - 1) a, unshift j (c.leaves.length - 1) b, fun k hk => ?_, ?_⟩
  · unfold unshift
    split_ifs
    · exact hab k (by omega)
    · exact hab (k + 1) (by omega)
    · exact hab j (by omega)
    · exact hab k (by omega)
  · rwa [app_dropLeaf_unshift hlen hj, app_dropLeaf_unshift hlen hj]

/-- After the reduction every leaf is in the support. -/
lemma essential_reduce (hlen : c.leaves.length ≤ 8) (hi : i < (reduce c).leaves.length) :
    Essential (reduce c).table i := by
  have hlo : ∀ (s : ℕ) (c : Cut), c.leaves.length ≤ 8 → s ≤ c.leaves.length →
      (∀ i, s ≤ i → i < c.leaves.length → Essential c.table i) →
      ∀ i < ((range s).foldr (fun j c => if depends c.table j then c else
        dropLeaf c j) c).leaves.length,
        Essential ((range s).foldr (fun j c => if depends c.table j then c
          else dropLeaf c j) c).table i := by
    intro s
    induction s with
    | zero => exact fun c _ _ h i hi => h i (Nat.zero_le i) hi
    | succ s ih =>
      intro c hlen hs h
      rw [range_succ, foldr_append, foldr_cons, foldr_nil]
      split
      next hdep =>
        refine ih c hlen (le_of_succ_le hs) fun i hsi hi => ?_
        rcases eq_or_lt_of_le hsi with rfl | hsi
        · exact essential_of_depends (hi.trans_le hlen) hdep
        · exact h i hsi hi
      · have hdr : (dropLeaf c s).leaves.length = c.leaves.length - 1 := length_eraseIdx_of_lt hs
        refine ih _ (by omega) (by omega) fun i hsi hi => ?_
        exact .dropLeaf hlen hsi (by omega) (h (i + 1) (by omega) (by omega))
  exact hlo _ c hlen le_rfl (fun i hle hlt => absurd hlt (Nat.not_lt.2 hle)) i hi

lemma leaves_reduce_sublist (c : Cut) : (reduce c).leaves.Sublist c.leaves := by
  refine reduce_induction (P := fun d => d.leaves.Sublist c.leaves)
    (List.Sublist.refl _) fun d j h _ _ => ?_
  exact (eraseIdx_sublist d.leaves j).trans h

lemma Cut.Computes.reduce (h : c.Computes val y) (hlen : c.leaves.length ≤ 8) :
    (reduce c).Computes val y := by
  have hbo : (LutCover.reduce c).Computes val y ∧ (LutCover.reduce c).leaves.length ≤ 8 := by
    refine reduce_induction (P := fun d => d.Computes val y ∧ d.leaves.length ≤ 8) ⟨h, hlen⟩
      fun d j hd hj hdep => ?_
    refine ⟨hd.1.dropLeaf hd.2 hj hdep, ?_⟩
    exact (eraseIdx_sublist d.leaves j).length_le.trans hd.2
  exact hbo.1

end

end LiveHD.Usyn.LutCover
