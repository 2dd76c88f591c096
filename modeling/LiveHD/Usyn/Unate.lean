import LiveHD.Synth.Lnet
import LiveHD.Usyn.Budget

/-!
# Minimum sums of products

`exact_form` of `pass/usyn/unate.cpp`: the primes of at most `max_series` literals, a greedy cover
by them and a bounded branch and bound from there.  The sort, which leaves the order of equal
elements open, and the literal count of the algebraic factoring are parameters.
-/

namespace LiveHD.Usyn.Unate

open Synth

structure TruthTable where
  inputs : ℕ
  words : List Word
deriving DecidableEq

def TruthTable.get (t : TruthTable) (x : ℕ) : Bool := (t.words.getD (x / 64) 0).getLsbD (x % 64)

def TruthTable.complement (t : TruthTable) : TruthTable where
  inputs := t.inputs
  words := t.words.map fun w => w ^^^ if t.inputs < 6 then (1#64 <<< 2 ^ t.inputs) - 1#64
    else BitVec.allOnes 64

structure Cube where
  care : ℕ
  ones : ℕ
deriving DecidableEq

def popcount (m : ℕ) : ℕ := (List.range 32).countP m.testBit

def Cube.covers (c : Cube) (v : ℕ) : Bool := v &&& c.care == c.ones

structure Form where
  status : Status := .searchExhausted
  cubes : List Cube := []
  literals : ℕ := 0
  series : ℕ := 0
  positive : ℕ := 0
  negative : ℕ := 0
  factored : ℕ := 0
deriving DecidableEq

/-- `1` for the bits of `m` outside `d`. -/
def without (m d : ℕ) : ℕ := m ^^^ (m &&& d)

def addCube (f : Form) (c : Cube) : Form :=
  { f with
    cubes := f.cubes ++ [c]
    literals := f.literals + popcount c.care
    series := max f.series (popcount c.care)
    positive := f.positive ||| c.ones
    negative := f.negative ||| without c.care c.ones }

/-- The rows of `check_form`; each cube of each row costs a credit. -/
def checkRows (t : TruthTable) (cubes : List Cube) : List ℕ → Budget → Bool × Budget
  | [], b => (true, b)
  | x :: rows, b => match spendAll cubes.length b with
    | (false, b) => (false, b)
    | (true, b) => if cubes.any (·.covers x) = t.get x then checkRows t cubes rows b else (false, b)
where
  spendAll : ℕ → Budget → Bool × Budget
    | 0, b => (true, b)
    | k + 1, b => match b.spend true 1 with
      | (false, b) => (false, b)
      | (true, b) => spendAll k b

def checkForm (t : TruthTable) (f : Form) (b : Budget) : Bool × Budget :=
  let g := f.cubes.foldl addCube {}
  if f.cubes.any fun c => without c.ones c.care != 0 || decide (2 ^ t.inputs ≤ c.care)
    then (false, b)
  else if g.literals ≠ f.literals ∨ g.series ≠ f.series ∨ g.positive ≠ f.positive ∨
    g.negative ≠ f.negative then (false, b)
  else checkRows t f.cubes (List.range (2 ^ t.inputs)) b

/-! ## Primes -/

abbrev Minterms := BitVec 256

def Minterms.count (m : Minterms) : ℕ := (List.range 256).countP m.getLsbD

def minterms (n : ℕ) (p : ℕ → Bool) : Minterms :=
  (List.range (2 ^ n)).foldl (fun m x => if p x then m ||| (1#256 <<< x) else m) 0#256

def cubeMask (n care ones : ℕ) : Minterms :=
  let full := minterms n fun _ => true
  (List.range n).foldl (fun m j =>
    if care.testBit j then
      m &&& if ones.testBit j then minterms n (·.testBit j) else ~~~minterms n (·.testBit j)
    else m) full &&& full

structure Prime where
  care : ℕ
  ones : ℕ
  literals : ℕ
  mask : Minterms
deriving DecidableEq

/-- The primes over the variables `care`; the literals run down through the subsets of `care`. -/
def primesOver (n : ℕ) (off : Minterms) (care : ℕ) : List Prime :=
  (List.range (care + 1)).reverse.filterMap fun ones =>
    let mask := cubeMask n care ones
    if ones &&& care = ones ∧ mask ≠ 0 ∧ mask &&& off = 0 ∧ ((List.range n).all fun j =>
        !care.testBit j || cubeMask n (without care (2 ^ j)) (without ones (2 ^ j)) &&& off != 0)
        then
      some ⟨care, ones, popcount care, mask⟩
    else none

/-- Every prime of at most `maxSeries` literals; none when the credits run out. -/
def collectPrimes (n maxSeries : ℕ) (off : Minterms) :
    List ℕ → List Prime → Budget → Option (List Prime) × Budget
  | [], primes, b => (some primes, b)
  | care :: cares, primes, b =>
    if popcount care > maxSeries then
      if b.exhausted then (none, b) else collectPrimes n maxSeries off cares primes b
    else match b.spend true (2 ^ popcount care) with
      | (false, b) => if b.exhausted then (none, b)
        else collectPrimes n maxSeries off cares primes b
      | (true, b) => collectPrimes n maxSeries off cares (primes ++ primesOver n off care) b

/-! ## Covers -/

section

variable (primes : List Prime) (on : Minterms)

def Prime.at (i : ℕ) : Prime := primes.getD i ⟨0, 0, 0, 0⟩

def score (literals cubes : ℕ) : ℕ := (literals <<< 16) ||| cubes

/-- The greedy seed; each pick covers a new minterm, so `256` picks are enough. -/
def greedy : ℕ → Minterms → List ℕ → List ℕ
  | 0, _, best => best
  | fuel + 1, covered, best =>
    if covered &&& on = on then best
    else
      let gain := fun p : Prime => Minterms.count (p.mask &&& on &&& ~~~covered)
      let pick := primes.zipIdx.foldl
        (fun (pick : ℕ × ℕ) p => if gain p.1 > pick.2 then (p.2, gain p.1) else pick) (0, 0)
      greedy fuel (covered ||| (Prime.at primes pick.1).mask) (best ++ [pick.1])

structure Bound where
  best : List ℕ
  bestCost : ℕ
  nodes : ℕ
  budget : Budget

def covering (x : ℕ) : List ℕ := (List.range primes.length).filter fun i =>
    (Prime.at primes i).mask.getLsbD x

/-- The open minterm with the fewest covering primes. -/
def pickRow (count : ℕ) (opens : Minterms) : ℕ :=
  (List.range count).foldl (fun pick x =>
    if opens.getLsbD x && (pick == count ||
      decide ((covering primes x).length < (covering primes pick).length)) then x
    else pick) count

/-- The branch and bound; each level covers a new minterm. -/
def search (count : ℕ) : ℕ → Minterms → ℕ → List ℕ → Bound → Bound
  | 0, _, _, _, s => s
  | fuel + 1, covered, literals, chosen, s =>
    if s.nodes + 1 > 20000 then { s with nodes := s.nodes + 1 }
    else match s.budget.spend true 1 with
      | (false, b) => { s with nodes := s.nodes + 1, budget := b }
      | (true, b) =>
        let s := { s with nodes := s.nodes + 1, budget := b }
        if covered &&& on = on then
          if score literals chosen.length < s.bestCost then
            { s with best := chosen, bestCost := score literals chosen.length }
          else s
        else
          (covering primes (pickRow primes count (on &&& ~~~covered))).foldl (fun s i =>
            let p := Prime.at primes i
            if score (literals + p.literals) (chosen.length + 1) ≥ s.bestCost then s
            else search count fuel (covered ||| p.mask) (literals + p.literals) (chosen ++ [i]) s) s

end

/-! ## Forms -/

section

variable (sort : List Prime → List Prime) (factorLiterals : List Cube → ℕ)

def finish (t : TruthTable) (maxLiterals maxSeries : ℕ) (factored : Bool) (cubes : List Cube)
    (b : Budget) : Form × Budget :=
  let f := { cubes.foldl addCube {} with factored := factorLiterals cubes }
  if (if factored then f.factored else f.literals) ≤ maxLiterals ∧ f.series ≤ maxSeries then
    let r := checkForm t f b
    ({ f with status := if r.1 then .feasible else .searchExhausted }, r.2)
  else (f, b)

/-- The best cover of `on` by the primes: the greedy seed, then the branch and bound. -/
def bestCover (primes : List Prime) (on : Minterms) (count : ℕ) (b : Budget) : Bound :=
  let seed := greedy primes on 256 0#256 []
  let literals := (seed.map fun i => (Prime.at primes i).literals).sum
  search primes on count 257 0#256 0 [] ⟨seed, score literals seed.length, 0, b⟩

variable (t : TruthTable) (maxLiterals maxSeries : ℕ) (factored : Bool)

/-- The form over the primes that were collected. -/
def coverForm (primes : List Prime) (b : Budget) : Form × Budget :=
  let on := minterms t.inputs t.get
  -- otherwise some minterm needs a product longer than `maxSeries`
  if (primes.foldl (fun m p => m ||| p.mask) 0#256) &&& on = on then
    let s := bestCover (sort primes) on (2 ^ t.inputs) b
    if s.best = [] then ({}, s.budget)
    else
      let cubes := s.best.map fun i =>
        (⟨(Prime.at (sort primes) i).care, (Prime.at (sort primes) i).ones⟩ : Cube)
      finish factorLiterals t maxLiterals maxSeries factored cubes s.budget
  else ({}, b)

/-- `exact_form` of a table of at most eight inputs. -/
def exactForm (b : Budget) : Form × Budget :=
  let full := minterms t.inputs fun _ => true
  let on := minterms t.inputs t.get
  if on = 0#256 then finish factorLiterals t maxLiterals maxSeries factored [] b
  else if on = full then finish factorLiterals t maxLiterals maxSeries factored [⟨0, 0⟩] b
  else match collectPrimes t.inputs maxSeries (~~~on &&& full)
      (List.range' 1 (2 ^ t.inputs - 1)) [] b with
    | (none, b) => ({}, b)
    | (some primes, b) => coverForm sort factorLiterals t maxLiterals maxSeries factored primes b

/-! ## Functions of at most one input -/

variable {sort factorLiterals} {t : TruthTable} {maxLiterals maxSeries : ℕ}
  {factored : Bool} {b : Budget}

lemma cubes_foldl_addCube (cubes : List Cube) (f : Form) :
    (cubes.foldl addCube f).cubes = f.cubes ++ cubes := by
  induction cubes generalizing f with
  | nil => exact (List.append_nil _).symm
  | cons c cubes ih =>
    rw [List.foldl_cons, ih, addCube, List.append_assoc]
    rfl

lemma cubes_finish (cubes : List Cube) :
    (finish factorLiterals t maxLiterals maxSeries factored cubes b).1.cubes = cubes := by
  have h := cubes_foldl_addCube cubes {}
  simp only [finish]
  split_ifs
  all_goals exact h

lemma cubes_exactForm_constant (hn : t.inputs = 0) :
    (exactForm sort factorLiterals t maxLiterals maxSeries factored b).1.cubes =
    if t.get 0 then [⟨0, 0⟩] else [] := by
  have hon : minterms t.inputs t.get = if t.get 0 then 1#256 else 0#256 := by
    rw [hn]
    cases h : t.get 0 <;> simp [minterms, h]
  have hfu : (minterms t.inputs fun _ => true) = 1#256 := by
    rw [hn]
    rfl
  simp only [exactForm, hon, hfu]
  cases t.get 0
  · exact cubes_finish []
  · exact cubes_finish [⟨0, 0⟩]

/-- The minterm of a wire or of an inverter. -/
lemma minterms_one {v : Bool} (hn : t.inputs = 1) (h0 : t.get 0 = v) (h1 : t.get 1 = !v) :
    minterms t.inputs t.get = if v then 1#256 else 2#256 := by
  rw [hn]
  cases v <;> simp [minterms, List.range_succ, h0, h1]

lemma full_one (hn : t.inputs = 1) : (minterms t.inputs fun _ => true) = 3#256 := by
  rw [hn]
  rfl

/-- The only prime of a wire or of an inverter. -/
def literal (v : Bool) : Prime := if v then ⟨1, 0, 1, 1#256⟩ else ⟨1, 1, 1, 2#256⟩

lemma primesOver_one (v : Bool) :
    primesOver 1 (~~~(if v then 1#256 else 2#256) &&& 3#256) 1 = [literal v] := by
  cases v <;> decide

section

variable {v : Bool} (hn : t.inputs = 1) (h0 : t.get 0 = v) (h1 : t.get 1 = !v)
include hn h0 h1

lemma exactForm_one :
    exactForm sort factorLiterals t maxLiterals maxSeries factored b =
      match collectPrimes 1 maxSeries (~~~(if v then 1#256 else 2#256) &&& 3#256) [1] [] b with
      | (none, b) => ({}, b)
      | (some primes, b) =>
        coverForm sort factorLiterals t maxLiterals maxSeries factored primes b := by
  have hne : (if v then 1#256 else 2#256) ≠ 0#256 ∧
    (if v then 1#256 else 2#256) ≠ 3#256 := by cases v <;> decide
  simp only [exactForm, minterms_one hn h0 h1, full_one hn, if_neg hne.1, if_neg hne.2]
  rw [hn]
  rfl

/-- With no series literal a wire or an inverter has no form. -/
lemma cubes_exactForm_of_series_zero :
    (exactForm sort factorLiterals t maxLiterals 0 factored b).1.cubes = [] := by
  have hco : (coverForm sort factorLiterals t maxLiterals 0 factored [] b).1.cubes = [] := by
    simp only [coverForm, minterms_one hn h0 h1]
    cases v <;> rfl
  rw [exactForm_one hn h0 h1, collectPrimes, if_pos (by decide)]
  cases hex : b.exhausted with
  | true => rfl
  | false => simpa only [Bool.false_eq_true, if_false, collectPrimes] using hco

end

lemma best_bestCover_literal (v : Bool) (b : Budget) :
    (bestCover [literal v] (if v then 1#256 else 2#256) 2 b).best = [0] := by
  have hse : greedy [literal v] (if v then 1#256 else 2#256) 256 0#256 [] = [0] := by
    cases v <;> decide +kernel
  have hco : score (([0].map fun i => (Prime.at [literal v] i).literals).sum) [0].length =
    65537 := by cases v <;> decide
  have hop : (if v then 1#256 else 2#256) ≠ 0#256 &&& if v then 1#256
    else 2#256 := by cases v <;> decide
  have hrow : covering [literal v]
      (pickRow [literal v] 2 ((if v then 1#256 else 2#256) &&& ~~~0#256)) = [0] := by
    cases v <;> decide
  have hlit : score (0 + (Prime.at [literal v] 0).literals) ([].length (α := ℕ) + 1) = 65537 := by
    cases v <;> decide
  simp only [bestCover, hse, hco]
  rw [search, if_neg (show ¬0 + 1 > 20000 by decide)]
  -- the only branch costs as much as the seed
  cases b.spend true 1 with
  | mk ok b =>
    cases ok with
    | false => rfl
    | true =>
      simp only [hrow, if_neg hop.symm, List.foldl_cons, List.foldl_nil]
      rw [if_pos hlit.ge]

lemma cubes_exactForm_one {v : Bool} (hs : ∀ l, (sort l).Perm l) (hn : t.inputs = 1)
    (h0 : t.get 0 = v) (h1 : t.get 1 = !v)
    (hse : 1 ≤ maxSeries) (hsp : (b.spend true 2).1 = true) :
    (exactForm sort factorLiterals t maxLiterals maxSeries factored b).1.cubes =
    [⟨1, if v then 0 else 1⟩] := by
  have hone : sort [literal v] = [literal v] := List.perm_singleton.1 (hs _)
  have hre : ([literal v].foldl (fun m p => m ||| p.mask) 0#256) &&& (if v then 1#256 else 2#256) =
      if v then 1#256 else 2#256 := by cases v <;> decide
  have hpop : popcount 1 = 1 := by decide
  rw [exactForm_one hn h0 h1, collectPrimes, hpop, if_neg (Nat.not_lt.2 hse)]
  cases hb : b.spend true 2 with
  | mk ok b =>
    rw [hb] at hsp
    obtain rfl : ok = true := hsp
    simp only [collectPrimes, List.nil_append, primesOver_one, coverForm,
      minterms_one hn h0 h1, hre, if_true, hone]
    rw [hn, if_neg (by rw [pow_one, best_bestCover_literal]; exact List.cons_ne_nil _ _),
      cubes_finish, pow_one, best_bestCover_literal]
    cases v <;> rfl

end

end LiveHD.Usyn.Unate
