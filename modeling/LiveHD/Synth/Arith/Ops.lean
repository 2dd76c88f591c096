import LiveHD.Lib.Carry

/-!
# The bit algebra of `pass/synth/arith.hpp`

The arithmetic builders speak an abstract `Ops`: a handle type `Bit` with constants, `inv`, `and_`,
`or_` and `xor_`.  A `BitAlgebra` is an `Ops` with what its handles mean.  Bit vectors are lists,
least significant bit first.
-/

namespace LiveHD.Synth

universe u v

/-- The `Ops` concept of `arith.hpp`. -/
structure Ops (Bit : Type u) where
  zero : Bit
  one : Bit
  inv : Bit → Bit
  and_ : Bit → Bit → Bit
  or_ : Bit → Bit → Bit
  xor_ : Bit → Bit → Bit

/-- `v[i]`.  The builders never read past the end. -/
def Ops.get {Bit : Type u} (ops : Ops Bit) (v : List Bit) (i : ℕ) : Bit := v.getD i ops.zero

/-- An `Ops` whose handles denote Boolean functions of an environment. -/
structure BitAlgebra (Bit : Type u) (Env : Type v) extends Ops Bit where
  eval : Env → Bit → Bool
  eval_zero : ∀ ρ, eval ρ zero = false
  eval_one : ∀ ρ, eval ρ one = true
  eval_inv : ∀ ρ a, eval ρ (inv a) = !eval ρ a
  eval_and : ∀ ρ a b, eval ρ (and_ a b) = (eval ρ a && eval ρ b)
  eval_or : ∀ ρ a b, eval ρ (or_ a b) = (eval ρ a || eval ρ b)
  eval_xor : ∀ ρ a b, eval ρ (xor_ a b) = (eval ρ a ^^ eval ρ b)

attribute [simp] BitAlgebra.eval_zero BitAlgebra.eval_one BitAlgebra.eval_inv BitAlgebra.eval_and
  BitAlgebra.eval_or BitAlgebra.eval_xor

/-- The software bit model of `arith_test.cpp`: a handle is its value. -/
def boolAlgebra : BitAlgebra Bool Unit where
  zero := false
  one := true
  inv := not
  and_ := and
  or_ := or
  xor_ := xor
  eval _ b := b
  eval_zero _ := rfl
  eval_one _ := rfl
  eval_inv _ _ := rfl
  eval_and _ _ _ := rfl
  eval_or _ _ _ := rfl
  eval_xor _ _ _ := rfl

namespace BitAlgebra

variable {Bit : Type u} {Env : Type v} (A : BitAlgebra Bit Env) (ρ : Env)

/-- Bit `i` of a vector; clear past its end. -/
def bit (v : List Bit) (i : ℕ) : Bool := A.eval ρ (A.get v i)

/-- The unsigned value of a vector. -/
def value (v : List Bit) : ℕ := Carry.bitsVal (A.bit ρ v) v.length

variable {A ρ}

variable {v : List Bit}

lemma bit_of_length_le {i : ℕ} (h : v.length ≤ i) : A.bit ρ v i = false := by simp [bit, Ops.get, h]

variable {n : ℕ}

lemma value_eq (h : v.length ≤ n) : A.value ρ v = Carry.bitsVal (A.bit ρ v) n :=
  (Carry.bitsVal_of_le h fun _ hi => bit_of_length_le hi).symm

lemma value_lt (v : List Bit) : A.value ρ v < 2 ^ v.length := Carry.bitsVal_lt _ _

variable {x : ℕ → Bool}

section

variable (h : v.map (A.eval ρ) = (List.range n).map x)
include h

/-- A vector given bit by bit. -/
lemma length_of_map_eq : v.length = n := by
  have := congrArg List.length h
  simpa using this

lemma bit_of_map_eq {i : ℕ} (hi : i < n) : A.bit ρ v i = x i := by
  have hlen := length_of_map_eq h
  have := congrArg (fun l : List Bool => l[i]?) h
  simp only [List.getElem?_map, List.getElem?_range hi] at this
  rw [List.getElem?_eq_getElem (hlen ▸ hi)] at this
  simp only [bit, Ops.get, List.getD_eq_getElem?_getD,
    List.getElem?_eq_getElem (hlen ▸ hi), Option.getD_some]
  simpa using this

lemma value_of_map_eq : A.value ρ v = Carry.bitsVal x n := by
  rw [value_eq (length_of_map_eq h).le]
  exact Carry.bitsVal_congr fun i hi => bit_of_map_eq h hi

end

lemma map_eval_get (h : v.length = n) : v.map (A.eval ρ) = (List.range n).map (A.bit ρ v) := by
  apply List.ext_getElem
  · simp [h]
  · intro i h1 h2
    have hi : i < v.length := by simpa using h1
    simp [bit, Ops.get, hi]

end BitAlgebra

end LiveHD.Synth
