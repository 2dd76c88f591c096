import LiveHD.Usyn.Supply
import LiveHD.Usyn.Window

/-!
# Functions of divisors

`derive_divisor_function` of `pass/usyn/function.cpp`: a table as a function of other tables
over the same variables.  Codes that no assignment reaches stay don't cares.
-/

namespace LiveHD.Usyn

open List WorkM
open Unate (TruthTable)

/-- `Truth_table(inputs)`: no row holds. -/
def emptyTable (inputs : ℕ) : TruthTable := ⟨inputs, replicate (wordCount inputs) 0⟩

structure DivisorFunction where
  status : Status
  function : TruthTable
  care : TruthTable
  /-- Assignments with equal divisor values and opposite root values. -/
  conflict : Option (ℕ × ℕ) := none
deriving DecidableEq

section

variable (root : TruthTable) (divisors : List TruthTable)

/-- The values of the divisors under an assignment. -/
def image (x : ℕ) : ℕ := rowIndex divisors fun d => d.get x

/-- The scan for the first assignment that conflicts with `x`. -/
def findConflict (x : ℕ) : List ℕ → WorkM (Option (ℕ × ℕ))
  | [] => pure none
  | previous :: rest => do
    spend (divisors.length + 1)
    if root.get previous = root.get x then findConflict x rest
    else if image divisors previous = image divisors x then pure (some (previous, x))
    else findConflict x rest

def conflictWith (witness : Bool) (x : ℕ) : WorkM (Option (ℕ × ℕ)) :=
  if witness then findConflict root divisors x (List.range x) else pure none

/-- The assignments from `x` on; `left` of them are left. -/
def deriveLoop (witness : Bool) : ℕ → ℕ → TruthTable → TruthTable → WorkM DivisorFunction
  | 0, _, function, care => pure { status := .feasible, function, care }
  | left + 1, x, function, care => do
    spend (divisors.length + 1)
    let code := image divisors x
    if care.get code ∧ function.get code ≠ root.get x then do
      let conflict ← conflictWith root divisors witness x
      pure { status := .unsupported, function, care, conflict }
    else deriveLoop witness left (x + 1) (setRow function code (root.get x)) (setRow care code true)

def ValidDivisors : Prop := validTruthTable root ∧ divisors.length ≤ maxLogicalInputs ∧
  ∀ d ∈ divisors, d.inputs = root.inputs ∧ validTruthTable d

instance : Decidable (ValidDivisors root divisors) := inferInstanceAs (Decidable (_ ∧ _ ∧ _))

def deriveDivisorFunction (witness : Bool) : WorkM DivisorFunction :=
  if ValidDivisors root divisors then
    deriveLoop root divisors witness (2 ^ root.inputs) 0 (emptyTable divisors.length)
      (emptyTable divisors.length)
  else throw .invalid

/-- Two assignments that no function of the divisors tells apart. -/
def Conflict (x y : ℕ) : Prop := image divisors x = image divisors y ∧ root.get x ≠ root.get y

/-- The tables after the assignments below `x`. -/
structure Derived (x : ℕ) (function care : TruthTable) : Prop where
  inputs : function.inputs = divisors.length ∧ care.inputs = divisors.length
  words : function.words.length = wordCount divisors.length ∧
    care.words.length = wordCount divisors.length
  value : ∀ y < x, function.get (image divisors y) = root.get y
  reached : ∀ c, care.get c = true ↔ ∃ y < x, image divisors y = c

/-- What a finished derivation says about a root of `n` inputs. -/
inductive Derives (n : ℕ) (witness : Bool) : DivisorFunction → Prop
  | feasible {function care : TruthTable} (h : Derived root divisors (2 ^ n) function care) :
    Derives n witness { status := .feasible, function, care }
  | unsupported {function care : TruthTable} {conflict : Option (ℕ × ℕ)} {x y : ℕ}
    (hxy : x < y) (hy : y < 2 ^ n)
    (h : Conflict root divisors x y)
      (hsome : ∀ p, conflict = some p → p.1 < p.2 ∧ p.2 < 2 ^ n ∧ Conflict root divisors p.1 p.2)
    (hfound : witness = true → conflict.isSome = true) :
    Derives n witness { status := .unsupported, function, care, conflict }

end

variable {root : TruthTable} {divisors : List TruthTable}

lemma get_emptyTable (n x : ℕ) : (emptyTable n).get x = false := by
  rw [TruthTable.get, emptyTable, getD_eq_getElem?_getD, getElem?_replicate]
  split <;> exact BitVec.getLsbD_zero

lemma image_lt (x : ℕ) : image divisors x < 2 ^ divisors.length := rowIndex_lt _ _

lemma Derived.start : Derived root divisors 0 (emptyTable divisors.length)
    (emptyTable divisors.length) where
  inputs := ⟨rfl, rfl⟩
  words := ⟨length_replicate, length_replicate⟩
  value := nofun
  reached c := by simp [get_emptyTable]

variable {x : ℕ} {function care : TruthTable}

/-- An assignment whose code is new, or agrees with what the code has. -/
lemma Derived.push (h : Derived root divisors x function care)
    (hag : ¬(care.get (image divisors x) = true ∧ function.get (image divisors x) ≠ root.get x)) :
    Derived root divisors (x + 1) (setRow function (image divisors x) (root.get x))
    (setRow care (image divisors x) true) := by
  have hlt : image divisors x < 2 ^ divisors.length := image_lt x
  have hwo := lt_wordCount hlt
  refine ⟨h.inputs, ⟨(List.length_modify _ _ _).trans h.words.1,
    (List.length_modify _ _ _).trans h.words.2⟩, fun y hy => ?_, fun c => ?_⟩
  · rw [get_setRow (by rwa [h.words.1])]
    rcases Nat.lt_succ_iff_lt_or_eq.1 hy with hlt | rfl
    · split
      next heq =>
        have hca := (h.reached _).2 ⟨y, hlt, heq⟩
        rw [← h.value y hlt, heq]
        exact (not_not.1 fun hne => hag ⟨hca, hne⟩).symm
      · exact h.value y hlt
    · rw [if_pos rfl]
  · rw [get_setRow (by rwa [h.words.2])]
    split
    next heq => exact ⟨fun _ => ⟨x, Nat.lt_succ_self x, heq.symm⟩, fun _ => rfl⟩
    next hne =>
      rw [h.reached]
      constructor
      · rintro ⟨y, hy, heq⟩
        exact ⟨y, hy.trans (Nat.lt_succ_self x), heq⟩
      · rintro ⟨y, hy, heq⟩
        rcases Nat.lt_succ_iff_lt_or_eq.1 hy with hlt | rfl
        · exact ⟨y, hlt, heq⟩
        · exact absurd heq.symm hne

lemma findConflict_runs (l : List ℕ) (w : Work) :
    Runs Work.meter (findConflict root divisors x l) w (l.length * (divisors.length + 1)) fun _ c =>
      (∀ p, c = some p → p.1 ∈ l ∧ p.2 = x ∧ Conflict root divisors p.1 p.2) ∧
        ((∃ y ∈ l, Conflict root divisors y x) → c.isSome = true) := by
  induction l generalizing w with
  | nil => exact (Runs.pure trivial ⟨nofun, fun ⟨_, h, _⟩ => nomatch h⟩).more (Nat.zero_le _)
  | cons previous rest ih =>
    rw [length_cons, Nat.succ_mul, Nat.add_comm]
    have hsk : ¬Conflict root divisors previous x →
        ∀ t, Runs Work.meter (findConflict root divisors x rest) t
        (rest.length * (divisors.length + 1)) fun _ c =>
          (∀ p, c = some p → p.1 ∈ previous :: rest ∧ p.2 = x ∧ Conflict root divisors p.1 p.2) ∧
            ((∃ y ∈ previous :: rest, Conflict root divisors y x) → c.isSome = true) := by
      intro hno t
      refine (ih t).mono fun _ c _ _ h =>
        ⟨fun p hp => ⟨.tail _ (h.1 p hp).1, (h.1 p hp).2⟩, fun ⟨y, hy, hc⟩ => h.2 ⟨y, ?_, hc⟩⟩
      rcases mem_cons.1 hy with rfl | hy
      · exact absurd hc hno
      · exact hy
    refine (spend_runs _ w).bind fun t _ _ _ _ =>
      .ite (fun heq => hsk (fun h => h.2 heq) t) fun hne => ?_
    refine .ite (fun him => (Runs.pure trivial ⟨fun p hp => ?_, fun _ => rfl⟩).more (Nat.zero_le _))
      fun him => hsk (fun h => him h.1) t
    cases hp
    exact ⟨.head _, rfl, him, hne⟩

lemma conflictWith_runs (witness : Bool) {y : ℕ} (hy : y < x)
    (hco : Conflict root divisors y x) (w : Work) :
    Runs Work.meter (conflictWith root divisors witness x) w (x * (divisors.length + 1)) fun _ c =>
      (∀ p, c = some p → p.1 < x ∧ p.2 = x ∧ Conflict root divisors p.1 p.2) ∧
      (witness = true → c.isSome = true) := by
  refine .ite (fun _ => ?_) fun hno =>
    (Runs.pure trivial ⟨nofun, fun hyes => absurd hyes hno⟩).more (Nat.zero_le _)
  have hsc := @findConflict_runs root divisors x (List.range x) w
  rw [length_range] at hsc
  refine hsc.mono fun _ c _ _ hc => ⟨fun p hp => ?_, fun _ => hc.2 ⟨y, mem_range.2 hy, hco⟩⟩
  exact ⟨mem_range.1 (hc.1 p hp).1, (hc.1 p hp).2⟩

lemma deriveLoop_runs (witness : Bool) {n : ℕ} (left : ℕ) (hx : left + x = 2 ^ n)
    (h : Derived root divisors x function care) (w : Work) :
    Runs Work.meter (deriveLoop root divisors witness left x function care) w
    ((left + 2 ^ n) * (divisors.length + 1)) fun _ r =>
      Derives root divisors n witness r := by
  induction left generalizing x function care w with
  | zero =>
    obtain rfl : x = 2 ^ n := by omega
    exact (Runs.pure trivial (.feasible h)).more (Nat.zero_le _)
  | succ left ih =>
    have hcs : (left + 1 + 2 ^ n) * (divisors.length + 1) =
        divisors.length + 1 + (left + 2 ^ n) * (divisors.length + 1) := by
      rw [Nat.add_right_comm, Nat.succ_mul, Nat.add_comm]
    rw [hcs]
    refine (spend_runs _ w).bind fun t _ _ _ _ => .ite (fun hbad => ?_) fun hgo =>
      ih (by omega) (h.push hgo) t
    obtain ⟨y, hy, heq⟩ := (h.reached _).1 hbad.1
    have hco : Conflict root divisors y x :=
      ⟨heq, fun hr => hbad.2 (by rw [← heq, h.value y hy, hr])⟩
    have hlt : x < 2 ^ n := by omega
    refine ((conflictWith_runs witness hy hco t).more (Nat.mul_le_mul_right _ (by omega))).bind
        fun u c _ _ hc =>
      .pure trivial (.unsupported hy hlt hco (fun p hp => ?_) hc.2)
    obtain ⟨hp1, hp2, hp⟩ := hc.1 p hp
    exact ⟨hp2 ▸ hp1, hp2 ▸ hlt, hp⟩

/-- The derivation decides whether the root is a function of the divisors.  It answers with that
function on the image of the divisors, or with a conflict. -/
theorem deriveDivisorFunction_exact (root : TruthTable) (divisors : List TruthTable)
    (witness : Bool) (w : Work) :
    (∀ e, ((deriveDivisorFunction root divisors witness).run.run w).1 = .error e →
      ValidDivisors root divisors →
      ¬w.Has (2 ^ (root.inputs + 1) * (divisors.length + 1))) ∧
    ∀ r, ((deriveDivisorFunction root divisors witness).run.run w).1 = .ok r →
    ValidDivisors root divisors ∧
      (r.status = .feasible ↔ ∀ x < 2 ^ root.inputs, ∀ y < 2 ^ root.inputs,
        image divisors x = image divisors y →
        root.get x = root.get y) ∧
      (r.status = .feasible → (∀ x < 2 ^ root.inputs,
        r.function.get (image divisors x) = root.get x) ∧
        ∀ c, r.care.get c = true ↔ ∃ x < 2 ^ root.inputs, image divisors x = c) ∧
      (r.status ≠ .feasible → r.status = .unsupported ∧
        (witness = true → r.conflict.isSome = true) ∧
        ∀ p, r.conflict = some p → p.1 < p.2 ∧ p.2 < 2 ^ root.inputs ∧
          Conflict root divisors p.1 p.2) := by
  rw [deriveDivisorFunction]
  split
  next hvalid =>
    have hruns := deriveLoop_runs witness (2 ^ root.inputs) (Nat.add_zero _)
      (@Derived.start root divisors) w
    refine ⟨fun e he _ => ?_, fun r hr => ⟨hvalid, ?_⟩⟩
    · rw [Nat.pow_succ, Nat.mul_two]
      exact hruns.stops e he
    · cases hruns.builds.2.2 r hr with
      | feasible h =>
        refine ⟨⟨fun _ x hx y hy heq => ?_, fun _ => rfl⟩, fun _ => ⟨h.value, h.reached⟩,
          fun hne => absurd rfl hne⟩
        rw [← h.value x hx, heq, h.value y hy]
      | unsupported hxy hy h hsome hfound =>
        exact ⟨⟨nofun, fun hconst => absurd (hconst _ (hxy.trans hy) _ hy h.1) h.2⟩, nofun,
          fun _ => ⟨rfl, hfound, hsome⟩⟩
  next hvalid => exact ⟨fun _ _ h => absurd h hvalid, nofun⟩

end LiveHD.Usyn
