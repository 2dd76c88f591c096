import Mathlib

/-!
# Framed encodings

What a concatenation of encoded parts determines, whatever follows it.
-/

namespace LiveHD.Framing

open List

variable {α β γ δ : Type*} {P Q : α → Prop} {f g : α → List β} {x : α → γ} {y : α → δ}

/-- The encoding of a value of `P` determines `x` of it, and where it ends. -/
def Determines (P : α → Prop) (f : α → List β) (x : α → γ) : Prop :=
  ∀ ⦃a b⦄, P a → P b → ∀ r s, f a ++ r = f b ++ s → x a = x b ∧ r = s

/-- The encoding determines the value. -/
def PrefixFree (P : α → Prop) (f : α → List β) : Prop := Determines P f id

namespace Determines

lemma eq (h : Determines P f x) {a b : α} (ha : P a) (hb : P b) (hab : f a = f b) : x a = x b :=
  (h ha hb [] [] (congrArg (· ++ []) hab)).1

lemma mono (h : Determines P f x)
    (hQ : ∀ a, Q a → P a) : Determines Q f x := fun _ _ ha hb => h (hQ _ ha) (hQ _ hb)

lemma map (h : Determines P f x)
    (hxy : ∀ a b, P a → P b → x a = x b → y a = y b) : Determines P f y := by
  intro a b ha hb r s heq
  exact (h ha hb r s heq).imp_left (hxy a b ha hb)

lemma nil (P : α → Prop) (c : γ) : Determines P (fun _ => ([] : List β)) fun _ =>
    c := fun _ _ _ _ _ _ h => ⟨rfl, h⟩

/-- A second part that is read under what the first one says. -/
lemma appendDep (hf : Determines P f x) (hg : ∀ c, Determines (fun a => P a ∧ x a = c) g y) :
    Determines P (fun a => f a ++ g a) fun a => (x a, y a) := by
  intro a b ha hb r s heq
  rw [append_assoc, append_assoc] at heq
  obtain ⟨hx, heq⟩ := hf ha hb _ _ heq
  obtain ⟨hy, heq⟩ := hg (x a) ⟨ha, rfl⟩ ⟨hb, hx.symm⟩ _ _ heq
  exact ⟨congrArg₂ Prod.mk hx hy, heq⟩

lemma comap {ε : Type*} {k : ε → α} {R : ε → Prop} (h : Determines P f x)
    (hk : ∀ e, R e → P (k e)) :
    Determines R (fun e => f (k e)) fun e => x (k e) := fun _ _ ha hb => h (hk _ ha) (hk _ hb)

lemma of_length (n : ℕ) (hlen : ∀ a, P a → (f a).length = n)
    (h : ∀ a b, P a → P b → f a = f b → x a = x b) : Determines P f x := by
  intro a b ha hb r s heq
  obtain ⟨hab, hrs⟩ := append_inj heq ((hlen a ha).trans (hlen b hb).symm)
  exact ⟨h a b ha hb hab, hrs⟩

/-- Two lists of one length. -/
lemma flatMap (hf : Determines P f x) (n : ℕ) :
    Determines (fun l : List α => l.length = n ∧ ∀ a ∈ l, P a)
    (fun l => l.flatMap f) (List.map x) := by
  intro l m
  rintro ⟨hl, hPl⟩ ⟨hm, hPm⟩ r s heq
  change l.flatMap f ++ r = m.flatMap f ++ s at heq
  induction l generalizing m n with
  | nil =>
    obtain rfl := length_eq_zero_iff.1 (hm.trans hl.symm)
    exact ⟨rfl, heq⟩
  | cons a l ih =>
    cases m with
    | nil =>
      rw [← hm] at hl
      cases hl
    | cons b m =>
      rw [flatMap_cons, flatMap_cons, append_assoc, append_assoc] at heq
      obtain ⟨hx, heq⟩ := hf (hPl a (.head _)) (hPm b (.head _)) _ _ heq
      obtain ⟨hmap, hrs⟩ := ih l.length rfl (fun c hc => hPl c (.tail _ hc))
        (Nat.succ.inj (hm.trans hl.symm)) (fun c hc => hPm c (.tail _ hc)) heq
      exact ⟨congrArg₂ List.cons hx hmap, hrs⟩

/-- Lists after their lengths. -/
lemma counted {c : ℕ → List β} {N : ℕ → Prop} (hc : PrefixFree N c) (hf : Determines P f x) :
    Determines (fun l : List α => N l.length ∧ ∀ a ∈ l, P a)
    (fun l => c l.length ++ l.flatMap f) (List.map x) := by
  have hco : Determines (fun l : List α => N l.length ∧ ∀ a ∈ l, P a)
      (fun l => c l.length) List.length :=
    hc.comap fun _ h => h.1
  refine (hco.appendDep fun n => ?_).map fun a b _ _ h => congrArg Prod.snd h
  exact (hf.flatMap n).mono fun l hl => ⟨hl.2, hl.1.2⟩

end Determines

/-! ## Numbers -/

/-- The low `8 * n` bits, the low byte first. -/
def le : ℕ → ℕ → List UInt8
  | 0, _ => []
  | n + 1, v => UInt8.ofNat v :: le n (v / 256)

lemma length_le (n v : ℕ) : (le n v).length = n := by
  induction n generalizing v with
  | zero => rfl
  | succ n ih => exact congrArg Nat.succ (ih _)

lemma le_prefixFree (n : ℕ) : PrefixFree (· < 256 ^ n) (le n) := by
  refine .of_length n (fun v _ => length_le n v) fun v w hv hw heq => ?_
  show v = w
  induction n generalizing v w with
  | zero => exact (Nat.lt_one_iff.1 hv).trans (Nat.lt_one_iff.1 hw).symm
  | succ n ih =>
    obtain ⟨hlow, hr⟩ := List.cons.inj heq
    have hmod : v % 256 = w % 256 := by simpa using congrArg UInt8.toNat hlow
    have hdiv : v / 256 = w / 256 := by
      rw [pow_succ] at hv hw
      exact ih _ _ (Nat.div_lt_of_lt_mul (mul_comm _ 256 ▸ hv))
        (Nat.div_lt_of_lt_mul (mul_comm _ 256 ▸ hw)) hr
    rw [← Nat.div_add_mod v 256, ← Nat.div_add_mod w 256, hmod, hdiv]

/-- A number of a fixed count of bytes. -/
structure Field where
  width : ℕ
  value : ℕ
  lt : value < 256 ^ width

/-- A type of numbers of a fixed count of bytes. -/
class Scalar (α : Type*) where
  width : ℕ
  code : α → ℕ
  lt : ∀ a, code a < 256 ^ width
  inj : Function.Injective code

instance : Scalar Bool where
  width := 1
  code := Bool.toNat
  lt := by decide
  inj := by decide

instance : Scalar UInt8 where
  width := 1
  code := UInt8.toNat
  lt := UInt8.toNat_lt
  inj := fun _ _ => UInt8.toNat.inj

instance : Scalar UInt32 where
  width := 4
  code := UInt32.toNat
  lt := UInt32.toNat_lt
  inj := fun _ _ => UInt32.toNat.inj

instance : Scalar UInt64 where
  width := 8
  code := UInt64.toNat
  lt := UInt64.toNat_lt
  inj := fun _ _ => UInt64.toNat.inj

instance : Scalar Int32 where
  width := 4
  code := fun a => a.toBitVec.toNat
  lt := fun a => a.toBitVec.isLt
  inj := fun _ _ h => Int32.toBitVec_inj.1 (BitVec.eq_of_toNat_eq h)

def field [Scalar α] (a : α) : Field := ⟨Scalar.width α, Scalar.code a, Scalar.lt a⟩

@[simp] lemma field_inj [Scalar α] {a b : α} : field a = field b ↔ a = b :=
  ⟨fun h => Scalar.inj (Field.mk.inj h).2, fun h => h ▸ rfl⟩

def fieldBytes (k : Field) : List UInt8 := le k.width k.value

/-- Fields of known widths. -/
lemma fields_determines (ks : α → List Field) (widths : List ℕ)
    (hwi : ∀ a, (ks a).map Field.width = widths) :
    Determines (fun _ => True) (fun a => (ks a).flatMap fieldBytes) ks := by
  intro a b _ _ r s heq
  have hsa := (hwi a).trans (hwi b).symm
  change (ks a).flatMap fieldBytes ++ r = (ks b).flatMap fieldBytes ++ s at heq
  generalize ks a = l at heq hsa ⊢
  generalize ks b = m at heq hsa ⊢
  induction l generalizing m with
  | nil =>
    obtain rfl := map_eq_nil_iff.1 hsa.symm
    exact ⟨rfl, heq⟩
  | cons k l ih =>
    cases m with
    | nil => cases hsa
    | cons k' m =>
      obtain ⟨hw, ht⟩ := List.cons.inj hsa
      obtain ⟨w, v, hv⟩ := k
      obtain ⟨w', v', hv'⟩ := k'
      obtain rfl : w = w' := hw
      rw [flatMap_cons, flatMap_cons, append_assoc, append_assoc] at heq
      obtain ⟨hva, hr⟩ := le_prefixFree w hv hv' _ _ heq
      obtain rfl : v = v' := hva
      exact (ih m hr ht).imp_left fun h => congrArg _ h

lemma field_determines [Scalar α] : PrefixFree (fun _ : α => True) fun a =>
    fieldBytes (field a) := by
  refine ((le_prefixFree (Scalar.width α)).comap (k := Scalar.code) fun a _ => Scalar.lt a).map
    fun a b _ _ h => ?_
  exact Scalar.inj h

end LiveHD.Framing
