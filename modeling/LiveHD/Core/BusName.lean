import Mathlib

/-!
# Names of bus pieces

`core/bus_name.cpp`: the spelling of one piece of an expanded bus, and the reader that recovers
the bus and the index.
-/

namespace LiveHD.BusName

open List

abbrev Name := List Char

structure Piece where
  base : Name
  index : ℕ
  suffix : Name := []
deriving DecidableEq

def piece (base : Name) (index : ℕ) : Name := base ++ '[' :: Nat.toDigits 10 index ++ [']']

/-- The text before the last `c` and the text after it. -/
def rfind (c : Char) : Name → Option (Name × Name)
  | [] => none
  | x :: name =>
    match rfind c name with
    | some (before, after) => some (x :: before, after)
    | none => if x = c then some ([], name) else none

variable (name : Name) (allowModelSuffix : Bool) (separator : Char)

/-- The indexed part of a name, and the model segment behind it. -/
def splitModel : Option (Name × Name) :=
  if name ≠ [] ∧ name.getLast? ≠ some ']' then
    if allowModelSuffix then
      match rfind ']' name with
      | some (before, s :: suffix) =>
        if s ≠ separator ∨ suffix = [] ∨ ∃ c ∈ suffix, c = '.' ∨ c = '[' ∨ c = ']' then none
        else some (before ++ [']'], suffix)
      | _ => none
    else none
  else some (name, [])

def parseBusPiece : Option Piece :=
  match splitModel name allowModelSuffix separator with
  | none => none
  | some (head, suffix) =>
    if head.length < 4 ∨ head.getLast? ≠ some ']' then none
    else match rfind '[' head with
      | none => none
      | some (base, rest) =>
        let digits := rest.dropLast
        if base = [] ∨ digits = [] ∨ 9 < digits.length ∨ 1 < digits.length ∧
            digits.head? = some '0' ∨
            ¬digits.all Char.isDigit then none
        else some ⟨base, Nat.ofDigitChars 10 digits 0, suffix⟩

variable (p : Piece) (separator : Char)

/-- What the encoder writes for a piece. -/
def Piece.spelling : Name :=
  piece p.base p.index ++ if p.suffix = [] then [] else separator :: p.suffix

/-- A model segment that the reader splits off. -/
def Piece.Segment : Prop :=
  separator ≠ ']' ∧ ∀ c ∈ p.suffix, c ≠ '.' ∧ c ≠ '[' ∧ c ≠ ']'

variable {c separator : Char} {name head suffix before after : Name}
  {allowModelSuffix : Bool} {p : Piece}

lemma rfind_none (h : c ∉ name) : rfind c name = none := by
  induction name with
  | nil => rfl
  | cons x name ih =>
    rw [mem_cons, not_or] at h
    rw [rfind, ih h.2]
    exact if_neg (Ne.symm h.1)

lemma rfind_append (h : c ∉ after) (before : Name) :
    rfind c (before ++ c :: after) = some (before, after) := by
  induction before with
  | nil => simp [rfind, rfind_none h]
  | cons x before ih => rw [cons_append, rfind, ih]

lemma eq_of_rfind (h : rfind c name = some (before, after)) :
    name = before ++ c :: after ∧ c ∉ after := by
  by_cases hc : c ∈ name
  · obtain ⟨as, bs, heq, has⟩ := eq_append_cons_of_mem (mem_reverse.2 hc)
    obtain rfl : name = bs.reverse ++ c :: as.reverse := by rw [← reverse_reverse name, heq]; simp
    rw [← mem_reverse] at has
    rw [rfind_append has] at h
    cases h
    exact ⟨rfl, has⟩
  · rw [rfind_none hc] at h
    cases h

/-- A digit string with no leading zero is the decimal spelling of its value. -/
lemma toDigits_ofDigitChars {digits : Name} (hne : digits ≠ [])
    (hze : ¬(1 < digits.length ∧ digits.head? = some '0'))
    (hdi : digits.all Char.isDigit) : Nat.toDigits 10 (Nat.ofDigitChars 10 digits 0) = digits := by
  induction digits using reverseRecOn with
  | nil => exact absurd rfl hne
  | append_singleton ds c ih =>
    rw [all_append, Bool.and_eq_true] at hdi
    obtain ⟨hlo, hhi⟩ := Char.isDigit_iff_toNat.1 (by simpa using hdi.2)
    change 48 ≤ c.toNat at hlo
    change c.toNat ≤ 57 at hhi
    obtain ⟨d, hd, rfl⟩ : ∃ d < 10, c = Nat.digitChar d := by
      refine ⟨c.toNat - 48, by omega, Char.toNat_inj.1 ?_⟩
      rw [Nat.toNat_digitChar_of_lt_ten (by omega)]
      omega
    have hval : (Nat.digitChar d).toNat - '0'.toNat = d := Nat.toNat_digitChar_sub_48_of_lt_ten hd
    rw [Nat.ofDigitChars_append, Nat.ofDigitChars_cons, Nat.ofDigitChars_nil, hval]
    cases ds with
    | nil => simp [Nat.toDigits_of_lt_base hd]
    | cons a ds =>
      have hds := ih (by simp) (fun h => hze ⟨by simp, by simpa using h.2⟩) hdi.1
      have hpos : 0 < Nat.ofDigitChars 10 (a :: ds) 0 := by
        refine Nat.pos_of_ne_zero fun h0 => hze ⟨by simp, ?_⟩
        rw [h0] at hds
        rw [← hds]
        rfl
      rw [← Nat.toDigits_append_toDigits (by omega) hpos hd, hds, Nat.toDigits_of_lt_base hd]

/-- A decimal spelling has a leading zero only when it is that digit. -/
lemma head_toDigits (n : ℕ) : ¬(1 < (Nat.toDigits 10 n).length ∧
    (Nat.toDigits 10 n).head? = some '0') := by
  induction n using Nat.strongRecOn with
  | ind n ih =>
    rintro ⟨hlen, hhe⟩
    rw [Nat.toDigits_eq_if (by omega)] at hlen hhe
    split at hlen
    · simp at hlen
    · rw [if_neg (by assumption), head?_append_of_ne_nil _ Nat.toDigits_ne_nil] at hhe
      have hone : (Nat.toDigits 10 (n / 10)).length ≤ 1 := Nat.not_lt.1 fun h =>
        ih (n / 10) (by omega) ⟨h, hhe⟩
      rw [Nat.length_toDigits_le_iff (by omega) (by omega)] at hone
      rw [Nat.toDigits_of_lt_base (by simpa using hone)] at hhe
      simp at hhe
      omega

lemma eq_of_splitModel (h : splitModel name allowModelSuffix separator = some (head, suffix)) :
    name = head ++ (if suffix = [] then [] else separator :: suffix) ∧
    (suffix ≠ [] → allowModelSuffix ∧
      separator ≠ ']' ∧ ∀ c ∈ suffix, c ≠ '.' ∧ c ≠ '[' ∧ c ≠ ']') := by
  unfold splitModel at h
  split at h
  · split at h
    · split at h
      next before s suffix' hfi =>
        obtain ⟨rfl, haf⟩ := eq_of_rfind hfi
        split at h
        · cases h
        next hseg =>
          cases h
          simp only [not_or, not_exists, not_and, not_not] at hseg
          obtain ⟨rfl, hne, hseg⟩ := hseg
          refine ⟨by simp [hne], fun _ => ⟨by assumption, ?_, hseg⟩⟩
          rintro rfl
          exact haf mem_cons_self
      · cases h
    · cases h
  · cases h
    simp

lemma getLast?_piece (base : Name) (index : ℕ) :
    (piece base index).getLast? = some ']' := getLast?_concat

lemma splitModel_spelling (h : p.suffix ≠ [] → allowModelSuffix ∧ p.Segment separator) :
    splitModel (p.spelling separator) allowModelSuffix separator = some
    (piece p.base p.index, p.suffix) := by
  by_cases hs : p.suffix = []
  · simp [splitModel, Piece.spelling, hs, getLast?_piece]
  · obtain ⟨rfl, hsep, hseg⟩ := h hs
    have hla : (p.spelling separator).getLast? ≠ some ']' := by
      rw [Piece.spelling, if_neg hs, getLast?_append_of_ne_nil _ (by simp),
        getLast?_cons_of_ne_nil hs]
      exact fun h => (hseg _ (mem_of_getLast? h)).2.2 rfl
    have hfi : rfind ']' (p.spelling separator) =
        some (p.base ++ '[' :: Nat.toDigits 10 p.index, separator :: p.suffix) := by
      rw [← rfind_append (show ']' ∉ separator :: p.suffix by simp; grind)]
      simp [Piece.spelling, piece, hs]
    rw [splitModel, if_pos ⟨by simp [Piece.spelling, piece], hla⟩]
    simp [piece]
    grind

/-- The reader accepts the spellings of pieces, each as the piece it spells, and nothing else. -/
theorem parseBusPiece_iff (name : Name) (allowModelSuffix : Bool) (separator : Char) (p : Piece) :
    parseBusPiece name allowModelSuffix separator = some p ↔
    name = p.spelling separator ∧ p.base ≠ [] ∧ p.index < 10 ^ 9 ∧
        (p.suffix ≠ [] → allowModelSuffix ∧ p.Segment separator) := by
  constructor
  · intro h
    unfold parseBusPiece at h
    split at h
    · cases h
    next head suffix hmodel =>
      obtain ⟨rfl, hsuffix⟩ := eq_of_splitModel hmodel
      split at h
      · cases h
      split at h
      · cases h
      next hclosed _ base rest hfind =>
        obtain ⟨rfl, hrest⟩ := eq_of_rfind hfind
        obtain ⟨digits, rfl⟩ : ∃ digits, rest = digits ++ [']'] := by
          have hlast := not_not.1 (not_or.1 hclosed).2
          cases rest using reverseRecOn with
          | nil => simp at hlast
          | append_singleton digits c =>
            rw [← cons_append, ← append_assoc, getLast?_concat] at hlast
            cases hlast
            exact ⟨digits, rfl⟩
        simp only [dropLast_concat] at h
        split at h
        · cases h
        next hdigits =>
          cases h
          simp only [not_or] at hdigits
          obtain ⟨hbase, hne, hlen, hzero, hall⟩ := hdigits
          have heq := toDigits_ofDigitChars hne hzero (by simpa using hall)
          refine ⟨by simp [Piece.spelling, piece, heq], hbase, ?_, hsuffix⟩
          rw [← Nat.length_toDigits_le_iff (by omega) (by omega), heq]
          exact Nat.not_lt.1 hlen
  · rintro ⟨rfl, hbase, hindex, hsuffix⟩
    have hfind : rfind '[' (piece p.base p.index) =
        some (p.base, Nat.toDigits 10 p.index ++ [']']) := by
      rw [piece, append_assoc, cons_append]
      refine rfind_append (fun h => ?_) p.base
      rw [mem_append] at h
      rcases h with h | h
      · exact absurd (Nat.isDigit_of_mem_toDigits (by omega) (by omega) h) (by decide)
      · simp at h
    have hlen := (Nat.length_toDigits_le_iff (by omega) (by omega)).2 hindex
    have hpos : 0 < (Nat.toDigits 10 p.index).length := Nat.length_toDigits_pos
    have hbase' := length_pos_iff.2 hbase
    rw [parseBusPiece, splitModel_spelling hsuffix]
    dsimp only
    rw [if_neg, hfind]
    · dsimp only
      rw [dropLast_concat, if_neg, Nat.ofDigitChars_ten_toDigits]
      simp only [not_or]
      refine ⟨hbase, Nat.toDigits_ne_nil, by omega, head_toDigits _, ?_⟩
      simpa using fun c => Nat.isDigit_of_mem_toDigits (by omega) (by omega)
    · rintro (h | h)
      · simp [piece] at h
        omega
      · exact h (getLast?_piece _ _)

end LiveHD.BusName
