import Mathlib

/-!
# Backtick identifiers

`core/str_tools.hpp`: the decoder of the string escapes in a backtick name, and the escaping of
an emitter, which it inverts.  A byte is its code; 96 is the backtick and 92 the backslash.
-/

namespace LiveHD.StrTools

abbrev Bytes := List UInt8

def hexv (c : UInt8) : Option ℕ :=
  if 48 ≤ c ∧ c ≤ 57 then some (c.toNat - 48)
  else if 97 ≤ c ∧ c ≤ 102 then some (c.toNat - 97 + 10)
  else if 65 ≤ c ∧ c ≤ 70 then some (c.toNat - 65 + 10)
  else none

/-- The escapes of one letter. -/
def letterEscape (c : UInt8) : Option UInt8 :=
  if c = 92 ∨ c = 96 ∨ c = 34 ∨ c = 39 then some c
  else if c = 110 then some 10
  else if c = 116 then some 9
  else if c = 114 then some 13
  else if c = 48 then some 0
  else none

/-- The bytes of a code point. -/
def utf8 (cp : ℕ) : Option Bytes :=
  if cp < 0x80 then some [.ofNat cp]
  else if cp < 0x800 then some [.ofNat (0xC0 ||| cp / 64), .ofNat (0x80 ||| cp % 64)]
  else if cp < 0x10000 then
    some [.ofNat (0xE0 ||| cp / 4096), .ofNat (0x80 ||| cp / 64 % 64), .ofNat (0x80 ||| cp % 64)]
  else if cp ≤ 0x10FFFF then
    some [.ofNat (0xF0 ||| cp / 262144), .ofNat (0x80 ||| cp / 4096 % 64),
      .ofNat (0x80 ||| cp / 64 % 64), .ofNat (0x80 ||| cp % 64)]
  else none

/-- A code point between braces, the opening one read, and the text behind it. -/
def codePoint (rest : Bytes) : Option Bytes :=
  let digits := rest.takeWhile (· ≠ 125)
  if digits.length = rest.length ∨ digits = [] ∨ 6 < digits.length then none
  else ((digits.mapM hexv).map fun ds => ds.foldl (fun cp d => cp * 16 + d) 0).bind utf8

/-- One escape, its backslash read: the bytes it stands for and how many of the text it takes. -/
def escape : Bytes → Option (Bytes × ℕ)
  | [] => none
  | c :: rest =>
    match letterEscape c with
    | some b => some ([b], 1)
    | none =>
      if c = 120 then
        match rest with
        | h :: l :: _ => do some ([.ofNat ((← hexv h) * 16 + (← hexv l))], 3)
        | _ => none
      else if c = 117 ∧ rest.head? = some 123 then
        (codePoint rest.tail).map (·, (rest.tail.takeWhile (· ≠ 125)).length + 3)
      else none

/-- The decoded text between the backticks. -/
def decodeInner : Bytes → Option Bytes
  | [] => some []
  | c :: rest =>
    if c = 96 then none
    else if c ≠ 92 then (decodeInner rest).map (c :: ·)
    else (escape rest).bind fun e => (decodeInner (rest.drop e.2)).map (e.1 ++ ·)
termination_by text => text.length

def decodeBacktickIdent (tok : Bytes) : Option Bytes :=
  if tok.length < 2 ∨ tok.head? ≠ some 96 ∨ tok.getLast? ≠ some 96 then none
  else (decodeInner tok.tail.dropLast).map fun out => 96 :: out ++ [96]

def escapeBacktickInner (inner : Bytes) : Bytes := inner.flatMap fun c =>
    if c = 92 ∨ c = 96 then [92, c] else [c]

/-- A backtick that no backslash escapes. -/
def unescapedBacktick : Bytes → Bool
  | 92 :: _ :: rest => unescapedBacktick rest
  | c :: rest => c = 96 || unescapedBacktick rest
  | [] => false

lemma decodeInner_escape (s : Bytes) : decodeInner (escapeBacktickInner s) = some s := by
  induction s with
  | nil => simp [escapeBacktickInner, decodeInner]
  | cons c s ih =>
    rw [escapeBacktickInner, List.flatMap_cons, ← escapeBacktickInner]
    by_cases hc : c = 92 ∨ c = 96
    · have hesc : letterEscape c = some c := by rcases hc with rfl | rfl <;> rfl
      simp [hc, decodeInner, escape, hesc, ih]
    · rw [not_or] at hc
      simp [hc, decodeInner, ih]

lemma unescapedBacktick_escape (s : Bytes) : unescapedBacktick (escapeBacktickInner s) = false := by
  induction s with
  | nil => rfl
  | cons c s ih =>
    rw [escapeBacktickInner, List.flatMap_cons, ← escapeBacktickInner]
    by_cases hc : c = 92 ∨ c = 96
    · simp [hc, unescapedBacktick, ih]
    · rw [not_or] at hc
      simp [hc, unescapedBacktick, ih]

/-- The decoder inverts the escaping of every name, which leaves no backtick to end the token
early. -/
theorem decode_escape_backtick :
    (∀ s, decodeBacktickIdent (96 :: escapeBacktickInner s ++ [96]) = some (96 :: s ++ [96]) ∧
      unescapedBacktick (escapeBacktickInner s) = false) ∧
    Function.Injective escapeBacktickInner := by
  refine ⟨fun s => ⟨?_, unescapedBacktick_escape s⟩, fun s t h => ?_⟩
  · simp [decodeBacktickIdent, decodeInner_escape]
    exact List.getLast?_concat (l := 96 :: escapeBacktickInner s)
  · have hdecode := decodeInner_escape s
    rw [h, decodeInner_escape] at hdecode
    exact (Option.some.inj hdecode).symm

end LiveHD.StrTools
