import LiveHD.Lib.IntBits

/-!
# Widths

A pin of a declared width and sign holds the low bits of what is written to it.  A value
cut twice is cut to the narrower width, and a pin with no width passes its value on.
-/

namespace LiveHD

open IntBits

/-- The low bits of `v`, read with or without a sign. -/
def fit (bits : ℕ) (unsign : Bool) (v : ℤ) : ℤ := if unsign then v % 2 ^ bits else sext v bits

section

variable {m n : ℕ} {s t : Bool} {u v : ℤ}

lemma fit_modEq (n : ℕ) (s : Bool) (v : ℤ) : fit n s v ≡ v [ZMOD 2 ^ n] := by
  cases s with
  | true => exact Int.mod_modEq v _
  | false => exact sext_mod v n

lemma fit_congr (s : Bool) (h : u ≡ v [ZMOD 2 ^ n]) : fit n s u = fit n s v := by
  cases s with
  | true => exact h
  | false =>
    change sext u n = sext v n
    rw [sext, sext, (h.add_right (2 ^ (n - 1)) : (u + _) % _ = (v + _) % _)]

/-- A cut to a width that is no narrower goes unnoticed. -/
lemma fit_fit (h : n ≤ m) : fit n s (fit m t v) = fit n s v :=
  fit_congr s ((fit_modEq m t v).of_dvd (pow_dvd_pow 2 h))

lemma fit_idem : fit n s (fit n s v) = fit n s v := fit_fit le_rfl

end

/-- The width and the sign hinted for a driver pin; no bits are no width. -/
structure PinAttr where
  bits : ℕ
  unsign : Bool
deriving DecidableEq

def PinAttr.fit (a : PinAttr) (v : ℤ) : ℤ := if a.bits = 0 then v else LiveHD.fit a.bits a.unsign v

/-- The declaration of a port; the least width is one bit. -/
structure PortDecl where
  port : ℕ
  bits : ℕ
  unsign : Bool
deriving DecidableEq

namespace PortDecl

variable (d : PortDecl)

def width : ℕ := max 1 d.bits

def fit (v : ℤ) : ℤ := LiveHD.fit d.width d.unsign v

@[simp] lemma fit_idem (v : ℤ) : d.fit (d.fit v) = d.fit v := LiveHD.fit_idem

lemma fit_of_width_le {d e : PortDecl} (h : d.width ≤ e.width) (v : ℤ) :
    d.fit (e.fit v) = d.fit v := fit_fit h

end PortDecl

/-- A second passage through a port and the net behind it changes nothing. -/
lemma PinAttr.fit_port_fit (a : PinAttr) (d : PortDecl) (v : ℤ) :
    a.fit (d.fit (a.fit (d.fit v))) = a.fit (d.fit v) := by
  rw [PinAttr.fit, PinAttr.fit]
  split
  · exact d.fit_idem v
  · rcases le_total a.bits d.width with h | h
    · rw [PortDecl.fit, fit_fit h, LiveHD.fit_idem]
    · rw [PortDecl.fit, fit_fit h, ← PortDecl.fit, d.fit_idem]

end LiveHD
