import LiveHD.Lib.Words

/-!
# Word helpers of the term simulator

The helpers at the top of `pass/lec/term_sim.cpp`, on lists of words.  A pointer with a word
count is a list; widths, offsets and counters, `uint32_t` in the source, are natural numbers.
-/

namespace LiveHD.Lec

open Words

def nwords (w : ℕ) : ℕ := if w = 0 then 1 else (w + 63) / 64

def topMask (w : ℕ) : Word := if w % 64 = 0 then BitVec.allOnes 64 else 1#64 <<< (w % 64) - 1

def clearTop (d : List Word) (w : ℕ) : List Word := d.modify (nwords w - 1) (· &&& topMask w)

def getBit (a : List Word) (i : ℕ) : Bool := (a.getD (i / 64) 0 >>> (i % 64)) &&& 1#64 != 0#64

def setBit (a : List Word) (i : ℕ) : List Word := a.modify (i / 64) (· ||| 1#64 <<< (i % 64))

def zero (nw : ℕ) : List Word := List.replicate nw 0

def isZero (a : List Word) : Bool := a.all (· == 0)

def equal (a b : List Word) : Bool := a == b

/-- The first difference from the top decides. -/
def ultFrom : List Word → List Word → Bool
  | x :: xs, y :: ys => if x ≠ y then x.ult y else ultFrom xs ys
  | _, _ => false

def ult (a b : List Word) : Bool := ultFrom a.reverse b.reverse

def slt (a b : List Word) (w : ℕ) : Bool :=
  if getBit a (w - 1) ≠ getBit b (w - 1) then getBit a (w - 1) else ult a b

/-- `dst` bits from `doff` on, or `n` bits of `src` from `soff` on. -/
def orBits (dst : List Word) (doff : ℕ) (src : List Word) (soff n : ℕ) : List Word :=
  if n = 0 then dst
  else
    let take := min n (min (64 - soff % 64) (64 - doff % 64))
    let v := src.getD (soff / 64) 0 >>> (soff % 64)
    let v := if take < 64 then v &&& (1#64 <<< take - 1) else v
    orBits (dst.modify (doff / 64) (· ||| v <<< (doff % 64))) (doff + take) src
      (soff + take) (n - take)
termination_by n
decreasing_by omega

/-- A flag as a word. -/
def flag (b : Bool) : Word := if b then 1 else 0

def addFrom (carry : Bool) : List Word → List Word → List Word
  | a :: as, b :: bs =>
    let s := a + b
    let d := s + flag carry
    d :: addFrom (s.ult a || d.ult s) as bs
  | _, _ => []

def add (a b : List Word) : List Word := addFrom false a b

def subFrom (borrow : Bool) : List Word → List Word → List Word
  | a :: as, b :: bs =>
    let x := a - b
    (x - flag borrow) :: subFrom (a.ult b || x.ult (flag borrow)) as bs
  | _, _ => []

def sub (a b : List Word) : List Word := subFrom false a b

def negFrom (carry : Bool) : List Word → List Word
  | a :: as =>
    let d := ~~~a + flag carry
    d :: negFrom (carry && d == 0) as
  | [] => []

def neg (a : List Word) : List Word := negFrom true a

/-- A row of a product: `x` times the words of `b`, onto `d`. -/
def mulRow (x : Word) (carry : Word) : List Word → List Word → List Word
  | b :: bs, d :: ds =>
    let t := x.toNat * b.toNat + d.toNat + carry.toNat
    BitVec.ofNat 64 t :: mulRow x (BitVec.ofNat 64 (t / 2 ^ 64)) bs ds
  | _, _ => []

/-- The rows of a product; the words below the current one are final. -/
def mulRows (b : List Word) : List Word → List Word → List Word
  | a :: as, d =>
    match if a = 0 then d else mulRow a 0 b d with
    | [] => []
    | r :: rs => r :: mulRows b as rs
  | [], d => d

def mul (a b : List Word) : List Word := mulRows b a (zero a.length)

/-- Words moved up by a bit. -/
def shiftIn (low : Bool) : List Word → List Word
  | [] => []
  | r :: rs => (r <<< 1 ||| flag low) :: shiftIn (r.getLsbD 63) rs

/-- One step of the restoring division: the remainder and the quotient after bit `i`. -/
def divStep (a b : List Word) (st : List Word × List Word) (i : ℕ) : List Word × List Word :=
  let rem := shiftIn (getBit a i) st.1
  if ult rem b then (rem, st.2) else (sub rem b, setBit st.2 i)

/-- The division bit by bit, for any number of words. -/
def udivremLoop (a b : List Word) (w : ℕ) : List Word × List Word :=
  let r := (List.range w).reverse.foldl (divStep a (b ++ [0]))
    (zero (nwords w + 1), zero (nwords w))
  (r.2, r.1.take (nwords w))

/-- `udivrem`: a quotient and a remainder. -/
def udivrem (a b : List Word) (w : ℕ) : List Word × List Word :=
  let nw := nwords w
  if isZero b then (clearTop (List.replicate nw (BitVec.allOnes 64)) w, a)
  else if nw = 1 then ([a.getD 0 0 / b.getD 0 0], [a.getD 0 0 % b.getD 0 0])
  else if nw = 2 then
    let x := (a.getD 1 0).toNat * 2 ^ 64 + (a.getD 0 0).toNat
    let y := (b.getD 1 0).toNat * 2 ^ 64 + (b.getD 0 0).toNat
    ([BitVec.ofNat 64 (x / y), BitVec.ofNat 64 (x / y / 2 ^ 64)],
      [BitVec.ofNat 64 (x % y), BitVec.ofNat 64 (x % y / 2 ^ 64)])
  else udivremLoop a b w

/-- `min(value(b), w)` -/
def shiftAmount (b : List Word) (w : ℕ) : ℕ :=
  if (b.drop 1).any (· != 0) then w else if w ≤ (b.getD 0 0).toNat then w else (b.getD 0 0).toNat

def shl (a : List Word) (s w : ℕ) : List Word :=
  let nw := nwords w
  if w ≤ s then zero nw
  else clearTop ((List.range nw).map fun i =>
    if s / 64 ≤ i then
      let v := a.getD (i - s / 64) 0 <<< (s % 64)
      if s % 64 ≠ 0 ∧ s / 64 + 1 ≤ i then v ||| a.getD (i - s / 64 - 1) 0 >>> (64 - s % 64) else v
    else 0) w

def lshr (a : List Word) (s w : ℕ) : List Word :=
  let nw := nwords w
  if w ≤ s then zero nw
  else (List.range nw).map fun i =>
    if i + s / 64 < nw then
      let v := a.getD (i + s / 64) 0 >>> (s % 64)
      if s % 64 ≠ 0 ∧ i + s / 64 + 1 < nw then
        v ||| a.getD (i + s / 64 + 1) 0 <<< (64 - s % 64) else v
    else 0

/-- Set the bits from one to another. -/
def setBits (d : List Word) (lo hi : ℕ) : List Word := (List.range' lo (hi - lo)).foldl setBit d

def ashr (a : List Word) (s w : ℕ) : List Word :=
  let d := lshr a s w
  if getBit a (w - 1) then setBits d (if w ≤ s then 0 else w - s) w else d

def splitmix (x : Word) : Word :=
  let x := x + 0x9e3779b97f4a7c15
  let x := (x ^^^ (x >>> 30)) * 0xbf58476d1ce4e5b9
  let x := (x ^^^ (x >>> 27)) * 0x94d049bb133111eb
  x ^^^ (x >>> 31)

/-- The value of a hexadecimal digit, `0` for another character. -/
def hexDigit (c : Char) : ℕ :=
  if '0' ≤ c ∧ c ≤ '9' then c.toNat - '0'.toNat
  else if 'a' ≤ c ∧ c ≤ 'f' then c.toNat - 'a'.toNat + 10
  else if 'A' ≤ c ∧ c ≤ 'F' then c.toNat - 'A'.toNat + 10
  else 0

/-- The digits from the last one on, each four bits above the one before. -/
def parseFrom (d : List Word) (bit : ℕ) : List Char → List Word
  | [] => d
  | c :: cs =>
    parseFrom (d.modify (bit / 64) (· ||| BitVec.ofNat 64 (hexDigit c) <<< (bit % 64))) (bit + 4) cs

def parseHex (s : List Char) (nw : ℕ) : List Word := parseFrom (zero nw) 0 s.reverse

end LiveHD.Lec
