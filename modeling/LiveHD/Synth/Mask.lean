import LiveHD.Lib.Words
import LiveHD.Synth.Lnet

/-!
# Sets of bit positions

`Mask` of `pass/synth/state_sweep.cpp`: words of storage, and a tail that holds every position above
them or none. Positions and distances are integers, as no bound of a slice or a shift reaches
`kMaxMaskOperand`.
-/

namespace LiveHD.Synth

open Words (Word bit)

/-- `std::numeric_limits<int64_t>::max()` -/
def int64Max : ℤ := 2 ^ 63 - 1

structure Mask where
  words : List Word
  tail : Bool
deriving DecidableEq

namespace Mask

/-- `words_.resize(count, fill)` -/
def resize (ws : List Word) (count : ℕ)
    (fill : Word) : List Word := ws.take count ++ List.replicate (count - ws.length) fill

/-- The words of a loop over `w` from `first` to `last`, each written once. -/
def updateWords (f : ℕ → Word → Word) (first last : ℤ) (ws : List Word) : List Word :=
  ws.mapIdx fun w old => if first ≤ w ∧ w ≤ last then f w old else old

def lowOnes (n : ℕ) : Word := ((1 : Word) <<< n) - 1

/-- The bits of word `w` that lie in `[lo, hi)`. -/
def rangeBits (lo hi : ℤ) (w : ℕ) : Word :=
  let start := max lo (w * 64) - w * 64
  let stop := min hi (w * 64 + 64) - w * 64
  (if stop - start = 64 then BitVec.allOnes 64 else lowOnes (stop - start).toNat) <<< start.toNat

/-- The last word without the bits at `width` and above. -/
def trim (width : ℤ) (ws : List Word) : List Word :=
  if width % 64 ≠ 0 then ws.modify (ws.length - 1) (· &&& lowOnes (width % 64).toNat) else ws

def empty : Mask := ⟨[], false⟩

def all : Mask := ⟨[], true⟩

def fill (m : Mask) : Word := if m.tail then BitVec.allOnes 64 else 0

/-- A word. As a `size_t`, an index below zero is above the storage. -/
def word (m : Mask) (i : ℤ) : Word := if 0 ≤ i then m.words.getD i.toNat m.fill else m.fill

def any (m : Mask) : Bool := m.tail || m.words.any (· ≠ 0)

def test (m : Mask) (i : ℤ) : Bool :=
  if i < 0 then false
  else if (m.words.length : ℤ) ≤ i / 64 then m.tail
  else (m.words.getD (i / 64).toNat 0).getLsbD (i % 64).toNat

def highestBelow (ws : List Word) : ℕ → ℤ
  | 0 => -1
  | i + 1 => if ws.getD i 0 ≠ 0 then i * 64 + 63 - (ws.getD i 0).clz.toNat else highestBelow ws i

def highest (m : Mask) : ℤ := if m.tail then int64Max else highestBelow m.words m.words.length

def orRange (lo hi : ℤ) (ws : List Word) : List Word :=
  updateWords (fun w old => old ||| rangeBits lo hi w) (lo / 64) ((hi - 1) / 64) ws

def setRange (m : Mask) (lo hi : ℤ) : Mask :=
  let lo := max lo 0
  if hi ≤ lo then m
  else if m.tail ∧ (m.words.length : ℤ) ≤ lo / 64 then m
  else
    let last := (hi - 1) / 64
    if (m.words.length : ℤ) ≤ last then
      if m.tail then
        let hi := (m.words.length : ℤ) * 64
        if hi ≤ lo then m else { m with words := orRange lo hi m.words }
      else { m with words := orRange lo hi (resize m.words (last + 1).toNat 0) }
    else { m with words := orRange lo hi m.words }

def set (m : Mask) (i : ℤ) : Mask := m.setRange i (i + 1)

/-- `Mask::prefix` -/
def prefixOf (n : ℤ) : Mask := empty.setRange 0 n

/-- The words with those of the other mask, from word `i` on, and whether one of them changed. -/
def mergeWords (other : Mask) : ℕ → List Word → Bool → List Word × Bool
  | _, [], changed => ([], changed)
  | i, w :: ws, changed =>
    let theirs := other.word i
    let grows := w ||| theirs ≠ w
    let rest := mergeWords other (i + 1) ws (changed || grows)
    ((if grows then w ||| theirs else w) :: rest.1, rest.2)

def merge (m other : Mask) : Mask × Bool :=
  let changed := other.tail && !m.tail
  let tail := m.tail || changed
  let ws :=
    if m.words.length < other.words.length then
      resize m.words other.words.length (if tail && !other.tail then BitVec.allOnes 64 else 0)
    else m.words
  let merged := mergeWords other 0 ws changed
  (⟨merged.1, tail⟩, merged.2)

def clipped (m : Mask) (width : ℤ) : Mask :=
  if width ≤ 0 then empty
  else ⟨trim width ((List.range ((width + 63) / 64).toNat).map fun i : ℕ => m.word i), false⟩

def windowWord (m : Mask) (lo : ℤ) (i : ℕ) : Word :=
  let first := lo / 64
  let shift := (lo % 64).toNat
  let value := m.word (first + i) >>> shift
  if shift ≠ 0 then value ||| m.word (first + i + 1) <<< (64 - shift) else value

def window (m : Mask) (lo hi : ℤ) : Mask :=
  if hi ≤ lo then empty
  else
    let width := hi - lo
    ⟨trim width ((List.range ((width + 63) / 64).toNat).map (m.windowWord lo)), false⟩

def roomFor (place : ℕ) (out : List Word) : List Word :=
  if out.length < place + 2 then resize out (place + 2) 0 else out

/-- A word shifted by `lane` into two neighbours. -/
def orShifted (place lane : ℕ) (old : Word) (out : List Word) : List Word :=
  let low := out.modify place (· ||| old <<< lane)
  if lane ≠ 0 then low.modify (place + 1) (· ||| old >>> (64 - lane)) else low

/-- Word `w` moved up. A word that would land below zero has an index beyond what `resize` can
give. -/
def shiftWord (distance : ℤ) (w : ℕ) (old : Word) (out : List Word) : Option (List Word) :=
  let base := w * 64 + distance
  if old = 0 then some out
  else if base / 64 < 0 then none
  else some (orShifted (base / 64).toNat (base % 64).toNat old (roomFor (base / 64).toNat out))

def shiftWords (distance : ℤ) : ℕ → List Word → List Word → Option (List Word)
  | _, [], out => some out
  | w, old :: ws, out => shiftWord distance w old out >>= shiftWords distance (w + 1) ws

def shiftedUp (m : Mask) (distance : ℤ) : Option Mask :=
  (shiftWords distance 0 m.words []).map fun ws => ⟨ws, false⟩

def clearWord (lo hi : ℤ) (w : ℕ) (old : Word) : Word := old &&& ~~~ rangeBits lo hi w

/-- The range in the words that the storage has. -/
def clearRange (lo hi : ℤ) (ws : List Word) : List Word :=
  if lo < hi then updateWords (clearWord lo hi) (lo / 64) ((hi - 1) / 64) ws else ws

/-- The range in a word that the tail was kept in. -/
def clearTail (lo hi : ℤ) (w : ℕ) (old : Word) : Word :=
  if max lo (w * 64) - w * 64 < min hi (w * 64 + 64) - w * 64 then clearWord lo hi w old else old

def without (m : Mask) (lo hi : ℤ) : Mask :=
  let lo := max lo 0
  let out := clearRange lo hi m.words
  if m.tail ∧ (m.words.length : ℤ) * 64 < hi then
    let count := ((hi + 63) / 64).toNat
    ⟨updateWords (clearTail lo hi) m.words.length (count - 1)
      (resize out count (BitVec.allOnes 64)), m.tail⟩
  else ⟨out, m.tail⟩

/-- What `add_demand` merges for a driver of a width: positions above it read its extension. -/
def effective (wanted : Mask) (width : ℤ) (isUnsigned : Bool) : Mask :=
  if width ≤ 0 then all
  else
    let eff := wanted.clipped width
    if width ≤ wanted.highest ∧ isUnsigned = false then eff.set (width - 1) else eff

/-- The demand of one pin: nothing wanted is not recorded. -/
def addDemand (demand wanted : Mask) (width : ℤ) (isUnsigned : Bool) : Mask :=
  if wanted.any = false ∨ (wanted.effective width isUnsigned).any = false then demand
  else (demand.merge (wanted.effective width isUnsigned)).1

/-- The set a mask stands for. -/
def members (m : Mask) : Set ℤ :=
  {i | 0 ≤ i ∧ if i < 64 * m.words.length then bit m.words i.toNat = true else m.tail = true}

end Mask

end LiveHD.Synth
