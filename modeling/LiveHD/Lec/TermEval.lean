import LiveHD.Lec.Smt

/-!
# Operators of the term simulator

The word operations of `Term_sim::eval_node`, for the operators whose result is a Boolean or
a bit vector.  A Boolean is a single word.  Where the source has a path for results of one
word, that path is `narrow`; `wide` has the loops over words.
-/

namespace LiveHD.Lec

open Words

/-- An operand: a node's width with its words. -/
structure Kid where
  width : ℕ := 0
  words : List Word := []
deriving DecidableEq

namespace Kid

def nw (k : Kid) : ℕ := nwords k.width

def word (k : Kid) : Word := k.words.getD 0 0

def truth (k : Kid) : Bool := k.word != 0

end Kid

/-- Each operand differs from those after it. -/
def distinct : List Kid → Bool
  | [] => true
  | k :: ks => (ks.all fun l => !equal k.words l.words) && distinct ks

def negTop (a : List Word) (w : ℕ) : List Word := clearTop (neg a) w

def magnitude (a : List Word) (w : ℕ) : List Word := if getBit a (w - 1) then negTop a w else a

variable (s t : List Word) (w : ℕ)

def sdiv : List Word :=
  let r := (udivrem (magnitude s w) (magnitude t w) w).1
  if getBit s (w - 1) ≠ getBit t (w - 1) then negTop r w else r

def srem : List Word :=
  let r := (udivrem (magnitude s w) (magnitude t w) w).2
  if getBit s (w - 1) then negTop r w else r

/-- The sign follows the divisor. -/
def smod : List Word :=
  let ns := getBit s (w - 1)
  let nt := getBit t (w - 1)
  let r := (udivrem (magnitude s w) (magnitude t w) w).2
  let d := if isZero r || (!ns && !nt) then r
    else if ns && !nt then sub t r
    else if !ns && nt then add r t
    else neg r
  clearTop d w

def redand (a : Kid) : Bool := (a.words.take (a.nw - 1)).all (· == BitVec.allOnes 64) &&
    a.words.getD (a.nw - 1) 0 == topMask a.width

/-- The operands from the last one on, each above those after it; with the number of bits so far. -/
def concatBits (nw : ℕ) : List Kid → List Word × ℕ
  | [] => (zero nw, 0)
  | k :: ks =>
    let r := concatBits nw ks
    (orBits r.1 r.2 k.words 0 k.width, r.2 + k.width)

def repeatBits (nw : ℕ) (a : Kid) : ℕ → List Word
  | 0 => zero nw
  | k + 1 => orBits (repeatBits nw a k) (k * a.width) a.words 0 a.width

def rotate (a : List Word) (r w : ℕ) : List Word :=
  orBits (orBits (zero (nwords w)) r a 0 (w - r)) 0 a (w - r) r

/-- Copy words into a result that was cleared. -/
def extendWords (a : Kid) (nw : ℕ) : List Word := a.words.take a.nw ++ zero (nw - a.nw)

def signExtend (a : Kid) (w : ℕ) : List Word :=
  let d := extendWords a (nwords w)
  if getBit a.words (a.width - 1) then setBits d a.width w else d

section Operators

variable (w p0 p1 : ℕ) (ks : List Kid)

/-- The path for a result of one word. -/
def narrow : Fn → Option (List Word)
  | .bvAdd => some [(ks.foldl (fun s k => s + k.word) 0) &&& topMask w]
  | .bvSub => some [((ks.drop 1).foldl (fun s k => s - k.word) (ks.getD 0 {}).word) &&& topMask w]
  | .bvMul => some [((ks.drop 1).foldl (fun s k => s * k.word) (ks.getD 0 {}).word) &&& topMask w]
  | .bvShl =>
    let s := shiftAmount (ks.getD 1 {}).words w
    some [if w ≤ s then 0 else (ks.getD 0 {}).word <<< s &&& topMask w]
  | .bvLshr =>
    let s := shiftAmount (ks.getD 1 {}).words w
    some [if w ≤ s then 0 else (ks.getD 0 {}).word >>> s]
  | .extract => if (ks.getD 0 {}).nw = 1 then
    some [(ks.getD 0 {}).word >>> p1 &&& topMask (p0 - p1 + 1)] else none
  | .concat => some [(ks.foldl (fun r k => if 64 ≤ k.width then k.word
    else r <<< k.width ||| k.word) 0) &&& topMask w]
  | _ => none

/-- The words of a result, by the loops over words. -/
def wide (f : Fn) : List Word :=
  let kid := fun i => ks.getD i {}
  let val := fun i => (kid i).words
  match f with
  | .not => [flag (!(kid 0).truth)]
  | .and => [flag (ks.all Kid.truth)]
  | .or => [flag (ks.any Kid.truth)]
  | .xor => [ks.foldl (fun r k => r ^^^ flag k.truth) 0]
  | .implies => [flag (!(kid 0).truth || (kid 1).truth)]
  | .eq => [flag ((ks.drop 1).all fun k => equal (val 0) k.words)]
  | .distinct => [flag (distinct ks)]
  | .ite => if (kid 0).truth then val 1 else val 2
  | .bvNot => clearTop ((val 0).map (~~~ ·)) w
  | .bvAnd => (ks.drop 1).foldl (fun d k => d.zipWith (· &&& ·) k.words) (val 0)
  | .bvOr => (ks.drop 1).foldl (fun d k => d.zipWith (· ||| ·) k.words) (val 0)
  | .bvXor => (ks.drop 1).foldl (fun d k => d.zipWith (· ^^^ ·) k.words) (val 0)
  | .bvNand => clearTop ((val 0).zipWith (fun a b => ~~~(a &&& b)) (val 1)) w
  | .bvNor => clearTop ((val 0).zipWith (fun a b => ~~~(a ||| b)) (val 1)) w
  | .bvXnor => clearTop ((val 0).zipWith (fun a b => ~~~(a ^^^ b)) (val 1)) w
  | .bvComp => [flag (equal (val 0) (val 1))]
  | .bvNeg => negTop (val 0) w
  | .bvAdd => clearTop ((ks.drop 1).foldl (fun d k => add d k.words) (val 0)) w
  | .bvSub => clearTop ((ks.drop 1).foldl (fun d k => sub d k.words) (val 0)) w
  | .bvMul => clearTop ((ks.drop 1).foldl (fun d k => mul d k.words) (val 0)) w
  | .bvUdiv => (udivrem (val 0) (val 1) w).1
  | .bvUrem => (udivrem (val 0) (val 1) w).2
  | .bvSdiv => sdiv (val 0) (val 1) w
  | .bvSrem => srem (val 0) (val 1) w
  | .bvSmod => smod (val 0) (val 1) w
  | .bvShl => shl (val 0) (shiftAmount (val 1) w) w
  | .bvLshr => lshr (val 0) (shiftAmount (val 1) w) w
  | .bvAshr => ashr (val 0) (shiftAmount (val 1) w) w
  | .bvUlt | .bvUltbv => [flag (ult (val 0) (val 1))]
  | .bvUle => [flag (!ult (val 1) (val 0))]
  | .bvUgt => [flag (ult (val 1) (val 0))]
  | .bvUge => [flag (!ult (val 0) (val 1))]
  | .bvSlt | .bvSltbv => [flag (slt (val 0) (val 1) (kid 0).width)]
  | .bvSle => [flag (!slt (val 1) (val 0) (kid 0).width)]
  | .bvSgt => [flag (slt (val 1) (val 0) (kid 0).width)]
  | .bvSge => [flag (!slt (val 0) (val 1) (kid 0).width)]
  | .bvRedor => [flag (!isZero (val 0))]
  | .bvRedand => [flag (redand (kid 0))]
  | .extract => orBits (zero (nwords w)) 0 (val 0) p1 (p0 - p1 + 1)
  | .concat => (concatBits (nwords w) ks).1
  | .zext => extendWords (kid 0) (nwords w)
  | .sext => signExtend (kid 0) w
  | .repeated => repeatBits (nwords w) (kid 0) p0
  | .rotl => rotate (val 0) (p0 % w) w
  | .rotr => rotate (val 0) ((w - p0 % w) % w) w
  -- reads and writes of memories are steps of the tape
  | .select | .store => []

/-- The words of an operator's result. -/
def evalFn (f : Fn) : List Word :=
  if nwords w = 1 then (narrow w p0 p1 ks f).getD (wide w p0 p1 ks f) else wide w p0 p1 ks f

end Operators

end LiveHD.Lec
