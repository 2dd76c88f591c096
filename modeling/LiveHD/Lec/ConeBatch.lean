import LiveHD.Lib.Framing

/-!
# Batches of cones

`pass/lec/cone_abc.cpp`: the cones of a batch are proved by a child that reports each verdict over a
pipe.  A child that stalls is killed and another one goes on after that cone; the cones that stalled
get a second chance.  The environment decides which event comes next.
-/

namespace LiveHD.Lec.ConeBatch

open Framing

inductive ConeVerdict where
  | proven | refuted | unsupported | unknown
deriving DecidableEq

def ConeVerdict.code : ConeVerdict → UInt8
  | .proven => 0
  | .refuted => 1
  | .unsupported => 2
  | .unknown => 3

/-- The cast of a byte that is at most `Unknown`. -/
def ConeVerdict.ofCode : UInt8 → ConeVerdict
  | 0 => .proven
  | 1 => .refuted
  | 2 => .unsupported
  | _ => .unknown

structure ConeStats where
  pis : UInt32 := 0
  ands : UInt32 := 0
deriving DecidableEq

/-! ## Records -/

def kRecord : ℕ := 13

def kReady : ℕ := 0xffffffff

/-- `put_u32` of a number, cast to 32 bits. -/
def putU32 (v : ℕ) : List UInt8 := le 4 v

def getU32 (p : List UInt8) : ℕ :=
  (p.getD 0 0).toNat + (p.getD 1 0).toNat * 2 ^ 8 + (p.getD 2 0).toNat * 2 ^ 16 +
    (p.getD 3 0).toNat * 2 ^ 24

/-- The first record of a child. -/
def readyRecord : List UInt8 := putU32 kReady ++ List.replicate 9 0

/-- What a child finds for a cone. -/
structure Answer where
  verdict : ConeVerdict
  stats : ConeStats := {}
deriving DecidableEq

def record (i : ℕ) (a : Answer) : List UInt8 :=
  putU32 i ++ [a.verdict.code] ++ putU32 a.stats.pis.toNat ++ putU32 a.stats.ands.toNat

/-- The records of a child that starts at a cone. -/
def records : ℕ → List Answer → List UInt8
  | _, [] => []
  | i, a :: as => record i a ++ records (i + 1) as

/-! ## The loop of the parent -/

inductive Phase where
  /-- Before the next child. -/
  | top
  /-- A child runs: the bytes of it that are not read yet, the part of a record that is, and whether
  it reported to be ready. -/
  | child (pending part : List UInt8) (ready : Bool)
  | returned
  /-- `std::abort`, after a child that crashed. -/
  | aborted
deriving DecidableEq

/-- The state of `batch_pass`.  `arrived` is its history: the records that were read. -/
structure Batch where
  out : List ConeVerdict
  stats : List ConeStats
  stalled : List ℕ := []
  next : ℕ := 0
  phase : Phase := .top
  arrived : List (ℕ × ConeVerdict) := []
deriving DecidableEq

/-- What the parent can see next. -/
inductive Event where
  /-- `pipe` or `fork` fails. -/
  | unforked
  /-- A child that will find these answers, unless it is killed or dies. -/
  | fork (answers : List Answer)
  /-- The deadline is over. -/
  | expire
  /-- The clock of the cone is over. -/
  | stall
  /-- `poll` is interrupted, or times out. -/
  | retry
  /-- `poll` fails. -/
  | pollError
  /-- `read` returns that many bytes. -/
  | read (k : ℕ)
  /-- The pipe is closed, by a child that ended well or crashed. -/
  | eof (crashed : Bool)
deriving DecidableEq

namespace Batch

/-- The `while` of the children. -/
def loop (n : ℕ) (s : Batch) : Batch := { s with phase := if s.next < n then .top else .returned }

def init (n : ℕ) : Batch := loop n { out := .replicate n .unknown, stats := .replicate n {} }

/-- A verdict is taken over. -/
def report (s : Batch) (rec : List UInt8) : Batch :=
  let idx := getU32 rec
  { s with
    out := if idx < s.out.length ∧ rec.getD 4 0 ≤ ConeVerdict.code .unknown then
      s.out.set idx (.ofCode (rec.getD 4 0)) else s.out
    stats := if idx < s.stats.length then
        s.stats.set idx
          { pis := UInt32.ofNat (getU32 (rec.drop 5)), ands := UInt32.ofNat (getU32 (rec.drop 9)) }
      else s.stats
    next := idx + 1
    arrived := s.arrived ++ [(idx, .ofCode (rec.getD 4 0))] }

/-- The bytes that were read are behind those of the record. -/
def receive (s : Batch) (pending part : List UInt8) (ready : Bool) : Batch :=
  if part.length < kRecord then { s with phase := .child pending part ready }
  else if getU32 part = kReady then { s with phase := .child pending [] true }
  else { s.report part with phase := .child pending [] ready }

/-- One event of `batch_pass` on `n` cones; `none` if it cannot happen.  `collect` says whether the
cones that stall are kept. -/
def step (n : ℕ) (deadline : ℤ) (collect : Bool) (s : Batch) (e : Event) : Option Batch :=
  match s.phase, e with
  | .top, .unforked => some { s with phase := .returned }
  | .top, .fork answers =>
    if answers.length = n - s.next then
      some { s with phase := .child (readyRecord ++ records s.next answers) [] false } else none
  | .child _ _ _, .expire => if 0 < deadline then some { s with phase := .returned } else none
  | .child _ _ ready, .stall =>
    if 0 < deadline ∧ ready = true then
      some (loop n { s with
          stalled := if collect = true then s.stalled ++ [s.next] else s.stalled
          next := s.next + 1 })
    else none
  | .child _ _ _, .retry => some s
  | .child _ _ _, .pollError => some { s with phase := .returned }
  | .child pending part ready, .read k =>
    if 0 < k ∧ k ≤ kRecord - part.length ∧ k ≤ pending.length then
      some (s.receive (pending.drop k) (part ++ pending.take k) ready) else none
  | .child _ _ _, .eof crashed =>
    some { s with next := n, phase := if crashed = true then .aborted else .returned }
  | _, _ => none

end Batch

/-- The runs of `batch_pass` on obligations: a child finds `Answers` to the obligations from its
first one on, and every step meets the condition. -/
inductive Run {D : Type*} (Answers : D → ConeVerdict → Prop) (diffs : List D) (deadline : ℤ)
    (collect : Bool) (Condition : Batch → Event → Prop) :
    List Event → Batch → Prop
  | init : Run Answers diffs deadline collect Condition [] (.init diffs.length)
  | step {es : List Event} {s s' : Batch} {e : Event} :
      Run Answers diffs deadline collect Condition es s → Condition s e →
      (∀ answers, e = .fork answers →
        List.Forall₂ (fun d a => Answers d a.verdict) (diffs.drop s.next) answers) →
      s.step diffs.length deadline collect e = some s' →
      Run Answers diffs deadline collect Condition (es ++ [e]) s'

/-! ## The second chance -/

def kConeStallMs : ℤ := 250

def kConeStallShare : ℤ := 20

/-- The cones that stalled are tried again, with `left` of the deadline. -/
def retries (deadline left : ℤ) (s : Batch) : Prop :=
  ¬(deadline ≤ 0 ∨ s.stalled = []) ∧ ¬s.out.count .proven < 4 * s.stalled.length ∧
    ¬left.tdiv s.stalled.length ≤ max kConeStallMs (deadline.tdiv kConeStallShare)

instance (deadline left : ℤ) (s : Batch) :
    Decidable (retries deadline left s) := inferInstanceAs (Decidable (_ ∧ _ ∧ _))

/-- The obligations of the cones that stalled: `none` if one of them is not there. -/
def retryDiffs {D : Type*} (diffs : List D)
    (stalled : List ℕ) : Option (List D) := stalled.mapM fun i => diffs[i]?

/-- The verdicts of the second pass go where its cones stalled. -/
def mergeRetry (out : List ConeVerdict) (stats : List ConeStats) (stalled : List ℕ)
    (again : List ConeVerdict) (retryStats : List ConeStats) :
    List ConeVerdict × List ConeStats :=
  (stalled.zip (again.zip retryStats)).foldl
    (fun r k => if k.2.1 ≠ .unknown then (r.1.set k.1 k.2.1, r.2.set k.1 k.2.2) else r) (out, stats)

end LiveHD.Lec.ConeBatch
