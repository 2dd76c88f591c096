import LiveHD.Lib.Framing

/-!
# The proof race

`pass/lec/fork_race.hpp`: one child for each method, as many at a time as admission allows; a racer
that has had its quantum is stopped and its slot goes to a method that waits.  What the clock,
admission, `fork`, the signals and the pipes say is the reply of the environment to a step of the
parent.
-/

namespace LiveHD.Lec.ForkRace

open Framing Function

/-- A `std::string`, whose size is a `size_t`. -/
abbrev Blob := { l : List UInt8 // l.length < 2 ^ 64 }

/-- `frame_blob` -/
def frameBlob (payload : Blob) : List UInt8 := le 8 payload.1.length ++ payload.1

/-- The number in the header of a frame. -/
def headerValue : List UInt8 → ℕ
  | [] => 0
  | b :: bs => b.toNat + 256 * headerValue bs

/-- `unframe_blob` -/
def unframeBlob (b : List UInt8) : Option (List UInt8) :=
  if b.length < 8 then none
  else if (b.drop 8).length ≠ headerValue (b.take 8) then none
  else some (b.drop 8)

variable {R : Type*}

/-- `Race_result` -/
structure RaceResult (R : Type*) where
  results : ℕ → R
  forked : Bool := true
  winner : ℤ := -1
  deadlineHit : Bool := false
  elapsedMs : ℤ := 0
  done : ℕ → Bool := fun _ => false
  timedOut : ℕ → Bool := fun _ => false
  death : ℕ → String := fun _ => ""
  started : ℕ → Bool := fun _ => false
  queued : ℕ → Bool := fun _ => false
  armMs : ℕ → ℤ := fun _ => 0

/-- The arguments of a race, and what is fixed while it runs. -/
structure Config (R : Type*) where
  nmethods : ℕ
  empty : R
  ser : R → Blob
  deser : List UInt8 → Option R
  trust : ℕ → R → Bool
  resolve : Option (RaceResult R → ℤ) := none
  startAfterMs : Option (ℕ → ℤ) := none
  deadlineMs : ℤ := 0
  ceiling : ℕ
  nested : Bool := false

/-- What a child does: the result of its method, and how many bytes of it are written before the
child ends. -/
structure Child (R : Type*) where
  result : R
  count : ℕ

/-- The bytes a child writes. -/
def Child.written (cfg : Config R)
    (c : Child R) : List UInt8 := (frameBlob (cfg.ser c.result)).take c.count

inductive PollReply where
  | timeout
  | interrupted
  | failed
  | events (revents : ℕ → Bool)

inductive ReadReply where
  | bytes (k : ℕ)
  | interrupted
  /-- End of file, or an error; with the cause of death that the wait status tells. -/
  | closed (cause : String)

/-- What the environment says to one step. -/
structure Reply where
  now : ℤ
  granted : Bool
  piped : Bool
  forked : Bool
  suspended : Bool
  poll : PollReply
  read : ReadReply

/-- Where the parent is: in `admit_all`, which is called once before the loop, or in the loop. -/
inductive Pc where
  | launch (before : Bool)
  | unpark (before : Bool)
  | inherit (before : Bool)
  | head
  | rotate
  | poll
  | read (ready : List ℕ)
  | reap
  | returned

/-- The state of the parent.  `launches` and `stale` are its history: the methods that were forked,
and the racers that were done when they were resumed. -/
structure Race (R : Type*) where
  out : RaceResult R
  pc : Pc := .launch true
  startedAt : ℕ → ℤ := fun _ => 0
  sliceAt : ℕ → ℤ := fun _ => 0
  rfd : ℕ → Bool := fun _ => false
  pid : ℕ → Bool := fun _ => false
  forkOk : Bool := true
  leases : ℕ → Bool := fun _ => false
  stopped : ℕ → Bool := fun _ => false
  parked : List ℕ := []
  inherited : Option ℕ := none
  next : ℕ := 0
  bufs : ℕ → List UInt8 := fun _ => []
  remaining : ℕ
  launches : List ℕ := []
  stale : List ℕ := []

namespace Config

variable (cfg : Config R)

def residentCap : ℕ := max 2 cfg.ceiling

def init : Race R := { out := { results := fun _ => cfg.empty }, remaining := cfg.nmethods }

/-- `race_slice_quantum_ms` -/
def quantum : ℤ := if cfg.deadlineMs ≤ 0 then 500 else max 150 (min (cfg.deadlineMs.tdiv 32) 500)

end Config

namespace Race

variable (cfg : Config R) (s : Race R)

/-- A racer that is resident: running or stopped. -/
def live (i : ℕ) : Bool := s.out.started i && !s.out.done i

def resident (n : ℕ) : ℕ := (List.range n).countP s.live

def running (n : ℕ) : ℕ := (List.range n).countP fun i => s.live i && !s.stopped i

/-- `launch`, with `given` a lease that is handed over: whether the method was started. -/
def launch (i : ℕ) (given inherit : Bool) (r : Reply) : Race R × Bool :=
  let lease := if given || inherit then given else r.granted
  if !lease && !inherit then ({ s with out := { s.out with queued := update s.out.queued i true } },
    false)
  else if !r.piped then ({ s with forkOk := false }, false)
  else if !r.forked then ({ s with rfd := update s.rfd i true, forkOk := false }, false)
  else ({ s with
    out := { s.out with started := update s.out.started i true }
    startedAt := update s.startedAt i r.now
    sliceAt := update s.sliceAt i r.now
    leases := update s.leases i lease
    inherited := if inherit then some i else s.inherited
    pid := update s.pid i true
    rfd := update s.rfd i true
    launches := s.launches ++ [i] }, true)

/-- `launch` of the next method, which is counted if it was started. -/
def launchNext (given inherit : Bool) (r : Reply) : Race R :=
  let l := s.launch s.next given inherit r
  if l.2 then { l.1 with next := s.next + 1 } else l.1

/-- `resume` -/
def resume (j : ℕ) (lease inherit : Bool) (r : Reply) : Race R :=
  { s with
    leases := update s.leases j lease
    inherited := if inherit then some j else s.inherited
    stopped := update s.stopped j false
    sliceAt := update s.sliceAt j r.now
    stale := if s.out.done j then s.stale ++ [j] else s.stale }

def due (i : ℕ) (now : ℤ) : Bool :=
  match cfg.startAfterMs with
  | none => true
  | some after => decide (after i ≤ now) || (List.range cfg.nmethods).all fun j => !s.live j

/-- A new method may start. -/
def fresh (now : ℤ) : Bool := decide (s.next < cfg.nmethods) &&
    decide (s.resident cfg.nmethods < cfg.residentCap) && s.due cfg s.next now

/-- A racer whose quantum is up. -/
def eligible (now : ℤ) (i : ℕ) : Bool :=
  s.pid i && !s.out.done i && !s.stopped i && (s.leases i || s.inherited == some i) &&
    decide (cfg.quantum ≤ now - s.sliceAt i)

/-- The racer that has run longest. -/
def victim (now : ℤ) : Option ℕ :=
  (List.range cfg.nmethods).foldl (fun v i =>
    if s.eligible cfg now i then
      match v with
      | none => some i
      | some j => if s.sliceAt i < s.sliceAt j then some i else some j
    else v) none

/-- The victim is stopped, and its lease and the token are taken. -/
def stop (v : ℕ) : Race R :=
  { s with
    stopped := update s.stopped v true
    inherited := if s.inherited = some v then none else s.inherited
    leases := update s.leases v false }

/-- The slot of the victim goes to the waiting method, or to the first parked racer. -/
def handOver (v : ℕ) (fresh lease token : Bool) (r : Reply) : Race R :=
  let s := if fresh then s.launchNext lease token r
    else match s.parked with
      | j :: rest => { s.resume j lease token r with parked := rest }
      | [] => s
  { s with parked := s.parked ++ [v] }

/-- `rotate` -/
def rotate (r : Reply) : Race R :=
  if !s.forkOk || (!s.fresh cfg r.now && s.parked.isEmpty) then s
  else match s.victim cfg r.now with
    | none => s
    | some v => if r.suspended then
      (s.stop v).handOver v (s.fresh cfg r.now) (s.leases v) (s.inherited == some v) r else s

/-- The last part of `admit_all`: the caller's capacity. -/
def admitInherited (r : Reply) : Race R :=
  if cfg.nested && s.forkOk && s.running cfg.nmethods == 0 then
    if s.fresh cfg r.now then s.launchNext false true r
    else match s.parked with
      | j :: rest => { s.resume j false true r with parked := rest }
      | [] => s
  else s

/-- The result of a racer that ended: the one in its frame, if that is complete. -/
def collect (i : ℕ) (cause : String) : RaceResult R :=
  match (unframeBlob (s.bufs i)).bind cfg.deser with
  | some v => { s.out with results := update s.out.results i v }
  | none =>
    { s.out with results := update s.out.results i cfg.empty, death := update s.out.death i cause }

/-- The winner after a racer ended. -/
def judge (out : RaceResult R) (i : ℕ) : RaceResult R :=
  if cfg.trust i (out.results i) then { out with winner := i }
  else match cfg.resolve with
    | some f => { out with winner := f out }
    | none => out

/-- A racer that ended is reaped. -/
def finish (i : ℕ) (cause : String) (r : Reply) : Race R :=
  let out := s.collect cfg i cause
  let out := { out with
      done := update s.out.done i true
      armMs := update s.out.armMs i (r.now - s.startedAt i) }
  { s with
    out := judge cfg out i
    leases := update s.leases i false
    pid := update s.pid i false
    inherited := if s.inherited = some i then none else s.inherited
    remaining := s.remaining - 1
    stopped := update s.stopped i false
    parked := s.parked.filter (· ≠ i) }

/-- The losers are killed, and those that the deadline caught are marked. -/
def reap (r : Reply) : Race R :=
  let late := fun i => decide (i < cfg.nmethods) && !s.out.done i && s.out.deadlineHit &&
    decide (s.out.winner < 0)
  { s with
    pc := .returned
    pid := fun i => s.pid i && !decide (i < cfg.nmethods)
    leases := fun i => s.leases i && !(decide (i < cfg.nmethods) && s.pid i)
    out := { s.out with
      timedOut := fun i => s.out.timedOut i || late i
      results := fun i => if late i && s.pid i then cfg.empty else s.out.results i
      elapsedMs := r.now
      armMs := fun i => if decide (i < cfg.nmethods) && s.live i then r.now - s.startedAt i
        else s.out.armMs i } }

/-- One step of the parent, `children` being what the children do. -/
def step (children : ℕ → Child R) (r : Reply) : Race R :=
  match s.pc with
  | .launch before =>
    if s.forkOk && s.fresh cfg r.now then
      let l := s.launch s.next false false r
      if l.2 then { l.1 with next := s.next + 1 } else { l.1 with pc := .unpark before }
    else { s with pc := .unpark before }
  | .unpark before =>
    match s.parked with
    | j :: rest => if s.forkOk && r.granted then { s.resume j true false r with parked := rest }
      else { s with pc := .inherit before }
    | [] => { s with pc := .inherit before }
  | .inherit before =>
    let s := s.admitInherited cfg r
    if before then
      if s.forkOk then { s with pc := .head }
        else { s with pc := .returned, out := { s.out with forked := false } }
    else { s with pc := .rotate }
  | .head => { s with pc := if 0 < s.remaining ∧ s.out.winner < 0 then .launch false else .reap }
  | .rotate =>
    { (if cfg.deadlineMs ≤ 0 ∨ r.now < cfg.deadlineMs then s.rotate cfg r else s) with pc := .poll }
  | .poll =>
    if !s.forkOk then { s with pc := .reap }
    else if 0 < cfg.deadlineMs ∧ cfg.deadlineMs - r.now ≤ 0 then
      { s with pc := .reap, out := { s.out with deadlineHit := true } }
    else match r.poll with
      | .timeout | .interrupted => { s with pc := .head }
      | .failed => { s with pc := .reap }
      | .events revents =>
        { s with
          pc := .read ((List.range cfg.nmethods).filter fun i =>
            !s.out.done i && s.rfd i && revents i) }
  | .read [] => { s with pc := .head }
  | .read (i :: ready) =>
    if 0 ≤ s.out.winner then { s with pc := .head }
    else match r.read with
      | .bytes k =>
        { s with
          pc := .read ready
          bufs := update s.bufs i
            (s.bufs i ++ (((children i).written cfg).drop (s.bufs i).length).take k) }
      | .interrupted => { s with pc := .read ready }
      | .closed cause => { s.finish cfg i cause r with pc := .read ready }
  | .reap => s.reap cfg r
  | .returned => s

/-- The states that the parent comes to, whatever the environment says. -/
inductive Reached (children : ℕ → Child R) : Race R → Prop
  | init : Reached children cfg.init
  | step {s : Race R} (r : Reply) : Reached children s → Reached children (s.step cfg children r)

end Race

end LiveHD.Lec.ForkRace
