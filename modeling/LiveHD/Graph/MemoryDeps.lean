import LiveHD.Graph.Hinted

/-!
# The ports of a memory

`Memory_deps` of `graph/port_reach.cpp`: what an output of a memory depends on.  Port `i` has its
pins in the block from `Memory_port_stride * i`, the first block also those of the whole memory.
-/

namespace LiveHD.PortReach

/-- `Memory_port_stride` -/
def memoryPortStride : ℕ := 16

/-- `Memory_readall_pid` -/
def memoryReadallPid : ℕ := 2 ^ 20

/-- `Memory_deps::Port` -/
structure MemPort where
  addr : Option Pin
  en : Option Pin
  din : Option Pin
  rd : Bool
deriving DecidableEq

namespace MemPort

def empty : MemPort := ⟨none, none, none, false⟩

variable (p : MemPort)

/-- A port that writes. -/
def isWrite : Bool := p.addr.isSome && !p.rd

/-- A slot without a port. -/
def isPhantom : Bool := p.addr.isNone && p.din.isNone && p.en.isNone

/-- A pin at an offset of the port's block. -/
def set (base : ℕ) (d : Pin) : MemPort :=
  if base = 0 then { p with addr := some d }
  -- `enable`, and a name that ends so
  else if base = 4 ∨ base = 13 then { p with en := some d }
  else if base = 3 then { p with din := some d }
  else if base = 10 then { p with rd := d.isConst && d != .const 0 }
  else p

/-- What a write depends on. -/
def cones : List Pin := if p.isWrite then p.addr.toList ++ p.din.toList ++ p.en.toList else []

end MemPort

/-- The ports `pv`, which are `size` many, and what is common to them. -/
structure MemoryDeps where
  pv : ℕ → MemPort
  size : ℕ
  update : Option Pin
  hasClock : Bool
  fwdNonzero : Bool
  mtype : ℤ

namespace MemoryDeps

def init : MemoryDeps := ⟨fun _ => .empty, 0, none, false, false, 2⟩

/-- A sink with its driver.  From the second block on a sink's name starts with its number, so only
the tests for the end of a name apply. -/
def note (m : MemoryDeps) (e : ℕ × Pin) : MemoryDeps :=
  let idx := e.1 / memoryPortStride
  let base := e.1 % memoryPortStride
  -- `fwd` and `undef`
  if e.1 = 5 ∨ e.1 = 15 then { m with fwdNonzero := m.fwdNonzero || e.2 != .const 0 }
  -- `type`
  else if e.1 = 7 then
    match e.2 with
    | .const v => { m with mtype := v }
    | _ => m
  else if e.1 = 12 then { m with update := some e.2 }
  -- `update_enable`, `reset`, `initial`, `bits`, `size` and `wensize`
  else if e.1 ∈ [13, 14, 11, 1, 9, 8] then m
  else if base = 2 then { m with hasClock := true }
  else { m with
      size := max m.size (idx + 1)
      pv := Function.update m.pv idx ((m.pv idx).set base e.2) }

/-- The constructor of `Memory_deps`. -/
def decode (l : List (ℕ × Pin)) : MemoryDeps := l.foldl note init

variable (m : MemoryDeps)

/-- `n_wr` -/
def nWr : ℕ := (List.range m.size).countP fun i => (m.pv i).isWrite

/-- `wr_cones` -/
def wrCones : List Pin := (List.range m.size).flatMap fun i => (m.pv i).cones

/-- The port that an output reads, among those from `rd` on. -/
def readPort (want : ℕ) : List ℕ → ℕ → Option ℕ
  | [], _ => none
  | i :: is, rd =>
    if (m.pv i).isPhantom then readPort want is rd
    else if !(m.pv i).rd then readPort want is rd
    else if m.nWr + rd = want then some i
    else readPort want is (rd + 1)

/-- `Memory_deps::deps`; `none` for a pin that is no decoded port. -/
def deps (want : ℕ) (writes : Bool) : Option (List Pin) :=
  if want = memoryReadallPid then
    some (if !m.hasClock && writes then m.update.toList ++ m.wrCones else [])
  else
    (m.readPort want (List.range m.size) 0).map fun i =>
      if m.mtype ≠ 1 then
        (m.pv i).addr.toList ++ (m.pv i).en.toList ++ if writes && (m.fwdNonzero || !m.hasClock)
          then m.update.toList ++ m.wrCones else []
      else []

end MemoryDeps

/-! ## The ports as they are documented -/

/-- Each sink has one driver, and the later blocks hold the pins of their ports only. -/
structure MemorySinks (l : List (ℕ × Pin)) : Prop where
  nodup : (l.map (·.1)).Nodup
  blocks : ∀ e ∈ l, memoryPortStride ≤ e.1 → e.1 % memoryPortStride ∈ [0, 2, 3, 4, 10]

/-- What drives the sink of a number. -/
def sinkOf (l : List (ℕ × Pin)) (raw : ℕ) : Option Pin := (l.find? (·.1 == raw)).map (·.2)

namespace Memory

/-- The pins of a memory by number, and how many blocks there are. -/
structure Pins where
  pin : ℕ → Option Pin
  blocks : ℕ

def ofSinks (l : List (ℕ × Pin)) : Pins :=
  ⟨sinkOf l, l.foldl (fun n e => max n (e.1 / memoryPortStride + 1)) 0⟩

namespace Pins

variable (d : Pins)

variable (i : ℕ)

def addr : Option Pin := d.pin (memoryPortStride * i)

def din : Option Pin := d.pin (memoryPortStride * i + 3)

def enable : Option Pin := d.pin (memoryPortStride * i + 4)

/-- `rdport`, which is `0` for a write port, `1` for an asynchronous and `2` for a synchronous read
in a mixed memory. -/
def rdport : ℤ :=
  match d.pin (memoryPortStride * i + 10) with
  | some (.const v) => v
  | _ => 0

/-- `0` for an asynchronous, `1` for a synchronous memory, `2` for an array, `3` when the ports
differ. -/
def type : ℤ :=
  match d.pin 7 with
  | some (.const v) => v
  | _ => 2

def update : Option Pin := d.pin 12

def Clocked : Prop := ∃ i, (d.pin (memoryPortStride * i + 2)).isSome

/-- Reads see the writes of the same cycle. -/
def Forwards : Prop := ∃ raw ∈ [5, 15], ∃ p ∈ d.pin raw, p ≠ .const 0

def isReader (i : ℕ) : Bool :=
  ((d.addr i).isSome || (d.din i).isSome || (d.enable i).isSome) && d.rdport i != 0

def isWriter (i : ℕ) : Bool := (d.addr i).isSome && d.rdport i == 0

/-- The output of a read port: the write ports come first. -/
def dout (i : ℕ) : ℕ := (List.range d.blocks).countP d.isWriter + (List.range i).countP d.isReader

/-- The output is that of the read port `i`. -/
def IsDout (i pid : ℕ) : Prop := i < d.blocks ∧ d.isReader i = true ∧ d.dout i = pid

/-- The timing is that of the memory, or of the port in a mixed one. -/
def Synchronous (i : ℕ) : Prop := d.type = 1 ∨ d.type = 3 ∧ d.rdport i = 2

/-- What is written. -/
inductive Written : Pin → Prop
  | update {p : Pin} (h : d.update = some p) : Written p
  | port {i : ℕ} {p : Pin} (hi : d.isWriter i = true)
    (h : d.addr i = some p ∨ d.din i = some p ∨ d.enable i = some p) : Written p

/-- What an output of the memory depends on: all contents without a clock, the address and the
enable of an asynchronous port, with what is written when it shows in the same cycle; `all` are the
drivers, on which an output that no port has depends. -/
inductive Feeds (all : Pin → Prop) (pid : ℕ) : Pin → Prop
  | contents {p : Pin} (hpid : pid = memoryReadallPid) (hclock : ¬d.Clocked)
    (h : d.Written p) : Feeds all pid p
  | read {i : ℕ} {p : Pin} (hpid : pid ≠ memoryReadallPid) (hi : d.IsDout i pid)
      (hsync : ¬d.Synchronous i) (h : d.addr i = some p ∨ d.enable i = some p) :
      Feeds all pid p
  | forwarded {i : ℕ} {p : Pin} (hpid : pid ≠ memoryReadallPid) (hi : d.IsDout i pid)
      (hsync : ¬d.Synchronous i) (hfwd : d.Forwards ∨ ¬d.Clocked)
      (h : d.Written p) : Feeds all pid p
  | unknown {p : Pin} (hpid : pid ≠ memoryReadallPid) (hnone : ∀ i, ¬d.IsDout i pid) (h : all p) :
    Feeds all pid p

/-- The output of a synchronous port of a mixed memory. -/
def MixedSync (pid : ℕ) : Prop := pid ≠ memoryReadallPid ∧ ∃ i, d.IsDout i pid ∧
    d.type = 3 ∧ d.rdport i = 2

end Pins

end Memory

end LiveHD.PortReach
