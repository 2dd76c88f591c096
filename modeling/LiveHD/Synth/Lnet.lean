import LiveHD.Lib.Forward
import LiveHD.Lib.Lists
import LiveHD.Lib.Tables

/-!
# The flat LUT network

`Lnet` of `pass/synth/lnet.hpp`: nodes in topological order, each a constant, a source (a
primary input or a latch output) or a table over its fanins, with the inputs, outputs and
latches as boundary tables.  There are no complemented edges.
-/

namespace LiveHD.Synth

open BitVec hiding append_assoc cast lt_one_iff
open List Nat Option

/-- A word of a table. -/
abbrev Word := BitVec 64

namespace Lnet

inductive Kind where
  | constant | source | lut
deriving DecidableEq

structure Cube where
  care : ℕ := 0
  ones : ℕ := 0
deriving DecidableEq

/-- The disjunction of the cubes, or its complement. -/
structure Sop where
  cubes : List Cube := []
  complemented : Bool := false
deriving DecidableEq

/-- A node.  The index of a source is into the latches when `latch` holds, else into the
inputs; a table has one word up to six fanins, two or four beyond. -/
structure Node where
  kind : Kind := .constant
  fanins : List ℕ := []
  table : List Word := [0]
  latch : Bool := false
  index : ℕ := 0
  sop : Option Sop := none
deriving DecidableEq

/-- `f(x)` for the fanin assignment `x`. -/
def Node.eval (n : Node) (x : ℕ) : Bool := (n.table.getD (x >>> 6) 0).getLsbD (x &&& 63)

/-- The table of a node of at most six fanins. -/
def Node.fn (n : Node) : Word := n.table.getD 0 0

structure Input where
  node : ℕ
  name : String
deriving DecidableEq

structure Latch where
  name : String
  init : Char
  /-- Its output. -/
  q : ℕ
  /-- The next state, once set. -/
  d : Option ℕ
deriving DecidableEq

structure Output where
  node : ℕ
  name : String
  /-- The size of the network when it was recorded. -/
  created : ℕ
deriving DecidableEq

end Lnet

open Lnet

/-- Node `0` is the constant 0. -/
structure Lnet where
  nodes : List Node := [{}]
  inputs : List Input := []
  latches : List Latch := []
  outputs : List Output := []
deriving DecidableEq

namespace Lnet

def kVar0 : Word := 0xAAAAAAAAAAAAAAAA#64

def kNot : Word := ~~~kVar0

def kAnd2 : Word := 0x8888888888888888#64

def kOr2 : Word := 0xEEEEEEEEEEEEEEEE#64

def kXor2 : Word := 0x6666666666666666#64

/-- `kConst0` -/
def const0 : ℕ := 0

/-- `kNone` -/
def none32 : ℕ := 2 ^ 32 - 1

variable (net : Lnet)

def size : ℕ := net.nodes.length

def node (n : ℕ) : Node := net.nodes.getD n {}

def addNode (n : Node) : Lnet := { net with nodes := net.nodes ++ [n] }

/-- `add_constant`; the new node is at the old size, here and below. -/
def addConstant (value : Bool) : Lnet := net.addNode { table := [if value then allOnes 64 else 0] }

/-- The low `2 ^ k` bits, repeated over the word. -/
def replicate (fn : Word) (k : ℕ) : Word :=
  (range' k (6 - k)).foldl (fun fn e => (fn &&& ((1#64 <<< 2 ^ e) - 1#64)) ||| (fn <<< 2 ^ e)) fn

/-- `add_lut` over at most six fanins. -/
def addLut (fanins : List ℕ) (fn : Word) : Lnet :=
  net.addNode { kind := .lut, fanins := fanins, table := [replicate fn fanins.length] }

/-- `add_lut` over the words of a table; more than six fanins keep two or four of them. -/
def addTable (fanins : List ℕ) (table : List Word) : Lnet :=
  if fanins.length ≤ 6 then net.addLut fanins (table.getD 0 0)
  else net.addNode
    { kind := .lut, fanins := fanins, table := table.take (if fanins.length = 7 then 2 else 4) }

def setSop (n : ℕ) (sop : Sop) : Lnet :=
  { net with nodes := net.nodes.modify n fun m => { m with sop := some sop } }

def addInput (name : String) : Lnet :=
  { net.addNode { kind := .source, index := net.inputs.length } with inputs := net.inputs ++
    [⟨net.size, name⟩] }

def addLatch (name : String) (init : Char) : Lnet :=
  { net.addNode { kind := .source, latch := true, index := net.latches.length } with
    latches := net.latches ++ [⟨name, init, net.size, none⟩] }

def setLatchInput (latch d : ℕ) : Lnet :=
  { net with latches := net.latches.modify latch fun l => { l with d := some d } }

def addOutput (bit : ℕ) (name : String) : Lnet :=
  { net with outputs := net.outputs ++ [⟨bit, name, net.size⟩] }

/-- `combinational_outputs`: the outputs, then the latch inputs. -/
def combinationalOutputs : List (Option ℕ) := net.outputs.map (some ·.node) ++ net.latches.map (·.d)

/-! ## Values -/

/-- The position of a source among the inputs and then the latch outputs. -/
def ciIndex (n : Node) : ℕ := if n.latch then net.inputs.length + n.index else n.index

/-- The value of a node over the values of its fanins. -/
def nodeValue (ci : ℕ → Bool) (val : ℕ → Bool) (n : Node) : Bool := match n.kind with
  | .source => ci (net.ciIndex n)
  | _ => n.eval (rowIndex n.fanins val)

/-- The value of a node under an assignment of the combinational inputs. -/
def valueAt (ci : ℕ → Bool) (id : ℕ) : Bool :=
  (forward (net.nodeValue ci) false [] net.nodes).getD id false

/-- The values of the combinational outputs, in order. -/
def coValues (ci : ℕ → Bool) : List (Option Bool) :=
  net.combinationalOutputs.map (·.map (net.valueAt ci))

/-! ## Valid networks -/

/-- A node as the operations append it at `id`. -/
structure NodeOk (id : ℕ) (n : Node) : Prop where
  older : ∀ i ∈ n.fanins, i < id
  constant : n.kind = .constant → n.fanins = [] ∧ (n.table = [0] ∨ n.table = [allOnes 64])
  source : n.kind = .source → n.fanins = [] ∧
    n.index < if n.latch then net.latches.length else net.inputs.length
  narrow : n.kind = .lut → n.fanins.length ≤ 6 → ∃ fn, n.table = [replicate fn n.fanins.length]
  wide : n.kind = .lut → 6 < n.fanins.length → n.fanins.length ≤ 8 ∧
    n.table.length = if n.fanins.length = 7 then 2 else 4

/-- The networks that the operations build. -/
structure Valid : Prop where
  zero : net.nodes[0]? = some ({} : Node)
  nodes : ∀ (id : ℕ) (n : Node), net.nodes[id]? = some n → net.NodeOk id n
  inputs : ∀ (k : ℕ) (i : Input), net.inputs[k]? = some i →
    ∃ n, net.nodes[i.node]? = some n ∧ n.kind = .source ∧ n.latch = false ∧ n.index = k
  latches : ∀ (k : ℕ) (l : Latch), net.latches[k]? = some l →
    ∃ n, net.nodes[l.q]? = some n ∧ n.kind = .source ∧ n.latch = true ∧ n.index = k
  cos : ∀ d, some d ∈ net.combinationalOutputs → d < net.size

/-- Each source is the node that its entry among the inputs or the latches names. -/
def Sourced : Prop := ∀ (id : ℕ) (n : Node), net.nodes[id]? = some n → n.kind = .source →
  if n.latch then ∃ l, net.latches[n.index]? = some l ∧ l.q = id
  else ∃ i, net.inputs[n.index]? = some i ∧ i.node = id

/-- The nodes that the combinational outputs reach. -/
inductive Live : ℕ → Prop
  | output {id : ℕ} : some id ∈ net.combinationalOutputs → Live id
  | fanin {id i : ℕ} {n : Node} : Live id → net.nodes[id]? = some n → i ∈ n.fanins → Live i

/-- The inputs and latches of a network alone, as sources in the order of the tables. -/
def boundary : Lnet :=
  net.latches.foldl (fun net l => net.addLatch l.name l.init)
    (net.inputs.foldl (fun net i => net.addInput i.name) {})

/-! ## Tables -/

lemma getLsbD_mask {b : ℕ} (hb : b < 64) (x : ℕ) :
    ((1#64 <<< b) - 1#64).getLsbD x = decide (x < b) := by
  have hpow := Nat.pow_lt_pow_right Nat.one_lt_two hb
  have hpos := Nat.two_pow_pos b
  have hto : ((1#64 <<< b) - 1#64).toNat = 2 ^ b - 1 := by
    rw [toNat_sub, toNat_shiftLeft, toNat_ofNat, one_mod_two_pow_eq_one.2 (by decide),
      one_shiftLeft, mod_eq_of_lt hpow]
    omega
  rw [← testBit_toNat, hto, testBit_two_pow_sub_one]

/-- One doubling of the part of the table that is filled. -/
lemma getLsbD_double {fn cur : Word} {k e x : ℕ} (hke : k ≤ e) (he : e < 6)
    (h : ∀ x < 2 ^ e, cur.getLsbD x = fn.getLsbD (x % 2 ^ k)) (hx : x < 2 ^ (e + 1)) :
    ((cur &&& ((1#64 <<< 2 ^ e) - 1#64)) ||| (cur <<< 2 ^ e)).getLsbD x =
    fn.getLsbD (x % 2 ^ k) := by
  have hb := Nat.pow_lt_pow_right Nat.one_lt_two he
  have hx64 := hx.trans_le (Nat.pow_le_pow_right Nat.two_pos he)
  rw [getLsbD_or, getLsbD_and, getLsbD_mask hb, getLsbD_shiftLeft]
  rcases Nat.lt_or_ge x (2 ^ e) with hlt | hge
  · simp [hlt, h x hlt]
  · have hsub : x - 2 ^ e < 2 ^ e := by
      omega
    have hmod : (x - 2 ^ e) % 2 ^ k = x % 2 ^ k := by
      obtain ⟨c, hc⟩ := pow_dvd_pow 2 hke
      conv_rhs => rw [← Nat.sub_add_cancel hge, hc, add_mul_mod_self_left]
      rw [hc]
    simp [Nat.not_lt.2 hge, hx64, h _ hsub, hmod]

lemma getLsbD_replicate (fn : Word) {k x : ℕ} (hk : k ≤ 6) (hx : x < 64) :
    (replicate fn k).getLsbD x = fn.getLsbD (x % 2 ^ k) := by
  have hlo : ∀ m, k + m ≤ 6 → ∀ x < 2 ^ (k + m), ((range' k m).foldl
      (fun (fn : Word) e => (fn &&& ((1#64 <<< 2 ^ e) - 1#64)) ||| (fn <<< 2 ^ e)) fn).getLsbD x =
        fn.getLsbD (x % 2 ^ k) := by
    intro m
    induction m with
    | zero =>
      intro _ x hx
      rw [add_zero] at hx
      rw [mod_eq_of_lt hx]
      rfl
    | succ m ih =>
      intro hm x hx
      rw [range'_concat, foldl_append, one_mul]
      exact getLsbD_double (le_add_right k m) (by omega) (ih (by omega)) hx
  exact hlo (6 - k) (by omega) x (by rw [Nat.add_sub_cancel' hk]; exact hx)

/-- A table of few fanins, read at the row of their values. -/
lemma eval_replicate {n : Node} {fn : Word} (hn : n.table = [replicate fn n.fanins.length])
    (hk : n.fanins.length ≤ 6)
    (val : ℕ → Bool) : n.eval (rowIndex n.fanins val) = fn.getLsbD (rowIndex n.fanins val) := by
  have hlt := rowIndex_lt n.fanins val
  have h64 := hlt.trans_le (Nat.pow_le_pow_right Nat.two_pos hk)
  have hwo : rowIndex n.fanins val >>> 6 = 0 := by
    rw [shiftRight_eq_div_pow]
    exact div_eq_of_lt h64
  have hbit : rowIndex n.fanins val &&& 63 = rowIndex n.fanins val := by
    rw [show 63 = 2 ^ 6 - 1 by decide, and_two_pow_sub_one_eq_mod]
    exact mod_eq_of_lt h64
  rw [Node.eval, hwo, hbit, hn, getD_cons_zero, getLsbD_replicate fn hk h64, mod_eq_of_lt hlt]

/-! ## Values in a valid network -/

section

variable {net net' : Lnet} {ci : ℕ → Bool} {id : ℕ} {n : Node}

lemma nodeValue_congr {val val' : ℕ → Bool} (h : ∀ i ∈ n.fanins, val i = val' i) :
    net.nodeValue ci val n = net.nodeValue ci val' n := by
  unfold nodeValue
  rw [rowIndex_congr h]

lemma valueAt_eq (hn : net.nodes[id]? = some n) (ho : ∀ i ∈ n.fanins, i < id) :
    net.valueAt ci id = net.nodeValue ci (net.valueAt ci) n := by
  have hlo : ∀ val val' : ℕ → Bool, (∀ i < ([] : List Bool).length + id, val i = val' i) →
      net.nodeValue ci val n = net.nodeValue ci val' n := by
    intro val val' hval
    exact nodeValue_congr fun i hi => hval i (by rw [length_nil, zero_add]; exact ho i hi)
  have h := getD_forward (d := false) hn hlo
  rwa [length_nil, zero_add] at h

lemma nodeValue_of_inputs (h : net'.inputs.length = net.inputs.length) :
    net'.nodeValue ci = net.nodeValue ci := by
  unfold nodeValue ciIndex
  rw [h]

/-- Further nodes leave the values as they are. -/
lemma valueAt_of_extends (hpre : net.nodes <+: net'.nodes)
    (hin : net'.inputs.length = net.inputs.length)
    (hid : id < net.size) : net'.valueAt ci id = net.valueAt ci id := by
  obtain ⟨more, hmo⟩ := hpre
  rw [valueAt, nodeValue_of_inputs hin, ← hmo]
  exact getD_forward_append (by rwa [length_nil, zero_add])

section

variable (hn : net.nodes[id]? = some n)
include hn

lemma node_eq : net.node id = n := by
  rw [node, getD_eq_getElem?_getD, hn]
  rfl

lemma valueAt_lut (ho : ∀ i ∈ n.fanins, i < id) {fn : Word} (hki : n.kind = .lut)
    (hta : n.table = [replicate fn n.fanins.length]) (hk : n.fanins.length ≤ 6) :
    net.valueAt ci id = fn.getLsbD (rowIndex n.fanins (net.valueAt ci)) := by
  rw [valueAt_eq hn ho, nodeValue, hki]
  exact eval_replicate hta hk _

lemma valueAt_source (ho : ∀ i ∈ n.fanins, i < id) (hk : n.kind = .source) :
    net.valueAt ci id = ci (net.ciIndex n) := by
  rw [valueAt_eq hn ho, nodeValue, hk]

end

end

/-! ## The boundary -/

section

variable {net : Lnet}

/-- The source node of the `k`-th input. -/
def inputNode (k : ℕ) : Node := { kind := .source, index := k }

/-- The source node of the `k`-th latch. -/
def latchNode (k : ℕ) : Node := { kind := .source, latch := true, index := k }

lemma addInputs_eq (inputs : List Input) :
    inputs.foldl (fun net i => net.addInput i.name) ({} : Lnet) =
    { nodes := {} :: (range inputs.length).map inputNode,
      inputs := inputs.mapIdx (fun k i => ⟨1 + k, i.name⟩) } := by
  induction inputs using reverseRecOn with
  | nil => rfl
  | append_singleton inputs i ih =>
    rw [foldl_append, ih, length_append, length_singleton, range_succ]
    simp [addInput, addNode, inputNode, size, add_comm]

lemma boundary_eq : net.boundary =
    { nodes := {} :: ((range net.inputs.length).map inputNode ++
      (range net.latches.length).map latchNode)
      inputs := net.inputs.mapIdx (fun k i => ⟨1 + k, i.name⟩)
      latches := net.latches.mapIdx (fun k l => ⟨l.name, l.init,
        1 + net.inputs.length + k, none⟩) } := by
  rw [boundary, addInputs_eq]
  induction net.latches using reverseRecOn with
  | nil => simp
  | append_singleton latches l ih =>
    rw [foldl_append, ih, length_append, length_singleton, range_succ]
    simp [addLatch, addNode, latchNode, size]
    omega

lemma size_boundary (net : Lnet) :
    net.boundary.size = 1 + net.inputs.length + net.latches.length := by
  rw [boundary_eq, size]
  simp
  omega

lemma boundary_nodes_succ (k : ℕ) : net.boundary.nodes[1 + k]? =
    ((range net.inputs.length).map inputNode ++ (range net.latches.length).map latchNode)[k]? := by
  rw [boundary_eq, add_comm 1 k]
  exact getElem?_cons_succ

lemma boundary_input {k : ℕ} (hk : k < net.inputs.length) :
    net.boundary.nodes[1 + k]? = some (inputNode k) := by
  rw [boundary_nodes_succ, getElem?_append_left (by simpa using hk)]
  simp [hk]

lemma boundary_latch {k : ℕ} (hk : k < net.latches.length) :
    net.boundary.nodes[1 + net.inputs.length + k]? = some (latchNode k) := by
  rw [add_assoc, boundary_nodes_succ]
  simp [hk]

/-- The sources stand in the order of the combinational inputs. -/
lemma boundary_source (net : Lnet) {k : ℕ} (hk : k < net.inputs.length + net.latches.length) :
    ∃ n, net.boundary.nodes[1 + k]? = some n ∧ n.kind = .source ∧ n.fanins = [] ∧
    net.boundary.ciIndex n = k ∧
      net.boundary.NodeOk (1 + k) n := by
  rcases lt_or_ge k net.inputs.length with hlt | hge
  · refine ⟨inputNode k, boundary_input hlt, rfl, rfl, rfl,
      ⟨nofun, nofun, fun _ => ⟨rfl, ?_⟩, nofun, nofun⟩⟩
    rw [boundary_eq]
    simpa [inputNode] using hlt
  · obtain ⟨k, rfl⟩ := Nat.exists_eq_add_of_le hge
    have hlt : k < net.latches.length := by omega
    refine ⟨latchNode k, ?_, rfl, rfl, ?_, ⟨nofun, nofun, fun _ => ⟨rfl, ?_⟩, nofun, nofun⟩⟩
    · rw [← add_assoc]
      exact boundary_latch hlt
    · rw [boundary_eq]
      simp [ciIndex, latchNode]
    · rw [boundary_eq]
      simpa [latchNode] using hlt

end

/-! ## The operations keep validity -/

section

variable {net net' : Lnet} {n : Node}

lemma NodeOk.mono {id : ℕ} (h : net.NodeOk id n) (hin : net.inputs.length ≤ net'.inputs.length)
    (hlat : net.latches.length ≤ net'.latches.length) : net'.NodeOk id n := by
  refine ⟨h.older, h.constant, fun hk => ?_, h.narrow, h.wide⟩
  obtain ⟨hf, hi⟩ := h.source hk
  refine ⟨hf, hi.trans_le ?_⟩
  split
  · exact hlat
  · exact hin

lemma Valid.push (h : net.Valid) (hns : net'.nodes = net.nodes ++ [n]) (hn : net'.NodeOk net.size n)
    (hin : net.inputs.length ≤ net'.inputs.length) (hlat : net.latches.length ≤ net'.latches.length)
    (hinp : ∀ (k : ℕ) (i : Input), net'.inputs[k]? = some i → net.inputs[k]? = some i ∨
      (i.node = net.size ∧ n.kind = .source ∧ n.latch = false ∧ n.index = k))
    (hla : ∀ (k : ℕ) (l : Latch), net'.latches[k]? = some l → net.latches[k]? = some l ∨
      (l.q = net.size ∧ n.kind = .source ∧ n.latch = true ∧ n.index = k))
    (hcos : ∀ d, some d ∈ net'.combinationalOutputs → some d ∈ net.combinationalOutputs) :
    net'.Valid := by
  have hold : ∀ {id : ℕ} {m : Node}, net.nodes[id]? = some m → net'.nodes[id]? = some m := by
    intro id m hm
    rwa [hns, getElem?_append_left (List.getElem?_eq_some_iff.1 hm).1]
  have hls : net'.nodes[net.size]? = some n := by
    rw [hns]
    exact getElem?_concat_length
  refine ⟨hold h.zero, fun id m hm => ?_, fun k i hi => ?_, fun k l hl => ?_, fun d hd => ?_⟩
  · have hlt := (List.getElem?_eq_some_iff.1 hm).1
    rw [hns, length_append] at hlt
    rcases Nat.lt_succ_iff_lt_or_eq.1 hlt with hlt | rfl
    · rw [hns, getElem?_append_left hlt] at hm
      exact (h.nodes id m hm).mono hin hlat
    · rw [← size, hls] at hm
      cases hm
      exact hn
  · rcases hinp k i hi with hi | ⟨hno, hf⟩
    · obtain ⟨m, hm, hf⟩ := h.inputs k i hi
      exact ⟨m, hold hm, hf⟩
    · rw [hno]
      exact ⟨n, hls, hf⟩
  · rcases hla k l hl with hl | ⟨hq, hf⟩
    · obtain ⟨m, hm, hf⟩ := h.latches k l hl
      exact ⟨m, hold hm, hf⟩
    · rw [hq]
      exact ⟨n, hls, hf⟩
  · rw [size, hns, length_append]
    exact Nat.lt_add_right _ (h.cos d (hcos d hd))

lemma valueAt_addNode_of_lt {ci : ℕ → Bool} {id : ℕ} (hid : id < net.size) :
    (net.addNode n).valueAt ci id = net.valueAt ci id :=
  valueAt_of_extends (prefix_append _ _) rfl hid

lemma size_addNode : (net.addNode n).size = net.size + 1 := length_append

lemma valueAt_addNode {ci : ℕ → Bool} (hki : n.kind ≠ .source) (ho : ∀ i ∈ n.fanins, i < net.size) :
    (net.addNode n).valueAt ci net.size = n.eval (rowIndex n.fanins (net.valueAt ci)) := by
  have hn : (net.addNode n).nodes[net.size]? = some n := getElem?_concat_length
  have hrow : rowIndex n.fanins ((net.addNode n).valueAt ci) = rowIndex n.fanins (net.valueAt ci) :=
    rowIndex_congr fun i hi => valueAt_addNode_of_lt (ho i hi)
  rw [valueAt_eq hn ho, nodeValue, hrow]
  cases hk : n.kind with
  | source => exact absurd hk hki
  | constant => rfl
  | lut => rfl

lemma Valid.addNode (h : net.Valid) (hn : net.NodeOk net.size n) : (net.addNode n).Valid :=
  h.push rfl (hn.mono le_rfl le_rfl) le_rfl le_rfl (fun _ _ hi => .inl hi)
    (fun _ _ hl => .inl hl) fun _ hd => hd

lemma valid_empty : ({} : Lnet).Valid := by
  refine ⟨rfl, fun id n hn => ?_, nofun, nofun, nofun⟩
  have hlt := (List.getElem?_eq_some_iff.1 hn).1
  obtain rfl := lt_one_iff.1 hlt
  cases hn
  exact ⟨nofun, fun _ => ⟨rfl, .inl rfl⟩, nofun, nofun, nofun⟩

lemma Valid.addConstant (h : net.Valid) (value : Bool) : (net.addConstant value).Valid := by
  refine h.push rfl ⟨nofun, fun _ => ⟨rfl, ?_⟩, nofun, nofun, nofun⟩ le_rfl le_rfl
    (fun _ _ hi => .inl hi) (fun _ _ hl => .inl hl)
    fun _ hd => hd
  cases value
  · exact .inl rfl
  · exact .inr rfl

lemma Valid.addLut (h : net.Valid) {fanins : List ℕ} (fn : Word) (hlen : fanins.length ≤ 6)
    (ho : ∀ i ∈ fanins, i < net.size) :
    (net.addLut fanins fn).Valid :=
  h.push rfl ⟨ho, nofun, nofun, fun _ _ => ⟨fn, rfl⟩,
    fun _ hlt => absurd hlt (Nat.not_lt.2 hlen)⟩ le_rfl le_rfl
    (fun _ _ hi => .inl hi) (fun _ _ hl => .inl hl) fun _ hd => hd

lemma getElem?_concat {α : Type} {l : List α} {x y : α} {k : ℕ} (h : (l ++ [x])[k]? = some y) :
    l[k]? = some y ∨ (k = l.length ∧ x = y) := by
  have hlt := (List.getElem?_eq_some_iff.1 h).1
  rw [length_append, length_singleton] at hlt
  rcases Nat.lt_succ_iff_lt_or_eq.1 hlt with hlt | rfl
  · rw [getElem?_append_left hlt] at h
    exact .inl h
  · rw [getElem?_concat_length] at h
    exact .inr ⟨rfl, some.inj h⟩

lemma Valid.addInput (h : net.Valid) (name : String) : (net.addInput name).Valid := by
  have hlen : (net.addInput name).inputs.length = net.inputs.length + 1 := length_append
  refine h.push rfl ⟨nofun, nofun, fun _ => ⟨rfl, ?_⟩, nofun, nofun⟩ (by omega) le_rfl
    (fun k i hi => ?_) (fun _ _ hl => .inl hl)
    fun _ hd => hd
  · rw [hlen]
    exact lt_succ_self _
  · rcases getElem?_concat hi with hi | ⟨rfl, rfl⟩
    · exact .inl hi
    · exact .inr ⟨rfl, rfl, rfl, rfl⟩

lemma Valid.addLatch (h : net.Valid) (name : String) (init : Char) :
    (net.addLatch name init).Valid := by
  have hlen : (net.addLatch name init).latches.length = net.latches.length + 1 := length_append
  refine h.push rfl ⟨nofun, nofun, fun _ => ⟨rfl, ?_⟩, nofun, nofun⟩ le_rfl (by omega)
    (fun _ _ hi => .inl hi) (fun k l hl => ?_)
    fun d hd => ?_
  · rw [hlen]
    exact lt_succ_self _
  · rcases getElem?_concat hl with hl | ⟨rfl, rfl⟩
    · exact .inl hl
    · exact .inr ⟨rfl, rfl, rfl, rfl⟩
  · simpa [combinationalOutputs, Lnet.addLatch, Lnet.addNode] using hd

lemma Valid.addOutput (h : net.Valid) {bit : ℕ} (hbit : bit < net.size) (name : String) :
    (net.addOutput bit name).Valid := by
  refine ⟨h.zero, fun id n hn => (h.nodes id n hn).mono le_rfl le_rfl, h.inputs,
    h.latches, fun d hd => ?_⟩
  have hd' : d = bit ∨ some d ∈ net.combinationalOutputs := by
    simp only [combinationalOutputs, Lnet.addOutput, map_append, map_cons, map_nil, mem_append,
      mem_singleton, Option.some.injEq] at hd ⊢
    tauto
  rcases hd' with rfl | hd'
  · exact hbit
  · exact h.cos d hd'

lemma Valid.setLatchInput (h : net.Valid) (latch : ℕ) {d : ℕ} (hd : d < net.size) :
    (net.setLatchInput latch d).Valid := by
  have hget : ∀ (k : ℕ) (l : Latch), (net.setLatchInput latch d).latches[k]? = some l →
      ∃ l', net.latches[k]? = some l' ∧
      l'.q = l.q ∧ (l.d = some d ∨ l.d = l'.d) := by
    intro k l hl
    rw [Lnet.setLatchInput, getElem?_modify] at hl
    obtain ⟨l', hl', rfl⟩ := map_eq_some_iff.1 hl
    refine ⟨l', hl', ?_⟩
    split
    · exact ⟨rfl, .inl rfl⟩
    · exact ⟨rfl, .inr rfl⟩
  have hlen : (net.setLatchInput latch d).latches.length = net.latches.length := length_modify ..
  refine ⟨h.zero, fun id n hn => (h.nodes id n hn).mono le_rfl hlen.ge, h.inputs,
    fun k l hl => ?_, fun c hc => ?_⟩
  · obtain ⟨l', hl', hq, -⟩ := hget k l hl
    rw [← hq]
    exact h.latches k l' hl'
  · rcases mem_append.1 hc with hc | hc
    · exact h.cos c (mem_append_left _ hc)
    · obtain ⟨l, hmem, hld⟩ := mem_map.1 hc
      obtain ⟨k, hk⟩ := mem_iff_getElem?.1 hmem
      obtain ⟨l', hl', -, hd' | hd'⟩ := hget k l hk
      · rw [hd'] at hld
        rwa [← some.inj hld]
      · refine h.cos c (mem_append_right _ (mem_map.2 ⟨l', mem_of_getElem? hl', ?_⟩))
        rw [← hd', hld]

lemma sourced_empty : ({} : Lnet).Sourced := by
  intro id n hn hk
  obtain rfl := lt_one_iff.1 (List.getElem?_eq_some_iff.1 hn).1
  cases hn
  nomatch hk

section

variable (h : net.Sourced)
include h

lemma Sourced.push (hns : net'.nodes = net.nodes ++ [n])
    (hin : ∀ (k : ℕ) (i : Input), net.inputs[k]? = some i → net'.inputs[k]? = some i)
    (hlt : ∀ (k : ℕ) (l : Latch), net.latches[k]? = some l →
      ∃ l', net'.latches[k]? = some l' ∧ l'.q = l.q)
    (hn : n.kind = .source → if n.latch then ∃ l, net'.latches[n.index]? = some l ∧ l.q = net.size
      else ∃ i, net'.inputs[n.index]? = some i ∧ i.node = net.size) : net'.Sourced := by
  intro id m hm hk
  rw [hns] at hm
  rcases getElem?_concat hm with hm | ⟨rfl, rfl⟩
  · have hold := h id m hm hk
    split at hold
    next hla =>
      rw [if_pos hla]
      obtain ⟨l, hl, hq⟩ := hold
      obtain ⟨l', hl', hq'⟩ := hlt _ l hl
      exact ⟨l', hl', hq'.trans hq⟩
    next hla =>
      rw [if_neg hla]
      obtain ⟨i, hi, hno⟩ := hold
      exact ⟨i, hin _ i hi, hno⟩
  · exact hn hk

lemma Sourced.addNode (hn : n.kind ≠ .source) : (net.addNode n).Sourced :=
  h.push rfl (fun _ _ hi => hi) (fun _ l hl => ⟨l, hl, rfl⟩) fun hk => absurd hk hn

lemma Sourced.addInput (name : String) : (net.addInput name).Sourced := by
  refine h.push rfl (fun k i hi => ?_) (fun _ l hl => ⟨l, hl, rfl⟩) fun _ => ?_
  · exact (getElem?_append_left (List.getElem?_eq_some_iff.1 hi).1).trans hi
  · exact ⟨⟨net.size, name⟩, getElem?_concat_length, rfl⟩

lemma Sourced.addLatch (name : String) (init : Char) : (net.addLatch name init).Sourced := by
  refine h.push rfl (fun _ _ hi => hi) (fun k l hl => ⟨l, ?_, rfl⟩) fun _ => ?_
  · exact (getElem?_append_left (List.getElem?_eq_some_iff.1 hl).1).trans hl
  · exact ⟨⟨name, init, net.size, none⟩, getElem?_concat_length, rfl⟩

lemma Sourced.addOutput (bit : ℕ) (name : String) : (net.addOutput bit name).Sourced := h

lemma Sourced.setLatchInput (latch d : ℕ) : (net.setLatchInput latch d).Sourced := by
  intro id m hm hk
  have hold := h id m hm hk
  split at hold
  next hla =>
    rw [if_pos hla]
    obtain ⟨l, hl, hq⟩ := hold
    rw [Lnet.setLatchInput, getElem?_modify, hl]
    refine ⟨_, rfl, ?_⟩
    split
    · exact hq
    · exact hq
  next hla => rwa [if_neg hla]

end

lemma valid_boundary (net : Lnet) : net.boundary.Valid ∧ net.boundary.Sourced := by
  have hin : ∀ (l : List Input) (net : Lnet), net.Valid → net.Sourced →
      (l.foldl (fun net i => net.addInput i.name) net).Valid ∧
      (l.foldl (fun net i => net.addInput i.name) net).Sourced := by
    intro l
    induction l with
    | nil => exact fun net hv hs => ⟨hv, hs⟩
    | cons i l ih => exact fun net hv hs => ih _ (hv.addInput i.name) (hs.addInput i.name)
  have hla : ∀ (l : List Latch) (net : Lnet), net.Valid → net.Sourced →
      (l.foldl (fun net l => net.addLatch l.name l.init) net).Valid ∧
      (l.foldl (fun net l => net.addLatch l.name l.init) net).Sourced := by
    intro l
    induction l with
    | nil => exact fun net hv hs => ⟨hv, hs⟩
    | cons x l ih =>
      exact fun net hv hs => ih _ (hv.addLatch x.name x.init) (hs.addLatch x.name x.init)
  obtain ⟨hv, hs⟩ := hin net.inputs {} valid_empty sourced_empty
  exact hla net.latches _ hv hs

lemma boundary_names (net : Lnet) : net.boundary.inputs.map (·.name) = net.inputs.map (·.name) ∧
    net.boundary.latches.map (fun l => (l.name, l.init)) = net.latches.map fun l =>
    (l.name, l.init) := by
  rw [boundary_eq]
  constructor
  · refine ext_getElem? fun k => ?_
    rw [getElem?_map, getElem?_mapIdx, getElem?_map]
    cases net.inputs[k]? <;> rfl
  · refine ext_getElem? fun k => ?_
    rw [getElem?_map, getElem?_mapIdx, getElem?_map]
    cases net.latches[k]? <;> rfl

end

/-! ## Closing a network -/

section

variable {net : Lnet}

lemma foldl_addOutput (outs : List (Output × ℕ)) :
    outs.foldl (fun net o => net.addOutput o.2 o.1.name) net =
    { net with outputs := net.outputs ++ outs.map fun o => ⟨o.2, o.1.name, net.size⟩ } := by
  induction outs generalizing net with
  | nil => simp
  | cons o outs ih =>
    rw [foldl_cons, ih, addOutput, map_cons]
    simp only [append_assoc, singleton_append, size]

/-- The latch inputs, set in order. -/
lemma foldl_setLatchInput (net : Lnet) (ds : List ℕ) (pre post : List Latch)
    (hlen : ds.length = post.length)
    (hl : net.latches = pre ++ post) :
    (ds.zipIdx pre.length).foldl (fun net d => net.setLatchInput d.2 d.1) net =
      { net with latches := pre ++ zipWith (fun l d => { l with d := some d }) post ds } := by
  induction ds generalizing net pre post with
  | nil =>
    obtain rfl := length_eq_zero_iff.1 hlen.symm
    simp [← hl]
  | cons d ds ih =>
    obtain ⟨l, post, rfl⟩ := exists_cons_of_length_eq_add_one hlen.symm
    have hl' : (net.setLatchInput pre.length d).latches =
        (pre ++ [{ l with d := some d }]) ++ post := by
      rw [setLatchInput, hl, modify_append_length, append_assoc]
      rfl
    have hrec := ih (net.setLatchInput pre.length d) (pre ++ [{ l with d := some d }])
      post (Nat.succ.inj hlen) hl'
    rw [length_append, length_singleton] at hrec
    rw [zipIdx_cons, foldl_cons, hrec, append_assoc]
    rfl

end

end Lnet

end LiveHD.Synth
