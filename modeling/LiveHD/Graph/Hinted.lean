import LiveHD.Graph.Netlist
import LiveHD.Lib.Lists

/-!
# Netlists with hints

A driver pin carries a width, `0` when it is unspecified, and a sign (`bits_of` and `is_unsign` of
`graph/node_util.hpp`).
-/

namespace LiveHD

open List Option Function Cell

structure Hinted extends Netlist where
  bits : Pin → ℕ
  signed : Pin → Bool

def Pin.isConst : Pin → Bool
  | .const _ => true
  | _ => false

namespace Netlist

variable (g : Netlist)

/-- `graph_util::inp_sink_drivers`: the ports in ascending order. -/
def sinkDrivers (id : ℕ) : List (ℕ × Pin) := (g.into id).insertionSort (·.1 ≤ ·.1)

/-- `graph_util::bit_range` -/
def bitRange (id : ℕ) : Option (ℕ × ℕ) :=
  match g.driver ⟨id, 2⟩, g.driver ⟨id, 3⟩ with
  | some (.const lo), some (.const hi) =>
    if justI64 lo ∧ justI64 hi ∧ 0 ≤ lo ∧ lo < hi ∧ hi ≤ intMax then
      some (lo.toNat, hi.toNat) else none
  | _, _ => none

/-- What a well-formed body keeps: a cell drives port 0 and has one driver for each sink, and the
ports of a `Mux` are contiguous. -/
structure Legal : Prop where
  bounded : g.Bounded
  driver_lt : ∀ e ∈ g.edges, ∀ id port, e.1 = .out id port → id < g.nodes.length
  driver_port : ∀ e ∈ g.edges, ∀ id port op, e.1 = .out id port →
    g.kind id = some (.cell op) → port = 0
  single : ∀ id op, g.kind id = some (.cell op) → ((g.into id).map (·.1)).Nodup
  mux_ports : ∀ id, g.kind id = some (.cell .mux) →
    (g.sinkDrivers id).map (·.1) = List.range (g.into id).length

variable {g}

lemma operands_eq (op : NtypeOp) (ν : Pin → ℤ) (id : ℕ) :
    g.operands op ν id = (g.sinkDrivers id).map fun e => (op.sinkBank e.1, some (ν e.2)) := rfl

lemma sinkDrivers_perm (id : ℕ) : (g.sinkDrivers id).Perm (g.into id) := List.perm_insertionSort _ _

/-! ## Operands -/

lemma known_operands (op : NtypeOp) (ν : Pin → ℤ) (id : ℕ) :
    known (g.operands op ν id) = some
    ((g.sinkDrivers id).map fun e => (op.sinkBank e.1, ν e.2)) := by
  rw [known_eq_some, operands_eq, forall₂_map_left_iff, forall₂_map_right_iff]
  exact forall₂_same.2 fun _ _ => rfl

variable {op : NtypeOp} {ν : Pin → ℤ}

lemma evalOp_operands (h : isStrict op = true) (id : ℕ) :
    evalOp op (g.operands op ν id) = evalKnown op
    ((g.sinkDrivers id).map fun e => (op.sinkBank e.1, ν e.2)) := by
  rw [evalOp_of_strict h, known_operands, bind_some]

/-- The operand on a port of a positional cell. -/
lemma byBank_operands (hg : g.Legal) {id : ℕ} (hk : g.kind id = some (.cell op))
    (hc : op.sinkBankCount = 0) (port : ℕ) :
    byBank ((g.sinkDrivers id).map fun e => (op.sinkBank e.1, ν e.2)) port =
    (g.driver ⟨id, port⟩).map ν := by
  have hba : ∀ port, op.sinkBank port = port := fun port => by
    rw [NtypeOp.sinkBank, hc]
    rfl
  have hpe := sinkDrivers_perm (g := g) id
  have hnd := (hpe.map (·.1)).nodup_iff.2 (hg.single id op hk)
  rw [byBank, find?_map, Option.map_map, driver, Option.map_map, ← hpe.find?_key hnd]
  simp only [comp_def, hba]

/-! ## Well-formed bodies -/

lemma kind_lt {id : ℕ} {k : Kind} (hk : g.kind id = some k) : id < g.nodes.length := by
  rw [Netlist.kind] at hk
  by_contra hge
  rw [getElem?_eq_none (not_lt.1 hge)] at hk
  cases hk

/-- A driver on port 0 of a node below `n`. -/
def drivesBelow (n : ℕ) : Pin → Bool
  | .out id port => decide (id < n) && port == 0
  | _ => true

lemma legal_of_forall (hed : ∀ e ∈ g.edges, e.2.node < g.nodes.length ∧
    drivesBelow g.nodes.length e.1 = true)
    (hns : ∀ id < g.nodes.length, ((g.into id).map (·.1)).Nodup ∧
      (g.kind id = some (.cell .mux) →
        (g.sinkDrivers id).map (·.1) = List.range (g.into id).length)) : g.Legal := by
  have hdr : ∀ e ∈ g.edges, ∀ id port, e.1 = .out id port → id < g.nodes.length ∧ port = 0 := by
    intro e he id port heq
    have h := (hed e he).2
    rw [heq, drivesBelow, Bool.and_eq_true_iff] at h
    exact ⟨of_decide_eq_true h.1, beq_iff_eq.1 h.2⟩
  refine ⟨fun e he => (hed e he).1, fun e he id port heq => (hdr e he id port heq).1,
    fun e he id port op heq _ => (hdr e he id port heq).2, fun id op hk => (hns id (kind_lt hk)).1,
    fun id hk => (hns id (kind_lt hk)).2 hk⟩

end Netlist

end LiveHD
