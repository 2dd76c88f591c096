import LiveHD.Graph.LoopSplit
import LiveHD.Lib.Reduction

/-!
# What the classes of carries promise

A reduction is the seed combined with the summands of the ordinals, and a slice write is the seed
with the slices written one after another, when every ordinal is active, the masks that were skipped
keep their values, and no memory passes an input on.
-/

namespace LiveHD.LoopSplit

open Bool hiding not_or
open IntBits Cell Relation List Option Int Body
open Netlist (evalOp_operands byBank_operands)

/-! ## The operators of reductions -/

/-- The binary operation of a reduction. -/
def fold2 : NtypeOp → ℤ → ℤ → ℤ
  | .mult => (· * ·)
  | .and => Int.land
  | .or => Int.lor
  | .xor => Int.xor
  | _ => (· + ·)

def unit : NtypeOp → ℤ
  | .mult => 1
  | .and => -1
  | _ => 0

/-- The combination of the operands. -/
def combine (op : NtypeOp) (l : List ℤ) : ℤ := l.foldr (fold2 op) (unit op)

lemma modEq_iff_testBit {x y : ℤ} {w : ℕ} : x ≡ y [ZMOD 2 ^ w] ↔
    ∀ i < w, x.testBit i = y.testBit i := by
  constructor
  · intro h i hi
    have hx := testBit_mod x w i
    rw [show x % 2 ^ w = y % 2 ^ w from h, testBit_mod, decide_eq_true hi] at hx
    exact hx.symm
  · intro h
    refine ext fun i => ?_
    rw [testBit_mod, testBit_mod]
    by_cases hi : i < w
    · rw [h i hi]
    · rw [decide_eq_false hi, Bool.false_and, Bool.false_and]

instance (op : NtypeOp) : Std.Commutative (fold2 op) := by
  constructor
  intro x y
  cases op
  case mult => exact mul_comm x y
  case and => exact ext fun i => by rw [fold2, Int.testBit_land, Int.testBit_land, Bool.and_comm]
  case or => exact ext fun i => by rw [fold2, Int.testBit_lor, Int.testBit_lor, Bool.or_comm]
  case xor => exact ext fun i => by rw [fold2, testBit_lxor, testBit_lxor, Bool.xor_comm]
  all_goals exact add_comm x y

instance (op : NtypeOp) : Std.Associative (fold2 op) := by
  constructor
  intro x y z
  cases op
  case mult => exact mul_assoc x y z
  case and => exact ext fun i => by simp only [fold2, Int.testBit_land, Bool.and_assoc]
  case or => exact ext fun i => by simp only [fold2, Int.testBit_lor, Bool.or_assoc]
  case xor => exact ext fun i => by simp [fold2]
  all_goals exact add_assoc x y z

lemma idempotentOp {op : NtypeOp} (h : isIdempotentOp op = true) : Std.IdempotentOp (fold2 op) := by
  constructor
  intro x
  cases op
  case and => exact ext fun i => by simp [fold2]
  case or => exact ext fun i => by simp [fold2]
  all_goals cases h

lemma fold2_modEq (op : NtypeOp) {x x' y y' : ℤ} {w : ℕ} (hx : x ≡ x' [ZMOD 2 ^ w])
    (hy : y ≡ y' [ZMOD 2 ^ w]) :
    fold2 op x y ≡ fold2 op x' y' [ZMOD 2 ^ w] := by
  have hb : ∀ f : ℤ → ℤ → ℤ, (∀ i, (f x y).testBit i = (f x' y').testBit i ∨ w ≤ i) →
      f x y ≡ f x' y' [ZMOD 2 ^ w] :=
    fun f hf => modEq_iff_testBit.2 fun i hi => (hf i).resolve_right (not_le.2 hi)
  have hi : ∀ i, (x.testBit i = x'.testBit i ∧ y.testBit i = y'.testBit i) ∨ w ≤ i := fun i =>
    (lt_or_ge i w).imp_left fun h => ⟨modEq_iff_testBit.1 hx i h, modEq_iff_testBit.1 hy i h⟩
  cases op
  case mult => exact hx.mul hy
  case and => exact hb land fun i => (hi i).imp_left fun h => by simp [h.1, h.2]
  case or => exact hb lor fun i => (hi i).imp_left fun h => by simp [h.1, h.2]
  case xor => exact hb Int.xor fun i => (hi i).imp_left fun h => by simp [h.1, h.2]
  all_goals exact hx.add hy

lemma splice_modEq {x y : ℤ} {w : ℕ} (h : x ≡ y [ZMOD 2 ^ w]) (lo n : ℕ) (v : ℤ) :
    splice x lo n v ≡ splice y lo n v [ZMOD 2 ^ w] := by
  refine modEq_iff_testBit.2 fun i hi => ?_
  rw [testBit_splice, testBit_splice, modEq_iff_testBit.1 h i hi]

lemma combine_perm (op : NtypeOp) {l m : List ℤ} (h : l.Perm m) : combine op l = combine op m := by
  exact h.foldr_eq _

/-- The cell of a reduction combines its operands. -/
lemma evalOp_combine {op : NtypeOp} (h : isAssociativeOp op = true) {vals : List (ℕ × ℤ)}
    (hba : ∀ v ∈ vals, op.sinkBank v.1 = 0) :
    evalOp op (vals.map fun v => (op.sinkBank v.1, some v.2)) = some
    (combine op (vals.map (·.2))) := by
  have hva : (vals.map fun v => (op.sinkBank v.1, some v.2)) = (vals.map (·.2)).map fun x =>
      (0, some x) := by
    rw [List.map_map]
    exact map_congr_left fun v hv => by rw [hba v hv]; rfl
  rw [hva]
  have hsnd : ∀ l : List ℤ, (l.map fun x => ((0 : ℕ), x)).map (·.2) = l := fun l => by
    rw [List.map_map]; exact List.map_id l
  cases op
  case sum =>
    rw [evalOp_sum, known_map, map_some, bank_map, bank_map]
    refine congrArg some ?_
    change (vals.map (·.2)).sum - sum [] = _
    rw [sum_nil, sub_zero]
    rfl
  case mult =>
    rw [evalOp_mult, known_map, map_some, hsnd]
    rfl
  case and =>
    rw [evalOp_and, known_map, map_some, hsnd]
    rfl
  case or =>
    rw [evalOp_or, known_map, map_some, hsnd]
    rfl
  case xor =>
    rw [evalOp_xor, known_map, map_some, hsnd]
    rfl
  all_goals cases h

/-! ## Dependences -/

namespace Body

variable {b : Body} {targets : List Pin} {d x y : Pin} {n : ℕ}

/-- A pin reads another one within the iteration. -/
def Step (b : Body) (x y : Pin) : Prop := ∃ n q, x = .out n q ∧
    b.boundary n = false ∧ y ∈ b.drivers n

/-- `y` is in the cone behind `d`. -/
def Behind (b : Body) (d y : Pin) : Prop := ReflTransGen b.Step d y

/-- The pin is dealt with, or in the work left. -/
def Listed (targets : List Pin) (visited : List ℕ) (work : List Pin) (y : Pin) : Prop :=
  y ∈ work ∨ (y ∉ targets ∧ ∀ m q, y = .out m q → m ∈ visited)

/-- What the visited nodes read is listed. -/
def Closed (b : Body) (targets : List Pin) (visited : List ℕ) (work : List Pin) : Prop :=
  ∀ n ∈ visited, b.boundary n = false → ∀ y ∈ b.drivers n, Listed targets visited work y

lemma Listed.mono {visited visited' : List ℕ} {work work' : List Pin}
    (h : Listed targets visited work y) (hv : ∀ m ∈ visited, m ∈ visited')
    (hw : y ∈ work → Listed targets visited' work' y) : Listed targets visited' work' y :=
  h.elim hw fun ⟨hy, hm⟩ => .inr ⟨hy, fun m q heq => hv m (hm m q heq)⟩

/-- The work ends: each edge is followed once. -/
lemma coneReaches_isSome (b : Body) (targets : List Pin) (fuel : ℕ)
    (visited : List ℕ) (work : List Pin)
    (hfu : work.length + (b.edges.filter fun e => decide (e.2.node ∉ visited)).length ≤ fuel) :
    (b.coneReaches targets fuel visited work).isSome := by
  induction fuel generalizing visited work with
  | zero =>
    obtain rfl : work = [] := length_eq_zero_iff.1
      (Nat.le_zero.1 ((Nat.le_add_right _ _).trans hfu))
    rfl
  | succ fuel ih =>
    cases work with
    | nil => rfl
    | cons d work =>
      rw [length_cons] at hfu
      unfold coneReaches
      split
      · rfl
      · cases d with
        | input p => exact ih visited work (by omega)
        | const v => exact ih visited work (by omega)
        | out n q =>
          have hsp : (b.edges.filter fun e => decide (e.2.node ∉ visited)).length ≥
              (b.edges.filter fun e => decide (e.2.node ∉ n :: visited)).length := by
            refine List.Sublist.length_le (monotone_filter_right _ fun e he => ?_)
            rw [decide_eq_true_eq] at he ⊢
            exact fun hmem => he (.tail _ hmem)
          change (if n ∈ visited then _ else if b.boundary n = true then _
            else _ : Option Bool).isSome
          split
          · exact ih visited work (by omega)
          next hn =>
            split
            · exact ih _ work (by omega)
            · refine ih _ _ ?_
              have hc : (b.drivers n).length +
                  (b.edges.filter fun e => decide (e.2.node ∉ n :: visited)).length =
                  (b.edges.filter fun e => decide (e.2.node ∉ visited)).length := by
                rw [drivers, length_map, (Netlist.sinkDrivers_perm n).length_eq, Netlist.into,
                  length_map, ← countP_eq_length_filter,
                  ← countP_eq_length_filter, ← countP_eq_length_filter]
                generalize b.edges = es
                induction es with
                | nil => rfl
                | cons e es ihe =>
                  have hone : (if (e.2.node == n) = true then 1 else 0) +
                      (if decide (e.2.node ∉ n :: visited) = true then 1 else 0) =
                      if decide (e.2.node ∉ visited) = true then 1 else 0 := by
                    by_cases he : e.2.node = n
                    · simp [he, hn]
                    · simp [he]
                  rw [countP_cons, countP_cons, countP_cons]
                  omega
              rw [length_append, length_reverse]
              omega

/-- When the work ends without a target, what was listed has been dealt with. -/
lemma listed_of_coneReaches {fuel : ℕ} {visited : List ℕ} {work : List Pin}
    (h : b.coneReaches targets fuel visited work = some false)
    (hcl : b.Closed targets visited work) :
    ∃ visited', b.Closed targets visited' [] ∧ ∀ y, Listed targets visited work y →
    Listed targets visited' [] y := by
  induction fuel generalizing visited work with
  | zero =>
    cases work with
    | nil => exact ⟨visited, hcl, fun _ hy => hy⟩
    | cons d work => cases h
  | succ fuel ih =>
    cases work with
    | nil => exact ⟨visited, hcl, fun _ hy => hy⟩
    | cons d work =>
      -- what was listed stays listed when the head is dealt with
      have hst : ∀ visited' work', (∀ m ∈ visited, m ∈ visited') → (∀ y ∈ work, y ∈ work') →
          Listed targets visited' work' d →
          (∀ n ∈ visited', n ∉ visited → b.boundary n = false → ∀ y ∈ b.drivers n, y ∈ work') →
          b.coneReaches targets fuel visited' work' = some false →
          ∃ visited'', b.Closed targets visited'' [] ∧ ∀ y, Listed targets visited (d :: work) y →
          Listed targets visited'' [] y := by
        intro visited' work' hv hw hd hnew hrun
        have hli : ∀ y, Listed targets visited (d :: work) y → Listed targets visited' work' y := by
          intro y hy
          refine hy.mono hv fun hmem => ?_
          rcases mem_cons.1 hmem with rfl | hmem
          · exact hd
          · exact .inl (hw y hmem)
        obtain ⟨visited'', hc'', hall⟩ := ih hrun fun n hn hb y hy => by
          by_cases hold : n ∈ visited
          · exact hli y (hcl n hold hb y hy)
          · exact .inl (hnew n hn hold hb y hy)
        exact ⟨visited'', hc'', fun y hy => hall y (hli y hy)⟩
      unfold coneReaches at h
      split at h
      · cases h
      next hd =>
        have hsa : ∀ n ∈ visited, n ∉ visited → b.boundary n = false →
          ∀ y ∈ b.drivers n, y ∈ work := fun n hn hnot => absurd hn hnot
        cases d with
        | input p =>
          exact hst visited work (fun _ hm => hm) (fun _ hy => hy) (.inr ⟨hd, nofun⟩) hsa h
        | const v =>
          exact hst visited work (fun _ hm => hm) (fun _ hy => hy) (.inr ⟨hd, nofun⟩) hsa h
        | out n q =>
          dsimp only at h
          have hdo : ∀ visited' work', n ∈ visited' → Listed targets visited' work' (.out n q) := by
            intro visited' work' hn
            refine .inr ⟨hd, fun m q' heq => ?_⟩
            cases heq
            exact hn
          split at h
          next hn =>
            exact hst visited work (fun _ hm => hm) (fun _ hy => hy) (hdo _ _ hn) hsa h
          · split at h
            next hb =>
              refine hst (n :: visited) work (fun _ hm => .tail _ hm)
                (fun _ hy => hy) (hdo _ _ (.head _))
                (fun m hm hnot hmb => ?_) h
              obtain rfl := (mem_cons.1 hm).resolve_right hnot
              rw [hb] at hmb
              cases hmb
            · refine hst (n :: visited) _ (fun _ hm => .tail _ hm)
                (fun _ hy => mem_append_right _ hy)
                (hdo _ _ (.head _)) (fun m hm hnot _ y hy => ?_) h
              obtain rfl := (mem_cons.1 hm).resolve_right hnot
              exact mem_append_left _ (mem_reverse.2 hy)

/-- A cone that reaches no target has none in it. -/
lemma not_mem_of_behind (h : b.coneReachesAny (some d) targets = false)
    (hy : b.Behind d y) : y ∉ targets := by
  have hsm := b.coneReaches_isSome targets (b.edges.length + 1) [] [d]
    (by rw [add_comm]; exact Nat.succ_le_succ (length_filter_le _ _))
  obtain ⟨r, hr⟩ := isSome_iff_exists.1 hsm
  rw [coneReachesAny, hr] at h
  subst h
  obtain ⟨visited, hcl, hli⟩ := listed_of_coneReaches hr nofun
  have hall : Listed targets visited [] y := by
    induction hy with
    | refl => exact hli d (.inl (mem_singleton_self d))
    | tail _ hst ih =>
      obtain ⟨n, q, rfl, hb, hmem⟩ := hst
      exact hcl n ((ih.resolve_left not_mem_nil).2 n q rfl) hb _ hmem
  exact (hall.resolve_left not_mem_nil).1

end Body

namespace Rolled

variable {L : Rolled} {E E' : L.Env} {c : Carry} {d : Pin} {i n : ℕ}

/-- The boundary nodes behind a pin show their state, whatever they read. -/
def Env.RegisteredBehind (E : L.Env) (i : ℕ) (d : Pin) : Prop :=
  ∀ n q, L.body.Behind d (.out n q) → L.body.boundary n = true →
    Body.Registered (E.behaviour i).shows n

/-- The environments differ in the initial values of the carries only. -/
structure Env.Like (E E' : L.Env) : Prop where
  behaviour : ∀ i, E.behaviour i = E'.behaviour i
  others : E.others = E'.others

lemma carryOf_eq (hc : c ∈ L.carries) : L.carryOf c.input = some c := by
  obtain ⟨l, r, hl⟩ := append_of_mem hc
  have hnd := L.nodup
  rw [hl, map_append, nodup_append] at hnd
  rw [carryOf, hl, find?_append, find?_eq_none.2, none_or,
    find?_cons_of_pos (p := fun x : Carry => x.input == c.input) (beq_self_eq_true c.input)]
  intro x hx heq
  exact hnd.2.2 x.input (mem_map_of_mem hx) c.input (.head _) (beq_iff_eq.1 heq)

lemma mem_drivers {b : Body} {y : Pin} (h : y ∈ b.drivers n) :
    ∃ port, (y, ⟨n, port⟩) ∈ b.edges := by
  obtain ⟨e, he, rfl⟩ := mem_map.1 h
  obtain ⟨⟨pin, ⟨m, port⟩⟩, hmem, rfl⟩ := mem_map.1 ((Netlist.sinkDrivers_perm n).mem_iff.1 he)
  obtain ⟨hed, hm⟩ := mem_filter.1 hmem
  obtain rfl : m = n := beq_iff_eq.1 hm
  exact ⟨port, hed⟩

lemma mem_drivers_of_driver {b : Body} {y : Pin} {port : ℕ}
    (h : b.driver ⟨n, port⟩ = some y) : y ∈ b.drivers n := by
  obtain ⟨e, he, rfl⟩ := map_eq_some_iff.1 h
  exact mem_map_of_mem ((Netlist.sinkDrivers_perm n).mem_iff.2 (mem_of_find?_eq_some he))

/-- A pin whose cone reaches no carry has the same value for all initial values. -/
lemma Env.pins_eq (hli : E.Like E')
    (hac : L.activationInput.isSome = true → (E.state i).2 = (E'.state i).2)
    (hfr : L.dependsOnACarry d = false) (hreg : E.RegisteredBehind i d)
    (hd : ∀ p, d = .input p → p ∈ L.body.inputs) : E.pins i d = E'.pins i d := by
  have hpi' : E'.pins i = (E.behaviour i).value (E'.inputs i (E'.state i)) := by
    rw [Env.pins, hli.behaviour i]
  have hde : ∀ p, L.body.Behind d (.input p) → p ∈ L.body.inputs := by
    intro p hp
    rcases hp.cases_tail with heq | ⟨_, -, m, q, -, -, hmem⟩
    · exact hd p heq.symm
    · obtain ⟨port, hed⟩ := mem_drivers hmem
      exact L.body.declared _ hed p rfl
  have hl : ∀ y, L.body.Behind d y → (∀ m q, y ≠ .out m q) → E.pins i y = E'.pins i y := by
    intro y hy hne
    rw [hpi', Env.pins]
    cases y with
    | out m q => exact absurd rfl (hne m q)
    | const v => rw [(E.behaviour i).const, (E.behaviour i).const]
    | input p =>
      rw [(E.behaviour i).input, (E.behaviour i).input, Env.inputs, Env.inputs]
      have hnot : (L.carryOf p).isSome = false := by
        rw [← not_eq_true]
        intro hsm
        obtain ⟨c, hc⟩ := isSome_iff_exists.1 hsm
        obtain rfl : c.input = p := beq_iff_eq.1
          (find?_some (p := fun x : Carry => x.input == p) hc)
        exact not_mem_of_behind hfr hy
          (mem_filterMap.2 ⟨c, (mem_of_find?_eq_some hc), if_pos (hde _ hy)⟩)
      rw [hnot, if_neg Bool.false_ne_true, hli.others]
      split
      next hact => exact hac (by rw [hact]; rfl)
      · rfl
  have hse := (E.behaviour i).settles
    (fun n => ∃ q, L.body.Behind d (.out n q)) (E.pins i) (E'.pins i)
    (fun n _ => ⟨(E.behaviour i).holds _ n, by rw [hpi']; exact (E.behaviour i).holds _ n⟩)
        fun n ⟨q, hn⟩ => by
      cases hb : L.body.boundary n with
      | true => exact .inl (hreg n q hn hb)
      | false =>
        refine .inr fun y hy => ?_
        have hbe := hn.tail ⟨n, q, rfl, hb, hy⟩
        cases y with
        | out m q => exact .inl ⟨m, q, rfl, q, hbe⟩
        | input p => exact .inr (hl _ hbe nofun)
        | const v => exact .inr (hl _ hbe nofun)
  cases d with
  | out m q => exact hse m ⟨q, .refl⟩ q
  | input p => exact hl _ .refl nofun
  | const v => exact hl _ .refl nofun

end Rolled

/-! ## Bodies in order -/

namespace Body

variable (b : Body)

/-- The cells show their values, other nodes `0`. -/
def cells : Shows := fun n vals _ =>
  match b.kind n with
  | some (.cell op) => (evalOp op (vals.map fun v => (op.sinkBank v.1, some v.2))).getD 0
  | _ => 0

/-- The value of a pin, looked up to a depth. -/
def look (ins : ℕ → ℤ) : ℕ → Pin → ℤ
  | _, .const v => v
  | _, .input p => ins p
  | 0, .out _ _ => 0
  | depth + 1, .out n port =>
    b.cells n ((b.sinkDrivers n).map fun e => (e.1, look ins depth e.2)) port

/-- The nodes read earlier ones. -/
def Ordered : Prop := ∀ n, ∀ d ∈ b.drivers n, ∀ m q, d = .out m q → m < n

variable {b}

lemma look_const (ins : ℕ → ℤ) (depth : ℕ) (v : ℤ) :
    b.look ins depth (.const v) = v := by cases depth <;> rfl

lemma look_input (ins : ℕ → ℤ) (depth p : ℕ) :
    b.look ins depth (.input p) = ins p := by cases depth <;> rfl

lemma look_out (h : b.Ordered) (ins : ℕ → ℤ) {depth : ℕ} (hd : n < depth) (q : ℕ) :
    b.look ins depth (.out n q) = b.look ins (n + 1) (.out n q) := by
  induction n using Nat.strong_induction_on generalizing depth q with
  | _ n ih =>
    obtain ⟨depth, rfl⟩ := Nat.exists_eq_succ_of_ne_zero (ne_of_gt (Nat.zero_lt_of_lt hd))
    refine congrArg (fun vals => b.cells n vals q)
      (map_congr_left fun e he => congrArg (Prod.mk e.1) ?_)
    cases hpin : e.2 with
    | const v => rw [look_const, look_const]
    | input p => rw [look_input, look_input]
    | out m p =>
      have hlt := h n e.2 (mem_map_of_mem he) m p hpin
      rw [ih m hlt (hlt.trans_le (Nat.le_of_lt_succ hd)), ih m hlt hlt]

/-- The value of a pin. -/
def valueOf (b : Body) (ins : ℕ → ℤ) : Pin → ℤ
  | .const v => v
  | .input p => ins p
  | .out n q => b.look ins (n + 1) (.out n q)

lemma look_eq_valueOf (h : b.Ordered) (ins : ℕ → ℤ) {d : Pin} (hd : d ∈ b.drivers n) :
    b.look ins n d = b.valueOf ins d := by
  cases d with
  | const v => exact look_const ins n v
  | input p => exact look_input ins n p
  | out m q => exact look_out h ins (h n _ hd m q rfl) q

/-- A body of cells in order behaves as its cells do. -/
def behaviour (b : Body) (h : b.Ordered) : b.Behaviour where
  shows := b.cells
  cell n op hk vals x hx port := by
    unfold cells
    rw [hk]
    exact congrArg (Option.getD · 0) hx
  value := b.valueOf
  const _ _ := rfl
  input _ _ := rfl
  holds ins n port := congrArg (fun vals => b.cells n vals port)
    (map_congr_left fun e he => congrArg (Prod.mk e.1) (look_eq_valueOf h ins (mem_map_of_mem he)))
  settles part ν ν' hho hrd n hn port := by
    induction n using Nat.strong_induction_on generalizing port with
    | _ n ih =>
      rw [(hho n hn).1 port, (hho n hn).2 port]
      rcases hrd n hn with hreg | hreg
      · exact hreg _ _ port
      · refine congrArg (fun vals => b.cells n vals port)
          (map_congr_left fun e he => congrArg (Prod.mk e.1) ?_)
        have hmem : e.2 ∈ b.drivers n := mem_map_of_mem he
        rcases hreg e.2 hmem with ⟨m, q, hout, hm⟩ | heq
        · rw [hout]
          exact ih m (h n e.2 hmem m q hout) hm q
        · exact heq

lemma ordered_of_forall (h : ∀ e ∈ b.edges, Netlist.drivesBelow e.2.node e.1 = true) :
    b.Ordered := by
  intro n d hd m q hout
  obtain ⟨port, hed⟩ := Rolled.mem_drivers hd
  have hb := h _ hed
  rw [hout, Netlist.drivesBelow, and_eq_true] at hb
  exact of_decide_eq_true hb.1

end Body

namespace Rolled

variable {L : Rolled} {E E' : L.Env} {c : Carry} {d : Pin} {i n : ℕ}

/-! ## Skipped masks -/

/-- A mask that counts as an identity takes the bits that its operand declares. -/
lemma maskWindow_eq {lo hi bits : ℕ} (hlt : lo < hi) (hb : bits ≠ 0)
    (h : maskWindow lo hi = -1 ∨ maskWindow lo hi = 2 ^ bits - 1) :
    lo = 0 ∧ hi = bits := by
  obtain ⟨k, rfl⟩ := Nat.exists_eq_add_of_lt hlt
  have hpos : maskWindow lo (lo + k + 1) = 2 ^ lo * (2 ^ (k + 1) - 1) := by
    rw [maskWindow, add_assoc, pow_add, mul_sub, mul_one]
  have hle : (1 : ℤ) ≤ 2 ^ (k + 1) - 1 := by
    have := two_pow_pos k
    omega
  rcases h with h | h
  · have := mul_pos (two_pow_pos lo) (lt_of_lt_of_le zero_lt_one hle)
    omega
  · obtain ⟨m, rfl⟩ := Nat.exists_eq_succ_of_ne_zero hb
    have hlo : lo = 0 := by
      cases lo with
      | zero => rfl
      | succ j =>
        rw [hpos] at h
        have hdvd : (2 : ℤ) ∣ 2 ^ m.succ - 1 := by
          rw [← h]
          exact ⟨2 ^ j * (2 ^ (k + 1) - 1), by ring⟩
        omega
    subst hlo
    refine ⟨rfl, Nat.pow_right_injective (le_refl 2) ?_⟩
    have hpow : (2 : ℤ) ^ (0 + k + 1) = 2 ^ (m + 1) := by exact sub_left_inj.1 h
    exact_mod_cast hpow

/-- What is known of a mask that counts as an identity. -/
structure Identity (g : Hinted) (d a : Pin) (n : ℕ) : Prop where
  kind : g.kind n = some (.cell .getMask)
  operand : g.driver ⟨n, 0⟩ = some a
  lo : g.driver ⟨n, 2⟩ = some (.const 0)
  hi : g.driver ⟨n, 3⟩ = some (.const (g.bits a))
  pos : 0 < g.bits a
  wide : g.bits d = 0 ∨ g.bits a ≤ g.bits d

lemma identity_of_eq_some {g : Hinted} {a : Pin} (h : identityInput g d = some a) :
    ∃ n q, d = .out n q ∧ Identity g d a n := by
  cases d with
  | input p => cases h
  | const v => cases h
  | out n q =>
    refine ⟨n, q, rfl, ?_⟩
    rw [identityInput] at h
    split at h
    next hk =>
      split at h
      next a' lo hi hdr hr =>
        split at h
        · cases h
        next hb =>
          rw [not_or] at hb
          split at h
          next hma =>
            obtain rfl := Option.some.inj h
            rw [Netlist.bitRange] at hr
            split at hr
            next l u hl hu =>
              split at hr
              next hco =>
                obtain ⟨rfl, rfl⟩ := Prod.mk.inj (Option.some.inj hr)
                obtain ⟨hlo, hhi⟩ := maskWindow_eq (by omega) hb.1 hma
                have hl0 : l = 0 := by omega
                have hub : u = (g.bits a' : ℕ) := by omega
                exact ⟨hk, hdr, hl0 ▸ hl, hub ▸ hu, Nat.pos_of_ne_zero hb.1, by omega⟩
              · cases hr
            · cases hr
          · cases h
      · cases h
    · cases h

/-- The value of a cell. -/
lemma Env.pins_cell (E : L.Env) {op : NtypeOp} (hk : L.body.kind n = some (.cell op)) {x : ℤ}
    (hx : evalOp op (L.body.operands op (E.pins i) n) = some x)
    (q : ℕ) : E.pins i (.out n q) = x := by
  have hho := (E.behaviour i).holds (E.inputs i (E.state i)) n q
  rw [Env.pins, hho]
  refine (E.behaviour i).cell n op hk _ x ?_ q
  rwa [Body.reads, List.map_map]

lemma Env.pins_identity (E : L.Env) {a : Pin} (h : identityInput L.body.toHinted d = some a) :
    E.pins i d = E.pins i a % 2 ^ L.body.bits a := by
  obtain ⟨n, q, rfl, hid⟩ := identity_of_eq_some h
  refine E.pins_cell hid.kind ?_ q
  have hc : ∀ v, E.pins i (.const v) = v := (E.behaviour i).const _
  rw [evalOp_operands rfl]
  have hp : ∀ port, byBank ((L.body.sinkDrivers n).map
      fun e => (NtypeOp.getMask.sinkBank e.1, E.pins i e.2)) port =
      (L.body.driver ⟨n, port⟩).map (E.pins i) :=
      byBank_operands (g := L.body.toNetlist) L.body.legal hid.kind rfl
  simp only [evalKnown, hp, hid.operand, hid.lo, hid.hi, map_some, hc]
  have hlt : (0 : ℤ) < L.body.bits a := by exact_mod_cast hid.pos
  change (bitRange 0 ↑(L.body.bits a)).bind (fun w => some (window (E.pins i a) w.1 w.2)) = _
  rw [Cell.bitRange_of le_rfl hlt]
  refine congrArg some ?_
  change E.pins i a / 2 ^ 0 % 2 ^ ((L.body.bits a : ℤ) - 0).toNat = _
  simp

/-- The masks that are skipped get narrower. -/
lemma bits_skipIdentities (g : Hinted) (guard : ℕ) {d : Pin} (h : 0 < g.bits d) :
    0 < g.bits (skipIdentities g guard d) ∧ g.bits (skipIdentities g guard d) ≤ g.bits d := by
  induction guard generalizing d with
  | zero => exact ⟨h, le_rfl⟩
  | succ guard ih =>
    rw [skipIdentities]
    split
    next a ha =>
      obtain ⟨n, q, -, hid⟩ := identity_of_eq_some ha
      exact ⟨(ih hid.pos).1, (ih hid.pos).2.trans (hid.wide.resolve_left h.ne')⟩
    · exact ⟨h, le_rfl⟩

/-- What is skipped on the way to a pin keeps the bits of that pin. -/
lemma Env.pins_skip (E : L.Env) (i guard : ℕ) {d : Pin} {k : ℕ}
    (hk : 0 < L.body.bits (skipIdentities L.body.toHinted guard d) →
      k ≤ L.body.bits (skipIdentities L.body.toHinted guard d)) :
    E.pins i d ≡ E.pins i (skipIdentities L.body.toHinted guard d) [ZMOD 2 ^ k] := by
  induction guard generalizing d with
  | zero => rfl
  | succ guard ih =>
    rw [skipIdentities] at hk ⊢
    split at hk
    next a ha =>
      obtain ⟨n, q, -, hid⟩ := identity_of_eq_some ha
      obtain ⟨hpos, hle⟩ := bits_skipIdentities L.body.toHinted guard hid.pos
      have hmod : E.pins i d ≡ E.pins i a [ZMOD 2 ^ L.body.bits a] := by
        rw [E.pins_identity ha]
        exact mod_modEq _ _
      exact (hmod.of_dvd (pow_dvd_pow 2 ((hk hpos).trans hle))).trans (ih hk)
    · rfl

/-- Masks that keep the value, or are wide enough, are identities. -/
lemma Env.pins_skipped (E : L.Env) (i guard : ℕ) {d : Pin} {k : ℕ}
    (h : ∀ a ∈ skipped L.body.toHinted guard d, k ≤ L.body.bits a ∨
      (0 ≤ E.pins i a ∧ E.pins i a < 2 ^ L.body.bits a)) :
    E.pins i d ≡ E.pins i (skipIdentities L.body.toHinted guard d) [ZMOD 2 ^ k] := by
  induction guard generalizing d with
  | zero => rfl
  | succ guard ih =>
    rw [skipIdentities]
    rw [skipped] at h
    split
    next a ha =>
      rw [ha] at h
      refine Int.ModEq.trans ?_ (ih fun x hx => h x (.tail _ hx))
      rw [E.pins_identity ha]
      rcases h a (.head _) with hle | ⟨hno, hlt⟩
      · exact (mod_modEq _ _).of_dvd (pow_dvd_pow 2 hle)
      · rw [emod_eq_of_lt hno hlt]
    · rfl

/-! ## The carries -/

/-- The operator behind the output of a carry. -/
structure Head (L : Rolled) (c : Carry) (m : ℕ) (op : NtypeOp) (d : Pin) : Prop where
  declared : c.input ∈ L.body.inputs
  output : L.body.outDriver c.output = some d
  skip : ∃ q, L.skip d = .out m q
  kind : L.body.kind m = some (.cell op)

/-- An ordinal is active, what is skipped between the output of the carry and its operator keeps the
bits of the carry, and no memory behind a free operand passes an input on. -/
structure Env.Plain (E : L.Env) (c : Carry) (i : ℕ) : Prop where
  active : L.activationInput.isSome = true → (E.state i).2 = 1
  masks : ∀ m op d, L.Head c m op d → ∀ a ∈ skipped L.body.toHinted 32 d,
    (0 < L.body.bits (.input c.input) ∧ L.body.bits (.input c.input) ≤ L.body.bits a) ∨
    (0 ≤ E.pins i a ∧ E.pins i a < 2 ^ L.body.bits a)
  memories : ∀ m op d, L.Head c m op d →
    ∀ y ∈ L.body.drivers m, L.dependsOnACarry y = false → E.RegisteredBehind i y

/-- The operands of a reduction that are free. -/
def frees (L : Rolled) (op : NtypeOp) (c : Carry) (m : ℕ) : List Pin :=
  ((L.body.sinkDrivers m).filter fun e => L.operandKind op (.input c.input) e == .free).map (·.2)

/-- The combination of the free operands at an ordinal. -/
def Env.summand (E : L.Env) (op : NtypeOp) (c : Carry)
    (m i : ℕ) : ℤ := combine op ((L.frees op c m).map (E.pins i))

/-- The value of what drives a sink at an ordinal. -/
def Env.sink (E : L.Env) (m port i : ℕ) : ℤ := ((L.sinkDriver m port).map (E.pins i)).getD 0

/-- The window that is written at an ordinal, and the value. -/
def Env.slice (E : L.Env) (m i : ℕ) : (ℕ × ℕ) × ℤ :=
  (((E.sink m 2 i).toNat, (E.sink m 3 i - E.sink m 2 i).toNat), E.sink m 4 i)

def overwrite (x : ℤ) (s : (ℕ × ℕ) × ℤ) : ℤ := splice x s.1.1 s.1.2 s.2

/-- The windows of the `Set_mask`s satisfy `0 <= lo < hi`, and a value is written. -/
def Env.WellMasked (E : L.Env) (i : ℕ) : Prop :=
  ∀ m, L.body.kind m = some (.cell .setMask) →
    (evalOp .setMask (L.body.operands .setMask (E.pins i) m)).isSome

/-- An active ordinal hands on what drives the output. -/
lemma Env.carry_succ (E : L.Env) (hc : c ∈ L.carries) (hout : L.body.outDriver c.output = some d)
    (hac : L.activationInput.isSome = true → (E.state i).2 = 1) :
    E.carry (i + 1) c.input = (L.portAttr c.input).fit (E.pins i d) := by
  have hne : ¬((L.activationInput.isSome = true) ∧ (E.state i).2 = 0) := by
    rintro ⟨hsm, h0⟩
    rw [hac hsm] at h0
    cases h0
  unfold Env.carry Env.state
  dsimp only
  rw [carryOf_eq hc, bind_some, hout]
  exact if_neg hne

lemma Env.pins_carry (E : L.Env) (hc : c ∈ L.carries) :
    E.pins i (.input c.input) = E.carry i c.input := by
  rw [Env.pins, (E.behaviour i).input, Env.inputs, carryOf_eq hc]
  rfl

lemma fit_modEq_port (L : Rolled) {port k : ℕ}
    (hk : L.body.bits (.input port) = 0 ∨ k ≤ L.body.bits (.input port)) (v : ℤ) :
    (L.portAttr port).fit v ≡ v [ZMOD 2 ^ k] := by
  unfold PinAttr.fit
  split
  · rfl
  next hb => exact (fit_modEq _ _ v).of_dvd (pow_dvd_pow 2 (hk.resolve_left hb))

/-- The carry after an ordinal, as its operator computes it. -/
lemma Env.carry_succ_modEq (E : L.Env) (hc : c ∈ L.carries) {m : ℕ} {op : NtypeOp}
    (hhe : L.Head c m op d) (hp : E.Plain c i) {k : ℕ}
    (hk : L.body.bits (.input c.input) = 0 ∨ k ≤ L.body.bits (.input c.input)) {x : ℤ}
    (hx : evalOp op (L.body.operands op (E.pins i) m) = some x) :
    E.carry (i + 1) c.input ≡ x [ZMOD 2 ^ k] := by
  obtain ⟨q, hsk⟩ := hhe.skip
  have hv : E.pins i (L.skip d) = x := by
    rw [hsk]
    exact E.pins_cell hhe.kind hx q
  rw [E.carry_succ hc hhe.output hp.active, ← hv]
  refine (L.fit_modEq_port hk _).trans (E.pins_skipped i 32 fun a ha => ?_)
  exact (hp.masks m op d hhe a ha).imp_left fun h => (hk.resolve_left h.1.ne').trans h.2

/-- What a carry classified as a reduction or a slice write looks like. -/
lemma classifyCarry_cases (L : Rolled) (c : Carry) : (L.classifyCarry c).kind = .induction ∨
    (∃ m d, L.Head c m .setMask d ∧ L.isSliceWrite m (.input c.input) = true ∧
      (L.classifyCarry c).kind = .disjointSlice) ∨
    (∃ m op d, L.Head c m op d ∧ isAssociativeOp op = true ∧
      L.isReduction op m (.input c.input) = true ∧
      (L.classifyCarry c).kind = .assocReduction ∧ (L.classifyCarry c).reduceOp = some op ∧
        (L.classifyCarry c).idempotent = isIdempotentOp op) := by
  unfold classifyCarry
  split
  next carryIn carryOut hin hout =>
    obtain ⟨hmem, rfl⟩ : c.input ∈ L.body.inputs ∧ Pin.input c.input = carryIn := by
      rw [declaredInput] at hin
      split at hin
      next hmem => exact ⟨hmem, some.inj hin⟩
      · cases hin
    split
    next n q hsk =>
      split
      next op hk =>
        have hhe : L.Head c n op carryOut := ⟨hmem, hout, ⟨q, hsk⟩, hk⟩
        split
        next hop =>
          subst hop
          split
          next hsl => exact .inr (.inl ⟨n, carryOut, hhe, hsl, rfl⟩)
          · exact .inl rfl
        · split
          next hred =>
            rw [and_eq_true] at hred
            exact .inr (.inr ⟨n, op, carryOut, hhe, hred.1, hred.2, rfl, rfl, rfl⟩)
          · exact .inl rfl
      · exact .inl rfl
    · exact .inl rfl
  · exact .inl rfl

section

variable {op : NtypeOp} {m : ℕ}

/-- One operand is the carry, the others are free. -/
lemma perm_of_isReduction (h : L.isReduction op m (.input c.input) = true) :
    (∀ e ∈ L.body.sinkDrivers m, op.sinkBank e.1 = 0) ∧
    ∃ x, L.skip x = .input c.input ∧
    ((L.body.sinkDrivers m).map (·.2)).Perm (x :: L.frees op c m) := by
  rw [isReduction, and_eq_true, and_eq_true, not_eq_true', beq_iff_eq] at h
  obtain ⟨⟨hfo, hca⟩, -⟩ := h
  have hnot : ∀ e ∈ L.body.sinkDrivers m, L.operandKind op (.input c.input) e ≠ .foreign := by
    intro e he heq
    rw [contains_eq_mem, decide_eq_false_iff_not] at hfo
    exact hfo (mem_map.2 ⟨e, he, heq⟩)
  refine ⟨fun e he => ?_, ?_⟩
  · by_contra hba
    exact hnot e he (if_pos hba)
  · rw [count_eq_countP, countP_map, countP_eq_length_filter] at hca
    obtain ⟨e, he⟩ := length_eq_one_iff.1 hca
    have hpe := filter_append_perm
      (fun e => L.operandKind op (.input c.input) e == .carry) (L.body.sinkDrivers m)
    have hfr : (L.body.sinkDrivers m).filter
        (fun e => !(L.operandKind op (.input c.input) e == .carry)) =
        (L.body.sinkDrivers m).filter fun e => L.operandKind op (.input c.input) e == .free := by
      refine filter_congr fun e he => ?_
      have hne := hnot e he
      cases hk : L.operandKind op (.input c.input) e with
      | carry => rfl
      | free => rfl
      | foreign => exact absurd hk hne
    have hone : (L.body.sinkDrivers m).filter
      (fun e => L.operandKind op (.input c.input) e == .carry) = [e] := he
    rw [hone, hfr] at hpe
    refine ⟨e.2, ?_, (hpe.map (·.2)).symm⟩
    have hmem : e ∈ (L.body.sinkDrivers m).filter fun e =>
      L.operandKind op (.input c.input) e == .carry := hone ▸ mem_singleton_self e
    have hk := beq_iff_eq.1 (mem_filter.1 hmem).2
    rw [operandKind] at hk
    split at hk
    · cases hk
    · split at hk
      · assumption
      · split at hk <;> cases hk

lemma mem_frees {y : Pin} (h : y ∈ L.frees op c m) :
    y ∈ L.body.drivers m ∧ L.dependsOnACarry y = false := by
  obtain ⟨e, he, rfl⟩ := mem_map.1 h
  obtain ⟨hmem, hk⟩ := mem_filter.1 he
  refine ⟨mem_map_of_mem hmem, ?_⟩
  rw [operandKind] at hk
  split at hk
  · cases hk
  · split at hk
    · cases hk
    · split at hk
      · cases hk
      next hfr => exact eq_false_iff.2 hfr

/-- An ordinal combines the carry with its summand. -/
lemma Env.carry_reduction (E : L.Env) (hc : c ∈ L.carries) (hhe : L.Head c m op d)
    (hop : isAssociativeOp op = true)
    (hred : L.isReduction op m (.input c.input) = true) (hp : E.Plain c i) {k : ℕ}
    (hk : L.body.bits (.input c.input) = 0 ∨ k ≤ L.body.bits (.input c.input)) :
    E.carry (i + 1) c.input ≡ fold2 op (E.carry i c.input) (E.summand op c m i) [ZMOD 2 ^ k] := by
  obtain ⟨hba, x, hx, hpe⟩ := perm_of_isReduction hred
  have hva : evalOp op (L.body.operands op (E.pins i) m) =
      some (combine op (((x :: L.frees op c m).map (E.pins i)))) := by
    have hvl : ∀ v ∈ L.body.reads (E.pins i) m, op.sinkBank v.1 = 0 := by
      intro v hv
      obtain ⟨e, he, rfl⟩ := mem_map.1 hv
      exact hba e he
    have hco := evalOp_combine hop hvl
    rw [reads, List.map_map, List.map_map] at hco
    rwa [← combine_perm op (hpe.map (E.pins i)), List.map_map]
  refine (E.carry_succ_modEq hc hhe hp hk hva).trans ?_
  refine fold2_modEq op ?_ rfl
  rw [← E.pins_carry hc, ← hx]
  refine E.pins_skip i 32 fun hpos => ?_
  have heq : skipIdentities L.body.toHinted 32 x = .input c.input := hx
  rw [heq] at hpos ⊢
  exact hk.resolve_left hpos.ne'

/-- An ordinal overwrites a window of the carry. -/
lemma Env.carry_slice (E : L.Env) (hc : c ∈ L.carries) (hhe : L.Head c m .setMask d)
    (hsl : L.isSliceWrite m (.input c.input) = true)
    (hp : E.Plain c i) (hma : E.WellMasked i) {k : ℕ}
    (hk : L.body.bits (.input c.input) = 0 ∨ k ≤ L.body.bits (.input c.input)) :
    E.carry (i + 1) c.input ≡ overwrite (E.carry i c.input) (E.slice m i) [ZMOD 2 ^ k] := by
  obtain ⟨x, hx⟩ := isSome_iff_exists.1 (hma m hhe.kind)
  refine (E.carry_succ_modEq hc hhe hp hk hx).trans ?_
  have hpo : ∀ port, byBank ((L.body.sinkDrivers m).map
      fun e => (NtypeOp.setMask.sinkBank e.1, E.pins i e.2)) port =
      (L.body.driver ⟨m, port⟩).map (E.pins i) :=
      byBank_operands (g := L.body.toNetlist) L.body.legal hhe.kind rfl
  rw [evalOp_operands rfl] at hx
  simp only [evalKnown, hpo, bind_eq_bind, bind_eq_some_iff, map_eq_some_iff] at hx
  obtain ⟨_, ⟨lo, hlo, rfl⟩, _, ⟨hi, hhi, rfl⟩, w, hw, _, ⟨base, hba, rfl⟩, _,
    ⟨value, hv, rfl⟩, hx⟩ := hx
  cases hx
  have hsi : ∀ port y, L.body.driver ⟨m, port⟩ = some y → E.sink m port i = E.pins i y := by
    intro port y hy
    rw [Env.sink, sinkDriver, hy]
    rfl
  have hwi : (E.slice m i).1 = w := by
    rw [Env.slice, hsi 2 lo hlo, hsi 3 hi hhi]
    rw [bitRange] at hw
    split at hw
    · exact Option.some.inj hw
    · cases hw
  rw [overwrite, hwi, Env.slice, hsi 4 value hv]
  refine splice_modEq ?_ _ _ _
  rw [← E.pins_carry hc]
  have hsk : skipIdentities L.body.toHinted 32 base = .input c.input := by
    rw [isSliceWrite, sinkDriver, hba] at hsl
    simp only [and_eq_true] at hsl
    exact beq_iff_eq.1 hsl.1.1.1
  rw [← hsk]
  refine E.pins_skip i 32 fun hpos => ?_
  rw [hsk] at hpos ⊢
  exact hk.resolve_left hpos.ne'

/-- The steps of a carry make up its run. -/
lemma Env.carry_foldl {α : Type*} (E : L.Env) (f : ℤ → α → ℤ) (y : ℕ → α) (port : ℕ) {w : ℕ}
    (hf : ∀ u v a, u ≡ v [ZMOD 2 ^ w] → f u a ≡ f v a [ZMOD 2 ^ w])
    (hst : ∀ i < n, E.carry (i + 1) port ≡ f (E.carry i port) (y i) [ZMOD 2 ^ w]) :
    E.carry n port ≡ ((List.range n).map y).foldl f (E.seed port) [ZMOD 2 ^ w] := by
  induction n with
  | zero => rfl
  | succ n ih =>
    rw [range_succ, map_append, foldl_append]
    exact (hst n n.lt_succ_self).trans (hf _ _ _ (ih fun i hi => hst i (Nat.lt_succ_of_lt hi)))

/-- What reaches no carry does not depend on the initial values. -/
lemma Env.pins_free (hli : E.Like E') (hhe : L.Head c m op d) (hpl : E.Plain c i)
    (hp' : E'.Plain c i) {y : Pin}
    (hy : y ∈ L.body.drivers m) (hfr : L.dependsOnACarry y = false) : E.pins i y = E'.pins i y := by
  refine Env.pins_eq hli (fun hsm => ?_) hfr (hpl.memories m op d hhe y hy hfr) fun p hp => ?_
  · rw [hpl.active hsm, hp'.active hsm]
  · obtain ⟨port, hed⟩ := mem_drivers hy
    exact L.body.declared _ hed p hp

lemma Env.summand_eq (hli : E.Like E') (hhe : L.Head c m op d)
    (hp : E.Plain c i) (hp' : E'.Plain c i) :
    E.summand op c m i = E'.summand op c m i := by
  refine congrArg (combine op) (map_congr_left fun y hy => ?_)
  exact Env.pins_free hli hhe hp hp' (mem_frees hy).1 (mem_frees hy).2

lemma Env.slice_eq (hli : E.Like E') (hhe : L.Head c m .setMask d)
    (hsl : L.isSliceWrite m (.input c.input) = true)
    (hp : E.Plain c i) (hp' : E'.Plain c i) : E.slice m i = E'.slice m i := by
  have hsi : ∀ port, (∀ y, L.sinkDriver m port = some y → L.dependsOnACarry y = false) →
      E.sink m port i = E'.sink m port i := by
    intro port hfr
    rw [Env.sink, Env.sink]
    cases hy : L.sinkDriver m port with
    | none => rfl
    | some y => exact Env.pins_free hli hhe hp hp' (mem_drivers_of_driver hy) (hfr y hy)
  simp only [isSliceWrite, and_eq_true] at hsl
  obtain ⟨⟨⟨-, ⟨-, hlo⟩, hhi⟩, hv⟩, -⟩ := hsl
  have hall : ∀ x : Option Pin, (x.all fun d => !L.dependsOnACarry d) = true → ∀ y, x = some y →
      L.dependsOnACarry y = false := by
    rintro _ h y rfl
    rwa [all_some, not_eq_true'] at h
  rw [Env.slice, Env.slice, hsi 2 (hall _ hlo), hsi 3 (hall _ hhi), hsi 4 (hall _ hv)]

end

/-- Over `n` ordinals a reduction combines the initial value with the summands in any bracketing,
and in any number when the operator is idempotent, and a slice write overwrites the windows one
after another.  Summands and slices depend on no carry. -/
theorem classifyCarry_sound (E : L.Env) (hc : c ∈ L.carries) (n : ℕ)
    (hplain : ∀ i < n, E.Plain c i) {k : ℕ}
    (hk : L.body.bits (.input c.input) = 0 ∨ k ≤ L.body.bits (.input c.input)) :
    (∀ op, (L.classifyCarry c).kind = .assocReduction → (L.classifyCarry c).reduceOp = some op →
      ∃ m d, L.Head c m op d ∧
      E.carry n c.input ≡ ((List.range n).map (E.summand op c m)).foldl (fold2 op)
      (E.seed c.input) [ZMOD 2 ^ k] ∧
      (∀ t : Bracketing ℤ, t.leaves = E.seed c.input :: (List.range n).map (E.summand op c m) →
        E.carry n c.input ≡ t.eval (fold2 op) [ZMOD 2 ^ k]) ∧
      ((L.classifyCarry c).idempotent = true → ∀ t : Bracketing ℤ,
        (∀ x, x ∈ t.leaves ↔ x ∈ E.seed c.input :: (List.range n).map (E.summand op c m)) →
        E.carry n c.input ≡ t.eval (fold2 op) [ZMOD 2 ^ k]) ∧
      ∀ E' : L.Env, E.Like E' → (∀ i < n, E'.Plain c i) →
        ∀ i < n, E.summand op c m i = E'.summand op c m i) ∧
    ((L.classifyCarry c).kind = .disjointSlice → (∀ i < n, E.WellMasked i) →
      ∃ m d, L.Head c m .setMask d ∧
      E.carry n c.input ≡ ((List.range n).map (E.slice m)).foldl overwrite
      (E.seed c.input) [ZMOD 2 ^ k] ∧
      ∀ E' : L.Env, E.Like E' → (∀ i < n, E'.Plain c i) → ∀ i < n, E.slice m i = E'.slice m i) := by
  constructor
  · intro op hkind hop
    rcases L.classifyCarry_cases c with h | ⟨m, d, -, -, h⟩ | ⟨m, op', d, hhead,
      hassoc, hred, -, hop', hidem⟩
    · cases h.symm.trans hkind
    · cases h.symm.trans hkind
    · obtain rfl := some.inj (hop'.symm.trans hop)
      have hrun := E.carry_foldl (fold2 op') (E.summand op' c m) c.input
          (fun u v a h => fold2_modEq op' h rfl) fun i hi =>
        E.carry_reduction hc hhead hassoc hred (hplain i hi) hk
      refine ⟨m, d, hhead, hrun, fun t ht => ?_, fun hi t ht => ?_, fun E' hlike hplain' i hi => ?_⟩
      · rwa [t.eval_eq_foldl _ ht]
      · have := idempotentOp (hidem.symm.trans hi)
        rwa [t.eval_eq_of_mem_iff (fold2 op') ht]
      · exact Env.summand_eq hlike hhead (hplain i hi) (hplain' i hi)
  · intro hkind hmask
    rcases L.classifyCarry_cases c with h | ⟨m, d, hhead, hslice, -⟩ | ⟨m, op', d, -, -, -, h, -⟩
    · cases h.symm.trans hkind
    · refine ⟨m, d, hhead, ?_, fun E' hlike hplain' i hi => Env.slice_eq hlike hhead hslice
        (hplain i hi) (hplain' i hi)⟩
      exact E.carry_foldl overwrite (E.slice m) c.input
          (fun u v a h => splice_modEq h _ _ _) fun i hi =>
        E.carry_slice hc hhead hslice (hplain i hi) (hmask i hi) hk
    · cases h.symm.trans hkind

end Rolled

/-! ## An accumulator, and a mask over a negative value -/

/-- `acc + x` for eight bits. -/
def accumulate : Rolled where
  body := {
    nodes := [some (.cell .sum)]
    edges := [(.input 0, ⟨0, 0⟩), (.input 1, ⟨0, 2⟩)]
    bits _ := 8
    signed _ := false
    inputs := [0, 1]
    outDriver port := if port = 0 then some (.out 0 0) else none
    boundary _ := false
    legal := Netlist.legal_of_forall (by decide) (by decide)
    declared := by simp }
  carries := [⟨0, 0⟩]
  indexInput := none
  activationInput := none
  nextActiveOutput := none
  nodup := by decide

/-- The input at each ordinal is its number. -/
def accumulateEnv : accumulate.Env := ⟨fun _ => accumulate.body.behaviour
    (Body.ordered_of_forall (by decide)), fun i _ => i, fun _ => 250, 1⟩

lemma accumulate_plain (i : ℕ) : accumulateEnv.Plain ⟨0, 0⟩ i := by
  refine ⟨nofun, ?_, fun _ _ _ _ _ _ _ _ _ _ hbo => absurd hbo false_ne_true⟩
  rintro m op d hhe a ha
  obtain rfl : Pin.out 0 0 = d := Option.some.inj hhe.output
  cases ha

theorem classifyCarry_sound_accumulate : ∃ m d, accumulate.Head ⟨0, 0⟩ m .sum d ∧
    accumulateEnv.carry 9 0 ≡ ((List.range 9).map (accumulateEnv.summand .sum ⟨0, 0⟩ m)).foldl
    (fold2 .sum) 250 [ZMOD 2 ^ 8] := by
  obtain ⟨m, d, hhead, hrun, -⟩ :=
    (Rolled.classifyCarry_sound accumulateEnv (c := ⟨0, 0⟩) (.head _) 9
    (fun i _ => accumulate_plain i) (k := 8) (.inr le_rfl)).1 .sum (by decide) (by decide)
  exact ⟨m, d, hhead, hrun⟩

/-- `(acc | ~y)#[0..=3]` for eight bits `acc` and three bits `y`: the disjunction is negative and
has four bits. -/
def narrowed : Rolled where
  body := {
    nodes := [some (.cell .not), some (.cell .or), some (.cell .getMask)]
    edges := [(.input 1, ⟨0, 0⟩), (.input 0, ⟨1, 0⟩), (.out 0 0, ⟨1, 1⟩), (.out 1 0, ⟨2, 0⟩),
      (.const 0, ⟨2, 2⟩), (.const 4, ⟨2, 3⟩)]
    bits d := if d = .input 0 then 8 else if d = .input 1 then 3 else 4
    signed d := d = .out 0 0 ∨ d = .out 1 0
    inputs := [0, 1]
    outDriver port := if port = 0 then some (.out 2 0) else none
    boundary _ := false
    legal := Netlist.legal_of_forall (by decide) (by decide)
    declared := by simp }
  carries := [⟨0, 0⟩]
  indexInput := none
  activationInput := none
  nextActiveOutput := none
  nodup := by decide

lemma narrowed_ordered : narrowed.body.Ordered := Body.ordered_of_forall (by decide)

/-- One ordinal gives `15`, and the reduction `255`. -/
theorem not_classifyCarry_sound :
    ¬∀ (L : Rolled) (E : L.Env) (c : Carry) (n m : ℕ) (op : NtypeOp) (d : Pin), c ∈ L.carries →
    (L.classifyCarry c).kind = .assocReduction →
    (L.classifyCarry c).reduceOp = some op → L.Head c m op d →
    E.carry n c.input ≡ ((List.range n).map (E.summand op c m)).foldl (fold2 op) (E.seed c.input)
    [ZMOD 2 ^ L.body.bits (.input c.input)] := by
  intro h
  have hcongr := h narrowed ⟨fun _ => narrowed.body.behaviour narrowed_ordered, fun _ _ => 0,
    fun _ => 0, 1⟩ ⟨0, 0⟩ 1 1 .or (.out 2 0)
    (.head _) (by decide) (by decide) ⟨by decide, rfl, ⟨0, by decide⟩, rfl⟩
  revert hcongr
  decide +kernel

end LiveHD.LoopSplit
