import LiveHD.Upass.CoalescerVersions

/-!
# The emitted program

A block is emitted rightly exactly when no parked operation that is emitted reads a later write of
one of its operands. Whatever it emits, the statements that are no operations keep their order, and
an operation is left out only for being overwritten before it is read, or for writing a constant.
-/

namespace LiveHD.Upass.Coalescer

open Bool (and_eq_true not_eq_true')
open Function List Option

variable {ν V : Type*} [LinearOrder ν]

/-! ## What is left out -/

namespace Block

variable {b : Block ν V} {stmt : Stmt ν V} {k t i j : ℕ} {n name r : ν}
  {o : Op ν V} {s s' : Pass ν V}

/-- Between two nodes a name is read as a constant only. -/
def Unread (b : Block ν V) (k i : ℕ) (name : ν) : Prop :=
  ∀ j stmt, i < j → j < k → b.stmts[j]? = some stmt → name ∈ stmt.refs →
    (b.tableAt (j + 1) name).isSome

/-- An operation that need not be emitted: its name is a constant and not `mut`, or is overwritten
before it is read. -/
inductive Dropped (b : Block ν V) (i : ℕ) (o : Op ν V) : Prop
  | known (j : ℕ) (hij : i < j) (hconst : (b.tableAt j o.lhs).isSome) (hmut : ¬b.Declared j o.lhs)
      (hlocal : b.unit.isBoundary o.lhs = false)
  | overwritten (j : ℕ) (stmt : Stmt ν V) (hij : i < j) (hj : b.stmts[j]? = some stmt)
      (hwrites : o.lhs ∈ stmt.writes)
      (hunread : b.Unread (j + 1) i o.lhs)

/-- The nodes of the statements that are no operations. -/
def others (l : List (Stmt ν V × ℕ)) : List ℕ := (l.filter fun x => !x.1.isOp).map Prod.snd

/-- The account of the first `k` nodes. -/
structure Ledger (b : Block ν V) (k : ℕ) (s : Pass ν V) : Prop where
  once : (s.out.map Prod.snd).Nodup
  lt : ∀ i ∈ s.out.map Prod.snd, i < k
  parked : ∀ n i o, s.pending.lookup n = some (i, o) → i ∉ s.out.map Prod.snd
  others : Block.others s.out = Block.others (b.stmts.take k).zipIdx
  kept : ∀ i o, i < k → b.stmts[i]? = some (.op o) → i ∈ s.out.map Prod.snd ∨ b.Dropped i o ∨
    s.pending.lookup o.lhs = some (i, o) ∧ b.Unread k i o.lhs

lemma ledger_start : b.Ledger 0 b.start := by
  refine ⟨nodup_nil, nofun, nofun, ?_, nofun⟩
  rw [take_zero]
  rfl

omit [LinearOrder ν] in
lemma others_concat (l : List (Stmt ν V × ℕ)) (stmt : Stmt ν V) (i : ℕ) :
    others (l ++ [(stmt, i)]) = if stmt.isOp then others l else others l ++ [i] := by
  rw [others, filter_append, map_append]
  cases h : stmt.isOp with
  | false => simp [others, h]
  | true => simp [others, h]

omit [LinearOrder ν] in
lemma mem_nodes_concat {l : List (Stmt ν V × ℕ)} (j : ℕ) :
    j ∈ (l ++ [(stmt, i)]).map Prod.snd ↔ j ∈ l.map Prod.snd ∨ j = i := by
  rw [map_append, mem_append]
  exact or_congr_right mem_singleton

lemma Ledger.flushOne (hl : b.Ledger k s) (hs : b.Inv k t s) (hkt : k ≤ t) (name : ν) :
    b.Ledger k (s.flushOne (b.tableAt t) name) := by
  cases hp : s.pending.lookup name with
  | none => rwa [Pass.flushOne_of_none hp]
  | some x =>
    obtain ⟨i, o⟩ := x
    have hpa := hs.parked name i o hp
    have hlk : ∀ n, (s.flushOne (b.tableAt t) name).pending.lookup n = if n = name then none
        else s.pending.lookup n :=
      Pass.lookup_flushOne name
    -- the other operations stay parked
    have hrest : ∀ j q, j ≠ i → s.pending.lookup q.lhs = some (j, q) ∧ b.Unread k j q.lhs →
        (s.flushOne (b.tableAt t) name).pending.lookup q.lhs = some (j, q) ∧
        b.Unread k j q.lhs := by
      rintro j q hji ⟨hq, hun⟩
      refine ⟨?_, hun⟩
      rw [hlk, if_neg, hq]
      intro heq
      rw [heq, hp] at hq
      exact hji (Prod.ext_iff.1 (Option.some.inj hq)).1.symm
    cases hd : s.comptimeDrop (b.tableAt t) name with
    | true =>
      rw [Pass.comptimeDrop_eq_true, hs.muts] at hd
      have hout := Pass.out_flushOne_of_drop hp
        (Pass.comptimeDrop_eq_true.2 ⟨(hs.muts _).not.2 hd.1, hd.2⟩)
      refine ⟨?_, ?_, fun n j q hq => ?_, ?_, fun j q hj hjq => ?_⟩
      · rw [hout]
        exact hl.once
      · rw [hout]
        exact hl.lt
      · rw [hout]
        rw [hlk] at hq
        split at hq
        · cases hq
        · exact hl.parked n j q hq
      · rw [hout]
        exact hl.others
      · rw [hout]
        by_cases hji : j = i
        · subst hji
          obtain rfl : o = q := Stmt.op.inj (Option.some.inj (hpa.node.symm.trans hjq))
          have hlhs := hpa.lhs
          exact .inr
            (.inl (.known t (hj.trans_le hkt) (hlhs ▸ hd.2) (hlhs ▸ hd.1) (hlhs ▸ hpa.local')))
        · exact (hl.kept j q hj hjq).imp_right (Or.imp_right (hrest j q hji))
    | false =>
      have hout := Pass.out_flushOne_of_keep hp hd
      have hmem : ∀ j, j ∈ (s.flushOne (b.tableAt t) name).out.map Prod.snd ↔
          j ∈ s.out.map Prod.snd ∨ j = i := hout ▸ mem_nodes_concat
      refine ⟨?_, fun j hj => ?_, fun n j q hq => ?_, ?_, fun j q hj hjq => ?_⟩
      · rw [hout, map_append]
        exact hl.once.append (nodup_singleton i) (disjoint_singleton.2 (hl.parked name i o hp))
      · rcases (hmem j).1 hj with hj | rfl
        · exact hl.lt j hj
        · exact hpa.lt
      · rw [hlk] at hq
        split at hq
        · cases hq
        next hn =>
          rw [hmem, not_or]
          refine ⟨hl.parked n j q hq, ?_⟩
          rintro rfl
          have hq' := hs.parked n j q hq
          obtain rfl : o = q := Stmt.op.inj (Option.some.inj (hpa.node.symm.trans hq'.node))
          exact hn (hq'.lhs.symm.trans hpa.lhs)
      · rw [hout, others_concat, Stmt.isOp_fold]
        exact hl.others
      · rw [hmem]
        by_cases hji : j = i
        · exact .inl (.inr hji)
        · exact (hl.kept j q hj hjq).imp Or.inl (Or.imp_right (hrest j q hji))

lemma Ledger.foldl_flushOne (hl : b.Ledger k s) (hs : b.Inv k t s) (hkt : k ≤ t) (names : List ν) :
    b.Ledger k (names.foldl (fun s name => s.flushOne (b.tableAt t) name) s) := by
  induction names generalizing s with
  | nil => exact hl
  | cons name names ih => exact ih (hl.flushOne hs hkt name) (hs.flushOne hkt name)

lemma Unread.succ (h : b.Unread k i name) (hk : b.stmts[k]? = some stmt)
    (hread : name ∈ stmt.refs → (b.tableAt (k + 1) name).isSome) : b.Unread (k + 1) i name := by
  intro j stmt' hij hj hst hr
  rcases Nat.lt_succ_iff_lt_or_eq.1 hj with hj | rfl
  · exact h j stmt' hij hj hst hr
  · obtain rfl := Option.some.inj (hk.symm.trans hst)
    exact hread hr

omit [LinearOrder ν] in
lemma others_take_succ (hk : b.stmts[k]? = some stmt) : others (b.stmts.take (k + 1)).zipIdx =
    if stmt.isOp then others (b.stmts.take k).zipIdx
    else others (b.stmts.take k).zipIdx ++ [k] := by
  rw [take_succ_of hk, zipIdx_append, length_take_of_le (lt_length hk).le, Nat.zero_add]
  exact others_concat _ _ _

section

variable (hl : b.Ledger k s) (hk : b.stmts[k]? = some stmt)
  (hread : ∀ r ∈ stmt.refs, b.tableAt (k + 1) r = none → s.pending.lookup r = none)
include hl hk hread

omit hl in
lemma unread_succ (hp : s.pending.lookup name = some (i, o)) (hun : b.Unread k i name) :
    b.Unread (k + 1) i name := by
  refine hun.succ hk fun hr => ?_
  rw [isSome_iff_ne_none]
  intro hno
  cases hp.symm.trans (hread name hr hno)

/-- A statement that is emitted where it stands. -/
lemma Ledger.emit (hlt : ∀ n i o, s.pending.lookup n = some (i, o) → i < k) (hpending : s'.pending =
    s.pending) (hout : s'.out = s.out ++ [(stmt.fold (b.tableAt (k + 1)), k)]) :
    b.Ledger (k + 1) s' := by
  have hnot : k ∉ s.out.map Prod.snd := fun hmem => (hl.lt k hmem).false
  have hmem : ∀ j, j ∈ s'.out.map Prod.snd ↔ j ∈ s.out.map Prod.snd ∨ j = k :=
    hout ▸ mem_nodes_concat
  refine ⟨?_, fun j hj => ?_, fun n i o hp => ?_, ?_, fun i o hi hio => ?_⟩
  · rw [hout, map_append]
    exact hl.once.append (nodup_singleton k) (disjoint_singleton.2 hnot)
  · rcases (hmem j).1 hj with hj | hj
    · exact (hl.lt j hj).trans k.lt_succ_self
    · exact hj ▸ k.lt_succ_self
  · rw [hpending] at hp
    rw [hmem, not_or]
    exact ⟨hl.parked n i o hp, (hlt n i o hp).ne⟩
  · rw [hout, others_concat, Stmt.isOp_fold, others_take_succ hk, hl.others]
  · rw [hmem, hpending]
    rcases Nat.lt_succ_iff_lt_or_eq.1 hi with hi | rfl
    · exact (hl.kept i o hi hio).imp Or.inl
        (Or.imp_right fun ⟨hp, hun⟩ => ⟨hp, unread_succ hk hread hp hun⟩)
    · exact .inl (.inr rfl)

/-- An operation that is parked or dropped. -/
lemma Ledger.skip (hop : stmt = .op o) (hout : s'.out = s.out)
    (hpending : ∀ n i p, s'.pending.lookup n = some (i, p) →
      s.pending.lookup n = some (i, p) ∨ i = k)
    (hkept : ∀ i p, i < k → s.pending.lookup p.lhs = some (i, p) → p.lhs ≠ o.lhs →
      s'.pending.lookup p.lhs = some (i, p))
    (hsame : s'.pending.lookup o.lhs = s.pending.lookup o.lhs ∧ b.Dropped k o ∨
      s'.pending.lookup o.lhs = some (k, o)) :
    b.Ledger (k + 1) s' := by
  have hnot : k ∉ s.out.map Prod.snd := fun hmem => (hl.lt k hmem).false
  refine ⟨hout ▸ hl.once, fun j hj => ?_, fun n i p hp => ?_, ?_, fun i p hi hip => ?_⟩
  · rw [hout] at hj
    exact (hl.lt j hj).trans k.lt_succ_self
  · rw [hout]
    rcases hpending n i p hp with hp | rfl
    · exact hl.parked n i p hp
    · exact hnot
  · rw [hout, others_take_succ hk, hop, hl.others]
    rfl
  · rw [hout]
    rcases Nat.lt_succ_iff_lt_or_eq.1 hi with hi | rfl
    · refine (hl.kept i p hi hip).imp_right (or_imp.2 ⟨Or.inl, ?_⟩)
      rintro ⟨hp, hun⟩
      have hun' := unread_succ hk hread hp hun
      by_cases hlhs : p.lhs = o.lhs
      · rcases hsame with ⟨hsame, -⟩ | -
        · rw [hlhs, hsame, ← hlhs]
          exact .inr ⟨hp, hun'⟩
        · refine .inl (.overwritten k stmt hi hk ?_ hun')
          rw [hop, hlhs]
          exact mem_singleton_self _
      · exact .inr ⟨hkept i p hi hp hlhs, hun'⟩
    · obtain rfl : o = p := Stmt.op.inj (hop.symm.trans (Option.some.inj (hk.symm.trans hip)))
      refine .inr (hsame.imp And.right fun hp => ⟨hp, ?_⟩)
      exact fun j _ hij hj => absurd hj (by omega)

end

section

variable (hl : b.Ledger k s) (hs : b.Inv k k s)
include hl hs

lemma Ledger.handleOp (hk : b.stmts[k]? = some (.op o)) :
    b.Ledger (k + 1) (s.handleOp (b.tableAt (k + 1)) b.unit b.constprop k o) := by
  have hfl := hs.flushReads hk
  have hlf : b.Ledger k (s.flushReads (b.tableAt (k + 1)) o) := by
    rw [Pass.flushReads_eq]
    exact hl.foldl_flushOne (hs.enter hk rfl) k.le_succ _
  have hread : ∀ r ∈ o.refs, b.tableAt (k + 1) r = none →
      (s.flushReads (b.tableAt (k + 1)) o).pending.lookup r = none := fun r hr hno =>
      Pass.lookup_flushReads hr hno
  rw [Pass.handleOp]
  generalize s.flushReads (b.tableAt (k + 1)) o = s' at *
  split
  · have hlk := Pass.lookup_parkCurrent (s := s') k o
    refine hlf.skip hk hread rfl rfl (fun n i p hp => ?_) (fun i p _ hp hne => ?_) (.inr ?_)
    · rw [hlk] at hp
      split at hp
      · cases hp
        exact .inr rfl
      · exact .inl hp
    · rw [hlk, if_neg hne, hp]
    · rw [hlk, if_pos rfl]
  · split
    next hdr =>
      rw [Pass.drops, and_eq_true, and_eq_true, not_eq_true',
        Pass.comptimeDrop_eq_true, hfl.muts] at hdr
      exact hlf.skip hk hread rfl rfl (fun _ _ _ => .inl) (fun _ _ _ hp _ => hp)
        (.inl ⟨rfl, .known (k + 1) k.lt_succ_self hdr.1.1.2 hdr.1.1.1 hdr.1.2⟩)
    · exact hlf.emit hk hread (fun n i p hp => (hfl.parked n i p hp).lt) rfl rfl

lemma Ledger.step (hk : b.stmts[k]? = some stmt) :
    b.Ledger (k + 1) (s.step (b.tableAt (k + 1)) b.unit b.constprop k stmt) := by
  cases stmt with
  | op o => exact hl.handleOp hs hk
  | barrier q =>
    have hlf : b.Ledger k (s.flushAll (b.tableAt (k + 1))) :=
      hl.foldl_flushOne (hs.enter hk rfl) k.le_succ _
    have hno : ∀ n, (s.flushAll (b.tableAt (k + 1))).pending.lookup n = none := Pass.lookup_flushAll
    exact hlf.emit hk (fun r _ _ => hno r)
      (fun n i p hp => absurd ((hno n).symm.trans hp) (by simp)) rfl rfl
  | declare name isMut => exact hl.emit hk nofun (fun n i p hp => (hs.parked n i p hp).lt) rfl rfl

end

/-! ## What is read -/

/-- An emitted operand: the constant that a name is before the node, or a name of which the version
before the node is the last that is emitted. -/
inductive ReadsAs (b : Block ν V) (l : List (Stmt ν V × ℕ)) (i : ℕ) :
    Operand ν V → Operand ν V → Prop
  | const (v : V) : b.ReadsAs l i (.const v) (.const v)
  | known (r : ν) (v : V) (hv : b.tableAt i r = some v) : b.ReadsAs l i (.ref r) (.const v)
  | seen (r : ν) (hr : b.Sees l i r) : b.ReadsAs l i (.ref r) (.ref r)

/-- A statement that is emitted after others reads what that of the node reads in the source. -/
def EmitsAs (b : Block ν V) (l : List (Stmt ν V × ℕ)) (e : Stmt ν V) (i : ℕ) : Prop :=
  ∃ stmt, b.stmts[i]? = some stmt ∧ e ∈ Set.range stmt.fold ∧
    Forall₂ (b.ReadsAs l i) stmt.operands e.operands

/-- Every emitted statement reads what its node reads in the source. -/
def Faithful (b : Block ν V) (out : List (Stmt ν V × ℕ)) : Prop :=
  ∀ l e i m, out = l ++ (e, i) :: m → b.EmitsAs l e i

variable {l out : List (Stmt ν V × ℕ)} {e : Stmt ν V} {table : ν → Option V}

lemma faithful_nil : b.Faithful [] := by
  intro l e i m h
  simp at h

lemma faithful_concat : b.Faithful (out ++ [(e, i)]) ↔ b.Faithful out ∧ b.EmitsAs out e i := by
  constructor
  · intro h
    refine ⟨fun l x j m heq => h l x j (m ++ [(e, i)]) ?_, h out e i [] rfl⟩
    rw [heq, append_assoc, cons_append]
  · rintro ⟨hout, he⟩ l x j m heq
    rcases eq_nil_or_concat' m with rfl | ⟨m, y, rfl⟩
    · obtain ⟨rfl, hx⟩ := append_inj' heq rfl
      cases hx
      exact he
    · rw [← cons_append, ← append_assoc] at heq
      exact hout l x j m (append_inj' heq rfl).1

lemma readsAs_ref_iff : b.ReadsAs l i (.ref r) (Operand.fold table (.ref r)) ↔
    (∀ v ∈ table r, b.tableAt i r = some v) ∧ (table r = none → b.Sees l i r) := by
  rw [Operand.fold]
  cases table r with
  | none =>
    refine ⟨fun h => ⟨nofun, fun _ => ?_⟩, fun h => .seen r (h.2 rfl)⟩
    cases h with
    | seen _ hr => exact hr
  | some v =>
    refine ⟨fun h => ⟨fun w hw => ?_, nofun⟩, fun h => .known r v (h.1 v rfl)⟩
    cases h with
    | known _ _ hv => exact hv.trans hw

lemma emitsAs_fold_iff (hk : b.stmts[i]? = some stmt) :
    b.EmitsAs l (stmt.fold table) i ↔
    ∀ r ∈ stmt.refs, b.ReadsAs l i (.ref r) (Operand.fold table (.ref r)) := by
  have hiff : Forall₂ (b.ReadsAs l i) stmt.operands (stmt.fold table).operands ↔
      ∀ r ∈ stmt.refs, b.ReadsAs l i (.ref r) (Operand.fold table (.ref r)) := by
    rw [Stmt.operands_fold, forall₂_map_right_iff, forall₂_same]
    constructor
    · exact fun h r hr => h _ (Stmt.mem_refs.1 hr)
    · intro h x hx
      cases x with
      | ref r => exact h r (Stmt.mem_refs.2 hx)
      | const v => exact .const v
  rw [← hiff]
  constructor
  · rintro ⟨stmt', hk', -, h⟩
    obtain rfl := Option.some.inj (hk.symm.trans hk')
    exact h
  · exact fun h => ⟨stmt, hk, ⟨table, rfl⟩, h⟩

/-! ## When nothing is hurt -/

/-- An operand of an operation that is about to be emitted: no later write of it is emitted and,
where it was a constant when the operation was parked, it is still that constant or its version is
the last that is emitted. -/
def Unhurt (b : Block ν V) (out : List (Stmt ν V × ℕ)) (i : ℕ)
    (table : ν → Option V) (r : ν) : Prop :=
  (∀ v ∈ table r, b.tableAt i r = some v) ∧ (table r = none → (∀ j ∈ lastWrite out r, j < i) ∧
    ((b.tableAt i r).isSome ∨ (b.tableAt (i + 1) r).isSome → b.Sees out i r))

/-- The operation of a name is not hurt when it is flushed. -/
def FlushClear (b : Block ν V) (table : ν → Option V) (s : Pass ν V) (name : ν) : Prop :=
  ∀ x ∈ s.pending.lookup name, s.comptimeDrop table name = false →
    ∀ r ∈ x.2.refs, b.Unhurt s.out x.1 table r

def FlushesClear (b : Block ν V) (table : ν → Option V) : List ν → Pass ν V → Prop
  | [], _ => True
  | name :: names, s => b.FlushClear table s name ∧
    b.FlushesClear table names (s.flushOne table name)

/-- A statement flushes no operation that is hurt, and is not hurt itself by what it writes. -/
def Clear (b : Block ν V) (k : ℕ) (s : Pass ν V) : Stmt ν V → Prop
  | .op o =>
    let table := b.tableAt (k + 1)
    let s' := s.flushReads table o
    b.FlushesClear table (Pass.runtimeReads table o) s ∧
      (s'.parks table b.unit o = false → s'.drops table b.unit b.constprop o = false →
        ∀ r ∈ o.refs, r = o.lhs → b.Unhurt s'.out k table r)
  | .barrier q =>
    let table := b.tableAt (k + 1)
    b.FlushesClear table s.parkedNames s ∧ ∀ r ∈ q.refs, r ∈ q.writes →
      b.Unhurt (s.flushAll table).out k table r
  | .declare .. => True

/-- Every statement from a node on, and the flush at the end. -/
def ClearFrom (b : Block ν V) (k : ℕ) (s : Pass ν V) : List (Stmt ν V) → Prop
  | [] => b.FlushesClear (b.tableAt k) s.parkedNames s
  | stmt :: stmts => b.Clear k s stmt ∧
    b.ClearFrom (k + 1) (s.step (b.tableAt (k + 1)) b.unit b.constprop k stmt) stmts

lemma unhurt_of_readsAs (h : b.ReadsAs out i (.ref r) (Operand.fold table (.ref r))) :
    b.Unhurt out i table r := by
  obtain ⟨hv, hsees⟩ := readsAs_ref_iff.1 h
  refine ⟨hv, fun hno => ⟨fun j hj => ?_, fun _ => hsees hno⟩⟩
  exact versionAt_lt ((hsees hno).1.symm.trans hj)

lemma Inv.unhurt_iff (hs : b.Inv k t s)
    (hp : s.pending.lookup name = some (i, o)) (hr : r ∈ o.refs) :
    b.Unhurt s.out i table r ↔ b.ReadsAs s.out i (.ref r) (Operand.fold table (.ref r)) := by
  refine ⟨fun h => readsAs_ref_iff.2 ⟨h.1, fun hno => ?_⟩, unhurt_of_readsAs⟩
  obtain ⟨hlater, hconst⟩ := h.2 hno
  by_cases hc : (b.tableAt i r).isSome ∨ (b.tableAt (i + 1) r).isSome
  · exact hconst hc
  · rw [not_or, not_isSome_iff_eq_none, not_isSome_iff_eq_none] at hc
    refine (hs.waits name i o hp r hr hc.1 hc.2).1.resolve_right ?_
    rintro ⟨j, hij, hj⟩
    exact hij.not_gt (hlater j hj)

/-- What a statement reads and does not write is what it reads in the source. -/
lemma Inv.emitsAs_iff (hs : b.Inv k (k + 1) s) (hk : b.stmts[k]? = some stmt)
    (hread : ∀ r ∈ stmt.refs, b.tableAt (k + 1) r = none → s.pending.lookup r = none) :
    b.EmitsAs s.out (stmt.fold (b.tableAt (k + 1))) k ↔
      ∀ r ∈ stmt.refs, r ∈ stmt.writes → b.Unhurt s.out k (b.tableAt (k + 1)) r := by
  rw [emitsAs_fold_iff hk]
  refine ⟨fun h r hr _ => unhurt_of_readsAs (h r hr), fun h r hr => readsAs_ref_iff.2 ?_⟩
  have hseen : b.tableAt (k + 1) r = none → b.tableAt k r = none → b.Sees s.out k r := by
    intro hno hno'
    refine (hs.idle r (hread r hr hno)).resolve_right fun hf => ?_
    rw [Folded, hno, hno'] at hf
    rcases hf.1 with h | h <;> cases h
  by_cases hw : r ∈ stmt.writes
  · obtain ⟨hv, hno⟩ := h r hr hw
    refine ⟨hv, fun hno' => ?_⟩
    cases hc : b.tableAt k r with
    | none => exact hseen hno' hc
    | some v => exact (hno hno').2 (.inl (by rw [hc]; rfl))
  · have heq := tableAt_succ_of_notMem hk hw
    exact ⟨fun v hv => heq.symm.trans hv, fun hno => hseen hno (heq.symm.trans hno)⟩

lemma Inv.flushOne_faithful (hs : b.Inv k t s) (name : ν) :
    b.Faithful (s.flushOne (b.tableAt t) name).out ↔
    b.Faithful s.out ∧ b.FlushClear (b.tableAt t) s name := by
  rw [FlushClear]
  cases hp : s.pending.lookup name with
  | none =>
    rw [Pass.flushOne_of_none hp]
    exact (and_iff_left nofun).symm
  | some x =>
    obtain ⟨i, o⟩ := x
    cases hd : s.comptimeDrop (b.tableAt t) name with
    | true =>
      rw [Pass.out_flushOne_of_drop hp hd]
      exact (and_iff_left nofun).symm
    | false =>
      rw [Pass.out_flushOne_of_keep hp hd, faithful_concat,
        emitsAs_fold_iff (hs.parked name i o hp).node]
      refine and_congr_right fun _ => ⟨fun h x hx _ r hr => ?_, fun h r hr => ?_⟩
      · cases hx
        exact (hs.unhurt_iff hp hr).2 (h r hr)
      · exact (hs.unhurt_iff hp hr).1 (h _ rfl rfl r hr)

lemma Inv.foldl_faithful (hs : b.Inv k t s) (hkt : k ≤ t) (names : List ν) :
    b.Faithful (names.foldl (fun s name => s.flushOne (b.tableAt t) name) s).out ↔
      b.Faithful s.out ∧ b.FlushesClear (b.tableAt t) names s := by
  induction names generalizing s with
  | nil => exact (and_iff_left trivial).symm
  | cons name names ih =>
    rw [foldl_cons, ih (hs.flushOne hkt name), hs.flushOne_faithful, and_assoc, FlushesClear]

lemma Inv.step_faithful (hs : b.Inv k k s) (hk : b.stmts[k]? = some stmt) :
    b.Faithful (s.step (b.tableAt (k + 1)) b.unit b.constprop k stmt).out ↔
    b.Faithful s.out ∧ b.Clear k s stmt := by
  cases stmt with
  | op o =>
    have hfl := hs.flushReads hk
    have hiff := (hs.enter hk rfl).foldl_faithful k.le_succ
      (Pass.runtimeReads (b.tableAt (k + 1)) o)
    have hread : ∀ r ∈ o.refs, b.tableAt (k + 1) r = none →
        (s.flushReads (b.tableAt (k + 1)) o).pending.lookup r = none := fun r hr hno =>
        Pass.lookup_flushReads hr hno
    rw [← Pass.flushReads_eq] at hiff
    rw [Clear, ← and_assoc, ← hiff, Pass.step, Pass.handleOp]
    generalize s.flushReads (b.tableAt (k + 1)) o = s' at *
    cases hpa : s'.parks (b.tableAt (k + 1)) b.unit o with
    | true => exact (and_iff_left nofun).symm
    | false =>
      cases hdr : s'.drops (b.tableAt (k + 1)) b.unit b.constprop o with
      | true => exact (and_iff_left fun _ => nofun).symm
      | false =>
        refine faithful_concat.trans (and_congr_right fun _ => (hfl.emitsAs_iff hk hread).trans ?_)
        exact ⟨fun h _ _ r hr heq => h r hr (heq ▸ mem_singleton_self _), fun h r hr hw =>
          h rfl rfl r hr (mem_singleton.1 hw)⟩
  | barrier q =>
    have hfl : b.Inv k (k + 1) (s.flushAll (b.tableAt (k + 1))) :=
      (hs.enter hk rfl).foldl_flushOne k.le_succ _
    have hiff : b.Faithful (s.flushAll (b.tableAt (k + 1))).out ↔ _ :=
      (hs.enter hk rfl).foldl_faithful k.le_succ s.parkedNames
    rw [Clear, ← and_assoc, ← hiff]
    exact faithful_concat.trans (and_congr_right fun _ => hfl.emitsAs_iff hk
      fun r _ _ => Pass.lookup_flushAll r)
  | declare name isMut =>
    rw [Clear]
    refine faithful_concat.trans (and_congr_right fun _ => iff_of_true ?_ trivial)
    exact ⟨_, hk, ⟨fun _ => none, rfl⟩, .nil⟩

/-! ## Blocks -/

/-- The pass after the statements, and the constants there. -/
lemma steps_spec (hs : b.Inv k k s) (hl : b.Ledger k s) (hle : k ≤ b.stmts.length)
    {stmts : List (Stmt ν V)}
    (hk : b.stmts.drop k = stmts) {r : Pass ν V × (ν → Option V)}
    (hr : Pass.steps b.unit b.constprop s (b.tableAt k) k stmts = r) :
    r.2 = b.tableAt b.stmts.length ∧ b.Inv b.stmts.length b.stmts.length r.1 ∧
    b.Ledger b.stmts.length r.1 ∧
      (b.Faithful (r.1.flushAll r.2).out ↔ b.Faithful s.out ∧ b.ClearFrom k s stmts) := by
  induction stmts generalizing k s with
  | nil =>
    obtain rfl : k = b.stmts.length := hle.antisymm (drop_eq_nil_iff.1 hk)
    subst hr
    exact ⟨rfl, hs, hl, hs.foldl_faithful le_rfl s.parkedNames⟩
  | cons stmt stmts ih =>
    have hstmt : b.stmts[k]? = some stmt := by rw [← head?_drop, hk]; rfl
    have hdrop : b.stmts.drop (k + 1) = stmts := by rw [← tail_drop, hk]; rfl
    rw [ClearFrom, ← and_assoc (a := b.Faithful s.out), ← hs.step_faithful hstmt]
    refine ih (hs.step hstmt) (hl.step hs hstmt) (lt_length hstmt) hdrop ?_
    rw [← hr, tableAt_succ hstmt]
    rfl

end Block

/-! ## Values -/

/-- The table holds the values of names. -/
def Known (table : ν → Option V) (env : ν → V) : Prop := ∀ n v, table n = some v → env n = v

/-- Constant propagation computes values. -/
structure Constprop.Sound (c : Constprop ν V) : Prop where
  op : ∀ o table env, Known table env → ∀ v, c.op o table = some v → o.eval env = v
  barrier : ∀ b table env, Known table env → ∀ n v, c.barrier b table n = some v → b.eval env n = v

lemma Known.after {c : Constprop ν V} (hc : c.Sound) {table : ν → Option V}
    {env : ν → V} (h : Known table env)
    (stmt : Stmt ν V) : Known (c.after table stmt) (stmt.exec env) := by
  intro n v hn
  cases stmt with
  | op o =>
    rw [Constprop.after] at hn
    rw [Stmt.exec]
    by_cases hlhs : n = o.lhs
    · subst hlhs
      rw [update_self] at hn ⊢
      exact hc.op o table env h v hn
    · rw [update_of_ne hlhs] at hn ⊢
      exact h n v hn
  | barrier b =>
    rw [Constprop.after] at hn
    rw [Stmt.exec]
    dsimp only at hn ⊢
    split at hn
    next hw =>
      rw [if_pos hw]
      exact hc.barrier b table env h n v hn
    next hw =>
      rw [if_neg hw]
      exact h n v hn
  | declare name isMut => exact h n v hn

lemma exec_concat (env : ν → V) (l : List (Stmt ν V)) (stmt : Stmt ν V) :
    exec env (l ++ [stmt]) = stmt.exec (exec env l) :=
  foldl_append

namespace Block

variable {b : Block ν V} {stmt e : Stmt ν V} {k i : ℕ} {n r : ν}
  {out l m : List (Stmt ν V × ℕ)} {env env' : ν → V}

lemma known_tableAt (hc : b.constprop.Sound) (h : Known b.table env) (k : ℕ) :
    Known (b.tableAt k) (exec env (b.stmts.take k)) := by
  rw [tableAt]
  generalize b.stmts.take k = stmts
  induction stmts using reverseRecOn with
  | nil => exact h
  | append_singleton stmts stmt ih =>
    rw [foldl_append, exec_concat]
    exact ih.after hc stmt

/-- The value of a name is that of its version. -/
lemma exec_take (k : ℕ) (n : ν) : exec env (b.stmts.take k) n =
    (b.versionAt k n).elim (env n) fun i => exec env (b.stmts.take (i + 1)) n := by
  induction k with
  | zero => rfl
  | succ k ih =>
    cases hk : b.stmts[k]? with
    | none =>
      have htake : b.stmts.take (k + 1) = b.stmts.take k := by
        rw [take_add_one, hk]; exact append_nil _
      rw [versionAt, htake]
      exact ih
    | some stmt =>
      rw [versionAt_succ hk]
      split
      · rfl
      next hn =>
        rw [← ih, take_succ_of hk, exec_concat]
        exact Stmt.exec_of_notMem hn

section

variable (hc : b.constprop.Sound) (hknown : Known b.table env)
  (hstart : ∀ n, b.start.StillRead b.unit b.table n → env' n = env n)
include hc hknown hstart

omit hc hknown in
lemma Sees.exec_eq (h : b.Sees l k n) (hl : exec env' (l.map Prod.fst) n =
      (lastWrite l n).elim (env' n) fun i => exec env (b.stmts.take (i + 1)) n) :
    exec env' (l.map Prod.fst) n = exec env (b.stmts.take k) n := by
  rw [hl, h.1, exec_take]
  cases hv : b.versionAt k n with
  | none => exact hstart n (h.2 hv)
  | some i => rfl

lemma EmitsAs.inputs_eq (h : b.EmitsAs l e i) (hk : b.stmts[i]? = some stmt)
    (hl : ∀ n, exec env' (l.map Prod.fst) n =
      (lastWrite l n).elim (env' n) fun i => exec env (b.stmts.take (i + 1)) n) :
    e.inputs (exec env' (l.map Prod.fst)) = stmt.inputs (exec env (b.stmts.take i)) := by
  obtain ⟨stmt', hk', -, hreads⟩ := h
  obtain rfl := Option.some.inj (hk.symm.trans hk')
  rw [Stmt.inputs, Stmt.inputs, ← forall₂_eq_eq_eq, forall₂_map_left_iff, forall₂_map_right_iff]
  refine hreads.flip.imp fun y x hx => ?_
  cases hx with
  | const v => rfl
  | known r v hv => exact (known_tableAt hc hknown i r v hv).symm
  | seen r hr => exact hr.exec_eq hstart (hl r)

/-- What is emitted gives a name the value of the version that is emitted last. -/
lemma Faithful.exec_eq (h : b.Faithful out) (n : ν) : exec env' (out.map Prod.fst) n =
    (lastWrite out n).elim (env' n) fun i => exec env (b.stmts.take (i + 1)) n := by
  induction out using reverseRecOn generalizing n with
  | nil => rfl
  | append_singleton out x ih =>
    obtain ⟨e, i⟩ := x
    obtain ⟨hout, he⟩ := faithful_concat.1 h
    have hl := ih hout
    have hin : ∀ stmt, b.stmts[i]? = some stmt → e.inputs (exec env' (out.map Prod.fst)) =
        stmt.inputs (exec env (b.stmts.take i)) :=
      fun _ hk => he.inputs_eq hc hknown hstart hk hl
    obtain ⟨stmt, hk, ⟨table, rfl⟩, -⟩ := he
    rw [map_append, map_singleton, exec_concat, lastWrite_concat, Stmt.writes_fold]
    split
    next hn =>
      rw [Stmt.exec_fold_of_mem hn (hin stmt hk), Option.elim_some, take_succ_of hk, exec_concat]
    next hn =>
      have hn : n ∉ (stmt.fold table).writes := by rwa [Stmt.writes_fold]
      rw [Stmt.exec_of_notMem hn, hl]

end

/-- The constants after the block. -/
def lastTable (b : Block ν V) : ν → Option V := b.tableAt b.stmts.length

/-- What is emitted does what the block does. -/
structure Preserves (b : Block ν V) (env' env : ν → V) : Prop where
  /-- No emitted statement sees a later write of one of its operands. -/
  faithful : b.Faithful b.final.out
  /-- The last write of a name that is still read is emitted, and last. -/
  settled : ∀ n, b.final.StillRead b.unit b.lastTable n → b.Sees b.final.out b.stmts.length n
  inputs : ∀ l e i m, b.final.out = l ++ (e, i) :: m → ∀ stmt, b.stmts[i]? = some stmt →
    e.inputs (exec env' (l.map Prod.fst)) = stmt.inputs (exec env (b.stmts.take i))
  values : ∀ n, b.final.StillRead b.unit b.lastTable n →
    exec env' (b.final.out.map Prod.fst) n = exec env b.stmts n

/-- No operation is hurt when it is emitted, and no constant that is declared `mut` after its last
write lost that write. -/
structure AllClear (b : Block ν V) : Prop where
  stmts : b.ClearFrom 0 b.start b.stmts
  muts : ∀ n ∈ b.final.mutDeclNames, (b.lastTable n).isSome →
    ¬b.Declared ((b.versionAt b.stmts.length n).getD 0) n →
    b.Sees b.final.out b.stmts.length n

/-- Every node is accounted for: a statement that is no operation is emitted in its place, an
operation once, unless it need not be. -/
structure Accounted (b : Block ν V) : Prop where
  once : (b.final.out.map Prod.snd).Nodup
  others : Block.others b.final.out = Block.others b.stmts.zipIdx
  dropped : ∀ i o, b.stmts[i]? = some (.op o) → i ∈ b.final.out.map Prod.snd ∨ b.Dropped i o

lemma final_spec (b : Block ν V) :
    b.Inv b.stmts.length b.stmts.length b.final ∧ b.Ledger b.stmts.length b.final ∧
    (b.Faithful b.final.out ↔ b.ClearFrom 0 b.start b.stmts) := by
  obtain ⟨htable, hs, hl, hiff⟩ :=
    steps_spec inv_start ledger_start b.stmts.length.zero_le drop_zero rfl
  have hnil : b.Faithful b.start.out := faithful_nil
  rw [and_iff_right hnil] at hiff
  refine ⟨?_, ?_, hiff⟩
  · rw [final, Pass.block]
    exact htable ▸ hs.foldl_flushOne le_rfl _
  · rw [final, Pass.block]
    exact htable ▸ hl.foldl_flushOne hs le_rfl _

lemma lookup_final (b : Block ν V) (n : ν) :
    b.final.pending.lookup n = none := Pass.lookup_flushAll n

lemma accounted (b : Block ν V) : b.Accounted := by
  obtain ⟨-, hl, -⟩ := b.final_spec
  refine ⟨hl.once, ?_, fun i o hio => ?_⟩
  · rw [hl.others, take_length]
  · refine (hl.kept i o (lt_length hio) hio).imp_right (or_iff_left ?_).1
    rw [lookup_final]
    exact nofun

/-- The names that are still read have their versions, if those that became `mut` late have. -/
lemma settled_iff (b : Block ν V) :
    (∀ n, b.final.StillRead b.unit b.lastTable n → b.Sees b.final.out b.stmts.length n) ↔
    ∀ n ∈ b.final.mutDeclNames, (b.lastTable n).isSome →
    ¬b.Declared ((b.versionAt b.stmts.length n).getD 0) n →
      b.Sees b.final.out b.stmts.length n := by
  constructor
  · intro h n hn _ _
    refine h n (.inl ?_)
    rw [← Bool.not_eq_true, Pass.comptimeDrop_eq_true, not_and]
    exact fun hno => absurd hn hno
  · rintro h n hn
    refine (b.final_spec.1.idle n (b.lookup_final n)).elim id fun hf => ?_
    have hsome : (b.lastTable n).isSome := or_self_iff.1 hf.1
    rcases hn with hn | hn
    · rw [← Bool.not_eq_true, Pass.comptimeDrop_eq_true, not_and_or, Classical.not_not] at hn
      exact h n (hn.resolve_right (not_not_intro hsome)) hsome hf.2.2
    · cases hn.symm.trans hf.2.1

end Block

/-! ## Operations on constants -/

def Operand.known (table : ν → Option V) : Operand ν V → Option V
  | ref name => table name
  | const value => some value

/-- The constant propagation that computes the operations with constant operands. -/
def foldConsts : Constprop ν V where
  op := fun o table => (o.operands.mapM (Operand.known table)).map o.fn
  barrier := fun _ _ _ => none
  keeps := fun _ _ => false

omit [LinearOrder ν] in
lemma foldConsts_sound : (foldConsts : Constprop ν V).Sound := by
  refine ⟨fun o table env hk v hv => ?_, nofun⟩
  obtain ⟨vs, hvs, rfl⟩ := map_eq_some_iff.1 hv
  refine congrArg o.fn (forall₂_eq_eq_eq ▸ forall₂_map_left_iff.2 ?_)
  refine (forall₂_of_mapM_eq_some hvs).imp fun x v hx => ?_
  cases x with
  | ref name => exact hk name v hx
  | const value => exact Option.some.inj hx

/-! ## Deciding -/

section

variable {b : Block ν V} {s : Pass ν V} {table : ν → Option V}

instance (u : Unit ν) (n : ν) :
    Decidable (s.StillRead u table n) := inferInstanceAs (Decidable (_ ∨ _))

instance (k : ℕ) (n : ν) : Decidable (b.Declared k n) := inferInstanceAs (Decidable (_ ∈ _))

instance (out : List (Stmt ν V × ℕ)) (k : ℕ) (n : ν) :
    Decidable (b.Sees out k n) := inferInstanceAs (Decidable (_ ∧ _))

variable [DecidableEq V]

instance (out : List (Stmt ν V × ℕ)) (i : ℕ) (r : ν) : Decidable (b.Unhurt out i table r) :=
  inferInstanceAs (Decidable (_ ∧ _))

instance (name : ν) : Decidable (b.FlushClear table s name) :=
  inferInstanceAs (Decidable (∀ x ∈ _, _))

instance decidableFlushesClear :
    ∀ (names : List ν) (s : Pass ν V), Decidable (b.FlushesClear table names s)
  | [], _ => isTrue trivial
  | name :: names, s =>
    have := decidableFlushesClear names (s.flushOne table name)
    inferInstanceAs (Decidable (_ ∧ _))

instance (k : ℕ) : ∀ stmt : Stmt ν V, Decidable (b.Clear k s stmt)
  | .op _ => inferInstanceAs (Decidable (_ ∧ _))
  | .barrier _ => inferInstanceAs (Decidable (_ ∧ _))
  | .declare _ _ => isTrue trivial

instance decidableClearFrom : ∀ (stmts : List (Stmt ν V)) (k : ℕ) (s : Pass ν V),
    Decidable (b.ClearFrom k s stmts)
  | [], _, _ => decidableFlushesClear _ _
  | stmt :: stmts, k, s =>
    have := decidableClearFrom stmts (k + 1) (s.step (b.tableAt (k + 1)) b.unit b.constprop k stmt)
    inferInstanceAs (Decidable (_ ∧ _))

end

/-- `lhs = rhs + k` -/
def addConst (lhs rhs : Char) (k : ℤ) : Stmt Char ℤ := .op ⟨lhs, [.ref rhs, .const k], List.sum⟩

/-- The inputs `x` and `y`. -/
def inputs : Char → ℤ
  | 'x' => 5
  | 'y' => 7
  | _ => 0

namespace Block

/-- `a = x; t = a + 1; a = y; o = t; a = o; check(a)` -/
def checked : Block Char ℤ where
  unit      := { forced := true }
  constprop := foldConsts
  stmts     := [addConst 'a' 'x' 0, addConst 't' 'a' 1, addConst 'a' 'y' 0, addConst 'o' 't' 0,
    addConst 'a' 'o' 0, .barrier ⟨[], [.ref 'a'], fun _ _ => 0⟩]

/-- `a = x; t = a + 1; a = y` -/
def overwritten : Block Char ℤ where
  unit      := { forced := true }
  constprop := foldConsts
  stmts     := [addConst 'a' 'x' 0, addConst 't' 'a' 1, addConst 'a' 'y' 0]

end Block

end LiveHD.Upass.Coalescer
