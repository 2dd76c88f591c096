import LiveHD.Upass.Coalescer
import LiveHD.Lib.Lists

/-!
# Versions of names

A version of a name is the statement that writes it last.  Whatever a block does, what is parked is
the last write of its name or one that a constant follows, and of a name that is not parked the last
write is emitted or a constant.
-/

namespace LiveHD.Upass.Coalescer

open Bool hiding not_or
open Function List Option

variable {ν V : Type*}

/-! ## What a statement reads -/

namespace Stmt

def operands : Stmt ν V → List (Operand ν V)
  | op o => o.operands
  | barrier b => b.operands
  | declare .. => []

/-- The values of the operands. -/
def inputs (env : ν → V) (stmt : Stmt ν V) : List V := stmt.operands.map (Operand.eval env)

def isOp : Stmt ν V → Bool
  | op _ => true
  | _ => false

/-- The name that a statement declares `mut`. -/
def mutName : Stmt ν V → Option ν
  | declare name true => some name
  | _ => none

variable {stmt : Stmt ν V} {table : ν → Option V} {env env' : ν → V} {r : ν}

lemma mem_refs : r ∈ stmt.refs ↔ .ref r ∈ stmt.operands := by
  have key (f : Operand ν V → Option ν) (hf : ∀ x, f x = some r ↔ x = .ref r)
      (xs : List (Operand ν V)) : r ∈ xs.filterMap f ↔ .ref r ∈ xs := by
    simp only [mem_filterMap, hf, exists_eq_right]
  cases stmt with
  | op o => exact key _ (fun x => by cases x <;> simp) o.operands
  | barrier b => exact key _ (fun x => by cases x <;> simp) b.operands
  | declare name isMut => exact iff_of_false not_mem_nil not_mem_nil

@[simp]
lemma writes_fold : (stmt.fold table).writes = stmt.writes := by cases stmt <;> rfl

@[simp]
lemma operands_fold : (stmt.fold table).operands = stmt.operands.map (Operand.fold table) := by
    cases stmt <;> rfl

@[simp]
lemma isOp_fold : (stmt.fold table).isOp = stmt.isOp := by cases stmt <;> rfl

variable [LinearOrder ν]

lemma exec_of_notMem (hr : r ∉ stmt.writes) : stmt.exec env r = env r := by
  cases stmt with
  | op o => exact update_of_ne (ne_of_not_mem_cons hr) _ _
  | barrier b => exact if_neg hr
  | declare name isMut => rfl

/-- What a statement writes is determined by what it reads. -/
lemma exec_fold_of_mem (hr : r ∈ stmt.writes)
    (h : (stmt.fold table).inputs env' = stmt.inputs env) :
    (stmt.fold table).exec env' r = stmt.exec env r := by
  cases stmt with
  | op o =>
    obtain rfl := mem_singleton.1 hr
    have heq : (o.fold table).eval env' = o.eval env := congrArg o.fn h
    change update env' o.lhs ((o.fold table).eval env') o.lhs = update env o.lhs (o.eval env) o.lhs
    rw [update_self, update_self, heq]
  | barrier b =>
    have heq : (b.fold table).eval env' = b.eval env := congrArg b.fn h
    exact (if_pos hr).trans ((congrFun heq r).trans (if_pos hr).symm)
  | declare name isMut => cases hr

end Stmt

variable [LinearOrder ν]

/-- The node of the last statement that writes a name. -/
def lastWrite (l : List (Stmt ν V × ℕ)) (name : ν) : Option ℕ :=
  l.foldl (fun last x => if x.1.writes.contains name then some x.2 else last) none

lemma lastWrite_concat (l : List (Stmt ν V × ℕ)) (stmt : Stmt ν V) (i : ℕ) (name : ν) :
    lastWrite (l ++ [(stmt, i)]) name = if name ∈ stmt.writes then some i
    else lastWrite l name := by
  rw [lastWrite, foldl_append, foldl_cons, foldl_nil]
  exact if_congr contains_iff_mem rfl rfl

lemma lastWrite_concat_op (l : List (Stmt ν V × ℕ)) (table : ν → Option V)
    (o : Op ν V) (i : ℕ) (name : ν) :
    lastWrite (l ++ [((Stmt.op o).fold table, i)]) name = if name = o.lhs then some i
    else lastWrite l name :=
  (lastWrite_concat _ _ _ _).trans (if_congr mem_singleton rfl rfl)

/-- A block as the pass meets it, with nothing parked. -/
structure Block (ν V : Type*) where
  unit : Unit ν
  constprop : Constprop ν V
  mutDeclNames : List ν := []
  table : ν → Option V := fun _ => none
  stmts : List (Stmt ν V)

namespace Block

variable (b : Block ν V)

/-! ## The source -/

/-- The constants before a node. -/
def tableAt (k : ℕ) : ν → Option V := (b.stmts.take k).foldl b.constprop.after b.table

/-- The last write of a name before a node. -/
def versionAt (k : ℕ) (name : ν) : Option ℕ := lastWrite (b.stmts.take k).zipIdx name

/-- The name is declared `mut` before a node. -/
def Declared (k : ℕ) (name : ν) : Prop :=
  name ∈ b.mutDeclNames ++ (b.stmts.take k).filterMap Stmt.mutName

/-- The pass before the block. -/
def start : Pass ν V := { mutDeclNames := b.mutDeclNames }

/-- The pass after the block. -/
def final : Pass ν V := Pass.block b.unit b.constprop b.start b.table b.stmts

/-- The name is a constant that was not declared `mut` when it was written last. -/
def Folded (k t : ℕ) (name : ν) : Prop :=
  ((b.tableAt k name).isSome ∨ (b.tableAt t name).isSome) ∧ b.unit.isBoundary name = false ∧
    ¬b.Declared ((b.versionAt k name).getD 0) name

end Block

/-- The name is still read: its reads are not folded, or it is that of an input or output. -/
def Pass.StillRead (s : Pass ν V) (u : Unit ν) (table : ν → Option V) (name : ν) : Prop :=
  s.comptimeDrop table name = false ∨ u.isBoundary name = true

namespace Block

variable {b : Block ν V} {stmt : Stmt ν V} {k t i j : ℕ} {n name r : ν}
  {o : Op ν V} {s s' : Pass ν V}
  {out l : List (Stmt ν V × ℕ)} {table : ν → Option V}

variable (b) in
/-- What has been emitted gives a name the version that it has before a node.  Without a write it
has its first value. -/
def Sees (out : List (Stmt ν V × ℕ)) (k : ℕ) (name : ν) : Prop :=
  lastWrite out name = b.versionAt k name ∧
    (b.versionAt k name = none → b.start.StillRead b.unit b.table name)

omit [LinearOrder ν] in
lemma lt_length (hk : b.stmts[k]? = some stmt) : k < b.stmts.length :=
  (List.getElem?_eq_some_iff.1 hk).1

omit [LinearOrder ν] in
lemma take_succ_of (hk : b.stmts[k]? = some stmt) :
    b.stmts.take (k + 1) = b.stmts.take k ++ [stmt] := by
  rw [take_add_one, hk]
  rfl

lemma tableAt_succ (hk : b.stmts[k]? = some stmt) :
    b.tableAt (k + 1) = b.constprop.after (b.tableAt k) stmt := by
  rw [tableAt, take_succ_of hk, foldl_append]
  rfl

lemma versionAt_succ (hk : b.stmts[k]? = some stmt) (name : ν) :
    b.versionAt (k + 1) name = if name ∈ stmt.writes then some k else b.versionAt k name := by
  rw [versionAt, take_succ_of hk, zipIdx_append, length_take_of_le (lt_length hk).le, Nat.zero_add]
  exact lastWrite_concat _ _ _ _

omit [LinearOrder ν] in
lemma declared_succ (hk : b.stmts[k]? = some stmt) (name : ν) :
    b.Declared (k + 1) name ↔ b.Declared k name ∨ stmt.mutName = some name := by
  rw [Declared, Declared, take_succ_of hk, filterMap_append, ← append_assoc,
    mem_append (s := _ ++ _), filterMap_cons]
  cases h : stmt.mutName with
  | none => simp
  | some m => simp [eq_comm]

lemma tableAt_succ_of_notMem (hk : b.stmts[k]? = some stmt) (hn : n ∉ stmt.writes) :
    b.tableAt (k + 1) n = b.tableAt k n := by
  rw [tableAt_succ hk]
  cases stmt with
  | op o => exact update_of_ne (ne_of_not_mem_cons hn) _ _
  | barrier q => exact if_neg hn
  | declare name isMut => rfl

omit [LinearOrder ν] in
lemma declared_mono (hjk : j ≤ k) (h : b.Declared j n) : b.Declared k n := by
  rcases mem_append.1 h with h | h
  · exact mem_append_left _ h
  · refine mem_append_right _ ?_
    rw [← take_append_drop j (b.stmts.take k), take_take, min_eq_left hjk, filterMap_append]
    exact mem_append_left _ h

lemma versionAt_lt (h : b.versionAt k n = some i) : i < k := by
  induction k with
  | zero => cases h
  | succ k ih =>
    cases hk : b.stmts[k]? with
    | none =>
      have htake : b.stmts.take (k + 1) = b.stmts.take k := by
        rw [take_add_one, hk]; exact append_nil _
      rw [versionAt, htake] at h
      exact (ih h).trans (Nat.lt_succ_self k)
    | some stmt =>
      rw [versionAt_succ hk] at h
      split at h
      · exact Option.some.inj h ▸ Nat.lt_succ_self k
      · exact (ih h).trans (Nat.lt_succ_self k)

lemma versionAt_getD_le (k : ℕ) (n : ν) : (b.versionAt k n).getD 0 ≤ k := by
  cases h : b.versionAt k n with
  | none => exact Nat.zero_le k
  | some i => exact (versionAt_lt h).le

lemma Folded.mono (h : b.Folded k k n) : b.Folded k t n := ⟨.inl (or_self_iff.1 h.1), h.2⟩

lemma Folded.succ (h : b.Folded k t n) (hk : b.stmts[k]? = some stmt) (hn : n ∉ stmt.writes)
    (ht : t = k ∨ t = k + 1) :
    b.Folded (k + 1) (k + 1) n := by
  refine ⟨.inl ?_, h.2.1, ?_⟩
  · rcases ht with rfl | rfl
    · exact tableAt_succ_of_notMem hk hn ▸ or_self_iff.1 h.1
    · exact h.1.elim (fun h => tableAt_succ_of_notMem hk hn ▸ h) id
  · rw [versionAt_succ hk, if_neg hn]
    exact h.2.2

lemma Sees.succ (h : b.Sees out k n) (hk : b.stmts[k]? = some stmt) (hn : n ∉ stmt.writes) :
    b.Sees out (k + 1) n := by
  rw [Sees, versionAt_succ hk, if_neg hn]
  exact h

end Block

/-! ## Flushes -/

namespace Pass

variable {s : Pass ν V} {table : ν → Option V} {n name : ν} {i : ℕ} {o : Op ν V}

lemma comptimeDrop_eq_true : s.comptimeDrop table n = true ↔
    n ∉ s.mutDeclNames ∧ (table n).isSome = true := by
  rw [comptimeDrop, and_eq_true, decide_eq_true_iff]

lemma lookup_filter_ne (l : List (ν × ℕ × Op ν V)) (name n : ν) :
    (l.filter (·.1 ≠ name)).lookup n = if n = name then none else l.lookup n := by
  induction l with
  | nil => simp
  | cons kv l ih =>
    obtain ⟨k, o⟩ := kv
    by_cases hk : k = name
    · subst hk
      rw [filter_cons_of_neg (by simp), ih, lookup_cons]
      by_cases hn : n = k
      · rw [if_pos hn, if_pos hn]
      · rw [if_neg hn, if_neg hn, beq_false_of_ne hn]
    · rw [filter_cons_of_pos (by simpa using hk), lookup_cons, ih, lookup_cons]
      by_cases hn : n = name
      · rw [if_pos hn, if_pos hn, beq_false_of_ne (hn ▸ Ne.symm hk)]
      · rw [if_neg hn, if_neg hn]

lemma flushOne_of_none (hp : s.pending.lookup name = none) :
    s.flushOne table name = s := by rw [flushOne, hp]

lemma lookup_flushOne (name n : ν) :
    (s.flushOne table name).pending.lookup n = if n = name then none else s.pending.lookup n := by
  rw [flushOne]
  split
  next hno =>
    split
    next hn => rw [hn, hno]
    · rfl
  · split
    · exact lookup_filter_ne _ _ _
    · exact lookup_filter_ne _ _ _

@[simp]
lemma mutDeclNames_flushOne (name : ν) : (s.flushOne table name).mutDeclNames = s.mutDeclNames := by
  rw [flushOne]
  split
  · rfl
  · split <;> rfl

lemma out_flushOne_of_drop (hp : s.pending.lookup name = some (i, o))
    (hd : s.comptimeDrop table name = true) :
    (s.flushOne table name).out = s.out := by
  rw [flushOne, hp]
  dsimp only
  rw [if_pos hd]

lemma out_flushOne_of_keep (hp : s.pending.lookup name = some (i, o))
    (hd : s.comptimeDrop table name = false) :
    (s.flushOne table name).out = s.out ++ [((Stmt.op o).fold table, i)] := by
  rw [flushOne, hp]
  dsimp only
  rw [hd, if_neg Bool.false_ne_true]
  rfl

lemma lookup_foldl_flushOne (names : List ν) (n : ν) :
    (names.foldl (fun s name => s.flushOne table name) s).pending.lookup n =
      if n ∈ names then none else s.pending.lookup n := by
  induction names generalizing s with
  | nil => rw [if_neg (not_mem_nil)]; rfl
  | cons name names ih =>
    rw [foldl_cons, ih, lookup_flushOne]
    by_cases hn : n = name
    · simp [hn]
    · simp [hn]

/-- The names that the reads of an operation flush. -/
def runtimeReads (table : ν → Option V)
    (o : Op ν V) : List ν := o.refs.filter fun r => (table r).isNone

/-- The names that everything parked is flushed by. -/
def parkedNames (s : Pass ν V) : List ν := (s.pending.map Prod.fst).insertionSort (· ≤ ·)

lemma flushReads_eq (o : Op ν V) :
    s.flushReads table o = (runtimeReads table o).foldl
    (fun s name => s.flushOne table name) s := by
  rw [flushReads, runtimeReads]
  generalize o.refs = refs
  induction refs generalizing s with
  | nil => rfl
  | cons r refs ih =>
    rw [foldl_cons, ih]
    cases hta : table r with
    | none =>
      rw [filter_cons_of_pos (by rw [hta]; rfl), foldl_cons, isSome_none, if_neg Bool.false_ne_true]
    | some v =>
      rw [filter_cons_of_neg (by rw [hta]; exact Bool.false_ne_true), isSome_some, if_pos rfl]

lemma lookup_flushReads {o : Op ν V} {r : ν} (hr : r ∈ o.refs) (hta : table r = none) :
    (s.flushReads table o).pending.lookup r = none := by
  rw [flushReads_eq, lookup_foldl_flushOne, if_pos]
  exact mem_filter.2 ⟨hr, by rw [hta]; rfl⟩

lemma lookup_flushAll (n : ν) : (s.flushAll table).pending.lookup n = none := by
  rw [flushAll, lookup_foldl_flushOne]
  split
  · rfl
  next hn =>
    rw [mem_insertionSort] at hn
    refine lookup_eq_none_iff.2 fun kv hkv => ?_
    have hne : n ≠ kv.1 := fun heq => hn (heq ▸ mem_map_of_mem hkv)
    simpa using hne

lemma lookup_parkCurrent (i : ℕ) (o : Op ν V) (n : ν) :
    (s.parkCurrent i o).pending.lookup n = if n = o.lhs then some (i, o)
    else s.pending.lookup n := by
  rw [parkCurrent, lookup_cons]
  by_cases hn : n = o.lhs
  · rw [if_pos hn, hn, beq_self_eq_true]
  · rw [if_neg hn, beq_false_of_ne hn]
    exact (lookup_filter_ne _ _ _).trans (if_neg hn)

end Pass

namespace Block

variable {b : Block ν V} {stmt : Stmt ν V} {k t i j : ℕ} {n name r : ν}
  {o : Op ν V} {s s' : Pass ν V}

/-! ## What is parked -/

/-- A parked operation of a name.  One that is not its last write is followed by a constant. -/
structure Parked (b : Block ν V) (k t : ℕ) (name : ν) (i : ℕ) (o : Op ν V) : Prop where
  node : b.stmts[i]? = some (.op o)
  lt : i < k
  lhs : o.lhs = name
  local' : b.unit.isBoundary name = false
  parks : (b.unit.forced || b.unit.repeatNames name) = true
  last : b.versionAt k name = some i ∨ b.Folded k t name

/-- The operands of a parked operation that are no constants around it: the versions that it reads
are emitted, unless later ones are. -/
def Waits (b : Block ν V) (s : Pass ν V) (name : ν) (i : ℕ) (o : Op ν V) : Prop :=
  ∀ r ∈ o.refs, b.tableAt i r = none → b.tableAt (i + 1) r = none →
    (b.Sees s.out i r ∨ ∃ j, i < j ∧ lastWrite s.out r = some j) ∧
      (r ≠ name → ∀ j p, s.pending.lookup r = some (j, p) → i < j)

/-- `k` statements are done; the constants are those after `t`. -/
structure Inv (b : Block ν V) (k t : ℕ) (s : Pass ν V) : Prop where
  muts : ∀ n, n ∈ s.mutDeclNames ↔ b.Declared t n
  parked : ∀ n i o, s.pending.lookup n = some (i, o) → b.Parked k t n i o
  idle : ∀ n, s.pending.lookup n = none → b.Sees s.out k n ∨ b.Folded k t n
  waits : ∀ n i o, s.pending.lookup n = some (i, o) → b.Waits s n i o

lemma inv_start : b.Inv 0 0 b.start := by
  refine ⟨fun n => ?_, nofun, fun n _ => ?_, nofun⟩
  · rw [Declared, take_zero, filterMap_nil, append_nil, start]
  · by_cases hn : b.start.StillRead b.unit b.table n
    · exact .inl ⟨rfl, fun _ => hn⟩
    · rw [Pass.StillRead, not_or, Bool.not_eq_false, Bool.not_eq_true,
        Pass.comptimeDrop_eq_true] at hn
      refine .inr ⟨.inl hn.1.2, hn.2, fun h => hn.1.1 ?_⟩
      change n ∈ b.mutDeclNames ++ (b.stmts.take 0).filterMap Stmt.mutName at h
      rwa [take_zero, filterMap_nil, append_nil] at h

/-- A write that is emitted is that of what was parked. -/
lemma lastWrite_flushOne (hlhs : ∀ i o, s.pending.lookup name = some (i, o) → o.lhs = name)
    {table : ν → Option V} (r : ν) :
    lastWrite (s.flushOne table name).out r = lastWrite s.out r ∨
      r = name ∧ ∃ i o, s.pending.lookup name = some (i, o) ∧
      lastWrite (s.flushOne table name).out r = some i := by
  cases hp : s.pending.lookup name with
  | none => rw [Pass.flushOne_of_none hp]; exact .inl rfl
  | some x =>
    obtain ⟨i, o⟩ := x
    cases hd : s.comptimeDrop table name with
    | true => rw [Pass.out_flushOne_of_drop hp hd]; exact .inl rfl
    | false =>
      rw [Pass.out_flushOne_of_keep hp hd, lastWrite_concat_op, hlhs i o hp]
      split
      next hr => exact .inr ⟨hr, i, o, rfl, rfl⟩
      · exact .inl rfl

lemma Inv.lhs (hs : b.Inv k t s)
    (hp : s.pending.lookup name = some (i, o)) : o.lhs = name := (hs.parked name i o hp).lhs

lemma Inv.not_declared (hs : b.Inv k t s) (hkt : k ≤ t) (hn : n ∉ s.mutDeclNames) :
    ¬b.Declared ((b.versionAt k n).getD 0) n := fun h =>
  hn ((hs.muts n).2 (declared_mono ((versionAt_getD_le k n).trans hkt) h))

lemma Inv.flushOne (hs : b.Inv k t s) (hkt : k ≤ t) (name : ν) :
    b.Inv k t (s.flushOne (b.tableAt t) name) := by
  have hlk : ∀ n, (s.flushOne (b.tableAt t) name).pending.lookup n = if n = name then none
      else s.pending.lookup n :=
    Pass.lookup_flushOne name
  have hlw : ∀ r, lastWrite (s.flushOne (b.tableAt t) name).out r = lastWrite s.out r ∨
      r = name ∧ ∃ i o, s.pending.lookup name = some (i, o) ∧
        lastWrite (s.flushOne (b.tableAt t) name).out r = some i :=
    lastWrite_flushOne fun i o hp => hs.lhs hp
  refine ⟨fun n => ?_, fun n i o hp => ?_, fun n hno => ?_, fun n i o hp r hr h₀ h₁ => ?_⟩
  · rw [Pass.mutDeclNames_flushOne]
    exact hs.muts n
  · rw [hlk] at hp
    split at hp
    · cases hp
    · exact hs.parked n i o hp
  · by_cases hn : n = name
    · subst hn
      cases hp : s.pending.lookup n with
      | none =>
        rw [Pass.flushOne_of_none hp]
        exact hs.idle n hp
      | some x =>
        obtain ⟨i, o⟩ := x
        have hpa := hs.parked n i o hp
        cases hd : s.comptimeDrop (b.tableAt t) n with
        | true =>
          rw [Pass.comptimeDrop_eq_true] at hd
          exact .inr ⟨.inr hd.2, hpa.local', hs.not_declared hkt hd.1⟩
        | false =>
          refine hpa.last.imp_left fun hv => ⟨?_, fun hno => ?_⟩
          · rw [Pass.out_flushOne_of_keep hp hd, lastWrite_concat_op, if_pos hpa.lhs.symm, hv]
          · rw [hv] at hno
            cases hno
    · rw [hlk, if_neg hn] at hno
      have heq : lastWrite (s.flushOne (b.tableAt t) name).out n = lastWrite s.out n :=
        (hlw n).resolve_right fun h => hn h.1
      exact (hs.idle n hno).imp_left fun h => ⟨heq.trans h.1, h.2⟩
  · rw [hlk] at hp
    split at hp
    · cases hp
    next hn =>
      obtain ⟨hsees, hlater⟩ := hs.waits n i o hp r hr h₀ h₁
      refine ⟨?_, fun hrn j p hrp => ?_⟩
      · rcases hlw r with heq | ⟨rfl, j, p, hrp, heq⟩
        · rw [Sees, heq]
          exact hsees
        · exact .inr ⟨j, hlater (Ne.symm hn) j p hrp, heq⟩
      · rw [hlk] at hrp
        split at hrp
        · cases hrp
        · exact hlater hrn j p hrp

lemma Inv.foldl_flushOne (hs : b.Inv k t s) (hkt : k ≤ t) (names : List ν) :
    b.Inv k t (names.foldl (fun s name => s.flushOne (b.tableAt t) name) s) := by
  induction names generalizing s with
  | nil => exact hs
  | cons name names ih => exact ih (hs.flushOne hkt name)

/-! ## Statements -/

/-- The constants are those after a statement, which is about to be executed. -/
lemma Inv.enter (hs : b.Inv k k s) (hk : b.stmts[k]? = some stmt)
    (hmut : stmt.mutName = none) : b.Inv k (k + 1) s := by
  refine ⟨fun n => ?_, fun n i o hp => ?_,
    fun n hno => (hs.idle n hno).imp_right Folded.mono, hs.waits⟩
  · rw [declared_succ hk, hmut, or_iff_left nofun]
    exact hs.muts n
  · have hpa := hs.parked n i o hp
    exact ⟨hpa.node, hpa.lt, hpa.lhs, hpa.local', hpa.parks, hpa.last.imp_right Folded.mono⟩

/-- A statement changes what is parked, emitted and constant of the names that it writes only. -/
lemma Inv.write (hs : b.Inv k t s) (ht : t = k ∨ t = k + 1) (hk : b.stmts[k]? = some stmt)
    (hmuts : ∀ n, n ∈ s'.mutDeclNames ↔ b.Declared (k + 1) n)
    (hpending : ∀ n ∉ stmt.writes, s'.pending.lookup n = s.pending.lookup n)
    (hout : ∀ n ∉ stmt.writes, lastWrite s'.out n = lastWrite s.out n)
    (hnew : ∀ n, lastWrite s'.out n = lastWrite s.out n ∨ lastWrite s'.out n = some k)
    (hparks : ∀ n i o, s'.pending.lookup n = some (i, o) → s.pending.lookup n = some (i, o) ∨
      i = k ∧ b.Waits s' n i o)
    (hparked : ∀ n ∈ stmt.writes, ∀ i o, s'.pending.lookup n = some (i, o) →
      b.Parked (k + 1) (k + 1) n i o)
    (hidle : ∀ n ∈ stmt.writes, s'.pending.lookup n = none → b.Sees s'.out (k + 1) n ∨
      b.Folded (k + 1) (k + 1) n) :
    b.Inv (k + 1) (k + 1) s' := by
  refine ⟨hmuts, fun n i o hp => ?_, fun n hno => ?_, fun n i o hp => ?_⟩
  · by_cases hn : n ∈ stmt.writes
    · exact hparked n hn i o hp
    · rw [hpending n hn] at hp
      have hpa := hs.parked n i o hp
      refine ⟨hpa.node, hpa.lt.trans (Nat.lt_succ_self k), hpa.lhs, hpa.local', hpa.parks, ?_⟩
      rw [versionAt_succ hk, if_neg hn]
      exact hpa.last.imp_right fun hf => hf.succ hk hn ht
  · by_cases hn : n ∈ stmt.writes
    · exact hidle n hn hno
    · rw [hpending n hn] at hno
      refine (hs.idle n hno).imp (fun h => ?_) fun hf => hf.succ hk hn ht
      rw [Sees, hout n hn]
      exact h.succ hk hn
  · rcases hparks n i o hp with hp | ⟨rfl, hwaits⟩
    · intro r hr h₀ h₁
      have hlt := (hs.parked n i o hp).lt
      obtain ⟨hsees, hlater⟩ := hs.waits n i o hp r hr h₀ h₁
      refine ⟨?_, fun hrn j p hrp => ?_⟩
      · rcases hnew r with heq | heq
        · rw [Sees, heq]
          exact hsees
        · exact .inr ⟨k, hlt, heq⟩
      · rcases hparks r j p hrp with hrp | ⟨rfl, -⟩
        · exact hlater hrn j p hrp
        · exact hlt
    · exact hwaits

section

variable (hs : b.Inv k k s)
include hs

/-- What an operation reads of what is parked is flushed first. -/
lemma Inv.flushReads (hk : b.stmts[k]? = some (.op o)) :
    b.Inv k (k + 1) (s.flushReads (b.tableAt (k + 1)) o) := by
  rw [Pass.flushReads_eq]
  exact (hs.enter hk rfl).foldl_flushOne k.le_succ _

lemma Inv.handleOp (hk : b.stmts[k]? = some (.op o)) :
    b.Inv (k + 1) (k + 1) (s.handleOp (b.tableAt (k + 1)) b.unit b.constprop k o) := by
  have hfl := hs.flushReads hk
  have hread : ∀ r ∈ o.refs, b.tableAt (k + 1) r = none →
      (s.flushReads (b.tableAt (k + 1)) o).pending.lookup r = none := fun r hr hno =>
      Pass.lookup_flushReads hr hno
  rw [Pass.handleOp]
  generalize s.flushReads (b.tableAt (k + 1)) o = s' at *
  have hversion : b.versionAt (k + 1) o.lhs = some k :=
    (versionAt_succ hk _).trans (if_pos (mem_singleton_self _))
  have hfolded : s'.comptimeDrop (b.tableAt (k + 1)) o.lhs = true →
      b.unit.isBoundary o.lhs = false →
      b.Folded (k + 1) (k + 1) o.lhs := by
    intro hd hbo
    rw [Pass.comptimeDrop_eq_true] at hd
    refine ⟨.inl hd.2, hbo, fun h => hd.1 ((hfl.muts _).2 (declared_mono ?_ h))⟩
    rw [hversion]
    exact k.le_succ
  split
  next hpa =>
    -- the operation is parked
    rw [Pass.parks, and_eq_true, and_eq_true, not_eq_true'] at hpa
    have hlk := Pass.lookup_parkCurrent (s := s') k o
    refine hfl.write (.inr rfl) hk hfl.muts (fun n hn => ?_) (fun _ _ => rfl)
      (fun _ => .inl rfl) (fun n i p hp => ?_)
      (fun n hn i p hp => ?_) fun n hn hno => ?_
    · rw [hlk, if_neg (ne_of_not_mem_cons hn)]
    · rw [hlk] at hp
      split at hp
      next hn =>
        cases hp
        subst hn
        refine .inr ⟨rfl, fun r hr h₀ h₁ => ⟨.inl ?_, fun hrn j q hrp => ?_⟩⟩
        · refine (hfl.idle r (hread r hr h₁)).resolve_right fun hf => ?_
          rw [Folded, h₀, h₁] at hf
          rcases hf.1 with h | h <;> cases h
        · rw [hlk, if_neg hrn, hread r hr h₁] at hrp
          cases hrp
      · exact .inl hp
    · obtain rfl := mem_singleton.1 hn
      rw [hlk, if_pos rfl] at hp
      cases hp
      exact ⟨hk, k.lt_succ_self, rfl, hpa.1.1, hpa.2, .inl hversion⟩
    · rw [hlk, if_pos (mem_singleton.1 hn)] at hno
      cases hno
  next hpa =>
    -- an older operation of the name that is still parked is followed by a constant
    have hold : ∀ n ∈ (Stmt.op o).writes, ∀ i p, s'.pending.lookup n = some (i, p) →
        b.Parked (k + 1) (k + 1) n i p := by
      intro n hn i p hp
      obtain rfl := mem_singleton.1 hn
      have hp' := hfl.parked _ i p hp
      refine ⟨hp'.node, hp'.lt.trans k.lt_succ_self, hp'.lhs, hp'.local', hp'.parks,
        .inr (hfolded ?_ hp'.local')⟩
      by_contra hd
      rw [Bool.not_eq_true] at hd
      rw [Pass.parks, hp'.local', hd, hp'.parks] at hpa
      exact hpa rfl
    split
    next hdr =>
      rw [Pass.drops, and_eq_true, and_eq_true, not_eq_true'] at hdr
      refine hfl.write (.inr rfl) hk hfl.muts (fun _ _ => rfl) (fun _ _ => rfl) (fun _ => .inl rfl)
        (fun _ _ _ hp => .inl hp) hold fun n hn _ => .inr ?_
      obtain rfl := mem_singleton.1 hn
      exact hfolded hdr.1.1 hdr.1.2
    · have hlw := lastWrite_concat_op s'.out (b.tableAt (k + 1)) o k
      refine hfl.write (.inr rfl) hk hfl.muts (fun _ _ => rfl) (fun n hn => ?_) (fun n => ?_)
        (fun _ _ _ hp => .inl hp) hold
        fun n hn _ => .inl ?_
      · exact (hlw n).trans (if_neg (ne_of_not_mem_cons hn))
      · by_cases hn : n = o.lhs
        · exact .inr ((hlw n).trans (if_pos hn))
        · exact .inl ((hlw n).trans (if_neg hn))
      · obtain rfl := mem_singleton.1 hn
        refine ⟨(hlw _).trans ((if_pos rfl).trans hversion.symm), fun hno => ?_⟩
        rw [hversion] at hno
        cases hno

lemma Inv.barrier {q : Barrier ν V} (hk : b.stmts[k]? = some (.barrier q)) :
    b.Inv (k + 1) (k + 1)
    ((s.flushAll (b.tableAt (k + 1))).emit (b.tableAt (k + 1)) k (.barrier q)) := by
  have hfl : b.Inv k (k + 1) (s.flushAll (b.tableAt (k + 1))) :=
    (hs.enter hk rfl).foldl_flushOne k.le_succ _
  have hno : ∀ n, (s.flushAll (b.tableAt (k + 1))).pending.lookup n = none := Pass.lookup_flushAll
  have hlw := lastWrite_concat (s.flushAll (b.tableAt (k + 1))).out
    ((Stmt.barrier q).fold (b.tableAt (k + 1))) k
  refine hfl.write (.inr rfl) hk hfl.muts (fun _ _ => rfl)
    (fun n hn => (hlw n).trans (if_neg hn)) (fun n => ?_)
    (fun n i p hp => ?_) (fun n hn i p hp => ?_) fun n hn _ => .inl ?_
  · by_cases hn : n ∈ q.writes
    · exact .inr ((hlw n).trans (if_pos hn))
    · exact .inl ((hlw n).trans (if_neg hn))
  · cases (hno n).symm.trans hp
  · cases (hno n).symm.trans hp
  · have hversion : b.versionAt (k + 1) n = some k := (versionAt_succ hk n).trans (if_pos hn)
    refine ⟨(hlw n).trans ((if_pos hn).trans hversion.symm), fun hno => ?_⟩
    rw [hversion] at hno
    cases hno

lemma Inv.declare {isMut : Bool} (hk : b.stmts[k]? = some (.declare name isMut)) :
    b.Inv (k + 1) (k + 1)
    (s.step (b.tableAt (k + 1)) b.unit b.constprop k (.declare name isMut)) := by
  refine hs.write (.inl rfl) hk (fun n => ?_) (fun _ _ => rfl)
    (fun n hn => lastWrite_concat _ _ _ _)
    (fun n => .inl (lastWrite_concat _ _ _ _)) (fun _ _ _ hp => .inl hp) nofun nofun
  rw [declared_succ hk, ← hs.muts]
  cases isMut with
  | false => exact (or_iff_left nofun).symm
  | true =>
    exact mem_cons.trans (or_comm.trans (or_congr_right (eq_comm.trans Option.some_inj.symm)))

lemma Inv.step (hk : b.stmts[k]? = some stmt) :
    b.Inv (k + 1) (k + 1) (s.step (b.tableAt (k + 1)) b.unit b.constprop k stmt) := by
  cases stmt with
  | op o => exact hs.handleOp hk
  | barrier q => exact hs.barrier hk
  | declare name isMut => exact hs.declare hk

end

end Block

end LiveHD.Upass.Coalescer
