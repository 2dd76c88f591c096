import LiveHD.Aegraph.LayoutSound

/-!
# The context of a hand-written rule

`Ctx`, `Root` and `Results` of `runtime/match.hpp`.  A rule reads classes, asks the analyses and
builds e-nodes through a `Builder`.  Classes never change, so the e-graph is the one after the run.
-/

namespace LiveHD.Aegraph

open IntBits List Bool Option

/-- The e-node a rule rewrites. -/
structure Root where
  op : NtypeOp
  ops : List Operand
  cls : ClassId

/-- What a rule answers: a class that replaces the root, or one that joins it. -/
inductive Result where
  | subsume (c : ClassId)
  | add (c : ClassId)
deriving DecidableEq

def Result.cls : Result → ClassId
  | subsume c => c
  | add c => c

/-- What a rule needs from the engine, whose own state is `σ`. -/
structure Builder (σ : Type) where
  /-- Fold, normalise, hash-cons and rewrite one new e-node. -/
  make : NtypeOp → List Operand → StateM (AnalysisCache × σ) ClassId
  konst : ℤ → StateM (AnalysisCache × σ) ClassId
  /-- Whether a class has exactly one reader. -/
  singleUse : ClassId → σ → Bool

/-- The state of a rule run. -/
structure Run (σ : Type) where
  cache : AnalysisCache
  /-- The member visits that are left. -/
  fuel : ℕ
  engine : σ

abbrev RuleM (σ : Type) := StateM (Run σ)

variable {σ α : Type}

def ask (q : Query α) : RuleM σ α := fun s =>
  ((q.run s.cache).1, { s with cache := (q.run s.cache).2 })

def build (m : StateM (AnalysisCache × σ) α) : RuleM σ α := fun s =>
  ((m.run (s.cache, s.engine)).1,
    { s with cache := (m.run (s.cache, s.engine)).2.1, engine := (m.run (s.cache, s.engine)).2.2 })

def grantFuel (n : ℕ) : RuleM σ Unit := modify fun s => { s with fuel := s.fuel + n }

section

variable (eg : Egraph) (B : Builder σ)

def make (op : NtypeOp) (ops : List Operand) : RuleM σ ClassId := build (B.make op ops)

def konst (k : ℤ) : RuleM σ ClassId := build (B.konst k)

def singleUse (c : ClassId) : RuleM σ Bool := (fun s => B.singleUse c s.engine) <$> MonadState.get

/-- The identity of an n-ary operator. -/
def bankUnit (op : NtypeOp) : ℤ := if op = .and then -1 else if op = .mult then 1 else 0

/-- An n-ary operator over `ops`, with the degenerate cases folded. -/
def makeBank (op : NtypeOp) (ops : List Operand) : RuleM σ ClassId :=
  match ops with
  | [] => konst B (bankUnit op)
  | [o] => if op ≠ .sum ∨ o.bank = 0 then pure o.cls else make B op [o]
  | ops => make B op ops

def makeGetMask (x : ClassId) (lo hi : ℕ) : RuleM σ ClassId := do
  let l ← konst B lo
  let h ← konst B hi
  make B .getMask [⟨0, x⟩, ⟨2, l⟩, ⟨3, h⟩]

/-- Visit members until one is picked; also how many were visited. -/
def visit (pick : ClassId → RuleM σ (Option α)) : List ClassId → ℕ → RuleM σ (Option α × ℕ)
  | [], n => pure (none, n)
  | m :: ms, n => pick m >>= fun found => match found with
    | some a => pure (some a, n + 1)
    | none => visit pick ms (n + 1)

/-- `each_member`: all walks of a run share one fuel budget. -/
def eachMember (c : ClassId) (pick : ClassId → RuleM σ (Option α)) : RuleM σ (Option α) := do
  let s ← MonadState.get
  let r ← visit pick (eg.members c (min s.fuel 64)) 0
  modify fun s => { s with fuel := s.fuel - r.2 }
  pure r.1

/-- The first member that is an e-node with a property. -/
def memberNode (c : ClassId) (p : Enode → Bool) : RuleM σ (Option Enode) :=
  eachMember eg c fun m => pure ((eg.enodeOf m).filter p)

/-- A member e-node read as something. -/
def memberSome (c : ClassId) (read : Enode → Option α) : RuleM σ (Option α) :=
  eachMember eg c fun m => pure ((eg.enodeOf m).bind read)

/-- The operands of a node on banks 0 and 1, in this order. -/
def pair (ops : List Operand) : Option (ClassId × ClassId) := match ops with
  | [a, b] => if a.bank = 0 ∧ b.bank = 1 then some (a.cls, b.cls) else none
  | _ => none

/-- The value and the window of a `Get_mask` with operands on banks 0, 2 and 3. -/
def getMaskWindow (ops : List Operand) : Option (ClassId × ℕ × ℕ) := match ops with
  | [a, l, h] => if a.bank = 0 ∧ l.bank = 2 ∧ h.bank = 3 then do
      let l ← eg.constI64 l.cls
      let h ← eg.constI64 h.cls
      if 0 ≤ l ∧ l < h then some (a.cls, l.toNat, h.toNat) else none
    else none
  | _ => none

/-- `(source, lo, hi)` when a class has a `Get_mask` member with a constant window. -/
def sliceOf (c : ClassId) : RuleM σ (Option (ClassId × ℕ × ℕ)) :=
  memberSome eg c fun n => if n.op = .getMask then getMaskWindow eg n.operands else none

/-- A constant class of a value. -/
def isInt (c : ClassId) (v : ℤ) : Bool := match eg.cls c with
  | .konst k => isI64 k.val && k.val == v
  | _ => false

end

/-- Facts that put a value into `n` bits. -/
def Facts.fits (f : Facts) (n : ℕ) : Bool :=
  f.nonneg && decide (f.hi < kInf) && decide (f.hi ≤ 2 ^ min n 99 - 1)

/-! ## What a rule may rely on -/

section

variable {eg : Egraph} {ρ : Valuation eg} {B : Builder σ}

/-- The values of operands. -/
def Valuation.args (ρ : Valuation eg) (ops : List Operand) : List (ℕ × Option ℤ) :=
  ops.map fun o => (o.bank, ρ.val o.cls)

/-- A class with the value of a cell over some operands. -/
def Valuation.Is (ρ : Valuation eg) (c : ClassId) (op : NtypeOp) (ops : List Operand) : Prop :=
  ∀ v, Cell.evalOp op (ρ.args ops) = some v → ρ.val c = some v

/-- The engine builds classes of the right value, and what it asks leaves the cache sound. -/
structure Builder.Lawful (B : Builder σ) (ρ : Valuation eg) : Prop where
  make : ∀ op ops, Keeps (fun s => s.1.Sound ρ) (B.make op ops) fun c => ρ.Is c op ops
  konst : ∀ k, Keeps (fun s => s.1.Sound ρ) (B.konst k) fun c => ρ.val c = some k

/-- Sound facts and lane layouts. -/
structure SoundAnalyses (ρ : Valuation eg) : Prop where
  facts : ∀ depth c, Answers ρ c (factsRec eg depth c)
  layout : ∀ c, Keeps (AnalysisCache.Sound ρ) (layoutOf eg c) (Layout.Describes ρ · c)

lemma soundAnalyses_of (hsat : ∀ c, ¬SaturatesAt ρ c) (hco : eg.ConcatsFit) : SoundAnalyses ρ where
  facts := factsRec_answers hsat
  layout := layoutOf_keeps (Laid.sound (factsRec_answers hsat)) hco

/-- The invariant of a rule run. -/
def Run.Sound (ρ : Valuation eg) (s : Run σ) : Prop := s.cache.Sound ρ

lemma Valuation.Reads.evalOp {op : NtypeOp} (hop : Cell.isStrict op = true)
    {ops : List Operand} {l : List (ℕ × ℤ)}
    (h : ρ.Reads ops l) : Cell.evalOp op (ρ.args ops) = Cell.evalKnown op l := by
  have hk : Cell.known (ρ.args ops) = some l := by
    rw [Cell.known_eq_some, Valuation.args, forall₂_map_left_iff]
    exact h.imp fun o a ⟨hb, hv⟩ => by rw [hb, hv]
  rw [Cell.evalOp_of_strict hop, hk, bind_some]

lemma ask_keeps {q : Query α} {P : α → Prop} (h : Keeps (AnalysisCache.Sound ρ) q P) :
    Keeps (Run.Sound (σ := σ) ρ) (ask q) P := fun s hs => h s.cache hs

lemma build_keeps {m : StateM (AnalysisCache × σ) α} {P : α → Prop}
    (h : Keeps (fun s => s.1.Sound ρ) m P) :
    Keeps (Run.Sound ρ) (build m) P := fun s hs => h (s.cache, s.engine) hs

lemma singleUse_keeps (c : ClassId) : Keeps (Run.Sound ρ) (singleUse B c) fun _ => True :=
  Keeps.map Keeps.get fun _ _ => trivial

lemma grantFuel_keeps (n : ℕ) : Keeps (Run.Sound (σ := σ) ρ) (grantFuel n) fun _ => True :=
  Keeps.modify fun _ hs => hs

lemma visit_keeps {pick : ClassId → RuleM σ (Option α)} {P : ClassId → α → Prop} {ms : List ClassId}
    (h : ∀ m ∈ ms, Keeps (Run.Sound ρ) (pick m) fun r => ∀ a, r = some a → P m a) (n : ℕ) :
    Keeps (Run.Sound ρ) (visit pick ms n) fun r => ∀ a, r.1 = some a → ∃ m ∈ ms, P m a := by
  induction ms generalizing n with
  | nil => exact .pure fun a ha => by cases ha
  | cons m ms ih =>
    obtain ⟨hm, hms⟩ := forall_mem_cons.1 h
    refine .bind hm fun found hf => ?_
    cases found with
    | some a => exact .pure fun a' ha' => ⟨m, .head _, hf a' ha'⟩
    | none =>
      refine (ih hms (n + 1)).mono fun r hr a ha => ?_
      obtain ⟨m', hm', hP⟩ := hr a ha
      exact ⟨m', .tail _ hm', hP⟩

/-- What a member shows holds for a class of the same value. -/
lemma eachMember_keeps {c : ClassId} {pick : ClassId → RuleM σ (Option α)} {P : ClassId → α → Prop}
    (h : ∀ m, Keeps (Run.Sound ρ) (pick m) fun r => ∀ a, r = some a → P m a) :
    Keeps (Run.Sound ρ) (eachMember eg c pick) fun r =>
    ∀ a, r = some a → ∃ m, ρ.val m = ρ.val c ∧ P m a := by
  refine .bind Keeps.get fun s _ => .bind (visit_keeps (fun m _ => h m) 0) fun r hr => ?_
  refine .bind (P := fun _ => True) (.modify fun s hs => hs) fun _ _ => .pure fun a ha => ?_
  obtain ⟨m, hm, hP⟩ := hr a ha
  exact ⟨m, ρ.members hm, hP⟩

lemma memberNode_keeps (c : ClassId) (p : Enode → Bool) :
    Keeps (Run.Sound (σ := σ) ρ) (memberNode eg c p)
    fun r => ∀ n, r = some n → p n = true ∧ ρ.val c = Cell.evalOp n.op (ρ.args n.operands) := by
  refine (eachMember_keeps (P := fun m n => eg.enodeOf m = some n ∧ p n = true)
    fun m => .pure ?_).mono ?_
  · intro n hn
    exact filter_eq_some_iff.1 hn
  · intro r hr n hn
    obtain ⟨m, hm, hno, hp⟩ := hr n hn
    exact ⟨hp, hm.symm.trans (ρ.enodeOf hno)⟩

lemma memberSome_keeps (c : ClassId) (read : Enode → Option α) :
    Keeps (Run.Sound (σ := σ) ρ) (memberSome eg c read) fun r => ∀ a, r = some a →
      ∃ n, read n = some a ∧ ρ.val c = Cell.evalOp n.op (ρ.args n.operands) := by
  refine (eachMember_keeps (P := fun m a => ∃ n, eg.enodeOf m = some n ∧ read n = some a)
    fun m => .pure ?_).mono ?_
  · intro a ha
    exact bind_eq_some_iff.1 ha
  · intro r hr a ha
    obtain ⟨m, hm, n, hn, hrd⟩ := hr a ha
    exact ⟨n, hrd, hm.symm.trans (ρ.enodeOf hn)⟩

lemma getMaskWindow_val {ops : List Operand} {x : ClassId} {lo hi : ℕ}
    (h : getMaskWindow eg ops = some (x, lo, hi)) :
    lo < hi ∧ ∀ v, Cell.evalOp .getMask (ρ.args ops) = some v →
      ∃ y, ρ.val x = some y ∧ v = window y lo (hi - lo) := by
  unfold getMaskWindow at h
  split at h
  next a l h' =>
    split at h
    next hba =>
      simp only [bind_eq_bind, bind_eq_some_iff] at h
      obtain ⟨kl, hkl, kh, hkh, h⟩ := h
      split at h
      next hle =>
        obtain ⟨rfl, rfl, rfl⟩ : a.cls = x ∧ kl.toNat = lo ∧ kh.toNat = hi := by simpa using h
        refine ⟨by omega, fun v hv => ?_⟩
        rw [Valuation.args, map_cons, map_cons, map_cons, map_nil, hba.1, hba.2.1, hba.2.2,
          ρ.constI64 hkl, ρ.constI64 hkh] at hv
        cases hy : ρ.val a.cls with
        | none =>
          rw [hy] at hv
          cases hv
        | some y =>
          rw [hy, Cell.evalOp_getMask, Cell.bitRange_of hle.1 hle.2] at hv
          refine ⟨y, rfl, ?_⟩
          rw [show kh.toNat - kl.toNat = (kh - kl).toNat by omega]
          exact (Option.some.inj hv).symm
      · cases h
    · cases h
  · cases h

/-- A slice of a class is a window of its source. -/
lemma sliceOf_keeps (c : ClassId) : Keeps (Run.Sound (σ := σ) ρ) (sliceOf eg c) fun r => ∀ s lo hi,
    r = some (s, lo, hi) → lo < hi ∧ ∀ v, ρ.val c = some v → ∃ y, ρ.val s = some y ∧
    v = window y lo (hi - lo) := by
  refine (memberSome_keeps c _).mono fun r hr s lo hi hs => ?_
  obtain ⟨⟨op, ops⟩, hrd, hval⟩ := hr _ hs
  split at hrd
  next hop =>
    obtain rfl : op = .getMask := hop
    obtain ⟨hlt, hwin⟩ := getMaskWindow_val (ρ := ρ) hrd
    exact ⟨hlt, fun v hv => hwin v (hval.symm.trans hv)⟩
  · cases hrd

/-- The shifted class and the amount of a constant shift, and its value. -/
lemma pair_eq {ops : List Operand} {a b : ClassId} (h : pair ops = some (a, b)) :
    ops = [⟨0, a⟩, ⟨1, b⟩] := by
  unfold pair at h
  split at h
  next o o' =>
    split at h
    next hba =>
      cases (Option.some.inj h)
      rw [← hba.1, ← hba.2]
    · cases h
  · cases h

lemma shl_val {a b : ClassId} {k : ℕ} (hk : eg.constI64 b = some (k : ℤ)) {v : ℤ}
    (hv : Cell.evalOp .shl (ρ.args [⟨0, a⟩, ⟨1, b⟩]) = some v) :
    ∃ x, ρ.val a = some x ∧ v = x * 2 ^ k := by
  rw [Valuation.args, map_cons, map_cons, ρ.constI64 hk] at hv
  cases hx : ρ.val a with
  | none =>
    rw [hx] at hv
    cases hv
  | some x =>
    rw [hx] at hv
    exact ⟨x, rfl, (Option.some.inj hv).symm⟩

lemma isInt_val {c : ClassId} {k : ℤ} (h : isInt eg c k = true) : ρ.val c = some k := by
  unfold isInt at h
  split at h
  next k' hc =>
    rw [and_eq_true, beq_iff_eq] at h
    rw [ρ.konst c k' hc, h.2]
  · cases h

lemma Facts.Sound.lt_of_fits {f : Facts} {v : ℤ} (h : f.Sound v) {n : ℕ}
    (hf : f.fits n = true) : 0 ≤ v ∧ v < 2 ^ n := by
  simp only [Facts.fits, and_eq_true, decide_eq_true_eq] at hf
  obtain ⟨⟨hno, hinf⟩, hle⟩ := hf
  have hpow : (2 : ℤ) ^ min n 99 ≤ 2 ^ n := pow_le_pow_right₀ (by norm_num) (min_le_left _ _)
  exact ⟨h.nonneg hno, by linarith [h.hi hinf]⟩

section

variable (hB : B.Lawful ρ)
include hB

lemma make_keeps (op : NtypeOp) (ops : List Operand) :
    Keeps (Run.Sound ρ) (make B op ops) fun c => ρ.Is c op ops := build_keeps (hB.make op ops)

lemma konst_keeps (k : ℤ) : Keeps (Run.Sound ρ) (konst B k) fun c => ρ.val c = some k :=
  build_keeps (hB.konst k)

lemma makeGetMask_keeps (x : ClassId) {lo hi : ℕ} (h : lo < hi) :
    Keeps (Run.Sound ρ) (makeGetMask B x lo hi)
    fun c => ∀ y, ρ.val x = some y → ρ.val c = some (window y lo (hi - lo)) := by
  refine .bind (konst_keeps hB lo) fun l hl => .bind (konst_keeps hB hi) fun h' hh => ?_
  refine (make_keeps hB _ _).mono fun c hc y hy => hc _ ?_
  rw [Valuation.args, map_cons, map_cons, map_cons, map_nil, hl, hh, hy, Cell.evalOp_getMask,
    Cell.bitRange_of (Int.natCast_nonneg lo) (Int.ofNat_lt.2 h)]
  simp

/-- The operators `make_bank` is used with. -/
def isBank (op : NtypeOp) : Bool := op == .sum || op == .and || op == .or || op == .xor

lemma makeBank_keeps {op : NtypeOp} (hop : isBank op = true) (ops : List Operand) :
    Keeps (Run.Sound ρ) (makeBank B op ops) fun c => ρ.Is c op ops := by
  have hun : Cell.evalOp op [] = some (bankUnit op) := by
    cases op <;> first | rfl | cases hop
  unfold makeBank
  split
  · refine (konst_keeps hB _).mono fun c hc v hv => ?_
    rw [hc, ← hv]
    exact hun.symm
  next o =>
    refine .ite (fun ho => .pure fun v hv => ?_) fun _ => make_keeps hB op [o]
    rw [Valuation.args, map_cons] at hv
    cases hx : ρ.val o.cls with
    | none =>
      rw [hx] at hv
      cases op <;> first | cases hv | cases hop
    | some x =>
      rw [hx] at hv
      refine congrArg some (Option.some.inj (Eq.trans ?_ hv))
      cases op with
      | sum =>
        obtain ho := ho.resolve_left (by simp)
        simp [ho]
      | and => exact congrArg some (ext fun i => by simp)
      | or => exact congrArg some (ext fun i => by simp)
      | xor => exact congrArg some (ext fun i => by simp)
      | _ => cases hop
  · exact make_keeps hB op _

end

end

end LiveHD.Aegraph
