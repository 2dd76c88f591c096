import LiveHD.Synth.Arith.Ops

/-!
# The five adders of `build_add`

`rca_add`, `cska_add`, `cla_add`, `prefix_add` and `brent_add` (`arith.hpp`).  A `for` loop over an
index is a fold over its range; the loops that double or halve a step recurse on the exponent.
-/

namespace LiveHD.Synth

open Function List BitAlgebra Carry Carry.Span Nat Ops

universe u v

inductive AdderKind where
  | rca | cska | cla
  /-- The source's `prefix`. -/
  | parallelPrefix
  | brent
deriving DecidableEq

structure AddResult (Bit : Type u) where
  sum : List Bit
  carryOut : Bit

section

variable {σ : Type*} {f : σ → ℕ → σ} {s : σ} (P : ℕ → σ → Prop)

/-- The loop rule: what each turn of a `for` loop preserves holds at its end. -/
lemma foldl_range'_rec {lo : ℕ} (n : ℕ) (h0 : P lo s)
    (hs : ∀ i, lo ≤ i → i < lo + n → ∀ t, P i t → P (i + 1) (f t i)) :
    P (lo + n) ((List.range' lo n).foldl f s) := by
  induction n with
  | zero => exact h0
  | succ n ih =>
    rw [range'_concat, foldl_append, mul_comm, mul_one]
    exact hs (lo + n) (le_add_right _ _) (lt_succ_self _) _
      (ih fun i hlo hi => hs i hlo (hi.trans (lt_succ_self _)))

lemma foldl_range_rec (n : ℕ) (h0 : P 0 s) (hs : ∀ i < n, ∀ t, P i t → P (i + 1) (f t i)) :
    P n ((List.range n).foldl f s) := by
  have := foldl_range'_rec P n h0 fun i _ hi => hs i (zero_add n ▸ hi)
  rwa [zero_add, ← range_eq_range'] at this

end

namespace Ops

variable {Bit : Type u} (ops : Ops Bit)

/-- `sum = a ^ b ^ cin`, `cout = (a & b) | (cin & (a ^ b))`. -/
def fullAdder (a b cin : Bit) : Bit × Bit :=
  let axb := ops.xor_ a b
  (ops.xor_ axb cin, ops.or_ (ops.and_ a b) (ops.and_ cin axb))

/-- One turn of the loop of `rca_add`. -/
def rcaStep (a b : List Bit) (r : AddResult Bit) (i : ℕ) : AddResult Bit :=
  let (s, c) := ops.fullAdder (ops.get a i) (ops.get b i) r.carryOut
  ⟨r.sum ++ [s], c⟩

/-- Ripple carry. -/
def rcaAdd (a b : List Bit) (cin : Bit) : AddResult Bit :=
  (List.range a.length).foldl (ops.rcaStep a b) ⟨[], cin⟩

/-- The first positions of the blocks of `blockSize` bits: `0, bs, 2 * bs, … < w`. -/
def blockBases (w blockSize : ℕ) : List ℕ :=
  (List.range ((w + blockSize - 1) / blockSize)).map (· * blockSize)

variable (a b : List Bit)

/-- One turn of the inner loop of `cska_add`; `pall` is unset before the first. -/
def cskaStep (s : AddResult Bit × Option Bit) (i : ℕ) : AddResult Bit × Option Bit :=
  let p := ops.xor_ (ops.get a i) (ops.get b i)
  (ops.rcaStep a b s.1 i, some (match s.2 with
    | none => p
    | some pall => ops.and_ pall p))

/-- One block of `cska_add`. -/
def cskaBlock (blockSize : ℕ) (r : AddResult Bit) (base : ℕ) : AddResult Bit :=
  let hi := min (base + blockSize) a.length
  let s := (List.range' base (hi - base)).foldl (ops.cskaStep a b) (r, none)
  -- ripple carry-out, or (all propagate and block carry-in)
  ⟨s.1.sum, ops.or_ s.1.carryOut (ops.and_ (s.2.getD ops.zero) r.carryOut)⟩

/-- Carry skip. -/
def cskaAdd (cin : Bit) (blockSize : ℕ) : AddResult Bit :=
  let blockSize := if blockSize < 1 then 1 else blockSize
  (blockBases a.length blockSize).foldl (ops.cskaBlock a b blockSize) ⟨[], cin⟩

/-- The generate and propagate vectors of an adder. -/
structure GP (Bit : Type u) where
  g : ℕ → Bit
  p : ℕ → Bit

/-- `g_i = a_i & b_i`, `p_i = a_i ^ b_i`. -/
def gp (a b : List Bit) : GP Bit where
  g i := ops.and_ (ops.get a i) (ops.get b i)
  p i := ops.xor_ (ops.get a i) (ops.get b i)

/-- The flattened group `acc, prodp` over positions `base + k` down to `base`. -/
def claGroup (v : GP Bit) (base k : ℕ) : Bit × Bit :=
  (List.range k).reverse.foldl
    (fun s j => (ops.or_ s.1 (ops.and_ s.2 (v.g (base + j))), ops.and_ s.2 (v.p (base + j))))
    (v.g (base + k), v.p (base + k))

/-- One position of a block of `cla_add`, `blockCin` being the carry into the block. -/
def claStep (v : GP Bit) (base : ℕ) (blockCin : Bit) (r : AddResult Bit) (k : ℕ) : AddResult Bit :=
  let s := ops.claGroup v base k
  ⟨r.sum ++ [ops.xor_ (v.p (base + k)) r.carryOut], ops.or_ s.1 (ops.and_ s.2 blockCin)⟩

/-- One block of `cla_add`. -/
def claBlock (a b : List Bit) (blockSize : ℕ) (r : AddResult Bit) (base : ℕ) : AddResult Bit :=
  let hi := min (base + blockSize) a.length
  (List.range (hi - base)).foldl (ops.claStep (ops.gp a b) base r.carryOut) r

/-- Carry lookahead. -/
def claAdd (a b : List Bit) (cin : Bit) (blockSize : ℕ) : AddResult Bit :=
  let blockSize := if blockSize < 1 then 1 else blockSize
  (blockBases a.length blockSize).foldl (ops.claBlock a b blockSize) ⟨[], cin⟩

/-- One round of `prefix_add`: every position reads the previous round. -/
def prefixRound (w distance : ℕ) (old : GP Bit) : GP Bit where
  g i := if distance ≤ i ∧ i < w then
    ops.or_ (old.g i) (ops.and_ (old.p i) (old.g (i - distance))) else old.g i
  p i := if distance ≤ i ∧ i < w then ops.and_ (old.p i) (old.p (i - distance)) else old.p i

/-- The rounds at distances `2 ^ k, 2 ^ (k + 1), … < w`. -/
def prefixRounds (w k : ℕ) (v : GP Bit) : GP Bit :=
  if 2 ^ k < w then prefixRounds w (k + 1) (ops.prefixRound w (2 ^ k) v) else v
termination_by w - 2 ^ k
decreasing_by
  have := Nat.two_pow_pos k
  rw [pow_succ]
  omega

/-- Parallel prefix. -/
def prefixAdd (a b : List Bit) (cin : Bit) : AddResult Bit :=
  let w := a.length
  if w = 0 then ⟨[], cin⟩
  else
    let bitP := (ops.gp a b).p
    let v := ops.prefixRounds w 0 (ops.gp a b)
    { sum := (List.range w).map fun i =>
        let carry := if i = 0 then cin else ops.or_ (v.g (i - 1)) (ops.and_ (v.p (i - 1)) cin)
        ops.xor_ (bitP i) carry
      carryOut := ops.or_ (v.g (w - 1)) (ops.and_ (v.p (w - 1)) cin) }

/-- `combine(hi, lo)` of `brent_add`, in place. -/
def combine (v : GP Bit) (hi lo : ℕ) : GP Bit where
  g := Function.update v.g hi (ops.or_ (v.g hi) (ops.and_ (v.p hi) (v.g lo)))
  p := update v.p hi (ops.and_ (v.p hi) (v.p lo))

/-- `for (; i < w; i += step) combine(i, i - step / 2)` with `step = 2 ^ (k + 1)`. -/
def brentLevel (w k i : ℕ) (v : GP Bit) : GP Bit :=
  if i < w then brentLevel w k (i + 2 ^ (k + 1)) (ops.combine v i (i - 2 ^ k)) else v
termination_by w - i
decreasing_by
  have := Nat.two_pow_pos (k + 1)
  omega

/-- The up-sweep from `step = 2 ^ (k + 1)` on, with the exponent of the step it stops at, less
one. -/
def brentUp (w k : ℕ) (v : GP Bit) : ℕ × GP Bit :=
  if 2 ^ k < w then brentUp w (k + 1) (ops.brentLevel w k (2 ^ (k + 1) - 1) v) else (k, v)
termination_by w - 2 ^ k
decreasing_by
  have := Nat.two_pow_pos k
  rw [pow_succ]
  omega

/-- The down-sweep from `step = 2 ^ k` to `step = 2`. -/
def brentDown (w : ℕ) : ℕ → GP Bit → GP Bit
  | 0, v => v
  | k + 1, v => brentDown w k (ops.brentLevel w k (3 * 2 ^ k - 1) v)

/-- Brent–Kung, with the carry-in folded into bit zero's generate. -/
def brentAdd (a b : List Bit) (cin : Bit) : AddResult Bit :=
  let w := a.length
  if w = 0 then ⟨[], cin⟩
  else
    let v := ops.gp a b
    let bitP := v.p
    let v := { v with g := Function.update v.g 0 (ops.or_ (v.g 0) (ops.and_ (v.p 0) cin)) }
    let up := ops.brentUp w 0 v
    let v := ops.brentDown w up.1 up.2
    { sum := (range w).map fun i => ops.xor_ (bitP i) (if i = 0 then cin else v.g (i - 1))
      carryOut := v.g (w - 1) }

/-- `build_add`. -/
def buildAdd (kind : AdderKind) (blockSize : ℕ) (a b : List Bit) (cin : Bit) : AddResult Bit :=
  match kind with
  | .cska => ops.cskaAdd a b cin blockSize
  | .cla => ops.claAdd a b cin blockSize
  | .parallelPrefix => ops.prefixAdd a b cin
  | .brent => ops.brentAdd a b cin
  | .rca => ops.rcaAdd a b cin

end Ops

/-! ## Blocks -/

variable {w : ℕ}

namespace Ops

/-- A loop over blocks: from a state at each block's base to one at its end. -/
lemma foldl_blockBases_rec {σ : Type*} {f : σ → ℕ → σ} {s : σ} (P : ℕ → σ → Prop) {bs : ℕ}
    (hbs : 0 < bs) (h0 : P 0 s)
    (hs : ∀ base < w, ∀ t, P base t → P (min (base + bs) w) (f t base)) :
    P w ((blockBases w bs).foldl f s) := by
  have key := foldl_range_rec (f := fun t k => f t (k * bs)) (s := s)
    (fun k t => P (min (k * bs) w) t)
    ((w + bs - 1) / bs) (by simpa using h0) ?_
  · have hle : w ≤ (w + bs - 1) / bs * bs := by
      have := lt_div_mul_add (a := w + bs - 1) hbs
      omega
    rw [blockBases, foldl_map]
    rwa [min_eq_right hle] at key
  · intro k hk t ht
    have hlt : k * bs < w := by
      have h1 : (k + 1) * bs ≤ w + bs - 1 := by rwa [← le_div_iff_mul_le hbs]
      rw [add_mul] at h1
      omega
    rw [min_eq_left hlt.le] at ht
    have := hs (k * bs) hlt t ht
    rwa [add_mul, one_mul]

end Ops

/-! ## The ripple specification

Each adder is compared with the carry chain: after position `i` the sum so far is
`Carry.sumBit` and the carry is `Carry.carry`. -/

namespace BitAlgebra

variable {Bit : Type u} {Env : Type v} (A : BitAlgebra Bit Env) (ρ : Env)
  (a b : List Bit) (cin : Bit)

/-- The carry into position `i` of `a + b + cin`. -/
def carry (i : ℕ) : Bool := Carry.carry (A.bit ρ a) (A.bit ρ b) (A.eval ρ cin) i

/-- The first `i` positions of an adder are done. -/
def Chain (i : ℕ) (r : AddResult Bit) : Prop :=
  r.sum.map (A.eval ρ) = (List.range i).map (Carry.sumBit (A.bit ρ a) (A.bit ρ b) (A.eval ρ cin)) ∧
    A.eval ρ r.carryOut = A.carry ρ a b cin i

variable {A ρ a b cin}

lemma Chain.init : A.Chain ρ a b cin 0 ⟨[], cin⟩ := ⟨rfl, rfl⟩

variable {r : AddResult Bit} {i : ℕ}

/-- A position done by any means: its sum bit and the carry out of it. -/
lemma Chain.snoc {s c : Bit} (h : A.Chain ρ a b cin i r)
    (hs : A.eval ρ s = ((A.bit ρ a i ^^ A.bit ρ b i) ^^ A.eval ρ r.carryOut))
    (hc : A.eval ρ c = A.carry ρ a b cin (i + 1)) :
    A.Chain ρ a b cin (i + 1) ⟨r.sum ++ [s], c⟩ := by
  refine ⟨?_, hc⟩
  rw [map_append, h.1, range_succ, map_append, map_singleton, map_singleton, hs, h.2]
  rfl

lemma Chain.rcaStep (h : A.Chain ρ a b cin i r) :
    A.Chain ρ a b cin (i + 1) (A.rcaStep a b r i) := by
  refine h.snoc ?_ ?_
  · simp only [eval_xor, bit]
  · simp only [eval_or, eval_and, eval_xor, h.2]
    rfl

/-! ### Carry skip -/

variable {base : ℕ}

/-- The inner loop of a block that started at `base`: `pall` says whether every
position so far propagates. -/
lemma cskaStep_chain {n : ℕ} (h : A.Chain ρ a b cin base r) :
    A.Chain ρ a b cin (base + n) ((range' base n).foldl (A.cskaStep a b) (r, none)).1 ∧
      ∀ q ∈ ((range' base n).foldl (A.cskaStep a b) (r, none)).2, A.eval ρ q =
      (span (spanAt (A.bit ρ a) (A.bit ρ b)) base n).prop := by
  have key := foldl_range'_rec (f := A.cskaStep a b) (s := (r, none))
    (fun i s => A.Chain ρ a b cin i s.1 ∧ (s.2 = none → i = base) ∧ ∀ q ∈ s.2,
      A.eval ρ q = (span (spanAt (A.bit ρ a) (A.bit ρ b)) base (i - base)).prop)
    n ⟨h, fun _ => rfl, by simp⟩ ?_
  · rw [Nat.add_sub_cancel_left] at key
    exact ⟨key.1, key.2.2⟩
  · rintro i hlo - ⟨t, pall⟩ ⟨ht, hno, hp⟩
    refine ⟨ht.rcaStep, fun hi => (Option.some_ne_none _ hi).elim, ?_⟩
    intro q hq
    rw [succ_sub hlo]
    simp only [Carry.span, Nat.add_sub_cancel' hlo]
    cases hq
    cases pall with
    | none =>
      obtain rfl := hno rfl
      simp [Carry.span, Carry.spanAt, bit]
    | some pall =>
      have := hp pall rfl
      rw [eval_and, this, Bool.and_comm, eval_xor]
      rfl

lemma cskaBlock_chain {bs : ℕ} (hba : base < a.length) (h : A.Chain ρ a b cin base r) :
    A.Chain ρ a b cin (min (base + bs) a.length) (A.cskaBlock a b bs r base) := by
  have hlen : base + (min (base + bs) a.length - base) = min (base + bs) a.length := by omega
  obtain ⟨hc, hpa⟩ := cskaStep_chain (n := min (base + bs) a.length - base) h
  rw [hlen] at hc
  refine ⟨hc.1, ?_⟩
  -- skipping only repeats what the ripple already carried
  have hsp : A.carry ρ a b cin (min (base + bs) a.length) = _ :=
    hlen ▸ Carry.carry_span (A.bit ρ a) (A.bit ρ b) (A.eval ρ cin) base _
  simp only [cskaBlock, eval_or, eval_and]
  rw [hc.2, h.2]
  cases hp : ((range' base (min (base + bs) a.length - base)).foldl
    (A.cskaStep a b) (r, none)).2 with
  | none => simp
  | some q =>
    rw [Option.getD_some, hpa q hp, hsp, out, carry, Bool.or_assoc, Bool.or_self]

lemma cskaAdd_chain (bs : ℕ) : A.Chain ρ a b cin a.length (A.cskaAdd a b cin bs) := by
  refine Ops.foldl_blockBases_rec (A.Chain ρ a b cin) ?_ .init fun base hba _ h =>
    cskaBlock_chain hba h
  split <;> omega

/-! ### Carry lookahead -/

/-- The span a pair of handles stands for. -/
def spanOf (A : BitAlgebra Bit Env) (ρ : Env) (v : Ops.GP Bit) (i : ℕ) : Carry.Span :=
  ⟨A.eval ρ (v.g i), A.eval ρ (v.p i)⟩

lemma spanOf_gp : A.spanOf ρ (A.gp a b) = Carry.spanAt (A.bit ρ a) (A.bit ρ b) := by
  funext i
  simp [spanOf, gp, spanAt, bit]

/-- The flattened lookahead of `claGroup` is the span of the block so far. -/
lemma claGroup_span (v : Ops.GP Bit) (base k : ℕ) :
    (⟨A.eval ρ (A.claGroup v base k).1, A.eval ρ (A.claGroup v base k).2⟩ : Carry.Span) = span
    (A.spanOf ρ v) base (k + 1) := by
  -- generalised over the part of the span already collected above position `n`
  have key : ∀ (n : ℕ) (s : Bit × Bit),
    (⟨A.eval ρ ((range n).reverse.foldl (fun s j => (A.or_ s.1 (A.and_ s.2 (v.g (base + j))),
          A.and_ s.2 (v.p (base + j)))) s).1,
        A.eval ρ ((range n).reverse.foldl (fun s j => (A.or_ s.1 (A.and_ s.2 (v.g (base + j))),
          A.and_ s.2 (v.p (base + j)))) s).2⟩ : Carry.Span) =
      comp ⟨A.eval ρ s.1, A.eval ρ s.2⟩ (Carry.span (A.spanOf ρ v) base n) := by
    intro n
    induction n with
    | zero => intro s; simp [Carry.span]
    | succ n ih =>
      intro s
      rw [range_succ, reverse_append, reverse_singleton, singleton_append, foldl_cons, ih,
        Carry.span, ← Carry.Span.comp_assoc]
      simp [Carry.Span.comp, spanOf]
  exact key k (v.g (base + k), v.p (base + k))

variable {k : ℕ}

lemma claStep_chain {blockCin : Bit} (hcin : A.eval ρ blockCin = A.carry ρ a b cin base)
    (h : A.Chain ρ a b cin (base + k) r) :
    A.Chain ρ a b cin (base + (k + 1)) (A.claStep (A.gp a b) base blockCin r k) := by
  have hsp := claGroup_span (A := A) (ρ := ρ) (A.gp a b) base k
  refine h.snoc ?_ ?_
  · simp [gp, bit]
  · rw [add_assoc, carry, carry_span, ← spanOf_gp, ← hsp, eval_or, eval_and, hcin]
    rfl

lemma claBlock_chain {bs : ℕ} (hba : base < a.length) (h : A.Chain ρ a b cin base r) :
    A.Chain ρ a b cin (min (base + bs) a.length) (A.claBlock a b bs r base) := by
  have hlen : base + (min (base + bs) a.length - base) = min (base + bs) a.length := by omega
  rw [← hlen]
  refine foldl_range_rec (fun k t => A.Chain ρ a b cin (base + k) t) _ ?_ fun k _ t ht =>
    claStep_chain h.2 ht
  exact h

lemma claAdd_chain (bs : ℕ) : A.Chain ρ a b cin a.length (A.claAdd a b cin bs) := by
  refine Ops.foldl_blockBases_rec (A.Chain ρ a b cin) ?_ .init fun base hba _ h =>
    claBlock_chain hba h
  split <;> omega

/-! ### Parallel prefix -/

variable {v : Ops.GP Bit}

/-- A network whose position `i` holds the span of all positions up to `i` yields
the carries. -/
lemma carry_of_prefix (h : A.spanOf ρ v i =
    Carry.span (Carry.spanAt (A.bit ρ a) (A.bit ρ b)) 0 (i + 1)) :
    A.eval ρ (A.or_ (v.g i) (A.and_ (v.p i) cin)) = A.carry ρ a b cin (i + 1) := by
  have := carry_span (A.bit ρ a) (A.bit ρ b) (A.eval ρ cin) 0 (i + 1)
  rw [zero_add] at this
  rw [carry, this, ← h, eval_or, eval_and]
  rfl

variable {f : ℕ → Carry.Span}

/-- Before the round at distance `2 ^ k`, position `i` holds the span of the last
`2 ^ k` positions up to `i`. -/
lemma prefixRounds_span (k : ℕ) (v : Ops.GP Bit)
    (h : ∀ i < w, A.spanOf ρ v i = span f (i + 1 - 2 ^ k) (min (i + 1) (2 ^ k))) :
    ∀ i < w, A.spanOf ρ (A.prefixRounds w k v) i = Carry.span f 0 (i + 1) := by
  induction k, v using prefixRounds.induct A.toOps w with
  | case1 k v hk ih =>
    rw [prefixRounds, if_pos hk]
    refine ih fun i hi => ?_
    have hpos := Nat.two_pow_pos k
    by_cases hd : 2 ^ k ≤ i
    · have hco : A.spanOf ρ (A.prefixRound w (2 ^ k) v) i =
          (A.spanOf ρ v i).comp (A.spanOf ρ v (i - 2 ^ k)) := by
        simp [spanOf, prefixRound, hd, hi, Carry.Span.comp]
      rw [hco, h i hi, h (i - 2 ^ k) (by omega)]
      have hlo : i + 1 - 2 ^ k = i + 1 - 2 ^ k * 2 + min (i - 2 ^ k + 1) (2 ^ k) := by omega
      have hlo' : i - 2 ^ k + 1 - 2 ^ k = i + 1 - 2 ^ k * 2 := by omega
      rw [hlo, hlo', ← span_add]
      congr 1
      omega
    · have hsa : A.spanOf ρ (A.prefixRound w (2 ^ k) v) i = A.spanOf ρ v i := by
        simp [spanOf, prefixRound, hd]
      rw [hsa, h i hi]
      congr 1 <;> omega
  | case2 k v hk =>
    intro i hi
    rw [prefixRounds, if_neg hk, h i hi]
    congr 1 <;> omega

lemma prefixAdd_chain : A.Chain ρ a b cin a.length (A.prefixAdd a b cin) := by
  by_cases hw : a.length = 0
  · rw [prefixAdd, hw]
    exact .init
  · have hsp := prefixRounds_span (A := A) (ρ := ρ)
      (f := spanAt (A.bit ρ a) (A.bit ρ b)) (w := a.length) 0 (A.gp a b)
      (fun i _ => by rw [spanOf_gp]; simp)
    rw [prefixAdd, if_neg hw]
    refine ⟨?_, ?_⟩
    · rw [map_map]
      refine map_congr_left fun i hi => ?_
      have hi := mem_range.1 hi
      rw [comp_apply, eval_xor]
      congr 1
      · simp [Ops.gp, bit]
      · cases i with
        | zero => rfl
        | succ i => exact carry_of_prefix (hsp i (by omega))
    · have hca : _ = A.carry ρ a b cin _ := carry_of_prefix (hsp (a.length - 1) (by omega))
      rwa [Nat.sub_add_cancel (Nat.pos_of_ne_zero hw)] at hca

/-! ### Brent–Kung -/

lemma combine_spanOf_self (v : Ops.GP Bit) (hi lo : ℕ) :
    A.spanOf ρ (A.combine v hi lo) hi = (A.spanOf ρ v hi).comp (A.spanOf ρ v lo) := by
  simp [spanOf, combine, Carry.Span.comp]

lemma combine_spanOf_of_ne (v : Ops.GP Bit) {hi lo : ℕ} (h : i ≠ hi) :
    A.spanOf ρ (A.combine v hi lo) i = A.spanOf ρ v i := by
  simp [spanOf, Ops.combine, h]

/-- One level of a sweep combines every position it visits with the one half a
step below; the positions it reads are not among those it writes. -/
lemma brentLevel_spanOf (v : Ops.GP Bit) (hi : 2 ^ k ≤ i) (j : ℕ) :
    A.spanOf ρ (A.brentLevel w k i v) j =
      if i ≤ j ∧ j < w ∧ (j - i) % 2 ^ (k + 1) = 0 then
        (A.spanOf ρ v j).comp (A.spanOf ρ v (j - 2 ^ k))
      else A.spanOf ρ v j := by
  have hpos := Nat.two_pow_pos k
  induction i, v using Ops.brentLevel.induct A.toOps w k with
  | case1 i v hlt ih =>
    rw [brentLevel, if_pos hlt, ih (by omega)]
    by_cases hji : j = i
    · subst hji
      rw [if_neg (by omega), if_pos ⟨le_rfl, hlt, by simp⟩, combine_spanOf_self]
    · by_cases hge : i + 2 ^ (k + 1) ≤ j
      · have hmod : (j - i) % 2 ^ (k + 1) = (j - (i + 2 ^ (k + 1))) % 2 ^ (k + 1) := by
          rw [← add_mod_right (j - (i + 2 ^ (k + 1)))]
          congr 1
          omega
        rw [combine_spanOf_of_ne v hji, combine_spanOf_of_ne v (by omega), hmod]
        refine if_congr ?_ rfl rfl
        constructor
        · rintro ⟨-, h2, h3⟩; exact ⟨by omega, h2, h3⟩
        · rintro ⟨-, h2, h3⟩; exact ⟨hge, h2, h3⟩
      · rw [if_neg (fun h => hge h.1), if_neg, combine_spanOf_of_ne v hji]
        rintro ⟨hle, -, h3⟩
        rw [mod_eq_of_lt (by omega)] at h3
        omega
  | case2 i v hge =>
    rw [brentLevel, if_neg hge, if_neg]
    omega

/-- Between the up-sweep's levels: a position holds the span of the largest aligned
block of at most `2 ^ k` positions that ends there. -/
def Aligned (A : BitAlgebra Bit Env) (ρ : Env) (f : ℕ → Carry.Span) (w k : ℕ)
    (v : Ops.GP Bit) : Prop :=
  ∀ i < w, ∀ t ≤ k, 2 ^ t ∣ i + 1 → t = k ∨ ¬2 ^ (t + 1) ∣ i + 1 →
    A.spanOf ρ v i = span f (i + 1 - 2 ^ t) (2 ^ t)

/-- The positions the level at `step = 2 ^ (k + 1)` of the up-sweep visits. -/
lemma up_visits {j : ℕ} : 2 ^ (k + 1) - 1 ≤ j ∧ (j - (2 ^ (k + 1) - 1)) % 2 ^ (k + 1) = 0 ↔
    2 ^ (k + 1) ∣ j + 1 := by
  constructor
  · rintro ⟨hle, hmod⟩
    have hd := Nat.dvd_of_mod_eq_zero hmod
    have : j + 1 = j - (2 ^ (k + 1) - 1) + 2 ^ (k + 1) := by omega
    rw [this]
    exact dvd_add hd (dvd_refl _)
  · intro hd
    have hle := le_of_dvd (succ_pos j) hd
    refine ⟨by omega, mod_eq_zero_of_dvd ?_⟩
    have : j - (2 ^ (k + 1) - 1) = j + 1 - 2 ^ (k + 1) := by omega
    rw [this]
    exact dvd_sub hd (dvd_refl _)

lemma Aligned.level (h : A.Aligned ρ f w k v) :
    A.Aligned ρ f w (k + 1) (A.brentLevel w k (2 ^ (k + 1) - 1) v) := by
  have hst := pow_succ 2 k
  intro i hi t ht hdvd hmax
  rw [brentLevel_spanOf v (by omega)]
  rcases lt_or_eq_of_le ht with hlt | rfl
  · -- not visited: the block of `i` is complete already
    have hnd := hmax.resolve_left hlt.ne
    rw [if_neg, h i hi t (le_of_lt_succ hlt) hdvd (.inr hnd)]
    rintro ⟨hle, -, hmod⟩
    exact hnd ((pow_dvd_pow 2 hlt).trans (up_visits.1 ⟨hle, hmod⟩))
  · obtain ⟨hle, hmod⟩ := up_visits.2 hdvd
    have hdv' := (pow_dvd_pow 2 (le_succ k)).trans hdvd
    have hlo : 2 ^ k ∣ i - 2 ^ k + 1 := by
      have : i - 2 ^ k + 1 = i + 1 - 2 ^ k := by omega
      rw [this]
      exact dvd_sub hdv' (dvd_refl _)
    rw [if_pos ⟨hle, hi, hmod⟩, h i hi k le_rfl hdv' (.inl rfl),
      h (i - 2 ^ k) (by omega) k le_rfl hlo (.inl rfl)]
    have e1 : i - 2 ^ k + 1 - 2 ^ k = i + 1 - 2 ^ (k + 1) := by omega
    have e2 : i + 1 - 2 ^ k = i + 1 - 2 ^ (k + 1) + 2 ^ k := by omega
    rw [e1, e2, ← span_add, hst, mul_two]

lemma brentUp_aligned (k : ℕ) (v : Ops.GP Bit) (h : A.Aligned ρ f w k v) :
    A.Aligned ρ f w (A.brentUp w k v).1 (A.brentUp w k v).2 ∧ w ≤ 2 ^ (A.brentUp w k v).1 := by
  induction k, v using Ops.brentUp.induct A.toOps w with
  | case1 k v hk ih =>
    rw [brentUp, if_pos hk]
    exact ih h.level
  | case2 k v hk =>
    rw [brentUp, if_neg hk]
    exact ⟨h, Nat.not_lt.1 hk⟩

/-- Between the down-sweep's levels: the ends of blocks of `2 ^ k` hold the whole
prefix, the other positions their block. -/
structure Filled (A : BitAlgebra Bit Env) (ρ : Env) (f : ℕ → Carry.Span) (w k : ℕ)
    (v : Ops.GP Bit) : Prop where
  full : ∀ i < w, 2 ^ k ∣ i + 1 → A.spanOf ρ v i = span f 0 (i + 1)
  block : ∀ i < w, ∀ t < k, 2 ^ t ∣ i + 1 → ¬2 ^ (t + 1) ∣ i + 1 →
    A.spanOf ρ v i = Carry.span f (i + 1 - 2 ^ t) (2 ^ t)

lemma Aligned.filled (h : A.Aligned ρ f w k v) (hw : w ≤ 2 ^ k) : A.Filled ρ f w k v where
  full i hi hd := by
    have hle := le_of_dvd (succ_pos i) hd
    have heq : i + 1 = 2 ^ k := by omega
    rw [h i hi k le_rfl hd (.inl rfl), heq, Nat.sub_self]
  block i hi t ht hd hn := h i hi t ht.le hd (.inr hn)

/-- The positions the level at `step = 2 ^ (k + 1)` of the down-sweep visits: the
odd multiples of `2 ^ k` but the first. -/
lemma down_visits {j : ℕ} (hlt : 2 ^ k < j + 1) :
    3 * 2 ^ k - 1 ≤ j ∧ (j - (3 * 2 ^ k - 1)) % 2 ^ (k + 1) = 0 ↔
      2 ^ k ∣ j + 1 ∧ ¬2 ^ (k + 1) ∣ j + 1 := by
  have hpos := Nat.two_pow_pos k
  have hst := pow_succ 2 k
  constructor
  · rintro ⟨hle, hmod⟩
    obtain ⟨m, hm⟩ := Nat.dvd_of_mod_eq_zero hmod
    rw [hst, mul_assoc] at hm
    have hj : j + 1 = 2 ^ k * (2 * m + 3) := by rw [mul_add]; omega
    rw [hj]
    refine ⟨Dvd.intro _ rfl, fun hd => ?_⟩
    have := Nat.dvd_of_mul_dvd_mul_left hpos hd
    omega
  · rintro ⟨⟨n, hn⟩, hnd⟩
    have hodd : n % 2 = 1 := by
      rcases mod_two_eq_zero_or_one n with h0 | h1
      · refine absurd ?_ hnd
        rw [hn]
        exact mul_dvd_mul_left _ (dvd_of_mod_eq_zero h0)
      · exact h1
    have hn1 : n ≠ 1 := by
      rintro rfl
      omega
    obtain ⟨m, rfl⟩ : ∃ m, n = 2 * m + 3 := ⟨(n - 3) / 2, by omega⟩
    rw [mul_add] at hn
    refine ⟨by omega, mod_eq_zero_of_dvd ⟨m, ?_⟩⟩
    rw [hst, mul_assoc]
    omega

lemma Filled.level (h : A.Filled ρ f w (k + 1) v) :
    A.Filled ρ f w k (A.brentLevel w k (3 * 2 ^ k - 1) v) := by
  constructor
  · intro i hi hd
    rw [brentLevel_spanOf v (by omega)]
    have hle := le_of_dvd (succ_pos i) hd
    by_cases hd' : 2 ^ (k + 1) ∣ i + 1
    · rw [if_neg, h.full i hi hd']
      rintro ⟨h1, -, h3⟩
      exact ((down_visits (by omega)).1 ⟨h1, h3⟩).2 hd'
    · by_cases hfi : i + 1 = 2 ^ k
      · rw [if_neg (by omega), h.block i hi k (lt_succ_self k) hd hd', hfi, Nat.sub_self]
      · obtain ⟨h1, h3⟩ := (down_visits (k := k) (j := i) (by omega)).2 ⟨hd, hd'⟩
        have hlo : 2 ^ (k + 1) ∣ i - 2 ^ k + 1 := by
          obtain ⟨m, hm⟩ := dvd_of_mod_eq_zero h3
          refine ⟨m + 1, ?_⟩
          rw [mul_add]
          omega
        rw [if_pos ⟨h1, hi, h3⟩, h.block i hi k (lt_succ_self k) hd hd',
          h.full (i - 2 ^ k) (by omega) hlo]
        have e : i + 1 - 2 ^ k = 0 + (i - 2 ^ k + 1) := by omega
        rw [e, ← span_add]
        congr 1
        omega
  · intro i hi t ht hd hnd
    rw [brentLevel_spanOf v (by omega), if_neg, h.block i hi t (ht.trans (lt_succ_self k)) hd hnd]
    rintro ⟨h1, -, h3⟩
    exact hnd ((pow_dvd_pow 2 ht).trans ((down_visits (by omega)).1 ⟨h1, h3⟩).1)

lemma brentDown_span (k : ℕ) (v : Ops.GP Bit)
    (h : A.Filled ρ f w k v) : ∀ i < w, A.spanOf ρ (A.brentDown w k v) i =
    Carry.span f 0 (i + 1) := by
  induction k generalizing v with
  | zero => exact fun i hi => h.full i hi (one_dvd _)
  | succ k ih => exact ih _ h.level

/-- Folding the carry-in into the first generate makes the spans generate the carries. -/
lemma span_gen_carry (x y : ℕ → Bool) (c : Bool) (i : ℕ)
    (h0 : f 0 = ⟨(spanAt x y 0).out c, (spanAt x y 0).prop⟩)
    (hf : ∀ i, 0 < i → f i = spanAt x y i) :
    (Carry.span f 0 (i + 1)).gen = Carry.carry x y c (i + 1) := by
  induction i with
  | zero => rw [span_one, h0, carry_succ]; rfl
  | succ i ih =>
    rw [Carry.span, zero_add, hf (i + 1) (succ_pos i), carry_succ, ← ih]
    rfl

lemma brentAdd_chain : A.Chain ρ a b cin a.length (A.brentAdd a b cin) := by
  by_cases hw : a.length = 0
  · rw [brentAdd, hw]
    exact .init
  · rw [brentAdd, if_neg hw]
    set v : Ops.GP Bit := { A.gp a b with
      g := update (A.gp a b).g 0 (A.or_ ((A.gp a b).g 0) (A.and_ ((A.gp a b).p 0) cin)) }
      with hv
    have h0 : A.spanOf ρ v 0 = ⟨(Carry.spanAt (A.bit ρ a) (A.bit ρ b) 0).out (A.eval ρ cin),
        (spanAt (A.bit ρ a) (A.bit ρ b) 0).prop⟩ := by
      rw [← spanOf_gp]
      simp [spanOf, hv, out]
    have hf : ∀ i, 0 < i → A.spanOf ρ v i = spanAt (A.bit ρ a) (A.bit ρ b) i := by
      intro i hi
      rw [← spanOf_gp]
      simp [spanOf, hv, hi.ne']
    have hup := brentUp_aligned (A := A) (ρ := ρ) (f := A.spanOf ρ v) (w := a.length) 0 v (by
      intro i _ t ht _ _
      obtain rfl := le_zero.1 ht
      simp)
    have hdo := brentDown_span _ _ (hup.1.filled hup.2)
    have hca : ∀ i < a.length, A.eval ρ
          ((A.brentDown a.length (A.brentUp a.length 0 v).1 (A.brentUp a.length 0 v).2).g i) =
          A.carry ρ a b cin (i + 1) := by
      intro i hi
      rw [carry, ← span_gen_carry _ _ _ i h0 hf, ← hdo i hi]
      rfl
    refine ⟨?_, ?_⟩
    · rw [map_map]
      refine map_congr_left fun i hi => ?_
      have hi := mem_range.1 hi
      rw [comp_apply, eval_xor]
      congr 1
      · simp [gp, bit]
      · cases i with
        | zero => rfl
        | succ i => exact hca i (by omega)
    · have := hca (a.length - 1) (by omega)
      rwa [Nat.sub_add_cancel (Nat.pos_of_ne_zero hw)] at this

/-! ### Every architecture -/

lemma buildAdd_chain (kind : AdderKind) (bs : ℕ) :
    A.Chain ρ a b cin a.length (A.buildAdd kind bs a b cin) := by
  cases kind with
  | rca => exact foldl_range_rec (A.Chain ρ a b cin) a.length .init fun _ _ _ h => h.rcaStep
  | cska => exact cskaAdd_chain bs
  | cla => exact claAdd_chain bs
  | parallelPrefix => exact prefixAdd_chain
  | brent => exact brentAdd_chain

end BitAlgebra

/-- Whatever the architecture, block size and assignment, an adder computes
`a + b + cin`: the sum vector is its residue and the carry-out its bit `w`. -/
theorem buildAdd_value {Bit : Type u} {Env : Type v} (A : BitAlgebra Bit Env) (kind : AdderKind)
    (blockSize : ℕ) (a b : List Bit) (cin : Bit) (h : b.length = a.length) (ρ : Env) :
    (A.buildAdd kind blockSize a b cin).sum.length = a.length ∧
    A.value ρ (A.buildAdd kind blockSize a b cin).sum =
    (A.value ρ a + A.value ρ b + (A.eval ρ cin).toNat) % 2 ^ a.length ∧
    A.eval ρ (A.buildAdd kind blockSize a b cin).carryOut =
    (A.value ρ a + A.value ρ b + (A.eval ρ cin).toNat).testBit a.length := by
  have hchain : A.Chain ρ a b cin a.length (A.buildAdd kind blockSize a b cin) :=
    buildAdd_chain kind blockSize
  obtain ⟨hsum, hcarry⟩ := hchain
  refine ⟨length_of_map_eq hsum, ?_, ?_⟩
  · rw [value_of_map_eq hsum, sumBit_mod, value_eq h.le]
    rfl
  · rw [hcarry, BitAlgebra.carry, Carry.carry_testBit, BitAlgebra.value_eq h.le]
    rfl

theorem buildAdd_value_brent : [false, true, true].length = [true, true, true].length ∧
    (boolAlgebra.buildAdd .brent 1 [true, true, true] [false, true, true] true).sum.length = 3 ∧
    boolAlgebra.value () (boolAlgebra.buildAdd .brent 1 [true, true, true] [false, true, true]
      true).sum = (7 + 6 + 1) % 8 ∧
    boolAlgebra.eval ()
    (boolAlgebra.buildAdd .brent 1 [true, true, true] [false, true, true] true).carryOut =
      Nat.testBit (7 + 6 + 1) 3 :=
  ⟨rfl, buildAdd_value boolAlgebra .brent 1 [true, true, true] [false, true, true] true rfl ()⟩

end LiveHD.Synth
