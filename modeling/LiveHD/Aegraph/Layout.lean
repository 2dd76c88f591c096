import LiveHD.Aegraph.UnsignedBits

/-!
# Lane layouts

The layouts of `runtime/analyses.cpp`: bits `[lo, hi)` of a class are bits of another
class or zero, from `Concat`, `Set_mask` chains, constant shifts and `Or`/`Sum` of
disjoint shifted fields.  First the questions as the source asks them, then that each way
to build a layout keeps its lanes contiguous.
-/

namespace LiveHD.Aegraph

open IntBits List Lane

def kMaxLayoutLanes : ℕ := 256

/-- The layout of a class without structure. -/
def identityLayout (c : ClassId) : Layout := [⟨0, kLaneInf, some c, 0⟩]

/-- Lanes by their first bit. -/
def sortLanes (L : Layout) : Layout := L.insertionSort fun a b => a.lo ≤ b.lo

/-- The parts of `b` outside the window of `lane`. -/
def Lane.outside (lane b : Lane) : Layout :=
  if b.hi ≤ lane.lo ∨ lane.hi ≤ b.lo then [b]
  else (if b.lo < lane.lo then [{ b with hi := lane.lo }] else []) ++
    if lane.hi < b.hi then [{ b with lo := lane.hi, off := b.off + (lane.hi - b.lo) }] else []

/-- Replace the window of `lane` in `base`. -/
def overlay (base : Layout) (lane : Lane) : Layout :=
  sortLanes (base.flatMap lane.outside ++ [lane])

/-- The lane list of a `Concat` whose lanes end at bit `off`, most significant lane first. -/
def concatAt : ℕ → List (ClassId × ℕ) → Layout
  | _, [] => []
  | off, (c, w) :: lanes => ⟨(off - w : ℕ), off, some c, 0⟩ :: concatAt (off - w) lanes

/-- The width of the lanes of a `Concat`. -/
def lanesWidth (lanes : List (ClassId × ℕ)) : ℕ := (lanes.map (·.2)).sum

/-- A `Concat` is non-negative: above its lanes it is zero. -/
def concatLayout (lanes : List (ClassId × ℕ)) : Layout :=
  sortLanes (concatAt (lanesWidth lanes) lanes) ++ [⟨lanesWidth lanes, kLaneInf, none, 0⟩]

/-- A lane moved down by `k` bits. -/
def Lane.lowered (k : ℤ) (l : Lane) : Lane where
  lo := max (l.lo - k) 0
  hi := if l.hi = kLaneInf then kLaneInf else l.hi - k
  src := l.src
  off := if l.src = none then 0 else l.off + (max (l.lo - k) 0 + k - l.lo)

/-- The part of a lane that is left above the `k` lowest bits. -/
def Lane.lower (k : ℤ) (l : Lane) : Option Lane :=
  if l.hi ≠ kLaneInf ∧ l.hi ≤ k then none else some (l.lowered k)

section

variable (eg : Egraph)

/-- The value and the amount of a shift by a positive constant. -/
def constShift (ops : List Operand) : Option (ClassId × ℕ) := do
  let (a, b) ← binary ops
  let k ← eg.constAmount b kMaxLaneBit
  if 0 < k then some (a, k) else none

/-- `(H, k)` for a member `SHL(H, k)` of a class. -/
def shlOf (c : ClassId) : Option (ClassId × ℕ) := (eg.members c 8).findSome? fun m =>
  (eg.enodeOf m).bind fun n => if n.op = .shl then constShift eg n.operands else none

/-- The fields `(class, shift)` of an `Or` or `Sum`; at most one of them is not shifted. -/
def packedFields : Bool → List Operand → Option (List (ClassId × ℕ))
  | _, [] => some []
  | ha, o :: ops =>
    if o.bank ≠ 0 then none
    else if eg.constI64 o.cls = some 0 then packedFields ha ops
    else match shlOf eg o.cls with
      | some field => (packedFields ha ops).map (field :: ·)
      | none => if ha then none else (packedFields true ops).map ((o.cls, 0) :: ·)

/-- Whether a field fits the bits below the next one. -/
def fieldFits (c : ClassId) (width : ℕ) : Query Bool := factsOf eg c >>= fun g =>
  if g.nonneg = true ∧ g.hi < kInf then pure (decide (g.hi ≤ maskW (min width 100)))
  else (fun bits => bits.any (decide <| · ≤ width)) <$> unsignedBits eg c

/-- The lanes of fields in ascending order, each up to the next one; the topmost is open. -/
def packedLanes : List (ClassId × ℕ) → Query (Option Layout)
  | [] => pure (some [])
  | [f] => pure (if kLaneInf ≤ f.2 then none else some [⟨f.2, kLaneInf, some f.1, 0⟩])
  | f :: g :: fields =>
    if g.2 ≤ f.2 then pure none
    else fieldFits eg f.1 (g.2 - f.2) >>= fun fits =>
      if fits then Option.map (⟨f.2, g.2, some f.1, 0⟩ :: ·) <$>
      packedLanes (g :: fields) else pure none

/-- The zero bits below the lowest field. -/
def leadingZero : List (ClassId × ℕ) → Layout
  | [] => []
  | f :: _ => if 0 < f.2 then [⟨0, f.2, none, 0⟩] else []

def sortFields (fields : List (ClassId × ℕ)) : List (ClassId × ℕ) :=
  fields.insertionSort fun a b => a.2 ≤ b.2

def packedLayout (ops : List Operand) : Query (Option Layout) :=
  match packedFields eg false ops with
  | none => pure none
  | some fields =>
    if fields.length < 2 then pure none
    else Option.map (leadingZero (sortFields fields) ++ ·) <$> packedLanes eg (sortFields fields)

section

variable (get : ClassId → Query Layout)

def nodeLayout (n : Enode) : Query (Option Layout) :=
  match n.op with
  | .concat => pure (if n.operands.isEmpty then none
      else (eg.concatLanes kMaxLaneBit 0 n.operands).map concatLayout)
  | .setMask =>
    match if n.operands.length = 4 then eg.constWindow n.operands kMaxLaneBit else none,
      Egraph.byBank n.operands 0, Egraph.byBank n.operands 4 with
    | some (l, h), some a, some v =>
      (fun base => if kMaxLayoutLanes < base.length then none
        else some (overlay base ⟨l, h, some v, 0⟩)) <$> get a
    | _, _, _ => pure none
  | .sra => match constShift eg n.operands with
    | some (a, k) => (fun base => some (base.filterMap (lower k))) <$> get a
    | none => pure none
  | .shl =>
    pure ((constShift eg n.operands).map fun f => [⟨0, f.2, none, 0⟩, ⟨f.2, kLaneInf, some f.1, 0⟩])
  | .or | .sum => packedLayout eg n.operands
  | _ => pure none

/-- The layout of the first side of a union that has one. -/
def layoutRec : ℕ → ClassId → Query (Option Layout)
  | 0, _ => pure none
  | depth + 1, c => match eg.cls c with
    | .node n => nodeLayout eg get n
    | .uni a b => layoutRec depth a >>= fun found => match found with
      | some L => pure (some L)
      | none => layoutRec depth b
    | _ => pure none

/-- Compute the layout of a class and remember it, unless it is there. -/
def warm (c : ClassId) : Query Unit := layoutRec eg get 4 c >>= fun found => modify fun cache =>
  if (cache.layouts c).isSome then cache
  else { cache with
      layouts := Function.update cache.layouts c (some (found.getD (identityLayout c))) }

end

/-- The class a `Set_mask` or `SRA` reads as its base. -/
def layoutBase (c : ClassId) : Option ClassId := match eg.cls c with
  | .node n => if n.op = .setMask ∨ n.op = .sra then Egraph.byBank n.operands 0 else none
  | _ => none

/-- The chain of bases of a class without a cached layout. -/
def layoutChain (cached : ClassId → Bool) : ℕ → Option ClassId → List ClassId
  | 0, _ | _ + 1, none => []
  | limit + 1, some c => if cached c then [] else c :: layoutChain cached limit (layoutBase eg c)

/-- `layout_of` with a recursion budget.  A class asks about older ones only, so that it suffices
for a class to have its own number and one more. -/
def layoutFuel : ℕ → ClassId → Query Layout
  | 0, c => pure (identityLayout c)
  | fuel + 1, c => MonadState.get >>= fun cache => match cache.layouts c with
    | some L => pure L
    | none => do
      -- the base chain bottom-up, so that a long write chain is a loop
      (layoutChain eg (fun d => (cache.layouts d).isSome) (2 ^ 20) (some c)).reverse.forM
        (warm eg (layoutFuel fuel))
      (fun cache => (cache.layouts c).getD (identityLayout c)) <$> MonadState.get

def layoutOf (c : ClassId) : Query Layout := layoutFuel eg (c + 1) c

end

/-- The lane that holds a whole window. -/
def findLane (L : Layout) (lo hi : ℤ) : Option Lane := L.find? fun l =>
    decide (l.lo ≤ lo ∧ hi ≤ l.hi)

/-! ## Contiguous lanes -/

namespace Layout.Spans

variable {a b c : ℤ} {L M : Layout}

lemma append (hL : L.Spans a b) (hM : M.Spans b c) : Layout.Spans a c (L ++ M) := by
  induction L generalizing a with
  | nil => exact (show a = b from hL) ▸ hM
  | cons l L ih => exact ⟨hL.1, hL.2.1, ih hL.2.2⟩

lemma le (hL : L.Spans a b) : a ≤ b := by
  induction L generalizing a with
  | nil => exact le_of_eq hL
  | cons l L ih => exact hL.2.1.le.trans (ih hL.2.2)

lemma bounds (hL : L.Spans a b) : ∀ l ∈ L, a ≤ l.lo ∧ l.lo < l.hi ∧ l.hi ≤ b := by
  induction L generalizing a with
  | nil => exact fun l hl => by cases hl
  | cons l L ih =>
    obtain ⟨hlo, hlt, hr⟩ := hL
    refine forall_mem_cons.2 ⟨⟨hlo.ge, hlo ▸ hlt, hr.le⟩, fun m hm => ?_⟩
    obtain ⟨h1, h2, h3⟩ := ih hr m hm
    exact ⟨hlt.le.trans h1, h2, h3⟩

lemma pairwise (hL : L.Spans a b) : List.Pairwise (fun l m : Lane => l.lo < m.lo) L := by
  induction L generalizing a with
  | nil => exact .nil
  | cons l L ih =>
    obtain ⟨hlo, hlt, hr⟩ := hL
    refine .cons (fun m hm => ?_) (ih hr)
    exact (hlo ▸ hlt).trans_le (hr.bounds m hm).1

/-- Sorting finds the contiguous order of the lanes. -/
lemma sortLanes_eq (hM : M.Spans a b) (hp : L.Perm M) : sortLanes L = M := by
  have hsy : Std.Symm fun l m : Lane => l.lo ≠ m.lo := ⟨fun _ _ => Ne.symm⟩
  have hst := hM.pairwise
  refine Perm.eq_of_pairwise ?_ (pairwise_insertionSort _ L) (hst.imp le_of_lt)
    ((perm_insertionSort _ L).trans hp)
  intro l m hl hm hlm hml
  have hl := hp.mem_iff.1 ((mem_insertionSort _).1 hl)
  by_contra hne
  exact (hst.imp ne_of_lt).forall hl hm hne (le_antisymm hlm hml)

end Layout.Spans

/-- The part of a lane below bit `m`. -/
def Lane.below (m : ℤ) (l : Lane) : Layout :=
  if l.hi ≤ m then [l] else if l.lo < m then [{ l with hi := m }] else []

/-- The part of a lane from bit `m` on. -/
def Lane.above (m : ℤ) (l : Lane) : Layout :=
  if m ≤ l.lo then [l] else if m < l.hi then [{ l with lo := m, off := l.off + (m - l.lo) }] else []

lemma Lane.outside_eq {lane l : Lane} (hla : lane.lo < lane.hi) (hl : l.lo < l.hi) :
    lane.outside l = l.below lane.lo ++ l.above lane.hi := by
  unfold outside below above
  by_cases h1 : l.hi ≤ lane.lo
  · rw [if_pos (.inl h1), if_pos h1, if_neg (by omega), if_neg (by omega)]
    rfl
  by_cases h2 : lane.hi ≤ l.lo
  · rw [if_pos (.inr h2), if_neg h1, if_neg (by omega), if_pos h2]
    rfl
  · rw [if_neg (not_or.2 ⟨h1, h2⟩), if_neg h1, if_neg h2]

namespace Layout.Spans

variable {a b m : ℤ} {L : Layout}

lemma below (hL : L.Spans a b) (ham : a ≤ m) (hmb : m ≤ b) :
    Layout.Spans a m (L.flatMap (Lane.below m)) := by
  induction L generalizing a with
  | nil =>
    obtain rfl : a = b := hL
    exact le_antisymm ham hmb
  | cons l L ih =>
    obtain ⟨hlo, hlt, hr⟩ := hL
    rw [flatMap_cons]
    by_cases h1 : l.hi ≤ m
    · rw [below, if_pos h1]
      exact ⟨hlo, hlt, ih hr h1⟩
    -- the lanes after the one that contains `m` have no part below it
    have hnil : L.flatMap (Lane.below m) = [] := by
      refine flatMap_eq_nil_iff.2 fun l' hl' => ?_
      have := hr.bounds l' hl'
      rw [below, if_neg (by omega), if_neg (by omega)]
    rw [hnil, below, if_neg h1]
    split
    · exact ⟨hlo, by show a < m; omega, rfl⟩
    · show a = m
      omega

lemma above (hL : L.Spans a b) (ham : a ≤ m) (hmb : m ≤ b) :
    Layout.Spans m b (L.flatMap (Lane.above m)) := by
  induction L generalizing a with
  | nil =>
    obtain rfl : a = b := hL
    exact le_antisymm hmb ham
  | cons l L ih =>
    obtain ⟨hlo, hlt, hr⟩ := hL
    rw [flatMap_cons, above]
    by_cases h1 : l.hi ≤ m
    · rw [if_neg (by omega), if_neg (by omega)]
      exact ih hr h1
    have hke : L.flatMap (Lane.above m) = L := by
      refine (flatMap_congr fun l' hl' => ?_).trans (flatMap_singleton' L)
      have := hr.bounds l' hl'
      rw [above, if_pos (by omega)]
    rw [hke]
    split
    · exact ⟨by omega, by omega, hr⟩
    · rw [if_pos (by omega)]
      exact ⟨rfl, by show m < l.hi; omega, hr⟩

/-- An overlay is what is below its window, the lane, and what is above. -/
lemma overlay_eq (lane : Lane) (hL : L.Spans a b) (ha : a ≤ lane.lo) (hla : lane.lo < lane.hi)
    (hb : lane.hi ≤ b) : overlay L lane =
    L.flatMap (Lane.below lane.lo) ++ lane :: L.flatMap (Lane.above lane.hi) ∧
      Layout.Spans a b (L.flatMap (Lane.below lane.lo) ++
        lane :: L.flatMap (Lane.above lane.hi)) := by
  have hsp : Layout.Spans a b (L.flatMap (Lane.below lane.lo) ++
      lane :: L.flatMap (Lane.above lane.hi)) :=
    (hL.below ha (hla.le.trans hb)).append ⟨rfl, hla, hL.above (ha.trans hla.le) hb⟩
  refine ⟨hsp.sortLanes_eq ?_, hsp⟩
  have hout : L.flatMap lane.outside = L.flatMap fun l => l.below lane.lo ++ l.above lane.hi :=
    flatMap_congr fun l hl => outside_eq hla (hL.bounds l hl).2.1
  rw [hout]
  refine ((flatMap_append_perm L _ _).symm.append_right [lane]).trans ?_
  rw [append_assoc]
  exact (perm_append_comm).append_left _

lemma eq_nil (hL : L.Spans a a) : L = [] := by
  cases L with
  | nil => rfl
  | cons l L => exact absurd hL.2.2.le (not_le.2 hL.2.1)

/-- Lowered lanes are contiguous again. -/
lemma lower (hL : L.Spans a kLaneInf) (ha : a < kLaneInf) {k : ℤ}
    (hk0 : 0 ≤ k) (hk : k < kLaneInf) :
    Layout.Spans (max (a - k) 0) kLaneInf (L.filterMap (Lane.lower k)) := by
  induction L generalizing a with
  | nil => exact absurd (show a = kLaneInf from hL) ha.ne
  | cons l L ih =>
    obtain ⟨hlo, hlt, hr⟩ := hL
    rcases lt_or_eq_of_le hr.le with hhi | hhi
    · have hr' := ih hr hhi
      by_cases h1 : l.hi ≤ k
      · have hno : l.lower k = none := if_pos ⟨hhi.ne, h1⟩
        rw [filterMap_cons_none hno, max_eq_right (by omega)]
        rwa [max_eq_right (by omega)] at hr'
      · have hsm : l.lower k = some (l.lowered k) := if_neg fun h => h1 h.2
        have hhi' : (l.lowered k).hi = l.hi - k := if_neg hhi.ne
        rw [filterMap_cons_some hsm]
        refine ⟨by rw [lowered, hlo], by omega, ?_⟩
        rwa [hhi', ← max_eq_left (show (0 : ℤ) ≤ l.hi - k by omega)]
    · obtain rfl : L = [] := (hhi ▸ hr).eq_nil
      have hsm : l.lower k = some (l.lowered k) := if_neg fun h => h.1 hhi
      have hhi' : (l.lowered k).hi = kLaneInf := if_pos hhi
      rw [filterMap_cons_some hsm]
      exact ⟨by rw [lowered, hlo], by omega, hhi'⟩

/-- The lanes of a `Concat`, the least significant first. -/
lemma concatAt (lanes : List (ClassId × ℕ)) (hpos : ∀ l ∈ lanes, 0 < l.2) :
    Layout.Spans 0 (lanesWidth lanes) (concatAt (lanesWidth lanes) lanes).reverse := by
  induction lanes with
  | nil => rfl
  | cons l lanes ih =>
    obtain ⟨c, w⟩ := l
    obtain ⟨hw, hpos⟩ := forall_mem_cons.1 hpos
    have hwi : lanesWidth ((c, w) :: lanes) = w + lanesWidth lanes := by simp [lanesWidth]
    have hsub : w + lanesWidth lanes - w = lanesWidth lanes := by omega
    rw [hwi, Aegraph.concatAt, hsub, reverse_cons]
    exact (ih hpos).append ⟨rfl, by push_cast; omega, rfl⟩

end Layout.Spans

lemma concatLayout_eq {lanes : List (ClassId × ℕ)} (hpos : ∀ l ∈ lanes, 0 < l.2) :
    concatLayout lanes = (concatAt (lanesWidth lanes) lanes).reverse ++
    [⟨lanesWidth lanes, kLaneInf, none, 0⟩] := by
  rw [concatLayout, (Layout.Spans.concatAt lanes hpos).sortLanes_eq (reverse_perm _).symm]

end LiveHD.Aegraph
