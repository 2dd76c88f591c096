import Mathlib

/-!
# Supports in one pass

What the items that an item reaches read directly, for all items in one depth-first pass: the items
of a strongly connected component share their support, which is that of what they read outside and
what they read directly.
-/

namespace LiveHD.Supports

open Relation Function List Option

variable {α β : Type*}

structure Info where
  index : ℕ
  low : ℕ
  onStack : Bool
  /-- The number of the support once the component is closed. -/
  set : ℕ

/-- An item on the way, with its successors, the next of them, and what it reads directly. -/
structure Frame (α β : Type*) where
  item : α
  succ : List α
  direct : List β
  next : ℕ

/-- The items on the stack are in components that are open; those that are finished keep their
successors. -/
structure State (α β : Type*) where
  info : α → Option Info
  sets : List (List β)
  stack : List α
  frames : List (Frame α β)
  parked : α → Option (List α × List β)
  counter : ℕ

def State.init : State α β := ⟨fun _ => none, [[]], [], [], fun _ => none, 0⟩

/-- The number of a set, which is added when it is new. -/
def intern [DecidableEq β] (sets : List (List β)) (v : List β) : List (List β) × ℕ :=
  if v = [] then (sets, 0) else if v ∈ sets then (sets, sets.idxOf v)
    else (sets ++ [v], sets.length)

section

variable [DecidableEq α] [LinearOrder β] (succ : α → List α) (direct : α → List β)

namespace State

variable (s : State α β)

def push (p : α) : State α β :=
  { s with
    info := Function.update s.info p (some ⟨s.counter, s.counter, true, 0⟩)
    stack := p :: s.stack
    frames := ⟨p, succ p, direct p, 0⟩ :: s.frames
    counter := s.counter + 1 }

/-- The items down to `root`, and those below. -/
def popUntil (root : α) : List α → List α × List α
  | [] => ([], [])
  | p :: ps => if p = root then ([p], ps) else (p :: (popUntil root ps).1, (popUntil root ps).2)

/-- The support that an item is known to have. -/
def setOf (q : α) : List β := s.sets.getD (((s.info q).map Info.set).getD 0) []

/-- What the members of a component read, directly and outside. -/
def union (members : List α) : List β :=
  members.flatMap fun m =>
    match s.parked m with
    | none => []
    | some (succ, direct) => direct ++ (succ.filter (· ∉ members)).flatMap s.setOf

def closeScc (root : α) : State α β :=
  let members := (popUntil root s.stack).1
  let sets := intern s.sets ((s.union members).insertionSort (· ≤ ·)).dedup
  { s with
    info := fun p => if p ∈ members then (s.info p).map fun i =>
      { i with onStack := false, set := sets.2 } else s.info p
    sets := sets.1
    stack := (popUntil root s.stack).2
    parked := fun p => if p ∈ members then none else s.parked p }

/-- The item reaches one of index `k` on the stack. -/
def lower (p : α) (k : ℕ) : State α β := { s with
    info := Function.update s.info p ((s.info p).map fun i => { i with low := min i.low k }) }

/-- One step; `none` when no item is on the way. -/
def step : Option (State α β) :=
  match s.frames with
  | [] => none
  | f :: fs =>
    match f.succ[f.next]? with
    | some q =>
      let s := { s with frames := { f with next := f.next + 1 } :: fs }
      match s.info q with
      | none => some (s.push succ direct q)
      | some i => some (if i.onStack then s.lower f.item i.index else s)
    | none =>
      match s.info f.item with
      | none => none
      | some me =>
        let s := { s with
            parked := Function.update s.parked f.item (some (f.succ, f.direct))
            frames := fs }
        let s := match fs with
          | [] => s
          | g :: _ => s.lower g.item me.low
        some (if me.low = me.index then s.closeScc f.item else s)

def run : ℕ → State α β → State α β
  | 0, s => s
  | fuel + 1, s =>
    match s.step succ direct with
    | none => s
    | some s => run fuel s

/-- The support of an item, computed when it is not known. -/
def supportOf (fuel : ℕ) (root : α) : State α β × List β :=
  let s := if (s.info root).isSome then s else run succ direct fuel (s.push succ direct root)
  (s, s.setOf root)

end State

end

/-! ## Supports -/

section

variable (succ : α → List α) (direct : α → List β)

def Reach : α → α → Prop := ReflTransGen fun a b => b ∈ succ a

def Support (p : α) (x : β) : Prop := ∃ q, Reach succ p q ∧ x ∈ direct q

end

namespace State

section

variable (s : State α β)

def idx (p : α) : ℕ := ((s.info p).map Info.index).getD 0

def low (p : α) : ℕ := ((s.info p).map Info.low).getD 0

/-- The item is closed. -/
def Closed (q : α) : Prop := ∃ i, s.info q = some i ∧ i.onStack = false

/-- The successor `q` of `p` has been looked at. -/
def Settled (p q : α) : Prop := (s.info q).isSome ∧ (q ∈ s.stack → s.low p ≤ s.idx q)

end

end State

/-- The state of a pass: `zs` are the items on the way, each with the finished items above it on the
stack. -/
structure Core (succ : α → List α) (direct : α → List β) (s : State α β)
    (zs : List (Frame α β × List α)) : Prop where
  frames : s.frames = zs.map Prod.fst
  stack : s.stack = zs.flatMap fun z => z.2 ++ [z.1.item]
  frame : ∀ z ∈ zs, z.1.succ = succ z.1.item ∧ z.1.direct = direct z.1.item
  chain : (zs.map (·.1.item)).IsChain fun a b => a ∈ succ b
  nodup : s.stack.Nodup
  onStack : ∀ p, p ∈ s.stack ↔ ∃ i, s.info p = some i ∧ i.onStack = true
  sorted : s.stack.Pairwise fun a b => s.idx b < s.idx a
  bound : ∀ p ∈ s.stack, s.low p ≤ s.idx p ∧ s.idx p < s.counter
  back : ∀ p ∈ s.stack, ∃ u ∈ s.stack, s.idx u = s.low p ∧ Reach succ p u
  done : ∀ z ∈ zs, ∀ w ∈ z.2, s.parked w = some (succ w, direct w) ∧ (∀ q ∈ succ w, s.Settled w q) ∧
    s.low z.1.item ≤ s.low w ∧
    s.low w < s.idx w ∧ Reach succ z.1.item w
  closed : ∀ p i, s.info p = some i → i.onStack = false →
    (∀ q ∈ succ p, s.Closed q) ∧ i.set < s.sets.length ∧
    ∀ x, x ∈ s.sets.getD i.set [] ↔ Support succ direct p x
  empty : s.sets[0]? = some []

/-- What the items on the way have read is settled. -/
structure Inv (succ : α → List α) (direct : α → List β) (s : State α β)
    (zs : List (Frame α β × List α)) : Prop
    extends Core succ direct s zs where
  read : ∀ z ∈ zs, ∀ q ∈ z.1.succ.take z.1.next, s.Settled z.1.item q

variable {succ : α → List α} {direct : α → List β} {s : State α β}
  {zs : List (Frame α β × List α)} {p q r : α}

variable {z : Frame α β × List α} {f : Frame α β} {seg : List α} {rest : List (Frame α β × List α)}

namespace Core

section

variable (h : Core succ direct s zs)
include h

lemma mem_stack_of_frame (hz : z ∈ zs) : z.1.item ∈ s.stack := by
  rw [h.stack]
  exact mem_flatMap.2 ⟨z, hz, mem_append_right _ (mem_singleton_self _)⟩

lemma mem_stack_of_done (hz : z ∈ zs) {w : α} (hw : w ∈ z.2) : w ∈ s.stack := by
  rw [h.stack]
  exact mem_flatMap.2 ⟨z, hz, mem_append_left _ hw⟩

lemma not_mem_stack (hq : s.info q = none) : q ∉ s.stack := by
  intro hmem
  obtain ⟨i, hi, -⟩ := (h.onStack q).1 hmem
  cases hq.symm.trans hi

lemma isSome_of_mem (hp : p ∈ s.stack) : (s.info p).isSome := by
  obtain ⟨i, hi, -⟩ := (h.onStack p).1 hp
  rw [hi]
  rfl

/-- An item that is visited and not on the stack is closed. -/
lemma closed_of_not_mem (hp : (s.info p).isSome) (hnot : p ∉ s.stack) : s.Closed p := by
  obtain ⟨i, hi⟩ := isSome_iff_exists.1 hp
  refine ⟨i, hi, ?_⟩
  cases hon : i.onStack with
  | false => rfl
  | true => exact absurd ((h.onStack p).2 ⟨i, hi, hon⟩) hnot

end

section

variable (h : Core succ direct s ((f, seg) :: rest))
include h

/-- The next successor is taken; nothing that the state holds of the items changes. -/
lemma advance (n : ℕ) :
    Core succ direct { s with frames := { f with next := n } :: rest.map Prod.fst }
    (({ f with next := n }, seg) :: rest) :=
  { h with
    frames := rfl
    frame := forall_mem_cons.2 ⟨h.frame (f, seg) (.head _), fun z hz => h.frame z (.tail _ hz)⟩
    done := forall_mem_cons.2 ⟨h.done (f, seg) (.head _), fun z hz => h.done z (.tail _ hz)⟩ }

/-- What is below the item on the way has a lower index. -/
lemma idx_lt_of_below (hp : p ∈ rest.flatMap fun z => z.2 ++ [z.1.item]) :
    s.idx p < s.idx f.item := by
  have hsrt := h.sorted
  rw [h.stack] at hsrt
  exact (pairwise_append.1 hsrt).2.2 _ (mem_append_right _ (mem_singleton_self _)) p hp

/-- The items of the open component on top: those on the stack that are not below the item on the
way. -/
lemma mem_component (hp : p ∈ s.stack) (hle : s.idx f.item ≤ s.idx p) : p ∈ seg ++ [f.item] := by
  rw [h.stack] at hp
  exact (mem_append.1 hp).resolve_right fun hb => absurd (h.idx_lt_of_below hb) (not_lt.2 hle)

lemma idx_le_of_mem (hp : p ∈ seg ++ [f.item]) : s.idx f.item ≤ s.idx p := by
  have hst := h.stack
  have hsrt := h.sorted
  rw [hst] at hsrt
  rcases mem_append.1 hp with hp | hp
  · exact ((pairwise_append.1 (pairwise_append.1 hsrt).1).2.2 p hp _ (mem_singleton_self _)).le
  · rw [mem_singleton.1 hp]

/-- The component of an item that reaches none of lower index. -/
lemma reach_component (hr : s.low f.item = s.idx f.item) :
    ∀ w ∈ seg ++ [f.item], Reach succ f.item w ∧ Reach succ w f.item := by
  have hdo := h.done (f, seg) (.head _)
  have hba : ∀ n, ∀ w ∈ seg ++ [f.item], s.idx w = n → Reach succ w f.item := by
    intro n
    induction n using Nat.strong_induction_on with
    | _ n ih =>
      rintro w hw rfl
      rcases mem_append.1 hw with hseg | heq
      · obtain ⟨-, -, hlow, hlt, -⟩ := hdo w hseg
        obtain ⟨u, hu, hidx, hre⟩ := h.back w (h.mem_stack_of_done (.head _) hseg)
        have hle : s.idx f.item ≤ s.idx u := by rwa [hidx, ← hr]
        exact hre.trans (ih (s.idx u) (hidx ▸ hlt) u (h.mem_component hu hle) rfl)
      · rw [mem_singleton.1 heq]
        exact .refl
  intro w hw
  refine ⟨?_, hba _ w hw rfl⟩
  rcases mem_append.1 hw with hseg | heq
  · exact (hdo w hseg).2.2.2.2
  · rw [mem_singleton.1 heq]
    exact .refl

/-- Outside its component an item only has successors that are closed. -/
lemma closed_of_succ
    (hrd : ∀ q ∈ succ f.item, s.Settled f.item q) (hr : s.low f.item = s.idx f.item) {w : α}
    (hw : w ∈ seg ++ [f.item]) (hq : q ∈ succ w) :
    q ∈ seg ++ [f.item] ∨ s.Closed q := by
  have hse : s.Settled w q ∧ s.low f.item ≤ s.low w := by
    rcases mem_append.1 hw with hseg | heq
    · obtain ⟨-, hsu, hlow, -⟩ := h.done (f, seg) (.head _) w hseg
      exact ⟨hsu q hq, hlow⟩
    · obtain rfl := mem_singleton.1 heq
      exact ⟨hrd q hq, le_rfl⟩
  by_cases hmem : q ∈ s.stack
  · refine .inl (h.mem_component hmem ?_)
    rw [← hr]
    exact hse.2.trans (hse.1.2 hmem)
  · exact .inr (h.closed_of_not_mem hse.1.1 hmem)

end

end Core

section

variable (h : Inv succ direct s ((f, seg) :: rest)) (hq : f.succ[f.next]? = some q)
include h hq

/-- The successors looked at, the next one among them. -/
lemma Inv.read_next : ∀ r ∈ f.succ.take (f.next + 1), s.Settled f.item r ∨ r = q := by
  intro r hr
  rw [take_add_one, hq] at hr
  rcases mem_append.1 hr with hr | hr
  · exact .inl (h.read _ (.head _) r hr)
  · exact .inr (mem_singleton.1 hr)

lemma Inv.mem_succ : q ∈ succ f.item := by
  rw [← (h.frame _ (.head _)).1]
  exact mem_of_getElem? hq

end

section

variable [DecidableEq α]

/-! ## A new item -/

section

variable (s : State α β) (q : α)

lemma info_push_self : (s.push succ direct q).info q =
    some ⟨s.counter, s.counter, true, 0⟩ := update_self _ _ _

lemma idx_push_self : (s.push succ direct q).idx q = s.counter := by
  rw [State.idx, info_push_self]
  rfl

lemma low_push_self : (s.push succ direct q).low q = s.counter := by
  rw [State.low, info_push_self]
  rfl

end

lemma info_push_of_ne (h : p ≠ q) : (s.push succ direct q).info p = s.info p := update_of_ne h _ _

lemma idx_push_of_ne (h : p ≠ q) : (s.push succ direct q).idx p = s.idx p := by
  rw [State.idx, State.idx, info_push_of_ne h]

lemma low_push_of_ne (h : p ≠ q) : (s.push succ direct q).low p = s.low p := by
  rw [State.low, State.low, info_push_of_ne h]

lemma Core.push (h : Core succ direct s zs) (hq : s.info q = none)
    (hrd : ∀ z ∈ zs, ∀ r ∈ z.1.succ.take z.1.next, s.Settled z.1.item r ∨ r = q)
    (htop : ∀ z ∈ zs.head?, q ∈ succ z.1.item) :
    Inv succ direct (s.push succ direct q) ((⟨q, succ q, direct q, 0⟩, []) :: zs) := by
  have hnew := h.not_mem_stack hq
  have hne : ∀ p ∈ s.stack, p ≠ q := fun p hp heq => hnew (heq ▸ hp)
  have hse : ∀ p ∈ s.stack, ∀ r, s.Settled p r ∨ r = q → (s.push succ direct q).Settled p r := by
    intro p hp r hr
    by_cases hrq : r = q
    · subst hrq
      refine ⟨by rw [info_push_self]; rfl, fun _ => ?_⟩
      rw [low_push_of_ne (hne p hp), idx_push_self]
      exact (h.bound p hp).1.trans (h.bound p hp).2.le
    · obtain ⟨hsm, hlow⟩ := hr.resolve_right hrq
      refine ⟨by rwa [info_push_of_ne hrq], fun hmem => ?_⟩
      rw [low_push_of_ne (hne p hp), idx_push_of_ne hrq]
      exact hlow ((mem_cons.1 hmem).resolve_left hrq)
  constructor
  · constructor
    · change _ :: s.frames = _
      rw [h.frames]
      rfl
    · change q :: s.stack = _
      rw [h.stack]
      rfl
    · intro z hz
      rcases mem_cons.1 hz with rfl | hz
      · exact ⟨rfl, rfl⟩
      · exact h.frame z hz
    · cases zs with
      | nil => exact .singleton q
      | cons z zs => exact .cons_cons (htop z rfl) h.chain
    · exact nodup_cons.2 ⟨hnew, h.nodup⟩
    · intro p
      by_cases hp : p = q
      · subst hp
        exact ⟨fun _ => ⟨_, info_push_self s p, rfl⟩, fun _ => .head _⟩
      · rw [info_push_of_ne hp, ← h.onStack p]
        exact ⟨fun hmem => (mem_cons.1 hmem).resolve_left hp, mem_cons_of_mem q⟩
    · refine pairwise_cons.2 ⟨fun b hb => ?_, h.sorted.imp_of_mem fun {a b} ha hb hlt => ?_⟩
      · rw [idx_push_self, idx_push_of_ne (hne b hb)]
        exact (h.bound b hb).2
      · rwa [idx_push_of_ne (hne a ha), idx_push_of_ne (hne b hb)]
    · intro p hp
      rcases mem_cons.1 hp with rfl | hp
      · rw [low_push_self, idx_push_self]
        exact ⟨le_rfl, Nat.lt_succ_self _⟩
      · rw [low_push_of_ne (hne p hp), idx_push_of_ne (hne p hp)]
        exact ⟨(h.bound p hp).1, (h.bound p hp).2.trans (Nat.lt_succ_self _)⟩
    · intro p hp
      rcases mem_cons.1 hp with rfl | hp
      · exact ⟨p, .head _, by rw [low_push_self, idx_push_self], .refl⟩
      · obtain ⟨u, hu, hidx, hre⟩ := h.back p hp
        refine ⟨u, mem_cons_of_mem q hu, ?_, hre⟩
        rw [low_push_of_ne (hne p hp), idx_push_of_ne (hne u hu), hidx]
    · intro z hz w hw
      rcases mem_cons.1 hz with rfl | hz
      · cases hw
      · obtain ⟨hpa, hsu, hlow, hlt, hre⟩ := h.done z hz w hw
        have hwm := h.mem_stack_of_done hz hw
        refine ⟨hpa, fun r hr => hse w hwm r (.inl (hsu r hr)), ?_, ?_, hre⟩
        · rwa [low_push_of_ne (hne _ (h.mem_stack_of_frame hz)), low_push_of_ne (hne w hwm)]
        · rwa [low_push_of_ne (hne w hwm), idx_push_of_ne (hne w hwm)]
    · intro p i hi hon
      have hp : p ≠ q := by
        rintro rfl
        cases (info_push_self s p).symm.trans hi
        cases hon
      rw [info_push_of_ne hp] at hi
      obtain ⟨hsu, hset⟩ := h.closed p i hi hon
      refine ⟨fun r hr => ?_, hset⟩
      obtain ⟨j, hj, hoff⟩ := hsu r hr
      refine ⟨j, ?_, hoff⟩
      rwa [info_push_of_ne]
      rintro rfl
      cases hq.symm.trans hj
    · exact h.empty
  · intro z hz r hr
    rcases mem_cons.1 hz with rfl | hz
    · cases hr
    · exact hse _ (h.mem_stack_of_frame hz) r (hrd z hz r hr)

/-! ## A lower index -/

lemma info_lower_self (s : State α β) (p : α) (k : ℕ) :
    (s.lower p k).info p = (s.info p).map fun i => { i with low := min i.low k } :=
  update_self _ _ _

lemma info_lower_of_ne (k : ℕ) (h : p ≠ q) : (s.lower q k).info p = s.info p := update_of_ne h _ _

section

variable (s : State α β) (q : α) (k : ℕ) (p : α)

/-- Only the low index of the item changes. -/
lemma info_lower : ∃ f : ℕ → ℕ, (s.lower q k).info p = (s.info p).map fun i =>
    { i with low := f i.low } := by
  by_cases hp : p = q
  · subst hp
    exact ⟨fun n => min n k, info_lower_self s p k⟩
  · refine ⟨id, ?_⟩
    rw [info_lower_of_ne k hp]
    exact (congrFun Option.map_id (s.info p)).symm

@[simp] lemma isSome_info_lower : ((s.lower q k).info p).isSome = (s.info p).isSome := by
  obtain ⟨f, hf⟩ := info_lower s q k p
  rw [hf, isSome_map]

@[simp] lemma idx_lower : (s.lower q k).idx p = s.idx p := by
  obtain ⟨f, hf⟩ := info_lower s q k p
  rw [State.idx, hf, Option.map_map]
  rfl

end

lemma low_lower_of_ne (k : ℕ) (h : p ≠ q) : (s.lower q k).low p = s.low p := by
  rw [State.low, State.low, info_lower_of_ne k h]

lemma low_lower_self (k : ℕ) (h : (s.info p).isSome) : (s.lower p k).low p = min (s.low p) k := by
  obtain ⟨i, hi⟩ := isSome_iff_exists.1 h
  rw [State.low, State.low, info_lower_self, hi]
  rfl

lemma low_lower_le (s : State α β) (q : α) (k : ℕ) (p : α) : (s.lower q k).low p ≤ s.low p := by
  by_cases hp : p = q
  · subst hp
    rw [State.low, State.low, info_lower_self]
    cases s.info p with
    | none => exact le_rfl
    | some i => exact min_le_left _ _
  · exact (low_lower_of_ne k hp).le

/-- An index that is not lower changes nothing. -/
lemma lower_eq_self {k : ℕ} (h : s.low p ≤ k) : s.lower p k = s := by
  have hin : update s.info p ((s.info p).map fun i => { i with low := min i.low k }) = s.info := by
    refine update_eq_self_iff.2 ?_
    rw [State.low] at h
    cases hi : s.info p with
    | none => rfl
    | some i =>
      rw [hi] at h
      rw [map_some, min_eq_left (show i.low ≤ k from h)]
  rw [State.lower, hin]

lemma closed_lower (s : State α β) (q : α) (k : ℕ) (p : α) :
    (s.lower q k).Closed p ↔ s.Closed p := by
  obtain ⟨f, hf⟩ := info_lower s q k p
  rw [State.Closed, hf]
  constructor
  · rintro ⟨i, hi, hoff⟩
    obtain ⟨j, hj, rfl⟩ := map_eq_some_iff.1 hi
    exact ⟨j, hj, hoff⟩
  · rintro ⟨i, hi, hoff⟩
    exact ⟨_, congrArg (Option.map _) hi, hoff⟩

lemma State.Settled.lower (h : s.Settled p r) (q : α) (k : ℕ) : (s.lower q k).Settled p r := by
  refine ⟨by rw [isSome_info_lower]; exact h.1, fun hr => ?_⟩
  rw [idx_lower]
  exact (low_lower_le s q k p).trans (h.2 hr)

/-- A finished item is not on the way. -/
lemma Core.done_ne (h : Core succ direct s zs) {z' : Frame α β × List α} (hz : z ∈ zs) {w : α}
    (hw : w ∈ z.2) (hz' : z' ∈ zs) :
    w ≠ z'.1.item := by
  rintro rfl
  have hnd := h.nodup
  rw [h.stack, nodup_flatMap] at hnd
  by_cases heq : z = z'
  · subst heq
    exact disjoint_of_nodup_append (hnd.1 z hz) hw (mem_singleton_self _)
  · have : Std.Symm (onFun List.Disjoint fun z : Frame α β × List α => z.2 ++ [z.1.item]) :=
      ⟨fun _ _ hd _ ha ha' => hd ha' ha⟩
    exact hnd.2.forall hz hz' heq (mem_append_left _ hw) (mem_append_right _ (mem_singleton_self _))

/-- A lower index that an item on the way reaches. -/
lemma Core.lower (h : Core succ direct s zs) (hz : z ∈ zs) {k : ℕ}
    (hk : ∃ u ∈ s.stack, s.idx u = k ∧ Reach succ z.1.item u) :
    Core succ direct (s.lower z.1.item k) zs := by
  have hmem := h.mem_stack_of_frame hz
  have hsm := h.isSome_of_mem hmem
  refine { h with
    onStack := fun p => ?_
    sorted := ?_
    bound := fun p hp => ?_
    back := fun p hp => ?_
    done := fun y hy w hw => ?_
    closed := fun p i hi hoff => ?_ }
  · obtain ⟨f, hf⟩ := info_lower s z.1.item k p
    rw [show (s.lower z.1.item k).stack = s.stack from rfl, h.onStack p, hf]
    constructor
    · rintro ⟨i, hi, hon⟩
      exact ⟨_, congrArg (Option.map _) hi, hon⟩
    · rintro ⟨i, hi, hon⟩
      obtain ⟨j, hj, rfl⟩ := map_eq_some_iff.1 hi
      exact ⟨j, hj, hon⟩
  · refine h.sorted.imp fun {a b} hlt => ?_
    rwa [idx_lower, idx_lower]
  · rw [idx_lower]
    exact ⟨(low_lower_le s _ k p).trans (h.bound p hp).1, (h.bound p hp).2⟩
  · by_cases hpz : p = z.1.item
    · subst hpz
      rw [low_lower_self k hsm]
      obtain ⟨u, hu, hidx, hre⟩ := h.back _ hmem
      obtain ⟨v, hv, hvi, hvr⟩ := hk
      rcases min_choice (s.low z.1.item) k with hmin | hmin
      · exact ⟨u, hu, by rw [idx_lower, hmin, hidx], hre⟩
      · exact ⟨v, hv, by rw [idx_lower, hmin, hvi], hvr⟩
    · obtain ⟨u, hu, hidx, hre⟩ := h.back p hp
      exact ⟨u, hu, by rw [idx_lower, low_lower_of_ne k hpz, hidx], hre⟩
  · obtain ⟨hpa, hsu, hlow, hlt, hre⟩ := h.done y hy w hw
    have hne := h.done_ne hy hw hz
    refine ⟨hpa, fun q hq => (hsu q hq).lower _ _, ?_, ?_, hre⟩
    · rw [low_lower_of_ne k hne]
      exact (low_lower_le s _ k _).trans hlow
    · rwa [low_lower_of_ne k hne, idx_lower]
  · obtain ⟨f, hf⟩ := info_lower s z.1.item k p
    rw [hf] at hi
    obtain ⟨j, hj, rfl⟩ := map_eq_some_iff.1 hi
    obtain ⟨hsu, hset⟩ := h.closed p j hj hoff
    exact ⟨fun q hq => (closed_lower s _ k q).2 (hsu q hq), hset⟩

/-! ## A finished item -/

/-- The item on top is finished. -/
def State.park (s : State α β) (f : Frame α β) (fs : List (Frame α β)) : State α β :=
  { s with parked := Function.update s.parked f.item (some (f.succ, f.direct)), frames := fs }

/-- A finished item that reaches a lower index joins the component of the item below. -/
lemma Core.merge {g : Frame α β} {seg' : List α}
    (h : Core succ direct s ((f, seg) :: (g, seg') :: rest))
    (hrd : ∀ q ∈ succ f.item, s.Settled f.item q)
    (hlow : s.low g.item ≤ s.low f.item) (hlt : s.low f.item < s.idx f.item) :
    Core succ direct (s.park f (g :: rest.map Prod.fst)) ((g, seg ++ f.item :: seg') :: rest) := by
  have hf : (f, seg) ∈ (f, seg) :: (g, seg') :: rest := .head _
  have hg : (g, seg') ∈ (f, seg) :: (g, seg') :: rest := .tail _ (.head _)
  have hold : ∀ z ∈ (f, seg) :: (g, seg') :: rest, ∀ w ∈ z.2,
      (s.park f (g :: rest.map Prod.fst)).parked w = some (succ w, direct w) :=
    fun z hz w hw => (update_of_ne (h.done_ne hz hw hf) _ _).trans (h.done z hz w hw).1
  have hc := (isChain_cons_cons.1 h.chain).1
  refine { h with
    frames := rfl
    stack := ?_
    frame := fun z hz => ?_
    chain := (isChain_cons_cons.1 h.chain).2
    done := fun z hz w hw => ?_ }
  · rw [show (s.park f (g :: rest.map Prod.fst)).stack = s.stack from rfl, h.stack]
    simp
  · rcases mem_cons.1 hz with rfl | hz
    · exact h.frame (g, seg') hg
    · exact h.frame z (.tail _ (.tail _ hz))
  · rcases mem_cons.1 hz with rfl | hz
    · rcases mem_append.1 hw with hw | hw
      · obtain ⟨-, hsu, hle, hltw, hre⟩ := h.done _ hf w hw
        exact ⟨hold _ hf w hw, hsu, hlow.trans hle, hltw, .head hc hre⟩
      · rcases mem_cons.1 hw with rfl | hw
        · refine ⟨?_, hrd, hlow, hlt, .single hc⟩
          rw [State.park]
          dsimp only
          rw [update_self, (h.frame _ hf).1, (h.frame _ hf).2]
        · exact ⟨hold _ hg w hw, (h.done _ hg w hw).2⟩
    · have hz' := mem_cons_of_mem (f, seg) (mem_cons_of_mem (g, seg') hz)
      exact ⟨hold z hz' w hw, (h.done z hz' w hw).2⟩

/-! ## A closed component -/

variable {root : α}

lemma popUntil_append {seg : List α} (h : root ∉ seg) (ps : List α) :
    State.popUntil root (seg ++ root :: ps) = (seg ++ [root], ps) := by
  induction seg with
  | nil => exact if_pos rfl
  | cons p seg ih =>
    obtain ⟨hp, hseg⟩ := not_or.1 (mt mem_cons.2 h)
    rw [cons_append, State.popUntil, if_neg (Ne.symm hp), ih hseg]
    rfl

lemma mem_of_mem_popUntil {ps : List α} (h : p ∈ (State.popUntil root ps).2) : p ∈ ps := by
  induction ps with
  | nil => exact h
  | cons r ps ih =>
    rw [State.popUntil] at h
    split at h
    · exact .tail _ h
    · exact .tail _ (ih h)

/-- An interned set has its number, and the others keep theirs. -/
lemma intern_spec [DecidableEq β] {sets : List (List β)} (h : sets[0]? = some []) (v : List β) :
    (∀ i < sets.length, i < (intern sets v).1.length ∧
      (intern sets v).1.getD i [] = sets.getD i []) ∧
      (intern sets v).2 < (intern sets v).1.length ∧
      (intern sets v).1.getD (intern sets v).2 [] = v ∧ (intern sets v).1[0]? = some [] := by
  have hpos := (List.getElem?_eq_some_iff.1 h).1
  rw [intern]
  split
  next hv =>
    subst hv
    refine ⟨fun i hi => ⟨hi, rfl⟩, hpos, ?_, h⟩
    rw [getD_eq_getElem?_getD, h]
    rfl
  · split
    next hmem =>
      refine ⟨fun i hi => ⟨hi, rfl⟩, idxOf_lt_length_of_mem hmem, ?_, h⟩
      rw [getD_eq_getElem _ _ (idxOf_lt_length_of_mem hmem), getElem_idxOf]
    next =>
      refine ⟨fun i hi => ⟨?_, ?_⟩, ?_, ?_, ?_⟩
      · rw [length_append]
        exact hi.trans_le (Nat.le_add_right _ _)
      · rw [getD_append _ _ _ _ hi]
      · rw [length_append]
        exact Nat.lt_succ_self _
      · rw [getD_append_right _ _ _ _ le_rfl, Nat.sub_self]
        rfl
      · rw [getElem?_append_left hpos, h]

/-- The members of a component share what they and their successors outside read. -/
lemma support_component {members : List α}
    (hmut : ∀ w ∈ members, Reach succ root w ∧ Reach succ w root) {m : α} (hm : m ∈ members)
    (x : β) : Support succ direct m x ↔
    ∃ w ∈ members, x ∈ direct w ∨ ∃ q ∈ succ w, q ∉ members ∧ Support succ direct q x := by
  constructor
  · rintro ⟨q, hre, hx⟩
    induction hre using ReflTransGen.head_induction_on with
    | refl => exact ⟨_, hm, .inl hx⟩
    | @head a b hab hbq ih =>
      by_cases hb : b ∈ members
      · exact ih hb
      · exact ⟨a, hm, .inr ⟨b, hab, hb, q, hbq, hx⟩⟩
  · rintro ⟨w, hw, hx⟩
    have hmw := (hmut m hm).2.trans (hmut w hw).1
    rcases hx with hx | ⟨q, hq, -, r, hqr, hx⟩
    · exact ⟨w, hmw, hx⟩
    · exact ⟨r, (hmw.tail hq).trans hqr, hx⟩

section

variable [LinearOrder β]

section

variable (s : State α β)

/-- The set that a component gets. -/
def State.closed (members : List α) : List (List β) × ℕ :=
  intern s.sets ((s.union members).insertionSort (· ≤ ·)).dedup

lemma info_closeScc (root p : α) : (s.closeScc root).info p =
    if p ∈ (State.popUntil root s.stack).1 then (s.info p).map fun i =>
    { i with onStack := false, set := (s.closed (State.popUntil root s.stack).1).2 }
    else s.info p := rfl

@[simp] lemma isSome_info_closeScc (root p : α) :
    ((s.closeScc root).info p).isSome = (s.info p).isSome := by
  rw [info_closeScc]
  split
  · exact isSome_map
  · rfl

@[simp] lemma idx_closeScc (root p : α) : (s.closeScc root).idx p = s.idx p := by
  rw [State.idx, info_closeScc]
  split
  · rw [Option.map_map]
    rfl
  · rfl

@[simp] lemma low_closeScc (root p : α) : (s.closeScc root).low p = s.low p := by
  rw [State.low, info_closeScc]
  split
  · rw [Option.map_map]
    rfl
  · rfl

end

lemma State.Settled.closeScc (h : s.Settled p r) (root : α) : (s.closeScc root).Settled p r := by
  refine ⟨by rw [isSome_info_closeScc]; exact h.1, fun hr => ?_⟩
  rw [low_closeScc, idx_closeScc]
  exact h.2 (mem_of_mem_popUntil hr)

omit [LinearOrder β] in
/-- What the members read, as the pass collects it. -/
lemma mem_union {members : List α}
    (hpa : ∀ w ∈ members, s.parked w = some (succ w, direct w)) (x : β) :
    x ∈ s.union members ↔ ∃ w ∈ members, x ∈ direct w ∨
    ∃ q ∈ succ w, q ∉ members ∧ x ∈ s.setOf q := by
  rw [State.union, mem_flatMap]
  refine exists_congr fun w => and_congr_right fun hw => ?_
  rw [hpa w hw]
  rw [mem_append, mem_flatMap]
  refine or_congr_right (exists_congr fun q => ?_)
  rw [mem_filter, decide_eq_true_iff, and_assoc]

/-- The component of an item that reaches none of lower index is closed. -/
lemma Core.close (h : Core succ direct s ((f, seg) :: rest))
    (hrd : ∀ q ∈ succ f.item, s.Settled f.item q) (hr : s.low f.item = s.idx f.item) :
    Core succ direct ((s.park f (rest.map Prod.fst)).closeScc f.item) rest := by
  have hf : (f, seg) ∈ (f, seg) :: rest := .head _
  set t := s.park f (rest.map Prod.fst)
  set below := rest.flatMap fun z => z.2 ++ [z.1.item]
  have hst : s.stack = seg ++ [f.item] ++ below := h.stack
  have hsp := nodup_append'.1 (hst ▸ h.nodup)
  have hb : ∀ p ∈ below, p ∈ s.stack := fun p hp => hst ▸ mem_append_right _ hp
  have hme : ∀ p ∈ seg ++ [f.item], p ∈ s.stack := fun p hp => hst ▸ mem_append_left _ hp
  have hpop : State.popUntil f.item t.stack = (seg ++ [f.item], below) := by
    rw [show t.stack = s.stack from rfl, hst, append_assoc]
    exact popUntil_append (fun hmem => h.done_ne hf hmem hf rfl) below
  have hpa : ∀ w ∈ seg ++ [f.item], t.parked w = some (succ w, direct w) := by
    intro w hw
    rcases mem_append.1 hw with hseg | heq
    · exact (update_of_ne (h.done_ne hf hseg hf) _ _).trans (h.done _ hf w hseg).1
    · rw [mem_singleton.1 heq, ← (h.frame _ hf).1, ← (h.frame _ hf).2]
      exact update_self _ _ _
  have hset : ∀ m ∈ seg ++ [f.item], ∀ x, x ∈
      ((t.union (seg ++ [f.item])).insertionSort (· ≤ ·)).dedup ↔ Support succ direct m x := by
    intro m hm x
    rw [mem_dedup, (perm_insertionSort _ _).mem_iff, mem_union hpa,
      support_component (h.reach_component hr) hm]
    refine exists_congr fun w => and_congr_right fun hw => or_congr_right
      (exists_congr fun q => and_congr_right fun hq => and_congr_right fun hout => ?_)
    obtain ⟨i, hi, hoff⟩ := (h.closed_of_succ hrd hr hw hq).resolve_left hout
    rw [State.setOf, show t.info q = s.info q from rfl, hi]
    exact (h.closed q i hi hoff).2.2 x
  have hin : ∀ p, (t.closeScc f.item).info p = if p ∈ seg ++ [f.item] then
      (s.info p).map fun i => { i with onStack := false, set := (t.closed (seg ++ [f.item])).2 }
        else s.info p := by
    intro p
    rw [info_closeScc, hpop]
    rfl
  have hse : (t.closeScc f.item).sets = (t.closed (seg ++ [f.item])).1 := by
    rw [State.closeScc, hpop]
    rfl
  have hst' : (t.closeScc f.item).stack = below := congrArg Prod.snd hpop
  obtain ⟨hke, hlen, hval, hem⟩ :=
    intern_spec h.empty ((t.union (seg ++ [f.item])).insertionSort (· ≤ ·)).dedup
  have hcl : ∀ q, q ∈ seg ++ [f.item] ∨ s.Closed q → (t.closeScc f.item).Closed q := by
    intro q hq
    by_cases hmem : q ∈ seg ++ [f.item]
    · obtain ⟨i, hi⟩ := isSome_iff_exists.1 (h.isSome_of_mem (hme q hmem))
      refine ⟨{ i with onStack := false, set := (t.closed (seg ++ [f.item])).2 }, ?_, rfl⟩
      rw [hin, if_pos hmem, hi]
      rfl
    · obtain ⟨i, hi, hoff⟩ := hq.resolve_left hmem
      exact ⟨i, by rw [hin, if_neg hmem, hi], hoff⟩
  constructor
  · rfl
  · exact hst'
  · exact fun z hz => h.frame z (.tail _ hz)
  · exact (show (f.item :: rest.map (·.1.item)).IsChain _ from h.chain).of_cons
  · rw [hst']
    exact hsp.2.1
  · intro p
    rw [hst', hin]
    constructor
    · intro hp
      rw [if_neg fun hmem => hsp.2.2 hmem hp]
      exact (h.onStack p).1 (hb p hp)
    · rintro ⟨i, hi, hon⟩
      by_cases hmem : p ∈ seg ++ [f.item]
      · rw [if_pos hmem] at hi
        obtain ⟨j, -, rfl⟩ := map_eq_some_iff.1 hi
        cases hon
      · rw [if_neg hmem] at hi
        have hp := (h.onStack p).2 ⟨i, hi, hon⟩
        rw [hst] at hp
        exact (mem_append.1 hp).resolve_left hmem
  · rw [hst']
    have hsrt := h.sorted
    rw [hst] at hsrt
    refine (pairwise_append.1 hsrt).2.1.imp fun {a b} hab => ?_
    rwa [idx_closeScc, idx_closeScc]
  · intro p hp
    rw [low_closeScc, idx_closeScc]
    exact h.bound p (hb p (hst' ▸ hp))
  · intro p hp
    have hp' : p ∈ below := hst' ▸ hp
    obtain ⟨u, hu, hidx, hre⟩ := h.back p (hb p hp')
    refine ⟨u, ?_, by rw [idx_closeScc, low_closeScc]; exact hidx, hre⟩
    rw [hst']
    rw [hst] at hu
    refine (mem_append.1 hu).resolve_left fun hmem => ?_
    refine absurd (h.idx_le_of_mem hmem) (not_le.2 ?_)
    rw [hidx]
    exact (h.bound p (hb p hp')).1.trans_lt (h.idx_lt_of_below hp')
  · intro z hz w hw
    have hz' := mem_cons_of_mem (f, seg) hz
    obtain ⟨hpr, hsu, hlow, hltw, hre⟩ := h.done z hz' w hw
    have hout : w ∉ seg ++ [f.item] := fun hmem =>
      hsp.2.2 hmem (mem_flatMap.2 ⟨z, hz, mem_append_left _ hw⟩)
    refine ⟨?_, fun q hq => (show t.Settled w q from hsu q hq).closeScc f.item, ?_, ?_, hre⟩
    · rw [State.closeScc, hpop]
      dsimp only
      rw [if_neg hout]
      exact (update_of_ne (h.done_ne hz' hw hf) _ _).trans hpr
    · rwa [low_closeScc, low_closeScc]
    · rwa [low_closeScc, idx_closeScc]
  · intro p i hi hoff
    rw [hin] at hi
    rw [hse]
    by_cases hmem : p ∈ seg ++ [f.item]
    · rw [if_pos hmem] at hi
      obtain ⟨j, -, rfl⟩ := map_eq_some_iff.1 hi
      refine ⟨fun q hq => hcl q (h.closed_of_succ hrd hr hmem hq), hlen, fun x => ?_⟩
      rw [← hset p hmem x]
      exact .of_eq (congrArg (x ∈ ·) hval)
    · rw [if_neg hmem] at hi
      obtain ⟨hsu, hbo, hsup⟩ := h.closed p i hi hoff
      refine ⟨fun q hq => hcl q (.inr (hsu q hq)), (hke _ hbo).1, fun x => ?_⟩
      rw [← hsup x]
      exact .of_eq (congrArg (x ∈ ·) (hke _ hbo).2)
  · rwa [hse]

/-! ## The steps -/

/-- The next successor of the item on top is taken. -/
def State.take (s : State α β) (f : Frame α β) (fs : List (Frame α β)) : State α β :=
  { s with frames := { f with next := f.next + 1 } :: fs }

omit [LinearOrder β] in
/-- A successor that is new goes on the way. -/
lemma Inv.new (h : Inv succ direct s ((f, seg) :: rest)) (hq : f.succ[f.next]? = some q)
    (hnew : s.info q = none) :
    Inv succ direct ((s.take f (rest.map Prod.fst)).push succ direct q)
      ((⟨q, succ q, direct q, 0⟩, []) :: ({ f with next := f.next + 1 }, seg) :: rest) := by
  refine (h.toCore.advance (f.next + 1)).push hnew (fun z hz r hr => ?_) fun z hz => ?_
  · rcases mem_cons.1 hz with rfl | hz
    · exact h.read_next hq r hr
    · exact .inl (h.read z (.tail _ hz) r hr)
  · cases hz
    exact h.mem_succ hq

omit [LinearOrder β] in
/-- A successor that is known; one on the stack may lower the index. -/
lemma Inv.seen (h : Inv succ direct s ((f, seg) :: rest)) (hq : f.succ[f.next]? = some q) {i : Info}
    (hi : s.info q = some i) :
    Inv succ direct (if i.onStack then (s.take f (rest.map Prod.fst)).lower f.item i.index
        else s.take f (rest.map Prod.fst))
      (({ f with next := f.next + 1 }, seg) :: rest) := by
  have hco := h.toCore.advance (f.next + 1)
  have hsm : (s.info q).isSome := by
    rw [hi]
    rfl
  have hre : ∀ z ∈ rest, ∀ r ∈ z.1.succ.take z.1.next, s.Settled z.1.item r := fun z hz =>
    h.read z (.tail _ hz)
  have hidx : s.idx q = i.index := by
    rw [State.idx, hi]
    rfl
  split
  next hon =>
    have hmem := (h.onStack q).2 ⟨i, hi, hon⟩
    refine ⟨hco.lower (.head _) ⟨q, hmem, hidx, .single (h.mem_succ hq)⟩, fun z hz r hr => ?_⟩
    rcases mem_cons.1 hz with rfl | hz
    · rcases h.read_next hq r hr with hr | rfl
      · exact .lower (s := s.take _ _) hr _ _
      · refine ⟨by rw [isSome_info_lower]; exact hsm, fun _ => ?_⟩
        rw [idx_lower]
        exact (low_lower_self i.index (h.isSome_of_mem (h.mem_stack_of_frame (.head _)))).le.trans
          ((min_le_right _ _).trans hidx.ge)
    · exact .lower (s := s.take _ _) (hre z hz r hr) _ _
  next hoff =>
    refine ⟨hco, fun z hz r hr => ?_⟩
    rcases mem_cons.1 hz with rfl | hz
    · rcases h.read_next hq r hr with hr | rfl
      · exact hr
      · refine ⟨hsm, fun hmem => ?_⟩
        obtain ⟨j, hj, hon⟩ := (h.onStack r).1 hmem
        cases (hi.symm.trans hj)
        exact absurd hon hoff
    · exact hre z hz r hr

section

variable (s : State α β) (f : Frame α β) (fs : List (Frame α β)) (me : Info)

/-- The state after an item is finished. -/
def State.finish : State α β :=
  let s := match fs with
    | [] => s.park f fs
    | g :: _ => (s.park f fs).lower g.item me.low
  if me.low = me.index then s.closeScc f.item else s

lemma isSome_info_finish (p : α) : ((s.finish f fs me).info p).isSome = (s.info p).isSome := by
  unfold State.finish
  cases fs with
  | nil =>
    dsimp only
    split
    · rw [isSome_info_closeScc]
      rfl
    · rfl
  | cons g fs =>
    dsimp only
    split
    · rw [isSome_info_closeScc, isSome_info_lower]
      rfl
    · rw [isSome_info_lower]
      rfl

lemma frames_finish : (s.finish f fs me).frames = fs := by
  unfold State.finish
  cases fs <;> dsimp only <;> split <;> rfl

end

lemma Inv.finish (h : Inv succ direct s ((f, seg) :: rest)) (hend : f.succ[f.next]? = none)
    {me : Info} (hme : s.info f.item = some me) :
    ∃ zs, Inv succ direct (s.finish f (rest.map Prod.fst) me) zs := by
  have hf : (f, seg) ∈ (f, seg) :: rest := .head _
  have hlow : s.low f.item = me.low := by
    rw [State.low, hme]
    rfl
  have hidx : s.idx f.item = me.index := by
    rw [State.idx, hme]
    rfl
  have hrd : ∀ q ∈ succ f.item, s.Settled f.item q := by
    intro q hq
    refine h.read _ hf q ?_
    rwa [take_of_length_le (List.getElem?_eq_none_iff.1 hend), (h.frame _ hf).1]
  have hre : ∀ z ∈ rest, ∀ r ∈ z.1.succ.take z.1.next, s.Settled z.1.item r := fun z hz =>
    h.read z (.tail _ hz)
  have hmem := h.mem_stack_of_frame hf
  obtain ⟨u, hu, hui, hur⟩ := h.back _ hmem
  have hcl : me.low = me.index →
      Inv succ direct ((s.park f (rest.map Prod.fst)).closeScc f.item) rest := by
    intro heq
    refine ⟨h.toCore.close hrd (by rw [hlow, hidx, heq]), fun z hz r hr => ?_⟩
    exact .closeScc (s := s.park f _) (hre z hz r hr) _
  cases rest with
  | nil =>
    have hge : s.idx f.item ≤ s.idx u := by
      refine h.idx_le_of_mem ?_
      rwa [h.stack, flatMap_singleton] at hu
    have heq : me.low = me.index := by
      rw [← hlow, ← hidx]
      exact le_antisymm (h.bound _ hmem).1 (hui ▸ hge)
    refine ⟨[], ?_⟩
    unfold State.finish
    rw [if_pos heq]
    exact hcl heq
  | cons z rest =>
    obtain ⟨g, seg'⟩ := z
    have hg : (g, seg') ∈ (f, seg) :: (g, seg') :: rest := .tail _ (.head _)
    have hgf : s.idx g.item < s.idx f.item :=
      h.idx_lt_of_below (mem_flatMap.2 ⟨(g, seg'), .head _,
        mem_append_right _ (mem_singleton_self _)⟩)
    by_cases heq : me.low = me.index
    · refine ⟨(g, seg') :: rest, ?_⟩
      have hle : s.low g.item ≤ me.low := by
        rw [heq, ← hidx]
        exact (h.bound _ (h.mem_stack_of_frame hg)).1.trans hgf.le
      unfold State.finish
      rw [if_pos heq]
      change Inv succ direct
        (((s.park f (g :: rest.map Prod.fst)).lower g.item me.low).closeScc f.item) _
      rw [lower_eq_self (s := s.park f _) hle]
      exact hcl heq
    · refine ⟨(g, seg ++ f.item :: seg') :: rest, ?_⟩
      have hc := (isChain_cons_cons.1 h.chain).1
      have hne : f.item ≠ g.item := fun hfg => hgf.ne (congrArg s.idx hfg.symm)
      have hco := h.toCore.lower hg ⟨u, hu, hui.trans hlow, .head hc hur⟩
      unfold State.finish
      rw [if_neg heq]
      refine ⟨hco.merge (fun q hq => (hrd q hq).lower _ _) ?_ ?_, fun z hz r hr => ?_⟩
      · rw [low_lower_self me.low (h.isSome_of_mem (h.mem_stack_of_frame hg)),
          low_lower_of_ne me.low hne, hlow]
        exact min_le_right _ _
      · rw [low_lower_of_ne me.low hne, idx_lower, hlow, hidx]
        exact lt_of_le_of_ne (hlow ▸ hidx ▸ (h.bound _ hmem).1) heq
      · rcases mem_cons.1 hz with rfl | hz
        · exact (hre (g, seg') (.head _) r hr).lower _ _
        · exact (hre z (.tail _ hz) r hr).lower _ _

/-! ## Runs -/

/-- The steps that are left, for the items that are new and those on the way. -/
def State.left (succ : α → List α) (items : List α) (s : State α β) : ℕ :=
  ((items.filter fun p => (s.info p).isNone).map fun p => 2 + (succ p).length).sum +
    (s.frames.map fun f => 1 + (f.succ.length - f.next)).sum

variable {items : List α}

omit [DecidableEq α] in
lemma sum_filter_add_le {P Q : α → Bool} (w : α → ℕ) (hq : q ∈ items)
    (hP : P q = true) (hQ : Q q = false)
    (hle : ∀ p, Q p = true → P p = true) :
    ((items.filter Q).map w).sum + w q ≤ ((items.filter P).map w).sum := by
  induction items with
  | nil => cases hq
  | cons r items ih =>
    rcases mem_cons.1 hq with rfl | hq
    · rw [filter_cons_of_neg (by rw [hQ]; exact Bool.false_ne_true),
        filter_cons_of_pos hP, add_comm]
      exact Nat.add_le_add_left (((monotone_filter_right items hle).map w).sum_le_sum
        fun _ _ => Nat.zero_le _) _
    · cases hr : Q r with
      | false =>
        rw [filter_cons_of_neg (by rw [hr]; exact Bool.false_ne_true)]
        refine (ih hq).trans ?_
        exact (((sublist_cons_self r items).filter P).map w).sum_le_sum fun _ _ => Nat.zero_le _
      | true =>
        rw [filter_cons_of_pos hr, filter_cons_of_pos (hle r hr), map_cons, sum_cons, add_assoc]
        exact Nat.add_le_add_left (ih hq) _

/-- The items visited are among `items`, which the successors do not leave. -/
structure Within (succ : α → List α) (items : List α) (s : State α β) : Prop where
  closed : ∀ p ∈ items, ∀ q ∈ succ p, q ∈ items
  visited : ∀ p, (s.info p).isSome → p ∈ items

/-- What one step keeps, and that it is one step less. -/
structure Advanced (succ : α → List α) (items : List α) (s s' : State α β) : Prop where
  within : Within succ items s'
  visited : ∀ p, (s.info p).isSome → (s'.info p).isSome
  left : s'.left succ items < s.left succ items

omit [DecidableEq α] [LinearOrder β] in
/-- A step that visits no new item. -/
lemma Within.advanced (h : Within succ items s) {s' : State α β}
    (hin : ∀ p, (s'.info p).isSome = (s.info p).isSome)
    (hfr : (s'.frames.map fun f => 1 + (f.succ.length - f.next)).sum <
      (s.frames.map fun f => 1 + (f.succ.length - f.next)).sum) :
    Advanced succ items s s' := by
  refine ⟨⟨h.closed, fun p hp => h.visited p (hin p ▸ hp)⟩, fun p hp => (hin p).symm ▸ hp, ?_⟩
  have hno : (fun p => (s'.info p).isNone) = fun p => (s.info p).isNone := by
    funext p
    rw [← not_isSome, ← not_isSome, hin p]
  rw [State.left, hno]
  exact Nat.add_lt_add_left hfr _

lemma Inv.step (h : Inv succ direct s zs) (hin : Within succ items s) :
    (zs = [] ∧ s.step succ direct = none) ∨
      ∃ s' zs', s.step succ direct = some s' ∧ Inv succ direct s' zs' ∧
      Advanced succ items s s' := by
  cases zs with
  | nil =>
    refine .inl ⟨rfl, ?_⟩
    rw [State.step, h.frames]
    rfl
  | cons z rest =>
    obtain ⟨f, seg⟩ := z
    refine .inr ?_
    have hfr : s.frames = f :: rest.map Prod.fst := h.frames
    have hmem := h.mem_stack_of_frame (.head _)
    cases hq : f.succ[f.next]? with
    | some q =>
      have hlt : f.next < f.succ.length := (List.getElem?_eq_some_iff.1 hq).1
      have hle : 1 + (f.succ.length - (f.next + 1)) < 1 + (f.succ.length - f.next) := by omega
      cases hi : s.info q with
      | none =>
        refine ⟨_, _, ?_, h.new hq hi, ⟨hin.closed, fun p hp => ?_⟩, fun p hp => ?_, ?_⟩
        · rw [State.step, hfr]
          dsimp only
          rw [hq]
          dsimp only
          rw [hi]
          rfl
        · by_cases hpq : p = q
          · rw [hpq]
            exact hin.closed _ (hin.visited _ (h.isSome_of_mem hmem)) _ (h.mem_succ hq)
          · rw [info_push_of_ne hpq] at hp
            exact hin.visited p hp
        · by_cases hpq : p = q
          · rw [hpq, hi] at hp
            cases hp
          · rwa [info_push_of_ne hpq]
        · have hsum := sum_filter_add_le (P := fun p => (s.info p).isNone)
            (Q := fun p => (((s.take f (rest.map Prod.fst)).push succ direct q).info p).isNone)
            (fun p => 2 + (succ p).length) (hin.closed _ (hin.visited _ (h.isSome_of_mem hmem)) _
              (h.mem_succ hq)) (by rw [hi]; rfl)
            (by rw [info_push_self]; rfl) (fun p hp => ?_)
          · rw [State.left, State.left, hfr]
            change _ + ((1 + ((succ q).length - 0)) ::
              (1 + (f.succ.length - (f.next + 1))) :: _).sum <
              _ + ((1 + (f.succ.length - f.next)) :: _).sum
            rw [sum_cons, sum_cons, sum_cons]
            omega
          · by_cases hpq : p = q
            · rw [hpq, info_push_self] at hp
              cases hp
            · rwa [info_push_of_ne hpq] at hp
      | some i =>
        refine ⟨_, _, ?_, h.seen hq hi, hin.advanced (fun p => ?_) ?_⟩
        · rw [State.step, hfr]
          dsimp only
          rw [hq]
          dsimp only
          rw [hi]
          rfl
        · split
          · exact isSome_info_lower _ _ _ _
          · rfl
        · have hnew : (if i.onStack then (s.take f (rest.map Prod.fst)).lower f.item i.index
              else s.take f (rest.map Prod.fst)).frames =
              { f with next := f.next + 1 } :: rest.map Prod.fst := by
            split <;> rfl
          rw [hnew, hfr]
          exact Nat.add_lt_add_right hle _
    | none =>
      obtain ⟨me, hme⟩ := isSome_iff_exists.1 (h.isSome_of_mem hmem)
      obtain ⟨zs, hzs⟩ := h.finish hq hme
      refine ⟨_, zs, ?_, hzs, hin.advanced (fun p => ?_) ?_⟩
      · rw [State.step, hfr]
        dsimp only
        rw [hq]
        rw [hme]
        rfl
      · exact isSome_info_finish _ _ _ _ _
      · rw [show (s.finish f (rest.map Prod.fst) me).frames = rest.map Prod.fst from
          frames_finish _ _ _ _, hfr]
        exact Nat.lt_add_of_pos_left (Nat.add_pos_left Nat.one_pos _)

/-- A run with steps enough closes all that it visits. -/
lemma run_spec {fuel : ℕ} (h : Inv succ direct s zs) (hin : Within succ items s)
    (hfu : s.left succ items ≤ fuel) :
    Inv succ direct (State.run succ direct fuel s) [] ∧
    Within succ items (State.run succ direct fuel s) ∧
      ∀ p, (s.info p).isSome → ((State.run succ direct fuel s).info p).isSome := by
  induction fuel generalizing s zs with
  | zero =>
    rcases h.step hin with ⟨rfl, -⟩ | ⟨s', zs', -, -, hadv⟩
    · exact ⟨h, hin, fun _ hp => hp⟩
    · exact absurd (hadv.left.trans_le hfu) (Nat.not_lt_zero _)
  | succ fuel ih =>
    rcases h.step hin with ⟨rfl, hsto⟩ | ⟨s', zs', hst, hinv, hadv⟩
    · rw [State.run, hsto]
      exact ⟨h, hin, fun _ hp => hp⟩
    · rw [State.run, hst]
      obtain ⟨hdo, hin', hke⟩ := ih hinv hadv.within (Nat.le_of_lt_succ (hadv.left.trans_le hfu))
      exact ⟨hdo, hin', fun p hp => hke p (hadv.visited p hp)⟩

/-- Steps that suffice for any root. -/
def enough (succ : α → List α) (items : List α) : ℕ := (items.map fun p => 2 + (succ p).length).sum

/-- Between two roots nothing is on the way. -/
structure Idle (succ : α → List α) (direct : α → List β) (items : List α)
    (s : State α β) : Prop where
  inv : Inv succ direct s []
  within : Within succ items s

omit [DecidableEq α] [LinearOrder β] in
lemma Idle.init (hite : ∀ p ∈ items, ∀ q ∈ succ p, q ∈ items) :
    Idle succ direct items (State.init : State α β) where
  inv.frames := rfl
  inv.stack := rfl
  inv.frame _ hz := nomatch hz
  inv.chain := .nil
  inv.nodup := nodup_nil
  inv.onStack _ := ⟨nofun, fun ⟨_, h, _⟩ => nomatch h⟩
  inv.sorted := .nil
  inv.bound _ h := nomatch h
  inv.back _ h := nomatch h
  inv.done _ h := nomatch h
  inv.closed _ _ h := nomatch h
  inv.empty := rfl
  inv.read _ h := nomatch h
  within := ⟨hite, fun _ h => nomatch h⟩

/-- The support of a root is exact, whatever was computed before. -/
lemma Idle.supportOf (h : Idle succ direct items s) (hr : root ∈ items) :
    Idle succ direct items (s.supportOf succ direct (enough succ items) root).1 ∧
      ∀ x, x ∈ (s.supportOf succ direct (enough succ items) root).2 ↔
      Support succ direct root x := by
  have key : ∀ t : State α β, Idle succ direct items t → (t.info root).isSome →
      ∀ x, x ∈ t.setOf root ↔ Support succ direct root x := by
    intro t ht hsm x
    obtain ⟨i, hi, hoff⟩ := ht.inv.closed_of_not_mem hsm (by rw [ht.inv.stack]; exact not_mem_nil)
    rw [State.setOf, hi]
    exact (ht.inv.closed root i hi hoff).2.2 x
  rw [State.supportOf]
  by_cases hsm : (s.info root).isSome
  · rw [if_pos hsm]
    exact ⟨h, key s h hsm⟩
  · rw [if_neg hsm]
    have hno := not_isSome_iff_eq_none.1 hsm
    have hpu := h.inv.push hno nofun fun _ hz => nomatch hz
    have hse : ((s.push succ direct root).info root).isSome := by
      rw [info_push_self]
      rfl
    have hin : Within succ items (s.push succ direct root) := by
      refine ⟨h.within.closed, fun p hp => ?_⟩
      by_cases heq : p = root
      · rwa [heq]
      · rw [info_push_of_ne heq] at hp
        exact h.within.visited p hp
    have hl : (s.push succ direct root).left succ items ≤ enough succ items := by
      have hsum := sum_filter_add_le (P := fun _ => true)
        (Q := fun p => ((s.push succ direct root).info p).isNone)
        (fun p => 2 + (succ p).length) hr rfl (by rw [← not_isSome, hse]; rfl) fun _ _ => rfl
      rw [filter_true] at hsum
      rw [State.left, show (s.push succ direct root).frames =
        [⟨root, succ root, direct root, 0⟩] from congrArg _ h.inv.frames, enough]
      change _ + (1 + ((succ root).length - 0) + 0) ≤ _
      omega
    obtain ⟨hdo, hin', hke⟩ := run_spec hpu hin hl
    exact ⟨⟨hdo, hin'⟩, key _ ⟨hdo, hin'⟩ (hke root hse)⟩

end

end

end LiveHD.Supports
