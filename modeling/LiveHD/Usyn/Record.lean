import LiveHD.Usyn.Budget

/-!
# The reproduction record of one budget

`Step` says what an operation may do to a budget: the record only grows.  `Twin` relates the budgets
of two runs, equal but for the credits left; when the final record of the first run `Replays` the
size of the second, the operation answers the same on both and leaves twins.
-/

namespace LiveHD.Usyn

/-- The credits a budget started with. -/
def Budget.size (b : Budget) : Nat := b.consumed + b.remaining

/-- The invariant of a budget: nothing has wrapped, the recorded floor is one the
run itself met, and an exhaustion is on record. -/
structure Budget.Ok (b : Budget) : Prop where
  lt : b.size < 2 ^ 64
  floor_le : b.floor ≤ b.size
  exhausted : b.exhausted = true → b.bound = true ∨ b.resourceExhausted = true

/-- What every operation preserves, and every later state of a budget satisfies. -/
structure Budget.Step (b c : Budget) : Prop where
  ok : c.Ok
  size : c.size = b.size
  origin : c.origin = b.origin
  floor : b.floor ≤ c.floor
  bound : b.bound = true → c.bound = true
  refused : b.resourceExhausted = true → c.resourceExhausted = true

/-- Two budgets that differ in their credits only. -/
def Budget.Twin (b b' : Budget) : Prop :=
  b' = { b with
      remaining := b'.remaining
      origin := { b.origin with remaining := b'.origin.remaining } }

/-- The record `f` of a finished run admits the size of the twin `b'` of `b`. -/
def Budget.Replays (f b b' : Budget) : Prop :=
  if f.bound then b'.size = b.size else f.floor ≤ b'.size

namespace Budget

lemma Step.refl {b : Budget} (h : b.Ok) : Step b b := ⟨h, rfl, rfl, le_rfl, id, id⟩

lemma Step.trans {b c d : Budget} (h : Step b c) (k : Step c d) : Step b d :=
  ⟨k.ok, k.size.trans h.size, k.origin.trans h.origin, le_trans h.floor k.floor,
    k.bound ∘ h.bound, k.refused ∘ h.refused⟩

namespace Twin

variable {b b' : Budget}

section

variable (h : Twin b b')
include h

lemma consumed : b'.consumed = b.consumed := by rw [h]
lemma floor : b'.floor = b.floor := by rw [h]
lemma bound : b'.bound = b.bound := by rw [h]
lemma exhausted : b'.exhausted = b.exhausted := by rw [h]
lemma samples (n : Nat) : b'.samples n = b.samples n := by rw [h]; rfl

end

end Twin

lemma Twin.exists {b b' : Budget} (h : Twin b b') :
    ∃ r o, b' = { b with remaining := r, origin := { b.origin with remaining := o } } := ⟨_, _, h⟩

/-- Equal sizes and equal consumption leave equal credits. -/
lemma Twin.remaining_eq {b b' : Budget} (h : Twin b b') (hs : b'.size = b.size) :
    b'.remaining = b.remaining := by
  have := h.consumed
  simp only [size] at hs
  omega

/-- What a later record says about the twin's credits now: either they are the
same, or they cover whatever floor the operation recorded. -/
lemma Replays.cases {f b b' c : Budget} (h : Replays f b b') (hc : Step c f) :
    b'.size = b.size ∨ (c.bound = false ∧ c.floor ≤ b'.size) := by
  unfold Replays at h
  split at h
  · exact .inl h
  next hb =>
    refine .inr ⟨?_, le_trans hc.floor h⟩
    cases hcb : c.bound with
    | false => rfl
    | true => exact absurd (hc.bound hcb) hb

/-! ## `spend` -/

lemma charge_step {b : Budget} (h : b.Ok) (he : b.exhausted = false) (n : Nat) :
    Step b (b.charge n).2 := by
  have hlt := h.lt
  have hfl := h.floor_le
  simp only [size] at hlt hfl
  unfold charge
  by_cases hn : n > b.remaining
  · simp only [hn]
    exact ⟨⟨h.lt, h.floor_le, fun _ => .inl rfl⟩, rfl, rfl, le_rfl, fun _ => rfl, id⟩
  · have hw : u64 (b.consumed + n) = b.consumed + n := u64_of_lt (by omega)
    simp only [hn, if_false]
    refine ⟨⟨?_, ?_, ?_⟩, ?_, rfl, le_max_left _ _, id, id⟩
    · simp only [size]; omega
    · simp only [size]; omega
    · simp [he]
    · simp only [size]; omega

lemma spend_of_exhausted {b : Budget} (he : b.exhausted = true) (g : Bool) (n : Nat) :
    b.spend g n = (false, b) := if_pos he

variable {n : Nat}

section

variable {b : Budget} (he : b.exhausted = false)
include he

lemma spend_of_refused (hs : b.samples n = true) :
    b.spend false n = (false, { b with resourceExhausted := true, exhausted := true }) := by
  rw [spend, if_neg (by simp [he]), if_pos hs, if_neg Bool.false_ne_true]

lemma spend_of_granted (hs : b.samples n = true) :
    b.spend true n = charge { b with checkpointWork := b.admissionInterval } n := by
  rw [spend, if_neg (by simp [he]), if_pos hs, if_pos rfl]

lemma spend_of_unsampled (hs : b.samples n = false) (g : Bool) : b.spend g n = b.charge n := by
  rw [spend, if_neg (by simp [he]), if_neg (by simp [hs])]

end

lemma spend_step {b : Budget} (h : b.Ok) (g : Bool) (n : Nat) : Step b (b.spend g n).2 := by
  cases he : b.exhausted with
  | true =>
    rw [spend_of_exhausted he]
    exact .refl h
  | false =>
    cases hs : b.samples n with
    | false =>
      rw [spend_of_unsampled he hs]
      exact charge_step h he n
    | true =>
      cases g with
      | false =>
        rw [spend_of_refused he hs]
        exact ⟨⟨h.lt, h.floor_le, fun _ => .inr rfl⟩, rfl, rfl, le_rfl, id, fun _ => rfl⟩
      | true =>
        rw [spend_of_granted he hs]
        have hk : Ok { b with checkpointWork := b.admissionInterval } :=
          ⟨h.lt, h.floor_le, h.exhausted⟩
        have hs := charge_step hk he n
        exact ⟨hs.ok, hs.size, hs.origin, hs.floor, hs.bound, hs.refused⟩

lemma charge_twin {b b' f : Budget} (ht : Twin b b') (ho : b.Ok) (ho' : b'.Ok)
    (hf : Step (b.charge n).2 f) (hr : Replays f b b') :
    (b'.charge n).1 = (b.charge n).1 ∧ Twin (b.charge n).2 (b'.charge n).2 := by
  have hc := ht.consumed
  have hlt := ho.lt
  have hlt' := ho'.lt
  simp only [size] at hlt hlt'
  have key : n > b'.remaining ↔ n > b.remaining := by
    rcases hr.cases hf with hs | ⟨hb, hfl⟩
    · rw [ht.remaining_eq hs]
    · by_cases hn : n > b.remaining
      · simp [charge, hn] at hb
      · have hw : u64 (b.consumed + n) = b.consumed + n := u64_of_lt (by omega)
        simp only [charge, hn, hw] at hfl
        have := le_trans (le_max_right b.floor (b.consumed + n)) hfl
        simp only [size] at this
        omega
  obtain ⟨r, o, rfl⟩ := ht.exists
  unfold charge
  by_cases hn : n > b.remaining
  · have hn' := key.2 hn
    rw [if_pos hn, if_pos hn']
    exact ⟨rfl, rfl⟩
  · have hn' := mt key.1 hn
    rw [if_neg hn, if_neg hn']
    exact ⟨rfl, rfl⟩

/-- Two twins spend alike, as long as neither is refused admission. -/
lemma spend_twin {b b' f : Budget} (ht : Twin b b') (ho : b.Ok) (ho' : b'.Ok) {g g' : Bool}
    (hf : Step (b.spend g n).2 f) (hr : Replays f b b')
    (hg : (b.spend g n).2.resourceExhausted = false)
    (hg' : (b'.spend g' n).2.resourceExhausted = false) :
    (b'.spend g' n).1 = (b.spend g n).1 ∧ Twin (b.spend g n).2 (b'.spend g' n).2 := by
  cases he : b.exhausted with
  | true =>
    rw [spend_of_exhausted he, spend_of_exhausted (ht.exhausted.trans he)]
    exact ⟨rfl, ht⟩
  | false =>
    have he' := ht.exhausted.trans he
    cases hs : b.samples n with
    | false =>
      have hs' := (ht.samples n).trans hs
      rw [spend_of_unsampled he hs] at hf ⊢
      rw [spend_of_unsampled he' hs']
      exact charge_twin ht ho ho' hf hr
    | true =>
      have hs' := (ht.samples n).trans hs
      cases g with
      | false =>
        rw [spend_of_refused he hs] at hg
        cases hg
      | true =>
        cases g' with
        | false =>
          rw [spend_of_refused he' hs'] at hg'
          cases hg'
        | true =>
          rw [spend_of_granted he hs] at hf ⊢
          rw [spend_of_granted he' hs']
          have ht' : Twin { b with checkpointWork := b.admissionInterval }
              { b' with checkpointWork := b'.admissionInterval } := by
            obtain ⟨r, o, rfl⟩ := ht.exists
            rfl
          exact charge_twin ht' ⟨ho.lt, ho.floor_le, ho.exhausted⟩
            ⟨ho'.lt, ho'.floor_le, ho'.exhausted⟩ hf hr

/-! ## `has` and `available` -/

lemma has_step {b : Budget} (h : b.Ok) (n : Nat) : Step b (b.has n).2 := by
  have hlt := h.lt
  have hfl := h.floor_le
  simp only [size] at hlt hfl
  unfold has
  by_cases hn : n > b.remaining
  · simp only [hn]
    exact ⟨⟨h.lt, h.floor_le, fun _ => .inl rfl⟩, rfl, rfl, le_rfl, fun _ => rfl, id⟩
  · have hw : u64 (b.consumed + n) = b.consumed + n := u64_of_lt (by omega)
    simp only [hn, if_false]
    refine ⟨⟨h.lt, ?_, h.exhausted⟩, rfl, rfl, le_max_left _ _, id, id⟩
    simp only [size]; omega

lemma has_twin {b b' f : Budget} (ht : Twin b b') (ho : b.Ok)
    (hf : Step (b.has n).2 f) (hr : Replays f b b') :
    (b'.has n).1 = (b.has n).1 ∧ Twin (b.has n).2 (b'.has n).2 := by
  have hc := ht.consumed
  have hlt := ho.lt
  simp only [size] at hlt
  have key : n > b'.remaining ↔ n > b.remaining := by
    rcases hr.cases hf with hs | ⟨hb, hfl⟩
    · rw [ht.remaining_eq hs]
    · by_cases hn : n > b.remaining
      · simp [has, hn] at hb
      · have hw : u64 (b.consumed + n) = b.consumed + n := u64_of_lt (by omega)
        simp only [has, hn, hw] at hfl
        have := le_trans (le_max_right b.floor (b.consumed + n)) hfl
        simp only [size] at this
        omega
  obtain ⟨r, o, rfl⟩ := ht.exists
  unfold has
  by_cases hn : n > b.remaining
  · have hn' := key.2 hn
    rw [if_pos hn, if_pos hn']
    exact ⟨rfl, rfl⟩
  · have hn' := mt key.1 hn
    rw [if_neg hn, if_neg hn']
    exact ⟨rfl, rfl⟩

lemma available_step {b : Budget} (h : b.Ok) (n : Nat) : Step b (b.available n).2 := by
  unfold available
  split
  · exact .refl h
  · exact has_step h n

lemma available_twin {b b' f : Budget} (ht : Twin b b') (ho : b.Ok)
    (hf : Step (b.available n).2 f) (hr : Replays f b b') :
    (b'.available n).1 = (b.available n).1 ∧ Twin (b.available n).2 (b'.available n).2 := by
  unfold available at *
  rw [ht.exhausted]
  split
  · exact ⟨rfl, ht⟩
  next he =>
    rw [if_neg he] at hf
    exact has_twin ht ho hf hr

/-! ## Slices -/

/-- A slice `c` was sized from its parent `p`. -/
structure Sized (c p : Budget) : Prop where
  size : c.size = min c.origin.cap (part c.origin.remaining c.origin.divisor c.origin.reserve)
  parent : c.origin.consumed + c.origin.remaining = p.size

lemma Sized.step {c c' p p' : Budget} (h : Sized c p) (hc : Step c c')
    (hp : Step p p') : Sized c' p' := by
  obtain ⟨h1, h2⟩ := h
  rw [← hc.size, ← hc.origin] at h1
  rw [← hp.size, ← hc.origin] at h2
  exact ⟨h1, h2⟩

/-- The record of a finished slice `c` has been lifted into its parent `p`. -/
structure Absorbed (c p : Budget) : Prop where
  free : c.bound = false → need c.origin c.floor ≤ p.floor
  capped : c.bound = true → c.origin.cap ≤
    part c.origin.remaining c.origin.divisor c.origin.reserve →
    need c.origin c.origin.cap ≤ p.floor
  bound : c.bound = true → part c.origin.remaining c.origin.divisor c.origin.reserve <
    c.origin.cap → p.bound = true
  refused : c.resourceExhausted = true → p.resourceExhausted = true

lemma Absorbed.mono {c p q : Budget} (h : Absorbed c p) (hs : Step p q) : Absorbed c q :=
  ⟨fun k => le_trans (h.free k) hs.floor, fun k l => le_trans (h.capped k l) hs.floor,
    fun k l => hs.bound (h.bound k l), hs.refused ∘ h.refused⟩

/-- A slice of at least `k` credits is exactly one from a remainder of `reserve + divisor * k`. -/
lemma le_part {r d s k : Nat} (hk : k ≠ 0) : k ≤ part r d s ↔ 0 < d ∧ s + d * k ≤ r := by
  have hpos := Nat.pos_of_ne_zero hk
  rcases Nat.eq_zero_or_pos d with rfl | hd
  · simp only [part, Nat.div_zero, ite_self]
    omega
  · unfold part
    have hdk := Nat.mul_pos hd hpos
    split
    · rw [Nat.le_div_iff_mul_le hd, Nat.mul_comm]
      omega
    · omega

section

variable {o : Origin} {k : Nat} (hlt : o.consumed + o.remaining < 2 ^ 64)
include hlt

/-- `need` does not wrap, and asks for no more than the parent had. -/
lemma need_eq (hk : k ≠ 0) (h : k ≤ part o.remaining o.divisor o.reserve) :
    need o k = o.consumed + o.reserve + o.divisor * k := by
  have := (le_part hk).1 h
  rw [need, if_pos hk, u64_of_lt (by omega)]

lemma need_le (h : k ≤ part o.remaining o.divisor o.reserve) :
    need o k ≤ o.consumed + o.remaining := by
  by_cases hk : k = 0
  · simp [need, hk]
  · have := (le_part hk).1 h
    rw [need_eq hlt hk h]
    omega

end

/-- A parent that meets `need o k` in another run gives that slice `k` credits there too. -/
lemma le_part_of_need_le {o : Origin} {k r : Nat} (hlt : o.consumed + o.remaining < 2 ^ 64)
    (h : k ≤ part o.remaining o.divisor o.reserve) (hn : need o k ≤ o.consumed + r) :
    k ≤ part r o.divisor o.reserve := by
  by_cases hk : k = 0
  · omega
  · have := (le_part hk).1 h
    rw [need_eq hlt hk h] at hn
    exact (le_part hk).2 ⟨this.1, by omega⟩

lemma slice_ok {b : Budget} (h : b.Ok) (cap divisor reserve : Nat) :
    (b.slice cap divisor reserve).Ok := by
  have hle : part b.remaining divisor reserve ≤ b.remaining := by
    unfold part
    split
    · exact le_trans (Nat.div_le_self _ _) (Nat.sub_le _ _)
    · exact Nat.zero_le _
  have hlt := h.lt
  simp only [size] at hlt
  refine ⟨?_, Nat.zero_le _, fun he => .inl he⟩
  simp only [size, slice]
  omega

lemma slice_sized (b : Budget) (cap divisor reserve : Nat) :
    Sized (b.slice cap divisor reserve) b := ⟨Nat.zero_add _, rfl⟩

lemma slice_twin {b b' : Budget} (ht : Twin b b') (cap divisor reserve : Nat) :
    Twin (b.slice cap divisor reserve) (b'.slice cap divisor reserve) := by
  obtain ⟨r, o, rfl⟩ := ht.exists
  rfl

lemma absorbFloor_step {b c : Budget} (h : b.Ok) (hc : c.Ok) (hs : Sized c b) :
    Step b (b.absorbFloor c) := by
  have hlt := hs.parent ▸ h.lt
  have raise : ∀ k, k ≤ part c.origin.remaining c.origin.divisor c.origin.reserve →
      Step b { b with floor := max b.floor (need c.origin k) } := fun k hk =>
    ⟨⟨h.lt, max_le h.floor_le (le_trans (need_le hlt hk) hs.parent.le), h.exhausted⟩, rfl, rfl,
      le_max_left _ _, id, id⟩
  unfold absorbFloor
  split
  · refine raise c.floor (le_trans hc.floor_le ?_)
    exact hs.size.trans_le (min_le_right _ _)
  · dsimp only
    split
    next hcap => exact raise _ hcap
    · exact ⟨⟨h.lt, h.floor_le, fun _ => .inl rfl⟩, rfl, rfl, le_rfl, fun _ => rfl, id⟩

lemma absorbWork_step {b : Budget} (h : b.Ok) (c : Budget) : Step b (b.absorbWork c) := by
  have hlt := h.lt
  have hfl := h.floor_le
  have hex := h.exhausted
  simp only [size] at hlt hfl
  have hw : u64 (b.consumed + min b.remaining c.consumed) =
      b.consumed + min b.remaining c.consumed :=
    u64_of_lt (by omega)
  unfold absorbWork
  by_cases hn : c.consumed > b.remaining
  · simp only [hn, if_true]
    refine ⟨⟨?_, ?_, fun _ => .inl rfl⟩, ?_, rfl, le_max_left _ _, fun _ => rfl, ?_⟩
    · simp only [size]; omega
    · simp only [size]; omega
    · simp only [size]; omega
    · intro hr; simp [hr]
  · simp only [hn, if_false]
    refine ⟨⟨?_, ?_, ?_⟩, ?_, rfl, le_max_left _ _, id, ?_⟩
    · simp only [size]; omega
    · simp only [size]; omega
    · intro he
      rcases Bool.or_eq_true_iff.1 he with he | he
      · rcases hex he with hb | hr
        · exact .inl hb
        · exact .inr (by simp [hr])
      · exact .inr (by simp [he])
    · simp only [size]; omega
    · intro hr; simp [hr]

lemma absorb_step {b c : Budget} (h : b.Ok) (hc : c.Ok) (hs : Sized c b) : Step b (b.absorb c) :=
  (absorbFloor_step h hc hs).trans (absorbWork_step (absorbFloor_step h hc hs).ok c)

lemma absorb_absorbed {b c : Budget} (h : b.Ok) (hc : c.Ok) (hs : Sized c b) :
    Absorbed c (b.absorb c) := by
  have hw := absorbWork_step (absorbFloor_step h hc hs).ok c
  refine ⟨fun hb => le_trans ?_ hw.floor, fun hb hp => le_trans ?_ hw.floor,
    fun hb hp => hw.bound ?_, fun hr => by simp [absorb, absorbWork, hr]⟩
  · simp [absorbFloor, hb]
  · simp [absorbFloor, hb, hp]
  · simp [absorbFloor, hb, Nat.not_le.2 hp]

/-- A fresh slice inherits the guarantee of its parent, provided the final record
`f` of the slice was absorbed into the final record `fp` of the parent. -/
lemma slice_replays {b b' f fp : Budget} {cap divisor reserve : Nat} (ho : b.Ok) (ht : Twin b b')
    (hs : Step (b.slice cap divisor reserve) f) (hr : Replays fp b b') (ha : Absorbed f fp) :
    Replays f (b.slice cap divisor reserve) (b'.slice cap divisor reserve) := by
  have hlt : f.origin.consumed + f.origin.remaining < 2 ^ 64 := by rw [hs.origin]; exact ho.lt
  have hsz : ∀ a : Budget, (a.slice cap divisor reserve).size =
      min cap (part a.remaining divisor reserve) :=
    fun a => (slice_sized a cap divisor reserve).size
  have same : b'.size = b.size →
      (b'.slice cap divisor reserve).size = (b.slice cap divisor reserve).size := by
    intro h
    rw [hsz, hsz, ht.remaining_eq h]
  -- the parent's floor, when it was not bound, keeps any part the slice relied on
  have keep : ∀ k, need f.origin k ≤ b'.size → k ≤ part b.remaining divisor reserve →
      k ≤ part b'.remaining divisor reserve := by
    intro k hk hp
    have := le_part_of_need_le (o := f.origin) (k := k) (r := b'.remaining) hlt
    rw [hs.origin] at this hk
    refine this hp ?_
    rwa [size, ht.consumed] at hk
  have hcap : f.origin.cap = cap := by rw [hs.origin]; rfl
  have hpa : part f.origin.remaining f.origin.divisor f.origin.reserve =
      part b.remaining divisor reserve := by
    rw [hs.origin]; rfl
  unfold Replays at hr ⊢
  cases hb : f.bound with
  | false =>
    have hfl : f.floor ≤ min cap (part b.remaining divisor reserve) := by
      rw [← hsz b, ← hs.size]
      exact hs.ok.floor_le
    by_cases hp : fp.bound = true
    · rw [if_pos hp] at hr
      rwa [same hr, hsz]
    · rw [if_neg hp] at hr
      rw [hsz]
      exact le_min (le_trans hfl (min_le_left _ _))
        (keep _ (le_trans (ha.free hb) hr) (le_trans hfl (min_le_right _ _)))
  | true =>
    rw [if_pos rfl]
    by_cases hp : fp.bound = true
    · rw [if_pos hp] at hr
      exact same hr
    · rw [if_neg hp] at hr
      have hle : cap ≤ part b.remaining divisor reserve := by
        by_contra hlt'
        rw [not_le, ← hcap, ← hpa] at hlt'
        exact hp (ha.bound hb hlt')
      have hflo := ha.capped hb (by rw [hcap, hpa]; exact hle)
      rw [hcap] at hflo
      rw [hsz, hsz, min_eq_left hle, min_eq_left (keep cap (le_trans hflo hr) hle)]

section

variable {b b' c c' f : Budget} (ht : Twin b b') (htc : Twin c c') (ho : b.Ok)
include ht htc ho

lemma absorbFloor_twin (hs : Sized c b) (hs' : Sized c' b')
    (hf : Step (b.absorbFloor c) f) (hr : Replays f b b') :
    Twin (b.absorbFloor c) (b'.absorbFloor c') := by
  obtain ⟨rc, o, rfl⟩ := htc.exists
  have hlt := hs.parent ▸ ho.lt
  have hpa' : c.origin.consumed + o = b'.size := hs'.parent
  have hpar := hs.parent
  have key : c.bound = true → (c.origin.cap ≤ part o c.origin.divisor c.origin.reserve ↔
      c.origin.cap ≤ part c.origin.remaining c.origin.divisor c.origin.reserve) := by
    intro hb
    rcases hr.cases hf with h | ⟨hbf, hfl⟩
    · have : o = c.origin.remaining := by omega
      rw [this]
    · by_cases hcap : c.origin.cap ≤ part c.origin.remaining c.origin.divisor c.origin.reserve
      · simp only [hcap, iff_true]
        refine le_part_of_need_le hlt hcap (le_trans ?_ (hfl.trans hpa'.ge))
        simp [absorbFloor, hb, hcap]
      · simp [absorbFloor, hb, hcap] at hbf
  obtain ⟨r, ob, rfl⟩ := ht.exists
  unfold absorbFloor
  cases hb : c.bound with
  | false => rfl
  | true =>
    by_cases hcap : c.origin.cap ≤ part c.origin.remaining c.origin.divisor c.origin.reserve
    · simp only [hcap, (key hb).2 hcap]
      rfl
    · simp only [hcap, mt (key hb).1 hcap]
      rfl

lemma absorbWork_twin (hf : Step (b.absorbWork c) f) (hr : Replays f b b') :
    Twin (b.absorbWork c) (b'.absorbWork c') := by
  obtain ⟨rc, oc, rfl⟩ := htc.exists
  have hlt := ho.lt
  have hcon := ht.consumed
  simp only [size] at hlt
  have key : c.consumed > b'.remaining ↔ c.consumed > b.remaining := by
    rcases hr.cases hf with h | ⟨hb, hfl⟩
    · rw [ht.remaining_eq h]
    · by_cases hn : c.consumed > b.remaining
      · simp [absorbWork, hn] at hb
      · have hle := Nat.not_lt.1 hn
        have hw : u64 (b.consumed + c.consumed) = b.consumed + c.consumed := u64_of_lt (by omega)
        simp only [absorbWork, hn, if_false, min_eq_right hle, hw] at hfl
        have := le_trans (le_max_right b.floor (b.consumed + c.consumed)) hfl
        simp only [size] at this
        omega
  have same : c.consumed > b.remaining → b'.remaining = b.remaining := by
    intro hn
    rcases hr.cases hf with h | ⟨hb, -⟩
    · exact ht.remaining_eq h
    · simp [absorbWork, hn] at hb
  obtain ⟨r, o, rfl⟩ := ht.exists
  unfold absorbWork
  by_cases hn : c.consumed > b.remaining
  · have hr' := same hn
    subst hr'
    simp only [hn]
    rfl
  · have hn' := mt key.1 hn
    have hle := Nat.not_lt.1 hn
    have hle' := Nat.not_lt.1 hn'
    simp only [hn, if_false, min_eq_right hle, min_eq_right hle', Nat.not_lt.2 hle']
    rfl

lemma absorb_twin (ho' : b'.Ok) (hc : c.Ok) (hc' : c'.Ok) (hs : Sized c b) (hs' : Sized c' b')
    (hf : Step (b.absorb c) f) (hr : Replays f b b') : Twin (b.absorb c) (b'.absorb c') := by
  have h1 := absorbFloor_step ho hc hs
  have h1' := absorbFloor_step ho' hc' hs'
  have h2 := absorbWork_step h1.ok c
  refine absorbWork_twin (absorbFloor_twin ht htc ho hs hs' (h2.trans hf) hr) htc h1.ok hf ?_
  unfold Replays at hr ⊢
  rwa [h1.size, h1'.size]

end

end Budget

/-! ## Shares -/

namespace CreditShare

open Budget

/-- The share `s` was read from the budget `b` at some earlier point. -/
structure Of (s : CreditShare) (b : Budget) : Prop where
  consumed_le : s.consumed ≤ b.size
  value : s.value = min s.cap (part (b.size - s.consumed) s.divisor 0)

lemma Of.step {s : CreditShare} {b c : Budget} (h : s.Of b) (hs : Step b c) : s.Of c := by
  obtain ⟨h1, h2⟩ := h
  rw [← hs.size] at h1 h2
  exact ⟨h1, h2⟩

lemma read_of (h : Nat) (b : Budget) (cap divisor : Nat) : (read h b cap divisor).Of b := by
  have hsub : b.size - b.consumed = b.remaining := Nat.add_sub_cancel_left _ _
  refine ⟨Nat.le_add_right _ _, ?_⟩
  simp only [read, part, hsub]
  split
  · rfl
  next hpos => rw [Nat.eq_zero_of_not_pos hpos, Nat.zero_div]

/-- The record of `atLeast` is the one `need` asks for, without a reserve. -/
lemma atLeast_eq (s : CreditShare) (b : Budget) (r y : Nat) :
    s.atLeast b y =
    { b with floor := max b.floor (need ⟨s.consumed, r, s.cap, s.divisor, 0⟩ y) } := by
  by_cases hy : y = 0 <;> simp [atLeast, need, hy]

section

variable {s : CreditShare} {b : Budget} (ho : b.Ok)
include ho

lemma atLeast_step (h : s.Of b) {y : Nat} (hy : y ≤ s.value) : Step b (s.atLeast b y) := by
  have hlt := ho.lt
  have hle := h.consumed_le
  have hp : y ≤ part (b.size - s.consumed) s.divisor 0 :=
    le_trans hy (h.value.trans_le (min_le_right _ _))
  have hadd := Nat.add_sub_cancel' hle
  have hn : need ⟨s.consumed, b.size - s.consumed, s.cap, s.divisor, 0⟩ y ≤ b.size :=
    (need_le (hadd.trans_lt hlt) hp).trans_eq hadd
  rw [s.atLeast_eq b (b.size - s.consumed)]
  exact ⟨⟨ho.lt, max_le ho.floor_le hn, ho.exhausted⟩, rfl, rfl, le_max_left _ _, id, id⟩

lemma atMost_step (y : Nat) : Step b (s.atMost b y) := by
  unfold atMost
  split
  · exact ⟨⟨ho.lt, ho.floor_le, fun _ => .inl rfl⟩, rfl, rfl, le_rfl, fun _ => rfl, id⟩
  · exact .refl ho

lemma exceeds_step (h : s.Of b) (x : Nat) : Step b (s.exceeds b x).2 := by
  unfold exceeds
  split
  · exact atLeast_step ho h (Nat.succ_le_of_lt ‹_›)
  · exact atMost_step ho x

lemma clamp_step (h : s.Of b) (x : Nat) : Step b (s.clamp b x).2 := by
  unfold clamp
  split
  · exact atLeast_step ho h ‹_›
  · have hs := atLeast_step ho h le_rfl
    exact hs.trans (atMost_step hs.ok _)

end

/-- Two shares that differ in their value only. -/
def Twin (s s' : CreditShare) : Prop := s' = { s with value := s'.value }

variable {s s' : CreditShare} {b b' f : Budget}

section

variable (hs : Twin s s')
include hs

lemma atLeast_twin (ht : Budget.Twin b b') (y : Nat) :
    Budget.Twin (s.atLeast b y) (s'.atLeast b' y) := by
  obtain ⟨r, o, rfl⟩ := ht.exists
  rw [hs, atLeast_eq _ _ 0, atLeast_eq _ _ 0]
  rfl

lemma atMost_twin (ht : Budget.Twin b b') (y : Nat) :
    Budget.Twin (s.atMost b y) (s'.atMost b' y) := by
  obtain ⟨r, o, rfl⟩ := ht.exists
  rw [hs]
  unfold atMost
  split <;> rfl

lemma value_eq (h : s.Of b) (h' : s'.Of b') (hsz : b'.size = b.size) : s'.value = s.value := by
  rw [h.value, h'.value, hsz, hs]

/-- A floor recorded by `atLeast` keeps the share of the other run up. -/
lemma le_value (ho : b.Ok) (h : s.Of b) (h' : s'.Of b') {y : Nat} (hy : y ≤ s.value)
    (hf : (s.atLeast b y).floor ≤ b'.size) : y ≤ s'.value := by
  have hlt := ho.lt
  have hle := h.consumed_le
  have hle' := h'.consumed_le
  have hv := h'.value
  rw [hs] at hle' hv
  rw [hv]
  have hcap := le_trans hy (h.value.trans_le (min_le_left _ _))
  have hp : y ≤ part (b.size - s.consumed) s.divisor 0 :=
    le_trans hy (h.value.trans_le (min_le_right _ _))
  refine le_min hcap (le_part_of_need_le
    (o := ⟨s.consumed, b.size - s.consumed, s.cap, s.divisor, 0⟩) (by dsimp only; omega) hp ?_)
  rw [s.atLeast_eq b (b.size - s.consumed)] at hf
  have := le_trans (le_max_right _ _) hf
  dsimp only
  omega

/-- An `atMost` that did not bind the record says the cap, not the credits, kept
the share at `y`. -/
lemma value_le_of_atMost (h' : s'.Of b') {y : Nat}
    (hf : (s.atMost b y).bound = false) : s'.value ≤ y := by
  have hcap : s.cap ≤ y := by
    by_contra hlt
    simp [atMost, Nat.lt_of_not_le hlt] at hf
  have hv := h'.value
  rw [hs] at hv
  rw [hv]
  exact le_trans (min_le_left _ _) hcap

section

variable (ht : Budget.Twin b b') (ho : b.Ok) (h : s.Of b) (h' : s'.Of b') {x : Nat}
include ht ho h h'

lemma exceeds_twin (hf : Step (s.exceeds b x).2 f) (hr : Replays f b b') :
    (s'.exceeds b' x).1 = (s.exceeds b x).1 ∧
    Budget.Twin (s.exceeds b x).2 (s'.exceeds b' x).2 := by
  have key : s'.value > x ↔ s.value > x := by
    rcases hr.cases hf with hsz | ⟨hb, hfl⟩
    · rw [value_eq hs h h' hsz]
    · by_cases hx : s.value > x
      · simp only [exceeds, hx] at hfl
        have := le_value hs ho h h' (y := x + 1) (by omega) hfl
        omega
      · simp only [exceeds, hx] at hb
        have := value_le_of_atMost hs h' hb
        omega
  unfold exceeds
  by_cases hx : s.value > x
  · rw [if_pos hx, if_pos (key.2 hx)]
    exact ⟨rfl, atLeast_twin hs ht (x + 1)⟩
  · rw [if_neg hx, if_neg (mt key.1 hx)]
    exact ⟨rfl, atMost_twin hs ht x⟩

lemma clamp_twin (hf : Step (s.clamp b x).2 f) (hr : Replays f b b') :
    (s'.clamp b' x).1 = (s.clamp b x).1 ∧ Budget.Twin (s.clamp b x).2 (s'.clamp b' x).2 := by
  -- either both shares reach `x`, or they are equal
  have key : (s.value ≥ x ∧ s'.value ≥ x) ∨ (s.value < x ∧ s'.value = s.value) := by
    rcases hr.cases hf with hsz | ⟨hb, hfl⟩
    · rw [value_eq hs h h' hsz]
      omega
    · by_cases hx : s.value ≥ x
      · simp only [clamp, hx] at hfl
        exact .inl ⟨hx, le_value hs ho h h' hx hfl⟩
      · simp only [clamp, hx] at hb hfl
        have h1 := atLeast_step ho h (le_refl s.value)
        have h2 := (atMost_step (s := s) h1.ok s.value).floor
        have hle := le_value hs ho h h' le_rfl (le_trans h2 hfl)
        have hge := value_le_of_atMost hs h' hb
        exact .inr ⟨by omega, by omega⟩
  unfold clamp
  rcases key with ⟨hx, hx'⟩ | ⟨hx, heq⟩
  · rw [if_pos hx, if_pos hx']
    exact ⟨rfl, atLeast_twin hs ht x⟩
  · rw [if_neg (Nat.not_le.2 hx), heq, if_neg (Nat.not_le.2 hx)]
    exact ⟨rfl, atMost_twin hs (atLeast_twin hs ht s.value) s.value⟩

end

end

end CreditShare

end LiveHD.Usyn
