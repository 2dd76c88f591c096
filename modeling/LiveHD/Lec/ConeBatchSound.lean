import LiveHD.Lec.ConeBatch
import LiveHD.Lib.Lists

/-!
# What a batch keeps

Whatever the order of records, timers and ends of children, the bytes that are not decided yet are
the records from the parent's cursor on, and the cursor only moves forward.
-/

namespace LiveHD.Lec.ConeBatch

open Framing List Batch Nat Phase

/-! ## Records -/

lemma getU32_putU32 (v : ℕ) (rest : List UInt8) : getU32 (putU32 v ++ rest) = v % 2 ^ 32 := by
  change (UInt8.ofNat v).toNat + (UInt8.ofNat (v / 256)).toNat * 2 ^ 8 +
    (UInt8.ofNat (v / 256 / 256)).toNat * 2 ^ 16 +
    (UInt8.ofNat (v / 256 / 256 / 256)).toNat * 2 ^ 24 = v % 2 ^ 32
  simp only [UInt8.toNat_ofNat']
  omega

lemma length_record (i : ℕ) (a : Answer) : (record i a).length = kRecord := rfl

lemma length_readyRecord : readyRecord.length = kRecord := rfl

lemma length_records (i : ℕ) (as : List Answer) : (records i as).length = kRecord * as.length := by
  induction as generalizing i with
  | nil => rfl
  | cons a as ih => rw [records, length_append, ih, length_record, length_cons, mul_succ, add_comm]

/-- The number of a record, below the one of the first record. -/
lemma getU32_record {i : ℕ} (a : Answer) (h : i < kReady) : getU32 (record i a) = i := by
  rw [record, append_assoc, append_assoc, getU32_putU32]
  exact mod_eq_of_lt (h.trans (by decide))

lemma code_record (i : ℕ) (a : Answer) : (record i a).getD 4 0 = a.verdict.code := rfl

lemma ofNat_putU32 (v : UInt32) (rest : List UInt8) :
    UInt32.ofNat (getU32 (putU32 v.toNat ++ rest)) = v := by
  rw [getU32_putU32, Nat.mod_eq_of_lt v.toNat_lt, UInt32.ofNat_toNat]

lemma pis_record (i : ℕ) (a : Answer) :
    UInt32.ofNat (getU32 ((record i a).drop 5)) = a.stats.pis := ofNat_putU32 _ _

lemma ands_record (i : ℕ) (a : Answer) :
    UInt32.ofNat (getU32 ((record i a).drop 9)) = a.stats.ands := by
  have hdr : (record i a).drop 9 = putU32 a.stats.ands.toNat ++ [] := rfl
  rw [hdr, ofNat_putU32]

lemma ofCode_code (v : ConeVerdict) : ConeVerdict.ofCode v.code = v := by cases v <;> rfl

lemma code_le (v : ConeVerdict) : v.code ≤ ConeVerdict.code .unknown := by cases v <;> decide

variable {pending part : List UInt8}

/-- Bytes of which the first record is complete. -/
lemma eq_of_append_eq {first rest : List UInt8} (hpa : part.length = first.length)
    (h : part ++ pending = first ++ rest) :
    part = first ∧ pending = rest := append_inj h hpa

/-! ## The invariant -/

variable {s : Batch} {Condition : Batch → Event → Prop} {collect : Bool} {out : List ConeVerdict}
   {stats : List ConeStats} {deadline : ℤ} {stalled : List ℕ} {es : List Event}

section

variable {D : Type*} (Answers : D → ConeVerdict → Prop) (diffs : List D)

/-- The verdicts are those of the records that were read, the cones that stalled have none, and a
child has the records from the cursor on to report. -/
structure Inv (s : Batch) : Prop where
  length_out : s.out.length = diffs.length
  length_stats : s.stats.length = diffs.length
  out : ∀ i v, s.out[i]? = some v → v ≠ .unknown → (i, v) ∈ s.arrived
  answers : ∀ p ∈ s.arrived, ∃ d, diffs[p.1]? = some d ∧ Answers d p.2
  once : s.arrived.Pairwise fun p q => p.1 < q.1
  before : ∀ p ∈ s.arrived, p.1 < s.next
  stalled : ∀ i ∈ s.stalled, i < diffs.length ∧ i < s.next ∧ ∀ v, (i, v) ∉ s.arrived
  sorted : s.stalled.Pairwise (· < ·)
  top : s.phase = .top → s.next < diffs.length
  child : ∀ pending part ready, s.phase = .child pending part ready →
    s.next ≤ diffs.length ∧ part.length < kRecord ∧
    ∃ answers, Forall₂ (fun d a => Answers d a.verdict) (diffs.drop s.next) answers ∧
      part ++ pending = (if ready = true then [] else readyRecord) ++ records s.next answers

variable {Answers diffs}

lemma lt_of_loop {n : ℕ} (h : (s.loop n).phase = .top) : (s.loop n).next < n := by
  change (if s.next < n then top else returned) = .top at h
  change s.next < n
  by_contra hle
  rw [if_neg hle] at h
  cases h

variable {ready : Bool}

lemma loop_ne_child {n : ℕ} : (s.loop n).phase ≠ .child pending part ready := by
  change (if s.next < n then top else returned) ≠ _
  split
  · exact Phase.noConfusion
  · exact Phase.noConfusion

lemma inv_init : Inv Answers diffs (.init diffs.length) := by
  refine ⟨length_replicate, length_replicate, ?_, nofun, .nil, nofun, nofun, .nil, lt_of_loop, ?_⟩
  · intro i v hv hne
    obtain ⟨hi, rfl⟩ := List.getElem?_eq_some_iff.1 hv
    exact absurd (getElem_replicate _) hne
  · intro pending part ready hph
    exact absurd hph loop_ne_child

/-- A phase without a child. -/
lemma Inv.leave (h : Inv Answers diffs s) {phase : Phase} (htop : phase ≠ .top)
    (hph : ∀ pending part ready, phase ≠ .child pending part ready) :
    Inv Answers diffs { s with phase := phase } :=
  { h with
    top := fun heq => absurd heq htop
    child := fun pending part ready heq => absurd heq (hph pending part ready) }

lemma Inv.fork (h : Inv Answers diffs s) (hn : s.next < diffs.length) {answers : List Answer}
    (han : Forall₂ (fun d a => Answers d a.verdict) (diffs.drop s.next) answers) :
    Inv Answers diffs
    { s with phase := .child (readyRecord ++ records s.next answers) [] false } := by
  refine { h with top := nofun, child := ?_ }
  rintro _ _ _ ⟨⟩
  exact ⟨hn.le, by decide, answers, han, rfl⟩

/-- A cone that stalls while it has no record. -/
lemma Inv.stall (h : Inv Answers diffs s) (hn : collect = true → s.next < diffs.length) :
    Inv Answers diffs (loop diffs.length
      { s with
        stalled := if collect = true then s.stalled ++ [s.next] else s.stalled
        next := s.next + 1 }) := by
  have hbe : ∀ p ∈ s.arrived, p.1 < s.next + 1 := fun p hp => (h.before p hp).trans (lt_succ_self _)
  have hold : ∀ i ∈ s.stalled, i < diffs.length ∧ i < s.next + 1 ∧
      ∀ v, (i, v) ∉ s.arrived := fun i hi =>
    ⟨(h.stalled i hi).1, (h.stalled i hi).2.1.trans (lt_succ_self _), (h.stalled i hi).2.2⟩
  refine ⟨h.length_out, h.length_stats, h.out, h.answers, h.once, hbe, ?_, ?_, lt_of_loop, ?_⟩
  · intro i hi
    split at hi
    next hco =>
      rcases mem_append.1 hi with hi | hi
      · exact hold i hi
      · obtain rfl := mem_singleton.1 hi
        exact ⟨hn hco, lt_succ_self _, fun v hv => (h.before _ hv).false⟩
    · exact hold i hi
  · split
    · refine pairwise_append.2 ⟨h.sorted, pairwise_singleton _ _, fun i hi j hj => ?_⟩
      obtain rfl := mem_singleton.1 hj
      exact (h.stalled i hi).2.1
    · exact h.sorted
  · intro pending part ready hph
    exact absurd hph loop_ne_child

/-- The record of the cone at the cursor is taken over. -/
lemma report_record (hsz : s.out.length ≤ kReady) (hst : s.stats.length = s.out.length)
    (hlt : s.next < s.out.length) (a : Answer) :
    s.report (record s.next a) = { s with
      out := s.out.set s.next a.verdict, stats := s.stats.set s.next a.stats, next := s.next + 1,
        arrived := s.arrived ++ [(s.next, a.verdict)] } := by
  have hidx := getU32_record a (hlt.trans_le hsz)
  rw [report, hidx, code_record, ofCode_code, pis_record, ands_record,
    if_pos ⟨hlt, code_le _⟩, if_pos (by rwa [hst])]

lemma Inv.report (h : Inv Answers diffs s) (hsz : diffs.length ≤ kReady) {d : D}
    (hd : diffs[s.next]? = some d) {a : Answer}
    (ha : Answers d a.verdict) {answers : List Answer}
    (han : Forall₂ (fun d a => Answers d a.verdict) (diffs.drop (s.next + 1)) answers) :
    Inv Answers diffs
    { s.report (record s.next a) with phase := .child (records (s.next + 1) answers) [] true } := by
  obtain ⟨hlt, -⟩ := List.getElem?_eq_some_iff.1 hd
  have hout : s.next < s.out.length := by rwa [h.length_out]
  rw [report_record (by rwa [h.length_out]) (h.length_stats.trans h.length_out.symm) hout]
  refine ⟨by
    rw [length_set,
      h.length_out], by rw [length_set, h.length_stats], ?_, ?_, ?_, ?_, ?_, h.sorted, nofun, ?_⟩
  · intro i v hv hne
    by_cases hi : s.next = i
    · subst hi
      rw [getElem?_set_self hout] at hv
      cases hv
      exact mem_append_right _ (mem_singleton_self _)
    · rw [getElem?_set_ne hi] at hv
      exact mem_append_left _ (h.out i v hv hne)
  · intro p hp
    rcases mem_append.1 hp with hp | hp
    · exact h.answers p hp
    · obtain rfl := mem_singleton.1 hp
      exact ⟨d, hd, ha⟩
  · refine pairwise_append.2 ⟨h.once, pairwise_singleton _ _, fun p hp q hq => ?_⟩
    obtain rfl := mem_singleton.1 hq
    exact h.before p hp
  · intro p hp
    rcases mem_append.1 hp with hp | hp
    · exact (h.before p hp).trans (lt_succ_self _)
    · obtain rfl := mem_singleton.1 hp
      exact lt_succ_self _
  · intro i hi
    obtain ⟨hin, hcur, hno⟩ := h.stalled i hi
    refine ⟨hin, hcur.trans (lt_succ_self _), fun v hv => ?_⟩
    rcases mem_append.1 hv with hv | hv
    · exact hno v hv
    · exact hcur.ne (congrArg Prod.fst (mem_singleton.1 hv))
  · rintro _ _ _ ⟨⟩
    exact ⟨hlt, by decide, answers, han, rfl⟩

/-- Bytes that are read. -/
lemma Inv.receive (h : Inv Answers diffs s) (hsz : diffs.length ≤ kReady)
    (hph : s.phase = .child pending part ready) {k : ℕ} (hk : k ≤ kRecord - part.length)
    (hle : k ≤ pending.length) :
    Inv Answers diffs (s.receive (pending.drop k) (part ++ pending.take k) ready) ∧
      s.next ≤ (s.receive (pending.drop k) (part ++ pending.take k) ready).next := by
  obtain ⟨hn, hpa, answers, han, hby⟩ := h.child pending part ready hph
  have hsp : part ++ pending.take k ++ pending.drop k =
      (if ready = true then [] else readyRecord) ++ records s.next answers := by
    rw [append_assoc, take_append_drop, hby]
  have hlen : (part ++ pending.take k).length ≤ kRecord := by
    rw [length_append, length_take]
    omega
  generalize part ++ pending.take k = part' at hsp hlen ⊢
  generalize pending.drop k = pending' at hsp ⊢
  rw [Batch.receive]
  split
  next hlt =>
    refine ⟨{ h with top := nofun, child := ?_ }, le_rfl⟩
    rintro _ _ _ ⟨⟩
    exact ⟨hn, hlt, answers, han, hsp⟩
  next hfu =>
    have hfu := le_antisymm hlen (not_lt.1 hfu)
    cases ready with
    | false =>
      obtain ⟨rfl, rfl⟩ := eq_of_append_eq (hfu.trans length_readyRecord.symm) hsp
      rw [if_pos (by decide)]
      refine ⟨{ h with top := nofun, child := ?_ }, le_rfl⟩
      rintro _ _ _ ⟨⟩
      exact ⟨hn, by decide, answers, han, rfl⟩
    | true =>
      cases han' : answers with
      | nil =>
        rw [han'] at hsp
        rw [(append_eq_nil_iff.1 hsp).1] at hfu
        cases hfu
      | cons a rest =>
        subst han'
        cases hdr : diffs.drop s.next with
        | nil =>
          rw [hdr] at han
          cases han
        | cons d ds =>
          rw [hdr] at han
          obtain ⟨ha, hr⟩ := forall₂_cons.1 han
          have hd : diffs[s.next]? = some d := by
            rw [← head?_drop, hdr]
            rfl
          have hds : diffs.drop (s.next + 1) = ds := by
            rw [← tail_drop, hdr]
            rfl
          obtain ⟨hlt, -⟩ := List.getElem?_eq_some_iff.1 hd
          obtain ⟨rfl, rfl⟩ := eq_of_append_eq (hfu.trans (length_record _ _).symm) hsp
          have hidx := getU32_record a (hlt.trans_le hsz)
          rw [if_neg (by rw [hidx]; exact (hlt.trans_le hsz).ne)]
          refine ⟨h.report hsz hd ha (by rwa [hds]), ?_⟩
          change s.next ≤ getU32 (record s.next a) + 1
          rw [hidx]
          exact le_succ _

/-! ## Steps -/

/-- A cone does not stall once every cone has its record or stalled before. -/
def OnTime (n : ℕ) (s : Batch) (e : Event) : Prop := e = .stall → s.next < n

/-- What is left to do at most, in bytes and children. -/
def weight (n : ℕ) (s : Batch) : ℕ :=
  match s.phase with
  | .top => (n - s.next) * (kRecord * (n + 1) + 2) + 1
  | .child pending _ _ => pending.length + 2 + (n - s.next - 1) * (kRecord * (n + 1) + 2)
  | _ => 0

lemma weight_loop_le (n : ℕ) (s : Batch) :
    weight n (s.loop n) ≤ (n - s.next) * (kRecord * (n + 1) + 2) + 1 := by
  rw [weight, loop]
  by_cases h : s.next < n
  · rw [if_pos h]
  · rw [if_neg h]
    exact zero_le _

lemma weight_child_pos {n : ℕ} {next : ℕ}
    {arrived : List (ℕ × ConeVerdict)} :
    1 ≤ weight n ⟨out, stats, stalled, next, .child pending part ready, arrived⟩ := by
  change 1 ≤ pending.length + 2 + _
  omega

lemma weight_receive (n : ℕ) (s : Batch) (pending part : List UInt8) (ready : Bool) :
    weight n (s.receive pending part ready) =
    pending.length + 2 + (n - (s.receive pending part ready).next - 1) *
    (kRecord * (n + 1) + 2) := by
  rw [receive]
  split
  · rfl
  · split
    · rfl
    · rfl

/-- Every step keeps the invariant, and makes progress unless `poll` is called again. -/
lemma Inv.step {s' : Batch} {e : Event} (h : Inv Answers diffs s) (hsz : diffs.length ≤ kReady)
    (hsta : collect = true → OnTime diffs.length s e)
    (hfo : ∀ answers, e = .fork answers →
      Forall₂ (fun d a => Answers d a.verdict) (diffs.drop s.next) answers)
    (hst : s.step diffs.length deadline collect e = some s') :
    Inv Answers diffs s' ∧ weight diffs.length s' + (if e = .retry then 0 else 1) ≤
    weight diffs.length s := by
  obtain ⟨out, stats, stalled, next, phase, arrived⟩ := s
  cases phase with
  | top =>
    have hn : next < diffs.length := h.top rfl
    cases e with
    | unforked =>
      cases hst
      exact ⟨h.leave Phase.noConfusion nofun, le_add_left _ _⟩
    | fork answers =>
      have han := hfo answers rfl
      have hlen : answers.length = diffs.length - next := by
        rw [← han.length_eq, length_drop]
      change (if answers.length = diffs.length - next then some _ else none) = some s' at hst
      rw [if_pos hlen] at hst
      cases hst
      refine ⟨h.fork hn han, ?_⟩
      have hpe : (readyRecord ++ records next answers).length =
          kRecord + kRecord * (diffs.length - next) := by
        rw [length_append, length_readyRecord, length_records, hlen]
      change (readyRecord ++ records next answers).length + 2 +
        (diffs.length - next - 1) * (kRecord * (diffs.length + 1) + 2) + 1 ≤
        (diffs.length - next) * (kRecord * (diffs.length + 1) + 2) + 1
      rw [hpe]
      obtain ⟨m, hm⟩ := Nat.exists_eq_add_of_lt hn
      have hr : diffs.length - next = m + 1 := by omega
      rw [hr, Nat.add_sub_cancel, succ_mul]
      have hle : kRecord * (m + 1) ≤ kRecord * diffs.length := mul_le_mul_left _ (by omega)
      have hC : kRecord * (diffs.length + 1) = kRecord * diffs.length + kRecord := mul_succ _ _
      omega
    | _ => cases hst
  | child pending part ready =>
    cases e with
    | expire =>
      change (if 0 < deadline then some _ else none) = some s' at hst
      split at hst
      · cases hst
        exact ⟨h.leave Phase.noConfusion nofun, weight_child_pos⟩
      · cases hst
    | stall =>
      change (if 0 < deadline ∧ ready = true then some _ else none) = some s' at hst
      split at hst
      · cases hst
        refine ⟨h.stall fun hco => hsta hco rfl, ?_⟩
        refine (Nat.add_le_add_right (weight_loop_le _ _) 1).trans ?_
        change (diffs.length - (next + 1)) * _ + 1 + 1 ≤
          pending.length + 2 + (diffs.length - next - 1) * _
        rw [Nat.sub_sub]
        omega
      · cases hst
    | retry =>
      cases hst
      exact ⟨h, le_rfl⟩
    | pollError =>
      cases hst
      exact ⟨h.leave Phase.noConfusion nofun, weight_child_pos⟩
    | read k =>
      change (if 0 < k ∧ k ≤ kRecord - part.length ∧ k ≤ pending.length then some _ else none) =
        some s' at hst
      split at hst
      next hk =>
        obtain ⟨hpos, hfi, hth⟩ := hk
        cases hst
        obtain ⟨hinv, hcu⟩ := h.receive hsz rfl hfi hth
        refine ⟨hinv, ?_⟩
        rw [weight_receive]
        change _ ≤ pending.length + 2 + (diffs.length - next - 1) * _
        have hmul : (diffs.length - (Batch.receive ⟨out, stats, stalled, next,
            .child pending part ready, arrived⟩ (pending.drop k)
            (part ++ pending.take k) ready).next - 1) * (kRecord * (diffs.length + 1) + 2) ≤
            (diffs.length - next - 1) * (kRecord * (diffs.length + 1) + 2) :=
          mul_le_mul_right _ (by
            have : next ≤ _ := hcu
            omega)
        rw [length_drop, if_neg Event.noConfusion]
        omega
      · cases hst
    | eof crashed =>
      cases hst
      refine ⟨?_, ?_⟩
      · refine { h with before := ?_, stalled := ?_, top := ?_, child := ?_ }
        · intro p hp
          obtain ⟨d, hd, -⟩ := h.answers p hp
          exact (List.getElem?_eq_some_iff.1 hd).1
        · intro i hi
          exact ⟨(h.stalled i hi).1, (h.stalled i hi).1, (h.stalled i hi).2.2⟩
        · intro heq
          cases crashed <;> cases heq
        · intro _ _ _ heq
          cases crashed <;> cases heq
      · cases crashed
        · exact weight_child_pos
        · exact weight_child_pos
    | _ => cases hst
  | returned => cases e <;> cases hst
  | aborted => cases e <;> cases hst

/-- Every state of a run. -/
lemma Run.inv (hsz : diffs.length ≤ kReady)
    (hCo : collect = true → ∀ s e, Condition s e → OnTime diffs.length s e)
    (hrun : Run Answers diffs deadline collect Condition es s) :
    Inv Answers diffs s ∧ es.countP (· ≠ .retry) + weight diffs.length s ≤ weight diffs.length
    (.init diffs.length) := by
  induction hrun with
  | init => exact ⟨inv_init, by simp⟩
  | @step es s s' e _ hcn hfo hst ih =>
    obtain ⟨hinv, hwe⟩ := ih
    obtain ⟨hin', hst'⟩ := hinv.step hsz (fun hco => hCo hco s e hcn) hfo hst
    refine ⟨hin', ?_⟩
    rw [countP_append, countP_singleton]
    by_cases he : e = .retry
    · rw [if_neg (by simp [he])]
      omega
    · rw [if_neg he] at hst'
      rw [if_pos (by simp [he])]
      omega

/-- A batch that has not returned can go on. -/
lemma exists_step (n : ℕ) (deadline : ℤ) (collect : Bool) (s : Batch) :
    s.phase = .returned ∨ s.phase = .aborted ∨
    ∃ e s', e ≠ .retry ∧ s.step n deadline collect e = some s' := by
  obtain ⟨out, stats, stalled, next, phase, arrived⟩ := s
  cases phase with
  | top => exact .inr (.inr ⟨.unforked, _, Event.noConfusion, rfl⟩)
  | child pending part ready => exact .inr (.inr ⟨.eof false, _, Event.noConfusion, rfl⟩)
  | returned => exact .inl rfl
  | aborted => exact .inr (.inl rfl)

end

/-! ## The second chance -/

lemma length_mergeRetry (out : List ConeVerdict) (stats : List ConeStats) (stalled : List ℕ)
    (again : List ConeVerdict)
    (retryStats : List ConeStats) :
    (mergeRetry out stats stalled again retryStats).1.length = out.length := by
  rw [mergeRetry]
  generalize stalled.zip (again.zip retryStats) = ks
  induction ks generalizing out stats with
  | nil => rfl
  | cons k ks ih =>
    rw [foldl_cons]
    split
    · rw [ih, length_set]
    · exact ih _ _

variable {again : List ConeVerdict} {retryStats : List ConeStats}

/-- Positions that are not written to. -/
lemma mergeRetry_of_notMem {i : ℕ} (h : i ∉ stalled) :
    (mergeRetry out stats stalled again retryStats).1[i]? = out[i]? := by
  have hks : ∀ k ∈ stalled.zip (again.zip retryStats), k.1 ≠ i := by
    rintro ⟨j, a⟩ hk rfl
    exact h (of_mem_zip hk).1
  rw [mergeRetry]
  generalize stalled.zip (again.zip retryStats) = ks at hks
  induction ks generalizing out stats with
  | nil => rfl
  | cons k ks ih =>
    obtain ⟨hk, hks⟩ := forall_mem_cons.1 hks
    rw [foldl_cons]
    split
    · rw [ih hks, getElem?_set_ne hk]
    · exact ih hks

/-- A position that stalled gets the verdict of its second chance, unless that is unknown. -/
lemma mergeRetry_getElem? (hnd : stalled.Nodup) (hlt : ∀ i ∈ stalled, i < out.length)
    (hag : again.length = stalled.length)
    (hst : retryStats.length = stalled.length) {k i : ℕ} {v : ConeVerdict}
    (hi : stalled[k]? = some i) (hv : again[k]? = some v) :
    (mergeRetry out stats stalled again retryStats).1[i]? = if v ≠ .unknown then some v
    else out[i]? := by
  induction stalled generalizing out stats again retryStats k with
  | nil => cases hi
  | cons j stalled ih =>
    obtain ⟨a, again, rfl⟩ := exists_cons_of_length_eq_add_one hag
    obtain ⟨b, retryStats, rfl⟩ := exists_cons_of_length_eq_add_one hst
    obtain ⟨hj, hnd⟩ := nodup_cons.1 hnd
    obtain ⟨hjlt, hlt⟩ := forall_mem_cons.1 hlt
    have hco : mergeRetry out stats (j :: stalled) (a :: again) (b :: retryStats) =
        if a ≠ .unknown then mergeRetry (out.set j a) (stats.set j b) stalled again retryStats
        else mergeRetry out stats stalled again retryStats := by
      rw [mergeRetry, zip_cons_cons, zip_cons_cons, foldl_cons]
      split
      · rfl
      · rfl
    cases k with
    | zero =>
      cases hi
      cases hv
      rw [hco]
      split
      · rw [mergeRetry_of_notMem hj, getElem?_set_self hjlt]
      · rw [mergeRetry_of_notMem hj]
    | succ k =>
      have hne : j ≠ i := by
        rintro rfl
        exact hj (mem_of_getElem? hi)
      rw [hco]
      split
      · rw [ih hnd (by simpa using hlt) (succ.inj hag) (succ.inj hst) hi hv, getElem?_set_ne hne]
      · rw [ih hnd hlt (succ.inj hag) (succ.inj hst) hi hv]

/-! ## Supervision -/

section

variable {D : Type*} (Answers : D → ConeVerdict → Prop) (diffs : List D)

/-- What holds at every point of a pass: one verdict for each obligation, of its own record if it is
known; the cones that stalled are obligations without a record; records come once and forward, a new
child starting after them; and the pass ends. -/
structure Safe (es : List Event) (s : Batch) : Prop where
  length : s.out.length = diffs.length
  own : ∀ i v, s.out[i]? = some v → v ≠ .unknown → (i, v) ∈ s.arrived ∧
    ∃ d, diffs[i]? = some d ∧ Answers d v
  stalled : ∀ i ∈ s.stalled, i < diffs.length ∧ ∀ v, (i, v) ∉ s.arrived
  once : s.arrived.Pairwise fun p q => p.1 < q.1
  before : ∀ p ∈ s.arrived, p.1 < s.next
  bounded : es.countP (· ≠ .retry) ≤ diffs.length * (kRecord * (diffs.length + 1) + 2) + 1
  goesOn : ∀ deadline collect, s.phase = .returned ∨ s.phase = .aborted ∨ ∃ e s', e ≠ .retry ∧
    s.step diffs.length deadline collect e = some s'

/-- The verdicts of two passes: those of the second are at the positions that stalled, unless they
are unknown, and the others are as they were. -/
structure Merged (s s' : Batch) (out : List ConeVerdict) : Prop where
  length : out.length = diffs.length
  other : ∀ i : ℕ, i ∉ s.stalled → out[i]? = s.out[i]?
  again : ∀ (k i : ℕ) (v : ConeVerdict), s.stalled[k]? = some i → s'.out[k]? = some v →
    out[i]? = if v ≠ .unknown then some v else s.out[i]?
  own : ∀ (i : ℕ) (v : ConeVerdict), out[i]? = some v → v ≠ .unknown →
    ∃ d, diffs[i]? = some d ∧ Answers d v

variable {Answers diffs}

lemma Run.safe (hsz : diffs.length ≤ kReady)
    (hCo : collect = true → ∀ s e, Condition s e → OnTime diffs.length s e)
    (hrun : Run Answers diffs deadline collect Condition es s) : Safe Answers diffs es s := by
  obtain ⟨hinv, hwe⟩ := hrun.inv hsz hCo
  refine ⟨hinv.length_out, ?_, ?_, hinv.once, hinv.before, ?_,
    fun deadline collect => exists_step _ deadline collect s⟩
  · intro i v hv hne
    have har := hinv.out i v hv hne
    exact ⟨har, hinv.answers _ har⟩
  · intro i hi
    exact ⟨(hinv.stalled i hi).1, (hinv.stalled i hi).2.2⟩
  · have hin := weight_loop_le diffs.length
      { out := .replicate diffs.length .unknown, stats := .replicate diffs.length {} }
    exact (le_add_right _ _).trans (hwe.trans hin)

/-- Two passes, the first without a stall after its last record: both are safe, the cones that
stalled are there to be tried again, and the second verdicts go to their positions alone. -/
theorem batch_supervised {deadline : ℤ} (hsize : diffs.length < 2 ^ 32)
    {es : List Event} {s : Batch}
    (hrun : Run Answers diffs deadline true (OnTime diffs.length) es s) :
    Safe Answers diffs es s ∧ ∀ left, retries deadline left s →
    ∃ retry, retryDiffs diffs s.stalled = some retry ∧
      ∀ es' s', Run Answers retry left false (fun _ _ => True) es' s' → Safe Answers retry es' s' ∧
        Merged Answers diffs s s' (mergeRetry s.out s.stats s.stalled s'.out s'.stats).1 := by
  have hsize' := le_of_lt_succ hsize
  have hsafe := hrun.safe hsize' fun _ _ _ h => h
  have hinv := (hrun.inv hsize' fun _ _ _ h => h).1
  refine ⟨hsafe, fun left _ => ?_⟩
  have hsome : (retryDiffs diffs s.stalled).isSome = true := by
    rw [retryDiffs, isSome_mapM_iff]
    intro i hi
    rw [getElem?_eq_getElem (hinv.stalled i hi).1]
    rfl
  obtain ⟨retry, hretry⟩ := Option.isSome_iff_exists.1 hsome
  have hforall := forall₂_of_mapM_eq_some hretry
  have hlength := hforall.length_eq
  have hnodup : s.stalled.Nodup := hinv.sorted.imp fun hlt => hlt.ne
  have hshort : retry.length ≤ kReady := by
    have hsub : s.stalled ⊆ range diffs.length := fun i hi => mem_range.2 (hinv.stalled i hi).1
    have hle := (hnodup.subperm hsub).length_le
    rw [length_range, hlength] at hle
    exact hle.trans hsize'
  refine ⟨retry, hretry, fun es' s' hrun' => ?_⟩
  have hsafe' := hrun'.safe hshort nofun
  have hinv' := (hrun'.inv hshort nofun).1
  have hmerge : ∀ (k i : ℕ) (v : ConeVerdict), s.stalled[k]? = some i → s'.out[k]? = some v →
      (mergeRetry s.out s.stats s.stalled s'.out s'.stats).1[i]? = if v ≠ .unknown then some v
      else s.out[i]? := by
    intro k i v hi hv
    refine mergeRetry_getElem? hnodup (fun j hj => ?_) (hinv'.length_out.trans hlength.symm)
      (hinv'.length_stats.trans hlength.symm) hi hv
    rw [hinv.length_out]
    exact (hinv.stalled j hj).1
  refine ⟨hsafe', (length_mergeRetry ..).trans hinv.length_out, fun i hi => mergeRetry_of_notMem hi,
    hmerge, fun i v hv hne => ?_⟩
  by_cases hi : i ∈ s.stalled
  · obtain ⟨k, hk⟩ := mem_iff_getElem?.1 hi
    obtain ⟨hklt, -⟩ := List.getElem?_eq_some_iff.1 hk
    have hkout : k < s'.out.length := by rwa [hinv'.length_out, ← hlength]
    rw [hmerge k i _ hk (getElem?_eq_getElem hkout)] at hv
    split at hv
    next hknown =>
      cases hv
      obtain ⟨-, d, hd, hanswer⟩ := hsafe'.own k _ (getElem?_eq_getElem hkout) hknown
      -- The obligation of the second pass is the one that stalled.
      have hrel := hforall.getElem? k
      rw [hk, hd] at hrel
      cases hrel with
      | some hdiff => exact ⟨d, hdiff, hanswer⟩
    · exact (hsafe.own i v hv hne).2
  · rw [mergeRetry_of_notMem hi] at hv
    exact (hsafe.own i v hv hne).2

end

/-- A step at which no child starts. -/
lemma Run.plain {D : Type*} {Answers : D → ConeVerdict → Prop} {diffs : List D}
    {s' : Batch} (h : Run Answers diffs deadline collect Condition es s)
    (e : Event) (hco : Condition s e)
    (he : ∀ answers, e ≠ .fork answers) (hst : s.step diffs.length deadline collect e = some s') :
    Run Answers diffs deadline collect Condition (es ++ [e]) s' :=
  h.step hco (fun answers heq => absurd heq (he answers)) hst

/-- A batch of five cones: four are proved, the record of the first read in two parts, and the last
one stalls. -/
lemma exists_run_stall : ∃ es s, Run (fun _ : Unit => (· = .proven)) (replicate 5 ()) 9000 true
    (OnTime 5) es s ∧ s.stalled = [4] ∧
    s.out = replicate 4 .proven ++ [.unknown] := by
  have h0 : Run (fun _ : Unit => (· = .proven)) (replicate 5 ()) 9000 true (OnTime 5) [] _ := .init
  have h1 := h0.step (e := .fork (replicate 5 ⟨.proven, {}⟩)) nofun
    (by rintro _ ⟨⟩; exact .cons rfl (.cons rfl (.cons rfl (.cons rfl (.cons rfl .nil))))) rfl
  have h2 := h1.plain (.read 13) nofun nofun rfl
  have h3 := h2.plain (.read 5) nofun nofun rfl
  have h4 := h3.plain .retry nofun nofun rfl
  have h5 := h4.plain (.read 8) nofun nofun rfl
  have h6 := h5.plain (.read 13) nofun nofun rfl
  have h7 := h6.plain (.read 13) nofun nofun rfl
  have h8 := h7.plain (.read 13) nofun nofun rfl
  exact ⟨_, _, h8.plain .stall (fun _ => by decide) nofun rfl, by decide +kernel, by decide +kernel⟩

lemma exists_run_again : ∃ es s,
    Run (fun _ : Unit => (· = .proven)) [()] 500 false (fun _ _ => True) es s ∧ s.out = [.proven] ∧
    s.stats = [{}] := by
  have h0 : Run (fun _ : Unit => (· = .proven)) [()] 500 false (fun _ _ => True) [] _ := .init
  have h1 := h0.step (e := .fork [⟨.proven, {}⟩]) trivial (by rintro _ ⟨⟩; exact .cons rfl .nil) rfl
  have h2 := h1.plain (.read 13) trivial nofun rfl
  have h3 := h2.plain (.read 13) trivial nofun rfl
  exact ⟨_, _, h3.plain (.eof false) trivial nofun rfl, by decide +kernel, by decide +kernel⟩

/-- The cone that stalled is tried again, and its second verdict stands. -/
theorem batch_supervised_stall : ∃ es s es' s',
    Run (fun _ : Unit => (· = .proven))
    (replicate 5 ()) 9000 true (OnTime 5) es s ∧ retries 9000 500 s ∧
    Run (fun _ : Unit => (· = .proven)) [()] 500 false (fun _ _ => True) es' s' ∧
    Safe (fun _ : Unit => (· = .proven)) (replicate 5 ()) es s ∧
    Merged (fun _ : Unit => (· = .proven))
    (replicate 5 ()) s s' (mergeRetry s.out s.stats s.stalled s'.out s'.stats).1 ∧
    (mergeRetry s.out s.stats s.stalled s'.out s'.stats).1 = replicate 5 .proven := by
  obtain ⟨es, s, hrun, hstalled, hout⟩ := exists_run_stall
  obtain ⟨es', s', hrun', hout', hstats'⟩ := exists_run_again
  have hretries : retries 9000 500 s := by
    rw [retries, hstalled, hout]
    decide
  obtain ⟨hsafe, hretry⟩ := batch_supervised (by decide) hrun
  obtain ⟨retry, heq, hagain⟩ := hretry 500 hretries
  rw [hstalled] at heq
  cases heq
  refine ⟨es, s, es', s', hrun, hretries, hrun', hsafe, (hagain es' s' hrun').2, ?_⟩
  rw [hstalled, hout, hout', hstats']
  rfl

/-- The only cone of a batch has its record when the timer fires. -/
theorem not_safe_late_stall : ¬∀ (diffs : List Unit) (es : List Event) (s : Batch),
    Run (fun _ => (· = .proven)) diffs 9000 true (fun _ _ => True) es s →
    Safe (fun _ => (· = .proven)) diffs es s := by
  intro h
  have h0 : Run (fun _ : Unit => (· = .proven)) [()] 9000 true (fun _ _ => True) [] _ := .init
  have h1 := h0.step (e := .fork [⟨.proven, {}⟩]) trivial (by rintro _ ⟨⟩; exact .cons rfl .nil) rfl
  have h2 := h1.plain (.read 13) trivial nofun rfl
  have h3 := h2.plain (.read 13) trivial nofun rfl
  have h4 := h3.plain .stall trivial nofun rfl
  obtain ⟨hlt, -⟩ := (h _ _ _ h4).stalled 1 (mem_singleton_self 1)
  exact hlt.false

end LiveHD.Lec.ConeBatch
