import LiveHD.Lec.ForkRace

/-!
# The slots of a race

Who is parked, who holds a lease or the token, and how many racers are resident, for any order of
admission answers, failures, quanta and ends of racers.
-/

namespace LiveHD.Lec.ForkRace

open Function List Bool

variable {R : Type*} {cfg : Config R} {s : Race R}

/-- The slots of a race, `held` being the racers that are stopped and not parked yet. -/
structure Slots (cfg : Config R) (s : Race R) (held : List ℕ) : Prop where
  launches : s.launches = List.range s.next
  next_le : s.next ≤ cfg.nmethods
  started : ∀ i, s.out.started i = true ↔ i < s.next
  done : ∀ i, s.out.done i = true → s.out.started i = true
  pid : ∀ i, s.pid i = s.live i
  rfd : s.forkOk = true → ∀ i, s.rfd i = true → s.out.started i = true
  nodup : (s.parked ++ held).Nodup
  stopped : ∀ i, s.stopped i = true ↔ i ∈ s.parked ++ held
  parked : ∀ i ∈ s.parked ++ held, s.live i = true
  slot : ∀ i, s.live i = true → s.stopped i = false → s.leases i = true ∨ s.inherited = some i
  token : ∀ i, s.inherited = some i → s.live i = true ∧ s.stopped i = false
  resident : s.resident cfg.nmethods ≤ cfg.residentCap
  stale : s.stale = []

lemma slots_init : Slots cfg cfg.init [] where
  launches := rfl
  next_le := Nat.zero_le _
  started i := by simp [Config.init]
  done i h := by cases h
  pid _ := rfl
  rfd _ i h := by cases h
  nodup := nodup_nil
  stopped i := by simp [Config.init]
  parked _ := nofun
  slot _ h := by cases h
  token _ h := by cases h
  resident := by
    have hlv : ∀ i ∈ range cfg.nmethods, ¬cfg.init.live i = true := fun _ _ h => by cases h
    rw [Race.resident, countP_eq_zero.2 hlv]
    exact Nat.zero_le _
  stale := rfl

/-- One more racer is at most one more resident. -/
lemma countP_range_le_succ {p q : ℕ → Bool} {i : ℕ} (h : ∀ j, j ≠ i → q j = p j) (n : ℕ) :
    (List.range n).countP q ≤ (List.range n).countP p + 1 := by
  have hall : (range n).countP q ≤ (range n).countP p + if i < n then 1 else 0 := by
    induction n with
    | zero => exact Nat.zero_le _
    | succ n ih =>
      rw [range_succ, countP_append, countP_append, countP_singleton, countP_singleton]
      by_cases hn : n = i
      · subst hn
        rw [if_neg (lt_irrefl n)] at ih
        rw [if_pos (Nat.lt_succ_self n)]
        have : (if q n = true then 1 else 0) ≤ 1 := by split <;> decide
        omega
      · rw [h n hn]
        have hiff : i < n + 1 ↔ i < n := ⟨fun hlt => lt_of_le_of_ne (Nat.le_of_lt_succ hlt)
          (Ne.symm hn), fun hlt => hlt.trans (Nat.lt_succ_self n)⟩
        simp only [hiff]
        omega
  refine hall.trans (Nat.add_le_add_left ?_ _)
  split <;> decide

/-! ## What a step changes -/

lemma finish_out (s : Race R) (i : ℕ) (cause : String) (r : Reply) :
    (s.finish cfg i cause r).out = Race.judge cfg
    { s.collect cfg i cause with
      done := update s.out.done i true
      armMs := update s.out.armMs i (r.now - s.startedAt i) } i := by
  rw [Race.finish]

variable (out : RaceResult R) (i : ℕ)

lemma judge_started : (Race.judge cfg out i).started = out.started := by
  rw [Race.judge]
  split
  · rfl
  · split
    · rfl
    · rfl

lemma judge_done : (Race.judge cfg out i).done = out.done := by
  rw [Race.judge]
  split
  · rfl
  · split
    · rfl
    · rfl

lemma judge_results : (Race.judge cfg out i).results = out.results := by
  rw [Race.judge]
  split
  · rfl
  · split
    · rfl
    · rfl

section

variable (s : Race R) (i : ℕ) (cause : String) (r : Reply)

lemma finish_started : (s.finish cfg i cause r).out.started = s.out.started := by
  rw [finish_out, judge_started, Race.collect]
  split
  · rfl
  · rfl

lemma finish_done : (s.finish cfg i cause r).out.done = update s.out.done i true := by
  rw [finish_out, judge_done]

end

lemma fresh_iff {now : ℤ} (h : s.fresh cfg now = true) :
    s.next < cfg.nmethods ∧ s.resident cfg.nmethods < cfg.residentCap := by
  simp only [Race.fresh, and_eq_true, decide_eq_true_eq] at h
  exact h.1

lemma eligible_of_foldl {now : ℤ} {l : List ℕ} {o : Option ℕ}
    (ho : ∀ j, o = some j → s.eligible cfg now j = true) :
    ∀ j, l.foldl (fun v i => if s.eligible cfg now i then
        match v with
        | none => some i
        | some j => if s.sliceAt i < s.sliceAt j then some i else some j
      else v) o = some j → s.eligible cfg now j = true := by
  induction l generalizing o with
  | nil => exact ho
  | cons i l ih =>
    refine ih fun j hj => ?_
    beta_reduce at hj
    by_cases hi : s.eligible cfg now i = true
    · rw [if_pos hi] at hj
      cases o with
      | none =>
        cases hj
        exact hi
      | some k =>
        change (if s.sliceAt i < s.sliceAt k then some i else some k) = some j at hj
        split at hj
        · cases hj
          exact hi
        · exact ho j hj
    · rw [if_neg hi] at hj
      exact ho j hj

/-- The victim is a racer whose quantum is up. -/
lemma eligible_of_victim {now : ℤ} {v : ℕ} (h : s.victim cfg now = some v) :
    s.eligible cfg now v = true :=
  eligible_of_foldl (by rintro _ ⟨⟩) v h

namespace Slots

variable {held : List ℕ} {r : Reply}

/-- What the slots do not depend on. -/
lemma congr {s' : Race R} (h : Slots cfg s held) (hla : s'.launches = s.launches)
    (hnext : s'.next = s.next)
    (hst : s'.out.started = s.out.started) (hdo : s'.out.done = s.out.done) (hpid : s'.pid = s.pid)
    (hrfd : s'.forkOk = true → s.forkOk = true ∧ s'.rfd = s.rfd) (hpa : s'.parked = s.parked)
    (hsto : s'.stopped = s.stopped)
    (hle : s'.leases = s.leases) (hin : s'.inherited = s.inherited)
    (hsta : s'.stale = s.stale) : Slots cfg s' held := by
  have hlv : s'.live = s.live := by
    funext i
    rw [Race.live, Race.live, hst, hdo]
  refine ⟨?_, ?_, ?_, ?_, ?_, ?_, ?_, ?_, ?_, ?_, ?_, ?_, ?_⟩
  · rw [hla, hnext, h.launches]
  · rw [hnext]
    exact h.next_le
  · rw [hst, hnext]
    exact h.started
  · rw [hst, hdo]
    exact h.done
  · rw [hpid, hlv]
    exact h.pid
  · intro hok
    rw [(hrfd hok).2, hst]
    exact h.rfd (hrfd hok).1
  · rw [hpa]
    exact h.nodup
  · rw [hpa, hsto]
    exact h.stopped
  · rw [hpa, hlv]
    exact h.parked
  · rw [hlv, hsto, hle, hin]
    exact h.slot
  · rw [hlv, hsto, hin]
    exact h.token
  · rw [Race.resident, hlv]
    exact h.resident
  · rw [hsta]
    exact h.stale

section

variable (h : Slots cfg s held) (hnext : s.next < cfg.nmethods)
  (hcap : s.resident cfg.nmethods < cfg.residentCap)
include h hnext hcap

/-- The next method is started. -/
lemma start {lease inherit : Bool} (hsl : (lease || inherit) = true)
    (hto : inherit = true → s.inherited = none) {s' : Race R}
    (hla : s'.launches = s.launches ++ [s.next]) (hn' : s'.next = s.next + 1)
    (hsta : s'.out.started = update s.out.started s.next true)
    (hdo : s'.out.done = s.out.done) (hpid : s'.pid = update s.pid s.next true)
    (hok : s'.forkOk = s.forkOk) (hrfd : s'.rfd = update s.rfd s.next true)
    (hpa : s'.parked = s.parked) (hsto : s'.stopped = s.stopped)
    (hls : s'.leases = update s.leases s.next lease)
    (hinh : s'.inherited = if inherit then some s.next else s.inherited)
    (hstl : s'.stale = s.stale) : Slots cfg s' held := by
  have hnot := eq_false_of_not_eq_true fun hst => ((h.started _).1 hst).false
  have hnt := eq_false_of_not_eq_true fun hd => false_ne_true (hnot.symm.trans (h.done _ hd))
  have hntl : s.live s.next = false := by rw [Race.live, hnot, Bool.false_and]
  have hno : s.stopped s.next = false := eq_false_of_not_eq_true fun hst =>
    false_ne_true (hntl.symm.trans (h.parked _ ((h.stopped _).1 hst)))
  have hlv : s'.live = update s.live s.next true := by
    funext i
    by_cases hi : i = s.next
    · subst hi
      rw [Race.live, hsta, hdo, update_self, update_self, hnt]
      rfl
    · rw [Race.live, hsta, hdo, update_of_ne hi, update_of_ne hi, Race.live]
  have hlv' : ∀ i, s.live i = true → s'.live i = true := by
    intro i hi
    rw [hlv]
    by_cases heq : i = s.next
    · rw [heq, update_self]
    · rw [update_of_ne heq, hi]
  refine ⟨?_, ?_, ?_, ?_, ?_, ?_, ?_, ?_, ?_, ?_, ?_, ?_, ?_⟩
  · rw [hla, hn', h.launches, range_succ]
  · rwa [hn']
  · intro i
    rw [hsta, hn', Nat.lt_succ_iff_lt_or_eq]
    by_cases hi : i = s.next
    · rw [hi, update_self]
      exact iff_of_true rfl (.inr rfl)
    · rw [update_of_ne hi, h.started, or_iff_left hi]
  · intro i hi
    rw [hdo] at hi
    rw [hsta]
    by_cases heq : i = s.next
    · rw [heq, update_self]
    · rw [update_of_ne heq]
      exact h.done i hi
  · intro i
    rw [hpid, hlv]
    by_cases hi : i = s.next
    · rw [hi, update_self, update_self]
    · rw [update_of_ne hi, update_of_ne hi, h.pid]
  · intro hfo i hi
    rw [hok] at hfo
    rw [hrfd] at hi
    rw [hsta]
    by_cases heq : i = s.next
    · rw [heq, update_self]
    · rw [update_of_ne heq] at hi ⊢
      exact h.rfd hfo i hi
  · rw [hpa]
    exact h.nodup
  · rw [hpa, hsto]
    exact h.stopped
  · rw [hpa]
    exact fun i hi => hlv' i (h.parked i hi)
  · intro i hi hst
    rw [hsto] at hst
    rw [hls, hinh]
    by_cases heq : i = s.next
    · subst heq
      rw [update_self]
      cases inherit
      · exact .inl ((Bool.or_false _).symm.trans hsl)
      · exact .inr rfl
    · rw [hlv, update_of_ne heq] at hi
      rw [update_of_ne heq]
      refine (h.slot i hi hst).imp_right fun hin => ?_
      cases inherit
      · exact hin
      · exact absurd ((hto rfl).symm.trans hin) nofun
  · intro i hi
    rw [hinh] at hi
    rw [hsto]
    cases inherit
    · obtain ⟨hl, hs⟩ := h.token i hi
      exact ⟨hlv' i hl, hs⟩
    · cases hi
      exact ⟨by rw [hlv, update_self], hno⟩
  · have hle := countP_range_le_succ (p := s.live) (q := s'.live) (i := s.next)
      (fun j hj => by rw [hlv, update_of_ne hj]) cfg.nmethods
    exact hle.trans hcap
  · rw [hstl]
    exact h.stale

lemma launchNext {given inherit : Bool} (hto : inherit = true → s.inherited = none) :
    Slots cfg (s.launchNext given inherit r) held := by
  rw [Race.launchNext, Race.launch]
  obtain ⟨lease, hle⟩ : ∃ lease, lease = if (given || inherit) = true then given
    else r.granted := ⟨_, rfl⟩
  rw [← hle]
  by_cases hno : (!lease && !inherit) = true
  · rw [if_pos hno]
    exact h.congr rfl rfl rfl rfl rfl (fun hok => ⟨hok, rfl⟩) rfl rfl rfl rfl rfl
  · rw [if_neg hno]
    have hsl : (lease || inherit) = true := by
      cases lease
      · cases inherit
        · exact absurd rfl hno
        · rfl
      · rfl
    by_cases hpi : (!r.piped) = true
    · rw [if_pos hpi]
      exact h.congr rfl rfl rfl rfl rfl nofun rfl rfl rfl rfl rfl
    · rw [if_neg hpi]
      by_cases hfo : (!r.forked) = true
      · rw [if_pos hfo]
        exact h.congr rfl rfl rfl rfl rfl nofun rfl rfl rfl rfl rfl
      · rw [if_neg hfo]
        exact h.start hnext hcap hsl hto rfl rfl rfl rfl rfl rfl rfl rfl rfl rfl rfl rfl

end

/-- The first parked racer runs again. -/
lemma resume (h : Slots cfg s held) {j : ℕ} {rest : List ℕ} (hpa : s.parked = j :: rest)
    {lease inherit : Bool} (hsl : (lease || inherit) = true)
    (hto : inherit = true → s.inherited = none) :
    Slots cfg { s.resume j lease inherit r with parked := rest } held := by
  have hli : s.parked ++ held = j :: (rest ++ held) := by rw [hpa, cons_append]
  obtain ⟨hj, hnd⟩ := nodup_cons.1 (hli ▸ h.nodup)
  have hjl := h.parked j (by rw [hli]; exact (.head _))
  have hjd : s.out.done j = false := by
    rw [Race.live, and_eq_true, not_eq_true'] at hjl
    exact hjl.2
  refine { h with nodup := hnd, stopped := ?_, parked := ?_, slot := ?_, token := ?_, stale := ?_ }
  · intro i
    change update s.stopped j false i = true ↔ i ∈ rest ++ held
    by_cases hi : i = j
    · rw [hi, update_self]
      exact iff_of_false false_ne_true hj
    · rw [update_of_ne hi, h.stopped, hli, mem_cons, or_iff_right hi]
  · intro i hi
    exact h.parked i (by rw [hli]; exact .tail _ hi)
  · intro i hi hst
    change update s.stopped j false i = false at hst
    change update s.leases j lease i = true ∨ (if inherit then some j else s.inherited) = some i
    by_cases heq : i = j
    · subst heq
      rw [update_self]
      cases inherit
      · exact .inl ((Bool.or_false _).symm.trans hsl)
      · exact .inr rfl
    · rw [update_of_ne heq] at hst ⊢
      refine (h.slot i hi hst).imp_right fun hin => ?_
      cases inherit
      · exact hin
      · exact absurd ((hto rfl).symm.trans hin) nofun
  · intro i hi
    change s.live i = true ∧ update s.stopped j false i = false
    cases inherit
    · obtain ⟨hl, hs⟩ := h.token i hi
      refine ⟨hl, ?_⟩
      by_cases heq : i = j
      · rw [heq, update_self]
      · rw [update_of_ne heq, hs]
    · cases hi
      exact ⟨hjl, update_self ..⟩
  · change (if s.out.done j then s.stale ++ [j] else s.stale) = []
    rw [hjd]
    exact h.stale

/-- A running racer is stopped. -/
lemma stop (h : Slots cfg s []) {v : ℕ} (hlv : s.live v = true) (hrun : s.stopped v = false) :
    Slots cfg (s.stop v) [v] := by
  have hv : v ∉ s.parked := by
    intro hmem
    have := (h.stopped v).2 (mem_append_left _ hmem)
    exact false_ne_true (hrun.symm.trans this)
  have hnd : s.parked.Nodup := by simpa using h.nodup
  refine { h with nodup := ?_, stopped := ?_, parked := ?_, slot := ?_, token := ?_ }
  · exact nodup_append'.2 ⟨hnd, nodup_singleton v, disjoint_singleton.2 hv⟩
  · intro i
    change update s.stopped v true i = true ↔ i ∈ s.parked ++ [v]
    by_cases hi : i = v
    · rw [hi, update_self]
      exact iff_of_true rfl (mem_append_right _ (mem_singleton_self v))
    · rw [update_of_ne hi, h.stopped, append_nil, mem_append, mem_singleton, or_iff_left hi]
  · intro i hi
    rcases mem_append.1 hi with hi | hi
    · exact h.parked i (mem_append_left _ hi)
    · rwa [mem_singleton.1 hi]
  · intro i hi hst
    change update s.stopped v true i = false at hst
    change update s.leases v false i = true ∨
      (if s.inherited = some v then none else s.inherited) = some i
    by_cases heq : i = v
    · rw [heq, update_self] at hst
      cases hst
    · rw [update_of_ne heq] at hst ⊢
      refine (h.slot i hi hst).imp_right fun hin => ?_
      rw [if_neg fun hv => heq (Option.some.inj (hin.symm.trans hv)), hin]
  · intro i hi
    change (if s.inherited = some v then none else s.inherited) = some i at hi
    change s.live i = true ∧ update s.stopped v true i = false
    split at hi
    · cases hi
    next hne =>
      obtain ⟨hl, hs⟩ := h.token i hi
      have heq : i ≠ v := fun heq => hne (heq ▸ hi)
      exact ⟨hl, by rw [update_of_ne heq, hs]⟩

/-- A slot changes hands. -/
lemma handOver {v : ℕ} (h : Slots cfg s [v]) {fresh lease token : Bool}
    (hf : fresh = true → s.next < cfg.nmethods ∧ s.resident cfg.nmethods < cfg.residentCap)
    (hsl : (lease || token) = true)
    (hto : token = true → s.inherited = none) :
    Slots cfg (s.handOver v fresh lease token r) [] := by
  have hpr : ∀ {s' : Race R}, Slots cfg s' [v] →
      Slots cfg { s' with parked := s'.parked ++ [v] } [] := by
    intro s' h'
    refine { h' with nodup := ?_, stopped := ?_, parked := ?_ }
    · rw [append_nil]
      exact h'.nodup
    · rw [append_nil]
      exact h'.stopped
    · rw [append_nil]
      exact h'.parked
  refine hpr ?_
  cases fresh with
  | true => exact h.launchNext (hf rfl).1 (hf rfl).2 hto
  | false =>
    cases hpa : s.parked with
    | nil => exact h
    | cons j rest => exact h.resume hpa hsl hto

section

variable (h : Slots cfg s [])
include h

/-- A racer that ended leaves its slot, and the parked ones if it was stopped. -/
lemma finish {i : ℕ} (hlv : s.live i = true) (cause : String) :
    Slots cfg (s.finish cfg i cause r) [] := by
  have hsta : (s.finish cfg i cause r).out.started = s.out.started := finish_started ..
  have hdo : (s.finish cfg i cause r).out.done = update s.out.done i true := finish_done ..
  have hst := (and_eq_true_iff.1 hlv).1
  have hlv' : (s.finish cfg i cause r).live = update s.live i false := by
    funext j
    rw [Race.live, hsta, hdo]
    by_cases hj : j = i
    · rw [hj, update_self, update_self]
      exact and_false _
    · rw [update_of_ne hj, update_of_ne hj, Race.live]
  have hof : ∀ j, (s.finish cfg i cause r).live j = true → j ≠ i ∧ s.live j = true := by
    intro j hj
    rw [hlv'] at hj
    by_cases heq : j = i
    · rw [heq, update_self] at hj
      cases hj
    · rw [update_of_ne heq] at hj
      exact ⟨heq, hj⟩
  have hmem : ∀ j, j ∈ (s.finish cfg i cause r).parked ++ [] ↔ j ∈ s.parked ∧ j ≠ i := by
    intro j
    rw [append_nil]
    exact mem_filter.trans (and_congr_right fun _ => by rw [decide_eq_true_eq])
  have hsto : (s.finish cfg i cause r).stopped = update s.stopped i false := rfl
  have hinh : (s.finish cfg i cause r).inherited = if s.inherited = some i then none
    else s.inherited := rfl
  refine ⟨h.launches, h.next_le, ?_, ?_, ?_, ?_, ?_, ?_, ?_, ?_, ?_, ?_, h.stale⟩
  · rw [hsta]
    exact h.started
  · intro j hj
    rw [hdo] at hj
    rw [hsta]
    by_cases heq : j = i
    · rwa [heq]
    · rw [update_of_ne heq] at hj
      exact h.done j hj
  · intro j
    rw [hlv']
    change update s.pid i false j = _
    by_cases hj : j = i
    · rw [hj, update_self, update_self]
    · rw [update_of_ne hj, update_of_ne hj, h.pid]
  · intro hok j hj
    rw [hsta]
    exact h.rfd hok j hj
  · rw [append_nil]
    have hnd : s.parked.Nodup := by simpa using h.nodup
    exact hnd.filter _
  · intro j
    rw [hmem, hsto]
    by_cases hj : j = i
    · rw [hj, update_self]
      exact iff_of_false false_ne_true fun hmem => hmem.2 rfl
    · rw [update_of_ne hj, h.stopped, append_nil, and_iff_left hj]
  · intro j hj
    obtain ⟨hj, hne⟩ := (hmem j).1 hj
    rw [hlv', update_of_ne hne]
    exact h.parked j (mem_append_left _ hj)
  · intro j hj hstp
    obtain ⟨hne, hl⟩ := hof j hj
    rw [hsto, update_of_ne hne] at hstp
    change update s.leases i false j = true ∨ _
    rw [hinh, update_of_ne hne]
    refine (h.slot j hl hstp).imp_right fun hin => ?_
    rw [if_neg fun hi => hne (Option.some.inj (hin.symm.trans hi)), hin]
  · intro j hj
    rw [hinh] at hj
    split at hj
    · cases hj
    next hnot =>
      have hne : j ≠ i := fun heq => hnot (heq ▸ hj)
      rw [hlv', hsto, update_of_ne hne, update_of_ne hne]
      exact h.token j hj
  · refine (countP_mono_left fun j _ hj => ?_).trans h.resident
    exact (hof j hj).2

/-- A racer whose quantum is up runs, and has a slot. -/
lemma eligible {now : ℤ} {v : ℕ} (hv : s.eligible cfg now v = true) :
    s.live v = true ∧ s.stopped v = false ∧ (s.leases v || (s.inherited == some v)) = true := by
  simp only [Race.eligible, and_eq_true, not_eq_true'] at hv
  obtain ⟨⟨⟨⟨hpid, -⟩, hst⟩, hsl⟩, -⟩ := hv
  exact ⟨(h.pid v).symm.trans hpid, hst, hsl⟩

lemma rotate : Slots cfg (s.rotate cfg r) [] := by
  rw [Race.rotate]
  split
  · exact h
  · cases hvi : s.victim cfg r.now with
    | none => exact h
    | some v =>
      change Slots cfg (if r.suspended = true then _ else s) []
      split
      · obtain ⟨hlv, hrun, hsl⟩ := h.eligible (eligible_of_victim hvi)
        refine (h.stop hlv hrun).handOver (fun hf => ?_) hsl fun hto => ?_
        · exact fresh_iff hf
        · change (if s.inherited = some v then none else s.inherited) = none
          rw [if_pos (eq_of_beq hto)]
      · exact h

/-- When nothing runs, nobody has the token. -/
lemma inherited_of_running (hrun : s.running cfg.nmethods = 0) : s.inherited = none := by
  cases hin : s.inherited with
  | none => rfl
  | some i =>
    obtain ⟨hlv, hst⟩ := h.token i hin
    have hlt := ((h.started i).1 (and_eq_true_iff.1 hlv).1).trans_le h.next_le
    have hnot := countP_eq_zero.1 hrun i (mem_range.2 hlt)
    rw [hlv, hst] at hnot
    exact absurd rfl hnot

lemma admitInherited : Slots cfg (s.admitInherited cfg r) [] := by
  rw [Race.admitInherited]
  split
  next hne =>
    have hrun := eq_of_beq (and_eq_true_iff.1 hne).2
    have hto := h.inherited_of_running hrun
    split
    next hf => exact h.launchNext (fresh_iff hf).1 (fresh_iff hf).2 fun _ => hto
    · cases hpa : s.parked with
      | nil => exact h
      | cons j rest => exact h.resume hpa rfl fun _ => hto
  · exact h

end

end Slots

end LiveHD.Lec.ForkRace
