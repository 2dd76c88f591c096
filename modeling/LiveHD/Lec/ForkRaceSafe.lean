import LiveHD.Lec.ForkRaceSlots

/-!
# A race is safe

What holds after every step of the parent.
-/

namespace LiveHD.Lec.ForkRace

open Function Framing List Bool Race

variable {R : Type*} {cfg : Config R} {children : ℕ → Child R} {s : Race R}

/-! ## Frames -/

lemma headerValue_le (n v : ℕ) : headerValue (le n v) = v % 256 ^ n := by
  induction n generalizing v with
  | zero => exact (Nat.mod_one v).symm
  | succ n ih =>
    have hlow : (UInt8.ofNat v).toNat = v % 256 := UInt8.toNat_ofNat'
    change (UInt8.ofNat v).toNat + 256 * headerValue (le n (v / 256)) = _
    rw [ih, pow_succ']
    exact Nat.mod_mul.symm

/-- What is taken off the bytes of a child is the payload of its whole frame. -/
lemma eq_of_unframeBlob {b payload : List UInt8} {p : Blob} (hb : b <+: frameBlob p)
    (h : unframeBlob b = some payload) :
    b = frameBlob p ∧ payload = p.1 := by
  rw [unframeBlob] at h
  split at h
  · cases h
  next hsh =>
    have hlo := not_lt.1 hsh
    split at h
    · cases h
    next hsz =>
      cases h
      have hle : (le 8 p.1.length).length = 8 := length_le 8 _
      have hta : b.take 8 = le 8 p.1.length := by
        rw [prefix_iff_eq_take.1 hb, take_take, min_eq_left hlo]
        rfl
      have hhe : headerValue (b.take 8) = p.1.length := by
        rw [hta, headerValue_le]
        exact Nat.mod_eq_of_lt (p.2.trans_eq (by norm_num))
      have hlen : b.length = (frameBlob p).length := by
        rw [length_drop] at hsz
        rw [frameBlob, length_append]
        omega
      have heq := hb.eq_of_length hlen
      refine ⟨heq, ?_⟩
      rw [heq]
      rfl

/-- The bytes that are read next. -/
lemma append_take_prefix {l w : List UInt8} (h : l <+: w) (k : ℕ) :
    l ++ (w.drop l.length).take k <+: w := by
  obtain ⟨t, rfl⟩ := h
  rw [drop_left]
  exact (prefix_append_right_inj l).2 ( take_prefix k t)

/-! ## Results -/

/-- The bytes and results of a race. -/
structure Data (cfg : Config R) (children : ℕ → Child R) (s : Race R) : Prop where
  bufs : ∀ i, s.bufs i <+: (children i).written cfg
  waiting : ∀ i, s.out.done i = false → s.out.results i = cfg.empty
  taken : ∀ i, s.out.results i = cfg.empty ∨ ∃ payload, unframeBlob (s.bufs i) = some payload ∧
    cfg.deser payload = some (s.out.results i)
  winner : s.out.winner = -1 ∨ (∃ i : ℕ, s.out.winner = i ∧ s.out.done i = true ∧
    cfg.trust i (s.out.results i) = true) ∨
    ∃ f out, cfg.resolve = some f ∧ s.out.winner = f out

namespace Data

variable {r : Reply}

section

variable (h : Data cfg children s)
include h

lemma congr {s' : Race R} (hbu : s'.bufs = s.bufs) (hdo : s'.out.done = s.out.done)
    (hre : s'.out.results = s.out.results) (hwi : s'.out.winner = s.out.winner) :
    Data cfg children s' := by
  refine ⟨?_, ?_, ?_, ?_⟩
  · rw [hbu]
    exact h.bufs
  · rw [hdo, hre]
    exact h.waiting
  · rw [hbu, hre]
    exact h.taken
  · rw [hwi, hdo, hre]
    exact h.winner

lemma launch (i : ℕ) (given inherit : Bool) : Data cfg children (s.launch i given inherit r).1 := by
  rw [Race.launch]
  generalize (if (given || inherit) = true then given else r.granted) = lease
  split
  · exact h.congr rfl rfl rfl rfl
  · split
    · exact h.congr rfl rfl rfl rfl
    · split
      · exact h.congr rfl rfl rfl rfl
      · exact h.congr rfl rfl rfl rfl

lemma launchNext (given inherit : Bool) : Data cfg children (s.launchNext given inherit r) := by
  rw [Race.launchNext]
  split
  · exact (h.launch s.next given inherit).congr rfl rfl rfl rfl
  · exact h.launch s.next given inherit

lemma handOver (v : ℕ) (fresh lease token : Bool) :
    Data cfg children (s.handOver v fresh lease token r) := by
  rw [Race.handOver]
  cases fresh with
  | true => exact (h.launchNext lease token).congr rfl rfl rfl rfl
  | false =>
    cases hpa : s.parked with
    | nil => exact h.congr rfl rfl rfl rfl
    | cons j rest => exact h.congr rfl rfl rfl rfl

lemma rotate : Data cfg children (s.rotate cfg r) := by
  rw [Race.rotate]
  split
  · exact h
  · cases s.victim cfg r.now with
    | none => exact h
    | some v =>
      change Data cfg children (if r.suspended = true then _ else s)
      split
      · have hst : Data cfg children (s.stop v) := h.congr rfl rfl rfl rfl
        exact hst.handOver v _ _ _
      · exact h

lemma admitInherited : Data cfg children (s.admitInherited cfg r) := by
  rw [Race.admitInherited]
  split
  · split
    · exact h.launchNext false true
    · cases hpa : s.parked with
      | nil => exact h
      | cons j rest => exact h.congr rfl rfl rfl rfl
  · exact h

end

/-- The winner is judged by the result that was taken. -/
lemma judge {out : RaceResult R} {i : ℕ} (hdo : out.done i = true)
    (hold : out.winner = -1 ∨ ∃ f o, cfg.resolve = some f ∧ out.winner = f o) :
    (judge cfg out i).winner = -1 ∨
    (∃ j : ℕ, (judge cfg out i).winner = j ∧ (judge cfg out i).done j = true ∧
        cfg.trust j ((judge cfg out i).results j) = true) ∨
      ∃ f o, cfg.resolve = some f ∧ (judge cfg out i).winner = f o := by
  rw [Race.judge]
  split
  next htr => exact .inr (.inl ⟨i, rfl, hdo, htr⟩)
  · cases hre : cfg.resolve with
    | none =>
      rcases hold with hold | ⟨f, o, hf, -⟩
      · exact .inl hold
      · rw [hre] at hf
        cases hf
    | some f => exact .inr (.inr ⟨f, out, rfl, rfl⟩)

lemma finish (h : Data cfg children s) {i : ℕ} (hwi : s.out.winner < 0) (cause : String) :
    Data cfg children (s.finish cfg i cause r) := by
  have hold : s.out.winner = -1 ∨ ∃ f o, cfg.resolve = some f ∧ s.out.winner = f o := by
    rcases h.winner with hw | ⟨j, hj, -⟩ | hw
    · exact .inl hw
    · exact absurd hwi (by omega)
    · exact .inr hw
  have hco : (s.collect cfg i cause).winner = s.out.winner := by
    rw [collect]
    split
    · rfl
    · rfl
  have hre : ∃ v, (s.collect cfg i cause).results = update s.out.results i v ∧
      (v = cfg.empty ∨ ∃ payload, unframeBlob (s.bufs i) = some payload ∧
        cfg.deser payload = some v) := by
    rw [collect]
    split
    next v hv =>
      obtain ⟨payload, hp, hd⟩ := Option.bind_eq_some_iff.1 hv
      exact ⟨v, rfl, .inr ⟨payload, hp, hd⟩⟩
    · exact ⟨cfg.empty, rfl, .inl rfl⟩
  obtain ⟨v, hre, hv⟩ := hre
  have hre' : (s.finish cfg i cause r).out.results = update s.out.results i v := by
    rw [finish_out, judge_results, hre]
  refine ⟨h.bufs, ?_, ?_, ?_⟩
  · intro j hj
    rw [finish_done] at hj
    rw [hre']
    by_cases heq : j = i
    · rw [heq, update_self] at hj
      cases hj
    · rw [update_of_ne heq] at hj ⊢
      exact h.waiting j hj
  · intro j
    rw [hre']
    by_cases heq : j = i
    · subst heq
      rwa [update_self]
    · rw [update_of_ne heq]
      exact h.taken j
  · refine judge (update_self ..) ?_
    rwa [hco]

lemma reap (h : Data cfg children s) : Data cfg children (s.reap cfg r) := by
  have hre : ∀ i, (s.reap cfg r).out.results i = s.out.results i ∨
      s.out.done i = false ∧ s.out.winner < 0 ∧ (s.reap cfg r).out.results i = cfg.empty := by
    intro i
    change (if _ then cfg.empty else s.out.results i) = _ ∨ _ ∧ _ ∧
      (if _ then cfg.empty else s.out.results i) = cfg.empty
    split
    next hla =>
      simp only [and_eq_true, not_eq_true', decide_eq_true_eq] at hla
      exact .inr ⟨hla.1.1.1.2, hla.1.2, rfl⟩
    · exact .inl rfl
  refine ⟨h.bufs, ?_, ?_, ?_⟩
  · intro i hi
    rcases hre i with heq | ⟨-, -, heq⟩
    · rw [heq]
      exact h.waiting i hi
    · exact heq
  · intro i
    rcases hre i with heq | ⟨-, -, heq⟩
    · rw [heq]
      exact h.taken i
    · exact .inl heq
  · refine h.winner.imp_right (.imp_left ?_)
    rintro ⟨i, hw, hdo, htr⟩
    refine ⟨i, hw, hdo, ?_⟩
    rcases hre i with heq | ⟨hnot, -⟩
    · rwa [heq]
    · exact absurd (hdo.symm.trans hnot) (by decide)

end Data

/-! ## Steps -/

/-- The racers that are about to be read are resident. -/
def Ready (s : Race R) : Prop := ∀ l, s.pc = .read l → l.Nodup ∧ ∀ i ∈ l, s.live i = true

/-- A state of the parent: its slots, or what is left of them at the end. -/
inductive Settled (cfg : Config R) : Race R → Prop
  | racing {s : Race R} : s.pc ≠ .returned → Slots cfg s [] → Ready s → Settled cfg s
  | refused {s : Race R} : Slots cfg s [] →
    Settled cfg { s with pc := .returned, out := { s.out with forked := false } }
  | reaped {s : Race R} (r : Reply) : Slots cfg s [] → Settled cfg (s.reap cfg r)

lemma Settled.of_pc {s : Race R} (h : Slots cfg s []) {pc : Pc} (hpc : pc ≠ .returned)
    (hrd : ∀ l, pc ≠ .read l) : Settled cfg { s with pc := pc } :=
  .racing hpc (h.congr rfl rfl rfl rfl rfl (fun hok => ⟨hok, rfl⟩) rfl rfl rfl rfl rfl) fun l hl =>
    absurd hl (hrd l)

/-- The racers that poll reports are resident. -/
lemma ready_poll (h : Slots cfg s []) (hok : s.forkOk = true) (revents : ℕ → Bool) :
    ((List.range cfg.nmethods).filter fun i => !s.out.done i && s.rfd i && revents i).Nodup ∧
      ∀ i ∈ (List.range cfg.nmethods).filter fun i => !s.out.done i && s.rfd i && revents i,
      s.live i = true := by
  refine ⟨nodup_range.filter _, fun i hi => ?_⟩
  have hi' := (mem_filter.1 hi).2
  simp only [and_eq_true] at hi'
  rw [live, h.rfd hok i hi'.1.2, hi'.1.1]
  rfl

lemma launch_pc (s : Race R) (i : ℕ) (given inherit : Bool) (r : Reply) :
    (s.launch i given inherit r).1.pc = s.pc := by
  rw [Race.launch]
  generalize (if (given || inherit) = true then given else r.granted) = lease
  split
  · rfl
  · split
    · rfl
    · split
      · rfl
      · rfl

/-- One step, in each of the loops. -/
lemma Slots.step (h : Slots cfg s []) (hrd : Ready s) (hpc : s.pc ≠ .returned) (r : Reply) :
    Settled cfg (s.step cfg children r) := by
  cases hat : s.pc with
  | launch before =>
    have hste : s.step cfg children r = if (s.forkOk && s.fresh cfg r.now) = true then
        (if (s.launch s.next false false r).2 = true then
          { (s.launch s.next false false r).1 with next := s.next + 1 }
          else { (s.launch s.next false false r).1 with pc := .unpark before })
        else { s with pc := .unpark before } := by
      rw [Race.step, hat]
    rw [hste]
    split
    next hf =>
      obtain ⟨hn, hcap⟩ := fresh_iff (and_eq_true_iff.1 hf).2
      have hsl : Slots cfg (s.launchNext false false r) [] := h.launchNext hn hcap (by simp)
      rw [Race.launchNext] at hsl
      split
      next hst =>
        rw [if_pos hst] at hsl
        have hla : (s.launch s.next false false r).1.pc = .launch before := (launch_pc ..).trans hat
        refine .racing (fun heq => ?_) hsl fun l hl => ?_
        · exact Pc.noConfusion (hla.symm.trans heq)
        · exact Pc.noConfusion (hla.symm.trans hl)
      next hre =>
        rw [if_neg hre] at hsl
        exact .of_pc hsl Pc.noConfusion (by simp)
    · exact .of_pc h Pc.noConfusion (by simp)
  | unpark before =>
    rw [Race.step, hat]
    dsimp only
    split
    next j rest hpa =>
      split
      · refine .racing (fun heq => ?_) (h.resume hpa rfl (by simp)) fun l hl => ?_
        · exact Pc.noConfusion (hat.symm.trans heq)
        · exact Pc.noConfusion (hat.symm.trans hl)
      · exact .of_pc h Pc.noConfusion (by simp)
    · exact .of_pc h Pc.noConfusion (by simp)
  | inherit before =>
    rw [Race.step, hat]
    dsimp only
    have hsl : Slots cfg (s.admitInherited cfg r) [] := h.admitInherited
    split
    · split
      · exact .of_pc hsl Pc.noConfusion (by simp)
      · exact .refused hsl
    · exact .of_pc hsl Pc.noConfusion (by simp)
  | head =>
    rw [Race.step, hat]
    refine .of_pc h ?_ ?_
    · split
      · exact Pc.noConfusion
      · exact Pc.noConfusion
    · intro l hl
      split at hl
      · cases hl
      · cases hl
  | rotate =>
    rw [Race.step, hat]
    refine .of_pc ?_ Pc.noConfusion (by simp)
    split
    · exact h.rotate
    · exact h
  | poll =>
    rw [Race.step, hat]
    dsimp only
    split
    · exact .of_pc h Pc.noConfusion (by simp)
    next hok =>
      have hok : s.forkOk = true := by simpa using hok
      split
      · exact .racing Pc.noConfusion (h.congr rfl rfl rfl rfl rfl (fun hok => ⟨hok, rfl⟩) rfl rfl
          rfl rfl rfl) (by rintro _ ⟨⟩)
      · cases r.poll with
        | timeout => exact .of_pc h Pc.noConfusion (by simp)
        | interrupted => exact .of_pc h Pc.noConfusion (by simp)
        | failed => exact .of_pc h Pc.noConfusion (by simp)
        | events revents =>
          refine .racing Pc.noConfusion (h.congr rfl rfl rfl rfl rfl (fun hok => ⟨hok, rfl⟩) rfl rfl
            rfl rfl rfl) fun l hl => ?_
          cases hl
          exact ready_poll h hok revents
  | read ready =>
    obtain ⟨hnd, hlv⟩ := hrd ready hat
    rw [Race.step, hat]
    cases ready with
    | nil => exact .of_pc h Pc.noConfusion (by simp)
    | cons i ready =>
      obtain ⟨hi, hnd⟩ := nodup_cons.1 hnd
      obtain ⟨hil, hlv⟩ := forall_mem_cons.1 hlv
      dsimp only
      split
      · exact .of_pc h Pc.noConfusion (by simp)
      · have hr : ∀ {s' : Race R}, s'.pc = .read ready → s'.live = s.live → Ready s' := by
          intro s' hpc' hlv' l hl
          obtain rfl := Pc.read.inj (hpc'.symm.trans hl)
          exact ⟨hnd, fun j hj => by rw [hlv', hlv j hj]⟩
        cases r.read with
        | bytes k =>
          exact .racing Pc.noConfusion
            (h.congr rfl rfl rfl rfl rfl (fun hok => ⟨hok, rfl⟩) rfl rfl rfl rfl rfl) (hr rfl rfl)
        | interrupted =>
          exact .racing Pc.noConfusion
            (h.congr rfl rfl rfl rfl rfl (fun hok => ⟨hok, rfl⟩) rfl rfl rfl rfl rfl) (hr rfl rfl)
        | closed cause =>
          have hsl : Slots cfg (s.finish cfg i cause r) [] := h.finish hil cause
          refine .racing Pc.noConfusion (hsl.congr rfl rfl rfl rfl rfl (fun hok => ⟨hok, rfl⟩) rfl
            rfl rfl rfl rfl) fun l hl => ?_
          cases hl
          refine ⟨hnd, fun j hj => ?_⟩
          have hne : j ≠ i := fun heq => hi (heq ▸ hj)
          change ((s.finish cfg i cause r).out.started j &&
            !(s.finish cfg i cause r).out.done j) = true
          rw [finish_started, finish_done, update_of_ne hne]
          exact hlv j hj
  | reap =>
    rw [Race.step, hat]
    exact .reaped r h
  | returned => exact absurd hat hpc

lemma Data.step (h : Data cfg children s) (hr : Ready s) (r : Reply) :
    Data cfg children (s.step cfg children r) := by
  rw [Race.step]
  split
  · dsimp only
    split
    · split
      · exact (h.launch s.next false false).congr rfl rfl rfl rfl
      · exact (h.launch s.next false false).congr rfl rfl rfl rfl
    · exact h.congr rfl rfl rfl rfl
  · split
    · split
      · exact h.congr rfl rfl rfl rfl
      · exact h.congr rfl rfl rfl rfl
    · exact h.congr rfl rfl rfl rfl
  · have had : Data cfg children (s.admitInherited cfg r) := h.admitInherited
    dsimp only
    split
    · split
      · exact had.congr rfl rfl rfl rfl
      · exact had.congr rfl rfl rfl rfl
    · exact had.congr rfl rfl rfl rfl
  · exact h.congr rfl rfl rfl rfl
  · refine .congr (s := if cfg.deadlineMs ≤ 0 ∨ r.now < cfg.deadlineMs then s.rotate cfg r
      else s) ?_ rfl rfl rfl rfl
    split
    · exact h.rotate
    · exact h
  · split
    · exact h.congr rfl rfl rfl rfl
    · split
      · exact h.congr rfl rfl rfl rfl
      · split
        · exact h.congr rfl rfl rfl rfl
        · exact h.congr rfl rfl rfl rfl
        · exact h.congr rfl rfl rfl rfl
        · exact h.congr rfl rfl rfl rfl
  · exact h.congr rfl rfl rfl rfl
  next i ready hat =>
    split
    · exact h.congr rfl rfl rfl rfl
    next hwi =>
      split
      next k _ =>
        refine ⟨fun j => ?_, h.waiting, fun j => ?_, h.winner⟩
        · change update s.bufs i _ j <+: _
          by_cases hj : j = i
          · rw [hj, update_self]
            exact append_take_prefix (h.bufs i) k
          · rw [update_of_ne hj]
            exact h.bufs j
        · by_cases hj : j = i
          · -- A racer that is read has no result yet.
            have hlv := (hr _ hat).2 i (.head _)
            rw [live, and_eq_true, not_eq_true'] at hlv
            exact .inl (hj ▸ h.waiting i hlv.2)
          · change s.out.results j = cfg.empty ∨
              ∃ payload, unframeBlob (update s.bufs i _ j) = some payload ∧ _
            rw [update_of_ne hj]
            exact h.taken j
      · exact h.congr rfl rfl rfl rfl
      · exact (h.finish (not_le.1 hwi) _).congr rfl rfl rfl rfl
  · exact h.reap
  · exact h

/-! ## Every step -/

/-- What the parent keeps: each method is started once at most; the stopped racers are the parked
ones, each parked once and none of them done; a racer that runs holds a lease or the token, which
one running racer has at most; the resident racers are bounded; no racer is resumed after it is
done; a result is the one of the method, out of its whole frame; and a winner was trusted by its own
result, or chosen by `resolve`. -/
structure Safe (cfg : Config R) (children : ℕ → Child R) (s : Race R) : Prop where
  launches : s.launches.Nodup
  method : ∀ i ∈ s.launches, i < cfg.nmethods
  started : ∀ i, s.out.started i = true ↔ i ∈ s.launches
  parked : s.parked.Nodup
  stopped : ∀ i, s.stopped i = true ↔ i ∈ s.parked
  unfinished : ∀ i ∈ s.parked, s.out.started i = true ∧ s.out.done i = false
  slot : s.pc ≠ .returned → ∀ i, s.out.started i = true → s.out.done i = false →
    s.stopped i = false → s.leases i = true ∨ s.inherited = some i
  token : ∀ i, s.inherited = some i → s.out.started i = true ∧
    s.out.done i = false ∧ s.stopped i = false
  resident : (List.range cfg.nmethods).countP (fun i => s.out.started i && !s.out.done i) ≤
    max 2 cfg.ceiling
  resumed : s.stale = []
  own : ∀ i, s.out.results i = cfg.empty ∨
    s.bufs i = frameBlob (cfg.ser (children i).result) ∧
    cfg.deser (cfg.ser (children i).result).1 = some (s.out.results i)
  winner : s.out.winner = -1 ∨ (∃ i : ℕ, s.out.winner = i ∧ s.out.done i = true ∧
    cfg.trust i (s.out.results i) = true) ∨
    ∃ f out, cfg.resolve = some f ∧ s.out.winner = f out

/-- A result is the child's own. -/
lemma Data.own (h : Data cfg children s) (i : ℕ) : s.out.results i = cfg.empty ∨
    s.bufs i = frameBlob (cfg.ser (children i).result) ∧
    cfg.deser (cfg.ser (children i).result).1 = some (s.out.results i) := by
  refine (h.taken i).imp_right ?_
  rintro ⟨payload, hun, hde⟩
  obtain ⟨hbu, rfl⟩ := eq_of_unframeBlob ((h.bufs i).trans ( take_prefix _ _)) hun
  exact ⟨hbu, hde⟩

/-- A state with the slots of another one, but for the leases and children that are left at the
end. -/
lemma Slots.safe {s₀ : Race R} (h : Slots cfg s₀ []) (hda : Data cfg children s)
    (hla : s.launches = s₀.launches)
    (hsta : s.out.started = s₀.out.started) (hdo : s.out.done = s₀.out.done)
    (hpa : s.parked = s₀.parked) (hsto : s.stopped = s₀.stopped)
    (hin : s.inherited = s₀.inherited) (hstl : s.stale = s₀.stale)
    (hle : s.pc ≠ .returned → s.leases = s₀.leases) : Safe cfg children s := by
  have hlv : ∀ {i}, s₀.live i = true ↔ s₀.out.started i = true ∧ s₀.out.done i = false := by
    intro i
    rw [live, and_eq_true, not_eq_true']
  refine ⟨?_, ?_, ?_, ?_, ?_, ?_, ?_, ?_, ?_, ?_, hda.own, hda.winner⟩
  · rw [hla, h.launches]
    exact nodup_range
  · rw [hla, h.launches]
    exact fun i hi => (mem_range.1 hi).trans_le h.next_le
  · intro i
    rw [hla, h.launches, hsta, mem_range]
    exact h.started i
  · rw [hpa]
    simpa using h.nodup
  · intro i
    rw [hpa, hsto]
    simpa using h.stopped i
  · intro i hi
    rw [hpa] at hi
    rw [hsta, hdo]
    exact hlv.1 (h.parked i (mem_append_left _ hi))
  · intro hpc i hs hd hst
    rw [hsta] at hs
    rw [hdo] at hd
    rw [hsto] at hst
    rw [hle hpc, hin]
    exact h.slot i (hlv.2 ⟨hs, hd⟩) hst
  · intro i hi
    rw [hin] at hi
    rw [hsta, hdo, hsto]
    obtain ⟨hl, hs⟩ := h.token i hi
    exact ⟨(hlv.1 hl).1, (hlv.1 hl).2, hs⟩
  · rw [hsta, hdo]
    exact h.resident
  · rw [hstl]
    exact h.stale

lemma Settled.safe (h : Settled cfg s) (hda : Data cfg children s) : Safe cfg children s := by
  cases h with
  | racing _ hsl _ => exact hsl.safe hda rfl rfl rfl rfl rfl rfl rfl fun _ => rfl
  | refused hsl => exact hsl.safe hda rfl rfl rfl rfl rfl rfl rfl fun _ => rfl
  | reaped r hsl => exact hsl.safe hda rfl rfl rfl rfl rfl rfl rfl fun hpc => absurd rfl hpc

lemma settled_of_reached (h : Race.Reached cfg children s) :
    Settled cfg s ∧ Data cfg children s := by
  induction h with
  | init => exact ⟨.racing Pc.noConfusion slots_init nofun,
    (⟨fun _ => nil_prefix, fun _ _ => rfl, fun _ => .inl rfl, .inl rfl⟩)⟩
  | @step s r _ ih =>
    obtain ⟨hse, hda⟩ := ih
    cases hse with
    | racing hpc hsl hr => exact ⟨hsl.step hr hpc r, hda.step hr r⟩
    | refused hsl => exact ⟨.refused hsl, hda⟩
    | reaped r' hsl => exact ⟨.reaped r' hsl, hda⟩

/-- A race is safe after every step, for any number of methods and whatever the environment says. -/
theorem safe_of_reached (cfg : Config R) (children : ℕ → Child R) {s : Race R}
    (h : Race.Reached cfg children s) : Safe cfg children s :=
  (settled_of_reached h).1.safe (settled_of_reached h).2

/-- A race of two methods, whose result is no data. -/
def twoMethods : Config Unit where
  nmethods := 2
  empty := ()
  ser _ := ⟨[], by decide⟩
  deser _ := some ()
  trust _ _ := true
  ceiling := 1

/-- A reply that admits nothing. -/
def busy : Reply where
  now := 0
  granted := false
  piped := true
  forked := true
  suspended := true
  poll := .timeout
  read := .interrupted

/-- Only the first method is admitted; the second one takes its slot when the quantum is over, and
gives it back. -/
def rotation : List Reply :=
  { busy with granted := true } :: replicate 7 busy ++
    { busy with now := 600 } :: replicate 5 busy ++ [{ busy with now := 1200 }]

/-- The first method writes its result and ends. -/
def ending : List Reply :=
  { busy with poll := .events (· == 0) } :: { busy with read := .bytes 8 } :: replicate 6 busy ++
    [{ busy with poll := .events (· == 0) }, { busy with read := .closed "" }] ++ replicate 3 busy

lemma Race.Reached.foldl {s : Race R} (h : Race.Reached cfg children s) (rs : List Reply) :
    Race.Reached cfg children (rs.foldl (Race.step cfg · children) s) := by
  induction rs generalizing s with
  | nil => exact h
  | cons r rs ih => exact ih (h.step r)

/-- The first method is stopped, resumed and reaped. -/
theorem safe_of_reached_two : ∃ s s', s =
    rotation.foldl (Race.step twoMethods · fun _ => ⟨(), 8⟩) twoMethods.init ∧
    Safe twoMethods (fun _ => ⟨(), 8⟩) s ∧ s.launches = [0, 1] ∧ s.parked = [1] ∧
    s' = ending.foldl (Race.step twoMethods · fun _ => ⟨(), 8⟩) s ∧
    Safe twoMethods (fun _ => ⟨(), 8⟩) s' ∧ s'.out.done 0 = true ∧ s'.out.winner = 0 := by
  have h : Race.Reached twoMethods (fun _ => ⟨(), 8⟩) _ := Race.Reached.init.foldl rotation
  exact ⟨_, _, rfl, safe_of_reached twoMethods _ h, by decide +kernel, by decide +kernel, rfl,
    safe_of_reached twoMethods _ (h.foldl ending), by decide +kernel, by decide +kernel⟩

end LiveHD.Lec.ForkRace
