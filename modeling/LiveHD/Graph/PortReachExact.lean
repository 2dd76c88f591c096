import LiveHD.Graph.PortReachSound
import LiveHD.Lib.Lists

/-!
# When the summaries are exact

The two places where the traversals leave the combinational paths, and that the summaries are exact
if and only if nothing is lost at the one and nothing gained at the other.
-/

namespace LiveHD.PortReach

open Relation List Option

/-- Steps that `R` leaves out do not matter when what they lead to is reached anyway. -/
lemma reflTransGen_of_extra {α : Type*} {R S : α → α → Prop} {o x : α}
    (h : ∀ a b, ReflTransGen R o a → S a b → R a b ∨ (ReflTransGen S b x → ReflTransGen R o x))
    (hp : ReflTransGen S o x) :
    ReflTransGen R o x := by
  have key : ∀ a, ReflTransGen S a x → ReflTransGen R o a → ReflTransGen R o x := by
    intro a ha
    induction ha using ReflTransGen.head_induction_on with
    | refl => exact id
    | @head a b hab hbx ih =>
      intro hoa
      rcases h a b hoa hab with hR | hsk
      · exact ih (hoa.tail hR)
      · exact hsk hbx
  exact key o hp .refl

namespace Body

variable (b : Body)

/-! ## What a slice read passes over -/

/-- The operands that `peel_ident` does not follow. -/
def passed : ℕ → Pin → List Pin
  | hops + 1, .out n _ =>
    match b.kind n with
    | some (.cell .sext) => (b.allInputs n).tail ++ (b.firstValueDriver n).elim [] (passed hops)
    | some (.cell .getMask) =>
      match b.bitRange n, b.driver ⟨n, 0⟩ with
      | some range, some value => if range.1 = 0 ∧ b.bits value ≤ range.2 then
        passed hops value else []
      | _, _ => []
    | _ => []
  | _, _ => []

/-- Those of a shift. -/
def passedShift (p : Pin) : List Pin :=
  b.passed 8 p ++ match b.peelIdent 8 p with
    | some (.out n _) => (b.valueOf n).elim [] (b.passed 8)
    | _ => []

/-- Those of a slice read. -/
def skipped (n q : ℕ) : List Pin :=
  match b.kind n with
  | some (.cell .getMask) => (b.valueOf n).elim [] (b.passed 8)
  | some (.cell .sra) => b.passedShift (.out n q)
  | some (.cell .and) => (b.andOperands n).1.elim [] b.passedShift
  | _ => []

/-- The inputs that `p` reads are those of `r` and of the pins passed over. -/
structure Narrows (p r : Pin) (l : List Pin) : Prop where
  goes : b.ReadPath p r
  skips : ∀ s ∈ l, b.ReadPath p s
  only : ∀ pid, b.ReadPath p (.input pid) → b.ReadPath r (.input pid) ∨
    ∃ s ∈ l, b.ReadPath s (.input pid)

variable {b} {p r : Pin} {l : List Pin}

variable {x : Pin}

lemma not_readPath_const (hx : x.isConst = true) (pid : ℕ) : ¬b.ReadPath x (.input pid) := by
  intro hp
  cases x with
  | const v =>
    rcases hp.cases_head with heq | ⟨y, hy, -⟩
    · cases heq
    · cases hy
  | input _ | out _ _ => cases hx

variable {n q : ℕ}

namespace Narrows

lemma refl (p : Pin) : b.Narrows p p [] := ⟨.refl, nofun, fun _ h => .inl h⟩

lemma trans {t : Pin} {l' : List Pin} (h : b.Narrows p r l) (h' : b.Narrows r t l') :
    b.Narrows p t (l ++ l') where
  goes := h.goes.trans h'.goes
  skips s hs := by
    rcases mem_append.1 hs with hs | hs
    · exact h.skips s hs
    · exact h.goes.trans (h'.skips s hs)
  only pid hp := by
    rcases h.only pid hp with hr | ⟨s, hs, hsp⟩
    · rcases h'.only pid hr with ht | ⟨s, hs, hsp⟩
      · exact .inl ht
      · exact .inr ⟨s, mem_append_right _ hs, hsp⟩
    · exact .inr ⟨s, mem_append_left _ hs, hsp⟩

/-- One operand is followed, others are constants or passed over. -/
lemma step (hr : r ∈ b.reads (.out n q)) (hl : ∀ s ∈ l, s ∈ b.reads (.out n q))
    (h : ∀ x ∈ b.reads (.out n q), x = r ∨ x.isConst = true ∨ x ∈ l) :
    b.Narrows (.out n q) r l where
  goes := .single hr
  skips s hs := .single (hl s hs)
  only pid hp := by
    rcases hp.cases_head with heq | ⟨x, hx, hre⟩
    · cases heq
    · rcases h x hx with rfl | hc | hmem
      · exact .inl hre
      · exact absurd hre (not_readPath_const hc pid)
      · exact .inr ⟨x, hmem, hre⟩

end Narrows

lemma reads_of_cell {op : NtypeOp} (hn : b.kind n = some (.cell op)) :
    b.reads (.out n q) = b.allInputs n := by
  have hro : b.role n = .plain := by rw [role, hn]
  rw [reads, hro]

lemma mem_allInputs_of_into {e : ℕ × Pin} (he : e ∈ b.into n) : e.2 ∈ b.allInputs n :=
  mem_map_of_mem ((Netlist.sinkDrivers_perm n).mem_iff.2 he)

lemma exists_into (hx : x ∈ b.allInputs n) : ∃ port, (port, x) ∈ b.into n := by
  obtain ⟨⟨port, y⟩, he, rfl⟩ := mem_map.1 hx
  exact ⟨port, (Netlist.sinkDrivers_perm n).mem_iff.1 he⟩

lemma into_unique (h : b.Legal) {port : ℕ} {op : NtypeOp} (hn : b.kind n = some (.cell op))
    {y : Pin} (hx : (port, x) ∈ b.into n)
    (hy : (port, y) ∈ b.into n) : x = y :=
  (Prod.mk.inj (inj_on_of_nodup_map (h.single n op hn) hx hy rfl)).2

lemma mem_into_of_driver {port : ℕ} (h : b.driver ⟨n, port⟩ = some x) : (port, x) ∈ b.into n := by
  obtain ⟨⟨port', y⟩, he, rfl⟩ := map_eq_some_iff.1 h
  have hp : port' = port := beq_iff_eq.1 (find?_some he :)
  rw [← hp]
  exact mem_of_find?_eq_some he

lemma mem_into_of_valueOf (h : b.valueOf n = some x) : (0, x) ∈ b.into n := by
  obtain ⟨⟨port, y⟩, he, rfl⟩ := map_eq_some_iff.1 h
  obtain ⟨hmem, hp⟩ := mem_filter.1 (mem_of_getLast? he)
  obtain rfl : port = 0 := beq_iff_eq.1 hp
  exact (Netlist.sinkDrivers_perm n).mem_iff.1 hmem

lemma exists_into_of_amountOf (h : b.amountOf n = some x) : ∃ port ≠ 0, (port, x) ∈ b.into n := by
  obtain ⟨⟨port, y⟩, he, rfl⟩ := map_eq_some_iff.1 h
  obtain ⟨hmem, hp⟩ := mem_filter.1 (mem_of_getLast? he)
  exact ⟨port, bne_iff_ne.1 hp, (Netlist.sinkDrivers_perm n).mem_iff.1 hmem⟩

section

variable (h : b.Legal) (hn : b.kind n = some (.cell .getMask)) {window : ℕ × ℕ}
  (hw : b.bitRange n = some window) {v : Pin} (hv : (0, v) ∈ b.into n)
include h hn hw hv

/-- The bounds of a window are constants. -/
lemma window_reads (hx : x ∈ b.reads (.out n q)) : x = v ∨ x.isConst = true := by
  rw [reads_of_cell hn] at hx
  obtain ⟨port, he⟩ := exists_into hx
  rw [Netlist.bitRange] at hw
  split at hw
  next lo hi hlo hhi =>
    have hp := of_decide_eq_true (h.sinks n _ hn _ he)
    simp only [mem_cons, not_mem_nil, or_false] at hp
    rcases hp with rfl | rfl | rfl
    · exact .inl (into_unique h hn he hv)
    · rw [into_unique h hn he (mem_into_of_driver hlo)]
      exact .inr rfl
    · rw [into_unique h hn he (mem_into_of_driver hhi)]
      exact .inr rfl
  · cases hw

lemma narrows_window : b.Narrows (.out n q) v [] := by
  refine .step ?_ nofun fun x hx => (window_reads h hn hw hv hx).imp_right .inl
  rw [reads_of_cell hn]
  exact mem_allInputs_of_into hv

end

lemma narrows_peelIdent (h : b.Legal) :
    ∀ hops p r, b.peelIdent hops p = some r → b.Narrows p r (b.passed hops p) := by
  intro hops
  induction hops with
  | zero =>
    intro p r heq
    obtain rfl : p = r := by
      rw [peelIdent] at heq
      · exact Option.some.inj heq
      · nofun
    rw [passed]
    · exact .refl p
    · nofun
  | succ hops ih =>
    intro p r heq
    cases p with
    | input _ | const _ =>
      cases heq
      exact .refl _
    | out n q =>
      rw [peelIdent] at heq
      split at heq
      next hn =>
        obtain ⟨v, hv, hr⟩ := bind_eq_some_iff.1 heq
        rw [passed, hn]
        rw [hv]
        refine .trans (.step ?_ (fun s hs => ?_) fun x hx => ?_) (ih v r hr)
        · rw [reads_of_cell hn]
          exact mem_of_mem_head? hv
        · rw [reads_of_cell hn]
          exact mem_of_mem_tail hs
        · rw [reads_of_cell hn] at hx
          obtain ⟨rest, hco⟩ := head?_eq_some_iff.1 (show (b.allInputs n).head? = some v from hv)
          rw [hco] at hx ⊢
          exact (mem_cons.1 hx).imp_right .inr
      next hn =>
        split at heq
        next range value hra hva =>
          rw [passed, hn]
          dsimp only
          rw [hra, hva]
          dsimp only
          split at heq
          next hid =>
            rw [if_pos hid]
            exact .trans (narrows_window h hn hra (mem_into_of_driver hva)) (ih value r heq)
          next hid =>
            rw [if_neg hid]
            cases heq
            exact .refl _
        next hno =>
          cases heq
          rw [passed, hn]
          dsimp only
          split
          next range value hra hva => exact (hno range value hra hva).elim
          next => exact .refl _
      next hse hma =>
        cases heq
        rw [passed]
        split
        next hn => exact (hse hn).elim
        next hn => exact (hma hn).elim
        next => exact .refl _

/-- The amount of a shift is a constant. -/
lemma narrows_sra (h : b.Legal) (hn : b.kind n = some (.cell .sra)) {v : Pin} {k : ℤ}
    (hv : b.valueOf n = some v)
    (hk : b.amountOf n = some (.const k)) : b.Narrows (.out n q) v [] := by
  have hv := mem_into_of_valueOf hv
  obtain ⟨amount, hne, hk⟩ := exists_into_of_amountOf hk
  have hpo : ∀ e ∈ b.into n, e.1 = 0 ∨ e.1 = 1 := by
    intro e he
    have hp := of_decide_eq_true (h.sinks n _ hn e he)
    simpa only [mem_cons, not_mem_nil, or_false] using hp
  obtain rfl : amount = 1 := (hpo _ hk).resolve_left hne
  refine .step ?_ nofun fun x hx => ?_
  · rw [reads_of_cell hn]
    exact mem_allInputs_of_into hv
  · rw [reads_of_cell hn] at hx
    obtain ⟨port, he⟩ := exists_into hx
    rcases hpo _ he with rfl | rfl
    · exact .inl (into_unique h hn he hv)
    · rw [into_unique h hn he hk]
      exact .inr (.inl rfl)

lemma narrows_sraOf (h : b.Legal) {p : Pin} {pid k : ℕ} (heq : b.sraOf p = some (pid, k)) :
    b.Narrows p (.input pid) (b.passedShift p) := by
  rw [sraOf] at heq
  rw [passedShift]
  split at heq
  next i hpe =>
    obtain rfl := (Prod.mk.inj (Option.some.inj heq)).1
    rw [hpe]
    exact .trans (narrows_peelIdent h 8 p _ hpe) (.refl _)
  next n q hpe =>
    rw [hpe]
    dsimp only
    split at heq
    next hn =>
      split at heq
      next i amount hval ham =>
        obtain ⟨v, hv, hvi⟩ := bind_eq_some_iff.1 hval
        split at heq
        · obtain rfl := (Prod.mk.inj (Option.some.inj heq)).1
          rw [hv]
          exact .trans (narrows_peelIdent h 8 p _ hpe)
            (.trans (narrows_sra h hn hv ham) (narrows_peelIdent h 8 v _ hvi))
        · cases heq
      · cases heq
    · cases heq
  · cases heq

/-- Of two operands one is a constant. -/
lemma andOperands_reads (hlen : (b.sinkDrivers n).length = 2) {other : Pin} {mask : ℤ}
    (heq : b.andOperands n = (some other, some mask)) :
    other ∈ b.allInputs n ∧ ∀ x ∈ b.allInputs n, x = other ∨ x.isConst = true := by
  obtain ⟨ho, hma⟩ := Prod.mk.inj heq
  have hmem := mem_filter.1 (mem_of_getLast? ho)
  obtain ⟨c, hc, hcm⟩ := mem_filterMap.1 (mem_of_getLast? hma)
  have hco : c.isConst = true := by
    cases c with
    | const v => rfl
    | input _ | out _ _ => cases hcm
  have hne : other.isConst = false := by
    rw [← Bool.not_eq_true']
    exact hmem.2
  refine ⟨hmem.1, fun x hx => ?_⟩
  have htwo : (b.allInputs n).length = 2 := (length_map _).trans hlen
  obtain ⟨y, z, hyz⟩ := length_eq_two.1 htwo
  rw [hyz] at hx hc
  have ho' := hyz ▸ hmem.1
  simp only [mem_cons, not_mem_nil, or_false] at hx hc ho'
  have hdi : other ≠ c := by
    rintro rfl
    rw [hne] at hco
    cases hco
  rcases hx with rfl | rfl <;> rcases hc with rfl | rfl <;> rcases ho' with rfl | rfl
  · exact .inl rfl
  · exact .inr hco
  · exact .inl rfl
  · exact absurd rfl hdi
  · exact absurd rfl hdi
  · exact .inl rfl
  · exact .inr hco
  · exact .inl rfl

/-- A slice read reads its input, and what it passes over. -/
lemma narrows_inputAtomOf (h : b.Legal) {atom : InAtom} (heq : b.inputAtomOf n q = some atom) :
    b.Narrows (.out n q) (.input atom.pid) (b.skipped n q) := by
  have hrd : ∀ pid k len, (b.readFrom pid k len).pid = pid := by
    intro pid k len
    rw [readFrom]
    split <;> rfl
  rw [inputAtomOf] at heq
  split at heq
  next hn =>
    split at heq
    next i amount hval ham =>
      obtain ⟨v, hv, hvi⟩ := bind_eq_some_iff.1 hval
      obtain ⟨window, hw, rfl⟩ := map_eq_some_iff.1 heq
      rw [skipped, hn]
      dsimp only
      rw [hv]
      exact .trans (narrows_window h hn hw (mem_into_of_valueOf hv)) (narrows_peelIdent h 8 v _ hvi)
    · cases heq
  next hn =>
    rw [skipped, hn]
    obtain ⟨⟨pid, k⟩, hsra, rfl⟩ := map_eq_some_iff.1 heq
    rw [hrd]
    exact narrows_sraOf h hsra
  next hn =>
    split at heq
    · cases heq
    next hlen =>
      split at heq
      next other mask hops =>
        split at heq
        next hi hwi =>
          obtain ⟨⟨pid, k⟩, hsra, rfl⟩ := map_eq_some_iff.1 heq
          obtain ⟨hmem, hon⟩ := andOperands_reads (not_not.1 hlen) hops
          rw [hrd, skipped, hn]
          dsimp only
          rw [hops]
          have hst : b.Narrows (.out n q) other [] := by
            rw [← reads_of_cell (q := q) hn] at hmem hon
            exact .step hmem (by simp) fun x hx => (hon x hx).imp_right .inl
          have hna := hst.trans (narrows_sraOf h hsra)
          rwa [nil_append] at hna
        · cases heq
      · cases heq
  · cases heq

/-! ## Mixed memories -/

/-- The output of a synchronous port of a mixed memory. -/
def MixedSync (b : Body) (p : Pin) : Prop := ∃ n q, p = .out n q ∧ b.role n = .memory ∧
    (Memory.ofSinks (b.sinkDrivers n)).MixedSync q

lemma registered_iff {c : ℕ} : b.Registered n c q ↔ b.stateOutput n c q = true := by
  rw [Registered, stateOutput]
  split
  next hn =>
    cases b.decls c with
    | none =>
      refine ⟨?_, nofun⟩
      rintro ⟨-, decls, heq, -⟩
      cases heq
    | some decls =>
      dsimp only
      constructor
      · rintro ⟨-, decls', heq, hlk⟩
        cases heq
        rw [hlk]
        rfl
      · intro hq
        refine ⟨hn, decls, rfl, ?_⟩
        cases hlk : decls.lookup q with
        | none =>
          rw [hlk] at hq
          cases hq
        | some r =>
          rw [hlk] at hq
          exact congrArg some hq
  next hn => exact ⟨fun h => absurd h.1 hn, nofun⟩

/-- What feeds a pin is what the one pass reads, but at a synchronous port of a mixed memory. -/
lemma feeds_iff (h : b.Legal) {p : Pin} (hmi : ¬b.MixedSync p) : b.Feeds x p ↔ x ∈ b.reads p := by
  cases p with
  | input _ | const _ => exact ⟨by rintro ⟨⟩, by rintro ⟨⟩⟩
  | out n q =>
    have hpl : b.role n = .plain → (b.Feeds x (.out n q) ↔ ∃ port, (x, ⟨n, port⟩) ∈ b.edges) := by
      intro hn
      constructor
      · rintro (⟨-, hx⟩ | ⟨hn', _, _, _, _⟩ | ⟨hn', _, _, _⟩ | ⟨hn', _⟩)
        · exact ⟨_, hx⟩
        all_goals cases hn.symm.trans hn'
      · rintro ⟨_, hx⟩
        exact .plain hn hx
    rw [reads]
    cases hn : b.role n with
    | register =>
      refine ⟨?_, (by simp)⟩
      rintro (⟨hn', _⟩ | ⟨hn', _, _, _, _⟩ | ⟨hn', _, _, _⟩ | ⟨hn', _⟩)
      all_goals cases hn.symm.trans hn'
    | plain =>
      rw [hpl hn]
      exact mem_allInputs.symm
    | memory =>
      have hnot : ¬(Memory.ofSinks (b.sinkDrivers n)).MixedSync q := fun hq =>
        hmi ⟨n, q, rfl, hn, hq⟩
      have hall : (fun p => ∃ port, (p, ⟨n, port⟩) ∈ b.edges) = (· ∈ b.allInputs n) := by
        funext p
        exact propext mem_allInputs.symm
      rw [(decoded h hn).mem_deps _ hnot, ← hall]
      constructor
      · rintro (⟨hn', _⟩ | ⟨hn', _, _, _, _⟩ | ⟨hn', _, _, _⟩ | ⟨-, hx⟩)
        · cases hn.symm.trans hn'
        · cases hn.symm.trans hn'
        · cases hn.symm.trans hn'
        · exact hx
      · exact .memory hn
    | «instance» c =>
      dsimp only
      cases hrow : b.summary c with
      | some row =>
        rw [mem_instanceInputs]
        constructor
        · rintro (⟨hn', _⟩ | ⟨hn', hro', hins, hp, hx⟩ | ⟨hn', hro', _, _⟩ | ⟨hn', _⟩)
          · cases hn.symm.trans hn'
          · cases (hn.symm.trans hn')
            cases (hrow.symm.trans hro')
            exact ⟨_, hins, _, hp, hx⟩
          · cases (hn.symm.trans hn')
            cases hrow.symm.trans hro'
          · cases hn.symm.trans hn'
        · rintro ⟨ins, hins, port, hp, hx⟩
          exact .summary hn hrow hins hp hx
      | none =>
        have hbox : b.Feeds x (.out n q) ↔
            ¬b.Registered n c q ∧ ∃ port, (x, ⟨n, port⟩) ∈ b.edges := by
          constructor
          · rintro (⟨hn', _⟩ | ⟨hn', hro', _, _, _⟩ | ⟨hn', -, hreg, hx⟩ | ⟨hn', _⟩)
            · cases hn.symm.trans hn'
            · cases (hn.symm.trans hn')
              cases hrow.symm.trans hro'
            · cases (hn.symm.trans hn')
              exact ⟨hreg, _, hx⟩
            · cases hn.symm.trans hn'
          · rintro ⟨hreg, _, hx⟩
            exact .blackBox hn hrow hreg hx
        rw [hbox, registered_iff, ← mem_allInputs]
        cases hst : b.stateOutput n c q with
        | true => exact ⟨fun hx => absurd rfl hx.1, (by simp)⟩
        | false => exact ⟨And.right, fun hx => ⟨(by simp), hx⟩⟩

lemma not_feeds_of_mixedSync (h : b.Legal) {p : Pin} (hmi : b.MixedSync p) : ¬b.Feeds x p := by
  obtain ⟨n, q, rfl, hn, hq⟩ := hmi
  rintro (⟨hn', _⟩ | ⟨hn', _, _, _, _⟩ | ⟨hn', _, _, _⟩ | ⟨-, hx⟩)
  · cases hn.symm.trans hn'
  · cases hn.symm.trans hn'
  · cases hn.symm.trans hn'
  · exact (decoded h hn).not_feeds hq _ hx

/-! ## Exactness -/

/-- The combinational paths that end at a pin, from the end. -/
def FedPath (b : Body) : Pin → Pin → Prop := ReflTransGen fun p q => b.Feeds q p

lemma combPath_iff {pid : ℕ} {p : Pin} : b.CombPath pid p ↔
    b.FedPath p (.input pid) := reflTransGen_swap

/-- At the two places nothing is lost and nothing is gained: an input that a pin passed over by a
slice read depends on is also reached by the walk from the output, and an input that a synchronous
port of a mixed memory is connected to has a combinational path to the output. -/
structure Covered (b : Body) : Prop where
  slices : ∀ o ∈ b.outputs, ∀ d, b.outDriver o = some d → ∀ n q, b.WalkPath d (.out n q) →
    (b.inputAtomOf n q).isSome →
    ∀ s ∈ b.skipped n q, ∀ pid, b.ReadPath s (.input pid) → b.WalkPath d (.input pid)
  memories : ∀ o ∈ b.outputs, ∀ d, b.outDriver o = some d → ∀ p, b.MixedSync p → b.FedPath d p →
    ∀ s ∈ b.reads p, ∀ pid, b.ReadPath s (.input pid) → b.FedPath d (.input pid)

lemma readPath_of_fedPath (h : b.Legal) {p q : Pin} (hp : b.FedPath p q) : b.ReadPath p q := by
  refine .mono (fun a c hc => (feeds_iff h fun hmi => ?_).1 hc) _ _ hp
  exact not_feeds_of_mixedSync h hmi hc

lemma readPath_of_walkPath (h : b.Legal) {p q : Pin} (hp : b.WalkPath p q) : b.ReadPath p q := by
  induction hp with
  | refl => exact .refl
  | @tail a c _ hst ih =>
    cases a with
    | input _ | const _ => cases hst
    | out n r =>
      rw [walkReads] at hst
      cases hato : b.inputAtomOf n r with
      | none =>
        rw [hato] at hst
        exact ih.tail hst
      | some atom =>
        rw [hato] at hst
        rw [mem_singleton.1 hst]
        exact ih.trans (narrows_inputAtomOf h hato).goes

/-- The paths of the walk, of the one pass and of the definition. -/
lemma exact_iff_paths (h : b.Legal) : b.Exact ↔
    ∀ o ∈ b.outputs, ∀ d, b.outDriver o = some d → ∀ pid,
    (b.WalkPath d (.input pid) ↔ b.FedPath d (.input pid)) ∧
    (b.ReadPath d (.input pid) ↔ b.FedPath d (.input pid)) := by
  have hone : ∀ {o d} (P : Pin → Prop), b.outDriver o = some d →
      ((∃ e, b.outDriver o = some e ∧ P e) ↔ P d) := by
    intro o d P hd
    rw [hd]
    constructor
    · rintro ⟨e, heq, hP⟩
      cases heq
      exact hP
    · exact fun hP => ⟨d, rfl, hP⟩
  have hwl : ∀ r ∈ b.out2ins true, ∀ pid, pid ∈ r.2 ↔
      ∃ d, b.outDriver r.1 = some d ∧ b.WalkPath d (.input pid) := by
    intro r hr pid
    obtain ⟨o, -, rfl⟩ := mem_map.1 hr
    cases hd : b.outDriver o with
    | none => exact ⟨nofun, fun ⟨_, heq, _⟩ => nomatch heq⟩
    | some d =>
      rw [map_some, getD_some, mem_runWalk h d pid]
      exact ⟨fun hp => ⟨d, rfl, hp⟩,
        fun ⟨e, heq, hp⟩ => by obtain rfl := Option.some.inj heq; exact hp⟩
  obtain ⟨hke, hrd⟩ := supportRows_spec b.outputs (fun _ ho => ho) Supports.State.init
    (.init fun p _ q hq => mem_pins_of_mem_succ h hq)
  have hwa : (b.out2ins true).map (·.1) = b.outputs := by
    rw [out2ins, if_pos rfl, List.map_map]
    exact map_id _
  constructor
  · intro hexa o ho d hd pid
    constructor
    · obtain ⟨r, hr, rfl⟩ := mem_map.1 (hwa.symm ▸ ho)
      rw [← combPath_iff, ← hone (b.CombPath pid) hd, ← (hexa true).2 r hr pid,
        hwl r hr pid, hone _ hd]
    · obtain ⟨r, hr, rfl⟩ := mem_map.1 (hke.symm ▸ ho)
      rw [← combPath_iff, ← hone (b.CombPath pid) hd, ← (hexa false).2 r hr pid,
        hrd r hr pid, hone _ hd]
  · intro hpa slices
    cases slices with
    | true =>
      refine ⟨hwa, fun r hr pid => ?_⟩
      rw [hwl r hr pid]
      refine exists_congr fun d => and_congr_right fun hd => ?_
      rw [combPath_iff]
      exact (hpa r.1 (hwa ▸ mem_map_of_mem hr) d hd pid).1
    | false =>
      refine ⟨hke, fun r hr pid => ?_⟩
      rw [hrd r hr pid]
      refine exists_congr fun d => and_congr_right fun hd => ?_
      rw [combPath_iff]
      exact (hpa r.1 (hke ▸ mem_map_of_mem (f := Prod.fst) hr) d hd pid).2

/-- The summaries are exact, whichever algorithm computes them, if and only if the two places are
covered. -/
theorem exact_iff (h : b.Legal) : b.Exact ↔ b.Covered := by
  rw [exact_iff_paths h]
  constructor
  · intro hpaths
    constructor
    · intro o ho d hd n q hwalk hatom s hs pid hpath
      obtain ⟨atom, hatom⟩ := isSome_iff_exists.1 hatom
      obtain ⟨hw, hr⟩ := hpaths o ho d hd pid
      refine hw.2 (hr.1 ?_)
      exact (readPath_of_walkPath h hwalk).trans
        (((narrows_inputAtomOf h hatom).skips s hs).trans hpath)
    · intro o ho d hd p hmixed hfed s hs pid hpath
      exact (hpaths o ho d hd pid).2.1 ((readPath_of_fedPath h hfed).trans (.head hs hpath))
  · rintro ⟨hslices, hmemories⟩ o ho d hd pid
    have hread : b.ReadPath d (.input pid) ↔ b.FedPath d (.input pid) := by
      refine ⟨fun hpath => ?_, readPath_of_fedPath h⟩
      refine reflTransGen_of_extra (fun a c hda hac => ?_) hpath
      by_cases hmixed : b.MixedSync a
      · exact .inr fun hc => hmemories o ho d hd a hmixed hda c hac pid hc
      · exact .inl ((feeds_iff h hmixed).2 hac)
    refine ⟨.trans ⟨readPath_of_walkPath h, fun hpath => ?_⟩ hread, hread⟩
    refine reflTransGen_of_extra (S := fun p q => q ∈ b.reads p) (fun a c hda hac => ?_) hpath
    cases a with
    | input _ | const _ => cases hac
    | out n q =>
      rw [walkReads]
      cases hatom : b.inputAtomOf n q with
      | none => exact .inl hac
      | some atom =>
        refine .inr fun hc => ?_
        have hnarrows := narrows_inputAtomOf h hatom
        rcases hnarrows.only pid (.head hac hc) with hinput | ⟨s, hs, hsp⟩
        · rcases hinput.cases_head with heq | ⟨y, hy, -⟩
          · refine hda.tail ?_
            rw [walkReads, hatom, ← heq]
            exact mem_singleton_self _
          · cases hy
        · exact hslices o ho d hd n q hda (by rw [hatom]; rfl) s hs pid hsp

end Body

/-- The low bits of an input that is extended from a position. -/
def signField (position : Pin) : Body where
  nodes := [some (.cell .sext), some (.cell .getMask)]
  edges := [(.input 0, ⟨0, 0⟩), (position, ⟨0, 1⟩), (.out 0 0, ⟨1, 0⟩),
    (.const 0, ⟨1, 2⟩), (.const 4, ⟨1, 3⟩)]
  bits _ := 8
  signed _ := false
  registers := []
  memories := []
  loopBreak := []
  inputs := [(0, 8), (1, 3)]
  outputs := [0]
  outDriver o := if o = 0 then some (.out 1 0) else none
  summary _ := none
  decls _ := none

lemma role_signField (position : Pin) (n : ℕ) : (signField position).role n = .plain := by
  rcases n with - | - | n <;> rfl

lemma signField_legal (position : Pin) : (signField position).Legal where
  single n op hn := by
    rcases n with - | - | n
    · exact (by decide : [0, 1].Nodup)
    · exact (by decide : [0, 2, 3].Nodup)
    · cases hn
  sinks n op hn e he := by
    rcases n with - | - | n
    · obtain rfl : NtypeOp.sext = op := Kind.cell.inj (Option.some.inj hn)
      rfl
    · obtain rfl : NtypeOp.getMask = op := Kind.cell.inj (Option.some.inj hn)
      have hmem : e ∈ [(0, .out 0 0), (2, .const 0), (3, .const 4)] := he
      simp only [mem_cons, not_mem_nil, or_false] at hmem
      rcases hmem with rfl | rfl | rfl <;> rfl
    · cases hn
  memory n hn := nomatch (role_signField position n).symm.trans hn

/-- A position that is constant is passed over at no cost. -/
theorem exact_iff_signField : (signField (.const 3)).Exact := by
  have hconst : ∀ s, s.isConst = true → ∀ pid, ¬(signField (.const 3)).ReadPath s (.input pid) :=
    fun s hs pid => Body.not_readPath_const hs pid
  refine (Body.exact_iff (signField_legal (.const 3))).2
    ⟨fun o _ d hd n q hpath hatom s hs pid hs' => ?_, fun o _ d _ p hmixed => ?_⟩
  · refine absurd hs' (hconst s ?_ pid)
    rcases n with - | - | n
    · cases hatom
    · obtain rfl := mem_singleton.1 (show s ∈ [Pin.const 3] from hs)
      rfl
    · cases hatom
  · obtain ⟨n, q, -, hn, -⟩ := hmixed
    cases (role_signField (.const 3) n).symm.trans hn

/-- The walk does not see the input that a position is driven by. -/
theorem not_exact : ¬∀ b : Body, b.Legal → b.Exact := by
  intro h
  have hexact := h (signField (.input 1)) (signField_legal (.input 1)) true
  have hpath : (signField (.input 1)).CombPath 1 (.out 1 0) := by
    refine .head (b := .out 0 0) (.plain (role_signField _ 0)
      (show (.input 1, ⟨0, 1⟩) ∈ (signField (.input 1)).edges by decide)) (.single ?_)
    exact .plain (role_signField _ 1)
      (show (.out 0 0, ⟨1, 0⟩) ∈ (signField (.input 1)).edges by decide)
  have hmem := (hexact.2 (0, [0]) (by decide) 1).2 ⟨.out 1 0, rfl, hpath⟩
  exact absurd hmem (by decide)

end LiveHD.PortReach
