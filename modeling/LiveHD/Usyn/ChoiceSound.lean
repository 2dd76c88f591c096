import LiveHD.Usyn.Choice

/-!
# Soundness of choice extraction

Every member of a choice has the value of its root, for every assignment of the sources, and
keeps it while the graph grows.  The traversal of `extract_choices` therefore maps each node
it leaves to a signal of the node's value, in whatever order the selection makes it walk.
-/

namespace LiveHD.Usyn

open Option hiding map map_map
open Function List Ends Extraction Pass Visit Xag

open Unate (TruthTable)

/-! ## The members of a choice -/

section

variable {g h : Xag} {choice : XagChoice}

/-- A signal whose function over a basis is a table. -/
structure HasFunction (g : Xag) (basis : List ℕ) (t : TruthTable) (s : Xsignal) : Prop where
  lt : s.id < g.size
  eval : ∀ env, g.eval env s = t.get (rowIndex basis (g.valueAt env))

structure XagChoice.Ok (g : Xag) (c : XagChoice) : Prop where
  gate : (g.node c.root.id).kind.isGate = true
  cut : ValidCut g c.basis
  root : HasFunction g c.basis c.function c.root
  members : ∀ m ∈ c.alternatives, HasFunction g c.basis c.function m

lemma HasFunction.mono {basis : List ℕ} {t : TruthTable} {s : Xsignal}
    (hs : HasFunction g basis t s) (hcut : ValidCut g basis)
    (hg : g.Wf) (hh : h.Wf) (he : g.Extends h) : HasFunction h basis t s where
  lt := hs.lt.trans_le he.size
  eval env := by
    rw [he.eval hg hh env hs.lt, hs.eval env]
    congr 1
    exact rowIndex_congr fun id hid => (he.valueAt hg hh env (hcut.1 id hid).2).symm

lemma makeChoice_yields (hg : g.Wf) (root : Xsignal) (basis : List ℕ) :
    Yields (makeChoice g root basis) fun c => c.Ok g := by
  refine .ite (fun _ => .throw) fun hv => ?_
  rw [not_or, not_or, not_or, not_or, Bool.not_eq_false] at hv
  obtain ⟨-, hlt, -, -, hga⟩ := hv
  refine .bind (P := fun _ => True) (fun _ _ _ => trivial) fun _ _ => ?_
  refine (basisFunction_yields hg root basis).bind fun t ht => .pure ?_
  have hr : HasFunction g basis t root := ⟨Nat.lt_of_not_le hlt, ht.2⟩
  exact ⟨hga, ht.1, hr, forall_mem_singleton.2 hr⟩

lemma retainChoice_yields (hg : g.Wf) (hc : choice.Ok g) (alternative : Xsignal) (cap : ℕ) :
    Yields (retainChoice g choice alternative cap) fun c => c.Ok g := by
  refine .ite (fun _ => .throw) fun hv => .ite (fun _ => .pure hc) fun _ =>
    .ite (fun _ => .throw) fun _ => ?_
  refine .bind (P := fun _ => True) (fun _ _ _ => trivial) fun _ _ =>
    .ite (fun _ => .throw) fun _ => ?_
  refine (basisFunction_yields hg alternative choice.basis).bind fun t ht =>
    .ite (fun _ => .throw) fun heq => .pure ?_
  rw [not_ne_iff] at heq
  refine ⟨hc.gate, hc.cut, hc.root, fun m hm => ?_⟩
  rcases mem_append.1 hm with hm | hm
  · exact hc.members m hm
  · obtain rfl := mem_singleton.1 hm
    refine ⟨Nat.lt_of_not_le fun hle => hv (.inr (.inr hle)), fun env => ?_⟩
    rw [ht.2 env, heq]

lemma XagChoice.Ok.mono (hc : choice.Ok g) (hg : g.Wf) (hh : h.Wf)
    (he : g.Extends h) : choice.Ok h where
  gate := by rw [he.kind hc.root.lt]; exact hc.gate
  cut := ⟨fun id hid => ⟨(hc.cut.1 id hid).1, (hc.cut.1 id hid).2.trans_le he.size⟩, hc.cut.2⟩
  root := hc.root.mono hc.cut hg hh he
  members m hm := (hc.members m hm).mono hc.cut hg hh he

lemma Built.ok (h : Built g choice) : g.Wf ∧ choice.Ok g := by
  induction h with
  | make hg h => exact ⟨hg, makeChoice_yields hg _ _ _ _ h⟩
  | retain _ h ih => exact ⟨ih.1, retainChoice_yields ih.1 ih.2 _ _ _ _ h⟩
  | grow _ he hh ih => exact ⟨hh, ih.2.mono ih.1 hh he⟩

end

/-! ## Selections -/

section

variable {source : Xag} {replacement replacement' : ℕ → Option Xsignal}

/-- Gates with signals of the same value in their place. -/
def Selects (source : Xag) (replacement : ℕ → Option Xsignal) : Prop :=
  ∀ id r, replacement id = some r →
  id < source.size ∧ (source.node id).kind.isGate = true ∧
  source.Is r fun env => source.valueAt env id

lemma XagChoice.Ok.selects {c : XagChoice} (hc : c.Ok source) {m : Xsignal}
    (hm : m ∈ c.alternatives) :
    source.Is (m.phased c.root.inverted) fun env => source.valueAt env c.root.id := by
  have hme : source.Is m fun env => source.eval env c.root :=
    ⟨(hc.members m hm).lt, fun env => ((hc.members m hm).eval env).trans (hc.root.eval env).symm⟩
  refine (hme.phased c.root.inverted).congr fun env => ?_
  rw [Xag.eval, Xsignal.value, Bool.xor_assoc, Bool.xor_self, Bool.xor_false]

lemma selectMembers_selects {l : List (XagChoice × ℕ)} (hl : ∀ p ∈ l, p.1.Ok source)
    (h : Selects source replacement)
    (hsel : selectMembers source l replacement = some replacement') :
    Selects source replacement' := by
  induction l generalizing replacement with
  | nil =>
    cases hsel
    exact h
  | cons p l ih =>
    obtain ⟨-, hsel⟩ := ite_none_left_eq_some.1 hsel
    obtain ⟨m, hm, hsel⟩ := bind_eq_some_iff.1 hsel
    obtain ⟨-, hsel⟩ := ite_none_left_eq_some.1 hsel
    have hc := hl _ (.head _)
    refine ih (fun q hq => hl q (.tail _ hq)) (fun id r hr => ?_) hsel
    rcases update_eq_some hr with ⟨rfl, rfl⟩ | hr
    · exact ⟨hc.root.lt, hc.gate, hc.selects (mem_of_getElem? hm)⟩
    · exact h id r hr

/-- One member for each of a list of choices on different gates. -/
structure Selection (choices : List XagChoice) (selected : List ℕ) : Prop where
  length : choices.length = selected.length
  roots : (choices.map (·.root.id)).Nodup
  members : ∀ p ∈ choices.zip selected, p.2 < p.1.alternatives.length

lemma selectMembers_isSome {l : List (XagChoice × ℕ)} (hl : ∀ p ∈ l, p.1.Ok source)
    (hro : (l.map (·.1.root.id)).Nodup)
    (hme : ∀ p ∈ l, p.2 < p.1.alternatives.length) (hfr : ∀ p ∈ l, replacement p.1.root.id = none) :
    (selectMembers source l replacement).isSome = true := by
  induction l generalizing replacement with
  | nil => rfl
  | cons p l ih =>
    obtain ⟨c, i⟩ := p
    have hc := hl _ (.head _)
    have hi := hme _ (.head _)
    have hno := hfr _ (.head _)
    have hm := hc.members _ (getElem_mem hi)
    rw [map_cons, nodup_cons] at hro
    have hch : ¬(source.size ≤ c.root.id ∨ (replacement c.root.id).isSome = true) := by
      rw [hno]
      exact fun h => h.elim (Nat.not_le.2 hc.root.lt) Bool.false_ne_true
    rw [selectMembers, if_neg hch, getElem?_eq_getElem hi]
    refine (congrArg isSome (if_neg (Nat.not_le.2 hm.lt))).trans ?_
    refine ih (fun q hq => hl q (.tail _ hq)) hro.2 (fun q hq => hme q (.tail _ hq)) fun q hq => ?_
    have hne : q.1.root.id ≠ c.root.id := fun heq => hro.1 (mem_map.2 ⟨q, hq, heq⟩)
    rw [update_of_ne hne]
    exact hfr q (.tail _ hq)

/-- A gate and what the selection makes it read. -/
def Reads (source : Xag) (replacement : ℕ → Option Xsignal) (i j : ℕ) : Prop :=
  (source.node i).kind.isGate = true ∧ ∃ ids, successors source replacement i = some ids ∧ j ∈ ids

lemma not_reads {i : ℕ} (hi : (source.node i).kind.isGate = false) (j : ℕ) :
    ¬Reads source replacement i j := by
  rintro ⟨hg, -⟩
  rw [hi] at hg
  cases hg

lemma replaced_eq_some {id : ℕ} {r : Xsignal} (h : replaced replacement id = some r) :
    replacement id = some r :=
  (filter_eq_some_iff.1 h).1

lemma exists_successors {id : ℕ} (hg : (source.node id).kind.isGate = true) :
    ∃ ids, successors source replacement id = some ids := by
  unfold successors
  split
  · exact ⟨_, rfl⟩
  · rw [if_pos hg]
    exact ⟨_, rfl⟩

lemma lt_of_successors (hsrc : source.Wf) (hsel : Selects source replacement) {id : ℕ}
    (hid : id < source.size) {ids : List ℕ}
    (h : successors source replacement id = some ids) : ∀ j ∈ ids, j < source.size := by
  unfold successors at h
  split at h
  next r hr =>
    cases h
    exact forall_mem_singleton.2 (hsel id r (replaced_eq_some hr)).2.2.lt
  · obtain ⟨hg, h⟩ := ite_none_right_eq_some.1 h
    cases h
    obtain ⟨h1, h2⟩ := (hsrc.canonical id hid hg).older
    exact forall_mem_cons.2 ⟨h1.trans hid, forall_mem_singleton.2 (h2.trans hid)⟩

end

/-! ## The traversal -/

section

variable {source : Xag} {replacement : ℕ → Option Xsignal} {g h : Xag} {st : Extraction}

/-- The nodes that are done have an image of their value. -/
structure Extracts (source g : Xag) (st : Extraction) : Prop where
  length : st.visit.length = source.size
  is : ∀ i < source.size, st.at i = .black → g.Is (st.mapped i) fun env => source.valueAt env i
  gates : ∀ i, st.at i ≠ .black → (source.node i).kind.isGate = true
  names : g.names = source.names
  room : g.size ≤ st.visit.countP (· = .black)

lemma Extraction.at_enter {id : ℕ} (hid : id < st.visit.length) :
    (st.enter id).at = Function.update st.at id .gray :=
  getD_set hid _ _

lemma Extraction.at_finish {id : ℕ} (hid : id < st.visit.length) (s : Xsignal) :
    (st.finish id s).at = Function.update st.at id .black :=
  getD_set hid _ _

lemma Extracts.enter (hst : Extracts source g st) {id : ℕ} (hid : id < source.size)
    (hwh : st.at id = .white) :
    Extracts source g (st.enter id) := by
  have hlt := hst.length.symm ▸ hid
  refine ⟨length_set.trans hst.length, fun i hi hbl => ?_, fun i hi => ?_, hst.names, ?_⟩
  · rw [at_enter hlt] at hbl
    rcases eq_or_ne i id with rfl | hne
    · rw [update_self] at hbl
      cases hbl
    · rw [update_of_ne hne] at hbl
      exact hst.is i hi hbl
  · refine hst.gates i fun hbl => hi ?_
    have hne : i ≠ id := by
      rintro rfl
      rw [hwh] at hbl
      cases hbl
    rwa [at_enter hlt, update_of_ne hne]
  · refine hst.room.trans (le_of_eq ?_)
    change _ = (st.visit.set id .gray).countP (· = .black)
    have hnot : decide (st.visit.get ⟨id, hlt⟩ = black) = false := by
      refine decide_eq_false fun hbl => ?_
      have hat : st.at id = .black := (getD_eq_getElem _ _ hlt).trans hbl
      rw [hwh] at hat
      cases hat
    rw [countP_set hlt, ← get_eq_getElem (i := ⟨id, hlt⟩), hnot]
    simp

lemma Extracts.finish (hst : Extracts source g st) (hg : g.Wf) (hh : h.Wf) (he : g.Extends h)
    {id : ℕ} (hid : id < source.size)
    (hbl : st.at id ≠ .black) {s : Xsignal} (hs : h.Is s fun env => source.valueAt env id)
    (hns : h.names = g.names)
    (hsz : h.size ≤ g.size + 1) : Extracts source h (st.finish id s) := by
  have hlt := hst.length.symm ▸ hid
  refine ⟨length_set.trans hst.length, fun i hi hat => ?_, fun i hi => ?_, hns.trans hst.names, ?_⟩
  · change h.Is (update st.mapped id s i) _
    rcases eq_or_ne i id with rfl | hne
    · rwa [update_self]
    · rw [update_of_ne hne]
      rw [at_finish hlt, update_of_ne hne] at hat
      exact (hst.is i hi hat).mono hg hh he
  · refine hst.gates i fun hat => hi ?_
    rcases eq_or_ne i id with rfl | hne
    · exact absurd hat hbl
    · rwa [at_finish hlt, update_of_ne hne]
  · refine hsz.trans ((Nat.add_le_add_right hst.room 1).trans_eq ?_)
    exact (countP_set_of_pos (d := .black) hlt (decide_eq_false hbl) rfl).symm

lemma Extracts.size_lt (hst : Extracts source g st) {id : ℕ} (hid : id < source.size)
    (hbl : st.at id ≠ .black) :
    g.size < source.size := by
  have hlt := hst.length.symm ▸ hid
  have hc := countP_set_of_pos (p := (· = black)) (d := .black) (a := .black) hlt
    (decide_eq_false hbl) rfl
  have hle := countP_le_length (p := (· = black)) (l := st.visit.set id .black)
  rw [length_set, hst.length, hc] at hle
  exact lt_of_le_of_lt hst.room hle

variable {s : PassState} {E : Stop → Prop}

lemma leave_ends (hsrc : source.Wf) (hsel : Selects source replacement) (hs : s.candidate.Wf)
    (hst : Extracts source s.candidate st)
    {id : ℕ} (hid : id < source.size) (hg : (source.node id).kind.isGate = true)
    (hdo : ∀ j, Reads source replacement id j → st.at j = .black)
    (hro : s.candidate.size + 1 ≤ maxId) :
    Ends passArena E (leave source replacement st.mapped id) s fun t r =>
    t.candidate.Is r (fun env => source.valueAt env id) ∧
      t.candidate.names = s.candidate.names ∧
      t.candidate.size ≤ s.candidate.size + 1 ∧ t.work = s.work := by
  have him : ∀ r : Xsignal, Reads source replacement id r.id → r.id < source.size →
      s.candidate.Is (translated st.mapped r) fun env => source.eval env r := fun r hr hlt =>
      (hst.is r.id hlt (hdo _ hr)).translated
  unfold leave
  split
  next r hr =>
    have hsu : successors source replacement id = some [r.id] := by rw [successors, hr]
    obtain ⟨-, -, his⟩ := hsel id r (replaced_eq_some hr)
    refine .pure hs ⟨?_, rfl, Nat.le_succ _, rfl⟩
    refine (him r ⟨hg, _, hsu, .head _⟩ his.lt).congr his.eval
  next hr =>
    have hsu : successors source replacement id =
        some [(source.node id).inputs.1.id, (source.node id).inputs.2.id] := by
      rw [successors, hr]
      exact if_pos hg
    obtain ⟨h1, h2⟩ := (hsrc.canonical id hid hg).older
    have ha := him (source.node id).inputs.1 ⟨hg, _, hsu, .head _⟩ (h1.trans hid)
    have hb := him (source.node id).inputs.2 ⟨hg, _, hsu, .tail _ (.head _)⟩ (h2.trans hid)
    refine (gate_ends hs hg ha hb hro).mono fun t r _ _ hr => ⟨hr.1.congr fun env => ?_, hr.2⟩
    rw [hsrc.valueAt_gate env hid hg]

/-- The nodes that were not entered. -/
def Extraction.whites (st : Extraction) : ℕ := st.visit.countP (· = .white)

lemma require_ends {q : Prop} [Decidable q] (hs : s.candidate.Wf) (hq : q) :
    Ends passArena E (require q) s fun t _ => t = s := by
  rw [require, if_pos hq]
  exact .pure hs rfl

lemma graph_ends (hs : s.candidate.Wf) : Ends passArena E graph s fun t g =>
    t = s ∧ g = s.candidate :=
  ⟨graph_builds hs, nofun⟩

/-- A traversal ends when everything its root reads is done; it is refused for a cycle or for lack
of work only. -/
lemma visitLoop_ends (hsrc : source.Wf) (hsel : Selects source replacement) {maxNodes : ℕ}
    (hmax : source.size ≤ maxNodes)
    {root k : ℕ} {enough : Prop} (hcy : ReachesCycle (Reads source replacement) root →
      E (.status .invalid))
    (hwo : ¬enough → E (.status .searchExhausted)) (pending : List (Frame ℕ))
    (st : Extraction) (s : PassState)
    (hs : s.candidate.Wf) (hst : Extracts source s.candidate st)
    (hlt : ∀ f ∈ pending, f.id < source.size)
    (hex : Explores (Reads source replacement) root st.at pending)
    (hhas : enough → s.work.Has (3 * st.whites + pending.length + k)) :
    Ends passArena E (visitLoop source replacement maxNodes pending st) s fun t st' =>
    Extracts source t.candidate st' ∧
      Explores (Reads source replacement) root st'.at [] ∧
      (enough → t.work.Has (3 * st'.whites + k)) := by
  induction pending, st using visitLoop.induct source replacement generalizing s with
  | case1 st =>
    rw [visitLoop]
    refine .pure hs ⟨hst, hex, fun h => ?_⟩
    simpa using hhas h
  | case2 st frame pending ihskip ihleave ihenter =>
    obtain ⟨hid, hre⟩ := forall_mem_cons.1 hlt
    have hat := hst.length.symm ▸ hid
    have hsp := spend_ends (E := E) (d := 3 * st.whites + pending.length + k) hs (c := 1)
      (fun h => (hhas h).mono (by rw [length_cons]; omega)) hwo
    have hro : s.candidate.size ≤ maxNodes :=
      hst.room.trans (countP_le_length.trans (hst.length.le.trans hmax))
    rw [visitLoop]
    refine hsp.bind fun t _ ht _ hspe => (graph_ends ht).bind fun t' target _ _ hgr => ?_
    obtain ⟨rfl, rfl⟩ := hgr
    obtain ⟨hca, hlf⟩ := hspe
    rw [← hca] at hst hro
    refine (require_ends ht hro).bind fun u _ _ _ hu => ?_
    obtain rfl : u = _ := hu
    split
    next hbl => exact ihskip u ht hst hre (hex.skip hbl) hlf
    next hbl =>
      have hg := hst.gates frame.id hbl
      refine .ite (fun hexi => ?_) fun hexi => ?_
      · obtain ⟨id, exit⟩ := frame
        obtain rfl : exit = true := hexi
        refine (leave_ends hsrc hsel ht hst hid hg (fun j => hex.black_of_reads)
          ((hst.size_lt hid hbl).trans_le hsrc.limit)).bind fun v r hv hle hr => ?_
        obtain ⟨his, hns, hsz, hwo'⟩ := hr
        refine ihleave r v hv (hst.finish ht hv hle hid hbl his hns hsz) hre ?_ fun h => ?_
        · rw [at_finish hat]
          exact hex.finish
        · rw [hwo']
          refine (hlf h).mono ?_
          have hle := countP_set_le (p := (· = white)) (a := .black) rfl st.visit id
          change 3 * (st.visit.set id .black).countP (· = .white) + pending.length + k ≤
            3 * st.visit.countP (· = .white) + _ + k
          omega
      · obtain ⟨id, exit⟩ := frame
        obtain rfl : exit = false := Bool.eq_false_iff.2 hexi
        split
        next hgra => exact .throw ht (hcy (hex.cycle hgra))
        next hgra =>
          have hwh : st.at id = .white := by
            cases hv : st.at id with
            | white => rfl
            | gray => exact absurd hv hgra
            | black => exact absurd hv hbl
          obtain ⟨ids, hids⟩ := @exists_successors _ replacement _ hg
          split
          next ids' hid' =>
            obtain rfl : ids = ids' := some.inj (hids.symm.trans hid')
            have hrd : ∀ j, Reads source replacement id j ↔ j ∈ ids := by
              refine fun j => ⟨?_, fun hj => ⟨hg, ids, hids, hj⟩⟩
              rintro ⟨_, l, hl, hj⟩
              exact some.inj (hl.symm.trans hids) ▸ hj
            refine ihenter hbl hgra ids hids u ht (hst.enter hid hwh) ?_ ?_ fun h => (hlf h).mono ?_
            · intro f hf
              rcases mem_append.1 hf with hf | hf
              · obtain ⟨j, hj, rfl⟩ := mem_map.1 hf
                exact lt_of_successors hsrc hsel hid hids j hj
              · rcases mem_cons.1 hf with rfl | hf
                · exact hid
                · exact hre f hf
            · rw [at_enter hat]
              exact hex.enter hwh hrd
            · have hc := countP_set_of_getD (p := (· = white)) (d := .black) (a := .gray) rfl
                (decide_eq_true hwh) rfl
              have hlen := length_le_of_successors source replacement hids
              change 3 * (st.visit.set id .gray).countP (· = .white) + _ + k ≤
                3 * st.visit.countP (· = .white) + _ + k
              simp only [length_append, length_map, length_cons]
              omega
          next hno =>
            rw [hids] at hno
            cases hno

/-! ## The start -/

/-- How many of the nodes below one are done at the start. -/
def Xag.startCount (source : Xag) (id : ℕ) : ℕ :=
  (List.range id).countP fun i => i = 0 ∨ (source.node i).kind = .source

lemma Xag.startCount_succ (source : Xag) (id : ℕ) : source.startCount (id + 1) =
    source.startCount id + if id = 0 ∨ (source.node id).kind = .source then 1 else 0 := by
  rw [startCount, range_succ, countP_append, startCount, countP_singleton]
  simp only [decide_eq_true_eq]

lemma isGate_of_ne (hsrc : source.Wf) {id : ℕ} (hid : id < source.size)
    (h : ¬(id = 0 ∨ (source.node id).kind = .source)) :
    (source.node id).kind.isGate = true := by
  rw [not_or] at h
  exact hsrc.gate_of_ne hid h.1 h.2

lemma copySources_ends (hsrc : source.Wf) (hs : s.candidate = {}) :
    Ends passArena E (copySources source) s fun t mapped =>
    Rebuilt source (fun _ => False) source.size t.candidate mapped ∧
    t.candidate.size ≤ source.startCount source.size ∧
      t.work = s.work := by
  have hwf := hs ▸ wf_empty
  have hst : Rebuilt source (fun _ => False) 1 s.candidate (fun _ => {}) ∧
      s.candidate.size ≤ source.startCount 1 ∧
      s.work = s.work := by
    rw [hs]
    exact ⟨Rebuilt.start hsrc _, le_rfl, rfl⟩
  have hlo := foldlM_range' (A := passArena) (E := E) (f := fun mapped id =>
      if (source.node id).kind = .source then
      update mapped id <$> copySource source id else (pure mapped : PassM (ℕ → Xsignal)))
    (Q := fun i t mapped => Rebuilt source (fun _ => False) i t.candidate mapped ∧
      t.candidate.size ≤ source.startCount i ∧
      t.work = s.work) 1 (source.size - 1) hwf hst fun i hi hlt t mapped ht _ hQ => ?_
  · rwa [Nat.add_sub_cancel' hsrc.pos] at hlo
  · obtain ⟨hr, hsz, hwo⟩ := hQ
    have hlt : i < source.size := by omega
    refine ite (fun hk => ?_) fun hk => ?_
    · have hro : t.candidate.size + 1 ≤ maxId := by
        have hle : source.startCount i ≤ i := countP_le_length.trans_eq length_range
        have hli := hsrc.limit
        omega
      have hen := onGraph_ends (E := E)
        (input_runs ht (source.names.getD (source.node i).sourceIndex "")) ht hro
      obtain ⟨hinv, hle, hP⟩ := copySource_builds hsrc ht hr hlt hk
      have hco : Ends passArena E (copySource source i) t fun u r =>
          Rebuilt source (fun _ => False) (i + 1) u.candidate (update mapped i r) ∧
          u.candidate.size ≤ source.startCount (i + 1) ∧
            u.work = s.work := by
        refine ⟨⟨hinv, hle, fun r hr => ⟨(hP r hr).1, ?_, (hen.builds.2.2 r hr).2.2.trans hwo⟩⟩,
          hen.stops⟩
        rw [startCount_succ, if_pos (Or.inr hk)]
        exact (hen.builds.2.2 r hr).2.1.trans (Nat.add_le_add_right hsz 1)
      exact hco.map fun _ _ _ _ h => h
    · have hne : ¬(i = 0 ∨ (source.node i).kind = .source) := fun h => h.elim (by omega) hk
      refine pure ht ⟨hr.skip (isGate_of_ne hsrc hlt hne) not_false, ?_, hwo⟩
      rwa [startCount_succ, if_neg hne]

variable {mapped : ℕ → Xsignal}

lemma at_startVisit {id : ℕ} (hid : id < source.size) :
    (Extraction.mk mapped (startVisit source)).at id =
    if id = 0 ∨ (source.node id).kind = .source then .black else .white := by
  rw [Extraction.at, startVisit, getD_eq_getElem?_getD, getElem?_map, getElem?_range hid]
  rfl

lemma at_startVisit_of_le {id : ℕ} (hid : source.size ≤ id) :
    (Extraction.mk mapped (startVisit source)).at id = .black := by
  refine getD_eq_default _ _ ?_
  rwa [startVisit, length_map, length_range]

lemma extracts_start (hsrc : source.Wf) (hr : Rebuilt source (fun _ => False) source.size g mapped)
    (hsz : g.size ≤ source.startCount source.size) :
    Extracts source g ⟨mapped, startVisit source⟩ where
  length := by rw [startVisit, length_map, length_range]
  is i hi hbl := by
    refine hr.is i hi (.inl ?_)
    rw [at_startVisit hi] at hbl
    split at hbl
    next h =>
      rcases h with rfl | h
      · rw [(hsrc.constant 0 hi).2 rfl]
        rfl
      · rw [h]
        rfl
    · cases hbl
  gates i hi := by
    rcases lt_or_ge i source.size with hlt | hge
    · refine isGate_of_ne hsrc hlt fun h => hi ?_
      rw [at_startVisit hlt, if_pos h]
    · exact absurd (at_startVisit_of_le hge) hi
  names := by rw [hr.names, hsrc.sourceCount_size, take_length]
  room := by
    refine hsz.trans_eq ?_
    rw [startVisit, countP_map]
    refine countP_congr fun i _ => ?_
    simp only [comp_apply]
    split
    · simp_all
    · simp_all

/-- Nothing was entered yet, and what is done reads nothing. -/
lemma explores_start (hsrc : source.Wf) (mapped : ℕ → Xsignal) :
    (∀ a, (Extraction.mk mapped (startVisit source)).at a ≠ .gray) ∧
    ∀ a, (Extraction.mk mapped (startVisit source)).at a = .black →
    Acc (fun b a => Reads source replacement a b) a := by
  refine ⟨fun a ha => ?_, fun a ha => .intro a fun b hb => absurd hb (not_reads ?_ b)⟩
  · rcases lt_or_ge a source.size with hlt | hge
    · rw [at_startVisit hlt] at ha
      split at ha <;> cases ha
    · rw [at_startVisit_of_le hge] at ha
      cases ha
  · rcases lt_or_ge a source.size with hlt | hge
    · rw [at_startVisit hlt] at ha
      split at ha
      next h =>
        rcases h with rfl | h
        · rw [(hsrc.constant 0 hlt).2 rfl]
          rfl
        · rw [h]
          rfl
      · cases ha
    · rw [node, getD_eq_default _ _ hge]
      rfl

/-! ## The network -/

/-- The outputs that were extracted. -/
structure Extracted (source : Xag) (replacement : ℕ → Option Xsignal) (pre : List Xsignal) (g : Xag)
    (r : Extraction × List Xsignal) :
    Prop where
  state : Extracts source g r.1
  left : ∀ a, r.1.at a ≠ .gray
  closed : ∀ a, r.1.at a = .black → Acc (fun b a => Reads source replacement a b) a
  outputs : Forall₂ (fun output s => g.Is s fun env => source.eval env output) pre r.2
  acyclic : ∀ output ∈ pre, ¬ReachesCycle (Reads source replacement) output.id

lemma extractOutputs_ends (hsrc : source.Wf) (hsel : Selects source replacement) {maxNodes : ℕ}
    (hmax : source.size ≤ maxNodes)
    {outputs : List Xsignal} {enough : Prop}
    (hra : (∃ output ∈ outputs, source.size ≤ output.id) → E (.status .invalid))
    (hcy : (∃ output ∈ outputs, ReachesCycle (Reads source replacement) output.id) →
      E (.status .invalid))
    (hwo : ¬enough → E (.status .searchExhausted)) (hs : s.candidate.Wf)
    (hst : Extracted source replacement [] s.candidate (st, []))
    (hhas : enough → s.work.Has (3 * st.whites + outputs.length)) :
    Ends passArena E (extractOutputs source replacement maxNodes outputs st) s fun t r =>
      Extracted source replacement outputs t.candidate r := by
  have hlo := foldlM (A := passArena) (E := E) (f := fun r output =>
      if source.size ≤ output.id then invalid else do
      let st ← visitLoop source replacement maxNodes [⟨output.id, false⟩] r.1
      pure (st, r.2 ++ [translated st.mapped output]))
    (Q := fun pre t r => Extracted source replacement pre t.candidate r ∧
      (enough → t.work.Has (3 * r.1.whites + (outputs.length - pre.length))))
      [] outputs hs ⟨hst, hhas⟩
    fun pre output post hsp t r ht _ hQ => ?_
  · exact hlo.mono fun _ _ _ _ h => h.1
  · obtain ⟨hr, hhas⟩ := hQ
    rw [nil_append] at hsp
    have hmem : output ∈ outputs := by
      rw [hsp]
      exact mem_append_right _ (.head _)
    refine ite (fun hle => throw ht (hra ⟨output, hmem, hle⟩)) fun hlt => ?_
    have hlen : outputs.length - pre.length = 1 + (outputs.length - (pre ++ [output]).length) := by
      rw [hsp, length_append, length_append, length_cons, length_singleton]
      omega
    have hvi := @visitLoop_ends _ _ E hsrc hsel _ hmax output.id
      (outputs.length - (pre ++ [output]).length) _
      (fun h => hcy ⟨output, hmem, h⟩) hwo [⟨output.id, false⟩] r.1 t ht hr.state
      (forall_mem_singleton.2 (Nat.lt_of_not_le hlt))
          (Explores.start hr.left hr.closed output.id) fun h => by
        have hbe := hhas h
        rwa [hlen, ← add_assoc] at hbe
    refine hvi.bind fun u st' hu hle hst' =>
      pure hu ⟨⟨hst'.1, hst'.2.1.not_gray, hst'.2.1.closed, ?_, ?_⟩, hst'.2.2⟩
    · refine rel_append (hr.outputs.imp fun o r h => h.mono ht hu hle) (Forall₂.cons ?_ Forall₂.nil)
      exact (hst'.1.is output.id (Nat.lt_of_not_le hlt) hst'.2.1.root_black).translated
    · refine forall_mem_append.2 ⟨hr.acyclic, forall_mem_singleton.2 ?_⟩
      exact not_reachesCycle_of_acc (hst'.2.1.closed _ hst'.2.1.root_black)

/-- A request that `extract_choices` accepts. -/
structure Requests (source : Xag) (choices : List XagChoice) (selected : List ℕ)
    (outputs : List Xsignal) (maxNodes : ℕ) : Prop where
  selection : Selection choices selected
  outputs : ∀ output ∈ outputs, output.id < source.size
  size : source.size ≤ maxNodes

variable (source : Xag) (choices : List XagChoice)

/-- Whether the selected members have a cycle that an output reads. -/
def SelectedCycle (selected : List ℕ) (outputs : List Xsignal) : Prop :=
  ∃ replacement, selectMembers source (choices.zip selected) (fun _ => none) = some replacement ∧
    ∃ output ∈ outputs, ReachesCycle (Reads source replacement) output.id

/-- Work that any extraction can do with. -/
def extractionWork (outputs : List Xsignal) : ℕ :=
  3 * source.size + choices.length + outputs.length + (3 * source.size + outputs.length)

/-- Why an extraction publishes nothing. -/
def Refuses (selected : List ℕ) (outputs : List Xsignal) (maxNodes : ℕ) (w : Work) : Stop → Prop
  | .status .invalid => ¬Requests source choices selected outputs maxNodes ∨
    SelectedCycle source choices selected outputs
  | .status .searchExhausted => ¬w.Has (extractionWork source choices outputs)
  | _ => False

lemma extractNetwork_ends (hsrc : source.Wf) {choices : List XagChoice}
    (hch : ∀ c ∈ choices, c.Ok source) (selected : List ℕ)
    (outputs : List Xsignal) (maxNodes : ℕ) (w : Work) :
    Ends passArena (Refuses source choices selected outputs maxNodes w)
    (extractNetwork source choices selected outputs maxNodes)
      { work := w } fun _ net => Preserves source outputs net.graph net.outputs ∧
      ¬SelectedCycle source choices selected outputs := by
  have hem := Xag.wf_empty
  have hok : ∀ p ∈ choices.zip selected, p.1.Ok source := fun p hp => hch p.1 (of_mem_zip hp).1
  refine .ite (fun hbad => .throw hem (.inl fun hreq => ?_)) fun hgo => ?_
  · have hpos := hsrc.pos
    have hsz := hreq.size
    rcases hbad with hbad | hbad | hbad
    · exact hbad hreq.selection.length
    · omega
    · omega
  rw [not_or, not_or, not_not, not_lt] at hgo
  obtain ⟨hlen, hmax, -⟩ := hgo
  refine (@Pass.spend_ends _ _ _ hem (w.Has (extractionWork source choices outputs))
    (3 * source.size + outputs.length)
    (fun h => h) fun h => h).bind fun t _ ht _ hsp => ?_
  obtain ⟨hca, hhas⟩ := hsp
  refine (copySources_ends hsrc hca).bind fun u mapped hu _ hco => ?_
  obtain ⟨hr, hsz, hsa⟩ := hco
  split
  next hno =>
    refine .throw hu (.inl fun hreq => ?_)
    have hmap : (choices.zip selected).map (·.1.root.id) = choices.map (·.root.id) := by
      rw [← @map_fst_zip _ _ choices selected hlen.le, map_map, map_fst_zip hlen.le]
      rfl
    have hsm := @selectMembers_isSome _ (fun _ => none) _ hok (hmap ▸ hreq.selection.roots)
      hreq.selection.members fun _ _ => rfl
    rw [hno] at hsm
    cases hsm
  next replacement hsm =>
    have hsel := selectMembers_selects hok (fun _ _ h => by cases h) hsm
    obtain ⟨hgra, hcl⟩ := @explores_start _ replacement hsrc mapped
    refine (@extractOutputs_ends _ _ _ _ _ hsrc hsel _ hmax _
      (w.Has (extractionWork source choices outputs)) (fun h => ?_) (fun h => ?_)
      (fun h => h) hu ⟨extracts_start hsrc hr hsz, hgra, hcl, .nil, nofun⟩ fun h => ?_).bind
        fun v r hv _ hr => ?_
    · obtain ⟨output, hmem, hle⟩ := h
      exact .inl fun hreq => Nat.not_le.2 (hreq.outputs output hmem) hle
    · exact .inr ⟨replacement, hsm, h⟩
    · rw [hsa]
      refine (hhas h).mono (Nat.add_le_add_right (Nat.mul_le_mul_left 3 ?_) _)
      refine countP_le_length.trans ?_
      rw [startVisit, length_map, length_range]
    · refine (graph_ends hv).bind fun x target hx _ hgr => ?_
      obtain ⟨rfl, rfl⟩ := hgr
      have hro : x.candidate.size ≤ maxNodes :=
        hr.state.room.trans (countP_le_length.trans (hr.state.length.le.trans hmax))
      refine (require_ends hx hro).bind fun y _ hy _ heq => .pure hy ⟨⟨?_, ?_, ?_, ?_⟩, ?_⟩
      · exact hx
      · exact hr.state.names
      · intro s hs
        obtain ⟨o, -, ho⟩ := hr.outputs.exists_of_mem_right hs
        exact ho.lt
      · intro env
        exact hr.outputs.flip.map_eq_map fun s _ o ho => ho.eval env
      · rintro ⟨replacement', hsm', output, hmem, hcy⟩
        cases (hsm.symm.trans hsm')
        exact hr.acyclic output hmem hcy

end

end LiveHD.Usyn
