import LiveHD.Lib.Chains

/-!
# Forwarded wiring

The replacement relation of `Cprop_wiring`: a source for each pin that was referenced, which
`forward` replaces and `retire` ends.  A pin is its class index and a `Ref` the place of its source
in the order in which the sources were made.
-/

namespace LiveHD.Cprop

open Chains Relation Function List Option

/-- `Cprop_wiring::Source` -/
structure Source where
  pin : ℕ
  replacement : Option ℕ
  retired : Bool
deriving DecidableEq

/-- The sources, also those that only references still hold, and the `sources` map. -/
structure Wiring where
  heap : List Source
  sources : ℕ → Option ℕ

namespace Wiring

def empty : Wiring where
  heap := []
  sources _ := none

variable (w : Wiring)

def replacement (ref : ℕ) : Option ℕ := (w.heap[ref]?).bind (·.replacement)

/-- `source` -/
def source (pin : ℕ) : Wiring × ℕ :=
  match w.sources pin with
  | some ref => (w, ref)
  | none => ({ heap := w.heap ++ [⟨pin, none, false⟩]
               sources := Function.update w.sources pin (some w.heap.length) }, w.heap.length)

def modify (ref : ℕ) (f : Source → Source) : Wiring := { w with heap := w.heap.modify ref f }

/-- The loop over the path. -/
def compress (path : List ℕ) (ref : ℕ) : Wiring :=
  path.foldl (fun w item => w.modify item ({ · with replacement := some ref })) w

/-- What `resolve` returns at the end of the chain, `none` for the invalid pin. -/
def live (ref : ℕ) : Option ℕ := (w.heap[ref]?).bind fun s => if s.retired then none else some s.pin

/-- `resolve`, `none` when its loop does not end: a chain longer than the number of sources is
cyclic. -/
def resolve (ref : ℕ) : Option (Wiring × Option ℕ) :=
  (chase w.replacement (w.heap.length + 1) ref).map fun p => (w.compress p.1 p.2, w.live p.2)

/-- `forward` -/
def forward (pin target : ℕ) : Option Wiring :=
  if pin = target then some w
  else match w.sources pin with
    | none => some w
    | some original =>
      let (w₁, ref) := w.source target
      (w₁.resolve ref).map fun r =>
        if r.2 = some pin then r.1.modify original ({ · with retired := true })
        else r.1.modify original ({ · with replacement := some ref })

/-- `retire` -/
def retire (pin : ℕ) : Wiring :=
  match w.sources pin with
  | none => w
  | some ref => w.modify ref ({ · with retired := true })

/-- `fresh` -/
def fresh (pin : ℕ) : Wiring := { w with sources := Function.update w.sources pin none }

inductive Call where
  | reference (pin : ℕ)
  | resolve (ref : ℕ)
  | forward (pin target : ℕ)
  | retire (pin : ℕ)
  | fresh (pin : ℕ)
deriving DecidableEq

/-- The state after a call, `none` when the call does not return. -/
def step : Call → Option Wiring
  | .reference pin => some (w.source pin).1
  | .resolve ref => (w.resolve ref).map (·.1)
  | .forward pin target => w.forward pin target
  | .retire pin => some (w.retire pin)
  | .fresh pin => some (w.fresh pin)

def run (w : Wiring) (calls : List Call) : Option Wiring := calls.foldlM (fun w c => w.step c) w

/-- The replacement relation. -/
def Replaces (a b : ℕ) : Prop := w.replacement a = some b

def Acyclic : Prop := ∀ a, ¬TransGen w.Replaces a a

/-- A pin whose source is retired is forwarded to a pin whose chain ends in that source. -/
def Closes : Call → Prop
  | .forward pin target => pin ≠ target ∧ ∃ original ref, w.sources pin = some original ∧
    w.sources target = some ref ∧
      w.live original = none ∧ Chains.Ends w.replacement ref original
  | _ => False

/-- No step of the run forwards a retired pin to what ends in it. -/
def Guarded (w : Wiring) : List Call → Prop
  | [] => True
  | c :: calls => ¬w.Closes c ∧ ∀ w', w.step c = some w' → Guarded w' calls

/-! ## The operations -/

section

variable {w} {pin ref a b : ℕ}

lemma getElem?_modify (f : Source → Source) (a : ℕ) :
    (w.modify ref f).heap[a]? = if ref = a then (w.heap[a]?).map f else w.heap[a]? := by
  rw [modify, List.getElem?_modify]
  cases w.heap[a]? with
  | none => rw [Option.map_none, ite_self]; rfl
  | some s => split <;> rfl

@[simp] lemma length_modify (ref : ℕ) (f : Source → Source) :
    (w.modify ref f).heap.length = w.heap.length := List.length_modify ..

/-- The pin of a source; no operation changes it. -/
def pinAt (w : Wiring) (ref : ℕ) : Option ℕ := (w.heap[ref]?).map (·.pin)

lemma pinAt_modify {f : Source → Source} (hf : ∀ s, (f s).pin = s.pin) (ref a : ℕ) :
    (w.modify ref f).pinAt a = w.pinAt a := by
  rw [pinAt, getElem?_modify]
  split
  · rw [Option.map_map]
    exact congrArg (Option.map · _) (funext hf)
  · rfl

lemma replacement_retired (ref : ℕ) :
    (w.modify ref ({ · with retired := true })).replacement = w.replacement := by
  funext a
  rw [replacement, getElem?_modify, replacement]
  split
  · cases w.heap[a]? <;> rfl
  · rfl

lemma replacement_modify (h : ref < w.heap.length) (b : ℕ) :
    (w.modify ref ({ · with replacement := some b })).replacement =
    update w.replacement ref (some b) := by
  funext a
  rw [replacement, getElem?_modify]
  by_cases ha : ref = a
  · subst ha
    rw [if_pos rfl, update_self, getElem?_eq_getElem h]
    rfl
  · rw [if_neg ha, update_of_ne (Ne.symm ha), replacement]

lemma lt_of_replacement (h : w.replacement a ≠ none) : a < w.heap.length := by
  by_contra hlt
  rw [replacement, getElem?_eq_none (Nat.not_lt.1 hlt)] at h
  exact h rfl

/-- The links of the path lead to `ref`, the others stay. -/
lemma replacement_compress (path : List ℕ) (ref a : ℕ) (hp : ∀ x ∈ path, x < w.heap.length) :
    (w.compress path ref).replacement a = if a ∈ path then some ref else w.replacement a := by
  induction path generalizing w with
  | nil => exact (if_neg not_mem_nil).symm
  | cons item path ih =>
    have hr : ∀ x ∈ path, x < (w.modify item ({ · with replacement := some ref })).heap.length := by
      intro x hx
      rw [length_modify]
      exact hp x (.tail _ hx)
    rw [compress, foldl_cons, ← compress, ih hr, replacement_modify (hp item (.head _))]
    by_cases ha : a ∈ path
    · rw [if_pos ha, if_pos (.tail _ ha)]
    · rw [if_neg ha]
      by_cases heq : a = item
      · rw [heq, update_self, if_pos mem_cons_self]
      · rw [update_of_ne heq, if_neg (not_mem_cons_of_ne_of_not_mem heq ha)]

lemma compress_frame (path : List ℕ) (ref : ℕ) :
    (w.compress path ref).sources = w.sources ∧ (w.compress path ref).heap.length = w.heap.length ∧
      (∀ a, (w.compress path ref).pinAt a = w.pinAt a) ∧
      ∀ a, (w.compress path ref).live a = w.live a := by
  induction path generalizing w with
  | nil => exact ⟨rfl, rfl, fun _ => rfl, fun _ => rfl⟩
  | cons item path ih =>
    obtain ⟨hs, hl, hp, hv⟩ := ih (w := w.modify item fun s => { s with replacement := some ref })
    refine ⟨hs, hl.trans (length_modify ..), fun a => (hp a).trans (pinAt_modify ?_ item a),
      fun a => (hv a).trans ?_⟩
    · intro s
      rfl
    · rw [live, getElem?_modify, live]
      split
      · cases w.heap[a]? <;> rfl
      · rfl

lemma replacement_source (pin : ℕ) : (w.source pin).1.replacement = w.replacement := by
  rw [source]
  split
  · rfl
  · funext a
    rw [replacement, replacement, getElem?_append]
    split
    · rfl
    next hlt =>
      rw [getElem?_eq_none (l := w.heap) (Nat.not_lt.1 hlt)]
      cases a - w.heap.length <;> rfl

/-- Every chain ends, at a source that exists, and the map leads to sources of the pins. -/
structure Wired (w : Wiring) : Prop where
  total : Total w.replacement
  lt : ∀ a b, w.replacement a = some b → b < w.heap.length
  pin : ∀ pin ref, w.sources pin = some ref → w.pinAt ref = some pin

lemma lt_of_pinAt (h : w.pinAt ref = some pin) : ref < w.heap.length := by
  by_contra hlt
  rw [pinAt, getElem?_eq_none (Nat.not_lt.1 hlt)] at h
  cases h

namespace Wired

lemma empty : Wired empty where
  total a := ⟨a, .stop rfl⟩
  lt _ _ h := nomatch h
  pin _ _ h := nomatch h

section

variable (h : w.Wired)
include h

/-- `source` leads to a source of the pin. -/
lemma source (pin : ℕ) : (w.source pin).1.Wired ∧
    (w.source pin).1.sources pin = some (w.source pin).2 := by
  have hre := w.replacement_source pin
  rw [Wiring.source] at hre ⊢
  split at hre
  · exact ⟨h, by assumption⟩
  · refine ⟨⟨?_, fun a b hab => ?_, fun q ref hq => ?_⟩, update_self ..⟩
    · rw [hre]
      exact h.total
    · rw [hre] at hab
      rw [length_append]
      exact Nat.lt_succ_of_lt (h.lt a b hab)
    · change update _ _ _ _ = _ at hq
      by_cases hpin : q = pin
      · subst hpin
        rw [update_self] at hq
        cases hq
        change ((w.heap ++ [_])[w.heap.length]?).map _ = _
        rw [getElem?_concat_length]
        rfl
      · rw [update_of_ne hpin] at hq
        have hold := h.pin q ref hq
        change ((w.heap ++ [_])[ref]?).map _ = _
        rwa [getElem?_append_left (lt_of_pinAt hold)]

lemma retire (ref : ℕ) : (w.modify ref ({ · with retired := true })).Wired where
  total := by
    rw [replacement_retired]
    exact h.total
  lt a b hab := by
    rw [replacement_retired] at hab
    rw [length_modify]
    exact h.lt a b hab
  pin pin a ha := by
    rw [pinAt_modify]
    · exact h.pin pin a ha
    · intro s
      rfl

/-- `resolve` returns, at the end of the chain, and shortens the chain without another effect. -/
lemma resolve {e : ℕ} (he : Chains.Ends w.replacement ref e) :
    ∃ w', w.resolve ref = some (w', w.live e) ∧ w'.Wired ∧ w'.sources = w.sources ∧
    (∀ a, w'.live a = w.live a) ∧
      Short w'.replacement ref e ∧ ∀ a b, Chains.Ends w.replacement a b →
      Chains.Ends w'.replacement a b := by
  have hmem : ∀ x, w.replacement x ≠ none → x ∈ range w.heap.length := fun x hx =>
    mem_range.2 (lt_of_replacement hx)
  obtain ⟨path, hch⟩ := he.chase_eq hmem
  rw [length_range] at hch
  obtain ⟨-, hpa⟩ := ends_of_chase hch
  obtain ⟨hss, hlen, hpin, hlv⟩ := w.compress_frame path e
  have hrp := fun a => w.replacement_compress path e a fun x hx => lt_of_replacement (hpa x hx).1
  have hsh : ∀ a, (w.compress path e).replacement a = w.replacement a ∨
      ∃ f, w.replacement a ≠ none ∧ Chains.Ends w.replacement a f ∧
      (w.compress path e).replacement a = some f := by
    intro a
    rw [hrp a]
    split
    next ha => exact .inr ⟨e, (hpa a ha).1, (hpa a ha).2, rfl⟩
    · exact .inl rfl
  have hen : ∀ a b, Chains.Ends w.replacement a b →
    Chains.Ends (w.compress path e).replacement a b := fun a b hab => hab.shortcut hsh
  refine ⟨w.compress path e, ?_,
    ⟨fun a => ?_, fun a b hab => ?_, fun pin a ha => ?_⟩, hss, hlv, ?_, hen⟩
  · rw [Wiring.resolve, hch]
    rfl
  · obtain ⟨f, hf⟩ := h.total a
    exact ⟨f, hen a f hf⟩
  · rw [hlen]
    rw [hrp a] at hab
    split at hab
    next ha =>
      cases hab
      obtain ⟨hne, hend⟩ := hpa a ha
      cases hend with
      | stop hsto => exact absurd hsto hne
      | step hst hre =>
        have hlt : ∀ {x y}, Chains.Ends w.replacement x y →
            x < w.heap.length → y < w.heap.length := by
          intro x y hxy
          induction hxy with
          | stop _ => exact id
          | step hz _ ih => exact fun _ => ih (h.lt _ _ hz)
        exact hlt hre (h.lt _ _ hst)
    · exact h.lt a b hab
  · rw [hss] at ha
    exact (hpin a).trans (h.pin pin a ha)
  · refine ⟨(hen _ _ he).eq_none, ?_⟩
    cases hr : w.replacement ref with
    | none => exact .inl (he.eq_of_none hr)
    | some b =>
      refine .inr ((hrp ref).trans (if_pos ?_))
      rw [chase, hr, Option.map_eq_some_iff] at hch
      obtain ⟨p, -, hp⟩ := hch
      cases hp
      exact .head _

/-- `forward` replaces or retires the source of the pin in a state in which the chain of the target
is short. -/
lemma forward {target original : ℕ} (hne : pin ≠ target) (hpin : w.sources pin = some original) :
    ∃ (w' : Wiring) (ref e : ℕ), w'.Wired ∧ w'.pinAt original = some pin ∧
    w'.pinAt ref = some target ∧ Short w'.replacement ref e ∧
      (w.Closes (.forward pin target) ↔ e = original ∧ w'.live e = none) ∧
      w.forward pin target = some (if w'.live e = some pin then
        w'.modify original ({ · with retired := true })
        else w'.modify original ({ · with replacement := some ref })) := by
  obtain ⟨hw₁, href⟩ := h.source target
  have hpin₁ : (w.source target).1.sources pin = some original := by
    rw [Wiring.source]
    split
    · exact hpin
    · exact (update_of_ne hne _ _).trans hpin
  obtain ⟨e, he⟩ := hw₁.total (w.source target).2
  obtain ⟨w', hre, hw', hss, hlv, hsh, -⟩ := hw₁.resolve he
  have hp := hw'.pin pin original (by rw [hss]; exact hpin₁)
  have ht := hw'.pin target _ (by rw [hss]; exact href)
  refine ⟨w', (w.source target).2, e, hw', hp, ht, hsh, ?_, ?_⟩
  · rw [hlv e]
    constructor
    · rintro ⟨-, o, ref, ho, hr, hde, hend⟩
      cases (ho.symm.trans hpin)
      have hsrc : w.source target = (w, ref) := by rw [Wiring.source, hr]
      rw [hsrc] at he ⊢
      obtain rfl := he.unique hend
      exact ⟨rfl, hde⟩
    · rintro ⟨rfl, hde⟩
      cases hr : w.sources target with
      | some ref =>
        have hsrc : w.source target = (w, ref) := by rw [Wiring.source, hr]
        rw [hsrc] at he hde
        exact ⟨hne, e, ref, hpin, hr, hde, he⟩
      | none =>
        -- a new source is the end of its own chain
        have hsrc : (w.source target).2 = w.heap.length := by rw [Wiring.source, hr]
        have hno : (w.source target).1.replacement (w.source target).2 = none := by
          rw [replacement_source, hsrc, replacement, getElem?_eq_none le_rfl]
          rfl
        rw [← he.eq_of_none hno, ht] at hp
        exact absurd (some.inj hp).symm hne
  · rw [Wiring.forward, if_neg hne, hpin, hlv e]
    change ((w.source target).1.resolve (w.source target).2).map _ = _
    rw [hre]
    rfl

/-- A step that closes no cycle returns and leaves every chain with an end. -/
lemma step {c : Call} (hc : ¬w.Closes c) : ∃ w', w.step c = some w' ∧ w'.Wired := by
  cases c with
  | reference pin => exact ⟨_, rfl, (h.source pin).1⟩
  | resolve ref =>
    obtain ⟨e, he⟩ := h.total ref
    obtain ⟨w', hre, hw', -⟩ := h.resolve he
    exact ⟨w', by rw [Wiring.step, hre]; rfl, hw'⟩
  | forward pin target =>
    rw [Wiring.step]
    by_cases hne : pin = target
    · exact ⟨w, if_pos hne, h⟩
    cases hpin : w.sources pin with
    | none => exact ⟨w, by rw [Wiring.forward, if_neg hne, hpin], h⟩
    | some original =>
      obtain ⟨w', ref, e, hw', hp, ht, hsh, hcl, hfo⟩ := h.forward hne hpin
      refine ⟨_, hfo, ?_⟩
      split
      · exact hw'.retire original
      next hlv =>
        have hoe : original ≠ e := by
          rintro rfl
          refine hc (hcl.2 ⟨rfl, ?_⟩)
          obtain ⟨s, hs, hsp⟩ := map_eq_some_iff.1 hp
          rw [Wiring.live, hs] at hlv ⊢
          change ite _ _ _ ≠ _ at hlv
          change ite _ _ _ = _
          split
          · rfl
          next hrt =>
            rw [if_neg hrt, hsp] at hlv
            exact absurd rfl hlv
        have hor : original ≠ ref := by
          rintro rfl
          exact hne (some.inj (hp.symm.trans ht))
        have hlt := lt_of_pinAt hp
        refine ⟨?_, fun a b hab => ?_, fun q a ha => ?_⟩
        · rw [replacement_modify hlt]
          exact hw'.total.update hsh hor hoe
        · rw [replacement_modify hlt] at hab
          rw [length_modify]
          by_cases ha : a = original
          · subst ha
            rw [update_self] at hab
            exact some.inj hab ▸ lt_of_pinAt ht
          · rw [update_of_ne ha] at hab
            exact hw'.lt a b hab
        · rw [pinAt_modify]
          · exact hw'.pin q a ha
          · intro s
            rfl
  | retire pin =>
    refine ⟨_, rfl, ?_⟩
    rw [Wiring.retire]
    split
    · exact h
    · exact h.retire _
  | fresh pin =>
    refine ⟨_, rfl, h.total, h.lt, fun q ref hq => ?_⟩
    change update w.sources pin none q = some ref at hq
    by_cases hqp : q = pin
    · rw [hqp, update_self] at hq
      cases hq
    · rw [update_of_ne hqp] at hq
      exact h.pin q ref hq

/-- The step that forwards a retired pin to what ends in it closes a cycle. -/
lemma cyclic_step {c : Call} (hc : w.Closes c) : ∃ w', w.step c = some w' ∧ ¬w'.Acyclic := by
  cases c with
  | forward pin target =>
    obtain ⟨hne, original, -, hpin, -⟩ := id hc
    obtain ⟨w', ref, e, hw', hp, -, hsh, hcl, hfo⟩ := h.forward hne hpin
    obtain ⟨rfl, hde⟩ := hcl.1 hc
    rw [hde] at hfo
    refine ⟨_, hfo, fun hac => hac e ?_⟩
    have hend : Chains.Ends w'.replacement ref e := by
      rcases hsh.2 with rfl | hli
      · exact .stop hsh.1
      · exact .step hli (.stop hsh.1)
    have hcy := hend.cycle
    rwa [← replacement_modify (lt_of_pinAt hp)] at hcy
  | reference _ => exact hc.elim
  | resolve _ => exact hc.elim
  | retire _ => exact hc.elim
  | fresh _ => exact hc.elim

lemma acyclic : w.Acyclic := h.total.irrefl

end

end Wired

/-- Each chain ends at a source, and `resolve` returns its pin, or the invalid pin when it is
retired. -/
def Resolves (w : Wiring) : Prop := ∀ ref < w.heap.length, ∃ e s w', ReflTransGen w.Replaces ref e ∧
    w.replacement e = none ∧
  w.heap[e]? = some s ∧ w.resolve ref = some (w', if s.retired then none else some s.pin)

lemma Wired.resolves (h : w.Wired) : w.Resolves := by
  intro ref href
  obtain ⟨e, he⟩ := h.total ref
  obtain ⟨hp, hst⟩ := Ends.iff_reflTransGen.1 he
  have hlt : e < w.heap.length := by
    rcases ReflTransGen.cases_tail hp with rfl | ⟨x, -, hx⟩
    · exact href
    · exact h.lt x e hx
  obtain ⟨w', hre, -⟩ := h.resolve he
  refine ⟨e, w.heap[e], w', hp, hst, getElem?_eq_getElem hlt, hre.trans ?_⟩
  rw [live, getElem?_eq_getElem hlt]
  rfl

/-- The loop of `resolve` does not end when it is not over after as many steps as there are
sources. -/
lemma resolve_eq_none (h : w.resolve ref = none) (fuel : ℕ) :
    chase w.replacement fuel ref = none := by
  by_contra hne
  obtain ⟨⟨path, e⟩, hch⟩ := Option.ne_none_iff_exists'.1 hne
  have hmem : ∀ x, w.replacement x ≠ none → x ∈ range w.heap.length := fun x hx =>
    mem_range.2 (lt_of_replacement hx)
  obtain ⟨path', hend⟩ := (ends_of_chase hch).1.chase_eq hmem
  rw [length_range] at hend
  rw [resolve, hend] at h
  cases h

/-! ## Runs -/

lemma run_cons (c : Call) (calls : List Call) :
    w.run (c :: calls) = (w.step c).bind fun w' => w'.run calls := by
  rfl

lemma Wired.guarded_iff (h : w.Wired) (calls : List Call) :
    Guarded w calls ↔ ∀ k, ∃ w', w.run (calls.take k) = some w' ∧ w'.Acyclic ∧ w'.Resolves := by
  induction calls generalizing w with
  | nil =>
    refine ⟨fun _ k => ⟨w, ?_, h.acyclic, h.resolves⟩, fun _ => trivial⟩
    rw [take_nil]
    rfl
  | cons c calls ih =>
    constructor
    · rintro ⟨hc, hr⟩ k
      cases k with
      | zero => exact ⟨w, rfl, h.acyclic, h.resolves⟩
      | succ k =>
        obtain ⟨w', hst, hw'⟩ := h.step hc
        rw [take_succ_cons, run_cons, hst]
        exact (ih hw').1 (hr w' hst) k
    · intro hall
      have hc : ¬w.Closes c := by
        intro hc
        obtain ⟨w', hst, hcy⟩ := h.cyclic_step hc
        obtain ⟨w'', hrun, hac, -⟩ := hall 1
        rw [take_succ_cons, run_cons, hst] at hrun
        cases hrun
        exact hcy hac
      obtain ⟨w', hst, hw'⟩ := h.step hc
      refine ⟨hc, fun w₁ hw₁ => ?_⟩
      cases (hst.symm.trans hw₁)
      refine (ih hw').2 fun k => ?_
      obtain ⟨w'', hrun, hr⟩ := hall (k + 1)
      rw [take_succ_cons, run_cons, hst] at hrun
      exact ⟨w'', hrun, hr⟩

end

/-- A run keeps the replacements acyclic, and every call of it and every `resolve` return, exactly
when no step of it forwards a retired pin to what ends in it. -/
theorem forwarding_ends_iff (calls : List Call) :
    Guarded empty calls ↔ ∀ k, ∃ w, empty.run (calls.take k) = some w ∧ w.Acyclic ∧ w.Resolves :=
  Wired.empty.guarded_iff calls

/-- Forwarding 0 to 1, retiring 1, and forwarding it back. -/
def retiredLoop : List Call := [.reference 0, .forward 0 1, .retire 1, .forward 1 0]

/-- The call that forwards a retired pin closes a cycle, on which the loop of `resolve` never
ends. -/
theorem retiredLoop_cyclic : ∃ w, empty.run retiredLoop = some w ∧ ¬w.Acyclic ∧
    ∀ fuel, chase w.replacement fuel 0 = none := by
  refine ⟨(empty.run retiredLoop).get rfl, rfl, fun h => ?_, resolve_eq_none rfl⟩
  exact h 0 (.head (b := 1) rfl (.single rfl))

end Wiring

end LiveHD.Cprop
