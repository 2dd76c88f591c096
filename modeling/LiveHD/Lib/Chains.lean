import Mathlib

/-!
# Chains of a partial function

The chain of `a` follows `next` until it is undefined.  When every chain ends, a shortcut to the end
of a chain changes no end, and a link to an element whose own chain is short closes no cycle unless
that chain ends at the source of the link.
-/

namespace LiveHD.Chains

open Relation Function List

variable {α : Type*} {next next' : α → Option α} {a b e f : α}

/-- The chain of `a` ends at `e`. -/
inductive Ends (next : α → Option α) : α → α → Prop
  | stop {a : α} (h : next a = none) : Ends next a a
  | step {a b e : α} (h : next a = some b) (hb : Ends next b e) : Ends next a e

variable (next) in
/-- Every chain ends. -/
def Total : Prop := ∀ a, ∃ e, Ends next a e

namespace Ends

lemma eq_none (h : Ends next a e) : next e = none := by
  induction h with
  | stop h => exact h
  | step _ _ ih => exact ih

lemma unique (he : Ends next a e) (hf : Ends next a f) : e = f := by
  induction he with
  | stop h =>
    cases hf with
    | stop _ => rfl
    | step h' _ => rw [h] at h'; cases h'
  | step h _ ih =>
    cases hf with
    | stop h' => rw [h] at h'; cases h'
    | step h' hb =>
      rw [h] at h'
      exact ih (Option.some.inj h' ▸ hb)

lemma eq_of_none (h : Ends next a e) (ha : next a = none) : a = e := unique (.stop ha) h

lemma iff_reflTransGen : Ends next a e ↔
    ReflTransGen (fun a b => next a = some b) a e ∧ next e = none := by
  constructor
  · intro h
    refine ⟨?_, h.eq_none⟩
    induction h with
    | stop _ => exact .refl
    | step h _ ih => exact .head h ih
  · rintro ⟨h, he⟩
    induction h using ReflTransGen.head_induction_on with
    | refl => exact .stop he
    | head h _ ih => exact .step h ih

end Ends

/-- A chain that ends has no cycle. -/
lemma Ends.irrefl (h : Ends next a e) : ¬TransGen (fun a b => next a = some b) a a := by
  have hlo : ∀ b, TransGen (fun a b => next a = some b) a b →
      TransGen (fun a b => next a = some b) b a → False := by
    induction h with
    | stop ha =>
      intro b hab _
      obtain ⟨c, hc, -⟩ := TransGen.head'_iff.1 hab
      rw [ha] at hc
      cases hc
    | step ha _ ih =>
      intro b hab hba
      obtain ⟨c, hc, hcb⟩ := TransGen.head'_iff.1 hab
      cases (ha.symm.trans hc)
      have hba' := hba.tail hc
      exact ih _ (hba'.trans_right hcb) (hba'.trans_right hcb)
  exact fun haa => hlo a haa haa

lemma Total.irrefl (h : Total next) (a : α) : ¬TransGen (fun a b => next a = some b) a a := by
  obtain ⟨e, hae⟩ := h a
  exact hae.irrefl

/-- Shortcuts to the ends of the chains. -/
lemma Ends.shortcut (hn : ∀ a, next' a = next a ∨ ∃ e, next a ≠ none ∧
    Ends next a e ∧ next' a = some e)
    (h : Ends next a e) : Ends next' a e := by
  have hno : ∀ {e}, next e = none → next' e = none := by
    intro e he
    rcases hn e with heq | ⟨f, hne, -⟩
    · exact heq.trans he
    · exact absurd he hne
  induction h with
  | stop h => exact .stop (hno h)
  | @step a b e h hb ih =>
    rcases hn a with heq | ⟨f, -, hf, heq⟩
    · exact .step (heq.trans h) ih
    · obtain rfl := hf.unique (.step h hb)
      exact .step heq (.stop (hno hf.eq_none))

variable (next) in
/-- The chain of `b` has one link at most. -/
def Short (b e : α) : Prop := next e = none ∧ (b = e ∨ next b = some e)

lemma Total.update [DecidableEq α] (h : Total next) (hb : Short next b e)
    (hab : a ≠ b) (hae : a ≠ e) :
    Total (Function.update next a (some b)) := by
  have hn : ∀ {x}, x ≠ a → Function.update next a (some b) x = next x := fun hx =>
    update_of_ne hx _ _
  have he : Ends (Function.update next a (some b)) e e := .stop ((hn hae.symm).trans hb.1)
  have ha : Ends (Function.update next a (some b)) a e := by
    refine .step (update_self ..) ?_
    rcases hb.2 with rfl | hbe
    · exact he
    · exact .step ((hn hab.symm).trans hbe) he
  intro x
  obtain ⟨f, hxf⟩ := h x
  induction hxf with
  | @stop x hx =>
    by_cases hxa : x = a
    · exact ⟨e, hxa ▸ ha⟩
    · exact ⟨x, .stop ((hn hxa).trans hx)⟩
  | @step x y f hx _ ih =>
    by_cases hxa : x = a
    · exact ⟨e, hxa ▸ ha⟩
    · obtain ⟨f, hf⟩ := ih
      exact ⟨f, .step ((hn hxa).trans hx) hf⟩

/-- A link from the end of a chain to its start closes a cycle. -/
lemma Ends.cycle [DecidableEq α] (h : Ends next b a) :
    TransGen (fun x y => Function.update next a (some b) x = some y) a a := by
  have hli : Function.update next a (some b) a = some b := update_self ..
  obtain ⟨hp, ha⟩ := Ends.iff_reflTransGen.1 h
  refine .head' hli (.mono (fun x y hxy => ?_) _ _ hp)
  refine (update_of_ne ?_ _ _).trans hxy
  rintro rfl
  rw [ha] at hxy
  cases hxy

/-! ## Following a chain -/

variable (next) in
/-- The links of the chain of `a` and its end, within `fuel` steps. -/
def chase : ℕ → α → Option (List α × α)
  | 0, _ => none
  | fuel + 1, a =>
    match next a with
    | none => some ([], a)
    | some b => (chase fuel b).map fun p => (a :: p.1, p.2)

lemma ends_of_chase {fuel : ℕ} {path : List α} (h : chase next fuel a = some (path, e)) :
    Ends next a e ∧ ∀ x ∈ path, next x ≠ none ∧ Ends next x e := by
  induction fuel generalizing a path with
  | zero => cases h
  | succ fuel ih =>
    rw [chase] at h
    cases hn : next a with
    | none =>
      rw [hn] at h
      cases h
      exact ⟨.stop hn, nofun⟩
    | some b =>
      rw [hn, Option.map_eq_some_iff] at h
      obtain ⟨⟨rest, f⟩, hr, heq⟩ := h
      cases heq
      obtain ⟨hb, hmem⟩ := ih hr
      refine ⟨.step hn hb, fun x hx => ?_⟩
      rcases mem_cons.1 hx with rfl | hx
      · exact ⟨by rw [hn]; exact Option.some_ne_none b, .step hn hb⟩
      · exact hmem x hx

/-- The links of a chain that ends are different. -/
lemma Ends.exists_chase (h : Ends next a e) :
    ∃ path, path.Nodup ∧ (∀ x ∈ path, next x ≠ none ∧
      ReflTransGen (fun a b => next a = some b) a x) ∧
      ∀ fuel, path.length < fuel → chase next fuel a = some (path, e) := by
  induction h with
  | @stop a ha =>
    refine ⟨[], nodup_nil, nofun, fun fuel hfu => ?_⟩
    obtain ⟨fuel, rfl⟩ := Nat.exists_eq_succ_of_ne_zero (Nat.ne_of_gt hfu)
    rw [chase, ha]
  | @step a b e ha hb ih =>
    obtain ⟨path, hnd, hmem, hch⟩ := ih
    refine ⟨a :: path, nodup_cons.2 ⟨fun hin => ?_, hnd⟩, fun x hx => ?_, fun fuel hfu => ?_⟩
    · exact (Ends.step ha hb).irrefl (.head' ha (hmem a hin).2)
    · rcases mem_cons.1 hx with rfl | hx
      · exact ⟨by rw [ha]; exact Option.some_ne_none b, .refl⟩
      · exact ⟨(hmem x hx).1, .head ha (hmem x hx).2⟩
    · obtain ⟨fuel, rfl⟩ := Nat.exists_eq_succ_of_ne_zero (Nat.ne_of_gt (Nat.zero_lt_of_lt hfu))
      rw [chase, ha]
      change (chase next fuel b).map _ = _
      rw [hch fuel (Nat.lt_of_succ_lt_succ hfu)]
      rfl

/-- As many steps as there are links suffice. -/
lemma Ends.chase_eq (h : Ends next a e) {s : List α} (hs : ∀ x, next x ≠ none → x ∈ s) :
    ∃ path, chase next (s.length + 1) a = some (path, e) := by
  obtain ⟨path, hnd, hmem, hch⟩ := h.exists_chase
  exact ⟨path, hch _ (Nat.lt_succ_of_le (hnd.subperm fun x hx => hs x (hmem x hx).1).length_le)⟩

end LiveHD.Chains
