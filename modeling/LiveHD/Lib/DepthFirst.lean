import Mathlib

/-!
# Depth-first search with an explicit stack

A search from a root over a relation `R`, "reads".  An entered node leaves an exit frame under one
entry frame for each node that it reads.  The exit frames are a path from the root, so that a node
which is entered twice lies on a cycle, and a node is left when all that it reads has been.
-/

namespace LiveHD

open Relation Function List

inductive Visit where
  | white | gray | black
deriving DecidableEq

/-- An entry of the stack. -/
structure Frame (α : Type) where
  id : α
  exit : Bool
deriving DecidableEq

variable {α : Type} (R : α → α → Prop)

/-- A cycle that can be reached from a root. -/
def ReachesCycle (root : α) : Prop := ∃ a, ReflTransGen R root a ∧ TransGen R a a

/-- Each frame is read by the node of the next exit frame under it; the last ones are for the
root. -/
def Linked (root : α) : List (Frame α) → Prop
  | [] => True
  | f :: rest => (match rest.find? Frame.exit with
    | some p => R p.id f.id
    | none => f.id = root) ∧ Linked root rest

/-- What the node of an exit frame reads is in `D` or has a frame above. -/
def Covered (D : α → Prop) : List (Frame α) → Prop
  | [] => True
  | f :: rest => (f.exit = true → ∀ b, R f.id b → D b) ∧ Covered (fun b => D b ∨ b = f.id) rest

structure Explores (root : α) (visit : α → Visit) (stack : List (Frame α)) : Prop where
  linked : Linked R root stack
  gray : ∀ a, visit a = .gray → ⟨a, true⟩ ∈ stack
  covered : Covered R (visit · = .black) stack
  closed : ∀ a, visit a = .black → Acc (fun b a => R a b) a
  seen : visit root ≠ .white ∨ ∃ f ∈ stack, f.id = root

variable {R} {root : α} {visit : α → Visit} {stack rest : List (Frame α)} {f : Frame α}

lemma not_reachesCycle_of_acc (h : Acc (fun b a => R a b) root) : ¬ReachesCycle R root := by
  have hir : ∀ a, Acc (TransGen fun b a => R a b) a → ¬TransGen (fun b a => R a b) a a := by
    intro a ha
    induction ha with
    | intro b _ ih => exact fun hb => ih b hb hb
  rintro ⟨a, hra, haa⟩
  have ha : Acc (fun b a => R a b) a := by
    clear haa
    induction hra with
    | refl => exact h
    | tail _ hbc ih => exact ih.inv hbc
  exact hir a ha.transGen (transGen_swap.2 haa)

namespace Linked

lemma drop_entry {g : Frame α} (h : Linked R root (f :: g :: rest)) (hg : g.exit = false) :
    Linked R root (f :: rest) := by
  have hhe := h.1
  rw [find?_cons_of_neg (by rw [hg]; exact Bool.false_ne_true)] at hhe
  exact ⟨hhe, h.2.2⟩

lemma parent {g : Frame α} (h : Linked R root (f :: g :: rest))
    (hg : g.exit = true) : R g.id f.id := by
  have hhe := h.1
  rwa [find?_cons_of_pos hg] at hhe

/-- The node of an exit frame reaches the top of the stack. -/
lemma transGen (h : Linked R root (f :: rest)) {g : Frame α} (hg : g ∈ rest)
    (hexi : g.exit = true) : TransGen R g.id f.id := by
  induction rest generalizing f with
  | nil => nomatch hg
  | cons k rest ih =>
    cases hk : k.exit with
    | false =>
      refine ih (h.drop_entry hk) ((mem_cons.1 hg).resolve_left ?_)
      rintro rfl
      rw [hexi] at hk
      cases hk
    | true =>
      rcases mem_cons.1 hg with rfl | hg
      · exact .single (h.parent hk)
      · exact (ih h.2 hg).tail (h.parent hk)

lemma reflTransGen (h : Linked R root (f :: rest)) : ReflTransGen R root f.id := by
  induction rest generalizing f with
  | nil =>
    obtain rfl : f.id = root := h.1
    exact .refl
  | cons k rest ih =>
    cases hk : k.exit with
    | false => exact ih (h.drop_entry hk)
    | true => exact (ih h.2).tail (h.parent hk)

/-- Entry frames for what the node of an exit frame reads. -/
lemma entries {a : α} (h : Linked R root (⟨a, true⟩ :: rest)) (l : List α) (hl : ∀ b ∈ l, R a b) :
    Linked R root (l.map (⟨·, false⟩) ++ ⟨a, true⟩ :: rest) := by
  have hfi : ∀ l : List α, (l.map (⟨·, false⟩) ++ ⟨a, true⟩ :: rest : List (Frame α)).find?
      Frame.exit = some ⟨a, true⟩ := by
    intro l
    induction l with
    | nil => rfl
    | cons b l ih => exact ih
  induction l with
  | nil => exact h
  | cons b l ih =>
    refine ⟨?_, ih fun c hc => hl c (.tail _ hc)⟩
    change match (l.map (⟨·, false⟩) ++ ⟨a, true⟩ :: rest : List (Frame α)).find? Frame.exit with
      | some p => R p.id b
      | none => b = root
    rw [hfi l]
    exact hl b (.head _)

end Linked

namespace Covered

variable {D D' : α → Prop}

lemma mono (h : Covered R D stack) (hD : ∀ b, D b → D' b) : Covered R D' stack := by
  induction stack generalizing D D' with
  | nil => trivial
  | cons f rest ih =>
    exact ⟨fun hexi b hb => hD b (h.1 hexi b hb), ih h.2 fun b => .imp_left (hD b)⟩

/-- A frame whose node is done is taken off. -/
lemma pop (h : Covered R D (f :: rest)) (hf : D f.id) : Covered R D rest :=
  h.2.mono fun _ hb => hb.elim (fun hb => hb) fun heq => heq ▸ hf

lemma entries (l : List α) (h : Covered R (fun b => D b ∨ b ∈ l) stack) :
    Covered R D (l.map (⟨·, false⟩) ++ stack) := by
  induction l generalizing D with
  | nil => exact h.mono fun b hb => hb.resolve_right not_mem_nil
  | cons a l ih =>
    refine ⟨nofun, ih (h.mono fun b hb => ?_)⟩
    rwa [mem_cons, ← or_assoc] at hb

end Covered

namespace Explores

/-- A search from a root, where every node that was entered has been left. -/
lemma start (hgr : ∀ a, visit a ≠ .gray)
    (hcl : ∀ a, visit a = .black → Acc (fun b a => R a b) a) (root : α) :
    Explores R root visit [⟨root, false⟩] where
  linked := ⟨rfl, trivial⟩
  gray a ha := absurd ha (hgr a)
  covered := ⟨nofun, trivial⟩
  closed := hcl
  seen := .inr ⟨_, .head _, rfl⟩

lemma not_gray (h : Explores R root visit [])
    (a : α) : visit a ≠ .gray := fun ha => nomatch h.gray a ha

lemma root_black (h : Explores R root visit []) : visit root = .black := by
  cases hr : visit root with
  | white =>
    obtain ⟨f, hf, -⟩ := h.seen.resolve_left fun hne => hne hr
    nomatch hf
  | gray => exact absurd hr (h.not_gray root)
  | black => rfl

/-- A frame whose node was left. -/
lemma skip (h : Explores R root visit (f :: rest)) (hf : visit f.id = .black) :
    Explores R root visit rest where
  linked := h.linked.2
  gray a ha := by
    refine (mem_cons.1 (h.gray a ha)).resolve_left ?_
    rintro rfl
    rw [ha] at hf
    cases hf
  covered := h.covered.pop hf
  closed := h.closed
  seen := by
    refine h.seen.elim Or.inl ?_
    rintro ⟨g, hg, rfl⟩
    rcases mem_cons.1 hg with rfl | hg
    · exact .inl fun hwh => by rw [hwh] at hf; cases hf
    · exact .inr ⟨g, hg, rfl⟩

/-- What a node reads has been left when its exit frame is on top. -/
lemma black_of_reads {a b : α} (h : Explores R root visit (⟨a, true⟩ :: rest))
    (hb : R a b) : visit b = .black :=
  h.covered.1 rfl b hb

lemma cycle {a : α} (h : Explores R root visit (⟨a, false⟩ :: rest)) (ha : visit a = .gray) :
    ReachesCycle R root := by
  have hmem : ⟨a, true⟩ ∈ rest := by
    refine (mem_cons.1 (h.gray a ha)).resolve_left fun heq => ?_
    cases (congrArg Frame.exit heq)
  exact ⟨a, h.linked.reflTransGen, h.linked.transGen hmem rfl⟩

variable [DecidableEq α]

/-- A node is left. -/
lemma finish {a : α} (h : Explores R root visit (⟨a, true⟩ :: rest)) :
    Explores R root (Function.update visit a .black) rest where
  linked := h.linked.2
  gray b hb := by
    rcases eq_or_ne b a with rfl | hne
    · rw [update_self] at hb
      cases hb
    · rw [update_of_ne hne] at hb
      refine (mem_cons.1 (h.gray b hb)).resolve_left fun heq => hne ?_
      exact congrArg Frame.id heq
  covered := by
    refine (h.covered.mono fun b hb => ?_).pop (update_self ..)
    rcases eq_or_ne b a with rfl | hne
    · exact update_self ..
    · rwa [update_of_ne hne]
  closed b hb := by
    rcases eq_or_ne b a with rfl | hne
    · exact .intro b fun c hc => h.closed c (h.black_of_reads hc)
    · rw [update_of_ne hne] at hb
      exact h.closed b hb
  seen := by
    rcases eq_or_ne root a with rfl | hne
    · exact .inl (by rw [update_self]; exact Visit.noConfusion)
    · rw [update_of_ne hne]
      refine h.seen.imp_right ?_
      rintro ⟨g, hg, rfl⟩
      refine ⟨g, (mem_cons.1 hg).resolve_left fun heq => hne (congrArg Frame.id heq), rfl⟩

/-- A node is entered. -/
lemma enter {a : α} (h : Explores R root visit (⟨a, false⟩ :: rest)) (ha : visit a = .white)
    {l : List α} (hl : ∀ b, R a b ↔ b ∈ l) :
    Explores R root (Function.update visit a .gray) (l.map (⟨·, false⟩) ++ ⟨a, true⟩ :: rest) where
  linked := .entries (show Linked R root (⟨a, true⟩ :: rest) from h.linked) l fun b hb =>
    (hl b).2 hb
  gray b hb := by
    refine mem_append_right _ ?_
    rcases eq_or_ne b a with rfl | hne
    · exact .head _
    · rw [update_of_ne hne] at hb
      refine .tail _ ((mem_cons.1 (h.gray b hb)).resolve_left fun heq => ?_)
      cases (congrArg Frame.exit heq)
  covered := by
    refine .entries l ⟨fun _ b hb => .inr ((hl b).1 hb), h.covered.2.mono fun b hb => ?_⟩
    refine hb.imp_left fun (hbl : visit b = .black) => .inl ?_
    rcases eq_or_ne b a with rfl | hne
    · rw [ha] at hbl
      cases hbl
    · rwa [update_of_ne hne]
  closed b hb := by
    rcases eq_or_ne b a with rfl | hne
    · rw [update_self] at hb
      cases hb
    · rw [update_of_ne hne] at hb
      exact h.closed b hb
  seen := by
    rcases eq_or_ne root a with rfl | hne
    · exact .inl (by rw [update_self]; exact Visit.noConfusion)
    · rw [update_of_ne hne]
      refine h.seen.imp_right ?_
      rintro ⟨g, hg, rfl⟩
      refine ⟨g, mem_append_right _ (.tail _ ((mem_cons.1 hg).resolve_left fun heq => ?_)), rfl⟩
      exact hne (congrArg Frame.id heq)

end Explores

end LiveHD
