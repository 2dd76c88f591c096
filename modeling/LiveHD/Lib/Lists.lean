import Mathlib

/-!
# Lists

The members of two lists related element by element, and lists as tables with a default.
-/

namespace List.Forall₂

variable {α β : Type*} {R : α → β → Prop} {l : List α} {m : List β}

section

variable (h : Forall₂ R l m)
include h

lemma exists_of_mem_left {a : α} (ha : a ∈ l) : ∃ b ∈ m, R a b := by
  induction h with
  | nil => cases ha
  | cons hab _ ih =>
    rcases mem_cons.1 ha with rfl | ha
    · exact ⟨_, .head _, hab⟩
    · obtain ⟨b, hb, hab⟩ := ih ha
      exact ⟨b, .tail _ hb, hab⟩

lemma exists_of_mem_right {b : β} (hb : b ∈ m) : ∃ a ∈ l, R a b := by
  obtain ⟨a, ha, hab⟩ := h.flip.exists_of_mem_left hb
  exact ⟨a, ha, hab⟩

lemma map_eq_map {γ : Type*} {f : α → γ} {g : β → γ}
    (hR : ∀ a ∈ l, ∀ b, R a b → f a = g b) : l.map f = m.map g := by
  induction h with
  | nil => rfl
  | cons hab _ ih => rw [map_cons, map_cons, hR _ (.head _) _ hab, ih fun a ha => hR a (.tail _ ha)]

/-- Lists that match one list match each other. -/
lemma join {γ : Type*} {S : γ → β → Prop} {n : List γ} (h' : Forall₂ S n m) :
    Forall₂ (fun a c => ∃ b, R a b ∧ S c b) l n := by
  induction h generalizing n with
  | nil =>
    cases h'
    exact .nil
  | cons hab _ ih =>
    cases h' with
    | cons hcb ht => exact .cons ⟨_, hab, hcb⟩ (ih ht)

lemma imp_of_mem {S : α → β → Prop} (hRS : ∀ a ∈ l, ∀ b, R a b → S a b) : Forall₂ S l m := by
  induction h with
  | nil => exact .nil
  | cons hab _ ih => exact .cons (hRS _ (.head _) _ hab) (ih fun a ha => hRS a (.tail _ ha))

lemma getElem? (i : ℕ) : Option.Rel R l[i]? m[i]? := by
  induction h generalizing i with
  | nil => exact .none
  | cons hab _ ih =>
    cases i with
    | zero => exact .some hab
    | succ i => exact ih i

/-- One element changes on both sides, and the others keep what they are. -/
lemma modify {S : α → β → Prop} {f : α → α} {g : β → β} {i : ℕ}
    (hi : ∀ a b, l[i]? = some a → R a b → S (f a) (g b))
    (hS : ∀ a ∈ l.eraseIdx i, ∀ b, R a b → S a b) :
    Forall₂ S (l.modify i f) (m.modify i g) := by
  induction h generalizing i with
  | nil =>
    rw [modify_nil, modify_nil]
    exact .nil
  | cons hab ht ih =>
    cases i with
    | zero => exact .cons (hi _ _ rfl hab) (ht.imp_of_mem hS)
    | succ i => exact .cons (hS _ (.head _) _ hab) (ih hi fun a ha => hS a (.tail _ ha))

lemma eraseIdx (i : ℕ) : Forall₂ R (l.eraseIdx i) (m.eraseIdx i) := by
  induction h generalizing i with
  | nil => exact .nil
  | cons hab ht ih =>
    cases i with
    | zero => exact ht
    | succ i => exact .cons hab (ih i)

end

end List.Forall₂

namespace List

variable {α β : Type*}

lemma modify_append_length (pre : List α) (x : α) (post : List α) (f : α → α) :
    (pre ++ x :: post).modify pre.length f = pre ++ f x :: post := by
  induction pre with
  | nil => rfl
  | cons y pre ih => rw [cons_append, length_cons, modify_succ_cons, ih, cons_append]

lemma getElem?_append_of_eq_some {l : List α} {i : ℕ} {x : α} (h : l[i]? = some x) (m : List α) :
    (l ++ m)[i]? = some x := by
  obtain ⟨hlt, -⟩ := getElem?_eq_some_iff.1 h
  rw [getElem?_append_left hlt, h]

/-- What a map with failures returns. -/
lemma forall₂_of_mapM_eq_some {f : α → Option β} {l : List α} {m : List β} (h : l.mapM f = some m) :
    Forall₂ (fun a b => f a = some b) l m := by
  induction l generalizing m with
  | nil =>
    cases h
    exact .nil
  | cons a l ih =>
    rw [mapM_cons] at h
    obtain ⟨b, hb, h⟩ := Option.bind_eq_some_iff.1 h
    obtain ⟨m', hm', h⟩ := Option.bind_eq_some_iff.1 h
    cases h
    exact .cons hb (ih hm')

lemma isSome_mapM_iff {f : α → Option β} {l : List α} : (l.mapM f).isSome = true ↔
    ∀ a ∈ l, (f a).isSome = true := by
  induction l with
  | nil => exact iff_of_true rfl nofun
  | cons a l ih =>
    rw [mapM_cons, forall_mem_cons, ← ih]
    cases f a with
    | none => exact iff_of_false Bool.false_ne_true fun h => Bool.false_ne_true h.1
    | some b =>
      cases l.mapM f with
      | none => exact iff_of_false Bool.false_ne_true fun h => Bool.false_ne_true h.2
      | some m => exact iff_of_true rfl ⟨rfl, rfl⟩

lemma forall₂_of_mapM_eq_ok {ε : Type*} {f : α → Except ε β} {l : List α} {m : List β}
    (h : l.mapM f = .ok m) :
    Forall₂ (fun a b => f a = .ok b) l m := by
  induction l generalizing m with
  | nil =>
    cases h
    exact .nil
  | cons a l ih =>
    rw [mapM_cons] at h
    cases ha : f a with
    | error e =>
      rw [ha] at h
      cases h
    | ok b =>
      rw [ha] at h
      cases hl : l.mapM f with
      | error e =>
        rw [hl] at h
        cases h
      | ok m' =>
        rw [hl] at h
        cases h
        exact .cons ha (ih hl)

lemma modify_congr {f g : α → α} {l : List α} {i : ℕ} (h : ∀ a, l[i]? = some a → f a = g a) :
    l.modify i f = l.modify i g := by
  induction l generalizing i with
  | nil => rw [modify_nil, modify_nil]
  | cons a l ih =>
    cases i with
    | zero => exact congrArg (· :: l) (h a rfl)
    | succ i => exact congrArg (a :: ·) (ih h)

/-- Pieces of equal lengths that join to one list are equal. -/
lemma forall₂_of_flatMap_eq {γ : Type*} {F : α → List γ} {G : β → List γ} {l : List α} {m : List β}
    (h : Forall₂ (fun a b => (F a).length = (G b).length) l m) (heq : l.flatMap F = m.flatMap G) :
    Forall₂ (fun a b => F a = G b) l m := by
  induction h with
  | nil => exact .nil
  | cons hlen _ ih =>
    obtain ⟨hhe, ht⟩ := append_inj heq hlen
    exact .cons hhe (ih ht)

/-! ## Cutting at a mark -/

section

variable {l l' r r' : List α} {c : α}

/-- A list is cut in one way at the first of its marks. -/
lemma append_cons_inj_of_notMem_left (h : c ∉ l) (h' : c ∉ l') :
    l ++ c :: r = l' ++ c :: r' ↔ l = l' ∧ r = r' := by
  constructor
  · intro heq
    induction l generalizing l' with
    | nil =>
      cases l' with
      | nil => exact ⟨rfl, (cons.inj heq).2⟩
      | cons b l' =>
        cases heq
        exact absurd (.head _) h'
    | cons a l ih =>
      cases l' with
      | nil =>
        cases heq
        exact absurd (.head _) h
      | cons b l' =>
        obtain ⟨rfl, ht⟩ := cons.inj heq
        obtain ⟨rfl, rfl⟩ := ih (fun hc => h (.tail _ hc)) (fun hc => h' (.tail _ hc)) ht
        exact ⟨rfl, rfl⟩
  · rintro ⟨rfl, rfl⟩
    rfl

/-- A list is cut in one way at the last of its marks. -/
lemma append_cons_inj_of_notMem_right (h : c ∉ r) (h' : c ∉ r') :
    l ++ c :: r = l' ++ c :: r' ↔ l = l' ∧ r = r' := by
  rw [← reverse_inj, reverse_append, reverse_append, reverse_cons, reverse_cons, append_assoc,
    append_assoc, singleton_append,
    singleton_append, append_cons_inj_of_notMem_left (by rwa [mem_reverse]) (by rwa [mem_reverse]),
      reverse_inj, reverse_inj]
  exact and_comm

/-- What follows a mark, or nothing, is cut off in one way. -/
lemma append_inj_of_notMem (h : c ∉ l) (h' : c ∉ l') (hr : ∀ a ∈ r.head?, a = c)
    (hr' : ∀ a ∈ r'.head?, a = c) (heq : l ++ r = l' ++ r') : l = l' ∧ r = r' := by
  cases r with
  | nil =>
    cases r' with
    | nil => exact ⟨by rwa [append_nil, append_nil] at heq, rfl⟩
    | cons b r' =>
      obtain rfl := hr' b rfl
      rw [append_nil] at heq
      exact absurd (heq ▸ mem_append_right _ (.head _)) h
  | cons a r =>
    obtain rfl := hr a rfl
    cases r' with
    | nil =>
      rw [append_nil] at heq
      exact absurd (heq ▸ mem_append_right _ (.head _)) h'
    | cons b r' =>
      obtain rfl := hr' b rfl
      obtain ⟨rfl, rfl⟩ := (append_cons_inj_of_notMem_left h h').1 heq
      exact ⟨rfl, rfl⟩

end

/-! ## Tables with a default -/

lemma lt_length_of_getD {l : List α} {i : ℕ} {d : α} (h : l.getD i d ≠ d) : i < l.length := by
  by_contra hge
  exact h (getD_eq_default l d (Nat.le_of_not_lt hge))

lemma getD_set {l : List α} {i : ℕ} (hi : i < l.length) (a d : α) :
    ((l.set i a).getD · d) = Function.update (l.getD · d) i a := by
  funext j
  rcases eq_or_ne j i with rfl | hne
  · rw [Function.update_self, getD_eq_getElem?_getD, getElem?_set_self hi, Option.getD_some]
  · rw [Function.update_of_ne hne, getD_eq_getElem?_getD,
      getElem?_set_ne hne.symm, getD_eq_getElem?_getD]

/-- An entry that was counted is counted no more. -/
lemma countP_set_of_getD {p : α → Bool} {l : List α} {i : ℕ} {d a : α} (hd : p d = false)
    (hi : p (l.getD i d) = true)
    (ha : p a = false) : (l.set i a).countP p + 1 = l.countP p := by
  have hlt : i < l.length := lt_length_of_getD fun heq => by
    rw [heq, hd] at hi
    cases hi
  have hpos := countP_pos_iff.2 ⟨_, getElem_mem hlt, by rwa [getD_eq_getElem _ _ hlt] at hi⟩
  rw [getD_eq_getElem _ _ hlt] at hi
  rw [countP_set hlt, hi, ha, if_pos rfl, if_neg Bool.false_ne_true]
  omega

lemma countP_set_le {p : α → Bool} {a : α} (ha : p a = false) (l : List α) (i : ℕ) :
    (l.set i a).countP p ≤ l.countP p := by
  induction l generalizing i with
  | nil => exact Nat.le_refl _
  | cons b l ih =>
    cases i with
    | zero =>
      rw [set_cons_zero, countP_cons_of_neg (by rw [ha]; exact Bool.false_ne_true)]
      exact (sublist_cons_self b l).countP_le
    | succ i =>
      rw [set_cons_succ, countP_cons, countP_cons]
      exact Nat.add_le_add_right (ih i) _

/-- An entry that was not counted is counted. -/
lemma countP_set_of_pos {p : α → Bool} {l : List α} {i : ℕ} {d a : α} (hlt : i < l.length)
    (hi : p (l.getD i d) = false)
    (ha : p a = true) : (l.set i a).countP p = l.countP p + 1 := by
  rw [getD_eq_getElem _ _ hlt] at hi
  rw [countP_set hlt, hi, ha, if_pos rfl, if_neg Bool.false_ne_true, Nat.sub_zero]

section

variable {κ : Type*} [BEq κ] [LawfulBEq κ]

lemma find?_map_eq_some {f : α → κ} {l : List α} (h : (l.map f).Nodup) {k : κ} {e : α} :
    l.find? (f · == k) = some e ↔ e ∈ l ∧ f e = k := by
  induction l with
  | nil => exact iff_of_false nofun fun h => not_mem_nil h.1
  | cons a l ih =>
    obtain ⟨hnot, hl⟩ := nodup_cons.1 h
    rcases ha : f a == k with - | -
    rotate_left
    · rw [find?_cons, ha]
      have ha := beq_iff_eq.1 ha
      constructor
      · intro h
        cases h
        exact ⟨.head _, ha⟩
      · rintro ⟨he, hk⟩
        rcases mem_cons.1 he with rfl | he
        · rfl
        · exact absurd (mem_map.2 ⟨e, he, hk.trans ha.symm⟩) hnot
    · rw [find?_cons, ha, ih hl, mem_cons]
      have ha := beq_eq_false_iff_ne.1 ha
      constructor
      · exact fun h => ⟨.inr h.1, h.2⟩
      · rintro ⟨rfl | he, hk⟩
        · exact absurd hk ha
        · exact ⟨he, hk⟩

variable {l m : List (κ × α)}

lemma find?_key_eq_some (h : (l.map (·.1)).Nodup) {k : κ} {e : κ × α} :
    l.find? (·.1 == k) = some e ↔ e ∈ l ∧ e.1 = k :=
  find?_map_eq_some h

/-- Distinct keys are found whatever the order. -/
lemma Perm.find?_key (hp : l.Perm m) (h : (l.map (·.1)).Nodup) (k : κ) :
    l.find? (·.1 == k) = m.find? (·.1 == k) := by
  refine Option.ext fun e => ?_
  rw [find?_key_eq_some h, find?_key_eq_some ((hp.map _).nodup_iff.1 h), hp.mem_iff]

end

/-- A list is what no part of it holds and the parts, when the parts share nothing. -/
lemma perm_filter_append_flatMap {κ : Type*} {P : κ → α → Bool} {ks : List κ} {l : List α}
    (h : ks.Pairwise fun k k' => ∀ a ∈ l, P k a = true → P k' a = false) :
    ((l.filter fun a => ks.all fun k => !P k a) ++ ks.flatMap fun k => l.filter (P k)).Perm l := by
  induction ks generalizing l with
  | nil => simp
  | cons k ks ih =>
    obtain ⟨hk, hks⟩ := pairwise_cons.1 h
    have hr := ih (l := l.filter fun a => !P k a)
      (hks.imp fun hkk' a ha => hkk' a (mem_filter.1 ha).1)
    have hpa : (ks.flatMap fun k' => (l.filter fun a => !P k a).filter (P k')) =
        ks.flatMap fun k' => l.filter (P k') := by
      refine congrArg _ (map_congr_left fun k' hk' => ?_)
      rw [filter_filter]
      refine filter_congr fun a ha => ?_
      cases hP : P k a with
      | false => simp
      | true => rw [hk k' hk' a ha hP]; rfl
    have hno : ((l.filter fun a => !P k a).filter fun a => ks.all fun k => !P k a) =
        l.filter fun a => (k :: ks).all fun k => !P k a := by
      rw [filter_filter]
      refine filter_congr fun a _ => ?_
      rw [all_cons, Bool.and_comm]
    rw [hpa, hno] at hr
    rw [flatMap_cons]
    calc
      _ ~ l.filter (P k) ++ ((l.filter fun a => (k :: ks).all fun k => !P k a) ++
          ks.flatMap fun k' => l.filter (P k')) := by
        rw [← append_assoc, ← append_assoc]
        exact perm_append_comm.append_right _
      _ ~ l.filter (P k) ++ l.filter fun a => !P k a := hr.append_left _
      _ ~ l := filter_append_perm _ _

end List
