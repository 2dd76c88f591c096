import LiveHD.Core.BusName

/-!
# Registers that were packed under another name

`core/state_match.hpp`: the wide registers of the reference that the bit registers of an
implementation may hold, a register each, when nothing else fits either of them.
-/

namespace LiveHD.StateMatch

open BusName List

structure RegisterName where
  key : Name
  name : Name
  width : ℕ
deriving DecidableEq

/-- A wide register and the keys of its bits; an eliminated bit has the empty key. -/
structure RegisterProjection where
  wideKey : Name
  bitKeys : List Name

structure Group where
  bits : List (ℕ × Name) := []
  valid : Bool := true

def Group.add (g : Group) (index : ℕ) (r : RegisterName) : Group :=
  if (r.width = 1 ∧ index < 2147483647) ∧ index ∉ g.bits.map Prod.fst then
    { g with bits := g.bits ++ [(index, r.key)] }
  else { g with valid := false }

def Group.extent (g : Group) : ℕ := (g.bits.map fun b => b.1 + 1).foldr max 0

def Group.projection (g : Group) (wide : RegisterName) : RegisterProjection :=
  ⟨wide.key, g.bits.foldl (fun keys b => keys.set b.1 b.2) (replicate wide.width [])⟩

/-- The arguments of `renamed_register_projections`. -/
structure Registers where
  ref : List RegisterName
  impl : List RegisterName
  separator : Char := '.'
  excluded : List Name := []

namespace Registers

variable (R : Registers)

def refNames : List Name := R.ref.map (·.name)

def implNames : List Name := R.impl.map (·.name)

def pieceOf (r : RegisterName) : Option Piece := parseBusPiece r.name true R.separator

def addRegister (groups : Name → Group) (r : RegisterName) : Name → Group :=
  if r.name ∈ R.refNames then groups
  else match R.pieceOf r with
    | none => groups
    | some p => Function.update groups p.base ((groups p.base).add p.index r)

/-- The groups by their base; a base that no register has holds nothing. -/
def groups : Name → Group := R.impl.foldl R.addRegister fun _ => {}

/-- The bases, in the order of the map. -/
def bases : List Name := (R.impl.filterMap fun r => (R.pieceOf r).map (·.base)).dedup.mergeSort
    (· ≤ ·)

def candidates (base : Name) : List RegisterName :=
  let group := R.groups base
  if !group.valid ∨ group.bits = [] ∨ base ∈ R.refNames ∨ base ∈ R.implNames then []
  else R.ref.filter fun wide =>
    1 < wide.width ∧ group.extent ≤ wide.width ∧ wide.name ∉ R.implNames ∧ wide.key ∉ R.excluded

def wideClaims (key : Name) : ℕ := (R.bases.flatMap R.candidates).countP (·.key = key)

def projectionAt (base : Name) : Option RegisterProjection :=
  match R.candidates base with
  | [wide] => if R.wideClaims wide.key = 1 then some ((R.groups base).projection wide) else none
  | _ => none

def renamedRegisterProjections : List RegisterProjection := R.bases.filterMap R.projectionAt

/-- The bit that a register is in the group of `base`. -/
def bitOf (base : Name) (r : RegisterName) : Option (ℕ × RegisterName) :=
  if r.name ∈ R.refNames then none else (R.pieceOf r).bind fun p =>
    if p.base = base then some (p.index, r) else none

def pieces (base : Name) : List (ℕ × RegisterName) := R.impl.filterMap (R.bitOf base)

/-! ## Groups -/

variable {R : Registers} {base : Name} {g : Group} {l : List (ℕ × RegisterName)}

/-- The registers are single bits at different places. -/
def Whole (l : List (ℕ × RegisterName)) : Prop :=
  (∀ x ∈ l, x.2.width = 1 ∧ x.1 < 2147483647) ∧ (l.map Prod.fst).Nodup

lemma Whole.perm {l' : List (ℕ × RegisterName)} (h : l.Perm l') : Whole l ↔ Whole l' := by
  rw [Whole, Whole, (h.map _).nodup_iff]
  simp only [h.mem_iff]

/-- A group that holds the pieces `l`, when they are whole. -/
structure Holds (l : List (ℕ × RegisterName)) (g : Group) : Prop where
  valid : g.valid = true ↔ Whole l
  bits : g.valid = true → g.bits = l.map fun x => (x.1, x.2.key)

lemma Holds.nodup (h : Holds l g) (hv : g.valid = true) : (g.bits.map Prod.fst).Nodup := by
  have hnd := (h.valid.1 hv).2
  rw [h.bits hv, map_map]
  exact hnd

lemma Holds.add {x : ℕ × RegisterName} (h : Holds l g) : Holds (l ++ [x]) (g.add x.1 x.2) := by
  have hwh : Whole (l ++ [x]) ↔ Whole l ∧ (x.2.width = 1 ∧ x.1 < 2147483647) ∧
      x.1 ∉ l.map Prod.fst := by
    rw [Whole, Whole, map_append, forall_mem_append, nodup_append_comm, map_singleton,
      singleton_append, nodup_cons,
      forall_mem_singleton]
    tauto
  cases hv : g.valid with
  | false =>
    have hnot : ¬Whole l := fun hl => by simp [h.valid.2 hl] at hv
    have hadd : (g.add x.1 x.2).valid = false := by
      rw [Group.add]
      split
      · exact hv
      · rfl
    exact ⟨by simp [hadd, hwh, hnot], fun hva => by simp [hadd] at hva⟩
  | true =>
    have hb := h.bits hv
    have hke : g.bits.map Prod.fst = l.map Prod.fst := by
      rw [hb, map_map]
      rfl
    rw [Group.add, hke]
    split
    next hfi => exact ⟨⟨fun _ => hwh.2 ⟨h.valid.1 hv, hfi⟩, fun _ => hv⟩, fun _ => by simp [hb]⟩
    next hnot => exact ⟨⟨nofun, fun hl => absurd (hwh.1 hl).2 hnot⟩, nofun⟩

lemma foldl_addRegister (rs : List RegisterName) (gs : Name → Group) :
    rs.foldl R.addRegister gs base = (rs.filterMap (R.bitOf base)).foldl
    (fun g x => g.add x.1 x.2) (gs base) := by
  induction rs generalizing gs with
  | nil => rfl
  | cons r rs ih =>
    rw [foldl_cons, ih, filterMap_cons, addRegister, bitOf]
    split
    · rfl
    cases R.pieceOf r with
    | none => rfl
    | some p =>
      by_cases hp : p.base = base
      · simp [hp]
      · simp [hp, Function.update_of_ne (Ne.symm hp)]

lemma holds_groups (R : Registers) (base : Name) : Holds (R.pieces base) (R.groups base) := by
  rw [groups, foldl_addRegister, ← pieces]
  induction R.pieces base using reverseRecOn with
  | nil => exact ⟨by simp [Whole], fun _ => rfl⟩
  | append_singleton l x ih =>
    rw [foldl_append]
    exact ih.add

lemma valid_of_mem {wide : RegisterName} (h : wide ∈ R.candidates base) :
    (R.groups base).valid = true ∧ (R.groups base).bits ≠ [] ∧
    (R.groups base).extent ≤ wide.width := by
  simp only [candidates] at h
  split at h
  · cases h
  next hg =>
    simp only [mem_filter, decide_eq_true_eq] at h
    exact ⟨by simpa using fun hv => hg (.inl hv), fun hb => hg (.inr (.inl hb)), h.2.2.1⟩

/-! ## The order of the registers -/

/-- The same call but for the order of the registers. -/
structure Reordered (R R' : Registers) : Prop where
  ref : R.ref.Perm R'.ref
  impl : R.impl.Perm R'.impl
  separator : R'.separator = R.separator
  excluded : R'.excluded = R.excluded

section

variable {R' : Registers} (h : R.Reordered R')

include h

lemma Reordered.mem_refNames {name : Name} : name ∈ R'.refNames ↔
    name ∈ R.refNames := (h.ref.map _).mem_iff.symm

lemma Reordered.mem_implNames {name : Name} : name ∈ R'.implNames ↔
    name ∈ R.implNames := (h.impl.map _).mem_iff.symm

lemma Reordered.pieceOf (r : RegisterName) : R'.pieceOf r = R.pieceOf r := by
  simp only [Registers.pieceOf, h.separator]

lemma pieces_perm : (R.pieces base).Perm (R'.pieces base) := by
  have hbit : R'.bitOf base = R.bitOf base := by
    funext r
    simp only [bitOf, h.pieceOf, h.mem_refNames]
  rw [pieces, pieces, hbit]
  exact h.impl.filterMap _

lemma bases_perm : R'.bases = R.bases := by
  simp only [bases, h.pieceOf]
  refine Perm.eq_of_sortedLE sortedLE_mergeSort sortedLE_mergeSort ?_
  exact ((mergeSort_perm _ _).trans (h.impl.symm.filterMap _).dedup).trans (mergeSort_perm _ _).symm

lemma bits_perm (hv : (R.groups base).valid = true) :
    (R'.groups base).valid = true ∧ (R.groups base).bits.Perm (R'.groups base).bits := by
  have hg := holds_groups R base
  have hg' := holds_groups R' base
  have hv' := hg'.valid.2 ((Whole.perm (pieces_perm h)).1 (hg.valid.1 hv))
  refine ⟨hv', ?_⟩
  rw [hg.bits hv, hg'.bits hv']
  exact (pieces_perm h).map _

lemma projection_perm (hv : (R.groups base).valid = true) (wide : RegisterName) :
    (R'.groups base).projection wide = (R.groups base).projection wide := by
  rw [Group.projection, Group.projection, (bits_perm h hv).2.foldl_eq']
  intro x hx y hy keys
  by_cases hxy : x.1 = y.1
  · rw [inj_on_of_nodup_map ((holds_groups R base).nodup hv) hx hy hxy]
  · exact set_comm _ _ hxy

lemma candidates_perm : (R.candidates base).Perm (R'.candidates base) := by
  cases hv : (R.groups base).valid with
  | false =>
    have hv' : (R'.groups base).valid = false := by
      rw [← Bool.not_eq_true, (holds_groups R' base).valid, ← Whole.perm (pieces_perm h), ←
        (holds_groups R base).valid, hv]
      exact Bool.false_ne_true
    simp [candidates, hv, hv']
  | true =>
    obtain ⟨hv', hb⟩ := bits_perm h hv
    have hext : (R'.groups base).extent = (R.groups base).extent := ((hb.map _).foldr_eq _).symm
    have hem : (R'.groups base).bits = [] ↔ (R.groups base).bits = [] := by
      rw [← length_eq_zero_iff, ← length_eq_zero_iff, hb.length_eq]
    simp only [candidates, hv, hv', hext, hem, h.mem_refNames, h.mem_implNames, h.excluded]
    split
    · rfl
    · exact h.ref.filter _

lemma projectionAt_perm : R'.projectionAt base = R.projectionAt base := by
  have hcl : R'.wideClaims = R.wideClaims := by
    funext key
    rw [wideClaims, bases_perm h]
    exact (Perm.flatMap_left _ fun _ _ => candidates_perm h).symm.countP_eq _
  have hpe : (R.candidates base).Perm (R'.candidates base) := candidates_perm h
  rw [projectionAt, projectionAt, hcl]
  split
  next wide hws' =>
    have hws := perm_singleton.1 (hws' ▸ hpe)
    rw [hws, projection_perm h (valid_of_mem (hws ▸ mem_singleton_self wide)).1]
  next hws' =>
    split
    next wide hws => exact absurd (perm_singleton.1 (hws ▸ hpe.symm)) (hws' wide)
    · rfl

end

/-! ## Matches -/

lemma mem_bases {wide : RegisterName} (h : wide ∈ R.candidates base) : base ∈ R.bases := by
  obtain ⟨hv, hb, -⟩ := valid_of_mem h
  rw [(holds_groups R base).bits hv, ne_eq, map_eq_nil_iff] at hb
  obtain ⟨x, hx⟩ := exists_mem_of_ne_nil _ hb
  obtain ⟨r, hr, hbit⟩ := mem_filterMap.1 hx
  rw [bitOf] at hbit
  split at hbit
  · cases hbit
  obtain ⟨p, hp, hpx⟩ := Option.bind_eq_some_iff.1 hbit
  refine mem_mergeSort.2 (mem_dedup.2 (mem_filterMap.2 ⟨r, hr, ?_⟩))
  rw [hp]
  split at hpx
  next heq => exact congrArg some heq
  · cases hpx

/-- A projection of the bit registers over `base`: only its wide register fits the group, and only
the group fits that register.  Every position has one entry, the bit register of this index or
none. -/
structure Matched (R : Registers) (base : Name) (wide : RegisterName)
    (p : RegisterProjection) : Prop where
  only : R.candidates base = [wide]
  alone : ∀ base' wide', wide' ∈ R.candidates base' → wide'.key = wide.key → base' = base
  key : p.wideKey = wide.key
  length : p.bitKeys.length = wide.width
  bits : ∀ i r, (i, r) ∈ R.pieces base → r.width = 1 ∧ p.bitKeys[i]? = some r.key
  rest : ∀ (i : ℕ) k, p.bitKeys[i]? = some k → k = [] ∨ ∃ r, (i, r) ∈ R.pieces base ∧ r.key = k

lemma length_foldl_set (bits : List (ℕ × Name)) (keys : List Name) :
    (bits.foldl (fun keys b => keys.set b.1 b.2) keys).length = keys.length := by
  induction bits generalizing keys with
  | nil => rfl
  | cons b bits ih => rw [foldl_cons, ih, length_set]

section

variable {bits : List (ℕ × Name)} {keys : List Name} {i : ℕ} {k : Name}

lemma mem_foldl_set (h : (bits.foldl (fun keys b => keys.set b.1 b.2) keys)[i]? = some k) :
    keys[i]? = some k ∨ (i, k) ∈ bits := by
  induction bits generalizing keys with
  | nil => exact .inl h
  | cons b bits ih =>
    obtain h | h := ih h
    · grind
    · exact .inr (mem_cons_of_mem _ h)

/-- A bit keeps its entry when no other bit has its place. -/
lemma getElem?_foldl_set (hmem : (i, k) ∈ bits) (hnd : (bits.map Prod.fst).Nodup)
    (hi : i < keys.length) :
    (bits.foldl (fun keys b => keys.set b.1 b.2) keys)[i]? = some k := by
  induction bits using reverseRecOn with
  | nil => cases hmem
  | append_singleton bits b ih =>
    rw [map_append, map_singleton, nodup_append_comm, singleton_append, nodup_cons] at hnd
    rw [foldl_append]
    rcases mem_append.1 hmem with h | h
    · have hne : b.1 ≠ i := fun heq => hnd.1 (heq ▸ mem_map_of_mem h)
      exact (getElem?_set_ne hne).trans (ih h hnd.2)
    · cases mem_singleton.1 h
      exact getElem?_set_self (by rwa [length_foldl_set])

end

lemma lt_extent {b : ℕ × Name} (h : b ∈ g.bits) : b.1 < g.extent :=
  le_max_of_le' 0 (mem_map_of_mem (f := fun b => b.1 + 1) h) le_rfl

lemma projectionAt_matched {p : RegisterProjection} (h : R.projectionAt base = some p) :
    ∃ wide, R.Matched base wide p := by
  rw [projectionAt] at h
  split at h
  next wide hws =>
    split at h
    next hcl =>
      cases h
      have hg := holds_groups R base
      obtain ⟨hv, -, hext⟩ := valid_of_mem (hws ▸ mem_singleton_self wide)
      refine ⟨wide, hws, fun base' wide' hwi' hkey => ?_, rfl, ?_,
        fun i r hir => ?_, fun i k hk => ?_⟩
      · by_contra hne
        obtain ⟨s, t, hst⟩ := mem_iff_append.1 (mem_bases (hws ▸ mem_singleton_self wide))
        have hr : base' ∈ s ++ t := by
          have hmem := mem_bases hwi'
          rw [hst] at hmem
          simpa [hne] using hmem
        rw [wideClaims, hst, flatMap_append, flatMap_cons, hws] at hcl
        have hpos : 0 < ((s ++ t).flatMap R.candidates).countP (·.key = wide.key) :=
          countP_pos_iff.2 ⟨wide', mem_flatMap.2 ⟨base', hr, hwi'⟩, by simpa using hkey⟩
        simp at hcl
        rw [flatMap_append, countP_append] at hpos
        omega
      · rw [Group.projection, length_foldl_set, length_replicate]
      · have hmem : (i, r.key) ∈ (R.groups base).bits := by
          rw [hg.bits hv]
          exact mem_map_of_mem hir
        refine ⟨((hg.valid.1 hv).1 _ hir).1, getElem?_foldl_set hmem (hg.nodup hv) ?_⟩
        rw [length_replicate]
        exact (lt_extent hmem).trans_le hext
      · obtain h | h := mem_foldl_set hk
        · exact .inl (eq_of_mem_replicate (mem_of_getElem? h))
        · rw [hg.bits hv] at h
          obtain ⟨x, hx, heq⟩ := mem_map.1 h
          cases heq
          exact .inr ⟨x.2, hx, rfl⟩
    · cases h
  · cases h

/-- Each projection is a match of one base, no two are of one base or of one wide register, and none
depends on the order of the registers. -/
theorem renamedRegisterProjections_matched (R : Registers) :
    (∀ p ∈ R.renamedRegisterProjections, ∃ base wide, R.Matched base wide p ∧
      ∀ q ∈ R.renamedRegisterProjections, ∀ wide', R.Matched base wide' q → q = p) ∧
    (R.renamedRegisterProjections.map (·.wideKey)).Nodup ∧
    ∀ R' : Registers, R.Reordered R' →
    R'.renamedRegisterProjections = R.renamedRegisterProjections := by
  have hnodup : (R.renamedRegisterProjections.map (·.wideKey)).Nodup := by
    rw [renamedRegisterProjections, map_filterMap]
    refine Nodup.filterMap (fun base base' key hb hb' => ?_)
      ((mergeSort_perm _ _).nodup_iff.2 (nodup_dedup _))
    obtain ⟨p, hp, rfl⟩ := Option.map_eq_some_iff.1 hb
    obtain ⟨q, hq, hkey⟩ := Option.map_eq_some_iff.1 hb'
    obtain ⟨wide, hm⟩ := projectionAt_matched hp
    obtain ⟨wide', hm'⟩ := projectionAt_matched hq
    exact hm'.alone base wide (hm.only ▸ mem_singleton_self wide)
      (hm.key.symm.trans (hkey.symm.trans hm'.key))
  refine ⟨fun p hp => ?_, hnodup, fun R' h => ?_⟩
  · obtain ⟨base, -, hbase⟩ := mem_filterMap.1 hp
    obtain ⟨wide, hm⟩ := projectionAt_matched hbase
    refine ⟨base, wide, hm, fun q hq wide' hm' => inj_on_of_nodup_map hnodup hq hp ?_⟩
    obtain rfl : wide' = wide := by simpa using hm'.only.symm.trans hm.only
    exact hm'.key.trans hm.key.symm
  · rw [renamedRegisterProjections, bases_perm h]
    exact filterMap_congr fun _ _ => projectionAt_perm h

end Registers

end LiveHD.StateMatch
