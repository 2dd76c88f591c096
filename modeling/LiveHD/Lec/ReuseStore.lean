import Mathlib

/-!
# The property directory

The files `model<k>.txt` and `answer<k>.txt` of `pass/lec/cone_abc.cpp`: what a run concluded is
kept together with its model, the older pairs are shifted down first.  Every step is one rename or
one `write_file`, each atomic, and a run may be killed between any two of them.
-/

namespace LiveHD.Lec.Reuse

def kKeepModels : ℕ := 3

/-- The files of a directory, slot `0` without a number in its name. -/
structure Slots (μ α : Type*) where
  model : ℕ → Option μ
  answer : ℕ → Option α

variable {μ α β : Type*}

namespace Slots

def empty : Slots μ α := ⟨fun _ => none, fun _ => none⟩

/-- `std::rename`: a missing file is an error, and nothing moves. -/
def rename (f : ℕ → Option β) (src dst : ℕ) : ℕ → Option β :=
  if (f src).isSome then Function.update (Function.update f dst (f src)) src none else f

inductive FileOp (μ α : Type*) where
  | renameModel (src dst : ℕ)
  | renameAnswer (src dst : ℕ)
  | writeModel (text : μ)
  | writeAnswer (answer : α)

def apply (d : Slots μ α) : FileOp μ α → Slots μ α
  | .renameModel src dst => { d with model := rename d.model src dst }
  | .renameAnswer src dst => { d with answer := rename d.answer src dst }
  | .writeModel text => { d with model := Function.update d.model 0 (some text) }
  | .writeAnswer answer => { d with answer := Function.update d.answer 0 (some answer) }

/-- The renames that shift the older models down. -/
def shiftOps : List (FileOp μ α) :=
  ((List.range (kKeepModels - 1)).map (kKeepModels - 1 - ·)).flatMap fun k =>
    [.renameModel (k - 1) k, .renameAnswer (k - 1) k]

variable [DecidableEq μ]

variable (d : Slots μ α) (text : μ) (answer : α)

/-- The file operations of `finish`. -/
def finishOps : List (FileOp μ α) :=
  (if d.model 0 = some text then [] else shiftOps) ++ [.writeModel text, .writeAnswer answer]

/-- `finish`, killed after `ops` file operations; not killed when there are no more. -/
def finish (ops : ℕ) : Slots μ α :=
  ((d.finishOps text answer).take ops).foldl apply d

end Slots

/-- Two files that are both there are related. -/
def Agree (R : μ → α → Prop) (x : Option μ)
    (y : Option α) : Prop := ∀ m a, x = some m → y = some a → R m a

namespace Agree

variable {R : μ → α → Prop} {x : Option μ} {y : Option α}

@[simp] lemma none_left : Agree R none y := by rintro m a ⟨⟩

@[simp] lemma none_right : Agree R x none := by rintro m a - ⟨⟩

@[simp] lemma some_some {m : μ} {a : α} : Agree R (some m) (some a) ↔ R m a := by
  constructor
  · intro h
    exact h m a rfl rfl
  · rintro h _ _ ⟨⟩ ⟨⟩
    exact h

end Agree

namespace Slots

variable (R : μ → α → Prop)

/-- Whenever both files of a slot are there, they are related. -/
def Paired (d : Slots μ α) : Prop := ∀ k < kKeepModels, Agree R (d.model k) (d.answer k)

/-- What a run finds, and where it is killed, leave the oldest slot with files that are related: the
model and the answer that end there are the ones of the slot before, where these are there and are
moved. -/
def Moves (d : Slots μ α) (text : μ) (ops : ℕ) : Prop :=
  d.model 0 = some text ∨ ops = 0 ∨ Agree R ((d.model 1).or (d.model 2))
    (if ops = 1 then d.answer 2 else (d.answer 1).or (d.answer 2))

variable {R} {d : Slots μ α}

lemma paired_iff : d.Paired R ↔
    Agree R (d.model 0) (d.answer 0) ∧ Agree R (d.model 1) (d.answer 1) ∧
    Agree R (d.model 2) (d.answer 2) := by
  constructor
  · intro h
    exact ⟨h 0 (by decide), h 1 (by decide), h 2 (by decide)⟩
  · rintro ⟨h0, h1, h2⟩ k hk
    match k, hk with
    | 0, _ => exact h0
    | 1, _ => exact h1
    | 2, _ => exact h2

section

variable {f : ℕ → Option β} {src dst : ℕ}

lemma rename_src : rename f src dst src = none := by
  rw [rename]
  split_ifs with hf
  · exact Function.update_self ..
  · exact Option.not_isSome_iff_eq_none.1 hf

lemma rename_dst (h : src ≠ dst) : rename f src dst dst = (f src).or (f dst) := by
  rw [rename]
  cases hf : f src with
  | none => rfl
  | some x =>
    rw [Option.isSome_some, if_pos rfl, Function.update_of_ne h.symm,
      Function.update_self, Option.some_or]

lemma rename_of_ne {k : ℕ} (hsrc : k ≠ src) (hdst : k ≠ dst) : rename f src dst k = f k := by
  rw [rename]
  split_ifs
  · rw [Function.update_of_ne hsrc, Function.update_of_ne hdst]
  · rfl

end

variable [DecidableEq μ] {text : μ} {answer : α} {ops : ℕ}

/-- The files of a run that shifts the older models down. -/
lemma finish_of_ne (h : d.model 0 ≠ some text) : d.finish text answer ops =
    ([.renameModel 1 2, .renameAnswer 1 2, .renameModel 0 1, .renameAnswer 0 1, .writeModel text,
      .writeAnswer answer].take
      ops).foldl apply d := by
  rw [finish, finishOps, if_neg h]
  rfl

lemma finish_of_eq (h : d.model 0 = some text) :
    d.finish text answer ops = ([.writeModel text, .writeAnswer answer].take ops).foldl
    apply d := by
  rw [finish, finishOps, if_pos h]
  rfl

/-- One run, killed anywhere. -/
lemma paired_finish_iff (hd : d.Paired R) (hR : R text answer) (ops : ℕ) :
    (d.finish text answer ops).Paired R ↔ d.Moves R text ops := by
  obtain ⟨h0, h1, h2⟩ := paired_iff.1 hd
  by_cases hte : d.model 0 = some text
  · refine iff_of_true ?_ (.inl hte)
    rw [finish_of_eq hte, paired_iff]
    rw [hte] at h0
    match ops with
    | 0 => exact ⟨hte ▸ h0, h1, h2⟩
    | 1 => simpa using ⟨h0, h1, h2⟩
    | n + 2 => simpa [apply] using ⟨hR, h1, h2⟩
  · rw [finish_of_ne hte, paired_iff, Moves]
    simp only [hte]
    match ops with
    | 0 => simpa using ⟨h0, h1, h2⟩
    | 1 => simp [apply, rename_src, rename_dst, rename_of_ne, h0]
    | 2 => simp [apply, rename_src, rename_dst, rename_of_ne, h0]
    | 3 => simp [apply, rename_src, rename_dst, rename_of_ne]
    | 4 => simp [apply, rename_src, rename_dst, rename_of_ne, h0]
    | 5 => simp [apply, rename_src, rename_dst, rename_of_ne, h0]
    | n + 6 => simp [apply, rename_src, rename_dst, rename_of_ne, h0, hR]

end Slots

/-! ## Runs on one directory -/

/-- One stored answer. -/
structure StoredAnswer where
  frame : ℤ
  frames : ℤ
  unbounded : Bool
  exact : Bool
  run : String
deriving DecidableEq

/-- An answer file and the model of the run that wrote it, which the file does not name. -/
structure AnswerFile where
  answer : StoredAnswer
  model : String
deriving DecidableEq

/-- A run: the text of its model, its answer, and the number of file operations it does before it is
killed. -/
structure Run where
  text : String
  answer : StoredAnswer
  ops : ℕ

def Run.step (d : Slots String AnswerFile) (r : Run) : Slots String AnswerFile :=
  d.finish r.text ⟨r.answer, r.text⟩ r.ops

/-- The directory after runs. -/
def after (runs : List Run) : Slots String AnswerFile := runs.foldl Run.step Slots.empty

/-- The answer was stored by a run for exactly this model. -/
def StoredFor (text : String) (a : AnswerFile) : Prop := a.model = text

/-- A run stores its answer for its own model. -/
lemma paired_step_iff {d : Slots String AnswerFile} (hd : d.Paired StoredFor) (r : Run) :
    (r.step d).Paired StoredFor ↔ d.Moves StoredFor r.text r.ops := by
  have hown : StoredFor r.text ⟨r.answer, r.text⟩ := rfl
  exact Slots.paired_finish_iff hd hown r.ops

lemma after_take_succ {runs : List Run} {n : ℕ} {r : Run} (h : runs[n]? = some r) :
    after (runs.take (n + 1)) = Run.step (after (runs.take n)) r := by
  rw [after, List.take_add_one, h, List.foldl_append]
  rfl

/-- Whichever two files of a slot a run reads, the answer was stored for the model: exactly when no
run leaves the oldest slot with files of different models. -/
theorem storedFor_after_iff (runs : List Run) :
    (∀ n ≤ runs.length, (after (runs.take n)).Paired StoredFor) ↔
      ∀ n r, runs[n]? = some r → (after (runs.take n)).Moves StoredFor r.text r.ops := by
  constructor
  · intro h n r hr
    obtain ⟨hn, -⟩ := List.getElem?_eq_some_iff.1 hr
    have hnext := h (n + 1) hn
    rw [after_take_succ hr] at hnext
    exact (paired_step_iff (h n hn.le) r).1 hnext
  · intro h n hn
    induction n with
    | zero => exact fun _ _ => .none_left
    | succ n ih =>
      have hr := List.getElem?_eq_getElem hn
      rw [after_take_succ hr]
      exact (paired_step_iff (ih (Nat.le_of_succ_le hn)) _).2 (h n _ hr)

/-- Three models are kept when the run of a fourth is killed between the first two renames: the
second model then has the answer of the first. -/
theorem not_storedFor_after : ¬∀ runs : List Run, ∀ n ≤ runs.length,
    (after (runs.take n)).Paired StoredFor := by
  intro h
  let run (text : String) (frame : ℤ) (ops : ℕ) : Run := ⟨text, ⟨frame, 8, false, true, "-"⟩, ops⟩
  have hlast := h [run "a" 3 6, run "b" (-1) 6, run "c" (-1) 6, run "d" (-1) 1] 4
    le_rfl 2 (by decide) "b"
    ⟨⟨3, 8, false, true, "-"⟩, "a"⟩ (by rfl) (by rfl)
  exact absurd (show "a" = "b" from hlast) (by decide)

end LiveHD.Lec.Reuse
