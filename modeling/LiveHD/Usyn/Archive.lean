import LiveHD.Usyn.Pass
import LiveHD.Lib.Framing

/-!
# Writers of artifacts

`Archive` and `Writer` of `pass/usyn/artifact.cpp`: little-endian fields and counted vectors,
admitted against a budget and the limits of an artifact.
-/

namespace LiveHD.Usyn

open Framing Function List

structure Refusal where
  status : Status
  reason : String
  refused : status ≠ .feasible := by decide
deriving DecidableEq

structure ArtifactLimits where
  bytes : ℕ := 256 * 1024 * 1024
  decodedBytes : ℕ := 512 * 1024 * 1024
  objects : ℕ := 16000000
  nodes : UInt32 := 2000000
  stringBytes : UInt32 := 1048576
  formulaNodes : UInt32 := 16384

/-- The element types of vectors. -/
inductive Element
  | sourceState | clockGate | stateBit | stateControl | controlSignal | index | lid | word
  | input | output | latch | string

structure Writer where
  work : Work
  objects : ℕ := 0
  allocated : ℕ := 0
  bytes : List UInt8 := []

abbrev WriterM := ExceptT Refusal (StateM Writer)

/-- The constants of the source state. -/
class ArtifactDlop (D : Type) where
  /-- The number of its words, or negative. -/
  size : D → ℤ
  serialize : D → List UInt8

/-- The constants read back from their bytes. -/
class LawfulDlop (D : Type) [ArtifactDlop D] where
  unserialize : List UInt8 → D
  unserialize_serialize : ∀ v : D, unserialize (ArtifactDlop.serialize v) = v

lemma LawfulDlop.serialize_inj {D : Type} [ArtifactDlop D] [LawfulDlop D] :
    Function.Injective (ArtifactDlop.serialize : D → List UInt8) :=
  LeftInverse.injective unserialize_serialize

/-- The bytes of a name. -/
def chars (v : String) : List UInt8 := v.toByteArray.data.toList

lemma chars_inj {v w : String} : chars v = chars w ↔ v = w := by
  rw [chars, chars, Array.toList_inj, ← ByteArray.ext_iff, String.toByteArray_inj]

namespace Writer

def invalid {α : Type} (reason : String) : WriterM α :=
  throw { status := .invalid, reason := reason }

def exhausted {α : Type} : WriterM α :=
  throw { status := .searchExhausted, reason := "region artifact resource limit" }

/-- `limits_valid` -/
def limitsValid (limits : ArtifactLimits) : WriterM Unit :=
  if limits.bytes = 0 ∨ limits.decodedBytes = 0 ∨ limits.objects = 0 ∨ limits.nodes = 0 ∨
      limits.stringBytes = 0 ∨
      limits.formulaNodes = 0 then invalid "invalid artifact resource limits"
  else pure ()

variable (limits : ArtifactLimits) (sizeof : Element → ℕ)

def allocate (n : ℕ) : WriterM Unit := do
  let s ← get
  if limits.decodedBytes - s.allocated < n then exhausted
    else set { s with allocated := s.allocated + n }

def spend (n : ℕ) : WriterM Unit := do
  let s ← get
  set { s with work := (s.work.spend n).2 }
  if (s.work.spend n).1 then pure () else exhausted

def count (n limit : ℕ) : WriterM Unit := do
  let s ← get
  if limit < n ∨ limits.objects - s.objects < n then exhausted
  else do
    spend n
    modify fun s => { s with objects := s.objects + n }

def room (n : ℕ) : WriterM Unit := do
  let s ← get
  if limits.bytes - s.bytes.length < n then exhausted else spend n

def push (bytes : List UInt8) : WriterM Unit := modify fun s => { s with bytes := s.bytes ++ bytes }

/-- `scalar` -/
def put (k : Field) : WriterM Unit := do
  room limits k.width
  push (fieldBytes k)

def scalar {α : Type} [Scalar α] (v : α) : WriterM Unit := put limits (field v)

def fields (ks : List Field) : WriterM Unit := ks.forM (put limits)

/-- The size of a vector or a string; it is cast to `uint32_t`. -/
def size (n : ℕ) : WriterM Unit := scalar limits (UInt32.ofNat n)

def string (v : List UInt8) : WriterM Unit :=
  if limits.stringBytes.toNat < v.length then exhausted
  else do
    allocate limits v.length
    size limits v.length
    room limits v.length
    push v

/-- `sequence`; the transfer of an element may carry something along. -/
def sequence {α β : Type} (element : Element) (l : List α) (limit : ℕ)
    (transfer : β → α → WriterM β) (b : β) : WriterM β := do
  count limits l.length limit
  allocate limits (l.length * sizeof element * 2)
  size limits l.length
  l.foldlM transfer b

/-- `enumeration` -/
def enumeration (raw last : ℕ) : WriterM Unit := do
  scalar limits (UInt32.ofNat raw)
  if last < raw then invalid "invalid artifact enum" else pure ()

/-- `value` -/
def value {D : Type} [ArtifactDlop D] (v : D) : WriterM Unit :=
  if ArtifactDlop.size v < 0 ∨ (limits.stringBytes.toNat : ℤ) < ArtifactDlop.size v * 16 + 3
    then exhausted
  else do
    spend ((ArtifactDlop.size v).toNat * 16 + 3)
    allocate limits ((ArtifactDlop.size v).toNat * 16)
    string limits (ArtifactDlop.serialize v)

lemma foldlM_unit {α : Type} (code : α → WriterM Unit) (l : List α) :
    l.foldlM (fun _ a => code a) () = l.forM code := by
  induction l with
  | nil => rfl
  | cons a l ih =>
    change (code a >>= fun _ => l.foldlM (fun _ a => code a) ()) = code a >>= fun _ => l.forM code
    rw [ih]

end Writer

/-! ## What is written -/

/-- When it is not refused, the code returns `b` and writes the bytes, and then `F` holds. -/
def Writes {β : Type} (m : WriterM β) (b : β) (bytes : List UInt8) (F : Prop) : Prop :=
  ∀ s a, (m.run.run s).1 = .ok a → a = b ∧ (m.run.run s).2.bytes = s.bytes ++ bytes ∧ F

/-- The bytes of a size. -/
def sizeBytes (n : ℕ) : List UInt8 := fieldBytes (field (UInt32.ofNat n))

/-- The bytes of a string. -/
def stringBytes (v : List UInt8) : List UInt8 := sizeBytes v.length ++ v

namespace Writes

variable {α β : Type} {b : β} {a : α} {x y : List UInt8} {F G : Prop}

variable {m : WriterM β}

lemma mono (h : Writes m b x F) (hFG : F → G) : Writes m b x G :=
  fun s a ha => (h s a ha).imp_right (And.imp_right hFG)

lemma pure (b : β) : Writes (Pure.pure b) b [] True := by
  intro s a h
  cases h
  exact ⟨rfl, (append_nil _).symm, trivial⟩

lemma throw (e : Refusal) (b : β) (x : List UInt8) (F : Prop) : Writes (throw e) b x F := nofun

variable {k : α → WriterM β}

lemma bind {m : WriterM α} (hm : Writes m a x F) (hk : Writes (k a) b y G) :
    Writes (m >>= k) b (x ++ y) (F ∧ G) := by
  intro s r h
  rw [run_bind] at h ⊢
  rcases hms : m.run.run s with ⟨e | a', t⟩
  · rw [hms] at h
    cases h
  · rw [hms] at h
    obtain ⟨rfl, hby, hF⟩ := hm s a' (congrArg Prod.fst hms)
    rw [hms] at hby
    obtain ⟨rfl, hr, hG⟩ := hk t r h
    refine ⟨rfl, hr.trans ?_, hF, hG⟩
    rw [hby, append_assoc]

/-- Code that writes nothing first. -/
lemma seqNil {m : WriterM α} (hm : Writes m a [] F)
    (hk : Writes (k a) b y G) : Writes (m >>= k) b y G := (hm.bind hk).mono And.right

/-- Code that checks last. -/
lemma bindNil {m : WriterM α} (hm : Writes m a x F) (hk : Writes (k a) b [] G) :
    Writes (m >>= k) b x F := by
  have h := (hm.bind hk).mono And.left
  rwa [append_nil] at h

lemma ite {p : Prop} [Decidable p] {n : WriterM β} (hm : p → Writes m b x F)
    (hn : ¬p → Writes n b x F) :
    Writes (if p then m else n) b x F := by
  split
  · exact hm ‹_›
  · exact hn ‹_›

/-- A condition that is not refused. -/
lemma guarded {p : Prop} [Decidable p] {e : Refusal} (hm : Writes m b x F) :
    Writes (if p then MonadExcept.throw e else m) b x (¬p ∧ F) :=
  ite (fun _ => throw e b x _) fun hp => hm.mono fun hF => ⟨hp, hF⟩

variable (limits : ArtifactLimits) (sizeof : Element → ℕ)

lemma get_bind {k : Writer → WriterM β} (hk : ∀ s, ∀ r, ((k s).run.run s).1 = .ok r →
    r = b ∧ ((k s).run.run s).2.bytes = s.bytes ++ x ∧ F) :
    Writes (get >>= k) b x F := fun s r h => hk s r h

lemma modify {f : Writer → Writer} (hf : ∀ s, (f s).bytes = s.bytes ++ x) :
    Writes (modify f : WriterM Unit) () x True :=
  fun s _ _ => ⟨rfl, hf s, trivial⟩

lemma spend (n : ℕ) : Writes (Writer.spend n) () [] True := by
  refine get_bind fun s r h => ⟨rfl, ?_, trivial⟩
  split
  · exact (append_nil _).symm
  · exact (append_nil _).symm

lemma allocate (n : ℕ) : Writes (Writer.allocate limits n) () [] True := by
  refine get_bind fun s r h => ⟨rfl, ?_, trivial⟩
  split
  · exact (append_nil _).symm
  · exact (append_nil _).symm

lemma count (n limit : ℕ) : Writes (Writer.count limits n limit) () [] (n ≤ limit) := by
  refine get_bind fun s r h => ?_
  have hco : Writes (if limit < n ∨ limits.objects - s.objects < n then Writer.exhausted
      else do
        Writer.spend n; MonadState.modifyGet fun s : Writer => ((),
          { s with objects := s.objects + n }) : WriterM Unit)
      () [] (n ≤ limit) := by
    refine (guarded ((spend n).seqNil (modify fun s => (append_nil _).symm))).mono fun h => ?_
    exact not_lt.1 (not_or.1 h.1).1
  exact hco s r h

lemma room (n : ℕ) : Writes (Writer.room limits n) () [] True := by
  refine get_bind fun s r h => ?_
  have hco : Writes (if limits.bytes - s.bytes.length < n then Writer.exhausted
      else Writer.spend n : WriterM Unit) () [] True :=
    ite (fun _ => throw _ _ _ _) fun _ => spend n
  exact hco s r h

lemma push (bytes : List UInt8) : Writes (Writer.push bytes) () bytes True := modify fun _ => rfl

lemma put (k : Field) : Writes (Writer.put limits k) () (fieldBytes k) True :=
  (room limits _).seqNil (push _)

lemma scalar [Scalar α] (v : α) :
    Writes (Writer.scalar limits v) () (fieldBytes (field v)) True := put limits _

lemma fields (ks : List Field) :
    Writes (Writer.fields limits ks) () (ks.flatMap fieldBytes) True := by
  induction ks with
  | nil => exact pure ()
  | cons k ks ih => exact ((put limits k).bind ih).mono And.right

lemma size (n : ℕ) : Writes (Writer.size limits n) () (sizeBytes n) True := scalar limits _

lemma string (v : List UInt8) :
    Writes (Writer.string limits v) () (stringBytes v) (v.length < 2 ^ 32) := by
  have hpu := Writes.seqNil (k := fun _ => _) (room limits v.length) (push v)
  have hsz := Writes.bind (k := fun _ => _) (size limits v.length) hpu
  have hby := Writes.seqNil (k := fun _ => _) (allocate limits v.length) hsz
  exact (guarded hby).mono fun h => (not_lt.1 h.1).trans_lt limits.stringBytes.toNat_lt

lemma value {D : Type} [ArtifactDlop D] (v : D) :
    Writes (Writer.value limits v) () (stringBytes (ArtifactDlop.serialize v))
    ((ArtifactDlop.serialize v).length < 2 ^ 32) :=
  (guarded ((spend _).seqNil ((allocate limits _).seqNil (string limits _)))).mono And.right

lemma enumeration (raw last : ℕ) :
    Writes (Writer.enumeration limits raw last) () (sizeBytes raw) True :=
  (scalar limits (UInt32.ofNat raw)).bindNil (ite (fun _ => throw _ _ _ True) fun _ => pure ())

variable {l : List α}

variable {transfer : α → WriterM Unit}

/-- The elements of a vector, one after the other. -/
lemma forM {bytes : α → List UInt8} {Fits : α → Prop}
    (h : ∀ a ∈ l, Writes (transfer a) () (bytes a) (Fits a)) :
    Writes (l.forM transfer) () (l.flatMap bytes) (∀ a ∈ l, Fits a) := by
  induction l with
  | nil => exact (pure ()).mono fun _ => nofun
  | cons a l ih =>
    refine ((h a (.head _)).bind (ih fun c hc => h c (.tail _ hc))).mono ?_
    exact fun hF => forall_mem_cons.2 hF

lemma foldlM_unit (h : Writes (l.forM transfer) () x F) :
    Writes (l.foldlM (fun _ a => transfer a) ()) () x F := by
  rwa [Writer.foldlM_unit]

/-- The elements of a vector after their count. -/
lemma sequence {transfer : β → α → WriterM β} {element : Element} {limit : UInt32}
    {b' : β} {bytes : List UInt8}
    (h : Writes (l.foldlM transfer b) b' bytes F) :
    Writes (Writer.sequence limits sizeof element l limit.toNat transfer b) b'
    (sizeBytes l.length ++ bytes)
      (l.length < 2 ^ 32 ∧ F) := by
  have hsz := Writes.bind (k := fun _ => l.foldlM transfer b) (size limits l.length) h
  have hby := Writes.seqNil (k := fun _ => _) (allocate limits (l.length * sizeof element * 2)) hsz
  have hall := Writes.bind (k := fun _ => _) (count limits l.length limit.toNat) hby
  exact hall.mono fun hF => ⟨hF.1.trans_lt limit.toNat_lt, hF.2.2⟩

end Writes

/-! ## What is read off -/

lemma sizeBytes_prefixFree : PrefixFree (· < 2 ^ 32) sizeBytes := by
  refine (field_determines.comap (R := (· < 2 ^ 32)) (k := UInt32.ofNat) fun _ _ => trivial).map
    fun n m hn hm h => ?_
  have heq : (UInt32.ofNat n).toNat = (UInt32.ofNat m).toNat := congrArg UInt32.toNat h
  rwa [UInt32.toNat_ofNat', UInt32.toNat_ofNat', Nat.mod_eq_of_lt hn, Nat.mod_eq_of_lt hm] at heq

lemma stringBytes_prefixFree : PrefixFree (·.length < 2 ^ 32) stringBytes := by
  have hby : PrefixFree (fun _ : UInt8 => True) fun c => [c] :=
    Determines.of_length 1 (fun _ _ => rfl) fun a b _ _ h => (List.cons.inj h).1
  have hst := Determines.counted (N := (· < 2 ^ 32)) sizeBytes_prefixFree hby
  intro v w hv hw r s h
  have hsi : ∀ v : List UInt8, v.flatMap (fun c => [c]) = v := fun v =>
    flatMap_pure_eq_map id v |>.trans (map_id v)
  refine (hst (a := v) (b := w) ⟨hv, fun _ _ => trivial⟩ ⟨hw, fun _ _ => trivial⟩ r s ?_).imp_left
    fun h => ?_
  · show (sizeBytes v.length ++ v.flatMap fun c => [c]) ++ r =
      (sizeBytes w.length ++ w.flatMap fun c => [c]) ++ s
    rwa [hsi, hsi]
  · rwa [map_id, map_id] at h

/-! ## What the bytes tell -/

abbrev Any {α : Type} (_ : α) : Prop := True

/-- On the values of `Q`, what the code writes determines `x`, and where it ends. -/
def Tells {α γ : Type} (Q : α → Prop) (code : α → WriterM Unit) (x : α → γ) : Prop :=
  ∃ (bytes : α → List UInt8) (P : α → Prop), (∀ a, Q a → Writes (code a) () (bytes a) (P a)) ∧
    Determines (fun a => Q a ∧ P a) bytes x

namespace Tells

variable {α γ δ ε : Type} {Q : α → Prop} {code c d : α → WriterM Unit} {x : α → γ} {y : α → δ}

lemma eq (h : Tells Q code x) {a b : α} (ha : Q a) (hb : Q b) {s t : Writer}
    (hs : s.bytes = t.bytes)
    (hok : ((code a).run.run s).1 = .ok ()) (hok' : ((code b).run.run t).1 = .ok ())
    (hby : ((code a).run.run s).2.bytes = ((code b).run.run t).2.bytes) : x a = x b := by
  obtain ⟨bytes, P, hwr, hde⟩ := h
  obtain ⟨-, hl, hPa⟩ := hwr a ha s () hok
  obtain ⟨-, hr, hPb⟩ := hwr b hb t () hok'
  rw [hl, hr, hs] at hby
  exact hde.eq ⟨ha, hPa⟩ ⟨hb, hPb⟩ (append_cancel_left hby)

lemma map (h : Tells Q code x)
    (hxy : ∀ a b, Q a → Q b → x a = x b → y a = y b) : Tells Q code y := by
  obtain ⟨bytes, P, hwr, hde⟩ := h
  exact ⟨bytes, P, hwr, hde.map fun a b ha hb => hxy a b ha.1 hb.1⟩

lemma congr (h : Tells Q c x) (hco : ∀ a, Q a → d a = c a) : Tells Q d x := by
  obtain ⟨bytes, P, hwr, hde⟩ := h
  exact ⟨bytes, P, fun a ha => hco a ha ▸ hwr a ha, hde⟩

variable {R : ε → Prop} {k : ε → α}

lemma comap (h : Tells Q code x) (hk : ∀ e, R e → Q (k e)) :
    Tells R (fun e => code (k e)) fun e => x (k e) := by
  obtain ⟨bytes, P, hwr, hde⟩ := h
  exact ⟨fun e => bytes (k e), fun e => P (k e), fun e he => hwr _ (hk e he),
    hde.comap fun e he => ⟨hk e he.1, he.2⟩⟩

/-- Values that are all built in one way. -/
lemma image (h : Tells R (fun e => code (k e)) id)
    (hk : ∀ a, Q a → ∃ e, R e ∧ k e = a) : Tells Q code id := by
  obtain ⟨bytes, P, hwr, hde⟩ := h
  rcases isEmpty_or_nonempty ε with hε | hε
  · have hno : ∀ a, ¬Q a := fun a ha => hε.false (hk a ha).choose
    exact ⟨fun _ => [], fun _ => True, fun a ha => (hno a ha).elim, fun a _ ha => (hno a ha.1).elim⟩
  choose! part hpa using hk
  refine ⟨fun a => bytes (part a), fun a => P (part a), fun a ha => ?_, fun a b ha hb r s heq => ?_⟩
  · have hpi : Writes (code (k (part a))) () (bytes (part a)) (P (part a)) := hwr _ (hpa a ha).1
    rwa [(hpa a ha).2] at hpi
  · refine (hde ⟨(hpa a ha.1).1, ha.2⟩ ⟨(hpa b hb.1).1, hb.2⟩ r s heq).imp_left fun hab => ?_
    exact (hpa a ha.1).2.symm.trans ((congrArg k hab).trans (hpa b hb.1).2)

lemma none (c : γ) : Tells Q (fun _ => Pure.pure ()) fun _ => c :=
  ⟨fun _ => [], fun _ => True, fun _ _ => .pure (), .nil _ c⟩

/-- A second part, read under what the first one says. -/
lemma dep (h : Tells Q c x) (hd : ∀ k, Tells (fun a => Q a ∧ x a = k) d y) :
    Tells Q (fun a => do c a; d a) fun a => (x a, y a) := by
  obtain ⟨bytes, P, hwr, hde⟩ := h
  choose rest R hr hde' using hd
  refine ⟨fun a => bytes a ++ rest (x a) a, fun a => P a ∧ R (x a) a, fun a ha => ?_, ?_⟩
  · exact .bind (k := fun _ => d a) (hwr a ha) (hr _ a ⟨ha, rfl⟩)
  · intro a b ha hb r s heq
    rw [append_assoc, append_assoc] at heq
    obtain ⟨hx, heq⟩ := hde ⟨ha.1, ha.2.1⟩ ⟨hb.1, hb.2.1⟩ _ _ heq
    rw [← hx] at heq
    have hR := hx ▸ hb.2.2
    obtain ⟨hy, heq⟩ := hde' (x a) ⟨⟨ha.1, rfl⟩, ha.2.2⟩ ⟨⟨hb.1, hx.symm⟩, hR⟩ _ _ heq
    exact ⟨congrArg₂ Prod.mk hx hy, heq⟩

lemma seq (h : Tells Q c x) (hd : Tells Q d y) :
    Tells Q (fun a => do c a; d a) fun a => (x a, y a) :=
  h.dep fun _ => by
    obtain ⟨bytes, P, hwr, hde⟩ := hd
    exact ⟨bytes, P, fun a ha => hwr a ha.1, hde.mono fun _ ha => ⟨ha.1.1, ha.2⟩⟩

variable (limits : ArtifactLimits) (sizeof : Element → ℕ)

lemma fields (ks : α → List Field) (widths : List ℕ) (hwi : ∀ a, (ks a).map Field.width = widths) :
    Tells Q (fun a => Writer.fields limits (ks a)) ks :=
  ⟨_, fun _ => True, fun a _ => .fields limits (ks a),
    (fields_determines ks widths hwi).mono fun _ _ => trivial⟩

variable {β : Type}

lemma scalar [Scalar β] (v : α → β) : Tells Q (fun a => Writer.scalar limits (v a)) v :=
  ⟨_, fun _ => True, fun a _ => .scalar limits (v a),
    (field_determines (α := β)).comap (k := v) fun _ _ => trivial⟩

lemma string (v : α → List UInt8) : Tells Q (fun a => Writer.string limits (v a)) v :=
  ⟨_, _, fun a _ => .string limits (v a), stringBytes_prefixFree.comap (k := v) fun _ h => h.2⟩

lemma name (v : α → String) : Tells Q (fun a => Writer.string limits (chars (v a))) v :=
  (string limits fun a => chars (v a)).map fun _ _ _ _ => chars_inj.1

lemma value {D : Type} [ArtifactDlop D] [LawfulDlop D] (v : α → D) :
    Tells Q (fun a => Writer.value limits (v a)) v := by
  have h : Tells Q (fun a => Writer.value limits (v a)) fun a => ArtifactDlop.serialize (v a) :=
    ⟨_, _, fun a _ => .value limits (v a),
      stringBytes_prefixFree.comap (k := fun a => ArtifactDlop.serialize (v a)) fun _ h => h.2⟩
  exact h.map fun a b _ _ heq => LawfulDlop.serialize_inj heq

lemma enumeration (number : β → ℕ) (v : α → β) (last : ℕ) (hla : ∀ b, number b < 2 ^ 32)
    (hnu : Function.Injective number) :
    Tells Q (fun a => Writer.enumeration limits (number (v a)) last) v :=
  ⟨_, fun _ => True, fun _ _ => .enumeration limits _ last,
    (sizeBytes_prefixFree.comap (k := fun a => number (v a)) fun _ _ => hla _).map
      fun _ _ _ _ heq => hnu heq⟩

section

variable {code : β → WriterM Unit} {x : β → γ} (h : Tells Any code x)
include h

/-- The elements of lists of one length. -/
lemma forM (l : α → List β) (n : ℕ) (hn : ∀ a, (l a).length = n) :
    Tells Q (fun a => (l a).forM code) fun a => (l a).map x := by
  obtain ⟨bytes, P, hwr, hde⟩ := h
  refine ⟨fun a => (l a).flatMap bytes, fun a => ∀ b ∈ l a, P b,
    fun _ _ => .forM fun b _ => hwr b trivial, ?_⟩
  exact (hde.flatMap n).comap (k := l) fun a ha => ⟨hn a, fun b hb => ⟨trivial, ha.2 b hb⟩⟩

/-- The elements of lists after their lengths. -/
lemma counted (l : α → List β) (limit : UInt32) :
    Tells Q (fun a => do
      Writer.count limits (l a).length limit.toNat; Writer.size limits
        (l a).length; (l a).forM code)
      fun a => (l a).map x := by
  obtain ⟨bytes, P, hwr, hde⟩ := h
  have hli : ∀ a, Writes (do
      Writer.count limits (l a).length limit.toNat; Writer.size limits
        (l a).length; (l a).forM code) ()
      (sizeBytes (l a).length ++ (l a).flatMap bytes) ((l a).length < 2 ^ 32 ∧ ∀ b ∈ l a, P b) := by
    intro a
    have hsz := Writes.bind (k := fun _ => (l a).forM code) (.size limits (l a).length)
      (.forM fun b _ => hwr b trivial)
    have hall := Writes.bind (k := fun _ => _) (.count limits (l a).length limit.toNat) hsz
    exact hall.mono fun hF => ⟨hF.1.trans_lt limit.toNat_lt, hF.2.2⟩
  exact ⟨_, _, fun a _ => hli a,
    (Determines.counted sizeBytes_prefixFree hde).comap (k := l) fun a ha => ⟨ha.2.1,
      fun e he => ⟨trivial, ha.2.2 e he⟩⟩⟩

/-- Vectors. -/
lemma sequence (element : Element) (l : α → List β) (limit : UInt32) :
    Tells Q (fun a => Writer.sequence limits sizeof element (l a) limit.toNat (fun _ b => code b)
      ()) fun a => (l a).map x := by
  obtain ⟨bytes, P, hwr, hde⟩ := h
  refine ⟨_, _, fun _ _ => .sequence limits sizeof (.foldlM_unit (.forM fun b _ => hwr b trivial)),
    (Determines.counted sizeBytes_prefixFree hde).comap (k := l) fun a ha => ⟨ha.2.1,
      fun e he => ⟨trivial, ha.2.2 e he⟩⟩⟩

end

end Tells

end LiveHD.Usyn
