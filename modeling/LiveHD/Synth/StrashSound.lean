import LiveHD.Synth.Strash

/-!
# Structural hashing keeps the behaviour

Every literal of the work network has the value of the node it was lowered from.  The gates
are hashed under their literals, read two older nodes that are not the constant, and no two
of them are the same.  The new network has the live gates with these tables.
-/

namespace LiveHD.Synth

open Nat hiding size zero
open Lnet Function List Option

namespace Strash

/-! ## Literals -/

variable (l : ℕ)

lemma xor_one_eq : l ^^^ 1 = 2 * (l / 2) + (1 - l % 2) := by
  have hdiv : (l ^^^ 1) / 2 = l / 2 := by
    rw [xor_div_two]
    exact Nat.xor_zero _
  have hmod : (l ^^^ 1) % 2 = (l + 1) % 2 := xor_mod_two_eq
  omega

lemma clear_eq : l ^^^ (l &&& 1) = 2 * (l / 2) := by
  rw [and_one_is_mod]
  have hdiv : (l ^^^ l % 2) / 2 = l / 2 := by
    rw [xor_div_two, div_eq_of_lt (mod_lt l Nat.two_pos), xor_zero]
  have hmod : (l ^^^ l % 2) % 2 = (l + l % 2) % 2 := xor_mod_two_eq
  omega

lemma shiftRight_one_eq : l >>> 1 = l / 2 := shiftRight_eq_div_pow l 1

lemma shiftLeft_one_eq : l <<< 1 = 2 * l := by rw [shiftLeft_eq, mul_comm]

/-- Literals of 32 bits are packed side by side. -/
lemma key_eq {a b : ℕ} (ha : a < 2 ^ 32) (hb : b < 2 ^ 32) : key a b = 2 ^ 32 * a + b := by
  have hlt : a <<< 32 < 2 ^ 64 := by omega
  rw [key, mod_eq_of_lt hlt, shiftLeft_eq, mul_comm, two_pow_add_eq_or_of_lt hb]

lemma key_inj {a b a' b' : ℕ} (ha : a < 2 ^ 32) (hb : b < 2 ^ 32)
    (ha' : a' < 2 ^ 32) (hb' : b' < 2 ^ 32)
    (h : key a b = key a' b') : a = a' ∧ b = b' := by
  rw [key_eq ha hb, key_eq ha' hb'] at h
  omega

def gateOp (isXor : Bool) : Bool → Bool → Bool := if isXor then xor else and

lemma getLsbD_gateFn (a b : ℕ) (isXor : Bool) {x : ℕ} (hx : x < 4) : (gateFn a b isXor).getLsbD x =
    gateOp isXor (x.testBit 0 ^^ a.testBit 0) (x.testBit 1 ^^ b.testBit 0) := by
  rw [gateFn]
  generalize a.testBit 0 = p
  generalize b.testBit 0 = q
  revert x isXor p q
  decide

/-! ## The work network -/

/-- The literals and the operation that a gate is hashed by. -/
structure Rec where
  a : ℕ
  b : ℕ
  isXor : Bool

def Rec.gate (r : Rec) : Gate := ⟨r.a / 2, r.b / 2, gateFn r.a r.b r.isXor⟩

/-- A gate as the operations build it at work node `id`. -/
structure Rec.Ok (r : Rec) (id : ℕ) : Prop where
  constant : 2 ≤ r.a
  distinct : r.a / 2 < r.b / 2
  older : r.b / 2 < id
  plain : r.isXor = true → r.a % 2 = 0 ∧ r.b % 2 = 0

/-- The table of a gate tells its operation and the phases of its literals. -/
lemma Rec.eq_of_table {r r' : Rec} {id id' : ℕ} (hr : r.Ok id) (hr' : r'.Ok id')
    (ha : r.a / 2 = r'.a / 2) (hb : r.b / 2 = r'.b / 2)
    (hfn : ∀ x < 4, (gateFn r.a r.b r.isXor).getLsbD x = (gateFn r'.a r'.b r'.isXor).getLsbD x) :
    r = r' := by
  have hph : r.a.testBit 0 = r'.a.testBit 0 ∧ r.b.testBit 0 = r'.b.testBit 0 ∧
      r.isXor = r'.isXor := by
    have hta : ∀ x < 4, gateOp r.isXor (x.testBit 0 ^^ r.a.testBit 0)
        (x.testBit 1 ^^ r.b.testBit 0) =
        gateOp r'.isXor (x.testBit 0 ^^ r'.a.testBit 0) (x.testBit 1 ^^ r'.b.testBit 0) :=
        fun x hx => by
      rw [← getLsbD_gateFn _ _ _ hx, ← getLsbD_gateFn _ _ _ hx, hfn x hx]
    have hp : ∀ {s : Rec} {id : ℕ}, s.Ok id → s.isXor = true → s.a.testBit 0 = false ∧
        s.b.testBit 0 = false := by
      intro s id hs hx
      obtain ⟨h1, h2⟩ := hs.plain hx
      rw [testBit_zero, testBit_zero, h1, h2]
      exact ⟨rfl, rfl⟩
    have h1 := hp hr
    have h2 := hp hr'
    revert hta h1 h2
    generalize r.a.testBit 0 = p
    generalize r.b.testBit 0 = q
    generalize r'.a.testBit 0 = p'
    generalize r'.b.testBit 0 = q'
    generalize r.isXor = x
    generalize r'.isXor = x'
    revert p q p' q' x x'
    decide
  obtain ⟨h1, h2, h3⟩ := hph
  rw [testBit_zero, testBit_zero, decide_eq_decide] at h1 h2
  obtain ⟨a, b, x⟩ := r
  obtain ⟨a', b', x'⟩ := r'
  obtain rfl : x = x' := h3
  dsimp only at ha hb h1 h2
  obtain rfl : a = a' := by omega
  obtain rfl : b = b' := by omega
  rfl

lemma Rec.gate_inj {r r' : Rec} {id id' : ℕ} (hr : r.Ok id) (hr' : r'.Ok id')
    (h : r.gate = r'.gate) : r = r' := by
  obtain ⟨ha, hb, hfn⟩ := Gate.mk.inj h
  exact Rec.eq_of_table hr hr' ha hb fun x _ => by rw [hfn]

/-- Gates are canonical and hashed under their literals, which fit 32 bits. -/
structure Work.Ok (sources : ℕ) (w : Work) : Prop where
  limit : sources + 1 + w.gates.length ≤ 2 ^ 31
  gate : ∀ (j : ℕ) (g : Gate), w.gates[j]? = some g →
    ∃ r : Rec, r.Ok (sources + 1 + j) ∧ g = r.gate ∧
    w.nodes r.isXor (key r.a r.b) = some (sources + 1 + j)
  hit : ∀ (r : Rec) (id : ℕ), r.a < 2 ^ 32 → r.b < 2 ^ 32 →
    w.nodes r.isXor (key r.a r.b) = some id →
    ∃ j, id = sources + 1 + j ∧ w.gates[j]? = some r.gate

variable {i j : ℕ} {g : Gate} {k : ℕ}

section

variable {sources : ℕ} {w w' : Work} {ci : ℕ → Bool}

lemma ok_empty (h : sources + 1 ≤ 2 ^ 31) : Work.Ok sources {} where
  limit := h
  gate := nofun
  hit r id _ _ h := by
    rw [Work.nodes] at h
    split at h <;> cases h

/-- No two gates are the same. -/
lemma Work.Ok.unique (hw : w.Ok sources) (hi : w.gates[i]? = some g)
    (hj : w.gates[j]? = some g) : i = j := by
  obtain ⟨r, hr, hg, hn⟩ := hw.gate i g hi
  obtain ⟨r', hr', hg', hn'⟩ := hw.gate j g hj
  obtain rfl := Rec.gate_inj hr hr' (hg.symm.trans hg')
  rw [hn] at hn'
  have := some.inj hn'
  omega

def Gate.value (val : ℕ → Bool) (g : Gate) : Bool := g.fn.getLsbD (rowIndex [g.a, g.b] val)

/-- The values of the work nodes. -/
def Work.valueAt (sources : ℕ) (w : Work) (ci : ℕ → Bool) (id : ℕ) : Bool :=
  (forward Gate.value false (false :: (range sources).map ci) w.gates).getD id false

def Work.litValue (sources : ℕ) (w : Work) (ci : ℕ → Bool)
    (l : ℕ) : Bool := w.valueAt sources ci (l / 2) ^^ l.testBit 0

lemma length_init (sources : ℕ) (ci : ℕ → Bool) :
    (false :: (range sources).map ci).length = sources + 1 := by
  simp

lemma Work.valueAt_zero : w.valueAt sources ci 0 = false := getD_forward_init (succ_pos _)

lemma Work.valueAt_source (hk : k < sources) : w.valueAt sources ci (1 + k) = ci k := by
  rw [Work.valueAt, getD_forward_init (by rw [length_init]; omega), add_comm, getD_cons_succ,
    getD_eq_getElem?_getD, getElem?_map, getElem?_range hk]
  rfl

lemma Work.valueAt_of_extends (h : w.gates <+: w'.gates) {id : ℕ}
    (hid : id < sources + 1 + w.gates.length) :
    w'.valueAt sources ci id = w.valueAt sources ci id := by
  obtain ⟨more, hmo⟩ := h
  rw [Work.valueAt, ← hmo]
  exact getD_forward_append (by rwa [length_init])

lemma Rec.gate_older {r : Rec} {id : ℕ} (hr : r.Ok id) : r.gate.a < id ∧ r.gate.b < id :=
  ⟨hr.distinct.trans hr.older, hr.older⟩

lemma Work.valueAt_fn (hj : w.gates[j]? = some g)
    (ho : g.a < sources + 1 + j ∧ g.b < sources + 1 + j) :
    w.valueAt sources ci (sources + 1 + j) = g.fn.getLsbD
    (rowIndex [g.a, g.b] (w.valueAt sources ci)) := by
  have hlo : ∀ val val' : ℕ → Bool,
      (∀ i < (false :: (range sources).map ci).length + j, val i = val' i) →
      Gate.value val g = Gate.value val' g := by
    intro val val' hval
    rw [length_init] at hval
    unfold Gate.value
    rw [rowIndex_congr]
    intro i hi
    rcases mem_pair.1 hi with rfl | rfl
    · exact hval _ ho.1
    · exact hval _ ho.2
  have h := getD_forward (d := false) hj hlo
  rwa [length_init] at h

/-- The value of a gate over the literals it was built from. -/
lemma Work.valueAt_gate {r : Rec} (hj : w.gates[j]? = some r.gate) (hr : r.Ok (sources + 1 + j)) :
    w.valueAt sources ci (sources + 1 + j) = gateOp r.isXor (w.litValue sources ci r.a)
    (w.litValue sources ci r.b) := by
  rw [Work.valueAt_fn hj (Rec.gate_older hr), Rec.gate, getLsbD_gateFn _ _ _ (rowIndex_lt [_, _] _),
    testBit_rowIndex, testBit_rowIndex]
  rfl

/-- A literal of the network that has the value of `f`. -/
structure IsLit (sources : ℕ) (w : Work) (l : ℕ) (f : (ℕ → Bool) → Bool) : Prop where
  lt : l / 2 < sources + 1 + w.gates.length
  value : ∀ ci, w.litValue sources ci l = f ci

/-- From `w` the computation appends at most `k` gates and returns a literal for `f`. -/
structure Lowers (sources : ℕ) (m : StateM Work ℕ) (w : Work) (k : ℕ)
    (f : (ℕ → Bool) → Bool) : Prop where
  ok : (m.run w).2.Ok sources
  pre : w.gates <+: (m.run w).2.gates
  length : (m.run w).2.gates.length ≤ w.gates.length + k
  lit : IsLit sources (m.run w).2 (m.run w).1 f

variable {l a b : ℕ} {f f' : (ℕ → Bool) → Bool}

lemma IsLit.mono (h : IsLit sources w l f) (hpre : w.gates <+: w'.gates) :
    IsLit sources w' l f where
  lt := h.lt.trans_le (Nat.add_le_add_left hpre.length_le _)
  value ci := by rw [← h.value ci, Work.litValue, Work.litValue, Work.valueAt_of_extends hpre h.lt]

lemma IsLit.congr (h : IsLit sources w l f) (hf : ∀ ci, f ci = f' ci) : IsLit sources w l f' where
  lt := h.lt
  value ci := (h.value ci).trans (hf ci)

lemma IsLit.not (h : IsLit sources w l f) : IsLit sources w (l ^^^ 1) fun ci => !f ci where
  lt := by
    have hdiv : (l ^^^ 1) / 2 = l / 2 := by
      rw [xor_one_eq]
      omega
    rw [hdiv]
    exact h.lt
  value ci := by
    have hdiv : (l ^^^ 1) / 2 = l / 2 := by
      rw [xor_one_eq]
      omega
    rw [← h.value ci, Work.litValue, Work.litValue, hdiv, testBit_xor]
    cases Work.valueAt sources w ci (l / 2) <;> cases l.testBit 0 <;> rfl

lemma isLit_zero : IsLit sources w zero fun _ => false where
  lt := lt_of_lt_of_le (succ_pos _) (le_add_right _ _)
  value ci := by
    rw [Work.litValue, zero, Work.valueAt_zero]
    rfl

/-- A literal of the constant node. -/
lemma IsLit.eq_of_le_one (h : IsLit sources w l f) (hl : l ≤ 1) (ci : ℕ → Bool) :
    f ci = decide (l = 1) := by
  rw [← h.value ci, Work.litValue, div_eq_of_lt (by omega), Work.valueAt_zero]
  rcases le_one_iff_eq_zero_or_eq_one.1 hl with rfl | rfl <;> rfl

lemma IsLit.eq_not (ha : IsLit sources w (b ^^^ 1) f) (hb : IsLit sources w b f')
    (ci : ℕ → Bool) : f ci = !f' ci := by
  rw [← ha.value ci, ← hb.not.value ci]

lemma Lowers.pure (hw : w.Ok sources) (k : ℕ) (h : IsLit sources w l f) :
    Lowers sources (Pure.pure l) w k f :=
  ⟨hw, prefix_rfl, le_add_right _ _, h⟩

lemma Lowers.congr {m : StateM Work ℕ} (h : Lowers sources m w k f) (hf : ∀ ci, f ci = f' ci) :
    Lowers sources m w k f' :=
  ⟨h.ok, h.pre, h.length, h.lit.congr hf⟩

/-- A new gate that was not found. -/
lemma Work.Ok.push (hw : w.Ok sources) {isXor : Bool} (hn : w.nodes isXor (key a b) = none)
    (hr : Rec.Ok ⟨a, b, isXor⟩ (sources + 1 + w.gates.length))
    (hro : sources + 1 + w.gates.length + 1 ≤ 2 ^ 31)
    (hga : (w.push a b isXor (sources + 1 + w.gates.length)).gates =
      w.gates ++ [Rec.gate ⟨a, b, isXor⟩]) :
    (w.push a b isXor (sources + 1 + w.gates.length)).Ok sources := by
  have hns : ∀ x, (w.push a b isXor (sources + 1 + w.gates.length)).nodes x =
      if x = isXor then update (w.nodes x) (key a b) (some (sources + 1 + w.gates.length))
      else w.nodes x := by
    intro x
    cases x <;> cases isXor <;> rfl
  have hbo : b / 2 < sources + 1 + w.gates.length := hr.older
  have hlt : a / 2 < b / 2 := hr.distinct
  refine ⟨?_, fun j g hj => ?_, fun r id ha' hb' hid => ?_⟩
  · rw [hga, length_append]
    exact hro
  · rw [hga] at hj
    rcases lt_or_ge j w.gates.length with hjlt | hjge
    · rw [getElem?_append_left hjlt] at hj
      obtain ⟨r, hrj, hg, hf⟩ := hw.gate j g hj
      refine ⟨r, hrj, hg, ?_⟩
      rw [hns]
      split
      · next hx =>
        rw [update_of_ne]
        · exact hf
        · intro hkey
          rw [hx, hkey, hn] at hf
          cases hf
      · exact hf
    · obtain ⟨rfl, rfl⟩ : j = w.gates.length ∧ g = Rec.gate ⟨a, b, isXor⟩ := by
        have hlt := (List.getElem?_eq_some_iff.1 hj).1
        rw [length_append, length_singleton] at hlt
        obtain rfl : j = w.gates.length := by omega
        rw [getElem?_concat_length] at hj
        exact ⟨rfl, (some.inj hj).symm⟩
      refine ⟨⟨a, b, isXor⟩, hr, rfl, ?_⟩
      simp [hns]
  · rw [hns] at hid
    by_cases hsa : r.isXor = isXor ∧ key r.a r.b = key a b
    · rw [if_pos hsa.1, hsa.2, update_self] at hid
      obtain ⟨h1, h2⟩ := key_inj ha' hb' (by omega) (by omega) hsa.2
      refine ⟨w.gates.length, (some.inj hid).symm, ?_⟩
      obtain ⟨ra, rb, rx⟩ := r
      obtain ⟨rfl, -⟩ := hsa
      obtain rfl : ra = a := h1
      obtain rfl : rb = b := h2
      simp [hga]
    · have hold : w.nodes r.isXor (key r.a r.b) = some id := by
        split at hid
        · next hx => rwa [update_of_ne fun hkey => hsa ⟨hx, hkey⟩] at hid
        · exact hid
      obtain ⟨j, rfl, hj⟩ := hw.hit r id ha' hb' hold
      refine ⟨j, rfl, ?_⟩
      rwa [hga, getElem?_append_left (List.getElem?_eq_some_iff.1 hj).1]

lemma run_gate (isXor : Bool) : (gate sources a b isXor).run w = match w.nodes isXor (key a b) with
    | some id => (id <<< 1, w)
    | none => (lid (sources + 1 + w.gates.length) <<< 1,
      w.push a b isXor (lid (sources + 1 + w.gates.length))) := rfl

/-- A gate, new or found. -/
lemma gate_lowers (hw : w.Ok sources) (isXor : Bool)
    (hro : sources + 1 + w.gates.length + 1 ≤ 2 ^ 31)
    (hr : Rec.Ok ⟨a, b, isXor⟩ (sources + 1 + w.gates.length)) (ha : IsLit sources w a f)
    (hb : IsLit sources w b f') :
    Lowers sources (gate sources a b isXor) w 1 fun ci => gateOp isXor (f ci) (f' ci) := by
  have hbo : b / 2 < sources + 1 + w.gates.length := hr.older
  have hlt : a / 2 < b / 2 := hr.distinct
  have ha32 : a < 2 ^ 32 := by omega
  have hb32 : b < 2 ^ 32 := by omega
  cases hn : w.nodes isXor (key a b) with
  | some id =>
    have hrun : (gate sources a b isXor).run w = (id <<< 1, w) := by
      rw [run_gate, hn]
    obtain ⟨j, rfl, hj⟩ := hw.hit ⟨a, b, isXor⟩ id ha32 hb32 hn
    have hjlt := (List.getElem?_eq_some_iff.1 hj).1
    obtain ⟨r, hrj, hg, -⟩ := hw.gate j _ hj
    obtain rfl := Rec.gate_inj hr hrj hg
    refine ⟨hrun ▸ hw, hrun ▸ prefix_rfl, hrun ▸ le_succ _, ?_⟩
    rw [hrun, shiftLeft_one_eq]
    dsimp only
    refine ⟨by omega, fun ci => ?_⟩
    rw [Work.litValue, Nat.mul_div_cancel_left _ Nat.two_pos, Work.valueAt_gate hj hrj, ha.value,
      hb.value, testBit_zero, mul_mod_right]
    exact Bool.xor_false _
  | none =>
    have hid : lid (sources + 1 + w.gates.length) =
      sources + 1 + w.gates.length := mod_eq_of_lt (by omega)
    have hgt : (⟨lid (a >>> 1), lid (b >>> 1), gateFn a b isXor⟩ : Gate) =
        Rec.gate ⟨a, b, isXor⟩ := by
      rw [lid, lid, mod_eq_of_lt (by omega), mod_eq_of_lt (by omega)]
      rfl
    have hrun : (gate sources a b isXor).run w = ((sources + 1 + w.gates.length) <<< 1,
        w.push a b isXor (sources + 1 + w.gates.length)) := by
      rw [run_gate, hn, hid]
    have hga : (w.push a b isXor (sources + 1 + w.gates.length)).gates =
        w.gates ++ [Rec.gate ⟨a, b, isXor⟩] := by
      rw [Work.push, hgt]
    have hok := hw.push hn hr hro hga
    have hla : (w.push a b isXor (sources + 1 + w.gates.length)).gates[w.gates.length]? =
        some (Rec.gate ⟨a, b, isXor⟩) := by
      simp [hga]
    have hpre : w.gates <+: (w.push a b isXor (sources + 1 + w.gates.length)).gates := ⟨_, hga.symm⟩
    have hlen : (w.push a b isXor (sources + 1 + w.gates.length)).gates.length =
        w.gates.length + 1 := by
      simp [hga]
    refine ⟨?_, ?_, ?_, ?_⟩ <;> rw [hrun]
    · exact hok
    · exact hpre
    · exact hlen.le
    · rw [shiftLeft_one_eq]
      refine ⟨by rw [hlen]; omega, fun ci => ?_⟩
      rw [Work.litValue, Nat.mul_div_cancel_left _ Nat.two_pos,
        Work.valueAt_gate hla hr, (ha.mono hpre).value,
        (hb.mono hpre).value, testBit_zero, mul_mod_right]
      exact Bool.xor_false _

lemma Lowers.bind {m : StateM Work ℕ} {c : ℕ → StateM Work ℕ} (h : Lowers sources m w k f)
    (hc : ∀ l w', w'.Ok sources → w.gates <+: w'.gates →
      w'.gates.length ≤ w.gates.length + k → IsLit sources w' l f →
      Lowers sources (c l) w' i f') : Lowers sources (m >>= c) w (k + i) f' := by
  obtain ⟨hok, hpre, hlen, hlit⟩ := hc _ _ h.ok h.pre h.length h.lit
  have hle' := h.length
  exact ⟨hok, h.pre.trans hpre, hlen.trans (by omega), hlit⟩

lemma Lowers.map {m : StateM Work ℕ} {c : ℕ → ℕ} (h : Lowers sources m w k f)
    (hc : ∀ l w', IsLit sources w' l f → IsLit sources w' (c l) f') :
    Lowers sources (c <$> m) w k f' :=
  ⟨h.ok, h.pre, h.length, hc _ _ h.lit⟩

/-- Two literals neither of the constant nor of one node. -/
lemma gate_min_max_lowers (hw : w.Ok sources) (isXor : Bool)
    (hro : sources + 1 + w.gates.length + 1 ≤ 2 ^ 31)
    (ha : IsLit sources w a f) (hb : IsLit sources w b f') (ha2 : 2 ≤ a)
    (hb2 : 2 ≤ b) (hne : a / 2 ≠ b / 2)
    (hp : isXor = true → a % 2 = 0 ∧ b % 2 = 0) :
    Lowers sources (gate sources (min a b) (max a b) isXor) w 1 fun ci =>
    gateOp isXor (f ci) (f' ci) := by
  have hla := ha.lt
  have hlb := hb.lt
  have hco : ∀ x y, gateOp isXor x y = gateOp isXor y x := by
    cases isXor <;> decide
  rcases le_total a b with hle | hle
  · rw [min_eq_left hle, max_eq_right hle]
    exact gate_lowers hw isXor hro ⟨ha2, by change a / 2 < b / 2; omega, hlb, hp⟩ ha hb
  · rw [min_eq_right hle, max_eq_left hle]
    have h := gate_lowers hw isXor hro
      ⟨hb2, by change b / 2 < a / 2; omega, hla, fun h => (hp h).symm⟩ hb ha
    exact h.congr fun ci => hco _ _

lemma land_lowers (hw : w.Ok sources) (hro : sources + 1 + w.gates.length + 1 ≤ 2 ^ 31)
    (ha : IsLit sources w a f) (hb : IsLit sources w b f') :
    Lowers sources (land sources a b) w 1 fun ci => f ci && f' ci := by
  rw [land]
  split
  · next h =>
    refine .pure hw 1 (isLit_zero.congr fun ci => ?_)
    rcases h with rfl | rfl | rfl
    · rw [ha.eq_of_le_one (by decide)]
      rfl
    · rw [hb.eq_of_le_one (by decide), Bool.and_comm]
      rfl
    · rw [ha.eq_not hb]
      exact (Bool.not_and_self _).symm
  next h0 =>
  split
  · next h =>
    refine .pure hw 1 (hb.congr fun ci => ?_)
    rcases h with rfl | rfl
    · rw [ha.eq_of_le_one (by decide)]
      rfl
    · simp [← ha.value ci, ← hb.value ci]
  next h1 =>
  split
  · next h =>
    refine .pure hw 1 (ha.congr fun ci => ?_)
    rw [hb.eq_of_le_one (by rw [h]; exact le_rfl), h]
    exact (Bool.and_true _).symm
  next h2 =>
  rw [zero, xor_one_eq] at h0
  rw [one] at h1 h2
  exact gate_min_max_lowers hw _ hro ha hb (by omega) (by omega) (by omega) nofun

lemma IsLit.phased (h : IsLit sources w l f) {phase : ℕ} (hp : phase < 2) :
    IsLit sources w (l ^^^ phase) fun ci => f ci ^^ decide (phase = 1) := by
  obtain rfl | rfl : phase = 0 ∨ phase = 1 := by omega
  · rw [xor_zero]
    exact h.congr fun ci => (Bool.xor_false _).symm
  · exact h.not.congr fun ci => (Bool.xor_true _).symm

lemma lxorPlain_lowers (hw : w.Ok sources)
    (hro : sources + 1 + w.gates.length + 3 ≤ 2 ^ 31) (xorNodes : Bool)
    {phase : ℕ} (hp : phase < 2) (ha : IsLit sources w a f) (hb : IsLit sources w b f')
    (ha0 : a % 2 = 0) (hb0 : b % 2 = 0) :
    Lowers sources (lxorPlain sources xorNodes phase a b) w 3 fun ci =>
    (f ci ^^ f' ci) ^^ decide (phase = 1) := by
  rw [lxorPlain]
  split
  · next h =>
    refine .pure hw 3 ((hb.phased hp).congr fun ci => ?_)
    rw [ha.eq_of_le_one (by rw [h]; exact zero_le 1), h]
    exact congrArg (· ^^ _) (Bool.false_xor _).symm
  next hza =>
  split
  · next h =>
    refine .pure hw 3 ((ha.phased hp).congr fun ci => ?_)
    rw [hb.eq_of_le_one (by rw [h]; exact zero_le 1), h]
    exact congrArg (· ^^ _) (Bool.xor_false _).symm
  next hzb =>
  split
  · next h =>
    refine .pure hw 3 ((isLit_zero.phased hp).congr fun ci => ?_)
    subst h
    rw [← ha.value ci, ← hb.value ci, Bool.xor_self]
  next hne =>
  rw [zero] at hza hzb
  split
  · have h := gate_min_max_lowers hw true (by omega) ha hb (by omega) (by omega) (by omega) fun _ =>
      ⟨ha0, hb0⟩
    have h' := h.map fun l w' hl => hl.phased hp
    exact ⟨h'.ok, h'.pre, h'.length.trans (by omega), h'.lit⟩
  · -- three ANDs
    obtain ⟨g, g', hlo, hhi, hval⟩ :
        ∃ g g', IsLit sources w (min a b) g ∧ IsLit sources w (max a b) g' ∧
        ∀ ci, (g ci ^^ g' ci) = (f ci ^^ f' ci) := by
      rcases le_total a b with hle | hle
      · rw [min_eq_left hle, max_eq_right hle]
        exact ⟨f, f', ha, hb, fun _ => rfl⟩
      · rw [min_eq_right hle, max_eq_left hle]
        exact ⟨f', f, hb, ha, fun _ => Bool.xor_comm _ _⟩
    refine (land_lowers hw (by omega) hlo hhi.not).bind (i := 2) fun p w1 hw1 hpr1 hle1 hp1 => ?_
    refine (land_lowers hw1 (by omega) (hlo.mono hpr1).not (hhi.mono hpr1)).bind (i := 1)
      fun q w2 hw2 hpr2 hle2 hq2 => ?_
    have hr := land_lowers hw2 (by omega) (hp1.mono hpr2).not hq2.not
    refine hr.map fun l w' hl => (hl.not.phased hp).congr fun ci => ?_
    rw [← hval ci]
    cases g ci <;> cases g' ci <;> rfl

lemma IsLit.clear (h : IsLit sources w l f) : IsLit sources w (l ^^^ (l &&& 1)) fun ci =>
    f ci ^^ l.testBit 0 := by
  have hp : l &&& 1 < 2 := by
    rw [and_one_is_mod]
    exact mod_lt _ Nat.two_pos
  refine (h.phased hp).congr fun ci => ?_
  rw [and_one_is_mod, testBit_zero]

lemma lxor_lowers (hw : w.Ok sources)
    (hro : sources + 1 + w.gates.length + 3 ≤ 2 ^ 31) (xorNodes : Bool)
    (ha : IsLit sources w a f) (hb : IsLit sources w b f') :
    Lowers sources (lxor sources xorNodes a b) w 3 fun ci => f ci ^^ f' ci := by
  have hp : (a ^^^ b) &&& 1 < 2 := by
    rw [and_one_is_mod]
    exact mod_lt _ Nat.two_pos
  refine (lxorPlain_lowers hw hro xorNodes hp ha.clear hb.clear ?_ ?_).congr fun ci => ?_
  · rw [clear_eq, mul_mod_right]
  · rw [clear_eq, mul_mod_right]
  · have hph : decide ((a ^^^ b) &&& 1 = 1) = (a.testBit 0 ^^ b.testBit 0) := by
      rw [and_one_is_mod, ← testBit_zero, testBit_xor]
    rw [hph]
    cases f ci <;> cases f' ci <;> cases a.testBit 0 <;> cases b.testBit 0 <;> rfl

end

/-! ## Lowering -/

/-- The nodes that `strash` takes: any but a table that is not one of the four gates. -/
def IsRaw (n : Node) : Prop := n.kind = .lut →
  (n.fanins.length = 1 ∧ n.fn = kNot) ∨
  (n.fanins.length = 2 ∧ (n.fn = kAnd2 ∨ n.fn = kOr2 ∨ n.fn = kXor2))

instance (n : Node) : Decidable (IsRaw n) := inferInstanceAs (Decidable (_ → _))

section

variable {raw : Lnet} {w : Work} {lits : List ℕ} {id : ℕ} {n : Node}

lemma isSome_lowerNode (lits : List ℕ) (xorNodes : Bool) :
    (lowerNode raw xorNodes lits n).isSome = true ↔ IsRaw n := by
  unfold lowerNode IsRaw
  cases n.kind with
  | constant => exact iff_of_true rfl nofun
  | source => exact iff_of_true rfl nofun
  | lut =>
    dsimp only
    split_ifs with h1 h2 h3 h4
    · exact iff_of_true rfl fun _ => .inl h1
    · exact iff_of_true rfl fun _ => .inr ⟨h2.1, .inl h2.2⟩
    · exact iff_of_true rfl fun _ => .inr ⟨h3.1, .inr (.inl h3.2)⟩
    · exact iff_of_true rfl fun _ => .inr ⟨h4.1, .inr (.inr h4.2)⟩
    · refine iff_of_false Bool.false_ne_true fun h => ?_
      rcases h rfl with h | ⟨hlen, h | h | h⟩
      · exact h1 h
      · exact h2 ⟨hlen, h⟩
      · exact h3 ⟨hlen, h⟩
      · exact h4 ⟨hlen, h⟩

section

variable (hn : raw.nodes[id]? = some n) (hok : raw.NodeOk id n)
include hn hok

/-- The value of a gate of few fanins, from its word. -/
lemma valueAt_fn (hk : n.kind = .lut) (hlen : n.fanins.length ≤ 6)
    (ci : ℕ → Bool) : raw.valueAt ci id = n.fn.getLsbD (rowIndex n.fanins (raw.valueAt ci)) := by
  obtain ⟨fn, hfn⟩ := hok.narrow hk hlen
  have hlt := rowIndex_lt n.fanins (raw.valueAt ci)
  have hlt' := hlt.trans_le (Nat.pow_le_pow_right Nat.two_pos hlen)
  rw [valueAt_lut hn hok.older hk hfn hlen, Node.fn, hfn, getD_cons_zero,
    getLsbD_replicate fn hlen hlt', mod_eq_of_lt hlt]

lemma valueAt_not (hk : n.kind = .lut) (hi : n.fanins = [i]) (hfn : n.fn = kNot) (ci : ℕ → Bool) :
    raw.valueAt ci id = !raw.valueAt ci i := by
  have hrow : ∀ x < 2, kNot.getLsbD x = !x.testBit 0 := by decide
  rw [valueAt_fn hn hok hk (by simp [hi]), hi, hfn, hrow _ (rowIndex_lt [i] _), testBit_rowIndex]
  rfl

lemma valueAt_two (hk : n.kind = .lut)
    (hi : n.fanins = [i, j]) {fn : Word} (op : Bool → Bool → Bool)
    (hop : ∀ x < 4, fn.getLsbD x = op (x.testBit 0) (x.testBit 1))
    (hfn : n.fn = fn) (ci : ℕ → Bool) :
    raw.valueAt ci id = op (raw.valueAt ci i) (raw.valueAt ci j) := by
  rw [valueAt_fn hn hok hk (by simp [hi]), hi, hfn, hop _ (rowIndex_lt [i, j] _),
    testBit_rowIndex, testBit_rowIndex]
  rfl

lemma valueAt_constant (hk : n.kind = .constant) (ci : ℕ → Bool) :
    raw.valueAt ci id = decide (n.fn ≠ 0) := by
  obtain ⟨hfa, hta⟩ := hok.constant hk
  have hrow : rowIndex n.fanins (raw.valueAt ci) = 0 := by
    have hlt := rowIndex_lt n.fanins (raw.valueAt ci)
    rw [hfa] at hlt ⊢
    exact lt_one_iff.1 hlt
  have hv : raw.valueAt ci id = n.eval 0 := by
    rw [valueAt_eq hn hok.older, nodeValue, hk, hrow]
  rw [hv, Node.eval, Node.fn]
  rcases hta with h | h
  · rw [h]
    rfl
  · rw [h]
    rfl

end

/-- The literals of the first `i` nodes have their values. -/
structure Lowered (raw : Lnet) (i : ℕ) (lits : List ℕ) (w : Work) : Prop where
  length : lits.length = i
  ok : w.Ok (sourceCount raw)
  gates : w.gates.length ≤ 3 * i
  lit : ∀ j < i, IsLit (sourceCount raw) w (lits.getD j zero) fun ci => raw.valueAt ci j

lemma lowerNode_lowers (hlow : Lowered raw id lits w)
    (hn : raw.nodes[id]? = some n) (hok : raw.NodeOk id n)
    (hro : sourceCount raw + 1 + w.gates.length + 3 ≤ 2 ^ 31) {xorNodes : Bool}
    {m : StateM Work ℕ} (hm : lowerNode raw xorNodes lits n = some m) :
    Lowers (sourceCount raw) m w 3 fun ci => raw.valueAt ci id := by
  have hw := hlow.ok
  have hlit : ∀ j, j ∈ n.fanins →
      IsLit (sourceCount raw) w (lits.getD j zero) fun ci => raw.valueAt ci j :=
    fun j hj => hlow.lit j (hok.older j hj)
  unfold lowerNode at hm
  cases hk : n.kind with
  | constant =>
    rw [hk] at hm
    cases hm
    refine .pure hw 3 ?_
    split
    · next h =>
      refine (isLit_zero.not).congr fun ci => ?_
      rw [valueAt_constant hn hok hk, decide_eq_true h]
      rfl
    · next h =>
      refine isLit_zero.congr fun ci => ?_
      rw [valueAt_constant hn hok hk, decide_eq_false h]
  | source =>
    rw [hk] at hm
    cases hm
    have hin : raw.ciIndex n < sourceCount raw := by
      have h := (hok.source hk).2
      rw [ciIndex, sourceCount]
      split at h
      · next hl =>
        rw [if_pos hl]
        omega
      · next hl =>
        rw [if_neg hl]
        omega
    refine .pure hw 3 ⟨?_, fun ci => ?_⟩
    · omega
    · rw [Work.litValue, shiftLeft_one_eq, Nat.mul_div_cancel_left _ Nat.two_pos,
        Work.valueAt_source hin,
        valueAt_source hn hok.older hk, testBit_zero, mul_mod_right]
      exact Bool.xor_false _
  | lut =>
    rw [hk] at hm
    dsimp only at hm
    split_ifs at hm with h1 h2 h3 h4
    · cases hm
      obtain ⟨i, hi⟩ := length_eq_one_iff.1 h1.1
      rw [hi]
      refine .pure hw 3 ((hlit i (by rw [hi]; exact mem_singleton_self i)).not.congr fun ci => ?_)
      rw [valueAt_not hn hok hk hi h1.2]
    · cases hm
      obtain ⟨i, j, hi⟩ := length_eq_two.1 h2.1
      rw [hi] at hlit ⊢
      have h := land_lowers hw (by omega) (hlit i (by simp)) (hlit j (by simp))
      refine ⟨h.ok, h.pre, h.length.trans (by omega), h.lit.congr fun ci => ?_⟩
      rw [valueAt_two hn hok hk hi and (by decide) h2.2]
    · cases hm
      obtain ⟨i, j, hi⟩ := length_eq_two.1 h3.1
      rw [hi] at hlit ⊢
      have h := land_lowers hw (by omega) (hlit i (by simp)).not (hlit j (by simp)).not
      have h' := h.map fun l w' hl => hl.not
      refine ⟨h'.ok, h'.pre, h'.length.trans (by omega), h'.lit.congr fun ci => ?_⟩
      rw [valueAt_two hn hok hk hi or (by decide) h3.2]
      cases raw.valueAt ci i <;> cases raw.valueAt ci j <;> rfl
    · cases hm
      obtain ⟨i, j, hi⟩ := length_eq_two.1 h4.1
      rw [hi] at hlit ⊢
      refine (lxor_lowers hw hro xorNodes (hlit i (by simp)) (hlit j (by simp))).congr fun ci => ?_
      rw [valueAt_two hn hok hk hi xor (by decide) h4.2]

/-- A step that is not refused, on a node that `strash` takes. -/
def Takes (raw : Lnet) (options : Options)
    (i : ℕ) : Prop := options.refuses i = false ∧ IsRaw (raw.node i)

variable {options : Options}

lemma lowerStep_of_takes (hraw : raw.Valid) (hlow : Lowered raw id lits w) (hid : id < raw.size)
    (hro : sourceCount raw + 1 + w.gates.length + 3 ≤ 2 ^ 31) (ht : Takes raw options id) :
    ∃ lits' w', lowerStep raw options (lits, w) id = some (lits', w') ∧
    Lowered raw (id + 1) lits' w' := by
  have hn : raw.nodes[id]? = some (raw.node id) := by
    rw [node, getD_eq_getElem?_getD, getElem?_eq_getElem hid]
    rfl
  obtain ⟨m, hm⟩ := isSome_iff_exists.1 ((isSome_lowerNode lits options.xorNodes).2 ht.2)
  have h := lowerNode_lowers hlow hn (hraw.nodes id _ hn) hro hm
  refine ⟨lits ++ [(m.run w).1], (m.run w).2, ?_, ?_, h.ok, ?_, fun j hj => ?_⟩
  · rw [lowerStep, ht.1, hm]
    rfl
  · simp [hlow.length]
  · have h1 := h.length
    have h2 := hlow.gates
    omega
  · rcases Nat.lt_succ_iff_lt_or_eq.1 hj with hlt | rfl
    · rw [getD_append _ _ _ _ (by rwa [hlow.length])]
      exact (hlow.lit j hlt).mono h.pre
    · rw [getD_append_right _ _ _ _ hlow.length.le, hlow.length, Nat.sub_self]
      exact h.lit

lemma takes_of_lowerStep {s s' : List ℕ × Work} (h : lowerStep raw options s id = some s') :
    Takes raw options id := by
  rw [lowerStep] at h
  split at h
  · cases h
  · next hr =>
    obtain ⟨m, hm, -⟩ := map_eq_some_iff.1 h
    exact ⟨Bool.eq_false_iff.2 hr,
      (isSome_lowerNode _ options.xorNodes).1 (isSome_iff_exists.2 ⟨m, hm⟩)⟩

/-- Room for the literals of the work network in 32 bits: a node needs at most three gates. -/
def LiteralsFit (raw : Lnet) : Prop := firstGate raw + 3 * raw.size ≤ 2 ^ 31

lemma lower_of_takes (hraw : raw.Valid) (hfit : LiteralsFit raw)
    (ht : ∀ i, 1 ≤ i → i < raw.size → Takes raw options i) :
    ∃ lits w, lower raw options = some (lits, w) ∧ Lowered raw raw.size lits w := by
  rw [LiteralsFit, firstGate] at hfit
  have hpos : 0 < raw.size := (List.getElem?_eq_some_iff.1 hraw.zero).1
  have hlo : ∀ m, 1 + m ≤ raw.size →
      ∃ lits w, (range' 1 m).foldlM (lowerStep raw options) ([zero], {}) =
      some (lits, w) ∧ Lowered raw (1 + m) lits w := by
    intro m
    induction m with
    | zero =>
      intro _
      refine ⟨[zero], {}, rfl, rfl, ok_empty (by omega), zero_le _, fun j hj => ?_⟩
      obtain rfl : j = 0 := by omega
      refine isLit_zero.congr fun ci => ?_
      have h := valueAt_constant hraw.zero (hraw.nodes 0 _ hraw.zero) rfl ci
      rw [h]
      rfl
    | succ m ih =>
      intro hm
      obtain ⟨lits, w, hrun, hlow⟩ := ih (by omega)
      have hga := hlow.gates
      obtain ⟨lits', w', hst, hlo'⟩ :=
        lowerStep_of_takes hraw hlow (by omega) (by omega) (ht (1 + m) (by omega) (by omega))
      refine ⟨lits', w', ?_, hlo'⟩
      rw [range'_concat, foldlM_append, hrun, one_mul]
      change (lowerStep raw options (lits, w) (1 + m)).bind some = _
      rw [hst]
      rfl
  obtain ⟨lits, w, hrun, hlow⟩ := hlo (raw.size - 1) (by omega)
  rw [Nat.add_sub_cancel' hpos] at hlow
  exact ⟨lits, w, hrun, hlow⟩

lemma takes_of_lower {s : List ℕ × Work} (h : lower raw options = some s) (h1 : 1 ≤ i)
    (hi : i < raw.size) : Takes raw options i := by
  have hmem : i ∈ range' 1 (raw.size - 1) := mem_range'_1.2 ⟨h1, by omega⟩
  rw [lower] at h
  generalize ([zero], ({} : Work)) = s0 at h
  generalize range' 1 (raw.size - 1) = l at h hmem
  induction l generalizing s0 with
  | nil => cases hmem
  | cons j l ih =>
    obtain ⟨s1, hs1, hre⟩ := bind_eq_some_iff.1 h
    rcases mem_cons.1 hmem with rfl | hmem
    · exact takes_of_lowerStep hs1
    · exact ih s1 hre hmem

end

/-! ## The live gates -/

/-- The work nodes that the outputs reach. -/
inductive Reach (first : ℕ) (gates : List Gate) (outs : List ℕ) : ℕ → Prop
  | out {o : ℕ} : o ∈ outs → Reach first gates outs (o / 2)
  | left {j : ℕ} {g : Gate} : Reach first gates outs (first + j) → gates[j]? = some g →
    Reach first gates outs g.a
  | right {j : ℕ} {g : Gate} : Reach first gates outs (first + j) → gates[j]? = some g →
    Reach first gates outs g.b

section

variable {first : ℕ} {gates : List Gate} {outs : List ℕ}

/-- The marks once the gates from work node `k` on are visited. -/
structure Marked (first : ℕ) (gates : List Gate) (outs : List ℕ) (k : ℕ)
    (live : ℕ → Bool) : Prop where
  out : ∀ o ∈ outs, live (o / 2) = true
  closed : ∀ (j : ℕ) (g : Gate), gates[j]? = some g → k ≤ first + j → live (first + j) = true →
    live g.a = true ∧ live g.b = true
  reach : ∀ i, live i = true → Reach first gates outs i

lemma Marked.step {live : ℕ → Bool} (hm : Marked first gates outs (first + j + 1) live)
    (hg : gates[j]? = some g) (hol : ∀ (j : ℕ) (g : Gate), gates[j]? = some g →
      g.a < first + j ∧ g.b < first + j) :
    Marked first gates outs (first + j) (markStep first gates (first + j) live) := by
  have hget : gates.getD (first + j - first) ⟨0, 0, 0⟩ = g := by
    rw [Nat.add_sub_cancel_left, getD_eq_getElem?_getD, hg]
    rfl
  rw [markStep, hget]
  split
  · next hlv =>
    have hmo : ∀ i, live i = true → update (update live g.a true) g.b true i = true := by
      intro i hi
      rw [update_apply, update_apply, hi]
      split
      · rfl
      · split <;> rfl
    have hold := hol j g hg
    -- the marks of this gate are below it
    have hba : ∀ i, first + j ≤ i →
        update (update live g.a true) g.b true i = true → live i = true := by
      intro i hi h
      rwa [update_of_ne (by omega), update_of_ne (by omega)] at h
    refine ⟨fun o ho => hmo _ (hm.out o ho), fun j' g' hg' hle h => ?_, fun i hi => ?_⟩
    · rcases eq_or_lt_of_le hle with heq | hlt
      · obtain rfl : j = j' := by omega
        rw [hg] at hg'
        cases hg'
        refine ⟨?_, update_self _ _ _⟩
        rw [update_apply]
        split
        · rfl
        · exact update_self _ _ _
      · obtain ⟨h1, h2⟩ := hm.closed j' g' hg' hlt (hba _ hle h)
        exact ⟨hmo _ h1, hmo _ h2⟩
    · rw [update_apply] at hi
      split at hi
      · next h =>
        rw [h]
        exact .right (hm.reach _ hlv) hg
      · rw [update_apply] at hi
        split at hi
        · next h =>
          rw [h]
          exact .left (hm.reach _ hlv) hg
        · exact hm.reach i hi
  · next hlv =>
    refine ⟨hm.out, fun j' g' hg' hle h => ?_, hm.reach⟩
    rcases eq_or_lt_of_le hle with heq | hlt
    · rw [← heq] at h
      exact absurd h hlv
    · exact hm.closed j' g' hg' hlt h

lemma liveNodes_marked (outs : List ℕ)
    (hol : ∀ (j : ℕ) (g : Gate), gates[j]? = some g → g.a < first + j ∧ g.b < first + j) :
    Marked first gates outs first (liveNodes first gates outs) := by
  have hlo : ∀ m j, j + m = gates.length → Marked first gates outs (first + j)
      ((range' (first + j) m).foldr (markStep first gates) fun i => outs.any (· >>> 1 == i)) := by
    intro m
    induction m with
    | zero =>
      intro j hj
      refine ⟨fun o ho => ?_, fun j' g hg hle => ?_, fun i hi => ?_⟩
      · exact any_eq_true.2 ⟨o, ho, by simp [shiftRight_one_eq]⟩
      · have := (List.getElem?_eq_some_iff.1 hg).1
        omega
      · obtain ⟨o, ho, heq⟩ := any_eq_true.1 hi
        rw [beq_iff_eq] at heq
        rw [← heq]
        exact .out ho
    | succ m ih =>
      intro j hj
      have hlt : j < gates.length := by omega
      exact (ih (j + 1) (by omega)).step (getElem?_eq_getElem hlt) hol
  exact hlo gates.length 0 (zero_add _)

end

/-! ## The copy -/

/-- The node that `add_lut` appends. -/
def lutNode (fanins : List ℕ) (fn : Word) : Node :=
  { kind := .lut, fanins := fanins, table := [Lnet.replicate fn fanins.length] }

/-- A source, the constant or a live gate. -/
def Present (first : ℕ) (live : ℕ → Bool) (i : ℕ) : Prop := i < first ∨ live i = true

/-- The new network once `m` gates are visited: the live ones are there under their new ids. -/
structure Copied (raw : Lnet) (gates : List Gate) (live : ℕ → Bool) (m : ℕ) (net : Lnet)
    (ids : List ℕ) : Prop where
  pre : raw.boundary.nodes <+: net.nodes
  rest : net.inputs = raw.boundary.inputs ∧ net.latches = raw.boundary.latches ∧
    net.outputs = raw.boundary.outputs
  length : ids.length = firstGate raw + m
  source : ∀ i < firstGate raw, ids.getD i none32 = i
  bound : ∀ i < firstGate raw + m, Present (firstGate raw) live i → ids.getD i none32 < net.size
  mono : ∀ i i', i < i' → i' < firstGate raw + m → Present (firstGate raw) live i →
    Present (firstGate raw) live i' → ids.getD i none32 < ids.getD i' none32
  gate : ∀ (j : ℕ) (g : Gate), j < m → gates[j]? = some g → live (firstGate raw + j) = true →
    net.nodes[ids.getD (firstGate raw + j) none32]? =
    some (lutNode [ids.getD g.a none32, ids.getD g.b none32] g.fn)
  onto : ∀ v, firstGate raw ≤ v → v < net.size → ∃ (j : ℕ) (g : Gate), j < m ∧ gates[j]? = some g ∧
    live (firstGate raw + j) = true ∧ ids.getD (firstGate raw + j) none32 = v

section

variable {raw net : Lnet} {gates : List Gate} {live : ℕ → Bool} {m : ℕ} {ids : List ℕ}

lemma size_boundary_eq (raw : Lnet) : raw.boundary.size = firstGate raw := by
  rw [size_boundary, firstGate, sourceCount]
  omega

lemma getD_concat_of_lt {ids : List ℕ} {x : ℕ} (hi : i < ids.length) :
    (ids ++ [x]).getD i none32 = ids.getD i none32 :=
  getD_append _ _ _ _ hi

lemma copied_start (raw : Lnet) (gates : List Gate) (live : ℕ → Bool) :
    Copied raw gates live 0 raw.boundary (range (firstGate raw)) := by
  have hget : ∀ i < firstGate raw, (range (firstGate raw)).getD i none32 = i := by
    intro i hi
    rw [getD_eq_getElem?_getD, getElem?_range hi]
    rfl
  refine ⟨prefix_rfl, ⟨rfl, rfl, rfl⟩, length_range, hget, fun i hi _ => ?_,
    fun i i' hlt hi' _ _ => ?_, fun j _ hj => ?_, fun v hv hlt => ?_⟩
  · rwa [hget i hi, size_boundary_eq]
  · rwa [hget i (hlt.trans hi'), hget i' hi']
  · cases hj
  · rw [size_boundary_eq] at hlt
    exact absurd hlt (Nat.not_lt.2 hv)

/-- A dead gate gets no id. -/
lemma Copied.skip (hc : Copied raw gates live m net ids)
    (ho : ∀ (j : ℕ) (g : Gate), gates[j]? = some g → g.a < firstGate raw + j ∧
      g.b < firstGate raw + j) (hde : ¬live (firstGate raw + m) = true) :
    Copied raw gates live (m + 1) net (ids ++ [none32]) := by
  have hold : ∀ i < firstGate raw + m, (ids ++ [none32]).getD i none32 = ids.getD i none32 :=
    fun i hi => getD_concat_of_lt (by rwa [hc.length])
  have hpr : ∀ i < firstGate raw + (m + 1), Present (firstGate raw) live i →
      i < firstGate raw + m := by
    intro i hi hp
    by_contra hge
    obtain rfl : i = firstGate raw + m := by omega
    rcases hp with hp | hp
    · omega
    · exact hde hp
  refine ⟨hc.pre, hc.rest, ?_, fun i hi => ?_, fun i hi hp => ?_, fun i i' hlt hi' hp hp' => ?_,
    fun j g hj hg hl => ?_, fun v hv hlt => ?_⟩
  · rw [length_append, hc.length, length_singleton, add_assoc]
  · rw [hold i (by omega), hc.source i hi]
  · rw [hold i (hpr i hi hp)]
    exact hc.bound i (hpr i hi hp) hp
  · have h' := hpr i' hi' hp'
    rw [hold i (by omega), hold i' h']
    exact hc.mono i i' hlt h' hp hp'
  · have hj' := hpr _ (by omega) (.inr hl)
    obtain ⟨ha, hb⟩ := ho j g hg
    rw [hold _ hj', hold g.a (by omega), hold g.b (by omega)]
    exact hc.gate j g (by omega) hg hl
  · obtain ⟨j, g, hj, hg, hl, hid⟩ := hc.onto v hv hlt
    exact ⟨j, g, by omega, hg, hl, (hold _ (by omega)).trans hid⟩

/-- A live gate is appended over the new ids of its nodes. -/
lemma Copied.push (hc : Copied raw gates live m net ids) (hg : gates[m]? = some g)
    (ho : ∀ (j : ℕ) (g : Gate), gates[j]? = some g → g.a < firstGate raw + j ∧
      g.b < firstGate raw + j)
    (hlv : live (firstGate raw + m) = true) :
    Copied raw gates live (m + 1) (net.addLut [ids.getD g.a none32, ids.getD g.b none32] g.fn)
    (ids ++ [net.size]) := by
  have hold : ∀ i < firstGate raw + m, (ids ++ [net.size]).getD i none32 = ids.getD i none32 :=
    fun i hi => getD_concat_of_lt (by rwa [hc.length])
  have hnew : (ids ++ [net.size]).getD (firstGate raw + m) none32 = net.size := by
    rw [← hc.length]
    simp
  have hsz : (net.addLut [ids.getD g.a none32, ids.getD g.b none32] g.fn).size = net.size + 1 := by
    simp [addLut, addNode, size]
  have hns : (net.addLut [ids.getD g.a none32, ids.getD g.b none32] g.fn).nodes =
      net.nodes ++ [lutNode [ids.getD g.a none32, ids.getD g.b none32] g.fn] := rfl
  refine ⟨hc.pre.trans (prefix_append _ _), hc.rest, ?_, fun i hi => ?_, fun i hi hp => ?_,
    fun i i' hlt hi' hp hp' => ?_,
    fun j g' hj hg' hl => ?_, fun v hv hlt => ?_⟩
  · rw [length_append, hc.length, length_singleton, add_assoc]
  · rw [hold i (by omega), hc.source i hi]
  · rw [hsz]
    rcases lt_or_ge i (firstGate raw + m) with h | h
    · rw [hold i h]
      exact lt_succ_of_lt (hc.bound i h hp)
    · obtain rfl : i = firstGate raw + m := by omega
      rw [hnew]
      exact lt_succ_self _
  · rcases lt_or_ge i' (firstGate raw + m) with h | h
    · rw [hold i (by omega), hold i' h]
      exact hc.mono i i' hlt h hp hp'
    · obtain rfl : i' = firstGate raw + m := by omega
      rw [hold i hlt, hnew]
      exact hc.bound i hlt hp
  · obtain ⟨ha, hb⟩ := ho j g' hg'
    rw [hold g'.a (by omega), hold g'.b (by omega), hns]
    rcases lt_or_ge j m with h | h
    · have hol' := hc.gate j g' h hg' hl
      rwa [hold _ (by omega), getElem?_append_left (List.getElem?_eq_some_iff.1 hol').1]
    · obtain rfl : j = m := by omega
      rw [hg] at hg'
      cases hg'
      rw [hnew]
      exact getElem?_concat_length
  · rw [hsz] at hlt
    rcases Nat.lt_succ_iff_lt_or_eq.1 hlt with h | rfl
    · obtain ⟨j, g', hj, hg', hl, hid⟩ := hc.onto v hv h
      exact ⟨j, g', by omega, hg', hl, (hold _ (by omega)).trans hid⟩
    · exact ⟨m, g, lt_succ_self m, hg, hlv, hnew⟩

lemma copyGates_copied (live : ℕ → Bool) (ho : ∀ (j : ℕ) (g : Gate), gates[j]? = some g →
    g.a < firstGate raw + j ∧ g.b < firstGate raw + j) :
    Copied raw gates live gates.length (copyGates raw gates live).1
    (copyGates raw gates live).2 := by
  have hlo : ∀ m ≤ gates.length, Copied raw gates live m
      ((range' (firstGate raw) m).foldl (copyStep (firstGate raw) gates live) (raw.boundary,
        range (firstGate raw))).1
      ((range' (firstGate raw) m).foldl (copyStep (firstGate raw) gates live) (raw.boundary,
        range (firstGate raw))).2 := by
    intro m
    induction m with
    | zero => exact fun _ => copied_start raw gates live
    | succ m ih =>
      intro hm
      rw [range'_concat, foldl_append, foldl_cons, foldl_nil, Nat.one_mul, copyStep,
        Nat.add_sub_cancel_left, getD_eq_getElem _ _ hm]
      split
      · next hlv => exact (ih (by omega)).push (getElem?_eq_getElem hm) ho hlv
      · next hde => exact (ih (by omega)).skip ho hde
  exact hlo gates.length le_rfl

lemma boundary_valueAt_zero (raw : Lnet) (ci : ℕ → Bool) : raw.boundary.valueAt ci 0 = false := by
  have h0 : raw.boundary.nodes[0]? = some ({} : Node) := by
    rw [boundary_eq]
    rfl
  rw [valueAt_constant h0 ⟨nofun, fun _ => ⟨rfl, .inl rfl⟩, nofun, nofun, nofun⟩ rfl]
  rfl

/-- Every node of the copy has the value of its work node. -/
lemma Copied.valueAt {w : Work} (hc : Copied raw w.gates live w.gates.length net ids)
    (hcl : ∀ (j : ℕ) (g : Gate), w.gates[j]? = some g → live (firstGate raw + j) = true →
      live g.a = true ∧ live g.b = true)
    (ho : ∀ (j : ℕ) (g : Gate), w.gates[j]? = some g → g.a < firstGate raw + j ∧
      g.b < firstGate raw + j) (ci : ℕ → Bool)
    (hi : i < firstGate raw + w.gates.length) (hp : Present (firstGate raw) live i) :
    net.valueAt ci (ids.getD i none32) = w.valueAt (sourceCount raw) ci i := by
  induction i using Nat.strong_induction_on with
  | _ i ih =>
    rcases lt_or_ge i (firstGate raw) with hlt | hge
    · rw [hc.source i hlt, valueAt_of_extends hc.pre (by rw [hc.rest.1])
        (by rwa [size_boundary_eq])]
      rcases Nat.eq_zero_or_pos i with rfl | hpos
      · rw [boundary_valueAt_zero, Work.valueAt_zero]
      · obtain ⟨k, rfl⟩ := Nat.exists_eq_add_of_le hpos
        rw [firstGate] at hlt
        have hk : k < sourceCount raw := by omega
        obtain ⟨n, hn, hki, hfa, hin, hok⟩ := boundary_source _ hk
        rw [valueAt_source hn hok.older hki, hin, Work.valueAt_source hk]
    · obtain ⟨j, rfl⟩ := Nat.exists_eq_add_of_le hge
      have hlv := hp.resolve_left (by omega)
      have hj : w.gates[j]? = some (w.gates.get ⟨j, by omega⟩) := getElem?_eq_getElem _
      generalize w.gates.get ⟨j, _⟩ = g at hj
      obtain ⟨ha, hb⟩ := ho j g hj
      obtain ⟨hla, hlb⟩ := hcl j g hj hlv
      have hno := hc.gate j g (by omega) hj hlv
      have ho' : ∀ v ∈ (lutNode [ids.getD g.a none32, ids.getD g.b none32] g.fn).fanins, v <
          ids.getD (firstGate raw + j) none32 := by
        intro v hv
        simp only [lutNode, mem_cons, not_mem_nil, or_false] at hv
        rcases hv with rfl | rfl
        · exact hc.mono _ _ ha hi (.inr hla) hp
        · exact hc.mono _ _ hb hi (.inr hlb) hp
      rw [valueAt_lut hno ho' rfl rfl (by simp [lutNode]), firstGate, Work.valueAt_fn hj ⟨ha, hb⟩]
      have hrow : rowIndex [ids.getD g.a none32, ids.getD g.b none32] (net.valueAt ci) =
          rowIndex [g.a, g.b] (w.valueAt (sourceCount raw) ci) := by
        refine (rowIndex_map (ids.getD · none32) [g.a, g.b] _).trans (rowIndex_congr fun v hv => ?_)
        rcases mem_pair.1 hv with rfl | rfl
        · exact ih g.a ha (by omega) (.inr hla)
        · exact ih g.b hb (by omega) (.inr hlb)
      exact congrArg _ hrow

end

/-! ## The drivers of the outputs -/

/-- The node that stands for an output literal over the copy `base`. -/
def Drives (base : Lnet) (ids : List ℕ) (nodes : List Node) (out r : ℕ) : Prop :=
  if out.testBit 0 then base.size ≤ r ∧ nodes[r]? = some (lutNode [ids.getD (out / 2) none32] kNot)
  else r = ids.getD (out / 2) none32

/-- Beyond `base` there are the inverters, each found under its node and driving an output. -/
structure Driven (base : Lnet) (ids : List ℕ) (outs rs : List ℕ) (s : Drivers) : Prop where
  pre : base.nodes <+: s.net.nodes
  found : ∀ id v, s.inverters id = some v → base.size ≤ v ∧
    s.net.nodes[v]? = some (lutNode [id] kNot)
  inverter : ∀ (v : ℕ) (n : Node), base.size ≤ v → s.net.nodes[v]? = some n → ∃ out ∈ outs,
    n = lutNode [ids.getD (out / 2) none32] kNot ∧
    s.inverters (ids.getD (out / 2) none32) = some v ∧ v ∈ rs
  drives : Forall₂ (Drives base ids s.net.nodes) outs rs

section

variable {base : Lnet} {ids outs rs : List ℕ} {s s' : Drivers} {out r : ℕ}

lemma Drives.mono {nodes nodes' : List Node} (h : Drives base ids nodes out r)
    (hpre : nodes <+: nodes') : Drives base ids nodes' out r := by
  rw [Drives] at h ⊢
  split
  · next hbit =>
    rw [if_pos hbit] at h
    refine ⟨h.1, ?_⟩
    obtain ⟨more, rfl⟩ := hpre
    rw [getElem?_append_left (List.getElem?_eq_some_iff.1 h.2).1]
    exact h.2
  · next hbit => rwa [if_neg hbit] at h

lemma Driven.congr (hd : Driven base ids outs rs s) (hns : s'.net.nodes = s.net.nodes)
    (hinv : s'.inverters = s.inverters) :
    Driven base ids outs rs s' := by
  obtain ⟨hpre, hf, hin, hdr⟩ := hd
  constructor <;> rw [hns]
  · exact hpre
  · rwa [hinv]
  · rwa [hinv]
  · exact hdr

/-- The state after a driver differs from the one before in nodes and inverters only. -/
lemma driver_net (ids : List ℕ) (out : ℕ) (s : Drivers) :
    ((driver ids out).run s).2.net =
    { s.net with nodes := ((driver ids out).run s).2.net.nodes } := by
  change ((driver ids out) s).2.net = { s.net with nodes := ((driver ids out) s).2.net.nodes }
  unfold driver
  dsimp only
  split
  · split <;> rfl
  · rfl

lemma driver_driven (hd : Driven base ids outs rs s) (out : ℕ) :
    Driven base ids (outs ++ [out]) (rs ++ [((driver ids out).run s).1])
    ((driver ids out).run s).2 := by
  change Driven base ids (outs ++ [out]) (rs ++ [(driver ids out s).1]) (driver ids out s).2
  have hke : ∀ {v : ℕ} {n : Node}, base.size ≤ v → s.net.nodes[v]? = some n →
      ∀ r, ∃ o ∈ outs ++ [out],
      n = lutNode [ids.getD (o / 2) none32] kNot ∧
      s.inverters (ids.getD (o / 2) none32) = some v ∧ v ∈ rs ++ [r] := by
    intro v n hv hn r
    obtain ⟨o, ho, heq, hf, hr⟩ := hd.inverter v n hv hn
    exact ⟨o, mem_append_left _ ho, heq, hf, mem_append_left _ hr⟩
  unfold driver
  dsimp only
  rw [shiftRight_one_eq]
  split
  · next hbit =>
    split
    · next inv hinv =>
      -- the inverter exists
      refine ⟨hd.pre, hd.found, fun v n hv hn => hke hv hn inv,
        rel_append hd.drives (.cons ?_ .nil)⟩
      rw [Drives, if_pos hbit]
      exact hd.found _ _ hinv
    · next hinv =>
      have hpre : s.net.nodes <+: (s.net.addLut [ids.getD (out / 2) none32] kNot).nodes :=
        prefix_append _ _
      have hla : (s.net.addLut [ids.getD (out / 2) none32] kNot).nodes[s.net.size]? =
          some (lutNode [ids.getD (out / 2) none32] kNot) := getElem?_concat_length
      have hle := hd.pre.length_le
      refine ⟨hd.pre.trans hpre, fun id v h => ?_, fun v n hv hn => ?_, ?_⟩
      · dsimp only at h ⊢
        rw [update_apply] at h
        split at h
        · next hid =>
          cases h
          rw [hid]
          exact ⟨hle, hla⟩
        · obtain ⟨h1, h2⟩ := hd.found id v h
          refine ⟨h1, ?_⟩
          rw [← h2]
          exact getElem?_append_left (List.getElem?_eq_some_iff.1 h2).1
      · dsimp only at hn ⊢
        rcases lt_or_ge v s.net.size with hlt | hge
        · have hn' : s.net.nodes[v]? = some n := by
            rw [← hn]
            exact (getElem?_append_left hlt).symm
          obtain ⟨o, ho, heq, hf, hr⟩ := hke hv hn' s.net.size
          refine ⟨o, ho, heq, ?_, hr⟩
          rw [update_of_ne]
          · exact hf
          · intro hsa
            rw [hsa, hinv] at hf
            cases hf
        · have hvlt := (List.getElem?_eq_some_iff.1 hn).1
          rw [addLut, addNode, length_append, length_singleton] at hvlt
          obtain rfl : v = s.net.size := by
            rw [size] at hge ⊢
            omega
          rw [hla] at hn
          exact ⟨out, mem_append_right _ (mem_singleton_self _),
            (some.inj hn).symm, update_self _ _ _,
            mem_append_right _ (mem_singleton_self _)⟩
      · refine rel_append (hd.drives.imp fun o r h => h.mono hpre) (.cons ?_ .nil)
        rw [Drives, if_pos hbit]
        exact ⟨hle, hla⟩
  · next hbit =>
    refine ⟨hd.pre, hd.found, fun v n hv hn => hke hv hn _, rel_append hd.drives (.cons ?_ .nil)⟩
    rw [Drives, if_neg hbit]

/-- The outputs are recorded in order, each at its driver. -/
lemma outputs_driven (pairs : List (ℕ × Output)) (hd : Driven base ids outs rs s) :
    ∃ rs' s', pairs.foldl (outputStep ids) s = s' ∧
    Driven base ids (outs ++ pairs.map (·.1)) (rs ++ rs') s' ∧
      s'.net.outputs.map (·.node) = s.net.outputs.map (·.node) ++ rs' ∧
      s'.net.outputs.map (·.name) = s.net.outputs.map (·.name) ++ pairs.map (·.2.name) ∧
      s'.net.inputs = s.net.inputs ∧ s'.net.latches = s.net.latches := by
  induction pairs generalizing outs rs s with
  | nil =>
    refine ⟨[], s, rfl, ?_, (append_nil _).symm, (append_nil _).symm, rfl, rfl⟩
    rwa [map_nil, append_nil, append_nil]
  | cons o pairs ih =>
    have hd' := driver_driven hd o.1
    have hnet := driver_net ids o.1 s
    obtain ⟨rs', s', hrun, hdr, hno, hna, hin, hl⟩ :=
      ih (s := outputStep ids s o) (hd'.congr rfl rfl)
    refine ⟨((driver ids o.1).run s).1 :: rs', s', hrun, ?_, ?_, ?_, ?_, ?_⟩
    · rwa [map_cons, append_cons outs, append_cons rs]
    · rw [hno, outputStep, addOutput, map_append, hnet, append_assoc]
      rfl
    · rw [hna, outputStep, addOutput, map_append, hnet, append_assoc]
      rfl
    · rw [hin, outputStep, addOutput, hnet]
    · rw [hl, outputStep, addOutput, hnet]

/-- The latch inputs are set in order, each to its driver. -/
lemma latches_driven (outs' : List ℕ) (pre post : List Latch) (hlen : outs'.length = post.length)
    (hl : s.net.latches = pre ++ post) (hd : Driven base ids outs rs s) :
    ∃ rs' s' post', (outs'.zipIdx pre.length).foldl (latchStep ids) s = s' ∧
    Driven base ids (outs ++ outs') (rs ++ rs') s' ∧
      s'.net.latches = pre ++ post' ∧ post'.map (·.d) = rs'.map some ∧
      post'.map (fun l => (l.name, l.init, l.q)) = post.map (fun l => (l.name, l.init, l.q)) ∧
      s'.net.inputs = s.net.inputs ∧ s'.net.outputs = s.net.outputs := by
  induction outs' generalizing outs rs s pre post with
  | nil =>
    obtain rfl := length_eq_zero_iff.1 hlen.symm
    refine ⟨[], s, [], rfl, ?_, hl, rfl, rfl, rfl, rfl⟩
    rwa [append_nil, append_nil]
  | cons o outs' ih =>
    obtain ⟨l, post, rfl⟩ := exists_cons_of_length_eq_add_one hlen.symm
    have hd' := driver_driven hd o
    have hnet := driver_net ids o s
    have hl' : (latchStep ids s (o, pre.length)).net.latches =
        (pre ++ [{ l with d := some ((driver ids o).run s).1 }]) ++ post := by
      rw [latchStep, setLatchInput, hnet]
      rw [hl, modify_append_length, append_assoc]
      rfl
    obtain ⟨rs', s', post', hrun, hdr, hlat, hds, hf, hin, hout⟩ :=
      ih (s := latchStep ids s (o, pre.length))
        (pre ++ [{ l with d := some ((driver ids o).run s).1 }]) post
        (Nat.succ.inj hlen) hl' (hd'.congr rfl rfl)
    refine ⟨((driver ids o).run s).1 :: rs', s',
      { l with d := some ((driver ids o).run s).1 } :: post', ?_, ?_, ?_, ?_, ?_, ?_, ?_⟩
    · rwa [length_append] at hrun
    · rwa [append_cons outs, append_cons rs]
    · rw [hlat, append_assoc]
      rfl
    · simp [hds]
    · simp [hf]
    · rw [hin, latchStep, setLatchInput, hnet]
    · rw [hout, latchStep, setLatchInput, hnet]

end

/-! ## The new network -/

/-- How the new network `s.net` was made: the live gates of `w` are copied to `base`, the drivers
of `outs` are `rs`. -/
structure Rebuilt (raw : Lnet) (w : Work) (outs : List ℕ) (live : ℕ → Bool) (base : Lnet)
    (ids rs : List ℕ) (s : Drivers) : Prop where
  ok : w.Ok (sourceCount raw)
  outsLt : ∀ o ∈ outs, o / 2 < firstGate raw + w.gates.length
  marked : Marked (firstGate raw) w.gates outs (firstGate raw) live
  copied : Copied raw w.gates live w.gates.length base ids
  driven : Driven base ids outs rs s
  inputs : s.net.inputs = raw.boundary.inputs
  latches : s.net.latches.map (fun l => (l.name, l.init, l.q)) =
    raw.boundary.latches.map (fun l => (l.name, l.init, l.q))
  names : s.net.outputs.map (·.name) = raw.outputs.map (·.name)
  cos : s.net.combinationalOutputs = rs.map some

section

variable {raw : Lnet} {w : Work} {outs : List ℕ} {live : ℕ → Bool} {base : Lnet}
  {ids rs : List ℕ} {s : Drivers}

lemma Work.Ok.older (hw : w.Ok (sourceCount raw)) (j : ℕ) (g : Gate) (hg : w.gates[j]? = some g) :
    g.a < firstGate raw + j ∧ g.b < firstGate raw + j := by
  obtain ⟨r, hr, rfl, -⟩ := hw.gate j g hg
  exact Rec.gate_older hr

lemma rebuild_rebuilt (hw : w.Ok (sourceCount raw))
    (hos : ∀ o ∈ outs, o / 2 < firstGate raw + w.gates.length)
    (hlen : outs.length = raw.outputs.length + raw.latches.length) :
    ∃ live base ids rs s, rebuild raw w.gates outs = s.net ∧
    Rebuilt raw w outs live base ids rs s := by
  have hm := liveNodes_marked outs hw.older
  have hc := copyGates_copied (liveNodes (firstGate raw) w.gates outs) hw.older
  rw [rebuild]
  generalize liveNodes (firstGate raw) w.gates outs = live at hm hc ⊢
  generalize copyGates raw w.gates live = c at hc ⊢
  obtain ⟨base, ids⟩ := c
  obtain ⟨hin, hlat, hout⟩ := hc.rest
  have hst : Driven base ids [] [] { net := base } := by
    refine ⟨prefix_rfl, nofun, fun v n hv hn => ?_, .nil⟩
    exact absurd (List.getElem?_eq_some_iff.1 hn).1 (Nat.not_lt.2 hv)
  have hta : (outs.take raw.outputs.length).length = raw.outputs.length :=
    length_take_of_le (by omega)
  obtain ⟨rs1, s1, hru1, hd1, hn1, hna1, hin1, hla1⟩ :=
    outputs_driven ((outs.take raw.outputs.length).zip raw.outputs) hst
  obtain ⟨rs2, s2, post, hru2, hd2, hla2, hds2, hf2, hin2, ho2⟩ :=
    latches_driven (outs.drop raw.outputs.length) [] s1.net.latches
      (by rw [length_drop, hla1, hlat, boundary_eq, length_mapIdx]; omega) rfl hd1
  refine ⟨live, base, ids, rs1 ++ rs2, s2, ?_, hw, hos, hm, hc, ?_, ?_, ?_, ?_, ?_⟩
  · dsimp only
    rw [hru1]
    exact congrArg Drivers.net hru2
  · rwa [nil_append, map_fst_zip hta.le, take_append_drop] at hd2
  · rwa [hin2, hin1]
  · rw [hla2, nil_append, hf2, hla1]
    exact congrArg _ hlat
  · have hsnd : ((outs.take raw.outputs.length).zip raw.outputs).map (·.2.name) =
        raw.outputs.map (·.name) := by
      conv_rhs => rw [← map_snd_zip hta.ge, List.map_map]
      rfl
    rw [ho2, hna1, hout, boundary_eq, map_nil, nil_append, hsnd]
  · have hsm : s1.net.outputs.map (some ·.node) = rs1.map some := by
      rw [hout, boundary_eq, map_nil, nil_append] at hn1
      rw [← hn1, List.map_map]
      rfl
    rw [combinationalOutputs, hla2, nil_append, hds2, ho2, hsm, map_append]

lemma fn_inverter (id : ℕ) : (lutNode [id] kNot).fn = kNot := by
  change Lnet.replicate kNot 1 = kNot
  decide

namespace Rebuilt

variable (hr : Rebuilt raw w outs live base ids rs s)
include hr

lemma closed (j : ℕ) (g : Gate) (hg : w.gates[j]? = some g)
    (hlv : live (firstGate raw + j) = true) : live g.a = true ∧ live g.b = true :=
  hr.marked.closed j g hg (le_add_right _ _) hlv

lemma outLive {o : ℕ} (ho : o ∈ outs) :
    Present (firstGate raw) live (o / 2) := .inr (hr.marked.out o ho)

lemma size_base : firstGate raw ≤ base.size := by
  rw [← size_boundary_eq]
  exact hr.copied.pre.length_le

lemma inputs_length : s.net.inputs.length = raw.boundary.inputs.length := by rw [hr.inputs]

lemma latches_length : s.net.latches.length = raw.boundary.latches.length := by
  have h := congrArg length hr.latches
  rwa [length_map, length_map] at h

/-- A node is of the boundary, a live gate or an inverter. -/
lemma cases {id : ℕ} {n : Node} (hn : s.net.nodes[id]? = some n) :
    (id < firstGate raw ∧ raw.boundary.nodes[id]? = some n) ∨
    (∃ (j : ℕ) (g : Gate), w.gates[j]? = some g ∧ live (firstGate raw + j) = true ∧
      ids.getD (firstGate raw + j) none32 = id ∧
      n = lutNode [ids.getD g.a none32, ids.getD g.b none32] g.fn) ∨
    (base.size ≤ id ∧ ∃ out ∈ outs, n = lutNode [ids.getD (out / 2) none32] kNot ∧
      s.inverters (ids.getD (out / 2) none32) = some id ∧ id ∈ rs) := by
  rcases lt_or_ge id base.size with hlt | hge
  · have hba : base.nodes[id]? = some n := by
      obtain ⟨more, hmo⟩ := hr.driven.pre
      rw [← hn, ← hmo]
      exact (getElem?_append_left hlt).symm
    rcases lt_or_ge id (firstGate raw) with hfi | hfi
    · refine .inl ⟨hfi, ?_⟩
      obtain ⟨more, hmo⟩ := hr.copied.pre
      rw [← hba, ← hmo]
      exact (getElem?_append_left (by rw [← size, size_boundary_eq]; exact hfi)).symm
    · obtain ⟨j, g, hj, hg, hlv, hid⟩ := hr.copied.onto id hfi hlt
      have hga := hr.copied.gate j g hj hg hlv
      rw [hid, hba] at hga
      exact .inr (.inl ⟨j, g, hg, hlv, hid, some.inj hga⟩)
  · exact .inr (.inr ⟨hge, hr.driven.inverter id n hge hn⟩)

/-- A gate reads older nodes of the copy, in order. -/
lemma gate_fanins (hg : w.gates[j]? = some g) (hlv : live (firstGate raw + j) = true) :
    0 < ids.getD g.a none32 ∧ ids.getD g.a none32 < ids.getD g.b none32 ∧
    ids.getD g.b none32 < ids.getD (firstGate raw + j) none32 := by
  obtain ⟨ha, hb⟩ := hr.ok.older j g hg
  obtain ⟨hla, hlb⟩ := hr.closed j g hg hlv
  have hj := (List.getElem?_eq_some_iff.1 hg).1
  obtain ⟨r, hrec, rfl, -⟩ := hr.ok.gate j g hg
  have hpos : 0 < r.gate.a := by
    have := hrec.constant
    change 0 < r.a / 2
    omega
  have hze := hr.copied.source 0 (succ_pos _)
  have h0 := hr.copied.mono 0 r.gate.a hpos (by omega) (.inl (succ_pos _)) (.inr hla)
  rw [hze] at h0
  refine ⟨h0, hr.copied.mono _ _ hrec.distinct (by omega) (.inr hla) (.inr hlb), ?_⟩
  exact hr.copied.mono _ _ hb (by omega) (.inr hlb) (.inr hlv)

/-- The new id of an output's work node is in the copy. -/
lemma out_id_lt {o : ℕ} (ho : o ∈ outs) : ids.getD (o / 2) none32 < base.size :=
  hr.copied.bound _ (hr.outsLt o ho) (hr.outLive ho)

lemma nodeOk {id : ℕ} {n : Node} (hn : s.net.nodes[id]? = some n) : s.net.NodeOk id n := by
  rcases hr.cases hn with ⟨hlt, hb⟩ | ⟨j, g, hg, hlv, rfl, rfl⟩ | ⟨hge, out, ho, rfl, -, -⟩
  · rcases Nat.eq_zero_or_pos id with rfl | hpos
    · have h0 : raw.boundary.nodes[0]? = some ({} : Node) := by
        rw [boundary_eq]
        rfl
      rw [h0] at hb
      cases hb
      exact ⟨by rintro _ ⟨⟩, fun _ => ⟨rfl, .inl rfl⟩, by rintro ⟨⟩, by rintro ⟨⟩, by rintro ⟨⟩⟩
    · obtain ⟨k, rfl⟩ := Nat.exists_eq_add_of_le hpos
      rw [firstGate] at hlt
      obtain ⟨n', hn', -, -, -, hok⟩ :=
        boundary_source raw (k := k) (by rw [sourceCount] at hlt; omega)
      rw [hn'] at hb
      cases hb
      refine ⟨hok.older, hok.constant, ?_, hok.narrow, hok.wide⟩
      rw [hr.inputs_length, hr.latches_length]
      exact hok.source
  · obtain ⟨-, hab, hb⟩ := hr.gate_fanins hg hlv
    refine ⟨fun i hi => ?_, by
      rintro ⟨⟩, by rintro ⟨⟩, fun _ _ => ⟨g.fn, rfl⟩, fun _ h => absurd h (by simp [lutNode])⟩
    simp only [lutNode, mem_cons, not_mem_nil, or_false] at hi
    rcases hi with rfl | rfl
    · exact hab.trans hb
    · exact hb
  · refine ⟨fun i hi => ?_, by
      rintro ⟨⟩, by rintro ⟨⟩, fun _ _ => ⟨kNot, rfl⟩, fun _ h => absurd h (by simp [lutNode])⟩
    obtain rfl := mem_singleton.1 hi
    exact (hr.out_id_lt ho).trans_le hge

/-- The driver of an output has the value of its literal. -/
lemma drives_value {o r : ℕ} (ho : o ∈ outs)
    (hd : Drives base ids s.net.nodes o r) (ci : ℕ → Bool) :
    s.net.valueAt ci r = w.litValue (sourceCount raw) ci o := by
  have hin : s.net.inputs.length = base.inputs.length := by rw [hr.inputs_length, hr.copied.rest.1]
  have hv : s.net.valueAt ci (ids.getD (o / 2) none32) =
      w.valueAt (sourceCount raw) ci (o / 2) := by
    rw [valueAt_of_extends hr.driven.pre hin (hr.out_id_lt ho)]
    exact hr.copied.valueAt hr.closed hr.ok.older ci (hr.outsLt o ho) (hr.outLive ho)
  rw [Work.litValue, ← hv]
  rw [Drives] at hd
  split at hd
  · next hbit =>
    rw [hbit, Bool.xor_true]
    exact valueAt_not hd.2 (hr.nodeOk hd.2) rfl rfl (fn_inverter _) ci
  · next hbit => rw [hd, Bool.eq_false_iff.2 hbit, Bool.xor_false]

lemma gate_node (hg : w.gates[j]? = some g) (hlv : live (firstGate raw + j) = true) :
    s.net.nodes[ids.getD (firstGate raw + j) none32]? = some
    (lutNode [ids.getD g.a none32, ids.getD g.b none32] g.fn) := by
  have hga := hr.copied.gate j g (List.getElem?_eq_some_iff.1 hg).1 hg hlv
  obtain ⟨more, hmo⟩ := hr.driven.pre
  rwa [← hmo, getElem?_append_left (List.getElem?_eq_some_iff.1 hga).1]

/-- The work nodes that the outputs reach are live in the new network. -/
lemma live_of_reach (h : Reach (firstGate raw) w.gates outs i) :
    live i = true ∧ s.net.Live (ids.getD i none32) := by
  induction h with
  | @out o ho =>
    refine ⟨hr.marked.out o ho, ?_⟩
    obtain ⟨r, hmem, hd⟩ := hr.driven.drives.exists_of_mem_left ho
    have hco : s.net.Live r := .output (by rw [hr.cos]; exact mem_map_of_mem hmem)
    rw [Drives] at hd
    split at hd
    · exact .fanin hco hd.2 (mem_singleton_self _)
    · rwa [← hd]
  | @left j g _ hg ih =>
    exact ⟨(hr.closed j g hg ih.1).1, .fanin ih.2 (hr.gate_node hg ih.1) (.head _)⟩
  | @right j g _ hg ih =>
    exact ⟨(hr.closed j g hg ih.1).2, .fanin ih.2 (hr.gate_node hg ih.1) (.tail _ (.head _))⟩

end Rebuilt

end

/-! ## The result -/

/-- The new network has the sources in order and the behaviour of the old one, and is in normal
form: its gates are live and different from each other, they read different nodes, and no gate but
the inverter of node `0` reads a constant. -/
structure Strashed (raw net : Lnet) : Prop where
  valid : net.Valid
  inputs : net.inputs.map (·.name) = raw.inputs.map (·.name)
  latches : net.latches.map (fun l => (l.name, l.init)) =
    raw.latches.map (fun l => (l.name, l.init))
  outputs : net.outputs.map (·.name) = raw.outputs.map (·.name)
  inputOrder : ∀ (k : ℕ) (i : Input), net.inputs[k]? = some i → i.node = 1 + k
  latchOrder : ∀ (k : ℕ) (l : Latch), net.latches[k]? = some l → l.q = 1 + net.inputs.length + k
  values : ∀ ci, net.coValues ci = raw.coValues ci
  constants : ∀ (id : ℕ) (n : Node), net.nodes[id]? = some n → (n.kind = .constant ↔ id = 0)
  live : ∀ (id : ℕ) (n : Node), net.nodes[id]? = some n → n.kind = .lut → net.Live id
  unique : ∀ (id id' : ℕ) (n n' : Node), net.nodes[id]? = some n → net.nodes[id']? = some n' →
    n.kind = .lut → n'.kind = .lut →
    n.fanins = n'.fanins → n.table = n'.table → id = id'
  distinct : ∀ (id : ℕ) (n : Node), net.nodes[id]? = some n → n.kind = .lut → n.fanins.Nodup
  noConstant : ∀ (id : ℕ) (n : Node), net.nodes[id]? = some n → n.kind = .lut → 0 ∈ n.fanins →
    n.fanins = [0] ∧ n.fn = kNot

section

variable {raw : Lnet} {w : Work} {outs : List ℕ} {live : ℕ → Bool} {base : Lnet}
  {ids rs : List ℕ} {s : Drivers}

lemma boundary_kind {id : ℕ} {n : Node} (hn : raw.boundary.nodes[id]? = some n) :
    (id = 0 ∧ n.kind = .constant) ∨ (0 < id ∧ n.kind = .source) := by
  rcases Nat.eq_zero_or_pos id with rfl | hpos
  · rw [boundary_eq] at hn
    cases hn
    exact .inl ⟨rfl, rfl⟩
  · obtain ⟨k, rfl⟩ := Nat.exists_eq_add_of_le hpos
    have hlt := (List.getElem?_eq_some_iff.1 hn).1
    rw [← size, size_boundary] at hlt
    obtain ⟨n', hn', hk, -⟩ := boundary_source raw (k := k) (by omega)
    rw [hn'] at hn
    cases hn
    exact .inr ⟨hpos, hk⟩

section

variable (hr : Rebuilt raw w outs live base ids rs s)
include hr

/-- Two live gates with the same fanins and table are one. -/
lemma Rebuilt.gate_unique {j' : ℕ} {g' : Gate} (hg : w.gates[j]? = some g)
    (hg' : w.gates[j']? = some g') (hlv : live (firstGate raw + j) = true)
    (hlv' : live (firstGate raw + j') = true)
    (ha : ids.getD g.a none32 = ids.getD g'.a none32)
    (hb : ids.getD g.b none32 = ids.getD g'.b none32)
    (hfn : Lnet.replicate g.fn 2 = Lnet.replicate g'.fn 2) : j = j' := by
  have hinj : ∀ {i i' : ℕ}, i < firstGate raw + w.gates.length →
      i' < firstGate raw + w.gates.length → live i = true →
      live i' = true → ids.getD i none32 = ids.getD i' none32 → i = i' := by
    intro i i' hi hi' hl hl' heq
    rcases lt_trichotomy i i' with h | h | h
    · exact absurd heq (hr.copied.mono i i' h hi' (Or.inr hl) (Or.inr hl')).ne
    · exact h
    · exact absurd heq (hr.copied.mono i' i h hi (Or.inr hl') (Or.inr hl)).ne'
  have hold := hr.ok.older j g hg
  have hol' := hr.ok.older j' g' hg'
  have hj := (List.getElem?_eq_some_iff.1 hg).1
  have hj' := (List.getElem?_eq_some_iff.1 hg').1
  obtain ⟨hla, hlb⟩ := hr.closed j g hg hlv
  obtain ⟨hla', hlb'⟩ := hr.closed j' g' hg' hlv'
  have haeq := hinj (by omega) (by omega) hla hla' ha
  have hbeq := hinj (by omega) (by omega) hlb hlb' hb
  obtain ⟨r, hrec, rfl, -⟩ := hr.ok.gate j g hg
  obtain ⟨r', hre', rfl, -⟩ := hr.ok.gate j' g' hg'
  have hsa := Rec.eq_of_table hrec hre' haeq hbeq fun x hx => by
    have h := congrArg (fun v : Word => v.getLsbD x) hfn
    rwa [getLsbD_replicate _ (by decide) (by omega), getLsbD_replicate _ (by decide) (by omega),
      mod_eq_of_lt (show x < 2 ^ 2 from hx)] at h
  rw [hsa] at hg
  exact hr.ok.unique hg hg'

lemma Rebuilt.latch_fields {l : Latch} (hl : s.net.latches[k]? = some l) :
    ∃ l', raw.latches[k]? = some l' ∧ l.name = l'.name ∧ l.init = l'.init ∧
    l.q = 1 + raw.inputs.length + k := by
  have h : (s.net.latches.map fun l => (l.name, l.init, l.q))[k]? =
      (raw.boundary.latches.map fun l => (l.name, l.init, l.q))[k]? := by
    rw [hr.latches]
  rw [getElem?_map, getElem?_map, hl, boundary_eq, getElem?_mapIdx] at h
  cases hl' : raw.latches[k]? with
  | none =>
    rw [hl'] at h
    cases h
  | some l' =>
    rw [hl'] at h
    simp only [map_some, some.injEq, Prod.mk.injEq] at h
    exact ⟨l', rfl, h⟩

lemma Rebuilt.input_fields {i : Input} (hi : s.net.inputs[k]? = some i) :
    k < raw.inputs.length ∧ i.node = 1 + k := by
  rw [hr.inputs, boundary_eq, getElem?_mapIdx] at hi
  obtain ⟨i', hi', rfl⟩ := map_eq_some_iff.1 hi
  exact ⟨(List.getElem?_eq_some_iff.1 hi').1, rfl⟩

lemma Rebuilt.boundary_node {id : ℕ} (hid : id < raw.boundary.size) :
    s.net.nodes[id]? = raw.boundary.nodes[id]? := by
  obtain ⟨more, hmo⟩ := hr.copied.pre.trans hr.driven.pre
  rw [← hmo]
  exact getElem?_append_left hid

lemma Rebuilt.valid : s.net.Valid := by
  have hsz := size_boundary raw
  refine ⟨?_, fun id n hn => hr.nodeOk hn, fun k i hi => ?_, fun k l hl => ?_, fun d hd => ?_⟩
  · rw [hr.boundary_node (by omega), boundary_eq]
    rfl
  · obtain ⟨hk, hno⟩ := hr.input_fields hi
    refine ⟨inputNode k, ?_, rfl, rfl, rfl⟩
    rw [hno, hr.boundary_node (by omega)]
    exact boundary_input hk
  · obtain ⟨l', hl', -, -, hq⟩ := hr.latch_fields hl
    have hk := (List.getElem?_eq_some_iff.1 hl').1
    refine ⟨latchNode k, ?_, rfl, rfl, rfl⟩
    rw [hq, hr.boundary_node (by omega)]
    exact boundary_latch hk
  · rw [hr.cos] at hd
    obtain ⟨r, hmem, heq⟩ := mem_map.1 hd
    cases heq
    obtain ⟨o, ho, hdr⟩ := hr.driven.drives.exists_of_mem_right hmem
    rw [Drives] at hdr
    split at hdr
    · exact (List.getElem?_eq_some_iff.1 hdr.2).1
    · rw [hdr]
      exact (hr.out_id_lt ho).trans_le hr.driven.pre.length_le

/-- The sources are those of the boundary. -/
lemma Rebuilt.sourced : s.net.Sourced := by
  intro id n hn hk
  rcases hr.cases hn with ⟨-, hb⟩ | ⟨j, g, hg, hlv, -, rfl⟩ | ⟨-, o, -, rfl, -, -⟩
  · have hsrc := (valid_boundary raw).2 id n hb hk
    cases hla : n.latch with
    | true =>
      rw [hla, if_pos rfl] at hsrc
      obtain ⟨l, hl, hq⟩ := hsrc
      have hmap := congrArg (·[n.index]?) hr.latches
      simp only [getElem?_map, hl, Option.map_some] at hmap
      obtain ⟨l', hl', heq⟩ := Option.map_eq_some_iff.1 hmap
      exact ⟨l', hl', (congrArg (·.2.2) heq).trans hq⟩
    | false =>
      rw [hla, if_neg nofun] at hsrc
      rwa [if_neg nofun, hr.inputs]
  · cases hk
  · cases hk

/-- The combinational outputs have the values of the literals. -/
lemma Rebuilt.coValues (ci : ℕ → Bool) : s.net.coValues ci = outs.map fun o =>
    some (w.litValue (sourceCount raw) ci o) := by
  rw [Lnet.coValues, hr.cos, List.map_map]
  exact (hr.driven.drives.map_eq_map fun o ho r hd => congrArg some
    (hr.drives_value ho hd ci).symm).symm

lemma Rebuilt.unique {id id' : ℕ} {n n' : Node} (hn : s.net.nodes[id]? = some n)
    (hn' : s.net.nodes[id']? = some n') (hki : n.kind = .lut) (hk' : n'.kind = .lut)
    (hfan : n.fanins = n'.fanins)
    (htab : n.table = n'.table) : id = id' := by
  have hbo : ∀ {id : ℕ} {n : Node}, raw.boundary.nodes[id]? = some n → n.kind = .lut → False := by
    intro id n hb hk
    rcases boundary_kind hb with ⟨-, h⟩ | ⟨-, h⟩
    · rw [hk] at h
      cases h
    · rw [hk] at h
      cases h
  rcases hr.cases hn with ⟨-, hb⟩ | ⟨j, g, hg, hlv, hid, rfl⟩ | ⟨-, o, -, rfl, hinv, -⟩
  · exact (hbo hb hki).elim
  · rcases hr.cases hn' with ⟨-, hb⟩ | ⟨j', g', hg', hlv', hid', rfl⟩ | ⟨-, o', -, rfl, -, -⟩
    · exact (hbo hb hk').elim
    · simp only [lutNode, cons.injEq, and_true] at hfan htab
      rw [← hid, ← hid', hr.gate_unique hg hg' hlv hlv' hfan.1 hfan.2 htab]
    · simp [lutNode] at hfan
  · rcases hr.cases hn' with ⟨-, hb⟩ | ⟨j', g', hg', hlv', hid', rfl⟩ | ⟨-, o', -, rfl, hin', -⟩
    · exact (hbo hb hk').elim
    · simp [lutNode] at hfan
    · simp only [lutNode, cons.injEq, and_true] at hfan
      rw [hfan, hin'] at hinv
      exact (some.inj hinv).symm

lemma Rebuilt.strashed (hva : ∀ ci, raw.coValues ci = outs.map fun o =>
    some (w.litValue (sourceCount raw) ci o)) : Strashed raw s.net where
  valid := hr.valid
  inputs := by
    refine ext_getElem? fun k => ?_
    rw [hr.inputs, boundary_eq, getElem?_map, getElem?_map, getElem?_mapIdx, Option.map_map]
    rfl
  latches := by
    have h := congrArg (map fun t => (t.1, t.2.1)) hr.latches
    rw [List.map_map, List.map_map] at h
    refine h.trans (ext_getElem? fun k => ?_)
    rw [boundary_eq, getElem?_map, getElem?_map, getElem?_mapIdx, Option.map_map]
    rfl
  outputs := hr.names
  inputOrder k i hi := (hr.input_fields hi).2
  latchOrder k l hl := by
    obtain ⟨-, -, -, -, hq⟩ := hr.latch_fields hl
    simp [hq, hr.inputs_length, boundary_eq]
  values ci := by rw [hr.coValues, hva]
  constants id n hn := by
    rcases hr.cases hn with ⟨-, hb⟩ | ⟨j, g, hg, hlv, rfl, rfl⟩ | ⟨hge, o, -, rfl, -, -⟩
    · rcases boundary_kind hb with ⟨h0, hk⟩ | ⟨h0, hk⟩
      · exact iff_of_true hk h0
      · exact iff_of_false (by rw [hk]; nofun) h0.ne'
    · have := hr.gate_fanins hg hlv
      exact iff_of_false nofun (by omega)
    · have := hr.size_base
      rw [firstGate] at this
      exact iff_of_false nofun (by omega)
  live id n hn hki := by
    rcases hr.cases hn with ⟨-, hb⟩ | ⟨j, g, hg, hlv, rfl, -⟩ | ⟨-, -, -, -, -, hmem⟩
    · rcases boundary_kind hb with ⟨-, h⟩ | ⟨-, h⟩ <;> rw [hki] at h <;> cases h
    · exact (hr.live_of_reach (hr.marked.reach _ hlv)).2
    · exact .output (by rw [hr.cos]; exact mem_map_of_mem hmem)
  unique id id' n n' hn hn' hki hk' hfan htab := hr.unique hn hn' hki hk' hfan htab
  distinct id n hn hki := by
    rcases hr.cases hn with ⟨-, hb⟩ | ⟨j, g, hg, hlv, -, rfl⟩ | ⟨-, o, -, rfl, -, -⟩
    · rcases boundary_kind hb with ⟨-, h⟩ | ⟨-, h⟩ <;> rw [hki] at h <;> cases h
    · have hlt := (hr.gate_fanins hg hlv).2.1
      exact nodup_cons.2 ⟨fun h => hlt.ne (mem_singleton.1 h), by simp⟩
    · simp [lutNode]
  noConstant id n hn hki hze := by
    rcases hr.cases hn with ⟨-, hb⟩ | ⟨j, g, hg, hlv, -, rfl⟩ | ⟨-, o, -, rfl, -, -⟩
    · rcases boundary_kind hb with ⟨-, h⟩ | ⟨-, h⟩ <;> rw [hki] at h <;> cases h
    · obtain ⟨h0, h1, -⟩ := hr.gate_fanins hg hlv
      simp only [lutNode, mem_cons, not_mem_nil, or_false] at hze
      omega
    · rw [← mem_singleton.1 hze]
      exact ⟨rfl, fn_inverter 0⟩

end

end

end Strash

open Strash

section

variable {raw : Lnet} {options : Strash.Options}

lemma strash_eq_some {net : Lnet} : strash raw options = some net ↔
    ∃ s outs, lower raw options = some s ∧
    outLits raw s.1 = some outs ∧ rebuild raw s.2.gates outs = net := by
  simp only [strash, bind_eq_bind, Option.pure_def, bind_eq_some_iff, some.injEq, exists_and_left]

lemma isSome_outLits (lits : List ℕ) : (outLits raw lits).isSome = true ↔
    ∀ l ∈ raw.latches, l.d.isSome = true := by
  rw [outLits, isSome_mapM_iff]
  simp [combinationalOutputs, or_imp, forall_and]

section

variable (hraw : raw.Valid) (hfit : LiteralsFit raw)
include hraw hfit

/-- `strash` returns when every node is taken and every latch has its input. -/
lemma isSome_strash : (strash raw options).isSome = true ↔
    (∀ i, 1 ≤ i → i < raw.size → Takes raw options i) ∧ ∀ l ∈ raw.latches, l.d.isSome = true := by
  constructor
  · intro h
    obtain ⟨net, hnet⟩ := isSome_iff_exists.1 h
    obtain ⟨s, outs, hs, hos, -⟩ := strash_eq_some.1 hnet
    exact ⟨fun i h1 hi => takes_of_lower hs h1 hi,
      (isSome_outLits s.1).1 (isSome_iff_exists.2 ⟨outs, hos⟩)⟩
  · rintro ⟨hta, hset⟩
    obtain ⟨lits, w, hlo, -⟩ := lower_of_takes hraw hfit hta
    obtain ⟨outs, hos⟩ := isSome_iff_exists.1 ((isSome_outLits lits).2 hset)
    exact isSome_iff_exists.2 ⟨_, strash_eq_some.2 ⟨_, outs, hlo, hos, rfl⟩⟩

lemma rebuilt_of_strash {net : Lnet} (h : strash raw options = some net) :
    ∃ w outs live base ids rs s, Rebuilt raw w outs live base ids rs s ∧ s.net = net ∧
      ∀ ci, raw.coValues ci = outs.map fun o => some (w.litValue (sourceCount raw) ci o) := by
  have hta := ((isSome_strash hraw hfit).1 (isSome_iff_exists.2 ⟨net, h⟩)).1
  obtain ⟨lits, w, hlo, hlow⟩ := lower_of_takes hraw hfit hta
  obtain ⟨s, outs, hs, hos, rfl⟩ := strash_eq_some.1 h
  rw [hlo] at hs
  cases hs
  have hrel := forall₂_of_mapM_eq_some hos
  -- an output literal is the literal of a node
  have hout : ∀ {co : Option ℕ} {o : ℕ}, co ∈ raw.combinationalOutputs →
      co.map (lits.getD · zero) = some o →
      ∃ d, co = some d ∧ IsLit (sourceCount raw) w o fun ci => raw.valueAt ci d := by
    intro co o hmem hco
    obtain ⟨d, rfl, rfl⟩ := map_eq_some_iff.1 hco
    exact ⟨d, rfl, hlow.lit d (hraw.cos d hmem)⟩
  have hlt : ∀ o ∈ outs, o / 2 < firstGate raw + w.gates.length := by
    intro o ho
    obtain ⟨co, hmem, hco⟩ := hrel.exists_of_mem_right ho
    obtain ⟨d, -, hlit⟩ := hout hmem hco
    exact hlit.lt
  have hlen : outs.length = raw.outputs.length + raw.latches.length := by
    simp [← hrel.length_eq, combinationalOutputs]
  obtain ⟨live, base, ids, rs, s, hre, hr⟩ := rebuild_rebuilt hlow.ok hlt hlen
  refine ⟨w, outs, live, base, ids, rs, s, hr, hre.symm,
    fun ci => hrel.map_eq_map fun co hmem o hco => ?_⟩
  obtain ⟨d, rfl, hlit⟩ := hout hmem hco
  exact congrArg some (hlit.value ci).symm

lemma strashed_of_strash {net : Lnet} (h : strash raw options = some net) : Strashed raw net := by
  obtain ⟨w, outs, live, base, ids, rs, s, hr, rfl, hva⟩ := rebuilt_of_strash hraw hfit h
  exact hr.strashed hva

end

/-- For a valid network whose literals fit, `strash` returns exactly when every table is one of the
four gates, every latch has its input and no call of `admit` refuses; what it returns behaves as
the network does and is in normal form. -/
theorem strash_correct (options : Strash.Options) (hraw : raw.Valid) (hfit : LiteralsFit raw) :
    ((strash raw options).isSome = true ↔
      (∀ i, 1 ≤ i → i < raw.size → Takes raw options i) ∧ ∀ l ∈ raw.latches, l.d.isSome = true) ∧
    ∀ net, strash raw options = some net → Strashed raw net :=
  ⟨isSome_strash hraw hfit, fun _ h => strashed_of_strash hraw hfit h⟩

/-- One XOR of two inputs. -/
def xorNet : Lnet := (((({} : Lnet).addInput "a").addInput "b").addLut [1, 2] kXor2).addOutput 3 "y"

lemma xorNet_valid : xorNet.Valid := by
  refine .addOutput (.addLut ((valid_empty.addInput "a").addInput "b") kXor2 (by decide) ?_)
    (by decide) "y"
  intro i hi
  simp only [mem_cons, not_mem_nil, or_false] at hi
  rcases hi with rfl | rfl <;> decide

theorem strash_correct_xor : xorNet.Valid ∧ LiteralsFit xorNet ∧
    (strash xorNet { xorNodes := false }).isSome = true ∧
    ∀ net, strash xorNet { xorNodes := false } = some net → Strashed xorNet net := by
  have hfit : LiteralsFit xorNet := by
    rw [LiteralsFit]
    decide
  exact ⟨xorNet_valid, hfit, by decide, (strash_correct { xorNodes := false } xorNet_valid hfit).2⟩

/-- The normal form leaves out three things: the table of a gate that is not one of the four has no
hashed form, the two ANDs of an XOR have the same fanins, and an output that is the constant 1
gets an inverter of node `0`. -/
theorem strash_not_normal : strash ((({} : Lnet).addInput "a").addLut [1] kVar0) {} = none ∧
    (∃ net n n', strash xorNet { xorNodes := false } = some net ∧ net.nodes[3]? = some n ∧
      net.nodes[4]? = some n' ∧
      n.kind = .lut ∧ n'.kind = .lut ∧ n.fanins = [1, 2] ∧ n'.fanins = [1, 2]) ∧
    ((({} : Lnet).addConstant true).addOutput 1 "y").Valid ∧
    ∃ net n, strash ((({} : Lnet).addConstant true).addOutput 1 "y") {} = some net ∧
    net.nodes[1]? = some n ∧ n.kind = .lut ∧
      n.fanins = [0] := by
  refine ⟨by decide, ?_, (valid_empty.addConstant true).addOutput (by decide) "y", ?_⟩
  · exact ⟨(strash xorNet { xorNodes := false }).get (by decide),
      lutNode [1, 2] 0x2#64, lutNode [1, 2] 0x4#64,
      (some_get _).symm, by decide, by decide, rfl, rfl, rfl, rfl⟩
  · exact ⟨(strash ((({} : Lnet).addConstant true).addOutput 1 "y") {}).get (by decide),
      lutNode [0] kNot,
      (some_get _).symm, by decide, rfl, rfl⟩

end

end LiveHD.Synth
