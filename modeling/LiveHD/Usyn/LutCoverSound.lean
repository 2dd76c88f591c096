import LiveHD.Usyn.LutCover

/-!
# Soundness of the LUT cover

Every cut that is kept computes its node over its leaves, so that the selected LUTs are closed under
their leaves and have the values of the source network.  A wire or an inverter has no cube when the
recipe admits no series literal: the cover is right exactly when `series` is not zero.
-/

namespace LiveHD.Usyn.LutCover

open Synth Unate Function List Bool Nat Option

variable {s : Search} {o : SearchOptions} {source : Lnet}

/-! ## Values of the classes -/

section

variable {ci : ℕ → Bool} {v : ℕ} {n : Lnet.Node}

lemma classAt_eq (hn : source.nodes[v]? = some n) :
    classAt source v = classOf n := by rw [classAt, Lnet.node_eq hn]

lemma valueAt_eval (hsrc : source.Valid) (hn : source.nodes[v]? = some n)
    (hc : classOf n ≠ .source) :
    source.valueAt ci v = n.eval (rowIndex n.fanins (source.valueAt ci)) := by
  rw [Lnet.valueAt_eq hn (hsrc.nodes v n hn).older, Lnet.nodeValue]
  cases hk : n.kind with
  | source => exact absurd (if_pos hk) hc
  | constant => rfl
  | lut => rfl

lemma kind_of_source (hc : classOf n = .source) : n.kind = .source := by
  unfold classOf at hc
  split_ifs at hc with hk
  exact hk

lemma fanins_of_constant (hc : classOf n = .constant) : n.fanins = [] := by
  unfold classOf at hc
  split_ifs at hc with _ hfa
  exact hfa

end

/-! ## Sound cuts -/

/-- The value of a cut over the values of its leaves. -/
def Cut.fn (c : Cut) (val : ℕ → Bool) : Bool := c.table.app fun i => val (c.leaves.getD i 0)

variable {c : Cut}

lemma Cut.Computes.fn_eq {val : ℕ → Bool} {y : Bool} (h : c.Computes val y) : c.fn val = y := by
  refine h _ fun i leaf hl => ?_
  rw [getD_eq_getElem?_getD, hl]
  rfl

/-- A cut that computes a node: it is a function of its leaves, which are all in its support, and
has the value of the node. -/
structure CutOk (source : Lnet) (c : Cut) (v : ℕ) : Prop where
  computes : ∀ val, c.Computes val (c.fn val)
  value : ∀ ci, c.fn (source.valueAt ci) = source.valueAt ci v
  sorted : c.leaves.Pairwise (· < ·)
  length : c.leaves.length ≤ 8
  support : ∀ i < c.leaves.length, Essential c.table i
  leaves : ∀ leaf ∈ c.leaves, leaf ≤ v ∧ classAt source leaf ≠ .constant

section

lemma cutOk_trivial {i : ℕ} (hc : classAt source i ≠ .constant) :
    CutOk source ⟨[i], varTable 0⟩ i := by
  have hfn : ∀ val : ℕ → Bool, Cut.fn ⟨[i], varTable 0⟩ val = val i := fun val =>
    app_varTable (by decide) _
  refine ⟨fun val a ha => ?_, fun ci => hfn _, pairwise_singleton _ _,
    show 1 ≤ 8 by decide, fun k hk => ?_, fun leaf hl => ?_⟩
  · rw [hfn, app_varTable (by decide), ha 0 i rfl]
  · obtain rfl := lt_one_iff.1 hk
    refine ⟨fun _ => false, fun k => k == 0, fun k hk => (beq_eq_false_iff_ne.2 hk).symm, ?_⟩
    rw [app_varTable (by decide), app_varTable (by decide)]
    decide
  · obtain rfl := mem_singleton.1 hl
    exact ⟨le_rfl, hc⟩

lemma app_const (value : Bool) (a : ℕ → Bool) :
    (if value then kOnes else fun _ => 0 : Table).app a = value := by
  have hr : row a % 64 < 64 := mod_lt _ (by decide)
  cases value with
  | true => exact (BitVec.getLsbD_allOnes).trans (decide_eq_true hr)
  | false => simp [Table.app, Table.get]

variable {v : ℕ}

lemma cutOk_constant (hsrc : source.Valid) {n : Lnet.Node} (hn : source.nodes[v]? = some n)
    (hc : classOf n = .constant) : CutOk source ⟨[], if n.eval 0 then kOnes else fun _ => 0⟩ v := by
  refine ⟨fun val a _ => ?_, fun ci => ?_, .nil, zero_le _, nofun, nofun⟩
  · rw [Cut.fn, app_const, app_const]
  · rw [Cut.fn, app_const, valueAt_eval hsrc hn (by rw [hc]; exact Class.noConfusion),
      fanins_of_constant hc]
    rfl

variable {picked : List Cut}

lemma mem_picks {sets : List (List Cut)} (h : picked ∈ picks sets) :
    Forall₂ (· ∈ ·) picked sets := by
  induction sets generalizing picked with
  | nil =>
    obtain rfl := mem_singleton.1 h
    exact .nil
  | cons cuts sets ih =>
    obtain ⟨rest, hr, hmem⟩ := mem_flatMap.1 h
    obtain ⟨c, hc, rfl⟩ := mem_map.1 hmem
    exact .cons hc (ih hr)

lemma mem_unionLeaves {leaf : ℕ} : leaf ∈ unionLeaves picked ↔ ∃ c ∈ picked, leaf ∈ c.leaves := by
  simp [unionLeaves]

lemma unionLeaves_sorted (picked : List Cut) : (unionLeaves picked).Pairwise (· < ·) := by
  have hle : (unionLeaves picked).Pairwise (· ≤ ·) :=
    (pairwise_mergeSort' (· ≤ ·) (picked.flatMap Cut.leaves)).sublist (dedup_sublist _)
  refine (hle.and (nodup_dedup _)).imp fun h => lt_of_le_of_ne h.1 h.2

lemma computes_compose {eval : ℕ → Bool} {u : List ℕ}
    (hu : u.Pairwise (· < ·)) (hlen : u.length ≤ 8)
    {val : ℕ → Bool} (hpi : ∀ c ∈ picked, c.Computes val (c.fn val) ∧ c.leaves.Pairwise (· < ·) ∧
      ∀ leaf ∈ c.leaves, leaf ∈ u) :
    Cut.Computes ⟨u, compose eval (picked.map (expand · u))⟩ val
    (eval (rowIndex picked fun c => c.fn val)) := by
  intro a ha
  rw [app_compose, rowIndex_map]
  congr 1
  refine rowIndex_congr fun c hc => ?_
  obtain ⟨hco, hsrt, hl⟩ := hpi c hc
  exact hco.expand hu hlen hsrt hl a ha

/-- The cut over the picked cuts of the fanins. -/
lemma cutOk_merge (hsrc : source.Valid) (hsu : o.recipe.support ≤ 8) {n : Lnet.Node}
    (hn : source.nodes[v]? = some n)
    (hcl : classOf n = .internal) (hpi : Forall₂ (CutOk source) picked n.fanins)
    (hc : merge o n picked = some c) : CutOk source c v ∧ ∀ leaf ∈ c.leaves, leaf < v := by
  simp only [merge] at hc
  split_ifs at hc with hlen
  cases hc
  have hle8 := hlen.trans hsu
  have hsub := leaves_reduce_sublist ⟨unionLeaves picked,
    compose n.eval (picked.map (expand · (unionLeaves picked)))⟩
  have hcm : ∀ val, (reduce ⟨unionLeaves picked,
      compose n.eval (picked.map (expand · (unionLeaves picked)))⟩).Computes val
      (n.eval (rowIndex picked fun c => c.fn val)) := by
    intro val
    refine (computes_compose (unionLeaves_sorted picked) hle8 fun d hd => ?_).reduce hle8
    obtain ⟨i, -, hok⟩ := hpi.exists_of_mem_left hd
    exact ⟨hok.computes val, hok.sorted, fun leaf hl => mem_unionLeaves.2 ⟨d, hd, hl⟩⟩
  have hlv : ∀ leaf ∈ (reduce ⟨unionLeaves picked,
      compose n.eval (picked.map (expand · (unionLeaves picked)))⟩).leaves,
      leaf < v ∧ classAt source leaf ≠ .constant := by
    intro leaf hl
    obtain ⟨d, hd, hl⟩ := mem_unionLeaves.1 (hsub.subset hl)
    obtain ⟨i, hi, hok⟩ := hpi.exists_of_mem_left hd
    obtain ⟨hle, hco⟩ := hok.leaves leaf hl
    exact ⟨hle.trans_lt ((hsrc.nodes v n hn).older i hi), hco⟩
  refine ⟨⟨fun val => ?_, fun ci => ?_, (unionLeaves_sorted picked).sublist hsub,
    hsub.length_le.trans hle8,
    fun i hi => essential_reduce hle8 hi, fun leaf hl => ?_⟩, fun leaf hl => (hlv leaf hl).1⟩
  · rw [(hcm val).fn_eq]
    exact hcm val
  · rw [(hcm _).fn_eq, valueAt_eval hsrc hn (by rw [hcl]; exact Class.noConfusion)]
    rw [rowIndex, rowIndex, hpi.map_eq_map fun d _ i hok => hok.value ci]
  · exact ⟨(hlv leaf hl).1.le, (hlv leaf hl).2⟩

/-! ## The enumeration -/

/-- The cuts of the nodes so far. -/
structure CutsOk (source : Lnet) (cuts : List (List Cut)) : Prop where
  ok : ∀ (v : ℕ) (kept : List Cut), cuts[v]? = some kept → ∀ c ∈ kept, CutOk source c v ∧
    ∀ leaf ∈ c.leaves, leaf < v
  nonempty : ∀ (v : ℕ) (kept : List Cut), cuts[v]? = some kept →
    classAt source v ≠ .source → kept ≠ []
  constant : ∀ (v : ℕ) (kept : List Cut), cuts[v]? = some kept → classAt source v = .constant →
    ∀ c ∈ kept, c.leaves = []

variable {outputs : List ℕ} {cuts cuts' : List (List Cut)}

lemma CutsOk.offered (h : CutsOk source cuts) {i : ℕ}
    (hc : c ∈ offered o source outputs cuts i) : CutOk source c i := by
  rcases mem_append.1 hc with hc | hc
  · split_ifs at hc
    · nomatch hc
    · rw [getD_eq_getElem?_getD] at hc
      cases hke : cuts[i]? with
      | none =>
        rw [hke] at hc
        nomatch hc
      | some kept =>
        rw [hke] at hc
        exact (h.ok i kept hke c hc).1
  · split_ifs at hc with hcl
    · nomatch hc
    · obtain rfl := mem_singleton.1 hc
      exact cutOk_trivial hcl

lemma mem_foldl_addCandidate {l acc : List Cut}
    (hc : c ∈ l.foldl addCandidate acc) : c ∈ acc ∨ c ∈ l := by
  induction l generalizing acc with
  | nil => exact .inl hc
  | cons d l ih =>
    rcases ih hc with hc | hc
    · unfold addCandidate at hc
      split_ifs at hc
      · exact .inl hc
      · rcases mem_append.1 hc with hc | hc
        · exact .inl hc
        · exact .inr (mem_cons.2 (.inl (mem_singleton.1 hc)))
    · exact .inr (.tail _ hc)

lemma mem_candidates {n : Lnet.Node} (hc : c ∈ candidates o source outputs cuts n) :
    ∃ picked, Forall₂ (fun d i => d ∈ offered o source outputs cuts i) picked n.fanins ∧
    merge o n picked = some c := by
  rcases mem_foldl_addCandidate hc with hc | hc
  · nomatch hc
  · obtain ⟨picked, hpi, hme⟩ := mem_filterMap.1 hc
    exact ⟨picked, forall₂_map_right_iff.1 (mem_picks hpi), hme⟩

lemma CutsOk.concat (h : CutsOk source cuts) {kept : List Cut}
    (hke : ∀ c ∈ kept, CutOk source c cuts.length ∧ ∀ leaf ∈ c.leaves, leaf < cuts.length)
    (hne : classAt source cuts.length ≠ .source → kept ≠ [])
    (hc : classAt source cuts.length = .constant → ∀ c ∈ kept, c.leaves = []) :
    CutsOk source (cuts ++ [kept]) := by
  refine ⟨fun v l hl => ?_, fun v l hl => ?_, fun v l hl => ?_⟩
  · rcases Lnet.getElem?_concat hl with hl | ⟨rfl, rfl⟩
    · exact h.ok v l hl
    · exact hke
  · rcases Lnet.getElem?_concat hl with hl | ⟨rfl, rfl⟩
    · exact h.nonempty v l hl
    · exact hne
  · rcases Lnet.getElem?_concat hl with hl | ⟨rfl, rfl⟩
    · exact h.constant v l hl
    · exact hc

/-- One node of the enumeration. -/
lemma CutsOk.cutsAt (hsrc : source.Valid) (hsu : o.recipe.support ≤ 8)
    (h : CutsOk source cuts) {n : Lnet.Node}
    (hn : source.nodes[cuts.length]? = some n)
    (hrun : cutsAt s o source outputs cuts n = .ok cuts') :
    CutsOk source cuts' ∧ cuts'.length = cuts.length + 1 := by
  have hlen : ∀ kept, (cuts ++ [kept]).length = cuts.length + 1 := fun kept => length_append
  simp only [LutCover.cutsAt] at hrun
  rcases ite_eq_or_eq (cuts.length % 256 = 0 ∧ s.admission cuts.length = false) _ _ with hre | hta
  · rw [hre] at hrun
    nomatch hrun
  · rw [hta] at hrun
    cases hcl : classOf n with
    | source =>
      simp only [hcl] at hrun
      cases hrun
      refine ⟨h.concat nofun (fun hne => ?_) fun _ => nofun, hlen _⟩
      rw [classAt_eq hn] at hne
      exact absurd hcl hne
    | constant =>
      simp only [hcl] at hrun
      cases hrun
      refine ⟨h.concat (fun c hc => ?_) (fun _ => cons_ne_nil _ _) fun _ c hc => ?_, hlen _⟩
      · obtain rfl := mem_singleton.1 hc
        exact ⟨cutOk_constant hsrc hn hcl, nofun⟩
      · obtain rfl := mem_singleton.1 hc
        rfl
    | internal =>
      simp only [hcl] at hrun
      split_ifs at hrun with hke
      cases hrun
      refine ⟨h.concat (fun c hc => ?_) (fun _ => hke) fun hco => ?_, hlen _⟩
      · obtain ⟨picked, hpi, hme⟩ := mem_candidates (s.mem_of_mem_keep hc)
        exact cutOk_merge hsrc hsu hn hcl (hpi.imp fun _ _ hd => h.offered hd) hme
      · rw [classAt_eq hn, hcl] at hco
        nomatch hco

lemma enumerate_ok (hsrc : source.Valid) (hsu : o.recipe.support ≤ 8)
    (hrun : enumerate s o source outputs = .ok cuts) :
    CutsOk source cuts ∧ cuts.length = source.size := by
  have hlo : ∀ (rest pre : List Lnet.Node) (acc : List (List Cut)), source.nodes = pre ++ rest →
      acc.length = pre.length →
      CutsOk source acc → rest.foldlM (LutCover.cutsAt s o source outputs) acc = .ok cuts →
      CutsOk source cuts ∧ cuts.length = source.size := by
    intro rest
    induction rest with
    | nil =>
      intro pre acc hns hlen hacc hrun
      cases hrun
      rw [append_nil] at hns
      rw [Lnet.size, hns]
      exact ⟨hacc, hlen⟩
    | cons n rest ih =>
      intro pre acc hns hlen hacc hrun
      rw [foldlM_cons] at hrun
      cases hst : LutCover.cutsAt s o source outputs acc n with
      | error e =>
        rw [hst] at hrun
        cases hrun
      | ok acc' =>
        rw [hst] at hrun
        have hn : source.nodes[acc.length]? = some n := by
          rw [hns, hlen]
          simp
        obtain ⟨hac', hle'⟩ := hacc.cutsAt hsrc hsu hn hst
        refine ih (pre ++ [n]) acc' ?_ ?_ hac' hrun
        · rw [hns, append_assoc]
          rfl
        · simp [hle', hlen]
  exact hlo source.nodes [] [] rfl rfl ⟨(by simp), (by simp), (by simp)⟩ hrun

/-! ## The table of a LUT -/

lemma get_toTruth (t : Table) {n x : ℕ} (hn : n ≤ 8) (hx : x < 2 ^ n) :
    (toTruth t n).get x = t.get x := by
  rw [TruthTable.get, toTruth]
  split_ifs with h6
  · have h64 := Nat.pow_lt_pow_right Nat.one_lt_two h6
    rw [div_eq_of_lt (hx.trans h64), mod_eq_of_lt (hx.trans h64),
      getD_cons_zero, BitVec.getLsbD_and,
      Lnet.getLsbD_mask h64, decide_eq_true hx, Bool.and_true, Table.get,
      div_eq_of_lt (hx.trans h64),
      mod_eq_of_lt (hx.trans h64)]
    rfl
  · have hpow : 64 * 2 ^ (n - 6) = 2 ^ n := by
      rw [show 64 = 2 ^ 6 by rfl, ← Nat.pow_add, Nat.add_sub_cancel' (Nat.not_lt.1 h6)]
    have hwo := Nat.div_lt_of_lt_mul (hpow ▸ hx)
    have h4 : x / 64 < 4 := Nat.div_lt_of_lt_mul (hx.trans_le (Nat.pow_le_pow_right Nat.two_pos hn))
    have hof : Fin.ofNat 4 (x / 64) = ⟨x / 64, h4⟩ := Fin.ext (mod_eq_of_lt h4)
    rw [getD_eq_getElem?_getD, getElem?_take_of_lt hwo, List.getElem?_ofFn,
      dif_pos h4, Table.get, hof]
    rfl

lemma CutOk.get_toTruth (h : CutOk source c v) (val : ℕ → Bool) :
    (toTruth c.table c.leaves.length).get (rowIndex c.leaves val) = c.fn val := by
  have hlt := rowIndex_lt c.leaves val
  have h256 := hlt.trans_le (Nat.pow_le_pow_right Nat.two_pos h.length)
  rw [LutCover.get_toTruth c.table h.length hlt]
  have hrow := row_eq_of_testBit h256 fun _ _ => rfl
  rw [← hrow]
  refine h.computes val _ fun i leaf hl => ?_
  rw [testBit_rowIndex, hl]
  rfl

/-! ## The sign of a form -/

section

variable {t : TruthTable} {b : Budget}

section

variable {maxLiterals maxSeries : ℕ} {cost : Form → ℕ}

lemma tryForm_fields {r : FunctionCost} {best : Option FunctionCost × Budget}
    (hbe : ∀ r', best.1 = some r' → r'.constant = r.constant ∧ r'.isAlias = r.isAlias)
    (sign : Bool) {r' : FunctionCost}
    (h : (tryForm s t maxLiterals maxSeries cost r best sign).1 = some r') :
    r'.constant = r.constant ∧ r'.isAlias = r.isAlias := by
  simp only [tryForm] at h
  generalize exactForm s.sort s.factorLiterals (if sign then t.complement else t) maxLiterals
    maxSeries true best.2 = f at h
  split at h
  · cases h
    exact ⟨rfl, rfl⟩
  · exact hbe r' h

lemma cheaper_fields {r r' : FunctionCost}
    (h : (cheaper s t maxLiterals maxSeries cost r b).1 = some r') :
    r'.constant = r.constant ∧ r'.isAlias = r.isAlias := by
  refine tryForm_fields (fun _ h' => tryForm_fields (fun _ hno => ?_) false h') true h
  cases hno

end

lemma functionCost_of_le_one (h : t.inputs ≤ 1) : functionCost s o t b = {
      constant := t.inputs = 0
      isAlias := t.inputs = 1
      form := (exactForm s.sort s.factorLiterals t o.recipe.literals
        o.recipe.series false b).1 } := by
  simp only [functionCost, if_pos h]

lemma functionCost_fields : (functionCost s o t b).constant = decide (t.inputs = 0) ∧
    (functionCost s o t b).isAlias = decide (t.inputs = 1) := by
  rcases lt_or_ge 1 t.inputs with h | h
  · simp only [functionCost, if_neg (Nat.not_le.2 h)]
    split
    next d _ hd =>
      split_ifs at hd
      · exact cheaper_fields (congrArg Prod.fst hd)
      · nomatch congrArg Prod.fst hd
    next b' _ =>
      cases hc : (cheaper s t 4096 t.inputs (fun f =>
        o.coverCost.nonunatePenalty * (o.coverCost.cmosFactor * f.factored +
          o.coverCost.staticOverhead))
        { constant := t.inputs = 0, isAlias := t.inputs = 1 } b').1 with
      | none => exact ⟨rfl, rfl⟩
      | some r => exact cheaper_fields hc
  · rw [functionCost_of_le_one h]
    exact ⟨rfl, rfl⟩

end

/-- A constant is read off its form. -/
lemma CutOk.constant_value (h : CutOk source c v) (hl : c.leaves = [])
    (b : Budget) (ci : ℕ → Bool) :
    (!(functionCost s o (toTruth c.table 0) b).form.cubes.isEmpty !=
      (functionCost s o (toTruth c.table 0) b).complemented) =
      source.valueAt ci v := by
  have hget := h.get_toTruth (source.valueAt ci)
  rw [hl, h.value] at hget
  rw [functionCost_of_le_one (zero_le 1), cubes_exactForm_constant rfl, ← hget]
  change (!(if (toTruth c.table 0).get 0 then [(⟨0, 0⟩ : Cube)] else []).isEmpty != false) =
    (toTruth c.table 0).get 0
  cases (toTruth c.table 0).get 0 <;> rfl

variable {l : ℕ}

/-- The two rows of a wire or of an inverter. -/
lemma CutOk.get_one (h : CutOk source c v) (hl : c.leaves = [l]) :
    (toTruth c.table 1).get 1 = !(toTruth c.table 1).get 0 := by
  have hget : ∀ y : Bool, (toTruth c.table 1).get y.toNat = c.fn fun _ => y := by
    intro y
    have hget := h.get_toTruth fun _ => y
    rwa [hl, rowIndex_singleton] at hget
  obtain ⟨a, b, -, hne⟩ := h.support 0 (by rw [hl]; exact one_pos)
  have happ : ∀ a : ℕ → Bool, c.table.app a = (toTruth c.table 1).get (a 0).toNat := by
    intro a
    rw [hget]
    refine h.computes _ a fun i leaf hle => ?_
    rw [hl] at hle
    obtain rfl := lt_one_iff.1 (List.getElem?_eq_some_iff.1 hle).1
    rfl
  rw [happ, happ] at hne
  cases ha : a 0 <;> cases hb : b 0 <;> rw [ha, hb] at hne
  · exact absurd rfl hne
  · exact eq_not_of_ne hne.symm
  · exact eq_not_of_ne hne
  · exact absurd rfl hne

/-- A wire or an inverter has its leaf's value, or the complement. -/
lemma CutOk.leaf_value (h : CutOk source c v) (hl : c.leaves = [l]) (ci : ℕ → Bool) :
    source.valueAt ci v = (source.valueAt ci l ^^ (toTruth c.table 1).get 0) := by
  have hget := h.get_toTruth (source.valueAt ci)
  rw [hl, h.value, rowIndex_singleton] at hget
  rw [← hget]
  cases source.valueAt ci l
  · exact (Bool.false_xor _).symm
  · exact (h.get_one hl).trans (Bool.true_xor _).symm

/-- An inverter is read off its form where a product may have a literal; else the form is empty. -/
lemma CutOk.inverted_eq (h : CutOk source c v) (hl : c.leaves = [l]) :
    inverted (functionCost s o (toTruth c.table 1) (s.work c.table)) =
      ((toTruth c.table 1).get 0 && decide (1 ≤ o.recipe.series)) := by
  rw [functionCost_of_le_one le_rfl, inverted]
  rcases Nat.eq_zero_or_pos o.recipe.series with hse | hse
  · rw [hse, cubes_exactForm_of_series_zero rfl rfl (h.get_one hl),
      show decide (1 ≤ 0) = false from rfl, Bool.and_false]
    rfl
  · rw [cubes_exactForm_one s.sort_perm rfl rfl (h.get_one hl) hse (s.spend_work c.table),
      decide_eq_true (show 1 ≤ o.recipe.series from hse), Bool.and_true]
    cases (toTruth c.table 1).get 0 <;> rfl

/-- A LUT that is no inverter without a form. -/
def CoverLut.Readable (o : SearchOptions) (lut : CoverLut) : Prop :=
  lut.leaves.length = 1 → lut.table.get 0 = true → 1 ≤ o.recipe.series

/-! ## The references -/

variable {refs : ℕ → ℕ}

lemma bump_ne_zero (h : refs l ≠ 0) : bump source refs v l ≠ 0 := by
  unfold bump
  split_ifs
  · rcases eq_or_ne l v with rfl | hne
    · rw [update_self]
      exact succ_ne_zero _
    · rwa [update_of_ne hne]
  · exact h

variable {leaves : List ℕ}

lemma foldl_bump_ne_zero (h : refs l ≠ 0 ∨ (l ∈ leaves ∧ classAt source l = .internal)) :
    leaves.foldl (bump source) refs l ≠ 0 := by
  induction leaves generalizing refs with
  | nil => exact h.resolve_right fun h => nomatch h.1
  | cons v leaves ih =>
    refine ih ?_
    rcases h with h | ⟨hmem, hc⟩
    · exact .inl (bump_ne_zero h)
    · rcases mem_cons.1 hmem with rfl | hmem
      · refine .inl ?_
        rw [bump, if_pos hc, update_self]
        exact succ_ne_zero _
      · exact .inr ⟨hmem, hc⟩

lemma foldl_bump_of_not_mem (h : l ∉ leaves) : leaves.foldl (bump source) refs l = refs l := by
  induction leaves generalizing refs with
  | nil => rfl
  | cons v leaves ih =>
    have hne : l ≠ v := fun heq => h (mem_cons.2 (.inl heq))
    rw [foldl_cons, ih fun hmem => h (.tail _ hmem), bump]
    split_ifs
    · exact update_of_ne hne _ _
    · rfl

/-- The references are closed: the outputs are referenced, and so are the leaves of a referenced
node that has been visited. -/
structure Marked (s : Search) (source : Lnet) (cuts : List (List Cut)) (outputs : List ℕ) (k : ℕ)
    (refs : ℕ → ℕ) : Prop where
  out : ∀ v ∈ outputs, classAt source v = .internal → refs v ≠ 0
  leaf : ∀ v, k ≤ v → v < source.size → classAt source v = .internal → refs v ≠ 0 →
    ∀ l ∈ (chosen s cuts v).leaves,
    classAt source l = .internal → refs l ≠ 0

lemma Marked.step {k : ℕ} (h : Marked s source cuts outputs (k + 1) refs)
    (ho : ∀ l ∈ (chosen s cuts k).leaves, l < k) : Marked s source cuts outputs k
      (if classAt source k = .internal ∧ refs k ≠ 0 then
        (chosen s cuts k).leaves.foldl (bump source) refs else refs) := by
  split_ifs with hvi
  · refine ⟨fun v hv hc => foldl_bump_ne_zero (.inl (h.out v hv hc)),
      fun v hkv hv hc href l hl hlc => ?_⟩
    rcases eq_or_lt_of_le hkv with rfl | hkv
    · exact foldl_bump_ne_zero (.inr ⟨hl, hlc⟩)
    · rw [foldl_bump_of_not_mem fun hmem => (ho v hmem).not_gt hkv] at href
      exact foldl_bump_ne_zero (.inl (h.leaf v hkv hv hc href l hl hlc))
  · refine ⟨h.out, fun v hkv hv hc href l hl hlc => ?_⟩
    rcases eq_or_lt_of_le hkv with rfl | hkv
    · exact absurd ⟨hc, href⟩ hvi
    · exact h.leaf v hkv hv hc href l hl hlc

lemma mark_marked (outputs : List ℕ)
    (ho : ∀ v < source.size, ∀ l ∈ (chosen s cuts v).leaves, l < v) :
    Marked s source cuts outputs 0 (mark s source cuts outputs) := by
  have hlo : ∀ (k : ℕ) (refs : ℕ → ℕ), k ≤ source.size → Marked s source cuts outputs k refs →
      Marked s source cuts outputs 0
          ((range k).foldr (fun v refs => if classAt source v = .internal ∧ refs v ≠ 0 then
        (chosen s cuts v).leaves.foldl (bump source) refs else refs) refs) := by
    intro k
    induction k with
    | zero => exact fun refs _ h => h
    | succ k ih =>
      intro refs hk h
      rw [range_succ, foldr_append]
      exact ih _ (le_of_succ_le hk) (h.step (ho k hk))
  refine hlo source.size _ le_rfl ⟨fun v hv hc => ?_, fun v hkv hv => absurd hv (Nat.not_lt.2 hkv)⟩
  exact foldl_bump_ne_zero (.inr ⟨hv, hc⟩)

/-! ## Nodes of the new network -/

section

variable {net : Lnet} {ci : ℕ → Bool} {n : Lnet.Node}

lemma eval_inverter {i : ℕ} (val : ℕ → Bool) :
    Lnet.Node.eval { kind := .lut, fanins := [i], table := [Lnet.replicate Lnet.kNot 1] }
    (rowIndex [i] val) = !val i := by
  rw [Lnet.eval_replicate
      (n := { kind := .lut, fanins := [i], table := [Lnet.replicate Lnet.kNot 1] }) rfl
      (show 1 ≤ 6 by decide),
    rowIndex_singleton]
  cases val i <;> decide

/-- The node that `add_lut` over words and `set_sop` append. -/
def tableNode (fanins : List ℕ) (words : List Word) (sop : Lnet.Sop) : Lnet.Node where
  kind := .lut
  fanins := fanins
  table := if fanins.length ≤ 6 then [Lnet.replicate (words.getD 0 0) fanins.length]
    else words.take (if fanins.length = 7 then 2 else 4)
  sop := some sop

lemma setSop_addNode (sop : Lnet.Sop) :
    (net.addNode n).setSop net.size sop = net.addNode { n with sop := some sop } := by
  rw [Lnet.setSop, Lnet.addNode, Lnet.addNode, Lnet.size, modify_append_length]

lemma addTable_setSop (fanins : List ℕ) (words : List Word) (sop : Lnet.Sop) :
    (net.addTable fanins words).setSop net.size sop = net.addNode (tableNode fanins words sop) := by
  unfold Lnet.addTable tableNode
  split_ifs
  · exact setSop_addNode sop
  · exact setSop_addNode sop
  · exact setSop_addNode sop

lemma length_words_toTruth (t : Table) {k : ℕ} (h6 : 6 < k) (h8 : k ≤ 8) :
    (toTruth t k).words.length = if k = 7 then 2 else 4 := by
  obtain rfl | rfl : k = 7 ∨ k = 8 := by omega
  · rfl
  · rfl

variable {fanins : List ℕ}

lemma table_tableNode (t : Table) (h6 : 6 < fanins.length)
    (h8 : fanins.length ≤ 8) (sop : Lnet.Sop) :
    (tableNode fanins (toTruth t fanins.length).words sop).table =
    (toTruth t fanins.length).words := by
  rw [tableNode, if_neg (Nat.not_le.2 h6), ← length_words_toTruth t h6 h8, take_length]

lemma eval_tableNode (t : Table) (hlen : fanins.length ≤ 8) (sop : Lnet.Sop) (val : ℕ → Bool) :
    (tableNode fanins (toTruth t fanins.length).words sop).eval (rowIndex fanins val) =
      (toTruth t fanins.length).get (rowIndex fanins val) := by
  rcases lt_or_ge 6 fanins.length with h6 | h6
  · rw [Lnet.Node.eval, table_tableNode t h6 hlen, TruthTable.get, shiftRight_eq_div_pow,
      show 63 = 2 ^ 6 - 1 by rfl,
      and_two_pow_sub_one_eq_mod]
  · have h64 := (rowIndex_lt fanins val).trans_le (Nat.pow_le_pow_right Nat.two_pos h6)
    have hta : (tableNode fanins (toTruth t fanins.length).words sop).table =
        [Lnet.replicate ((toTruth t fanins.length).words.getD 0 0) fanins.length] := if_pos h6
    have hev := Lnet.eval_replicate
      (n := tableNode fanins (toTruth t fanins.length).words sop) hta h6 val
    rwa [TruthTable.get, div_eq_of_lt h64, mod_eq_of_lt h64]

lemma nodeOk_tableNode (t : Table) (hlen : fanins.length ≤ 8)
    (ho : ∀ i ∈ fanins, i < net.size) (sop : Lnet.Sop) :
    net.NodeOk net.size (tableNode fanins (toTruth t fanins.length).words sop) := by
  refine ⟨ho, nofun, nofun, fun _ h6 => ⟨_, if_pos h6⟩, fun _ h6 => ⟨hlen, ?_⟩⟩
  have h6 : 6 < fanins.length := h6
  rw [table_tableNode t h6 hlen]
  exact length_words_toTruth t h6 hlen

end

/-! ## The boundary of the new network -/

lemma foldl_addEntry {ι : Type} (node : ι → ℕ) (add : Lnet → ι → Lnet)
    (hsz : ∀ net x, (add net x).size = net.size + 1)
    (l : List ι) (st : Lnet × (ℕ → Option ℕ)) :
    (l.foldl (addEntry node add) st).1 = l.foldl add st.1 ∧
    (∀ v i, (l.foldl (addEntry node add) st).2 v = some i →
      st.2 v = some i ∨ ∃ (k : ℕ) (x : ι), l[k]? = some x ∧ node x = v ∧ i = st.1.size + k) ∧
    ∀ v, ((st.2 v).isSome = true ∨ ∃ x ∈ l, node x = v) →
    ((l.foldl (addEntry node add) st).2 v).isSome = true := by
  induction l generalizing st with
  | nil => exact ⟨rfl, fun v i hi => .inl hi, fun v hv => hv.resolve_right nofun⟩
  | cons x l ih =>
    obtain ⟨hnet, hids, hsm⟩ := ih (addEntry node add st x)
    have hse : (addEntry node add st x).2 (node x) = some st.1.size := update_self ..
    have hne : ∀ {v}, v ≠ node x →
      (addEntry node add st x).2 v = st.2 v := fun h => update_of_ne h ..
    refine ⟨hnet, fun v i hi => ?_, fun v hv => hsm v ?_⟩
    · rcases hids v i hi with hi | ⟨k, y, hy, hn, rfl⟩
      · rcases eq_or_ne v (node x) with rfl | hv
        · rw [hse] at hi
          exact .inr ⟨0, x, rfl, rfl, (Option.some.inj hi).symm⟩
        · rw [hne hv] at hi
          exact .inl hi
      · refine .inr ⟨k + 1, y, hy, hn, ?_⟩
        rw [addEntry, hsz, add_assoc, add_comm 1 k]
    · rcases eq_or_ne v (node x) with rfl | hvx
      · rw [hse]
        exact .inl rfl
      · rw [hne hvx]
        rcases hv with hv | ⟨y, hy, hn⟩
        · exact .inl hv
        · rcases mem_cons.1 hy with rfl | hy
          · exact absurd hn.symm hvx
          · exact .inr ⟨y, hy, hn⟩

/-- The new network and the new id of each node that it has: every source and every selected node
below `k`. -/
structure Copied (source : Lnet) (p : ℕ → Bool) (k : ℕ) (st : Lnet × (ℕ → Option ℕ)) : Prop where
  valid : st.1.Valid
  sourced : st.1.Sourced
  inputs : st.1.inputs = source.boundary.inputs
  latches : st.1.latches = source.boundary.latches
  outputs : st.1.outputs = []
  value : ∀ v i, st.2 v = some i → i < st.1.size ∧ ∀ ci, st.1.valueAt ci i = source.valueAt ci v
  has : ∀ v < source.size, (classAt source v = .source ∨ (v < k ∧ p v = true)) →
    (st.2 v).isSome = true

/-- The value of a source, here and on the boundary. -/
lemma valueAt_boundary (hsrc : source.Valid) {k : ℕ} {n : Lnet.Node}
    (hn : source.nodes[v]? = some n) (hki : n.kind = .source)
    (hk : source.ciIndex n = k) (hlt : k < source.inputs.length + source.latches.length) :
    1 + k < source.boundary.size ∧
    ∀ ci, source.boundary.valueAt ci (1 + k) = source.valueAt ci v := by
  obtain ⟨m, hm, hmki, hmf, hmk, hmok⟩ := Lnet.boundary_source _ hlt
  refine ⟨(List.getElem?_eq_some_iff.1 hm).1, fun ci => ?_⟩
  rw [Lnet.valueAt_source hm hmok.older hmki,
    Lnet.valueAt_source hn (hsrc.nodes v n hn).older hki, hmk, hk]

lemma copied_boundary (hso : source.Valid) (hsr : source.Sourced) (p : ℕ → Bool) :
    Copied source p 0 (coverBoundary source) := by
  obtain ⟨hnet, hids, hsm⟩ := foldl_addEntry Lnet.Input.node (fun net i => net.addInput i.name)
    (fun _ _ => length_append) source.inputs (({} : Lnet), fun _ => none)
  obtain ⟨hne', hid', hsm'⟩ := foldl_addEntry Lnet.Latch.q (fun net l => net.addLatch l.name l.init)
    (fun _ _ => length_append) source.latches
    (source.inputs.foldl (addEntry Lnet.Input.node fun net i => net.addInput i.name)
      (({} : Lnet), fun _ => none))
  have hbo : (coverBoundary source).1 = source.boundary := by
    rw [coverBoundary, hne', hnet]
    rfl
  have hsz : (source.inputs.foldl (addEntry Lnet.Input.node fun net i => net.addInput i.name)
      (({} : Lnet), fun _ => none)).1.size =
      1 + source.inputs.length := by
    rw [hnet, Lnet.addInputs_eq, Lnet.size]
    simp [add_comm]
  obtain ⟨hva, hsrc⟩ := Lnet.valid_boundary source
  refine ⟨hbo ▸ hva, hbo ▸ hsrc, by rw [hbo], by rw [hbo], ?_, fun v i hi => ?_, fun v hv hc => ?_⟩
  · rw [hbo, Lnet.boundary_eq]
  · rw [hbo]
    rcases hid' v i hi with hi | ⟨k, l, hl, rfl, rfl⟩
    · rcases hids v i hi with hi | ⟨k, x, hx, rfl, rfl⟩
      · cases hi
      · obtain ⟨n, hn, hk, hla, hin⟩ := hso.inputs k x hx
        refine valueAt_boundary hso hn hk ?_ ?_
        · rw [Lnet.ciIndex, hla, hin]
          rfl
        · have := (List.getElem?_eq_some_iff.1 hx).1
          omega
    · obtain ⟨n, hn, hk, hla, hin⟩ := hso.latches k l hl
      rw [hsz, add_assoc]
      refine valueAt_boundary hso hn hk ?_ ?_
      · rw [Lnet.ciIndex, hla, hin]
        rfl
      · have := (List.getElem?_eq_some_iff.1 hl).1
        omega
  · have hc := hc.resolve_right fun h => not_lt_zero v h.1
    have hn := getElem?_eq_getElem hv
    rw [classAt_eq hn] at hc
    have hen := hsr v _ hn (kind_of_source hc)
    split at hen
    · obtain ⟨l, hl, hq⟩ := hen
      exact hsm' v (.inr ⟨l, mem_of_getElem? hl, hq⟩)
    · obtain ⟨i, hi, hno⟩ := hen
      exact hsm' v (.inl (hsm v (.inr ⟨i, mem_of_getElem? hi, hno⟩)))

/-! ## The LUTs of the new network -/

/-- A selected LUT: a sound cut whose leaves are sources or selected nodes before it. -/
structure LutOk (s : Search) (o : SearchOptions) (source : Lnet) (p : ℕ → Bool)
    (lut : CoverLut) : Prop where
  cut : ∃ c : Cut, CutOk source c lut.root ∧ lut.leaves = c.leaves ∧
    lut.table = toTruth c.table c.leaves.length ∧
    lut.fn = functionCost s o lut.table (s.work c.table)
  leaves : ∀ l ∈ lut.leaves, l < lut.root ∧ (classAt source l = .source ∨ p l = true)

section

variable {p : ℕ → Bool} {k : ℕ} {st : Lnet × (ℕ → Option ℕ)}

section

variable (h : Copied source p k st)
include h

/-- A node that has the value of `k` is remembered as `k`. -/
lemma Copied.update {id : ℕ} (hid : id < st.1.size)
    (hval : ∀ ci, st.1.valueAt ci id = source.valueAt ci k) :
    Copied source p (k + 1) (st.1, Function.update st.2 k (some id)) := by
  refine ⟨h.valid, h.sourced, h.inputs, h.latches, h.outputs, fun v i hi => ?_, fun v hv hc => ?_⟩
  · dsimp only at hi ⊢
    rcases eq_or_ne v k with rfl | hne
    · rw [update_self] at hi
      cases hi
      exact ⟨hid, hval⟩
    · rw [update_of_ne hne] at hi
      exact h.value v i hi
  · dsimp only
    rcases eq_or_ne v k with rfl | hne
    · rw [update_self]
      rfl
    · rw [update_of_ne hne]
      refine h.has v hv (hc.imp_right fun hp => ⟨?_, hp.2⟩)
      exact lt_of_le_of_ne (le_of_lt_succ hp.1) hne

section

variable {n : Lnet.Node} (hk : n.kind ≠ .source) (hn : st.1.NodeOk st.1.size n)
include hk hn

/-- Appending a node keeps what is copied. -/
lemma Copied.addNode : Copied source p k (st.1.addNode n, st.2) where
  valid := h.valid.addNode hn
  sourced := h.sourced.addNode hk
  inputs := h.inputs
  latches := h.latches
  outputs := h.outputs
  value := by
    intro v i hi
    obtain ⟨hlt, hval⟩ := h.value v i hi
    refine ⟨hlt.trans_le (le_of_lt (Lnet.size_addNode ▸ lt_succ_self _)), fun ci => ?_⟩
    rw [Lnet.valueAt_addNode_of_lt hlt, hval ci]
  has := h.has

lemma Copied.push (hval : ∀ ci,
    n.eval (rowIndex n.fanins (st.1.valueAt ci)) = source.valueAt ci k) :
    Copied source p (k + 1) (st.1.addNode n, Function.update st.2 k (some st.1.size)) := by
  refine (h.addNode hk hn).update (Lnet.size_addNode ▸ lt_succ_self _) fun ci => ?_
  rw [Lnet.valueAt_addNode hk hn.older, hval ci]

end

/-- The fanins of a LUT, with the values of its leaves. -/
lemma Copied.fanins (hk : k ≤ source.size)
    (hle : ∀ l ∈ leaves, l < k ∧ (classAt source l = .source ∨ p l = true)) :
    ∃ fanins, leaves.mapM st.2 = some fanins ∧ fanins.length = leaves.length ∧
    (∀ i ∈ fanins, i < st.1.size) ∧
      ∀ ci, rowIndex fanins (st.1.valueAt ci) = rowIndex leaves (source.valueAt ci) := by
  have hsm : (leaves.mapM st.2).isSome = true := by
    rw [isSome_mapM_iff]
    intro l hl
    obtain ⟨hlt, hc⟩ := hle l hl
    exact h.has l (hlt.trans_le hk) (hc.imp_right fun hp => ⟨hlt, hp⟩)
  obtain ⟨fanins, hfa⟩ := isSome_iff_exists.1 hsm
  have hrel := forall₂_of_mapM_eq_some hfa
  refine ⟨fanins, hfa, hrel.length_eq.symm, fun i hi => ?_, fun ci => ?_⟩
  · obtain ⟨l, -, hl⟩ := hrel.exists_of_mem_right hi
    exact (h.value l i hl).1
  · rw [rowIndex, rowIndex, hrel.map_eq_map fun l _ i hi => ((h.value l i hi).2 ci).symm]

end

lemma nodeOk_constant (net : Lnet) (value : Bool) :
    net.NodeOk net.size { table := [if value then BitVec.allOnes 64 else 0] } := by
  refine ⟨nofun, fun _ => ⟨rfl, ?_⟩, nofun, nofun, nofun⟩
  cases value
  · exact .inl rfl
  · exact .inr rfl

lemma eval_constant (value : Bool) :
    Lnet.Node.eval { table := [if value then BitVec.allOnes 64 else 0] } 0 = value := by
  cases value <;> decide

/-- One LUT of the cover. -/
lemma Copied.addCover (lut : CoverLut) (h : Copied source p lut.root st)
    (hr : lut.root ≤ source.size)
    (hlut : LutOk s o source p lut) (hread : lut.Readable o) :
    ∃ st', addCover st lut = some st' ∧ Copied source p (lut.root + 1) st' := by
  obtain ⟨c, hc, hl, hta, hfn⟩ := hlut.cut
  obtain ⟨fanins, hfa, hlen, ho, hrow⟩ := h.fanins hr hlut.leaves
  obtain ⟨hco, hal⟩ := functionCost_fields (s := s) (o := o) (t := lut.table) (b := s.work c.table)
  have hin : lut.table.inputs = c.leaves.length := by rw [hta, toTruth]
  rw [← hfn, hin] at hco hal
  rw [hl] at hlen
  unfold LutCover.addCover
  dsimp only
  rw [hco, hal, hfa]
  match hsz : c.leaves with
  | [] =>
    refine ⟨_, rfl, h.push (n := { table :=
      [if (!lut.fn.form.cubes.isEmpty != lut.fn.complemented) then BitVec.allOnes 64 else 0] })
      (by exact nofun) (nodeOk_constant _ _) fun ci => (eval_constant _).trans ?_⟩
    rw [hfn, hta, hsz]
    exact hc.constant_value hsz _ ci
  | [l] =>
    rw [hsz] at hlen
    obtain ⟨i, rfl⟩ := length_eq_one_iff.1 hlen
    have hinv : inverted lut.fn = lut.table.get 0 := by
      have hread := hread (by rw [hl, hsz]; rfl)
      rw [hta, hsz] at hread
      rw [hfn, hta, hsz, show [l].length = 1 from rfl, hc.inverted_eq hsz]
      cases hget : (toTruth c.table 1).get 0 with
      | true => rw [decide_eq_true (hread hget), Bool.and_true]
      | false => exact Bool.false_and _
    have hv : ∀ ci, source.valueAt ci lut.root = (st.1.valueAt ci i ^^ inverted lut.fn) := by
      intro ci
      have hi := congrArg (·.testBit 0) (hrow ci)
      simp only [testBit_rowIndex, hl, hsz] at hi
      rw [hinv, hta, hsz, hc.leaf_value hsz ci, ← show st.1.valueAt ci i =
        source.valueAt ci l from hi]
      rfl
    cases hinv : inverted lut.fn with
    | true =>
      refine ⟨_, rfl, h.push
        (n := { kind := .lut, fanins := [i], table := [Lnet.replicate Lnet.kNot 1] })
        (by exact nofun)
        ⟨ho, nofun, nofun, fun _ _ => ⟨_, rfl⟩,
          fun _ h6 => absurd h6 (show ¬6 < 1 by decide)⟩ fun ci => ?_⟩
      rw [eval_inverter, hv ci, hinv, Bool.xor_true]
    | false =>
      refine ⟨_, rfl, h.update (ho i (.head _)) fun ci => ?_⟩
      rw [hv ci, hinv, Bool.xor_false]
      rfl
  | l :: l' :: rest =>
    have hwi := hlen.trans_le hc.length
    have hwo : lut.table = toTruth c.table fanins.length := by rw [hta, hlen]
    refine ⟨_, rfl, ?_⟩
    rw [addTable_setSop, hwo]
    refine h.push (by exact nofun) (nodeOk_tableNode c.table hwi ho _) fun ci => ?_
    change (tableNode fanins _ _).eval (rowIndex fanins _) = _
    rw [eval_tableNode c.table hwi, hrow ci, hl, hlen, hc.get_toTruth, hc.value]

lemma Copied.skip (h : Copied source p k st) (hp : p k = false) : Copied source p (k + 1) st := by
  refine ⟨h.valid, h.sourced, h.inputs, h.latches, h.outputs, h.value, fun v hv hc => ?_⟩
  refine h.has v hv (hc.imp_right fun hpv => ⟨?_, hpv.2⟩)
  refine lt_of_le_of_ne (le_of_lt_succ hpv.1) fun heq => ?_
  rw [heq, hp] at hpv
  exact Bool.false_ne_true hpv.2

end

/-! ## The selected LUTs -/

section

lemma getElem?_cuts (hlen : cuts.length = source.size) (hv : v < source.size) :
    cuts[v]? = some (cuts.getD v []) := by
  rw [getD_eq_getElem _ _ (hlen ▸ hv), getElem?_eq_getElem (hlen ▸ hv)]

lemma chosen_mem (hlen : cuts.length = source.size) (hv : v < source.size)
    (hne : cuts.getD v [] ≠ []) :
    chosen s cuts v ∈ cuts.getD v [] := by
  have hlt := s.best_lt (getElem?_cuts hlen hv) hne
  rw [chosen, getD_eq_getElem _ _ hlt]
  exact getElem_mem hlt

lemma CutsOk.chosen_older (hcu : CutsOk source cuts) (hlen : cuts.length = source.size)
    (hv : v < source.size) :
    ∀ l ∈ (chosen s cuts v).leaves, l < v := by
  by_cases hne : cuts.getD v [] = []
  · rw [chosen, hne]
    exact nofun
  · exact (hcu.ok v _ (getElem?_cuts hlen hv) _ (chosen_mem hlen hv hne)).2

lemma isLut_of_internal (hc : classAt source v = .internal) (href : refs v ≠ 0) :
    isLut source outputs refs v = true := by
  rw [isLut, decide_eq_true ⟨hc, href⟩, Bool.true_or]

/-- The selected LUTs are sound, over sources and selected nodes. -/
lemma CutsOk.lutOk (hcu : CutsOk source cuts)
    (hlen : cuts.length = source.size) (hv : v < source.size)
    (hp : isLut source outputs (mark s source cuts outputs) v = true) :
    LutOk s o source (isLut source outputs (mark s source cuts outputs))
    (lutAt s o source cuts v) := by
  have hget := getElem?_cuts hlen hv
  have hma := mark_marked outputs fun v hv => hcu.chosen_older (s := s) hlen hv
  rcases or_eq_true_iff.1 hp with hp | hp
  · obtain ⟨hc, href⟩ := of_decide_eq_true hp
    have hne : classAt source v ≠ .constant := by rw [hc]; exact Class.noConfusion
    have hke := hcu.nonempty v _ hget (by rw [hc]; exact Class.noConfusion)
    obtain ⟨hok, ho⟩ := hcu.ok v _ hget _ (chosen_mem (s := s) hlen hv hke)
    have hlut : lutAt s o source cuts v = ⟨v, (chosen s cuts v).leaves,
        toTruth (chosen s cuts v).table (chosen s cuts v).leaves.length,
        functionCost s o (toTruth (chosen s cuts v).table (chosen s cuts v).leaves.length)
          (s.work (chosen s cuts v).table)⟩ := by
      simp only [lutAt, if_neg hne]
    rw [hlut]
    refine ⟨⟨chosen s cuts v, hok, rfl, rfl, rfl⟩, fun l hl => ⟨ho l hl, ?_⟩⟩
    cases hlc : classAt source l with
    | source => exact .inl rfl
    | constant => exact absurd hlc (hok.leaves l hl).2
    | internal => exact .inr (isLut_of_internal hlc (hma.leaf v (zero_le v) hv hc href l hl hlc))
  · obtain ⟨-, hc⟩ := of_decide_eq_true hp
    have hke := hcu.nonempty v _ hget (by rw [hc]; exact Class.noConfusion)
    have hmem : (cuts.getD v []).getD 0 {} ∈ cuts.getD v [] := by
      rw [getD_eq_getElem _ _ (length_pos_of_ne_nil hke)]
      exact getElem_mem _
    have hle := hcu.constant v _ hget hc _ hmem
    have hlut : lutAt s o source cuts v =
        ⟨v, ((cuts.getD v []).getD 0 {}).leaves, toTruth ((cuts.getD v []).getD 0 {}).table
        ((cuts.getD v []).getD 0 {}).leaves.length,
          functionCost s o (toTruth ((cuts.getD v []).getD 0 {}).table
          ((cuts.getD v []).getD 0 {}).leaves.length)
            (s.work ((cuts.getD v []).getD 0 {}).table)⟩ := by
      simp only [lutAt, if_pos hc]
    rw [hlut]
    refine ⟨⟨_, (hcu.ok v _ hget _ hmem).1, rfl, rfl, rfl⟩, fun l hl => ?_⟩
    rw [hle] at hl
    nomatch hl

/-- The LUTs of the nodes below `k`. -/
lemma run_luts (outputs : List ℕ) (hcu : CutsOk source cuts) (hlen : cuts.length = source.size)
    (hsrc : source.Valid) (hso : source.Sourced)
    {k : ℕ} (hk : k ≤ source.size)
    (hread : ∀ v < k, isLut source outputs (mark s source cuts outputs) v = true →
      (lutAt s o source cuts v).Readable o) :
    ∃ st, (((List.range k).filter (isLut source outputs (mark s source cuts outputs))).map
      (lutAt s o source cuts)).foldlM addCover
      (coverBoundary source) = some st ∧
      Copied source (isLut source outputs (mark s source cuts outputs)) k st := by
  induction k with
  | zero => exact ⟨_, rfl, copied_boundary hsrc hso _⟩
  | succ k ih =>
    obtain ⟨st, hrun, hst⟩ := ih (le_of_succ_le hk) fun v hv => hread v (hv.trans (lt_succ_self k))
    rw [range_succ, filter_append, map_append, foldlM_append, hrun]
    cases hp : isLut source outputs (mark s source cuts outputs) k with
    | false =>
      rw [filter_cons_of_neg (by rw [hp]; exact false_ne_true)]
      exact ⟨st, rfl, hst.skip hp⟩
    | true =>
      rw [filter_cons_of_pos hp]
      have hlut := hcu.lutOk (o := o) hlen hk hp
      obtain ⟨st', hste, hst'⟩ := Copied.addCover (lutAt s o source cuts k) hst (le_of_succ_le hk)
        hlut (hread k (lt_succ_self k) hp)
      refine ⟨st', ?_, hst'⟩
      change (LutCover.addCover st (lutAt s o source cuts k)).bind (fun st => some st) = some st'
      rw [hste]
      rfl

end

/-! ## The cover network -/

/-- The new network has the boundary of the source network in its order, and its functions. -/
structure Covers (source net : Lnet) : Prop where
  valid : net.Valid
  sourced : net.Sourced
  inputs : net.inputs.map (·.name) = source.inputs.map (·.name)
  latches : net.latches.map (fun l => (l.name, l.init)) =
    source.latches.map (fun l => (l.name, l.init))
  outputs : net.outputs.map (·.name) = source.outputs.map (·.name)
  values : ∀ ci, net.coValues ci = source.coValues ci

lemma valid_foldl_addOutput {net : Lnet} (h : net.Valid ∧ net.Sourced)
    (outs : List (Lnet.Output × ℕ))
    (hlt : ∀ x ∈ outs, x.2 < net.size) :
    (outs.foldl (fun net o => net.addOutput o.2 o.1.name) net).Valid ∧
      (outs.foldl (fun net o => net.addOutput o.2 o.1.name) net).Sourced := by
  induction outs generalizing net with
  | nil => exact h
  | cons x outs ih =>
    refine ih ⟨h.1.addOutput (hlt x (.head _)) x.1.name, h.2.addOutput x.2 x.1.name⟩ fun y hy => ?_
    exact hlt y (.tail _ hy)

lemma valid_foldl_setLatchInput {net : Lnet} (h : net.Valid ∧ net.Sourced) (ds : List (ℕ × ℕ))
    (hlt : ∀ x ∈ ds, x.1 < net.size) :
    (ds.foldl (fun net d => net.setLatchInput d.2 d.1) net).Valid ∧
      (ds.foldl (fun net d => net.setLatchInput d.2 d.1) net).Sourced := by
  induction ds generalizing net with
  | nil => exact h
  | cons x ds ih =>
    refine ih ⟨h.1.setLatchInput x.2 (hlt x (.head _)), h.2.setLatchInput x.2 x.1⟩ fun y hy => ?_
    exact hlt y (.tail _ hy)

lemma map_zipWith_d (latches : List Lnet.Latch) (ds : List ℕ) (hlen : ds.length = latches.length) :
    (List.zipWith (fun l d => { l with d := some d }) latches ds).map (·.d) = ds.map some ∧
      (List.zipWith (fun l d => { l with d := some d }) latches ds).map
      (fun l : Lnet.Latch => (l.name, l.init)) =
        latches.map fun l => (l.name, l.init) := by
  induction latches generalizing ds with
  | nil =>
    obtain rfl := length_eq_zero_iff.1 hlen
    exact ⟨rfl, rfl⟩
  | cons l latches ih =>
    obtain ⟨d, ds, rfl⟩ := exists_cons_of_length_eq_add_one hlen
    obtain ⟨hd, hna⟩ := ih ds (Nat.succ.inj hlen)
    exact ⟨congrArg (some d :: ·) hd, congrArg ((l.name, l.init) :: ·) hna⟩

/-- The outputs and the latch inputs close the network. -/
lemma Copied.close {p : ℕ → Bool} {st : Lnet × (ℕ → Option ℕ)}
    (h : Copied source p source.size st) {outs ds : List ℕ}
    (hos : source.outputs.mapM (fun o => st.2 o.node) = some outs)
    (hds : source.latches.mapM (fun l => l.d.bind st.2) = some ds) :
    Covers source (ds.zipIdx.foldl (fun net d => net.setLatchInput d.2 d.1)
      ((source.outputs.zip outs).foldl (fun net o => net.addOutput o.2 o.1.name) st.1)) := by
  have hre := forall₂_of_mapM_eq_some hos
  have hrl := forall₂_of_mapM_eq_some hds
  have hd : ∀ {l : Lnet.Latch} {d : ℕ}, l.d.bind st.2 = some d → ∃ w, l.d = some w ∧
    st.2 w = some d := bind_eq_some_iff.1
  have hlat : st.1.latches.length = source.latches.length := by
    rw [h.latches, Lnet.boundary_eq]
    simp
  have hlen := hrl.length_eq.symm.trans hlat.symm
  obtain ⟨hds', hns⟩ := map_zipWith_d st.1.latches ds hlen
  have hv : (ds.zipIdx.foldl (fun net d => net.setLatchInput d.2 d.1)
      ((source.outputs.zip outs).foldl (fun net o => net.addOutput o.2 o.1.name) st.1)).Valid ∧
      (ds.zipIdx.foldl (fun net d => net.setLatchInput d.2 d.1)
        ((source.outputs.zip outs).foldl
          (fun net o => net.addOutput o.2 o.1.name) st.1)).Sourced := by
    refine valid_foldl_setLatchInput
      (valid_foldl_addOutput ⟨h.valid, h.sourced⟩ _ fun x hx => ?_) _ fun x hx => ?_
    · obtain ⟨out, -, hout⟩ := hre.exists_of_mem_right (of_mem_zip (b := x.2) (a := x.1) hx).2
      exact (h.value _ _ hout).1
    · obtain ⟨l, -, hl⟩ := hrl.exists_of_mem_right (fst_mem_of_mem_zipIdx hx)
      obtain ⟨w, -, hw⟩ := hd hl
      rw [Lnet.foldl_addOutput]
      exact (h.value _ _ hw).1
  have hcl := Lnet.foldl_setLatchInput
    ((source.outputs.zip outs).foldl (fun net o => net.addOutput o.2 o.1.name) st.1)
    ds [] st.1.latches hlen (by rw [Lnet.foldl_addOutput]; rfl)
  rw [length_nil, nil_append] at hcl
  rw [hcl, Lnet.foldl_addOutput] at hv ⊢
  refine ⟨hv.1, hv.2, ?_, ?_, ?_, fun ci => ?_⟩
  · exact (congrArg _ h.inputs).trans (Lnet.boundary_names source).1
  · exact hns.trans ((congrArg _ h.latches).trans (Lnet.boundary_names source).2)
  · rw [h.outputs, nil_append, List.map_map]
    exact (map_map (f := Prod.fst) (g := Lnet.Output.name)).symm.trans
      (congrArg _ (map_fst_zip hre.length_eq.le))
  · have hou : (st.1.outputs ++ (source.outputs.zip outs).map
        fun o => (⟨o.2, o.1.name, st.1.size⟩ : Lnet.Output)).map
        (some ·.node) = outs.map some := by
      rw [h.outputs, nil_append, List.map_map]
      exact (map_map (f := Prod.snd) (g := some)).symm.trans
        (congrArg _ (map_snd_zip hre.length_eq.ge))
    rw [Lnet.coValues, Lnet.coValues, Lnet.combinationalOutputs, Lnet.combinationalOutputs]
    rw [hou, hds', map_append, map_append, List.map_map, List.map_map, List.map_map, List.map_map]
    congr 1
    · refine (hre.map_eq_map fun out _ i hi => ?_).symm
      exact congrArg some ((h.value _ _ hi).2 ci).symm
    · refine (hrl.map_eq_map fun l _ i hi => ?_).symm
      obtain ⟨w, hw, hi⟩ := hd hi
      rw [comp_apply, hw]
      exact congrArg some ((h.value _ _ hi).2 ci).symm

/-! ## The cover -/

variable {luts : List CoverLut}

lemma lutCover_ok (h : lutCover s o source = .ok luts) :
    ∃ outputs cuts, source.combinationalOutputs.mapM id = some outputs ∧
      ¬(o.recipe.support < 2 ∨ o.recipe.support > 8 ∨ o.coverCuts = 0 ∨ o.coverCuts > 64 ∨
        source.size > o.maxNodes) ∧
      enumerate s o source outputs = .ok cuts ∧ luts = selectLuts s o source cuts outputs := by
  unfold lutCover at h
  split at h
  · nomatch h
  next outputs hou =>
    dsimp only at h
    split_ifs at h with hop hfa
    split at h
    · nomatch h
    next cuts hcu =>
      split_ifs at h
      exact ⟨outputs, cuts, hou, hop, hcu, (Except.ok.inj h).symm⟩

lemma mem_outputs {outputs : List ℕ} (h : source.combinationalOutputs.mapM id = some outputs) :
    some v ∈ source.combinationalOutputs → v ∈ outputs := by
  intro hv
  obtain ⟨w, hw, hvw⟩ := (forall₂_of_mapM_eq_some h).exists_of_mem_left hv
  cases hvw
  exact hw

/-- Each selected LUT computes its node. -/
lemma table_of_lutCover (hsrc : source.Valid) (h : lutCover s o source = .ok luts) {lut : CoverLut}
    (hlut : lut ∈ luts) (ci : ℕ → Bool) :
    lut.table.get (rowIndex lut.leaves (source.valueAt ci)) = source.valueAt ci lut.root := by
  obtain ⟨outputs, cuts, -, hop, hen, rfl⟩ := lutCover_ok h
  obtain ⟨hcu, hlen⟩ := enumerate_ok hsrc (by omega) hen
  obtain ⟨v, hv, rfl⟩ := mem_map.1 hlut
  obtain ⟨hr, hp⟩ := mem_filter.1 hv
  obtain ⟨c, hc, hl, hta, -⟩ := (hcu.lutOk (o := o) hlen (mem_range.1 hr) hp).cut
  rw [hl, hta, hc.get_toTruth, hc.value]

lemma covers_of_lutCover (hsrc : source.Valid) (hso : source.Sourced)
    (h : lutCover s o source = .ok luts)
    (hread : ∀ lut ∈ luts, lut.Readable o) :
    ∃ net, coverNetwork source luts = some net ∧ Covers source net := by
  obtain ⟨outputs, cuts, hou, hop, hen, rfl⟩ := lutCover_ok h
  obtain ⟨hcu, hlen⟩ := enumerate_ok hsrc (by omega) hen
  obtain ⟨st, hrun, hst⟩ := run_luts (s := s) outputs hcu hlen hsrc hso le_rfl fun v hv hp =>
    hread _ (mem_map_of_mem (mem_filter.2 ⟨mem_range.2 hv, hp⟩))
  have hma := mark_marked outputs fun v hv => hcu.chosen_older (s := s) hlen hv
  -- every combinational output is a source or selected
  have hhas : ∀ v, some v ∈ source.combinationalOutputs → (st.2 v).isSome = true := by
    intro v hv
    refine hst.has v (hsrc.cos v hv) ?_
    have hmem := mem_outputs hou hv
    cases hc : classAt source v with
    | source => exact .inl rfl
    | constant => exact .inr ⟨hsrc.cos v hv, (or_eq_true_iff.2 (.inr (decide_eq_true ⟨hmem, hc⟩)))⟩
    | internal => exact .inr ⟨hsrc.cos v hv, isLut_of_internal hc (hma.out v hmem hc)⟩
  have hos : (source.outputs.mapM fun o => st.2 o.node).isSome = true := by
    rw [isSome_mapM_iff]
    intro out hout
    exact hhas _ (mem_append_left _ (mem_map.2 ⟨out, hout, rfl⟩))
  have hds : (source.latches.mapM fun l : Lnet.Latch => l.d.bind st.2).isSome = true := by
    rw [isSome_mapM_iff]
    intro l hl
    have hmem : l.d ∈ source.combinationalOutputs := mem_append_right _ (mem_map.2 ⟨l, hl, rfl⟩)
    obtain ⟨w, -, hw⟩ := (forall₂_of_mapM_eq_some hou).exists_of_mem_left hmem
    change l.d = some w at hw
    rw [hw] at hmem ⊢
    exact hhas w hmem
  obtain ⟨outs, hos⟩ := isSome_iff_exists.1 hos
  obtain ⟨ds, hds⟩ := isSome_iff_exists.1 hds
  refine ⟨_, ?_, hst.close hos hds⟩
  rw [coverNetwork, selectLuts, hrun]
  change (source.outputs.mapM fun o => st.2 o.node).bind _ = _
  rw [hos]
  rw [hds]
  rfl

/-! ## Exactly when the LUTs are built right -/

/-- Every LUT of the cover is built, and what is built for it has the value of its node. -/
def Stitched (source : Lnet) (luts : List CoverLut) : Prop :=
  ∃ st, luts.foldlM addCover (coverBoundary source) = some st ∧
    ∀ lut ∈ luts, ∃ i, st.2 lut.root = some i ∧ ∀ ci, st.1.valueAt ci i = source.valueAt ci lut.root

section

variable {st st' : Lnet × (ℕ → Option ℕ)}

/-- What is built stays, and so do the ids of the other nodes. -/
structure Extends (p : ℕ → Prop) (st st' : Lnet × (ℕ → Option ℕ)) : Prop where
  size : st.1.size ≤ st'.1.size
  value : ∀ i < st.1.size, ∀ ci, st'.1.valueAt ci i = st.1.valueAt ci i
  id : ∀ v, ¬p v → st'.2 v = st.2 v

lemma extends_addNode (n : Lnet.Node) (v : ℕ) (i : Option ℕ) :
    Extends (· = v) st (st.1.addNode n, update st.2 v i) where
  size := le_of_lt (Lnet.size_addNode ▸ lt_succ_self _)
  value _ hi _ := Lnet.valueAt_addNode_of_lt hi
  id _ hv := update_of_ne hv ..

lemma extends_addCover {lut : CoverLut} (h : addCover st lut = some st') :
    Extends (· = lut.root) st st' := by
  rw [addCover] at h
  dsimp only at h
  split at h
  · obtain rfl := Option.some.inj h
    exact extends_addNode _ _ _
  · split at h
    · cases h
    · split at h
      · split at h
        · obtain rfl := Option.some.inj h
          exact extends_addNode _ _ _
        · obtain rfl := Option.some.inj h
          exact ⟨le_rfl, fun _ _ _ => rfl, fun _ hv => update_of_ne hv ..⟩
      · obtain rfl := Option.some.inj h
        rw [addTable_setSop]
        exact extends_addNode _ _ _

lemma extends_foldlM {luts : List CoverLut} (h : luts.foldlM addCover st = some st') :
    Extends (fun v => ∃ lut ∈ luts, lut.root = v) st st' := by
  induction luts generalizing st with
  | nil =>
    obtain rfl := Option.some.inj h
    exact ⟨le_rfl, fun _ _ _ => rfl, fun _ _ => rfl⟩
  | cons lut luts ih =>
    obtain ⟨st₁, hst, h⟩ := bind_eq_some_iff.1 h
    have hone := extends_addCover hst
    have hrest := ih h
    refine ⟨hone.size.trans hrest.size, fun i hi ci => ?_, fun v hv => ?_⟩
    · exact (hrest.value i (hi.trans_le hone.size) ci).trans (hone.value i hi ci)
    · refine (hrest.id v fun hin => hv ?_).trans (hone.id v fun heq => hv ⟨lut, .head _, heq.symm⟩)
      obtain ⟨lut', hmem, heq⟩ := hin
      exact ⟨lut', .tail _ hmem, heq⟩

end

/-- The LUTs around one node. -/
lemma selectLuts_split {outputs : List ℕ} (hv : v < source.size)
    (hp : isLut source outputs (mark s source cuts outputs) v = true) :
    ∃ rest, selectLuts s o source cuts outputs =
      ((List.range v).filter (isLut source outputs (mark s source cuts outputs))).map
      (lutAt s o source cuts) ++
        lutAt s o source cuts v :: rest ∧ ∀ lut ∈ rest, lut.root ≠ v := by
  obtain ⟨m, hm⟩ := Nat.exists_eq_add_of_le (succ_le_of_lt hv)
  refine ⟨((((List.range m).map (v + 1 + ·)).filter
    (isLut source outputs (mark s source cuts outputs))).map (lutAt s o source cuts)), ?_, ?_⟩
  · rw [selectLuts, hm, List.range_add, range_succ, filter_append, filter_append,
      filter_cons_of_pos hp, map_append, map_append, append_assoc]
    rfl
  · intro lut hlut
    obtain ⟨w, hw, rfl⟩ := mem_map.1 hlut
    obtain ⟨j, -, rfl⟩ := mem_map.1 (mem_filter.1 hw).1
    change v + 1 + j ≠ v
    omega

/-- Where every LUT is built right, each can be read off its form. -/
lemma readable_of_stitched (hsrc : source.Valid) (hso : source.Sourced)
    (h : lutCover s o source = .ok luts)
    (hst : Stitched source luts) : ∀ lut ∈ luts, lut.Readable o := by
  obtain ⟨outputs, cuts, -, hop, hen, rfl⟩ := lutCover_ok h
  obtain ⟨hcu, hlen⟩ := enumerate_ok hsrc (by omega) hen
  have hall : ∀ v < source.size, isLut source outputs (mark s source cuts outputs) v = true →
      (lutAt s o source cuts v).Readable o := by
    intro v
    -- The LUTs before the first one that cannot be read are built right.
    induction v using Nat.strong_induction_on with
    | _ v ih =>
      intro hv hp hone hget
      by_contra hse
      obtain ⟨st, hrun, hcopied⟩ := run_luts (s := s) (o := o) outputs hcu hlen hsrc hso hv.le
        fun w hw => ih w hw (hw.trans hv)
      have hlut := hcu.lutOk (o := o) hlen hv hp
      obtain ⟨c, hc, hl, hta, hfn⟩ := hlut.cut
      obtain ⟨fanins, hfa, hflen, ho, hrow⟩ := hcopied.fanins hv.le hlut.leaves
      obtain ⟨l, hsz⟩ := length_eq_one_iff.1 (hl ▸ hone)
      obtain ⟨i, rfl⟩ := length_eq_one_iff.1 (hflen.trans hone)
      rw [hsz] at hta
      have hinv : inverted (lutAt s o source cuts v).fn = false := by
        rw [hfn, hta, show [l].length = 1 from rfl, hc.inverted_eq hsz,
          decide_eq_false hse, Bool.and_false]
      obtain ⟨hco, hal⟩ := functionCost_fields (s := s) (o := o)
        (t := (lutAt s o source cuts v).table) (b := s.work c.table)
      rw [← hfn, hta] at hco hal
      have hadd : addCover st (lutAt s o source cuts v) = some (st.1, update st.2 v (some i)) := by
        rw [addCover]
        dsimp only
        rw [hco, hal, hfa, hinv]
        rfl
      -- The inverter is a wire, then and in the end.
      obtain ⟨rest, hsplit, hroots⟩ := selectLuts_split (s := s) (o := o) hv hp
      obtain ⟨last, hlast, hright⟩ := hst
      rw [hsplit] at hlast hright
      rw [foldlM_append, hrun] at hlast
      change (addCover st (lutAt s o source cuts v)).bind (fun st => rest.foldlM addCover st) =
        some last at hlast
      rw [hadd, Option.bind_some] at hlast
      have hext := extends_foldlM hlast
      obtain ⟨i', hi', hval⟩ := hright _ (mem_append_right _ (.head _))
      have hkept : last.2 v = some i :=
        (hext.id v fun hin => hin.elim fun lut h => hroots lut h.1 h.2).trans (update_self ..)
      obtain rfl := Option.some.inj (hkept.symm.trans hi')
      have hwire : st.1.valueAt (fun _ => false) i =
          source.valueAt (fun _ => false) (lutAt s o source cuts v).root :=
        (hext.value i (ho i (.head _)) _).symm.trans (hval _)
      have hleaf := congrArg (·.testBit 0) (hrow fun _ => false)
      simp only [testBit_rowIndex, hl, hsz] at hleaf
      rw [hta] at hget
      rw [hc.leaf_value hsz, show (toTruth c.table 1).get 0 = true from hget, Bool.xor_true,
        ← show st.1.valueAt (fun _ => false) i =
          source.valueAt (fun _ => false) l from hleaf] at hwire
      exact (Bool.eq_not_self _).1 hwire
  intro lut hlut
  obtain ⟨v, hv, rfl⟩ := mem_map.1 hlut
  obtain ⟨hr, hp⟩ := mem_filter.1 hv
  exact hall v (mem_range.1 hr) hp

lemma stitched_of_readable (hsrc : source.Valid) (hso : source.Sourced)
    (h : lutCover s o source = .ok luts)
    (hread : ∀ lut ∈ luts, lut.Readable o) : Stitched source luts := by
  obtain ⟨outputs, cuts, -, hop, hen, rfl⟩ := lutCover_ok h
  obtain ⟨hcu, hlen⟩ := enumerate_ok hsrc (by omega) hen
  obtain ⟨st, hrun, hst⟩ := run_luts (s := s) outputs hcu hlen hsrc hso le_rfl fun v hv hp =>
    hread _ (mem_map_of_mem (mem_filter.2 ⟨mem_range.2 hv, hp⟩))
  refine ⟨st, hrun, fun lut hlut => ?_⟩
  obtain ⟨v, hv, rfl⟩ := mem_map.1 hlut
  obtain ⟨hr, hp⟩ := mem_filter.1 hv
  obtain ⟨i, hi⟩ := isSome_iff_exists.1 (hst.has v (mem_range.1 hr) (.inr ⟨mem_range.1 hr, hp⟩))
  exact ⟨i, hi, (hst.value v i hi).2⟩

/-! ## The inverter -/

/-- The options that `lut_cover` takes for some network with a gate. -/
structure Supported (o : SearchOptions) : Prop where
  support : 2 ≤ o.recipe.support ∧ o.recipe.support ≤ 8
  cuts : 1 ≤ o.coverCuts ∧ o.coverCuts ≤ 64
  nodes : 3 ≤ o.maxNodes

/-- The input `a` and its complement. -/
def inverterNet : Lnet := ((({} : Lnet).addInput "a").addLut [1] Lnet.kNot).addOutput 2 "y"

/-- Every cut is kept and the first one chosen. -/
def firstCut : Search where
  sort := id
  sort_perm _ := Perm.refl _
  factorLiterals cubes := (cubes.map fun c => popcount c.care).sum
  work _ := { remaining := (2 ^ 64 - 1) / 4 }
  spend_work _ := by decide
  admission _ := true
  keep _ _ cand := cand
  mem_of_mem_keep h := h
  best _ _ := 0
  best_lt _ hne := length_pos_of_ne_nil hne

lemma valid_inverterNet : inverterNet.Valid ∧ inverterNet.Sourced := by
  constructor
  · refine ((Lnet.valid_empty.addInput "a").addLut Lnet.kNot (by decide) ?_).addOutput
      (by decide) "y"
    decide
  · exact ((Lnet.sourced_empty.addInput "a").addNode (by exact nofun)).addOutput 2 "y"

/-- The cut of the inverter. -/
def inverterCut : Cut :=
  reduce ⟨[1],
    compose (Lnet.Node.eval { kind := .lut, fanins := [1], table := [Lnet.replicate Lnet.kNot 1] })
    [expand ⟨[1], varTable 0⟩ [1]]⟩

lemma candidates_inverter (hsu : 1 ≤ o.recipe.support) (cuts : List (List Cut))
    (hcu : cuts.getD 1 [] = []) :
    candidates o inverterNet [2] cuts
    { kind := .lut, fanins := [1], table := [Lnet.replicate Lnet.kNot 1] } = [inverterCut] := by
  have hof : offered o inverterNet [2] cuts 1 = [⟨[1], varTable 0⟩] := by
    rw [offered, if_neg (fun h => absurd h.2.1 (by decide)), hcu]
    rfl
  have hme : merge o { kind := .lut, fanins := [1], table := [Lnet.replicate Lnet.kNot 1] }
      [⟨[1], varTable 0⟩] = some inverterCut := by
    have hun : unionLeaves [⟨[1], varTable 0⟩] = [1] := by simp [unionLeaves]
    simp only [merge, hun]
    rw [if_pos (show [1].length ≤ o.recipe.support from hsu)]
    rfl
  rw [candidates, map_cons, hof]
  change ([[(⟨[1], varTable 0⟩ : Cut)]].filterMap _).foldl addCandidate [] = _
  rw [filterMap_cons, hme]
  rfl

/-- The LUT of the inverter. -/
def inverterLut (o : SearchOptions) : CoverLut :=
  ⟨2, [1], ⟨1, [1#64]⟩, functionCost firstCut o ⟨1, [1#64]⟩ { remaining := (2 ^ 64 - 1) / 4 }⟩

lemma enumerate_inverter (ho : Supported o) :
    enumerate firstCut o inverterNet [2] = .ok [[⟨[], fun _ => 0⟩], [], [inverterCut]] := by
  have hca := candidates_inverter (o := o) (le_of_succ_le ho.support.1) [[⟨[], fun _ => 0⟩], []] rfl
  have hla : cutsAt firstCut o inverterNet [2] [[⟨[], fun _ => 0⟩], []]
      { kind := .lut, fanins := [1], table := [Lnet.replicate Lnet.kNot 1] } =
        .ok [[⟨[], fun _ => 0⟩], [], [inverterCut]] := by
    simp only [cutsAt]
    rw [hca]
    rfl
  have h0 : cutsAt firstCut o inverterNet [2] [] {} = .ok [[⟨[], fun _ => 0⟩]] := rfl
  have hin : cutsAt firstCut o inverterNet [2] [[⟨[], fun _ => 0⟩]] { kind := .source } =
    .ok [[⟨[], fun _ => 0⟩], []] := rfl
  change ((cutsAt firstCut o inverterNet [2] [] {}).bind fun cuts =>
    (cutsAt firstCut o inverterNet [2] cuts { kind := .source }).bind fun cuts =>
    (cutsAt firstCut o inverterNet [2] cuts
      { kind := .lut, fanins := [1], table := [Lnet.replicate Lnet.kNot 1] }).bind
        fun cuts => .ok cuts) = _
  simp only [h0, hin, hla, Except.bind]

lemma simulates_inverter (fn : FunctionCost) :
    simulates inverterNet [⟨2, [1], ⟨1, [1#64]⟩, fn⟩] = true := by
  have hfn : simulates inverterNet [⟨2, [1], ⟨1, [1#64]⟩, fn⟩] =
    simulates inverterNet [⟨2, [1], ⟨1, [1#64]⟩, {}⟩] := rfl
  rw [hfn]
  decide

lemma selectLuts_inverter : selectLuts firstCut o inverterNet [[⟨[], fun _ => 0⟩], [],
    [inverterCut]] [2] = [inverterLut o] := by
  rfl

lemma lutCover_inverter (ho : Supported o) :
    lutCover firstCut o inverterNet = .ok [inverterLut o] := by
  have hou : inverterNet.combinationalOutputs.mapM id = some [2] := by decide
  unfold lutCover
  rw [hou]
  dsimp only
  rw [if_neg, if_neg, enumerate_inverter ho]
  · dsimp only
    rw [selectLuts_inverter, inverterLut, simulates_inverter]
    rfl
  · intro hwi
    obtain ⟨n, hn, hlt⟩ := any_eq_true.1 hwi
    have hone : ∀ n ∈ inverterNet.nodes, n.fanins.length ≤ 1 := by decide
    have h2 := ho.support.1
    exact absurd (of_decide_eq_true hlt) (Nat.not_lt.2 ((hone n hn).trans (le_of_succ_le h2)))
  · have hsz : inverterNet.size = 3 := rfl
    have hsup := ho.support
    have hcut := ho.cuts
    have hns := ho.nodes
    omega

lemma fn_inverterLut (hse : o.recipe.series = 0) :
    (inverterLut o).fn = { isAlias := true, form := (inverterLut o).fn.form } ∧
    (inverterLut o).fn.form.cubes = [] := by
  have hfn : (inverterLut o).fn = _ :=
    functionCost_of_le_one (s := firstCut) (o := o) (t := ⟨1, [1#64]⟩) le_rfl
  rw [hfn]
  refine ⟨rfl, ?_⟩
  rw [hse]
  exact cubes_exactForm_of_series_zero (v := true) rfl (by decide) (by decide)

/-- Without a series literal the inverter becomes a wire. -/
lemma coverNetwork_inverter (hse : o.recipe.series = 0) :
    coverNetwork inverterNet [inverterLut o] = some
    ((({} : Lnet).addInput "a").addOutput 1 "y") := by
  obtain ⟨hfn, hcu⟩ := fn_inverterLut hse
  have hst : addCover (coverBoundary inverterNet) (inverterLut o) =
      some ((coverBoundary inverterNet).1, update (coverBoundary inverterNet).2 2 (some 1)) := by
    have hinv : inverted (inverterLut o).fn = false := by
      rw [inverted, hcu]
      rfl
    simp only [addCover]
    rw [hinv]
    rfl
  rw [coverNetwork, foldlM_cons, hst]
  rfl

/-- The tables of a cover are right.  What is built for its LUTs is right exactly when no inverter
is selected where a product may have no literal; then the network of the cover has the functions of
its source. -/
theorem cover_network_correct_iff {s : Search} {o : SearchOptions} {source : Lnet}
    (hsource : source.Valid) (hsourced : source.Sourced)
    {luts : List CoverLut} (hluts : lutCover s o source = .ok luts) :
    (∀ lut ∈ luts, ∀ ci, lut.table.get (rowIndex lut.leaves (source.valueAt ci)) =
      source.valueAt ci lut.root) ∧
      ((∀ lut ∈ luts, lut.Readable o) →
        ∃ net, coverNetwork source luts = some net ∧ Covers source net) ∧
      (Stitched source luts ↔ ∀ lut ∈ luts, lut.Readable o) :=
  ⟨fun _ hlut ci => table_of_lutCover hsource hluts hlut ci,
    covers_of_lutCover hsource hsourced hluts,
    readable_of_stitched hsource hsourced hluts, stitched_of_readable hsource hsourced hluts⟩

/-- The inverter, where a product may have four literals. -/
theorem cover_network_correct_inverter :
    (∀ lut ∈ [inverterLut {}], ∀ ci, lut.table.get (rowIndex lut.leaves (inverterNet.valueAt ci)) =
      inverterNet.valueAt ci lut.root) ∧
      ((∀ lut ∈ [inverterLut {}], lut.Readable {}) →
        ∃ net, coverNetwork inverterNet [inverterLut {}] = some net ∧ Covers inverterNet net) ∧
      (Stitched inverterNet [inverterLut {}] ↔ ∀ lut ∈ [inverterLut {}], lut.Readable {}) :=
  cover_network_correct_iff valid_inverterNet.1 valid_inverterNet.2
    (lutCover_inverter ⟨by decide, by decide, by decide⟩)

/-- The inverter becomes a wire. -/
theorem cover_network_drops_inverter :
    ∃ luts, lutCover firstCut { recipe := { series := 0 } } inverterNet = .ok luts ∧
    ∃ net, coverNetwork inverterNet luts = some net ∧ net.coValues (fun _ => true) = [some true] ∧
      inverterNet.coValues (fun _ => true) = [some false] := by
  refine ⟨_, lutCover_inverter ⟨by decide, by decide, by decide⟩, _,
    coverNetwork_inverter rfl, ?_, ?_⟩
  · decide
  · decide

end

end LiveHD.Usyn.LutCover
