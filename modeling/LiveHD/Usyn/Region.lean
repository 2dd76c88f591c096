import LiveHD.Usyn.LutCoverSound
import LiveHD.Synth.StrashSound

/-!
# The rewrite of a region

`rewrite_region` of `pass/usyn/usyn_region.cpp`: the gates of the blaster are hashed, covered by
tables and built again.  When one of the steps gives up, no network is handed on.
-/

namespace LiveHD.Usyn

open Synth Strash LutCover

/-- An XOR is one gate when a gate admits its form. -/
def sourceXorNodes (o : SearchOptions) : Bool :=
  decide (2 ≤ o.recipe.support ∧ 4 ≤ o.recipe.literals ∧ 2 ≤ o.recipe.series)

inductive RegionRewrite where
  /-- No cover, with the reason when there was to be one.  The region keeps its own logic with
  `fallback` or when only the backend is asked; else it is refused, or the run ends with
  "cover-unavailable".  These are not told apart here. -/
  | original (reason : String)
  /-- "invalid-decomposition" -/
  | invalidDecomposition (reason : String)
  /-- "invalid-stitch" -/
  | invalidStitch
  | logic (net : Lnet)

section

variable (s : Search) (o : SearchOptions) (refusal : String)

/-- The hashed network, when it fits; `admission` answers the first call and those of `strash`. -/
def regionSource (admission : ℕ → Bool) (net : Lnet) : Except String Lnet :=
  if admission 0 = false then .error refusal
  else if o.maxNodes < net.size then .error "source node limit"
  else match strash net
      { xorNodes := sourceXorNodes o, admission := some fun k => admission (k + 1) } with
    | none => .error (if refusal = "" then "source import incomplete" else refusal)
    | some source => if o.maxNodes < source.size then .error "source node limit" else .ok source

/-- `rewrite_region`, up to what is reported. -/
def rewriteRegion (backendOnly : Bool) (admission : ℕ → Bool) (net : Lnet) : RegionRewrite :=
  if backendOnly then .original ""
  else match regionSource o refusal admission net with
    | .error reason => .original reason
    | .ok source => match lutCover s o source with
      | .error (.invalid, reason) => .invalidDecomposition reason
      | .error (_, reason) => .original (if reason = "" then refusal else reason)
      | .ok luts => match coverNetwork source luts with
        | none => .invalidStitch
        | some net => .logic net

variable {s o refusal}

lemma regionSource_ok {admission : ℕ → Bool} {net source : Lnet}
    (h : regionSource o refusal admission net = .ok source) :
    ∃ options, strash net options = some source := by
  unfold regionSource at h
  split at h
  · cases h
  split at h
  · cases h
  split at h
  · cases h
  next hst =>
    split at h
    · cases h
    · cases h
      exact ⟨_, hst⟩

end

/-- A cover can always be built, and the logic of a region that is rewritten has the ports, the
latches and the functions it had. -/
theorem rewriteRegion_covers {net : Lnet} (hnet : net.Valid) (hfit : LiteralsFit net)
    {o : SearchOptions} (hseries : 1 ≤ o.recipe.series)
    (s : Search) (refusal : String) (backendOnly : Bool) (admission : ℕ → Bool) :
    rewriteRegion s o refusal backendOnly admission net ≠ .invalidStitch ∧
      ∀ logic, rewriteRegion s o refusal backendOnly admission net = .logic logic →
      Covers net logic := by
  rw [rewriteRegion]
  split_ifs
  · exact ⟨nofun, nofun⟩
  cases hsource : regionSource o refusal admission net with
  | error reason => exact ⟨nofun, nofun⟩
  | ok source =>
    obtain ⟨options, hstrash⟩ := regionSource_ok hsource
    have hst := strashed_of_strash hnet hfit hstrash
    obtain ⟨w, outs, live, base, ids, rs, d, hr, rfl, -⟩ := rebuilt_of_strash hnet hfit hstrash
    cases hluts : lutCover s o d.net with
    | error e =>
      obtain ⟨status, reason⟩ := e
      cases status <;> simp [hluts]
    | ok luts =>
      obtain ⟨logic, hlogic, hc⟩ := covers_of_lutCover hst.valid hr.sourced hluts fun _ _ _ _ =>
        hseries
      simp only [hluts, hlogic]
      refine ⟨nofun, fun logic' heq => ?_⟩
      cases heq
      exact ⟨hc.valid, hc.sourced, hc.inputs.trans hst.inputs, hc.latches.trans hst.latches,
        hc.outputs.trans hst.outputs,
        fun ci => (hc.values ci).trans (hst.values ci)⟩

/-- An XOR whose cuts are the first ones: no cover fails to be built, and one that is handed on
computes it. -/
theorem rewriteRegion_covers_xor : LiteralsFit xorNet ∧
    rewriteRegion firstCut {} "" false (fun _ => true) xorNet ≠ .invalidStitch ∧
      ∀ logic, rewriteRegion firstCut {} "" false (fun _ => true) xorNet = .logic logic →
      Covers xorNet logic := by
  have hfit : LiteralsFit xorNet := by
    rw [LiteralsFit]
    decide
  exact ⟨hfit, rewriteRegion_covers xorNet_valid hfit (o := {}) (by decide)
    firstCut "" false fun _ => true⟩

end LiveHD.Usyn
