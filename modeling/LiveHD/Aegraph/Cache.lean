import LiveHD.Aegraph.Egraph
import LiveHD.Aegraph.Facts

/-!
# What the analyses remember

The `Analysis_cache` of `runtime/analyses.hpp`: seeds of the leaves, facts with the depth
they were computed at, and lane layouts.  A cache is `Sound` for a valuation when every
entry is right about the value of its class.
-/

namespace LiveHD.Aegraph

/-- The end of the last lane of a layout. -/
def kLaneInf : ℤ := 2 ^ 40

/-- Bits `[lo, hi)` of a class are bits `[off, off + hi - lo)` of `src`, or zero. -/
structure Lane where
  lo : ℤ
  hi : ℤ
  src : Option ClassId
  off : ℤ
deriving DecidableEq

/-- Lanes in ascending order. -/
abbrev Layout := List Lane

structure AnalysisCache where
  /-- Declared bounds of leaf classes. -/
  seeds : ClassId → Option Facts := fun _ => none
  /-- Unsigned leaves wider than the bounds of `Facts`. -/
  wideSeeds : ClassId → Option ℕ := fun _ => none
  /-- Facts and the recursion depth they were computed with. -/
  facts : ClassId → Option (Facts × ℕ) := fun _ => none
  /-- Structural widths, `none` when unknown, and the depth they were computed with. -/
  storageWidths : ClassId → Option (Option ℕ × ℕ) := fun _ => none
  layouts : ClassId → Option Layout := fun _ => none

/-- A question to the analyses, which may fill the cache. -/
abbrev Query := StateM AnalysisCache

/-- The lanes are non-empty, ascending and contiguous from `a` to `b`. -/
def Layout.Spans : ℤ → ℤ → Layout → Prop
  | a, b, [] => a = b
  | a, b, l :: L => l.lo = a ∧ a < l.hi ∧ Layout.Spans l.hi b L

section

variable {eg : Egraph} (ρ : Valuation eg)

/-- Bit `q` of a value `v` is what the lane says. -/
def Lane.Holds (l : Lane) (v : ℤ) (q : ℕ) : Prop :=
  match l.src with
  | none => v.testBit q = false
  | some s => ∃ w, ρ.val s = some w ∧ v.testBit q = w.testBit (l.off + (q - l.lo)).toNat

/-- The lanes cover every bit from 0 on (the last one without an end) and describe the value of
`c`. -/
structure Layout.Describes (L : Layout) (c : ClassId) : Prop where
  spans : L.Spans 0 kLaneInf
  off : ∀ l ∈ L, 0 ≤ l.off
  bits : ∀ v, ρ.val c = some v → ∀ l ∈ L, ∀ q : ℕ, l.lo ≤ q →
    (q < l.hi ∨ l.hi = kLaneInf) → l.Holds ρ v q

structure AnalysisCache.Sound (cache : AnalysisCache) : Prop where
  seeds : ∀ c f v, cache.seeds c = some f → ρ.val c = some v → f.Sound v
  wideSeeds : ∀ c bits v, cache.wideSeeds c = some bits → ρ.val c = some v → 0 ≤ v ∧ v < 2 ^ bits
  facts : ∀ c entry v, cache.facts c = some entry → ρ.val c = some v → entry.1.Sound v
  layouts : ∀ c L, cache.layouts c = some L → L.Describes ρ c

/-- The cache of a fresh e-graph. -/
lemma AnalysisCache.sound_empty : ({} : AnalysisCache).Sound ρ where
  seeds _ _ _ h := by cases h
  wideSeeds _ _ _ h := by cases h
  facts _ _ _ h := by cases h
  layouts _ _ h := by cases h

end

end LiveHD.Aegraph
