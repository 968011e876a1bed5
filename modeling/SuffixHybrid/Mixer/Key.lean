import SuffixHybrid.Mixer.Legacy

/-!
# The lookup key of a row

A legacy row does not build its context for the lookup. It stitches a key from the tail of the
tracked context, the tail of the new tokens and the kept native tokens (`lookupKey`). A lookup reads
the last `depth` tokens of its context only, and the key leaves out older tokens only once it has
that many (`lookupKey_suffix`), so it finds what the whole context would (`lookupKey_whole`).
-/

namespace SuffixHybrid
open Lib

namespace HybridMixer

/-- The whole context of a row after this step. -/
def wholeContext (continuity : Continuity) (slot : Option Previous) (delta : List Token) :
    List Token :=
  match continuity, slot with
  | .continuing, some p => p.context ++ delta
  | _, _ => delta

/-- The key without the tracked tail: the end of the new tokens and the kept native tokens. -/
lemma drop_delta_suffix (depth : ℕ) (delta kept : List Token) :
    ∃ old, delta ++ kept = old ++ (delta.drop (delta.length - depth) ++ kept) ∧
      (old = [] ∨ depth ≤ (delta.drop (delta.length - depth) ++ kept).length) := by
  refine ⟨delta.take (delta.length - depth), ?_, ?_⟩
  · rw [← List.append_assoc, List.take_append_drop]
  · rcases le_total delta.length depth with hle | hle
    · exact Or.inl (by rw [Nat.sub_eq_zero_of_le hle, List.take_zero])
    · refine Or.inr ?_
      rw [List.length_append, List.length_drop]
      omega

/-- The key is the end of the whole context and the kept native tokens. What it leaves out lies
before the last `depth` tokens. -/
lemma lookupKey_suffix (depth : ℕ) (continuity : Continuity) (slot : Option Previous)
    (delta : List Token) {native : List Token} {kept : ℕ} (hkept : kept ≤ native.length) :
    ∃ key old, lookupKey depth continuity slot delta native kept = some key ∧
      wholeContext continuity slot delta ++ (native.take (kept - 1)) = old ++ key ∧
      (old = [] ∨ depth ≤ key.length) := by
  have hnative : sliceTo native (kept - 1) = some (native.take (kept - 1)) :=
    sliceTo_of_le (by omega)
  obtain ⟨old, hold, hlong⟩ := drop_delta_suffix depth delta (native.take (kept - 1))
  by_cases hcont : ∃ p, continuity = .continuing ∧ slot = some p
  · obtain ⟨p, rfl, rfl⟩ := hcont
    simp only [lookupKey, wholeContext, hnative, sliceFrom_sub, Option.bind_eq_bind,
      Option.bind_some, List.append_assoc]
    rcases le_total depth delta.length with hle | hle
    · -- the new tokens fill the window, and no tracked token is taken
      have htail : p.context.drop (p.context.length - min (depth - delta.length) p.context.length)
          = [] := List.drop_eq_nil_of_le (by omega)
      refine ⟨_, p.context ++ old, rfl, ?_, Or.inr ?_⟩
      · rw [htail, List.nil_append, hold, List.append_assoc]
      · simp only [List.length_append, List.length_drop]
        omega
    · have hdelta : delta.drop (delta.length - depth) = delta := by
        rw [Nat.sub_eq_zero_of_le hle, List.drop_zero]
      refine ⟨_, p.context.take
        (p.context.length - min (depth - delta.length) p.context.length), rfl, ?_, ?_⟩
      · rw [hdelta, ← List.append_assoc (p.context.take _), List.take_append_drop]
      · rcases le_total p.context.length (depth - delta.length) with hshort | hshort
        · refine Or.inl ?_
          rw [Nat.min_eq_right hshort, Nat.sub_self, List.take_zero]
        · refine Or.inr ?_
          simp only [List.length_append, List.length_drop]
          omega
  · refine ⟨_, old, ?_, ?_, hlong⟩
    · cases continuity with
      | continuing =>
        cases slot with
        | none => simp [lookupKey, hnative]
        | some p => exact absurd ⟨p, rfl, rfl⟩ hcont
      | fresh | reset => simp [lookupKey, hnative]
    · cases continuity with
      | continuing =>
        cases slot with
        | none => exact hold
        | some p => exact absurd ⟨p, rfl, rfl⟩ hcont
      | fresh | reset => exact hold

/-- The lookup of a row finds what a lookup of its whole context and the kept native tokens finds:
the same continuation, score and match length, for every cache and every state of the slot. -/
theorem lookupKey_whole [F64] (c : Cache) (continuity : Continuity) (slot : Option Previous)
    (delta : List Token) {native : List Token} {kept : ℕ} (hkept : kept ≤ native.length) :
    ∃ key, lookupKey c.cfg.depth continuity slot delta native kept = some key ∧
      ∀ maxTokens, c.speculate key maxTokens =
        c.speculate (wholeContext continuity slot delta ++ (native.take (kept - 1))) maxTokens := by
  obtain ⟨key, old, hkey, hwhole, hlong⟩ :=
    lookupKey_suffix c.cfg.depth continuity slot delta hkept
  refine ⟨key, hkey, fun maxTokens => ?_⟩
  rw [hwhole]
  rcases hlong with rfl | hlong
  · rw [List.nil_append]
  · exact (c.speculate_append old key maxTokens hlong).symm

/-- A continuing row whose tracked context is longer than the window. -/
theorem lookupKey_whole_window :
    ∃ key, lookupKey (Cache.new (Config.ofN 2 (by decide))).cfg.depth .continuing
        (some (Previous.mk (List.replicate 70 7) 2 2 2 2 none false none)) [8, 9] [4, 5] 2 = some key ∧
      ∀ maxTokens, (Cache.new (Config.ofN 2 (by decide))).speculate key maxTokens =
        (Cache.new (Config.ofN 2 (by decide))).speculate
          (wholeContext .continuing (some (Previous.mk (List.replicate 70 7) 2 2 2 2 none false none))
            [8, 9] ++ [4, 5].take (2 - 1)) maxTokens :=
  lookupKey_whole (Cache.new (Config.ofN 2 (by decide))) .continuing
    (some (Previous.mk (List.replicate 70 7) 2 2 2 2 none false none)) [8, 9]
    (show 2 ≤ [4, 5].length by decide)

end HybridMixer
end SuffixHybrid
