import SuffixHybrid.Mixer.Contract
import SuffixHybrid.Wrapper.Propose

/-!
# The bodies of the wrapper

The two bodies share the mixer, the recorded widths, the mix counter and the fallback flag (`shared`);
the mirror, the gates and the staging belong to the fast body alone. `FastExit` and `SyncExit` list
the ways in which the owner's bodies end, and `fastBody_exit` and `syncBody_exit` show that there is no
other.
-/

namespace SuffixHybrid
open Lib

namespace Wrapper

/-! ## What the bodies share -/

/-- The state that both bodies read. -/
def shared (s : Wrapper) : HybridMixer × Map ReqId ℕ × ℕ × Bool :=
  (s.mixer, s.previousWidths, s.mixes, s.fallback)

lemma shared_eq {s s' : Wrapper} (h : s'.shared = s.shared) :
    s'.mixer = s.mixer ∧ s'.previousWidths = s.previousWidths ∧ s'.mixes = s.mixes ∧
      s'.fallback = s.fallback := by
  simpa [shared] using h

lemma shared_absorbPending (s : Wrapper) (b : Staging) : (s.absorbPending b).shared = s.shared := by
  unfold absorbPending
  split <;> rfl

lemma shared_enqueue (s : Wrapper) (t : Step) : (s.enqueue t).shared = s.shared :=
  foldl_view shared (f := forget) (fun _ _ => rfl) _ s

lemma shared_prepare (cfg : WrapSettings) (s : Wrapper) (t : Step) :
    (s.prepare cfg t).shared = s.shared := by
  have h : ((s.absorbPending t.onEntry).enqueue t).shared = s.shared :=
    (shared_enqueue _ t).trans (shared_absorbPending s t.onEntry)
  unfold prepare
  dsimp only
  split
  case isTrue => exact h
  case isFalse => exact (shared_absorbPending _ _).trans h

lemma shared_drain (cfg : WrapSettings) (s : Wrapper) (t : Step) :
    (s.drain cfg t).shared = s.shared := by
  unfold drain
  split
  case isTrue => exact shared_absorbPending _ _
  case isFalse => rfl

/-- The state without what the gates count. -/
def ungated (s : Wrapper) : Wrapper := { s with gate := ∅, pendingWins := ∅ }

/-- The verifier-win pass changes the gates only. -/
lemma ungated_resolveWins (cfg : WrapSettings) (s : Wrapper) (t : Step) :
    (s.resolveWins cfg t).ungated = s.ungated := by
  unfold resolveWins
  split
  case isTrue =>
    apply foldl_view ungated (f := fun s (e : ReqId × ℤ) => s.resolveWin e.1 e.2)
    intro s e
    unfold resolveWin
    split <;> rfl
  case isFalse => rfl

/-- So does the bookkeeping of `_publish`. -/
lemma ungated_gateRows (cfg : WrapSettings) (s : Wrapper) (t : Step) (mixed : Draft) :
    (s.gateRows cfg t mixed).ungated = s.ungated := by
  apply foldl_view ungated (f := fun s (e : ReqId × Bool) => s.gateRow cfg e.1 e.2)
  intro s e
  unfold gateRow
  split <;> [split; skip] <;> rfl

lemma shared_resolveWins (cfg : WrapSettings) (s : Wrapper) (t : Step) :
    (s.resolveWins cfg t).shared = s.shared := by
  have h := congrArg shared (ungated_resolveWins cfg s t)
  exact h

lemma shared_gateRows (cfg : WrapSettings) (s : Wrapper) (t : Step) (mixed : Draft) :
    (s.gateRows cfg t mixed).shared = s.shared := by
  have h := congrArg shared (ungated_gateRows cfg s t mixed)
  exact h

/-! ## Publishing -/

/-- Rows that fit the draft width pass the width check. -/
lemma checkWidths_ok {k : ℕ} {mixed : Draft} (h : ∀ row ∈ mixed, row.length ≤ k) :
    checkWidths k mixed = .ok () := by
  have hnone : mixed.zipIdx.find? (fun e => k < e.1.length) = none := by
    rw [List.find?_eq_none]
    intro e he
    have hle := h e.1 (List.fst_mem_of_mem_zipIdx he)
    simpa using hle
  simp only [checkWidths, hnone]

/-- The events of `_native_out` are broadcasts. -/
lemma mem_nativeOut {cfg : WrapSettings} {native : Draft} {e : Event}
    (h : e ∈ cfg.nativeOut native) : ∃ draft, e = .broadcast draft := by
  unfold WrapSettings.nativeOut at h
  split at h
  · simp at h
  · exact ⟨native, List.mem_singleton.mp h⟩

/-- The drafts of an accepted mix fit the draft width. -/
lemma drafts_fit [F64] {m m' : HybridMixer} (hinv : m.Inv) {t : Step} {counts : CountArray}
    {tokens : TokenArray} {drafts : Draft} {accepted : Option (List ℤ)}
    (h : m.mixNumpy t.order t.ids counts tokens t.native accepted = some (.ok drafts, m')) :
    ∀ row ∈ drafts, row.length ≤ t.k := by
  intro row hrow
  obtain ⟨_, _, _, _, hle⟩ := HybridMixer.mixNumpy_ok hinv h
  obtain ⟨native, hnative, hlen⟩ := hle row hrow
  obtain ⟨r, hr, rfl⟩ := List.mem_map.mp hnative
  exact hlen.trans (t.native_length r hr).le

end Wrapper
end SuffixHybrid
