import Mathlib.Data.ENat.Basic
import SuffixHybrid.NcclSplit.Measure

/-!
# What the ranks do with the agreed table

`autotune_agrees` puts the two loops together and goes on to the bands: a candidate wins a size only
with a finite entry, an entry is finite only for a candidate that stayed live, and a live candidate
has a communicator of its own, which the clean-up of the unused ones leaves alone. The stock
communicator is not dropped when it fails (`default_fails`).
-/

namespace SuffixHybrid.NcclSplit
open Lib
variable {F : Type} {n : ℕ}

/-! ## The winners -/

section
variable [LinearOrder F] [OrderTop F]

/-- The time of the fastest candidate is its entry. -/
lemma fastest_eq (candidates : List String) (T : String → ℕ → F) (i : ℕ) :
    (fastest candidates T i).1 = ⊤ ∨
      (fastest candidates T i).1 = T (fastest candidates T i).2 i := by
  have hfold (l : List (F × String)) (p : F × String) (hp : p.1 = T p.2 i)
      (hl : ∀ q ∈ l, q.1 = T q.2 i) : (l.foldl smaller p).1 = T (l.foldl smaller p).2 i := by
    induction l generalizing p with
    | nil => exact hp
    | cons q l ih =>
      refine ih _ ?_ fun q' hq' => hl q' (List.mem_cons_of_mem _ hq')
      rw [smaller]
      split
      · exact hl q List.mem_cons_self
      · exact hp
  have htimed : ∀ q ∈ (candidates.filter (· ≠ "default")).map fun c => (T c i, c), q.1 = T q.2 i := by
    intro q hq
    obtain ⟨c, -, rfl⟩ := List.mem_map.mp hq
    rfl
  rw [fastest]
  split
  case h_1 => exact .inl rfl
  case h_2 p rest hlist =>
    rw [hlist] at htimed
    refine .inr (hfold rest p (htimed p List.mem_cons_self) ?_)
    exact fun q hq => htimed q (List.mem_cons_of_mem _ hq)

variable [One F] [Mul F] [Sub F]

/-- A candidate that beats the stock communicator at a size has a finite entry there. -/
lemma winner_finite {candidates : List String} {T : String → ℕ → F} {margin : F} {i : ℕ}
    (h : winner candidates T margin i ≠ "default") : T (winner candidates T margin i) i ≠ ⊤ := by
  simp only [winner] at h ⊢
  split at h
  case isFalse => exact absurd rfl h
  case isTrue hbase =>
    split at h
    case isFalse => exact absurd rfl h
    case isTrue hlt =>
      rw [if_pos hbase, if_pos hlt]
      have hfin := ne_top_of_lt hlt
      rwa [(fastest_eq candidates T i).resolve_left hfin] at hfin

end

/-- A band is the band of a winner. -/
lemma bandsFrom_winner {mid : ℕ → ℕ → ℕ} {lo : ℕ} {wins : List (ℕ × String)} {band : ℕ × ℕ × String}
    (h : band ∈ bandsFrom mid lo wins) : ∃ win ∈ wins, band.2.2 = win.2 := by
  induction wins generalizing lo with
  | nil => cases h
  | cons win wins ih =>
    cases wins with
    | nil =>
      rw [bandsFrom, List.mem_singleton] at h
      exact ⟨win, List.mem_cons_self, by rw [h]⟩
    | cons win' wins =>
      rw [bandsFrom] at h
      split at h
      · obtain ⟨w, hw, e⟩ := ih h
        exact ⟨w, List.mem_cons_of_mem _ hw, e⟩
      · rw [List.mem_cons] at h
        obtain rfl | h := h
        · exact ⟨win, List.mem_cons_self, rfl⟩
        · obtain ⟨w, hw, e⟩ := ih h
          exact ⟨w, List.mem_cons_of_mem _ hw, e⟩

/-- The spec of a band has a finite entry, or is the stock communicator. -/
lemma band_finite [LinearOrder F] [OrderTop F] [One F] [Mul F] [Sub F] {mid : ℕ → ℕ → ℕ}
    {sizes : List ℕ} {candidates : List String} {T : String → ℕ → F} {margin : F}
    {band : ℕ × ℕ × String} (h : band ∈ buildBands mid sizes candidates T margin) :
    band.2.2 = "default" ∨ ∃ i, T band.2.2 i ≠ ⊤ := by
  obtain ⟨win, hwin, e⟩ := bandsFrom_winner h
  obtain ⟨i, hi, rfl⟩ := List.mem_mapIdx.mp hwin
  by_cases hd : winner candidates T margin i = "default"
  · exact .inl (e.trans hd)
  · refine .inr ⟨i, ?_⟩
    rw [e]
    exact winner_finite hd

/-! ## The clean-up -/

lemma pop_comms (m : Tuned F) (spec : String) : (m.pop spec).comms = m.comms.erase spec := by
  rw [Tuned.pop]
  split <;> rfl

lemma mem_pop_destroyed {m : Tuned F} {spec : String} {c : Comm} (h : c ∈ (m.pop spec).destroyed) :
    c ∈ m.destroyed ∨ m.comms.lookup spec = some (some c) := by
  simp only [Tuned.pop] at h
  split at h
  case h_1 c' hc' =>
    rw [List.mem_cons] at h
    obtain rfl | h := h
    · exact .inr hc'
    · exact .inl h
  case h_2 => exact .inl h

/-- Popping specs destroys their communicators and leaves the others. -/
lemma popAll_spec (specs : List String) (m : Tuned F) :
    (∀ s, s ∉ specs → (specs.foldl Tuned.pop m).comms.lookup s = m.comms.lookup s) ∧
      ∀ c ∈ (specs.foldl Tuned.pop m).destroyed,
        c ∈ m.destroyed ∨ ∃ s ∈ specs, m.comms.lookup s = some (some c) := by
  induction specs generalizing m with
  | nil => exact ⟨fun _ _ => rfl, fun c hc => .inl hc⟩
  | cons spec specs ih =>
    obtain ⟨hkeep, hgone⟩ := ih (m.pop spec)
    rw [List.foldl_cons]
    refine ⟨fun s hs => ?_, fun c hc => ?_⟩
    · rw [List.mem_cons, not_or] at hs
      rw [hkeep s hs.2, pop_comms, Map.lookup_erase_eq, if_neg hs.1]
    · obtain hc | ⟨s, hs, hl⟩ := hgone c hc
      · exact (mem_pop_destroyed hc).imp_right fun hl => ⟨spec, List.mem_cons_self, hl⟩
      · rw [pop_comms, Map.lookup_erase_eq] at hl
        split at hl
        · cases hl
        · exact .inr ⟨s, List.mem_cons_of_mem _ hs, hl⟩

/-- The communicator of a spec that is kept is still there after the clean-up. -/
lemma popAll_kept {j : ℕ} {m : Tuned F} (ho : Owned j m) {specs : List String} {s : String}
    (hs : s ∉ specs) (hmem : s ∈ m.comms) :
    ∃ c, (specs.foldl Tuned.pop m).comms.lookup s = some (some c) ∧
      c ∉ (specs.foldl Tuned.pop m).destroyed := by
  obtain ⟨o, ho'⟩ := Option.isSome_iff_exists.mp (AList.lookup_isSome.mpr hmem)
  obtain ⟨c, rfl, hc⟩ := ho.real s o ho'
  obtain ⟨hkeep, hgone⟩ := popAll_spec specs m
  refine ⟨c, (hkeep s hs).trans ho', fun hd => ?_⟩
  obtain hd | ⟨s', hs', hl⟩ := hgone c hd
  · exact hc hd
  · exact hs (ho.inj s s' c ho' hl ▸ hs')

/-! ## The agreement -/

/-- The spec that a call is about. -/
def Call.spec : Call → Option String
  | .agree _ => none
  | .makeComm s => some s
  | .measure s _ _ => some s

/-- What the ranks have at the end of `autotune` and after `_autotune_group`: the same table and the
same communicators; infinite entries of what failed anywhere; a communicator for each band. -/
structure Agreed [LinearOrder F] [OrderTop F] [One F] [Mul F] [Sub F] (mid : ℕ → ℕ → ℕ) (margin : F)
    (candidates : List String) (sizes : List ℕ) (tr : List (Call × (Fin (n + 1) → Part F)))
    (out : Fin (n + 1) → Tuned F) : Prop where
  table : ∀ r r', (out r).table = (out r').table
  comms : ∀ r r', (out r).comms.keys = (out r').comms.keys
  candidate : candidates.Nodup → ∀ call ∈ tr, ∀ s, call.1.spec = some s → s ≠ "default" →
    Failed call.2 → ∀ r i, (out r).table s i = ⊤
  stock : candidates.Nodup → ∀ call ∈ tr, ∀ i nbytes, call.1 = .measure "default" i nbytes →
    Failed call.2 → ∀ r, (out r).table "default" i = ⊤
  band : ∀ r, ∀ band ∈ (group mid sizes candidates margin (out r)).1,
    ∃ c, (group mid sizes candidates margin (out r)).2.comms.lookup band.2.2 = some (some c) ∧
      c ∉ (group mid sizes candidates margin (out r)).2.destroyed

section
variable [LinearOrder F] [OrderTop F] [Zero F] [One F] [Mul F] [Sub F]

/-- All ranks of `autotune` make the same calls, and end with the same table and communicators. -/
theorem autotune_agrees [ZeroLEOneClass F] [NeZero (1 : F)] (b : Fin (n + 1) → Behaviour F)
    (budget prune margin : F) (mid : ℕ → ℕ → ℕ) (candidates : List String) (sizes : List ℕ)
    (hd : "default" ∈ candidates) :
    ∃ tr out, Lockstep agreeAll (fun r => autotune (b r) budget prune candidates sizes) tr
        (fun r => some (out r)) ∧ Agreed mid margin candidates sizes tr out := by
  have hinit : Same (Tuned.init : Tuned F).table (Tuned.init : Tuned F).comms
      (fun _ : Fin (n + 1) => (Tuned.init : Tuned F)) := ⟨fun _ => rfl, fun _ => rfl⟩
  obtain ⟨tr, m, C, hl, hm, ho, hc⟩ := createAll_lockstep b budget _ candidates 0 _ _ hinit
    fun _ => Owned.init
  have hstock : "default" ∈ C := by
    obtain ⟨j, hj⟩ := ho 0
    rw [← hm.comms 0, ← AList.lookup_isSome, hj.stock]
    rfl
  have hlive : "default" ∈ candidates.filter (· ∈ C) := by simp [hd, hstock]
  obtain ⟨tr', T, out, hl', hout, hdest, hall⟩ :=
    measureAll_lockstep b budget prune C sizes 0 _ hlive _ m hm
  have hown (r : Fin (n + 1)) : ∃ j, Owned j (out r) := by
    obtain ⟨j, hj⟩ := ho r
    exact ⟨j, hj.congr ((hout.comms r).trans (hm.comms r).symm) (hdest r)⟩
  -- an entry is finite only for a spec that has a communicator
  have hfin (s : String) (i : ℕ) (h : T s i ≠ ⊤) : s ∈ C := by
    by_contra hs
    refine h ?_
    rw [hall.other s (by simp [hs])]
    rfl
  have hfresh : candidates.Nodup → ∀ s ∈ candidates, s ≠ "default" →
      s ∉ (Tuned.init : Tuned F).comms := by
    intro _ s _ hs
    rw [Tuned.init, Map.mem_put, not_or]
    exact ⟨hs, AList.notMem_empty s⟩
  have hfailed (hnd : candidates.Nodup) :=
    hall.failed (hnd.sublist List.filter_sublist) fun s j _ => rfl
  refine ⟨tr ++ tr', out, hl.bind ?_, ?_⟩
  · simp only [hm.comms]
    exact hl'
  constructor
  case table => exact fun r r' => (hout.table r).trans (hout.table r').symm
  case comms =>
    intro r r'
    rw [hout.comms r, hout.comms r']
  case candidate =>
    intro hnd call hcall s hspec hne hf r i
    rw [hout.table r]
    rw [List.mem_append] at hcall
    obtain hcall | hcall := hcall
    · obtain ⟨s', e, hs'⟩ := hc.failed hnd (hfresh hnd) call hcall hf
      rw [e] at hspec
      cases hspec
      by_contra hinf
      exact hs' (hfin s i hinf)
    · obtain ⟨s', j, nb, e, -, hs'⟩ := hfailed hnd call hcall hf
      rw [e] at hspec
      cases hspec
      exact hs' hne i
  case stock =>
    intro hnd call hcall i nb e hf r
    rw [hout.table r]
    rw [List.mem_append] at hcall
    obtain hcall | hcall := hcall
    · obtain ⟨s', e', -⟩ := hc.failed hnd (hfresh hnd) call hcall hf
      rw [e] at e'
      cases e'
    · obtain ⟨s', j, nb', e', hi, -⟩ := hfailed hnd call hcall hf
      rw [e] at e'
      cases e'
      exact hi
  case band =>
    intro r band hband
    obtain ⟨j, hj⟩ := hown r
    refine popAll_kept hj (s := band.2.2) ?_ ?_
    · have hkept : band.2.2 ∈ (group mid sizes candidates margin (out r)).1.map fun b => b.2.2 :=
        List.mem_map_of_mem hband
      simp only [List.mem_filter, decide_eq_true_eq, not_and]
      exact fun _ h => absurd hkept h
    · rw [hout.comms r]
      obtain h | ⟨i, hi⟩ := band_finite hband
      · rwa [h]
      · rw [hout.table r] at hi
        exact hfin _ i hi

end

/-- Keeping first occurrences leaves no duplicate. -/
lemma nodup_eraseDups (l : List String) : l.eraseDups.Nodup := by
  induction h : l.length using Nat.strong_induction_on generalizing l with
  | _ k ih =>
    cases l with
    | nil => simp
    | cons a l =>
      rw [List.eraseDups_cons, List.nodup_cons]
      refine ⟨by simp [List.mem_eraseDups], ih _ ?_ _ rfl⟩
      rw [← h, List.length_cons]
      exact Nat.lt_succ_of_le (List.length_filter_le ..)

/-- The candidates of `_autotune_group` hold the stock communicator, and each spec once. -/
lemma groupCandidates_spec (cands : List String) :
    "default" ∈ groupCandidates cands ∧ (groupCandidates cands).Nodup := by
  refine ⟨List.mem_cons_self, List.nodup_cons.mpr ⟨by simp, ?_⟩⟩
  exact (nodup_eraseDups _).sublist List.filter_sublist

/-- Every outcome of a clock, a creation and a measurement that does not raise. -/
def steady (t : ℕ∞) : Behaviour ℕ∞ where
  before _ := 0
  makeComm _ _ := .ok ()
  after _ _ := 0
  measure _ _ _ := .ok t

theorem autotune_agrees_steady : ∃ tr out,
    Lockstep agreeAll (fun _ : Fin 2 => autotune (steady 7) 20 4 (groupCandidates ["har"]) [16384, 32768])
      tr (fun r => some (out r)) ∧
      Agreed (fun a _ => a / 1024) 0 (groupCandidates ["har"]) [16384, 32768] tr out :=
  autotune_agrees (fun _ => steady 7) 20 4 0 (fun a _ => a / 1024) (groupCandidates ["har"])
    [16384, 32768] (groupCandidates_spec ["har"]).1

/-- The stock communicator fails on rank 1 at the first size and works at the second. -/
def flaky (r : Fin 2) : Behaviour ℕ∞ where
  before _ := 0
  makeComm _ _ := .ok ()
  after _ _ := 0
  measure i _ _ := if i = 0 ∧ r.val = 1 then .error "RuntimeError('wrong all-reduce result')" else .ok 7

/-- The stock communicator keeps the entry of the size at which it works. -/
theorem default_fails : ¬ ∀ (b : Fin 2 → Behaviour ℕ∞) (budget prune : ℕ∞) (candidates : List String)
    (sizes : List ℕ) (tr : List (Call × (Fin 2 → Part ℕ∞))) (out : Fin 2 → Tuned ℕ∞),
    "default" ∈ candidates → candidates.Nodup →
    Lockstep agreeAll (fun r => autotune (b r) budget prune candidates sizes) tr
      (fun r => some (out r)) →
    ∀ call ∈ tr, ∀ s, call.1.spec = some s → Failed call.2 →
      ∀ r, ∀ i < sizes.length, (out r).table s i = ⊤ := by
  intro h
  have hrun : Lockstep agreeAll (fun r => autotune (flaky r) 20 4 ["default"] [16384, 32768])
      [(.measure "default" 0 16384, fun r => outcome ((flaky r).measure 0 0 "default")),
        (.agree 3, fun r => .vals (reading (flaky r) 0 0 "default")),
        (.measure "default" 1 32768, fun r => outcome ((flaky r).measure 1 0 "default")),
        (.agree 3, fun r => .vals (reading (flaky r) 1 0 "default"))]
      (fun r => some ((noted (flaky r) 0 0 16384 "default" .init).set "default" 1 7)) := by
    refine .sync (fun r => rfl) (.sync (fun r => rfl) (.sync (fun r => rfl) (.sync (fun r => rfl) ?_)))
    exact .done fun r => rfl
  have hfail := h flaky 20 4 ["default"] [16384, 32768] _ _ (by decide) (by decide) hrun _
    List.mem_cons_self "default" rfl ⟨1, _, rfl⟩ 0 1 (by decide)
  simp [Tuned.set] at hfail

end SuffixHybrid.NcclSplit
