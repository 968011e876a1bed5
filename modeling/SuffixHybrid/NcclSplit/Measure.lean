import SuffixHybrid.NcclSplit.Agree

/-!
# The measurements

The loops over the sizes and over the live candidates run in lockstep as well. `Measured` says what
one size does to the table and to the live candidates, `MeasuredAll` what all of them do: a
measurement that raised on any rank leaves an infinite entry, and drops its candidate for good when
it is not the stock communicator.
-/

namespace SuffixHybrid.NcclSplit
open Lib
variable {F : Type} {n : ℕ}

/-! ## One measurement -/

/-- The time that a rank brings after a measurement. -/
def timeOf [LE F] [OrderTop F] : Except String F → F
  | .ok t => t
  | .error _ => ⊤

/-- Whether the measurement raised on the rank. -/
def badOf [Zero F] [One F] : Except String F → F
  | .ok _ => 0
  | .error _ => 1

lemma reading_eq [LinearOrder F] [OrderTop F] [Zero F] [One F] (b : Behaviour F) (i k : ℕ)
    (spec : String) :
    reading b i k spec =
      [timeOf (b.measure i k spec), badOf (b.measure i k spec), b.after i k] := by
  rw [reading]; split <;> simp_all [timeOf, badOf]

/-- The agreed flag of a measurement. -/
def measureFailed [LinearOrder F] [Zero F] [One F] (b : Fin (n + 1) → Behaviour F) (i k : ℕ)
    (spec : String) : F :=
  Finset.univ.sup' ranks_nonempty fun r => badOf ((b r).measure i k spec)

/-- The agreed time of a measurement. -/
def measuredTime [LinearOrder F] [OrderTop F] (b : Fin (n + 1) → Behaviour F) (i k : ℕ)
    (spec : String) : F :=
  Finset.univ.sup' ranks_nonempty fun r => timeOf ((b r).measure i k spec)

/-- The flag is set when the measurement raised on some rank. -/
lemma measureFailed_iff [LinearOrder F] [Zero F] [One F] [ZeroLEOneClass F] [NeZero (1 : F)]
    {b : Fin (n + 1) → Behaviour F} {i k : ℕ} {spec : String} :
    measureFailed b i k spec ≠ 0 ↔ ∃ r exc, (b r).measure i k spec = .error exc := by
  have hbad (r : Fin (n + 1)) : badOf ((b r).measure i k spec) =
      if ((b r).measure i k spec).isOk = false then (1 : F) else 0 := by
    cases (b r).measure i k spec <;> rfl
  rw [measureFailed]
  simp only [hbad]
  rw [sup_flag]
  refine exists_congr fun r => ?_
  cases (b r).measure i k spec <;> simp [Except.isOk, Except.toBool]

/-- The error of a failed measurement shows in `errors` only. -/
lemma noted_view (b : Behaviour F) (i k nbytes : ℕ) (spec : String) (m : Tuned F) :
    (noted b i k nbytes spec m).table = m.table ∧ (noted b i k nbytes spec m).comms = m.comms ∧
      (noted b i k nbytes spec m).destroyed = m.destroyed := by
  rw [noted]; split <;> simp

/-- The live candidates after a measurement. -/
def liveAfter [Zero F] [DecidableEq F] (spec : String) (bad : F) (live : List String) : List String :=
  if bad ≠ 0 ∧ spec ≠ "default" then live.erase spec else live

lemma liveAfter_sublist [Zero F] [DecidableEq F] (spec : String) (bad : F) (live : List String) :
    (liveAfter spec bad live).Sublist live := by
  rw [liveAfter]
  split
  · exact List.erase_sublist
  · exact .refl live

/-- The stock communicator stays. -/
lemma default_mem_liveAfter [Zero F] [DecidableEq F] {spec : String} {bad : F} {live : List String}
    (h : "default" ∈ live) : "default" ∈ liveAfter spec bad live := by
  rw [liveAfter]
  split
  case isTrue hbad => exact (List.mem_erase_of_ne hbad.2.symm).mpr h
  case isFalse => exact h

section
variable [LinearOrder F] [OrderTop F] [Zero F]

/-- The table after a measurement with the agreed values. -/
def recorded (spec : String) (i : ℕ) (t bad : F) (T : String → ℕ → F) : String → ℕ → F :=
  if bad ≠ 0 then
    if spec ≠ "default" then Function.update T spec fun _ => ⊤ else T
  else Function.update T spec (Function.update (T spec) i t)

/-- What a rank does with the agreed values shows in the table only. -/
lemma record_view (spec : String) (i nbytes : ℕ) (t bad : F) (live : List String) (m : Tuned F) :
    (record spec i nbytes t bad live m).1 = liveAfter spec bad live ∧
      (record spec i nbytes t bad live m).2.table = recorded spec i t bad m.table ∧
      (record spec i nbytes t bad live m).2.comms = m.comms ∧
      (record spec i nbytes t bad live m).2.destroyed = m.destroyed := by
  rw [record, liveAfter, recorded]
  split
  case isTrue hbad =>
    by_cases hs : spec = "default"
    · simp [hs]
    · simp [hs, hbad, Tuned.clear]
  case isFalse hbad => simp [hbad, Tuned.set]

lemma recorded_other {spec s : String} (h : s ≠ spec) (i : ℕ) (t bad : F) (T : String → ℕ → F) :
    recorded spec i t bad T s = T s := by
  rw [recorded]
  split
  · split
    · exact Function.update_of_ne h ..
    · rfl
  · exact Function.update_of_ne h ..

/-- A measurement changes no entry of another size, but for a whole row that it clears. -/
lemma recorded_inf {spec : String} {i : ℕ} {t bad : F} {T : String → ℕ → F} {s : String} {j : ℕ}
    (hj : j ≠ i) (h : T s j = ⊤) : recorded spec i t bad T s j = ⊤ := by
  by_cases hs : s = spec
  case neg => rw [recorded_other hs, h]
  case pos =>
    subst hs
    rw [recorded]
    split
    · split
      · rw [Function.update_self]
      · exact h
    · rw [Function.update_self, Function.update_of_ne hj, h]

end

/-! ## One size -/

/-- What the measurements of `todo` at size `i` do to the table and to the live candidates. -/
structure Measured [LE F] [OrderTop F] (i : ℕ) (todo live live' : List String)
    (T T' : String → ℕ → F) (tr : List (Call × (Fin (n + 1) → Part F))) : Prop where
  other : ∀ s, s ∉ todo → T' s = T s
  inf : ∀ s j, j ≠ i → T s j = ⊤ → T' s j = ⊤
  sub : live'.Sublist live
  stays : "default" ∈ live → "default" ∈ live'
  failed : todo.Nodup → live.Nodup → ∀ call ∈ tr, Failed call.2 → ∃ s ∈ todo, ∃ nbytes,
    call.1 = .measure s i nbytes ∧ (T s i = ⊤ → T' s i = ⊤) ∧
      (s ≠ "default" → (∀ j, T' s j = ⊤) ∧ s ∉ live')

/-- No measurement. -/
lemma Measured.refl [LE F] [OrderTop F] (i : ℕ) (todo live : List String) (T : String → ℕ → F) :
    Measured i todo live live T T ([] : List (Call × (Fin (n + 1) → Part F))) where
  other _ _ := rfl
  inf _ _ _ h := h
  sub := .refl live
  stays h := h
  failed := by simp

section
variable [LinearOrder F] [OrderTop F] [Zero F] [One F]

/-- The dictionaries of the ranks after a measurement with the agreed values. -/
def recordAll (b : Fin (n + 1) → Behaviour F) (i k nbytes : ℕ) (spec : String) (live : List String)
    (m : Fin (n + 1) → Tuned F) (r : Fin (n + 1)) : Tuned F :=
  (record spec i nbytes (measuredTime b i k spec) (measureFailed b i k spec) live
    (noted (b r) i k nbytes spec (m r))).2

lemma recordAll_same {b : Fin (n + 1) → Behaviour F} {i k nbytes : ℕ} {spec : String}
    {live : List String} {T : String → ℕ → F} {C : Map String (Option Comm)}
    {m : Fin (n + 1) → Tuned F} (hm : Same T C m) :
    Same (recorded spec i (measuredTime b i k spec) (measureFailed b i k spec) T) C
      (recordAll b i k nbytes spec live m) := by
  constructor
  case table =>
    intro r
    rw [recordAll, (record_view ..).2.1, (noted_view ..).1, hm.table r]
  case comms =>
    intro r
    rw [recordAll, (record_view ..).2.2.1, (noted_view ..).2.1, hm.comms r]

lemma recordAll_destroyed (b : Fin (n + 1) → Behaviour F) (i k nbytes : ℕ) (spec : String)
    (live : List String) (m : Fin (n + 1) → Tuned F) (r : Fin (n + 1)) :
    (recordAll b i k nbytes spec live m r).destroyed = (m r).destroyed := by
  rw [recordAll, (record_view ..).2.2.2, (noted_view ..).2.2]

variable [ZeroLEOneClass F] [NeZero (1 : F)]

/-- One measurement ahead of the others. -/
lemma Measured.cons {b : Fin (n + 1) → Behaviour F} {i k nbytes : ℕ} {spec : String}
    {todo live live' : List String} {T T' : String → ℕ → F}
    {tr : List (Call × (Fin (n + 1) → Part F))}
    (h : Measured i todo (liveAfter spec (measureFailed b i k spec) live) live'
      (recorded spec i (measuredTime b i k spec) (measureFailed b i k spec) T) T' tr) :
    Measured i (spec :: todo) live live' T T'
      ((.measure spec i nbytes, fun r => outcome ((b r).measure i k spec)) ::
        (.agree 3, fun r => .vals (reading (b r) i k spec)) :: tr) where
  other s hs := by
    rw [List.mem_cons, not_or] at hs
    rw [h.other s hs.2, recorded_other hs.1]
  inf s j hj hT := h.inf s j hj (recorded_inf hj hT)
  sub := h.sub.trans (liveAfter_sublist ..)
  stays hd := h.stays (default_mem_liveAfter hd)
  failed hnd hlive call hcall hf := by
    obtain ⟨hnotin, hnd⟩ := List.nodup_cons.mp hnd
    rw [List.mem_cons, List.mem_cons] at hcall
    obtain rfl | rfl | hcall := hcall
    · have hbad : measureFailed b i k spec ≠ 0 := measureFailed_iff.mpr (failed_outcome.mp hf)
      refine ⟨spec, List.mem_cons_self, nbytes, rfl, fun hT => ?_, fun hd => ⟨fun j => ?_, fun hmem => ?_⟩⟩
      · rw [h.other spec hnotin, recorded, if_pos hbad]
        split
        · rw [Function.update_self]
        · exact hT
      · rw [h.other spec hnotin, recorded, if_pos hbad, if_pos hd, Function.update_self]
      · have hin := h.sub.subset hmem
        rw [liveAfter, if_pos ⟨hbad, hd⟩] at hin
        exact hlive.not_mem_erase hin
    · exact absurd hf (not_failed_vals _)
    · obtain ⟨s, hs, nb, hcall', hi, hrest⟩ :=
        h.failed hnd (hlive.sublist (liveAfter_sublist ..)) call hcall hf
      have hne : s ≠ spec := by
        rintro rfl
        exact hnotin hs
      refine ⟨s, List.mem_cons_of_mem _ hs, nb, hcall', fun hT => hi ?_, hrest⟩
      rw [recorded_other hne, hT]

/-- The loop over the live candidates at one size runs in lockstep. -/
theorem measureRow_lockstep (b : Fin (n + 1) → Behaviour F) (budget : F) (i nbytes : ℕ)
    (C : Map String (Option Comm)) (todo : List String) (k : ℕ) (live : List String)
    (T : String → ℕ → F) (m : Fin (n + 1) → Tuned F) (hm : Same T C m) :
    ∃ tr out live' T' m', Lockstep agreeAll
        (fun r => measureRow (b r) budget i nbytes k todo live (m r)) tr (fun r => (out, live', m' r)) ∧
      Same T' C m' ∧ (∀ r, (m' r).destroyed = (m r).destroyed) ∧
      Measured i todo live live' T T' tr := by
  induction todo generalizing k live T m with
  | nil => exact ⟨[], false, live, T, m, .pure _, hm, fun _ => rfl, .refl i [] live T⟩
  | cons spec todo ih =>
    have hagree : agreeAll (.agree 3) (fun r => .vals (reading (b r) i k spec)) =
        [measuredTime b i k spec, measureFailed b i k spec,
          Finset.univ.sup' Finset.univ_nonempty fun r => (b r).after i k] := by
      simp only [reading_eq]
      exact agreeAll_three _ _ _
    have hrec (r : Fin (n + 1)) : record spec i nbytes (measuredTime b i k spec)
          (measureFailed b i k spec) live (noted (b r) i k nbytes spec (m r)) =
        (liveAfter spec (measureFailed b i k spec) live, recordAll b i k nbytes spec live m r) :=
      Prod.ext (record_view ..).1 rfl
    have hsame : Same _ _ (recordAll b i k nbytes spec live m) := recordAll_same hm
    have hdest := recordAll_destroyed b i k nbytes spec live m
    simp only [measureRow]
    by_cases hout : budget < Finset.univ.sup' Finset.univ_nonempty fun r => (b r).after i k
    case pos =>
      refine ⟨_, true, _, _, _, .step (.stepWith [] ?_), hsame, hdest, .cons (.refl i todo _ _)⟩
      simp only [hagree, List.getD_cons_zero, List.getD_cons_succ, if_pos hout, hrec]
      exact .pure _
    case neg =>
      obtain ⟨tr, out, live', T', m', hl, hs, hd, hrow⟩ := ih (k + 1)
        (liveAfter spec (measureFailed b i k spec) live) _ _ hsame
      refine ⟨_, out, live', T', m', .step (.stepWith tr ?_), hs,
        fun r => (hd r).trans (hdest r), hrow.cons⟩
      simp only [hagree, List.getD_cons_zero, List.getD_cons_succ, if_neg hout, hrec]
      exact hl

end

/-! ## All sizes -/

section
variable [LinearOrder F]

lemma best_isSome {T : String → ℕ → F} {live : List String} (h : "default" ∈ live) (i : ℕ) :
    ∃ t, best T i live = some t := by
  rw [← Option.isSome_iff_exists, best, List.isSome_min?_iff]
  intro hnil
  rw [List.map_eq_nil_iff.mp hnil] at h
  exact List.not_mem_nil h

lemma default_mem_pruned [Mul F] {prune t : F} {i : ℕ} {T : String → ℕ → F} {live : List String}
    (h : "default" ∈ live) : "default" ∈ pruned prune t i T live := by
  simp [pruned, h]

variable [OrderTop F]

/-- What the measurements from size `i` on do to the table. -/
structure MeasuredAll (i : ℕ) (live : List String) (T T' : String → ℕ → F)
    (tr : List (Call × (Fin (n + 1) → Part F))) : Prop where
  other : ∀ s, s ∉ live → T' s = T s
  inf : ∀ s j, j < i → T s j = ⊤ → T' s j = ⊤
  failed : live.Nodup → (∀ s j, i ≤ j → T s j = ⊤) → ∀ call ∈ tr, Failed call.2 → ∃ s j nbytes,
    call.1 = .measure s j nbytes ∧ T' s j = ⊤ ∧ (s ≠ "default" → ∀ j, T' s j = ⊤)

/-- The last size, when the budget is used up or no size is left. -/
lemma Measured.last {i : ℕ} {live live' : List String} {T T' : String → ℕ → F}
    {tr : List (Call × (Fin (n + 1) → Part F))} (h : Measured i live live live' T T' tr) :
    MeasuredAll i live T T' tr where
  other := h.other
  inf s j hj := h.inf s j hj.ne
  failed hnd hT call hcall hf := by
    obtain ⟨s, -, nb, hc, hi, hs⟩ := h.failed hnd hnd call hcall hf
    exact ⟨s, i, nb, hc, hi (hT s i le_rfl), fun hd => (hs hd).1⟩

/-- One size ahead of the others. -/
lemma Measured.trans {i : ℕ} {live live' live1 : List String} {T T1 T' : String → ℕ → F}
    {tr tr' : List (Call × (Fin (n + 1) → Part F))} (h : Measured i live live live1 T T1 tr)
    (hlive : live'.Sublist live1) (h' : MeasuredAll (i + 1) live' T1 T' tr') :
    MeasuredAll i live T T' (tr ++ tr') where
  other s hs := by
    rw [h'.other s fun hmem => hs ((hlive.trans h.sub).subset hmem), h.other s hs]
  inf s j hj hT := h'.inf s j (hj.trans (Nat.lt_succ_self i)) (h.inf s j hj.ne hT)
  failed hnd hT call hcall hf := by
    rw [List.mem_append] at hcall
    obtain hcall | hcall := hcall
    · obtain ⟨s, -, nb, hc, hi, hs⟩ := h.failed hnd hnd call hcall hf
      refine ⟨s, i, nb, hc, h'.inf s i (Nat.lt_succ_self i) (hi (hT s i le_rfl)), fun hd j => ?_⟩
      rw [h'.other s fun hmem => (hs hd).2 (hlive.subset hmem)]
      exact (hs hd).1 j
    · refine h'.failed (hnd.sublist (hlive.trans h.sub)) (fun s j hj => ?_) call hcall hf
      exact h.inf s j (Nat.ne_of_gt hj) (hT s j (Nat.le_of_succ_le hj))

variable [Zero F] [One F] [Mul F] [ZeroLEOneClass F] [NeZero (1 : F)]

/-- The loop over the sizes runs in lockstep, and `min` does not raise. -/
theorem measureAll_lockstep (b : Fin (n + 1) → Behaviour F) (budget prune : F)
    (C : Map String (Option Comm)) (sizes : List ℕ) (i : ℕ) (live : List String)
    (hd : "default" ∈ live) (T : String → ℕ → F) (m : Fin (n + 1) → Tuned F) (hm : Same T C m) :
    ∃ tr T' m', Lockstep agreeAll (fun r => measureAll (b r) budget prune i sizes live (m r)) tr
        (fun r => some (m' r)) ∧
      Same T' C m' ∧ (∀ r, (m' r).destroyed = (m r).destroyed) ∧ MeasuredAll i live T T' tr := by
  induction sizes generalizing i live T m with
  | nil => exact ⟨[], T, m, .pure _, hm, fun _ => rfl, (Measured.refl i live live T).last⟩
  | cons nbytes sizes ih =>
    obtain ⟨tr, out, live1, T1, m1, hl, hs, hdest, hrow⟩ :=
      measureRow_lockstep b budget i nbytes C live 0 live T m hm
    cases out with
    | true =>
      refine ⟨tr ++ [], T1, m1, hl.bind ?_, hs, hdest, ?_⟩
      · exact .pure _
      · rw [List.append_nil]
        exact hrow.last
    | false =>
      obtain ⟨t, ht⟩ := best_isSome (T := T1) (hrow.stays hd) i
      have hsub : (pruned prune t i T1 live1).Sublist live1 := List.filter_sublist
      obtain ⟨tr', T', m', hl', hs', hdest', hall⟩ :=
        ih (i + 1) (pruned prune t i T1 live1) (default_mem_pruned (hrow.stays hd)) T1 m1 hs
      refine ⟨tr ++ tr', T', m', hl.bind ?_, hs', fun r => (hdest' r).trans (hdest r),
        hrow.trans hsub hall⟩
      simp only [Bool.false_eq_true, if_false, hs.table, ht]
      exact hl'

end

end SuffixHybrid.NcclSplit
