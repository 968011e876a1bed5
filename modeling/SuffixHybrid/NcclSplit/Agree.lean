import Mathlib.Algebra.Order.ZeroLEOne
import Mathlib.Algebra.Order.Monoid.Unbundled.Basic
import SuffixHybrid.NcclSplit.Autotune

/-!
# The creation of the communicators

The ranks agree on what their dictionaries have in common (`Same`): the table and the communicators.
`createAll_lockstep` shows that the loop over the candidates runs in lockstep, keeps this agreement
and leaves out each candidate whose creation failed on any rank; `Owned` says that the communicators
of a rank are its own and none of them is destroyed.
-/

namespace SuffixHybrid.NcclSplit
open Lib
variable {F : Type} {n : ℕ}

/-! ## Agreed values -/

/-- The call raised on some rank. -/
def Failed (x : Fin (n + 1) → Part F) : Prop := ∃ r exc, x r = .raised exc

lemma not_failed_vals (v : Fin (n + 1) → List F) : ¬ Failed fun r => Part.vals (v r) := by
  rintro ⟨r, exc, h⟩
  cases h

/-- A call failed when its outcome is an exception on some rank. -/
lemma failed_outcome {α : Type} {o : Fin (n + 1) → Except String α} :
    Failed (fun r => (outcome (o r) : Part F)) ↔ ∃ r exc, o r = .error exc := by
  refine exists_congr fun r => exists_congr fun exc => ?_
  simp only [outcome]
  cases o r <;> simp

section
variable [LinearOrder F] [Zero F]

lemma agreeAll_one (f : Fin (n + 1) → F) :
    agreeAll (.agree 1) (fun r => .vals [f r]) = [Finset.univ.sup' Finset.univ_nonempty f] := rfl

lemma agreeAll_three (f g h : Fin (n + 1) → F) :
    agreeAll (.agree 3) (fun r => .vals [f r, g r, h r]) =
      [Finset.univ.sup' Finset.univ_nonempty f, Finset.univ.sup' Finset.univ_nonempty g,
        Finset.univ.sup' Finset.univ_nonempty h] := rfl

/-- The maximum of flags is set when some rank sets it. -/
lemma sup_flag [One F] [ZeroLEOneClass F] [NeZero (1 : F)] (p : Fin (n + 1) → Prop) [DecidablePred p] :
    Finset.univ.sup' Finset.univ_nonempty (fun r => if p r then (1 : F) else 0) ≠ 0 ↔ ∃ r, p r := by
  refine ⟨fun h => ?_, ?_⟩
  · by_contra hp
    push Not at hp
    refine h (le_antisymm (Finset.sup'_le _ _ fun r _ => ?_) ?_)
    · rw [if_neg (hp r)]
    · have h0 := Finset.le_sup' (fun r => if p r then (1 : F) else 0) (Finset.mem_univ (0 : Fin (n + 1)))
      rwa [if_neg (hp 0)] at h0
  · rintro ⟨r, hr⟩ h
    have h1 := Finset.le_sup' (fun r => if p r then (1 : F) else 0) (Finset.mem_univ r)
    rw [h, if_pos hr] at h1
    exact absurd h1 (not_le.mpr zero_lt_one)

end

/-! ## What the ranks share -/

/-- The ranks have the same table and the same communicators. -/
structure Same (T : String → ℕ → F) (C : Map String (Option Comm)) (m : Fin (n + 1) → Tuned F) :
    Prop where
  table : ∀ r, (m r).table = T
  comms : ∀ r, (m r).comms = C

/-- The communicators of a rank before the candidate at position `j`: none is missing or destroyed,
and no two candidates share one. -/
structure Owned (j : ℕ) (m : Tuned F) : Prop where
  real : ∀ s c, m.comms.lookup s = some c → ∃ c', c = some c' ∧ c' ∉ m.destroyed
  old : ∀ s k, m.comms.lookup s = some (some (.made k)) → k < j
  gone : ∀ c ∈ m.destroyed, ∃ k < j, c = .made k
  inj : ∀ s s' c, m.comms.lookup s = some (some c) → m.comms.lookup s' = some (some c) → s = s'
  stock : m.comms.lookup "default" = some (some .stock)

lemma Owned.init [LinearOrder F] [OrderTop F] : Owned 0 (Tuned.init : Tuned F) := by
  have hl (s : String) (c : Option Comm) (h : (Tuned.init : Tuned F).comms.lookup s = some c) :
      s = "default" ∧ c = some .stock := by
    rw [Tuned.init, Map.lookup_put] at h
    split at h
    case isTrue hs => exact ⟨hs, (Option.some.inj h).symm⟩
    case isFalse => cases h
  constructor
  case real => exact fun s c h => ⟨.stock, (hl s c h).2, List.not_mem_nil⟩
  case old =>
    intro s k h
    cases (hl s _ h).2
  case gone => simp [Tuned.init]
  case inj => exact fun s s' c h h' => (hl s _ h).1.trans (hl s' _ h').1.symm
  case stock => exact Map.lookup_put_self ..

lemma Owned.mono {j j' : ℕ} {m : Tuned F} (h : Owned j m) (hj : j ≤ j') : Owned j' m where
  real := h.real
  old s k hs := (h.old s k hs).trans_le hj
  gone c hc := by
    obtain ⟨k, hk, rfl⟩ := h.gone c hc
    exact ⟨k, hk.trans_le hj, rfl⟩
  inj := h.inj
  stock := h.stock

/-- The new communicator of a candidate is kept. -/
lemma Owned.keep {j : ℕ} {m : Tuned F} (h : Owned j m) {spec : String} (hs : spec ≠ "default") :
    Owned (j + 1) (m.keep spec (some (.made j))) := by
  have hnew (s : String) : m.comms.lookup s ≠ some (some (.made j)) := by
    intro e
    exact absurd (h.old s j e) (lt_irrefl j)
  constructor
  case real =>
    intro s c e
    rw [Tuned.keep, Map.lookup_put] at e
    split at e
    case isTrue =>
      cases e
      refine ⟨_, rfl, fun hd => ?_⟩
      obtain ⟨k, hk, e⟩ := h.gone _ hd
      cases e
      exact lt_irrefl j hk
    case isFalse => exact h.real s c e
  case old =>
    intro s k e
    rw [Tuned.keep, Map.lookup_put] at e
    split at e
    case isTrue =>
      cases e
      exact Nat.lt_succ_self j
    case isFalse => exact (h.old s k e).trans (Nat.lt_succ_self j)
  case gone =>
    intro c hc
    obtain ⟨k, hk, rfl⟩ := h.gone c hc
    exact ⟨k, hk.trans (Nat.lt_succ_self j), rfl⟩
  case inj =>
    intro s s' c e e'
    rw [Tuned.keep, Map.lookup_put] at e e'
    split at e <;> split at e'
    case isTrue.isTrue hs hs' => exact hs.trans hs'.symm
    case isTrue.isFalse =>
      cases e
      exact absurd e' (hnew s')
    case isFalse.isTrue =>
      cases e'
      exact absurd e (hnew s)
    case isFalse.isFalse => exact h.inj s s' c e e'
  case stock =>
    rw [Tuned.keep, Map.lookup_put_ne _ _ hs.symm]
    exact h.stock

/-- What `Owned` looks at. -/
lemma Owned.congr {j : ℕ} {m m' : Tuned F} (h : Owned j m) (hc : m'.comms = m.comms)
    (hd : m'.destroyed = m.destroyed) : Owned j m' := by
  constructor
  case real => rw [hc, hd]; exact h.real
  case old => rw [hc]; exact h.old
  case gone => rw [hd]; exact h.gone
  case inj => rw [hc]; exact h.inj
  case stock => rw [hc]; exact h.stock

/-- A new communicator that another rank could not create is destroyed. -/
lemma Owned.destroy {j : ℕ} {m : Tuned F} (h : Owned j m) {comm : Option Comm}
    (hc : comm = none ∨ comm = some (.made j)) : Owned (j + 1) (m.destroy comm) := by
  obtain rfl | rfl := hc
  · exact h.mono (Nat.le_succ j)
  constructor
  case real =>
    intro s c e
    obtain ⟨c', rfl, hd⟩ := h.real s c e
    refine ⟨c', rfl, ?_⟩
    rw [Tuned.destroy, List.mem_cons]
    rintro (rfl | hmem)
    · exact lt_irrefl j (h.old s j e)
    · exact hd hmem
  case old => exact fun s k e => (h.old s k e).trans (Nat.lt_succ_self j)
  case gone =>
    intro c hc
    rw [Tuned.destroy, List.mem_cons] at hc
    obtain rfl | hc := hc
    · exact ⟨j, Nat.lt_succ_self j, rfl⟩
    · obtain ⟨k, hk, rfl⟩ := h.gone c hc
      exact ⟨k, hk.trans (Nat.lt_succ_self j), rfl⟩
  case inj => exact h.inj
  case stock => exact h.stock

/-! ## The errors of a rank are its own -/

@[simp] lemma fail_table (m : Tuned F) (s t : String) : (m.fail s t).table = m.table := rfl
@[simp] lemma fail_comms (m : Tuned F) (s t : String) : (m.fail s t).comms = m.comms := rfl
@[simp] lemma fail_destroyed (m : Tuned F) (s t : String) :
    (m.fail s t).destroyed = m.destroyed := rfl

@[simp] lemma failElsewhere_table (m : Tuned F) (s t : String) :
    (m.failElsewhere s t).table = m.table := by
  rw [Tuned.failElsewhere]; split <;> rfl

@[simp] lemma failElsewhere_comms (m : Tuned F) (s t : String) :
    (m.failElsewhere s t).comms = m.comms := by
  rw [Tuned.failElsewhere]; split <;> rfl

@[simp] lemma failElsewhere_destroyed (m : Tuned F) (s t : String) :
    (m.failElsewhere s t).destroyed = m.destroyed := by
  rw [Tuned.failElsewhere]; split <;> rfl

@[simp] lemma destroy_table (m : Tuned F) (c : Option Comm) : (m.destroy c).table = m.table := by
  cases c <;> rfl

@[simp] lemma destroy_comms (m : Tuned F) (c : Option Comm) : (m.destroy c).comms = m.comms := by
  cases c <;> rfl

@[simp] lemma create_table (b : Behaviour F) (j : ℕ) (spec : String) (m : Tuned F) :
    (create b j spec m).2.table = m.table := by
  rw [create]; split <;> rfl

@[simp] lemma create_comms (b : Behaviour F) (j : ℕ) (spec : String) (m : Tuned F) :
    (create b j spec m).2.comms = m.comms := by
  rw [create]; split <;> rfl

@[simp] lemma create_destroyed (b : Behaviour F) (j : ℕ) (spec : String) (m : Tuned F) :
    (create b j spec m).2.destroyed = m.destroyed := by
  rw [create]; split <;> rfl

/-- A creation fails when `make_comm` raises. -/
lemma create_none {b : Behaviour F} {j : ℕ} {spec : String} {m : Tuned F} :
    (create b j spec m).1 = none ↔ ∃ exc, b.makeComm j spec = .error exc := by
  rw [create]; split <;> simp_all

lemma create_cases (b : Behaviour F) (j : ℕ) (spec : String) (m : Tuned F) :
    (create b j spec m).1 = none ∨ (create b j spec m).1 = some (.made j) := by
  rw [create]; split <;> simp

/-! ## The loop over the candidates -/

/-- What the creation of the communicators of `rest` leaves. -/
structure Created (C C' : Map String (Option Comm)) (rest : List String)
    (tr : List (Call × (Fin (n + 1) → Part F))) : Prop where
  other : ∀ s, s ∉ rest → (s ∈ C' ↔ s ∈ C)
  failed : rest.Nodup → (∀ s ∈ rest, s ≠ "default" → s ∉ C) → ∀ call ∈ tr, Failed call.2 →
    ∃ s, call.1 = .makeComm s ∧ s ∉ C'

/-- A candidate that is passed over. -/
lemma Created.skip {C C' : Map String (Option Comm)} {rest : List String} {spec : String}
    {tr : List (Call × (Fin (n + 1) → Part F))} (h : Created C C' rest tr) :
    Created C C' (spec :: rest) tr where
  other s hs := h.other s fun hmem => hs (List.mem_cons_of_mem _ hmem)
  failed hnd hC := h.failed hnd.of_cons fun s hs => hC s (List.mem_cons_of_mem _ hs)

/-- A call that raised nowhere. -/
lemma Created.call {C C' : Map String (Option Comm)} {rest : List String} {c : Call}
    {x : Fin (n + 1) → Part F} {tr : List (Call × (Fin (n + 1) → Part F))}
    (h : Created C C' rest tr) (hx : ¬ Failed x) : Created C C' rest ((c, x) :: tr) where
  other := h.other
  failed hnd hC call hcall hf := by
    rw [List.mem_cons] at hcall
    obtain rfl | hcall := hcall
    · exact absurd hf hx
    · exact h.failed hnd hC call hcall hf

section
variable [LinearOrder F] [Zero F] [One F]

/-- Whether the creation of a candidate failed on some rank, as the ranks agree on it. -/
def creationFailed (b : Fin (n + 1) → Behaviour F) (j : ℕ) (spec : String)
    (m : Fin (n + 1) → Tuned F) : F :=
  Finset.univ.sup' ranks_nonempty fun r => if (create (b r) j spec (m r)).1 = none then 1 else 0

variable [ZeroLEOneClass F] [NeZero (1 : F)]

lemma creationFailed_iff {b : Fin (n + 1) → Behaviour F} {j : ℕ} {spec : String}
    {m : Fin (n + 1) → Tuned F} :
    creationFailed b j spec m ≠ 0 ↔ ∃ r, (create (b r) j spec (m r)).1 = none :=
  sup_flag fun r => (create (b r) j spec (m r)).1 = none

/-- The agreed flag decides on every rank, whatever its own creation did. -/
lemma settle_same (b : Fin (n + 1) → Behaviour F) {j : ℕ} {spec : String} {m : Fin (n + 1) → Tuned F}
    {T : String → ℕ → F} {C : Map String (Option Comm)} (hspec : spec ≠ "default") (hm : Same T C m)
    (ho : ∀ r, Owned j (m r)) :
    ∃ C', Same T C' (fun r => settle spec (create (b r) j spec (m r)).1 (creationFailed b j spec m)
        (create (b r) j spec (m r)).2) ∧
      (∀ r, Owned (j + 1) (settle spec (create (b r) j spec (m r)).1 (creationFailed b j spec m)
        (create (b r) j spec (m r)).2)) ∧
      (∀ s, s ≠ spec → (s ∈ C' ↔ s ∈ C)) ∧ (creationFailed b j spec m ≠ 0 → C' = C) := by
  have hcases (r : Fin (n + 1)) := create_cases (b r) j spec (m r)
  have hown (r : Fin (n + 1)) : Owned j (create (b r) j spec (m r)).2 :=
    (ho r).congr (by simp) (by simp)
  by_cases hf : creationFailed b j spec m = 0
  case pos =>
    have hmade (r : Fin (n + 1)) : (create (b r) j spec (m r)).1 = some (.made j) := by
      refine (hcases r).resolve_left fun hr => ?_
      exact creationFailed_iff.mpr ⟨r, hr⟩ hf
    refine ⟨C.put spec (some (.made j)), ⟨fun r => ?_, fun r => ?_⟩, fun r => ?_, ?_, ?_⟩
    · simp [settle, hf, Tuned.keep, hm.table]
    · simp [settle, hf, Tuned.keep, hmade, hm.comms]
    · simp only [settle, hf, ne_eq, not_true_eq_false, if_false, hmade]
      exact (hown r).keep hspec
    · intro s hs
      rw [Map.mem_put, or_iff_right hs]
    · exact fun h => absurd hf h
  case neg =>
    refine ⟨C, ⟨fun r => ?_, fun r => ?_⟩, fun r => ?_, fun _ _ => Iff.rfl, fun _ => rfl⟩
    · simp [settle, hf, hm.table]
    · simp [settle, hf, hm.comms]
    · simp only [settle, ne_eq, hf, not_false_eq_true, if_true]
      refine Owned.destroy ?_ (hcases r)
      exact (hown r).congr (by simp) (by simp)

theorem createAll_lockstep (b : Fin (n + 1) → Behaviour F) (budget : F) (T : String → ℕ → F)
    (rest : List String) (j : ℕ) (m : Fin (n + 1) → Tuned F) (C : Map String (Option Comm))
    (hm : Same T C m) (ho : ∀ r, Owned j (m r)) :
    ∃ tr m' C', Lockstep agreeAll (fun r => createAll (b r) budget j rest (m r)) tr m' ∧
      Same T C' m' ∧ (∀ r, ∃ j', Owned j' (m' r)) ∧ Created C C' rest tr := by
  induction rest generalizing j m C with
  | nil =>
    exact ⟨[], m, C, .pure m, hm, fun r => ⟨j, ho r⟩, ⟨fun _ _ => Iff.rfl, by simp⟩⟩
  | cons spec rest ih =>
    have hskip := ih (j + 1) m C hm fun r => (ho r).mono (Nat.le_succ j)
    simp only [createAll]
    split
    case isTrue =>
      obtain ⟨tr, m', C', hl, hs, ho', hc⟩ := hskip
      exact ⟨tr, m', C', hl, hs, ho', hc.skip⟩
    case isFalse hspec =>
    have hclock := not_failed_vals fun r => [(b r).before j]
    by_cases hb : budget < Finset.univ.sup' Finset.univ_nonempty fun r => (b r).before j
    case pos =>
      obtain ⟨tr, m', C', hl, hs, ho', hc⟩ := hskip
      refine ⟨_, m', C', .step ?_, hs, ho', hc.skip.call hclock⟩
      simpa only [agreeAll_one, List.getD_cons_zero, if_pos hb] using hl
    case neg =>
    obtain ⟨C1, hsame, hown, hother, hmem⟩ := settle_same b hspec hm ho
    obtain ⟨tr, m', C', hl, hs, ho', hc⟩ := ih (j + 1) _ C1 hsame hown
    refine ⟨(.agree 1, fun r => .vals [(b r).before j]) ::
      (.makeComm spec, fun r => outcome ((b r).makeComm j spec)) ::
      (.agree 1, fun r => .vals [if (create (b r) j spec (m r)).1 = none then 1 else 0]) :: tr,
      m', C', .step ?_, hs, ho', Created.call ?_ hclock⟩
    · simp only [agreeAll_one, List.getD_cons_zero, if_neg hb]
      exact .step (.step hl)
    constructor
    case other =>
      intro s hs
      rw [List.mem_cons, not_or] at hs
      rw [hc.other s hs.2, hother s hs.1]
    case failed =>
      intro hnd hC call hcall hf
      obtain ⟨hnotin, hnd⟩ := List.nodup_cons.mp hnd
      rw [List.mem_cons, List.mem_cons] at hcall
      obtain rfl | rfl | hcall := hcall
      · refine ⟨spec, rfl, ?_⟩
        have hfail : creationFailed b j spec m ≠ 0 := by
          obtain ⟨r, exc, hr⟩ := failed_outcome.mp hf
          exact creationFailed_iff.mpr ⟨r, create_none.mpr ⟨exc, hr⟩⟩
        rw [hc.other spec hnotin, hmem hfail]
        exact hC spec List.mem_cons_self hspec
      · exact absurd hf (not_failed_vals fun r => [_])
      · refine hc.failed hnd (fun s h hd => ?_) call hcall hf
        have hne : s ≠ spec := by
          rintro rfl
          exact hnotin h
        rw [hother s hne]
        exact hC s (List.mem_cons_of_mem _ h) hd

end

end SuffixHybrid.NcclSplit
