import SuffixHybrid.Hook.Basic
import SuffixHybrid.Lib.Run
import SuffixHybrid.Mixer.Contract

/-!
# What the verifier's outcome is charged to

The verifier gets the last published proposal of a request, the mixer charges feedback to the one that
it recorded last. They differ after a step that the gate passed through, and after one that failed behind
the mix. All that the hook compares are lengths, against a table that such steps do not touch. So the
feedback of a run is charged to the verified proposals exactly if the comparison happens to censor every
outcome of another proposal (`charged_iff`), and it does not always (`passed_through_charged`).
-/

namespace SuffixHybrid
open Lib

namespace Hook

/-! ## The feedback -/

/-- The comparison of the lengths censors the outcome of a row: more tokens were accepted than the
recorded length, or all that were verified, at another length. -/
def Censored (lengths : Map ReqId ℕ) (r : Row) : Prop :=
  ((lengths.lookup r.id).any fun w => w + 1 < r.sampled.length) = true ∨
    r.sampled.length = r.verified + 1 ∧ lengths.lookup r.id ≠ some r.verified

instance (lengths : Map ReqId ℕ) (r : Row) : Decidable (Censored lengths r) :=
  inferInstanceAs (Decidable (_ ∨ _))

/-- The step gets as far as the mix. -/
structure Mixes (st : Settings) (h : Hook) (t : Step) : Prop where
  supported : t.unsupported = false
  convert : t.fault .convert = false
  mixer : ∃ m, h.getMixer st = .ok m
  read : t.fault .read = false

namespace Tape

/-- The outcomes are those of the published proposals: at most their tokens were verified, and beside the
accepted ones at most one token was sampled. -/
def Verdicts (w : Tape) (t : Step) : Prop :=
  ∀ r ∈ t.rows, r.sampled.length ≤ r.verified + 1 ∧
    r.verified ≤ (w.published.lookup r.id).elim 0 fun p => p.tokens.length

instance (w : Tape) (t : Step) : Decidable (w.Verdicts t) := inferInstanceAs (Decidable (∀ _ ∈ _, _))

/-- The feedback that a step hands to the mixer is `-1` or the number of accepted tokens of the proposal
that the mixer has recorded last for the row, and the mixer does not reject the call for it. -/
def Charged [F64] (st : Settings) (w : Tape) (t : Step) : Prop :=
  ∀ out m accepted, propose st w.hook t = some out → out.handed = some (m, accepted) →
    (∀ r a, (r, a) ∈ t.rows.zip accepted → a = -1 ∨ a = r.sampled.length - 1 ∧
      ∃ p, w.published.lookup r.id = some p ∧ w.recorded.lookup r.id = some p) ∧
    m.validate t.ids t.drafts (some accepted) = m.validate t.ids t.drafts none

/-- Where a step mixes, an outcome on verified tokens is on the proposal that the mixer recorded last, or
the comparison of the lengths censors it. -/
def Settled (st : Settings) (w : Tape) (t : Step) : Prop :=
  Mixes st w.hook t → ∀ r ∈ t.rows, r.sampled ≠ [] → r.verified ≠ 0 →
    w.published.lookup r.id = w.recorded.lookup r.id ∨ Censored w.hook.lengths r

end Tape

/-- Without verified tokens, or where the comparison censors, there is no feedback. -/
lemma acceptedLength_of_censored {lengths : Map ReqId ℕ} {r : Row}
    (h : r.sampled = [] ∨ r.verified = 0 ∨ Censored lengths r) : acceptedLength lengths r = -1 := by
  unfold acceptedLength
  split
  case isTrue => rfl
  case isFalse hs =>
    dsimp only
    by_cases hv : r.verified = 0
    · rw [if_neg (not_not.mpr hv)]
      simp
    · rw [if_pos hv]
      rcases (h.resolve_left hs).resolve_left hv with hmore | ⟨hall, hne⟩
      · rw [if_pos]
        obtain ⟨w, hw, hlt⟩ := Option.any_eq_true _ _ |>.mp hmore
        rw [decide_eq_true_eq] at hlt
        rw [hw, Option.any_some, decide_eq_true_eq]
        omega
      · rw [if_pos (show (r.sampled.length - 1 : ℤ) = r.verified ∧ some r.verified ≠ _ from
          ⟨by omega, hne.symm⟩)]
        split <;> rfl

/-- Elsewhere the feedback is the number of accepted tokens. -/
lemma acceptedLength_of_not_censored {lengths : Map ReqId ℕ} {r : Row} (hs : r.sampled ≠ [])
    (hv : r.verified ≠ 0) (h : ¬ Censored lengths r) :
    acceptedLength lengths r = r.sampled.length - 1 := by
  obtain ⟨hle, hall⟩ := not_or.mp h
  unfold acceptedLength
  rw [if_neg hs]
  dsimp only
  rw [if_pos hv, if_neg, if_neg]
  · rintro ⟨heq, hne⟩
    exact hall ⟨by omega, hne.symm⟩
  · rw [Option.any_eq_true]
    rintro ⟨w, hw, hlt⟩
    rw [decide_eq_true_eq] at hlt
    exact hle (by rw [hw, Option.any_some, decide_eq_true_eq]; omega)

/-! ## How a step ends -/

/-- How a step ends: without a mix, with a rejected mix, or with a recorded one. -/
inductive Exit [F64] (st : Settings) (h : Hook) (t : Step) (out : Out) : Prop
  | passed : ¬ Mixes st h t → out.handed = none → out.recorded = none →
      (out.state.mixer = h.mixer ∨ ∃ m, h.getMixer st = .ok m ∧ out.state.mixer = some m) →
      Exit st h t out
  | rejected {m m' : HybridMixer} {e : PyErr} : Mixes st h t → h.getMixer st = .ok m →
      m.mixNumpy t.order t.ids t.counts t.tokens t.drafts
        (some (t.rows.map (acceptedLength h.lengths))) = some (.error e, m') →
      out.handed = some (m, t.rows.map (acceptedLength h.lengths)) → out.recorded = none →
      out.state.mixer = some m' → Exit st h t out
  | mixed {m m' : HybridMixer} {drafts : List (List Token)} : Mixes st h t → h.getMixer st = .ok m →
      m.mixNumpy t.order t.ids t.counts t.tokens t.drafts
        (some (t.rows.map (acceptedLength h.lengths))) = some (.ok drafts, m') →
      out.handed = some (m, t.rows.map (acceptedLength h.lengths)) → out.recorded = some drafts →
      out.state.mixer = some m' → Exit st h t out

/-- A step that hands over feedback mixes. -/
lemma Exit.of_handed [F64] {st : Settings} {h : Hook} {t : Step} {out : Out} {m : HybridMixer}
    {accepted : List ℤ} (hexit : Exit st h t out) (hhanded : out.handed = some (m, accepted)) :
    Mixes st h t ∧ h.getMixer st = .ok m ∧ accepted = t.rows.map (acceptedLength h.lengths) := by
  cases hexit with
  | passed _ hnone =>
    rw [hnone] at hhanded
    cases hhanded
  | rejected hmixes hget _ hsome | mixed hmixes hget _ hsome =>
    rw [hsome] at hhanded
    cases hhanded
    exact ⟨hmixes, hget, rfl⟩

/-- The rest of a step leaves the mixer as it is. -/
lemma publish_mixer (h : Hook) (t : Step) (mixed : List (List Token)) :
    (publish h t mixed).2.mixer = h.mixer := by
  unfold publish
  split
  · rfl
  · dsimp only
    split <;> rfl

lemma propose_exit [F64] {st : Settings} {h : Hook} {t : Step} {out : Out}
    (hout : propose st h t = some out) : Exit st h t out := by
  unfold propose at hout
  split at hout
  case isTrue hu =>
    cases hout
    exact .passed (fun hm => by simp [hm.supported] at hu) rfl rfl (Or.inl rfl)
  case isFalse hu =>
    split at hout
    case isTrue hc =>
      cases hout
      exact .passed (fun hm => by simp [hm.convert] at hc) rfl rfl (Or.inl rfl)
    case isFalse hc =>
      split at hout
      case h_1 e hget =>
        cases hout
        refine .passed (fun hm => ?_) rfl rfl (Or.inl rfl)
        obtain ⟨m, hm⟩ := hm.mixer
        rw [hget] at hm
        cases hm
      case h_2 m hget =>
        split at hout
        case isTrue hr =>
          cases hout
          exact .passed (fun hm => by simp [hm.read] at hr) rfl rfl (Or.inr ⟨m, hget, rfl⟩)
        case isFalse hr =>
          have hmixes : Mixes st h t :=
            ⟨by simpa using hu, by simpa using hc, ⟨m, hget⟩, by simpa using hr⟩
          dsimp only at hout
          split at hout
          case h_1 => cases hout
          case h_2 e m' hmix =>
            cases hout
            exact .rejected hmixes hget hmix rfl rfl rfl
          case h_3 drafts m' hmix =>
            cases hout
            exact .mixed hmixes hget hmix rfl rfl (publish_mixer _ t drafts)

/-! ## The runs -/

/-- The mixer tracks proposals that are on the tape. -/
structure Fits (recorded : Map ReqId Proposal) (m : HybridMixer) : Prop where
  inv : m.Inv
  recorded : ∀ id q, m.previous.lookup id = some q →
    ∃ p, recorded.lookup id = some p ∧ q.length = p.tokens.length

/-- The mixer of the runner tracks proposals that are on the tape. -/
def Tape.Inv (w : Tape) : Prop := ∀ m, w.hook.mixer = some m → Fits w.recorded m

lemma Tape.Inv.fits {w : Tape} (h : w.Inv) {st : Settings} {m : HybridMixer}
    (hm : w.hook.getMixer st = .ok m) : Fits w.recorded m := by
  unfold getMixer at hm
  split at hm
  case h_1 m' hm' =>
    cases hm
    exact h m hm'
  case h_2 =>
    unfold HybridMixer.new at hm
    split at hm
    case isTrue =>
      cases hm
      exact ⟨HybridMixer.inv_empty _ _ _ _ _, fun id q hq => by simp [HybridMixer.empty] at hq⟩
    case isFalse => cases hm

/-- Charged feedback is not rejected. -/
lemma Fits.validate {w : Tape} {t : Step} {m : HybridMixer} (h : Fits w.recorded m) (hverdicts : w.Verdicts t)
    (hcharged : ∀ r a, (r, a) ∈ t.rows.zip (t.rows.map (acceptedLength w.hook.lengths)) →
      a = -1 ∨ a = r.sampled.length - 1 ∧
        ∃ p, w.published.lookup r.id = some p ∧ w.recorded.lookup r.id = some p) :
    m.validate t.ids t.drafts (some (t.rows.map (acceptedLength w.hook.lengths)))
      = m.validate t.ids t.drafts none := by
  set accepted := t.rows.map (acceptedLength w.hook.lengths) with haccepted
  have hlen : accepted.length = t.ids.length := by
    rw [haccepted, Step.ids, List.length_map, List.length_map]
  refine HybridMixer.validate_feedback hlen fun id a hmem => ?_
  apply Bool.eq_false_iff.mpr
  intro hbad
  rw [Step.ids, List.zip_map_left] at hmem
  obtain ⟨⟨r, a'⟩, hrow, heq⟩ := List.mem_map.mp hmem
  obtain ⟨hid, ha⟩ := Prod.mk.inj heq
  rw [id_eq] at ha
  subst hid ha
  obtain ⟨hsampled, hverified⟩ := hverdicts r (List.of_mem_zip hrow).1
  simp only [HybridMixer.badFeedback, Bool.or_eq_true, decide_eq_true_eq, Option.any_eq_true]
    at hbad
  rcases hcharged r _ hrow with hnone | ⟨ha, p, hpub, hrec⟩
  · rcases hbad with hlow | ⟨q, _, hhigh⟩ <;> omega
  · rcases hbad with hlow | ⟨q, hq, hhigh⟩
    · omega
    · -- the verified proposal is the tracked one
      obtain ⟨p', hp', hql⟩ := h.recorded r.id q hq
      rw [hrec] at hp'
      cases hp'
      rw [hpub, Option.elim_some] at hverified
      omega

lemma mem_zip_map {α β : Type} {f : α → β} {l : List α} {a : α} {b : β} :
    (a, b) ∈ l.zip (l.map f) ↔ a ∈ l ∧ b = f a := by
  have hzip : l.zip (l.map f) = l.map fun a => (a, f a) := by
    simpa only [List.map_id, id_eq] using List.zip_map' (f := id) (g := f) (l := l)
  rw [hzip, List.mem_map]
  constructor
  · rintro ⟨a', ha, heq⟩
    cases heq
    exact ⟨ha, rfl⟩
  · rintro ⟨ha, rfl⟩
    exact ⟨a, ha, rfl⟩

section steps
variable [F64] {st : Settings} {w : Tape} {t : Step}

/-- A step keeps the tape. -/
lemma Tape.Inv.advance (h : w.Inv) {out : Out} (hout : propose st w.hook t = some out) :
    (w.advance t out).Inv := by
  intro m hm
  cases propose_exit hout with
  | passed _ _ hrec hmixer =>
    simp only [Tape.advance, hrec] at hm ⊢
    rcases hmixer with hsame | ⟨m', hget, hnew⟩
    · exact h m (hsame ▸ hm)
    · rw [hnew] at hm
      cases hm
      exact h.fits hget
  | rejected _ hget hmix _ hrec hnew =>
    simp only [Tape.advance, hrec, hnew] at hm ⊢
    cases hm
    have hfits := h.fits hget
    rw [HybridMixer.mixNumpy_error hfits.inv hmix]
    exact hfits
  | mixed _ hget hmix _ hrec hnew =>
    simp only [Tape.advance, hrec, hnew] at hm ⊢
    cases hm
    obtain ⟨hinv, hnodup, _, htracked, _⟩ := HybridMixer.mixNumpy_ok (h.fits hget).inv hmix
    refine ⟨hinv, fun id q hq => ?_⟩
    obtain ⟨draft, hmem, hlen⟩ := htracked id q hq
    refine ⟨⟨w.time, draft⟩, Map.lookup_update_zip hnodup ?_, hlen⟩
    rw [List.zip_map_right]
    exact List.mem_map.mpr ⟨(id, draft), hmem, rfl⟩

/-- A step that gets as far as the mix hands its feedback over. -/
lemma Mixes.handed (hmixes : Mixes st w.hook t) (h : w.Inv) :
    ∃ out m, propose st w.hook t = some out ∧
      out.handed = some (m, t.rows.map (acceptedLength w.hook.lengths)) := by
  obtain ⟨m, hget⟩ := hmixes.mixer
  obtain ⟨⟨r, m'⟩, hmix, _⟩ := (HybridMixer.mix_atomic.2 m (h.fits hget).inv t.order t.ids t.drafts
    (some (t.rows.map (acceptedLength w.hook.lengths)))).2 t.counts t.tokens
  simp only [propose, hmixes.supported, hmixes.convert, hmixes.read, hget, hmix]
  cases r with
  | error e => exact ⟨_, m, rfl, rfl⟩
  | ok drafts => exact ⟨_, m, rfl, rfl⟩

/-- A step charges its feedback to the verified proposals exactly if it is settled. -/
lemma charged_iff_settled (h : w.Inv) (hverdicts : w.Verdicts t) :
    w.Charged st t ↔ w.Settled st t := by
  constructor
  · intro hcharged hmixes r hr hs hv
    by_cases hcens : Censored w.hook.lengths r
    · exact Or.inr hcens
    · have hmem : (r, acceptedLength w.hook.lengths r) ∈
          t.rows.zip (t.rows.map (acceptedLength w.hook.lengths)) := by
        rw [mem_zip_map]
        exact ⟨hr, rfl⟩
      obtain ⟨out, m, hout, hhanded⟩ := hmixes.handed h
      rcases (hcharged out m _ hout hhanded).1 r _ hmem with hnone | ⟨_, p, hpub, hrec⟩
      · have hpos := List.length_pos_of_ne_nil hs
        rw [acceptedLength_of_not_censored hs hv hcens] at hnone
        omega
      · exact Or.inl (hpub.trans hrec.symm)
  · intro hsettled out m accepted hout hhanded
    obtain ⟨hmixes, hget, rfl⟩ := (propose_exit hout).of_handed hhanded
    have hrows (r : Row) (a : ℤ)
        (hmem : (r, a) ∈ t.rows.zip (t.rows.map (acceptedLength w.hook.lengths))) :
        a = -1 ∨ a = r.sampled.length - 1 ∧
          ∃ p, w.published.lookup r.id = some p ∧ w.recorded.lookup r.id = some p := by
      rw [mem_zip_map] at hmem
      obtain ⟨hr, rfl⟩ := hmem
      by_cases hnone : r.sampled = [] ∨ r.verified = 0 ∨ Censored w.hook.lengths r
      · exact Or.inl (acceptedLength_of_censored hnone)
      · obtain ⟨hs, hv, hcens⟩ : r.sampled ≠ [] ∧ r.verified ≠ 0 ∧ ¬ Censored w.hook.lengths r := by
          simpa only [not_or] using hnone
        refine Or.inr ⟨acceptedLength_of_not_censored hs hv hcens, ?_⟩
        have hsame := (hsettled hmixes r hr hs hv).resolve_right hcens
        have hverified := (hverdicts r hr).2
        cases hpub : w.published.lookup r.id with
        | none =>
          rw [hpub, Option.elim_none] at hverified
          omega
        | some p => exact ⟨p, rfl, hsame.symm.trans hpub⟩
    exact ⟨hrows, (h.fits hget).validate hverdicts hrows⟩

end steps

/-- In a run over outcomes of the published proposals, every step charges its feedback to the proposal that
was verified if and only if every step is settled. -/
theorem charged_iff [F64] (st : Settings) {ts : List Step}
    (h : Lib.Along (Tape.next st) Tape.Verdicts Tape.start ts) :
    Lib.Along (Tape.next st) (Tape.Charged st) Tape.start ts ↔
      Lib.Along (Tape.next st) (Tape.Settled st) Tape.start ts := by
  have hstep (w : Tape) (t : Step) (hw : w.Inv) (hverdicts : w.Verdicts t) :
      (w.Charged st t ↔ w.Settled st t) ∧ ∀ w', w.next st t = some w' → w'.Inv := by
    refine ⟨charged_iff_settled hw hverdicts, fun w' hw' => ?_⟩
    obtain ⟨out, hout, rfl⟩ := Option.map_eq_some_iff.mp hw'
    exact hw.advance hout
  have hstart : Tape.start.Inv := fun m hm => by cases hm
  exact Lib.Along.iff hstep hstart h

/-- A step whose batch is one request, with the first tokens of a row. -/
def single (id : ReqId) (row : List Token) (total : ℤ) (native sampled : List Token) (verified : ℕ)
    (unsupported : Bool := false) (fault : Site → Bool := fun _ => false)
    (h : row.length = 8 := by rfl) : Step where
  unsupported
  rows := [{ id, native, sampled, verified }]
  order := HashOrder.stored ReqId
  counts := .i32 [total]
  tokens := .i32 ⟨8, [row], by simp [h]⟩
  fault

/-- Drafts of two tokens and an index of single tokens. -/
def twoTokens : Settings := ⟨Config.ofN 1 (by decide), {}, 2, 100⟩

/-- A step that the gate passes through, and an outcome that the comparison censors: of the two tokens of
the native draft one was scheduled and accepted. -/
def trimmed : List Step :=
  [single "a" [4, 5, 0, 0, 0, 0, 0, 0] 2 [9, 9] [5] 0,
    single "a" [4, 5, 7, 0, 0, 0, 0, 0] 3 [6, 6] [7] 2 true,
    single "a" [4, 5, 7, 6, 8, 0, 0, 0] 5 [9, 9] [6, 8] 1,
    single "a" [4, 5, 7, 6, 8, 9, 2, 0] 7 [9, 9] [9, 2] 2]

/-- The run charges its feedback to the verified proposals. -/
theorem charged_iff_trimmed :
    Lib.Along (Tape.next twoTokens) (Tape.Charged twoTokens) Tape.start trimmed := by
  have hcheck : Lib.Along (Tape.next twoTokens) (fun w t => ∀ r ∈ t.rows, r.sampled ≠ [] →
      r.verified ≠ 0 → w.published.lookup r.id = w.recorded.lookup r.id ∨
        Censored w.hook.lengths r) Tape.start trimmed := by decide
  have hsettled : Lib.Along (Tape.next twoTokens) (Tape.Settled twoTokens) Tape.start trimmed :=
    Lib.Along.mono (fun w t h => show w.Settled twoTokens t from fun _ => h) hcheck
  exact (charged_iff twoTokens (by decide)).mpr hsettled

/-- A proposal, and a step that the gate passes through. -/
def passedThrough : List Step :=
  [single "a" [4, 5, 0, 0, 0, 0, 0, 0] 2 [9, 9] [5] 0,
    single "a" [4, 5, 7, 0, 0, 0, 0, 0] 3 [6, 6] [7] 2 true]

/-- The native draft of the passed step is accepted in part. -/
def partlyAccepted : Step := single "a" [4, 5, 7, 6, 8, 0, 0, 0] 5 [9, 9] [6, 8] 2

/-- A request leaves a continuation behind, a second one is rejected twice, and the step that publishes the
continuation fails behind the mix. -/
def failedBehind : List Step :=
  [single "b" [1, 2, 3, 0, 0, 0, 0, 0] 3 [9, 9] [3] 0,
    single "a" [4, 5, 0, 0, 0, 0, 0, 0] 2 [9, 9] [5] 0,
    single "a" [4, 5, 7, 0, 0, 0, 0, 0] 3 [9, 9] [7] 2,
    single "a" [4, 5, 7, 2, 0, 0, 0, 0] 4 [9, 9] [2] 2 false fun site => site = .probs]

/-- The native draft of the failed step is accepted. -/
def fullyAccepted : Step := single "a" [4, 5, 7, 2, 9, 9, 8, 0] 7 [9, 9] [9, 9, 8] 2

/-- In the first run the mixer is handed one accepted token of a native draft that it has not seen, in the
second one it rejects the call, for two accepted tokens of a proposal of one. -/
theorem mischarged :
    (Lib.Along (Tape.next twoTokens) Tape.Verdicts Tape.start (passedThrough ++ [partlyAccepted]) ∧
      ¬ Lib.Along (Tape.next twoTokens) (Tape.Charged twoTokens) Tape.start
        (passedThrough ++ [partlyAccepted])) ∧
    Lib.Along (Tape.next twoTokens) Tape.Verdicts Tape.start (failedBehind ++ [fullyAccepted]) ∧
      ¬ Lib.Along (Tape.next twoTokens) (Tape.Charged twoTokens) Tape.start
        (failedBehind ++ [fullyAccepted]) := by
  refine ⟨⟨by decide, fun h => ?_⟩, by with_unfolding_all decide, fun h => ?_⟩
  · have hview : ((Lib.run (Tape.next twoTokens) Tape.start passedThrough).bind fun w =>
        (propose twoTokens w.hook partlyAccepted).map fun out =>
          (w.published.lookup "a", w.recorded.lookup "a", out.handed.map Prod.snd))
        = some (some ⟨1, [6, 6]⟩, some ⟨0, [9, 9]⟩, some [1]) := by decide
    obtain ⟨w, hw, hout⟩ := Option.bind_eq_some_iff.mp hview
    obtain ⟨out, hout, heq⟩ := Option.map_eq_some_iff.mp hout
    simp only [Prod.mk.injEq] at heq
    obtain ⟨hpub, hrec, hhanded⟩ := heq
    obtain ⟨⟨m, accepted⟩, hhanded, rfl⟩ := Option.map_eq_some_iff.mp hhanded
    rcases (h.last hw out m [1] hout hhanded).1 _ 1 List.mem_cons_self with hnone | ⟨_, p, hp, hq⟩
    · cases hnone
    · rw [show AList.lookup _ w.published = _ from hpub] at hp
      rw [show AList.lookup _ w.recorded = _ from hrec] at hq
      cases hp
      cases hq
  · have hview : ((Lib.run (Tape.next twoTokens) Tape.start failedBehind).bind fun w =>
        (propose twoTokens w.hook fullyAccepted).map fun out => out.handed.map fun (m, accepted) =>
          (accepted, (m.validate ["a"] [[9, 9]] (some accepted)).toOption,
            (m.validate ["a"] [[9, 9]] none).toOption))
        = some (some ([2], none, some ())) := by with_unfolding_all decide
    obtain ⟨w, hw, hout⟩ := Option.bind_eq_some_iff.mp hview
    obtain ⟨out, hout, heq⟩ := Option.map_eq_some_iff.mp hout
    obtain ⟨⟨m, accepted⟩, hhanded, heq⟩ := Option.map_eq_some_iff.mp heq
    simp only [Prod.mk.injEq] at heq
    obtain ⟨rfl, hbad, hgood⟩ := heq
    have hsame : m.validate ["a"] [[9, 9]] (some [2]) = m.validate ["a"] [[9, 9]] none :=
      (h.last hw out m [2] hout hhanded).2
    rw [hsame, hgood] at hbad
    cases hbad

end Hook
end SuffixHybrid
