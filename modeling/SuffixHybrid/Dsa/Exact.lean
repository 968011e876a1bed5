import SuffixHybrid.Dsa.Pending

/-!
# A fused tensor is ranked once

From the call that returns fused logits to their ranking the record does not change: the mask skips them, and a
ranking of anything else or another fused call ends the trace with an error. The first ranking selects the
largest candidates. It clears the record, so that whatever is done to the tensor afterwards goes to vLLM.
-/

namespace SuffixHybrid.Dsa
open Lib

variable {α : Type} [LinearOrder α] {V : Vllm α} {st : State α} {p : Pending α}

/-- The call ranks a tensor. -/
def Call.Ranks {α : Type} (t : Tensor) : Call α → Prop
  | .rank u _ => u = t
  | _ => False

instance {α : Type} (t : Tensor) : DecidablePred (Call.Ranks (α := α) t)
  | .rank _ _ => inferInstanceAs (Decidable (_ = _))
  | .fuse _ => inferInstanceAs (Decidable False)
  | .mask _ => inferInstanceAs (Decidable False)

/-- A tensor goes through the remapping. -/
def Out.Remaps {α : Type} (t : Tensor) : Out α → Prop
  | .remapped u _ => u = t
  | _ => False

instance {α : Type} (t : Tensor) : DecidablePred (Out.Remaps (α := α) t)
  | .remapped _ _ => inferInstanceAs (Decidable (_ = _))
  | .dense | .fused _ | .skipped | .masked _ | .stock _ | .error _ => inferInstanceAs (Decidable False)

/-! ## Steps -/

/-- A fused tensor waits for its ranking. -/
structure Waits (st : State α) (p : Pending α) : Prop where
  code : st.code = true
  armed : st.armed = true
  pending : st.pending = some p

omit [LinearOrder α] in
lemma Waits.fuse (h : Waits st p) (f : Fuse α) :
    st.maybeFuse f = if f.gateOn then ({ st with pending := none }, .error .unranked) else (st, .dense) := by
  have hinst : st.install f = .ok st := if_pos h.code
  have hsome : st.pending.isSome := by rw [h.pending]; rfl
  rw [State.maybeFuse, hinst]
  dsimp only
  by_cases hg : f.gateOn = true
  · rw [if_neg (fun e => e (.inl hg)), if_neg (fun e => e hg), if_pos hsome, if_pos hg]
  · rw [if_neg hg, if_pos hg, ite_self]

omit [LinearOrder α] in
lemma Waits.mask (h : Waits st p) (t : Tensor) :
    st.applyMask t = if t = p.out then .skipped else .masked t := by
  rw [State.applyMask, h.armed, h.pending]

lemma Waits.rank (h : Waits st p) (t : Tensor) (m : Rank) :
    st.getTopk V t m = ({ st with pending := none },
      if t = p.out then .remapped t (p.batch.rank V m.cuda m.topkTokens m.maxSeqLen) else .error .unranked) := by
  rw [State.getTopk, h.armed, h.pending]
  dsimp only
  split
  · rfl
  · rfl

/-- A step that does not rank the tensor leaves it waiting, or raises. -/
lemma Waits.step (h : Waits st p) {c : Call α} (hc : ¬c.Ranks p.out) :
    (st.step V c).1 = st ∨ (st.step V c).2 = .error .unranked := by
  cases c with
  | mask t => exact .inl rfl
  | rank t m =>
    right
    have e : st.step V (.rank t m) = st.getTopk V t m := rfl
    rw [e, h.rank]
    exact if_neg hc
  | fuse f =>
    have e : st.step V (.fuse f) = st.maybeFuse f := rfl
    rw [e, h.fuse]
    split
    · exact .inr rfl
    · exact .inl rfl

/-- What holds of every state: a fused tensor waits only where the module is patched, and it has been
counted. -/
structure Inv (st : State α) : Prop where
  sorted : st.sorted ≠ none → st.armed = true
  waits : ∀ p, st.pending = some p → Waits st p
  counted : ∀ p, st.pending = some p → ∃ n < st.fresh, p.out = .fused n

omit [LinearOrder α] in
lemma Inv.start : Inv (State.start (α := α)) :=
  ⟨fun h => absurd rfl h, fun _ h => (nomatch h), fun _ h => (nomatch h)⟩

omit [LinearOrder α] in
/-- The record of what waits is cleared. -/
lemma Inv.clear (h : Inv st) : Inv ({ st with pending := none } : State α) :=
  ⟨h.sorted, fun _ h => (nomatch h), fun _ h => (nomatch h)⟩

omit [LinearOrder α] in
lemma Inv.install (h : Inv st) {f : Fuse α} {st' : State α} (e : st.install f = .ok st') :
    Inv st' ∧ st'.code = true ∧ st'.pending = st.pending ∧ st'.fresh = st.fresh := by
  rw [State.install] at e
  by_cases hcode : st.code = true
  · rw [if_pos hcode] at e
    cases e
    exact ⟨h, hcode, rfl, rfl⟩
  · rw [if_neg hcode] at e
    have hnone : ∀ p, st.pending ≠ some p := fun p hp => hcode (h.waits p hp).code
    split at e
    · cases e
    · split at e
      · cases e
      · split at e
        · cases e
        · split at e
          · cases e
            exact ⟨⟨fun _ => rfl, fun p hp => absurd hp (hnone p), fun p hp => absurd hp (hnone p)⟩, rfl, rfl, rfl⟩
          · cases e
            exact ⟨⟨h.sorted, fun p hp => absurd hp (hnone p), fun p hp => absurd hp (hnone p)⟩, rfl, rfl, rfl⟩

omit [LinearOrder α] in
lemma Fuse.sorted_of_batch {f : Fuse α} {sorted : Option Bool} {q : Batch α} (h : f.batch sorted = some q) :
    sorted = some true := by
  rw [Fuse.batch] at h
  split at h
  · cases h
  · split at h
    · cases h
    · rename_i hs
      exact not_not.mp hs

/-- What `maybe_fuse` can do: raise; leave the dense path, with what waits as it was; or record a new fused
tensor. -/
inductive FuseStep (st : State α) (f : Fuse α) : State α × Out α → Prop
  | error {st' : State α} {e : Error} :
    Inv st' →
    st'.fresh = st.fresh →
    st'.pending = st.pending ∨ st'.pending = none →
    FuseStep st f (st', .error e)
  | dense {st' : State α} :
    Inv st' →
    st'.fresh = st.fresh →
    st'.pending = st.pending →
    FuseStep st f (st', .dense)
  | fused {st' : State α} {p : Pending α} :
    Inv st' →
    st'.fresh = st.fresh + 1 →
    st'.pending = some p →
    p.out = .fused st.fresh →
    f.batch (some true) = some p.batch →
    FuseStep st f (st', .fused p)

omit [LinearOrder α] in
lemma Inv.maybeFuse (h : Inv st) (f : Fuse α) : FuseStep st f (st.maybeFuse f) := by
  rw [State.maybeFuse]
  split
  · exact .dense h rfl rfl
  · cases e : st.install f with
    | error e => exact .error h rfl (.inl rfl)
    | ok st' =>
      obtain ⟨h', hcode, hp, hfresh⟩ := h.install e
      dsimp only
      split
      · exact .dense h' hfresh hp
      · split
        · exact .error h'.clear hfresh (.inr rfl)
        · cases hq : f.batch st'.sorted with
          | none => exact .dense h' hfresh hp
          | some q =>
            have hsorted := Fuse.sorted_of_batch hq
            have harm := h'.sorted (by rw [hsorted]; exact Option.some_ne_none _)
            refine .fused ⟨fun _ => harm, fun p hp => ?_, fun p hp => ?_⟩ (congrArg (· + 1) hfresh) rfl
              (congrArg Tensor.fused hfresh) (hsorted ▸ hq)
            · exact ⟨hcode, harm, hp⟩
            · cases hp
              exact ⟨_, Nat.lt_succ_self _, rfl⟩

/-- A ranking clears what waits or finds nothing. -/
lemma State.getTopk_fst (st : State α) (V : Vllm α) (t : Tensor) (m : Rank) :
    (st.getTopk V t m).1 = st ∨ (st.getTopk V t m).1 = { st with pending := none } := by
  rw [State.getTopk]
  split
  · dsimp only
    split
    · exact .inr rfl
    · exact .inr rfl
  · exact .inl rfl

lemma State.of_remaps {t u : Tensor} {m : Rank} (h : (st.getTopk V t m).2.Remaps u) :
    ∃ p, st.pending = some p ∧ p.out = u := by
  rw [State.getTopk] at h
  split at h
  · rename_i p _ hp
    dsimp only at h
    split at h
    · rename_i e
      exact ⟨p, hp, e.symm.trans h⟩
    · cases h
  · cases h

theorem Inv.step (h : Inv st) (c : Call α) : Inv (st.step V c).1 := by
  cases c with
  | mask t => exact h
  | rank t m =>
    have e : st.step V (.rank t m) = st.getTopk V t m := rfl
    rw [e]
    obtain e | e := st.getTopk_fst V t m
    · rw [e]
      exact h
    · rw [e]
      exact h.clear
  | fuse f =>
    have e : st.step V (.fuse f) = st.maybeFuse f := rfl
    rw [e]
    have hstep := h.maybeFuse f
    generalize st.maybeFuse f = r at hstep
    cases hstep with
    | error h' _ _ => exact h'
    | dense h' _ _ => exact h'
    | fused h' _ _ _ _ => exact h'

lemma Inv.fresh_le (h : Inv st) (c : Call α) : st.fresh ≤ (st.step V c).1.fresh := by
  cases c with
  | mask t => exact Nat.le_refl _
  | rank t m =>
    have e : st.step V (.rank t m) = st.getTopk V t m := rfl
    rw [e]
    obtain e | e := st.getTopk_fst V t m
    · rw [e]
    · rw [e]
  | fuse f =>
    have e : st.step V (.fuse f) = st.maybeFuse f := rfl
    rw [e]
    have hstep := h.maybeFuse f
    generalize st.maybeFuse f = r at hstep
    cases hstep with
    | error _ hf _ => exact hf.ge
    | dense _ hf _ => exact hf.ge
    | fused _ hf _ _ _ => exact hf ▸ Nat.le_succ _

/-- What is remapped was waiting. -/
lemma State.pending_of_remaps {c : Call α} {t : Tensor} (hinv : Inv st) (h : (st.step V c).2.Remaps t) :
    ∃ p, st.pending = some p ∧ p.out = t := by
  cases c with
  | mask u =>
    have e : (st.step V (.mask u)).2 = st.applyMask u := rfl
    rw [e, State.applyMask] at h
    split at h
    · split at h
      · cases h
      · cases h
    · cases h
  | rank u m => exact State.of_remaps (V := V) h
  | fuse f =>
    have e : st.step V (.fuse f) = st.maybeFuse f := rfl
    rw [e] at h
    have hstep := hinv.maybeFuse f
    generalize st.maybeFuse f = r at hstep h
    cases hstep with
    | error _ _ _ => cases h
    | dense _ _ _ => cases h
    | fused _ _ _ _ _ => cases h

/-! ## Traces -/

variable {cs : List (Call α)} {x : Call α × Out α}

lemma State.trace_cons (st : State α) (c : Call α) (cs : List (Call α)) : st.trace V (c :: cs) =
    (c, (st.step V c).2) :: match (st.step V c).2 with
      | .error _ => []
      | _ => (st.step V c).1.trace V cs := rfl

/-- What follows a call in a trace: nothing behind an error. -/
lemma State.trace_tail {c : Call α} {tr : List (Call α × Out α)} (h : st.trace V (c :: cs) = x :: tr) :
    x = (c, (st.step V c).2) ∧
      ((∃ e, (st.step V c).2 = .error e) ∧ tr = [] ∨
        (∀ e, (st.step V c).2 ≠ .error e) ∧ tr = (st.step V c).1.trace V cs) := by
  rw [State.trace_cons, List.cons.injEq] at h
  obtain ⟨rfl, rfl⟩ := h
  refine ⟨rfl, ?_⟩
  cases (st.step V c).2 with
  | error e => exact .inl ⟨⟨e, rfl⟩, rfl⟩
  | dense => exact .inr ⟨fun _ h => (nomatch h), rfl⟩
  | fused p => exact .inr ⟨fun _ h => (nomatch h), rfl⟩
  | skipped => exact .inr ⟨fun _ h => (nomatch h), rfl⟩
  | masked t => exact .inr ⟨fun _ h => (nomatch h), rfl⟩
  | stock t => exact .inr ⟨fun _ h => (nomatch h), rfl⟩
  | remapped t idx => exact .inr ⟨fun _ h => (nomatch h), rfl⟩

/-- The state at an entry of a trace: what was remapped before had been counted. -/
lemma Inv.of_trace (h : Inv st) {pre post : List (Call α × Out α)} (ht : st.trace V cs = pre ++ x :: post) :
    ∃ st', Inv st' ∧ st.fresh ≤ st'.fresh ∧ x.2 = (st'.step V x.1).2 ∧
      ((∀ e, x.2 ≠ .error e) → ∃ cs', post = (st'.step V x.1).1.trace V cs') ∧
      ∀ y ∈ pre, ∀ n, y.2.Remaps (.fused n) → n < st'.fresh := by
  induction pre generalizing st cs with
  | nil =>
    cases cs with
    | nil => cases ht
    | cons c cs =>
      obtain ⟨rfl, htail⟩ := State.trace_tail ht
      refine ⟨st, h, Nat.le_refl _, rfl, fun hne => ?_, fun _ hy => absurd hy List.not_mem_nil⟩
      obtain ⟨⟨e, he⟩, _⟩ | ⟨_, e⟩ := htail
      · exact absurd he (hne e)
      · exact ⟨cs, e⟩
  | cons y pre ih =>
    cases cs with
    | nil => cases ht
    | cons c cs =>
      obtain ⟨rfl, htail⟩ := State.trace_tail ht
      obtain ⟨_, e⟩ | ⟨_, e⟩ := htail
      · exact absurd e (by simp)
      · obtain ⟨st', h', hle, hx, hpost, hpre⟩ := ih (h.step c) e.symm
        have hfresh := h.fresh_le (V := V) c
        refine ⟨st', h', hfresh.trans hle, hx, hpost, fun y hy n hn => ?_⟩
        obtain rfl | hy := List.mem_cons.mp hy
        · obtain ⟨p, hp, hout⟩ := State.pending_of_remaps h hn
          obtain ⟨m, hm, hout'⟩ := h.counted p hp
          have e : n = m := Tensor.fused.inj (hout.symm.trans hout')
          omega
        · exact hpre y hy n hn

/-- As long as the tensor is not ranked, each call meets the state in which it began to wait. -/
lemma Waits.of_trace (h : Waits st p) {a b : List (Call α × Out α)} (ht : st.trace V cs = a ++ x :: b)
    (ha : ∀ y ∈ a, ¬y.1.Ranks p.out) : x.2 = (st.step V x.1).2 := by
  induction a generalizing cs with
  | nil =>
    cases cs with
    | nil => cases ht
    | cons c cs =>
      obtain ⟨rfl, _⟩ := State.trace_tail ht
      rfl
  | cons y a ih =>
    cases cs with
    | nil => cases ht
    | cons c cs =>
      obtain ⟨rfl, htail⟩ := State.trace_tail ht
      obtain ⟨_, e⟩ | ⟨hne, e⟩ := htail
      · exact absurd e (by simp)
      · obtain hst | herr := h.step (V := V) (ha _ List.mem_cons_self)
        · rw [hst] at e
          exact ih e.symm fun y hy => ha y (List.mem_cons_of_mem _ hy)
        · exact absurd herr (hne _)

/-- A fused tensor that does not wait is not remapped any more. -/
lemma Inv.gone (h : Inv st) {n : ℕ} (hn : n < st.fresh) (hp : ∀ p, st.pending = some p → p.out ≠ .fused n) :
    (st.trace V cs).countP (·.2.Remaps (.fused n)) = 0 := by
  induction cs generalizing st with
  | nil => rfl
  | cons c cs ih =>
    have hnot : ¬(st.step V c).2.Remaps (.fused n) := fun hr => by
      obtain ⟨p, hpend, hout⟩ := State.pending_of_remaps h hr
      exact hp p hpend hout
    have hpend : ∀ p, (st.step V c).1.pending = some p → p.out ≠ .fused n := by
      intro p hpend
      cases c with
      | mask t => exact hp p hpend
      | rank t m =>
        have e : st.step V (.rank t m) = st.getTopk V t m := rfl
        rw [e] at hpend
        obtain e | e := st.getTopk_fst V t m
        · rw [e] at hpend
          exact hp p hpend
        · rw [e] at hpend
          cases hpend
      | fuse f =>
        have e : st.step V (.fuse f) = st.maybeFuse f := rfl
        rw [e] at hpend
        have hstep := h.maybeFuse f
        generalize st.maybeFuse f = r at hstep hpend
        cases hstep with
        | error _ _ hor =>
          obtain hor | hor := hor
          · exact hp p (hor.symm.trans hpend)
          · cases hor.symm.trans hpend
        | dense _ _ hsame => exact hp p (hsame.symm.trans hpend)
        | fused _ _ hnew hout _ =>
          cases hnew.symm.trans hpend
          rw [hout]
          exact fun e => Nat.lt_irrefl _ (Tensor.fused.inj e ▸ hn)
    have hrest := ih (h.step c) (Nat.lt_of_lt_of_le hn (h.fresh_le c)) hpend
    obtain ⟨_, ⟨_, e⟩ | ⟨_, e⟩⟩ := State.trace_tail (st.trace_cons c cs)
    · rw [State.trace_cons, e]
      exact List.countP_eq_zero.mpr fun y hy => by
        rw [List.mem_singleton] at hy
        rw [hy, decide_eq_true_eq]
        exact hnot
    · rw [State.trace_cons, e, List.countP_cons_of_neg (by rwa [decide_eq_true_eq]), hrest]

/-- A waiting tensor is remapped once if it is ever ranked. -/
lemma Waits.count (h : Waits st p) (hinv : Inv st) :
    (st.trace V cs).countP (·.2.Remaps p.out) =
      if ∃ x ∈ st.trace V cs, x.1.Ranks p.out then 1 else 0 := by
  obtain ⟨n, hn, hout⟩ := hinv.counted p h.pending
  induction cs with
  | nil => exact (if_neg fun ⟨_, hx, _⟩ => absurd hx List.not_mem_nil).symm
  | cons c cs ih =>
    by_cases hc : c.Ranks p.out
    · cases c with
      | mask t => cases hc
      | fuse f => cases hc
      | rank t m =>
        have hc : t = p.out := hc
        have e : st.step V (.rank t m) = st.getTopk V t m := rfl
        have hstep := h.rank (V := V) t m
        rw [if_pos hc] at hstep
        have hgone : (({ st with pending := none } : State α).trace V cs).countP (·.2.Remaps (.fused n)) = 0 :=
          hinv.clear.gone hn fun p hp => by cases hp
        rw [if_pos ⟨_, List.mem_cons_self, hc⟩, State.trace_cons, e, hstep]
        have hone : ∀ idx tr, List.countP (fun x : Call α × Out α => decide (x.2.Remaps p.out))
            ((.rank t m, .remapped t idx) :: tr) =
            List.countP (fun x : Call α × Out α => decide (x.2.Remaps p.out)) tr + 1 :=
          fun idx tr => List.countP_cons_of_pos (decide_eq_true hc)
        rw [hone, hout]
        exact congrArg (· + 1) hgone
    · have hnot : ¬(st.step V c).2.Remaps p.out := fun hr => by
        cases c with
        | mask t =>
          rw [show (st.step V (.mask t)).2 = st.applyMask t from rfl, h.mask] at hr
          split at hr
          · cases hr
          · cases hr
        | fuse f =>
          rw [show st.step V (.fuse f) = st.maybeFuse f from rfl, h.fuse] at hr
          split at hr
          · cases hr
          · cases hr
        | rank t m =>
          rw [show st.step V (.rank t m) = st.getTopk V t m from rfl, h.rank] at hr
          dsimp only at hr
          have hne : ¬t = p.out := hc
          rw [if_neg hne] at hr
          cases hr
      have hiff : ∀ tr : List (Call α × Out α), (∃ x ∈ (c, (st.step V c).2) :: tr, x.1.Ranks p.out) ↔
          ∃ x ∈ tr, x.1.Ranks p.out := fun tr => by
        rw [List.exists_mem_cons_iff]
        exact or_iff_right hc
      obtain ⟨_, ⟨_, e⟩ | ⟨hne, e⟩⟩ := State.trace_tail (st.trace_cons (V := V) c cs)
      · rw [State.trace_cons, e, List.countP_cons_of_neg (by rwa [decide_eq_true_eq])]
        exact (if_neg fun hx => by simpa using (hiff []).mp hx).symm
      · have hst := (h.step (V := V) hc).resolve_right (hne _)
        rw [State.trace_cons, e, List.countP_cons_of_neg (by rwa [decide_eq_true_eq]), hst, ih]
        exact if_congr (hiff _).symm rfl rfl

/-! ## Results -/

/-- A fused call, in any sequence of calls up to the first error. While its tensor is not ranked, the mask skips
it and leaves other tensors alone, another fused call raises, a ranking of it goes through the remapping, and a
ranking of another tensor raises. It goes through the remapping once if it is ranked, and never otherwise. What
it gives is what the call was given: in each row the largest positions in candidate blocks, each once and -1
elsewhere, which are the finite ones that dense logits, mask and top-k select. -/
theorem fused_ranked {pre post : List (Call α × Out α)} {f : Fuse α}
    (h : State.start.trace V cs = pre ++ (.fuse f, .fused p) :: post) :
    (∀ a x b, post = a ++ x :: b → (∀ y ∈ a, ¬y.1.Ranks p.out) →
      match x.1 with
      | .mask t => x.2 = if t = p.out then .skipped else .masked t
      | .rank t m => x.2 =
          if t = p.out then .remapped t (p.batch.rank V m.cuda m.topkTokens m.maxSeqLen) else .error .unranked
      | .fuse g => x.2 = if g.gateOn then .error .unranked else .dense) ∧
    ((State.start.trace V cs).countP (·.2.Remaps p.out) =
      if ∃ x ∈ post, x.1.Ranks p.out then 1 else 0) ∧
    f.batch (some true) = some p.batch ∧
    ∀ r, p.batch.Proper r → ∀ cuda k maxSeqLen, p.batch.cl r ≤ maxSeqLen →
      Selects k (p.batch.candidates r) (p.batch.logit r) (p.batch.rank V cuda k maxSeqLen r) ∧
      ∀ dense : ℕ → WithBot α, (∀ q < p.batch.hi r, dense q = p.batch.logit r q) →
        (picks (p.batch.rank V cuda k maxSeqLen r)).Perm
          ((picks (p.batch.rankDense V dense k maxSeqLen r)).filter fun q =>
            V.mask dense (p.batch.cl r) (p.batch.cand.ids r) p.batch.cand.width p.batch.bsz q ≠ ⊥) := by
  obtain ⟨st, hinv, _, hx, htail, hpre⟩ := Inv.start.of_trace h
  obtain ⟨cs', hpost⟩ := htail fun _ e => (nomatch e)
  have hx : (st.maybeFuse f).2 = .fused p := hx.symm
  have hst : (st.step V (.fuse f)).1 = (st.maybeFuse f).1 := rfl
  rw [hst] at hpost
  have hstep := hinv.maybeFuse f
  generalize st.maybeFuse f = s at hstep hx hpost
  cases hstep with
  | error _ _ _ => cases hx
  | dense _ _ _ => cases hx
  | @fused st' _ hinv' hfresh hpend hout hbatch =>
    cases hx
    have hwaits := hinv'.waits p hpend
    refine ⟨fun a x b e ha => ?_, ?_, hbatch, fun r hr cuda k maxSeqLen hm => ?_⟩
    · have hcall := hwaits.of_trace (hpost ▸ e) ha
      obtain ⟨c, o⟩ := x
      cases c with
      | mask t => exact hcall.trans (hwaits.mask t)
      | rank t m => exact hcall.trans (congrArg Prod.snd (hwaits.rank t m))
      | fuse g =>
        refine hcall.trans ((congrArg Prod.snd (hwaits.fuse g)).trans ?_)
        split
        · rfl
        · rfl
    · have hzero : pre.countP (·.2.Remaps p.out) = 0 := List.countP_eq_zero.mpr fun y hy => by
        rw [decide_eq_true_eq, hout]
        exact fun hr => Nat.lt_irrefl _ (hpre y hy _ hr)
      rw [h, List.countP_append, hzero, Nat.zero_add, List.countP_cons_of_neg (by exact Bool.false_ne_true),
        hpost]
      exact hwaits.count hinv'
    · exact ⟨hr.rank_selects hm cuda, fun dense hd => hr.rank_perm hm cuda hd⟩

/-- A call with one row of length 5: of its blocks of two positions, the last and the first are candidates. -/
def sample : Fuse ℕ where
  gateOn := true
  selOn := false
  capturing := false
  tailMatches := true
  scoresMatch := true
  candsSorted := true
  loc := some {
    candidateBlocks := some { rows := 1, width := 2, ids := fun _ i => if i = 0 then 2 else 0 }
    candidateWrite := false
    deepSelect := false
    dcpWorldSize := 1
    blockSize := 2 }
  native := false
  rows := 1
  numel := 1
  tableRows := 1
  hasConfig := true
  cl := fun _ => 5
  logit := fun _ p => 9 - p
  tuning := ⟨16, 1, 2, Nat.succ_pos 15, Nat.succ_pos 0, Nat.succ_pos 1⟩
  blank := fun _ => ⊥

/-- What it scores. -/
def sampleBatch : Batch ℕ where
  rows := 1
  cl := sample.cl
  cand := { rows := 1, width := 2, ids := fun _ i => if i = 0 then 2 else 0 }
  bsz := 2
  logit := sample.logit
  tuning := sample.tuning
  blank := sample.blank

lemma sampleBatch_proper : sampleBatch.Proper 0 := by
  constructor
  case row => exact Nat.zero_lt_one
  case nonneg => decide
  case bsz_pos => exact Nat.zero_lt_two
  case block => decide
  case inj => decide
  case pad =>
    intro i hlo hi
    exact absurd hi (Nat.not_lt.mpr hlo)
  case distinct => decide

theorem sample_ranked :
    (State.start.trace Vllm.sorting [.fuse sample, .mask (.fused 0),
      .rank (.fused 0) ⟨true, 2, 7⟩]).countP (·.2.Remaps (.fused 0)) = 1 ∧
    Selects 2 (sampleBatch.candidates 0) (sampleBatch.logit 0) (sampleBatch.rank Vllm.sorting true 2 7 0) := by
  have htrace : State.start.trace Vllm.sorting [.fuse sample, .mask (.fused 0), .rank (.fused 0) ⟨true, 2, 7⟩] =
      [] ++ (.fuse sample, .fused ⟨.fused 0, sampleBatch⟩) :: [(.mask (.fused 0), .skipped),
        (.rank (.fused 0) ⟨true, 2, 7⟩, .remapped (.fused 0) (sampleBatch.rank Vllm.sorting true 2 7))] := rfl
  obtain ⟨_, hcount, _, hsel⟩ := fused_ranked htrace
  refine ⟨hcount.trans (if_pos ⟨_, List.mem_cons_of_mem _ List.mem_cons_self, rfl⟩), ?_⟩
  exact (hsel 0 sampleBatch_proper true 2 7 (by decide)).1

/-- The record says nothing of a tensor that has been ranked: ranked again it goes to vLLM's top-k without the
remapping, and vLLM masks it. -/
theorem sample_reranked : ∃ idx, State.start.trace Vllm.sorting
      [.fuse sample, .rank (.fused 0) ⟨true, 2, 7⟩, .rank (.fused 0) ⟨true, 2, 7⟩, .mask (.fused 0)] =
    [(.fuse sample, .fused ⟨.fused 0, sampleBatch⟩), (.rank (.fused 0) ⟨true, 2, 7⟩, .remapped (.fused 0) idx),
      (.rank (.fused 0) ⟨true, 2, 7⟩, .stock (.fused 0)), (.mask (.fused 0), .masked (.fused 0))] := ⟨_, rfl⟩

end SuffixHybrid.Dsa
