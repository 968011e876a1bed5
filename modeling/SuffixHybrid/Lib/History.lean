import SuffixHybrid.Lib.Run

/-!
# What the entries of a log say about their past

`History Q log` states of every entry of a log a property of the entries before it. A log that grows at
its end keeps it when the new entries have the property of the log so far.
-/

namespace Lib
variable {ε : Type}

/-- Every entry of a log has the property `Q` of the entries before it. -/
def History (Q : List ε → ε → Prop) (log : List ε) : Prop :=
  ∀ pre e post, log = pre ++ e :: post → Q pre e

namespace History
variable {Q Q' : List ε → ε → Prop} {log log' : List ε} {e : ε}

lemma nil : History Q [] := by
  intro pre e post h
  exact absurd h (by simp)

/-- A new entry. -/
lemma snoc (h : History Q log) (he : Q log e) : History Q (log ++ [e]) := by
  intro pre e' post heq
  rw [List.append_eq_append_iff] at heq
  obtain ⟨mid, rfl, hmid⟩ | ⟨mid, rfl, hmid⟩ := heq
  · cases mid with
    | nil =>
      cases hmid
      simpa using he
    | cons a mid =>
      simp at hmid
  · cases mid with
    | nil =>
      cases hmid
      simpa using he
    | cons a mid =>
      obtain ⟨rfl, rfl⟩ := List.cons.inj hmid
      exact h pre _ mid rfl

/-- New entries about which there is nothing to say. -/
lemma append (h : History Q log) (he : ∀ e ∈ log', ∀ pre, Q pre e) : History Q (log ++ log') := by
  induction log' generalizing log with
  | nil => rwa [List.append_nil]
  | cons e log' ih =>
    rw [List.append_cons]
    refine ih (h.snoc (he e List.mem_cons_self log)) fun e' he' => ?_
    exact he e' (List.mem_cons_of_mem _ he')

end History

/-- What the steps of a run with `P` keep of the state and the log holds of the whole run. -/
theorem collect_inv {σ α : Type} {step : σ → α → Option σ} {entries : σ → α → List ε}
    {P : σ → α → Prop} {Inv : σ → List ε → Prop}
    (hstep : ∀ s a s' l, Inv s l → P s a → step s a = some s' → Inv s' (l ++ entries s a)) {s s' : σ}
    {l : List ε} (hs : Inv s l) {as : List α} (h : Along step P s as)
    (hrun : run step s as = some s') : Inv s' (l ++ collect step entries s as) := by
  induction as generalizing s l with
  | nil =>
    cases hrun
    rwa [collect_nil, List.append_nil]
  | cons a as ih =>
    rw [run_cons, Option.bind_eq_some_iff] at hrun
    obtain ⟨s1, h1, hrest⟩ := hrun
    rw [collect_cons entries h1, ← List.append_assoc]
    exact ih (hstep s a s1 l hs h.1 h1) (h.2 s1 h1) hrest

end Lib
