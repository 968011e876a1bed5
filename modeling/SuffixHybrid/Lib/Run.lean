import Mathlib.Order.Lattice
import Mathlib.Order.MinMax
import Mathlib.Tactic.Common

/-!
# Runs of a partial step function

A step function `σ → α → Option σ` is partial where the program aborts. A run is the fold of the
steps over a list of inputs; an invariant that every step keeps, and under which every step is
defined, holds after every run. `Along` states a property of every step of a run.
-/

namespace Lib
variable {σ α : Type}

/-- The state after a list of inputs, `none` where a step aborts. -/
def run (step : σ → α → Option σ) (s : σ) (as : List α) : Option σ := as.foldlM step s

@[simp] lemma run_nil (step : σ → α → Option σ) (s : σ) : run step s [] = some s := rfl

@[simp] lemma run_cons (step : σ → α → Option σ) (s : σ) (a : α) (as : List α) :
    run step s (a :: as) = (step s a).bind fun s' => run step s' as := rfl

lemma run_append (step : σ → α → Option σ) (s : σ) (as bs : List α) :
    run step s (as ++ bs) = (run step s as).bind fun s' => run step s' bs := by
  simp only [run, List.foldlM_append]
  rfl

/-- What no step of a fold changes, the fold does not change. -/
theorem foldl_view {γ : Type} (view : σ → γ) {f : σ → α → σ} (h : ∀ s a, view (f s a) = view s)
    (as : List α) (s : σ) : view (as.foldl f s) = view s := by
  induction as generalizing s with
  | nil => rfl
  | cons a as ih => exact (ih (f s a)).trans (h s a)

/-- A loop over the numbers from `a` on: what holds before the first and is kept by each holds behind the
last. -/
theorem foldl_range'_inv {P : ℕ → σ → Prop} {f : σ → ℕ → σ} (m : ℕ) {a : ℕ} {s : σ} (h0 : P a s)
    (hstep : ∀ i s, a ≤ i → i < a + m → P i s → P (i + 1) (f s i)) :
    P (a + m) ((List.range' a m).foldl f s) := by
  induction m generalizing a s with
  | zero => exact h0
  | succ m ih =>
    rw [List.range'_succ, List.foldl_cons]
    have e : a + (m + 1) = a + 1 + m := by omega
    rw [e] at hstep ⊢
    exact ih (hstep a s (Nat.le_refl a) (by omega) h0) fun i s hi => hstep i s (by omega)

/-- The same from 0 on. -/
theorem foldl_range_inv {P : ℕ → σ → Prop} {f : σ → ℕ → σ} {m : ℕ} {s : σ} (h0 : P 0 s)
    (hstep : ∀ i s, i < m → P i s → P (i + 1) (f s i)) : P m ((List.range m).foldl f s) := by
  rw [List.range_eq_range']
  have h := foldl_range'_inv m h0 fun i s _ hi => hstep i s (by omega)
  rwa [Nat.zero_add] at h

/-- The same over the elements of a list and their places. -/
theorem foldl_zipIdx_inv {P : ℕ → σ → Prop} {f : σ → α × ℕ → σ} {l : List α} {k : ℕ} {s : σ} (h0 : P k s)
    (hstep : ∀ i a s, l[i]? = some a → P (k + i) s → P (k + i + 1) (f s (a, k + i))) :
    P (k + l.length) ((l.zipIdx k).foldl f s) := by
  induction l generalizing k s with
  | nil => exact h0
  | cons a l ih =>
    rw [List.zipIdx_cons, List.foldl_cons, List.length_cons, Nat.add_comm l.length, ← Nat.add_assoc]
    refine ih (hstep 0 a s rfl h0) fun i b s hb hP => ?_
    have hi : k + 1 + i = k + (i + 1) := by omega
    rw [hi] at hP ⊢
    exact hstep (i + 1) b s hb hP

/-- A loop that keeps the largest value is below what bounds all of them. -/
lemma foldl_max_le_iff {β : Type} [LinearOrder β] {f : α → β} {l : List α} {a b : β} :
    l.foldl (fun m j => max m (f j)) a ≤ b ↔ a ≤ b ∧ ∀ j ∈ l, f j ≤ b := by
  induction l generalizing a with
  | nil => simp
  | cons i l ih => rw [List.foldl_cons, ih, max_le_iff, and_assoc, List.forall_mem_cons]

/-- A loop that keeps the smallest value is above what bounds all of them. -/
lemma le_foldl_min_iff {β : Type} [LinearOrder β] {f : α → β} {l : List α} {a b : β} :
    b ≤ l.foldl (fun m j => min m (f j)) a ↔ b ≤ a ∧ ∀ j ∈ l, b ≤ f j := by
  induction l generalizing a with
  | nil => simp
  | cons i l ih => rw [List.foldl_cons, ih, le_min_iff, and_assoc, List.forall_mem_cons]

/-- A loop unrolled over `w` and masked past `n`. -/
theorem foldl_range_masked {n w : ℕ} (h : n ≤ w) (f : σ → ℕ → σ) (s : σ) :
    (List.range w).foldl (fun s t => if t < n then f s t else s) s = (List.range n).foldl f s := by
  obtain ⟨k, rfl⟩ := Nat.exists_eq_add_of_le h
  induction k with
  | zero =>
    refine foldl_range_inv (P := fun i s' => s' = (List.range i).foldl f s) rfl fun i s' hi e => ?_
    have hi : i < n := hi
    rw [if_pos hi, List.range_succ, List.foldl_append, e]
    rfl
  | succ k ih =>
    rw [← Nat.add_assoc, List.range_succ, List.foldl_append, ih (by omega)]
    exact if_neg (by omega)

/-- An invariant under which every step is defined: the run ends, in the invariant. -/
theorem run_total {step : σ → α → Option σ} {Inv : σ → Prop}
    (hstep : ∀ s a, Inv s → ∃ s', step s a = some s' ∧ Inv s') {s : σ} (hs : Inv s)
    (as : List α) : ∃ s', run step s as = some s' ∧ Inv s' := by
  induction as generalizing s with
  | nil => exact ⟨s, rfl, hs⟩
  | cons a as ih =>
    obtain ⟨s1, e1, h1⟩ := hstep s a hs
    obtain ⟨s2, e2, h2⟩ := ih h1
    exact ⟨s2, by simp [e1, e2], h2⟩

/-- An invariant that defined steps keep holds after a run that ends. -/
theorem run_inv {step : σ → α → Option σ} {Inv : σ → Prop}
    (hstep : ∀ s a s', Inv s → step s a = some s' → Inv s') {s s' : σ} (hs : Inv s)
    {as : List α} (h : run step s as = some s') : Inv s' := by
  induction as generalizing s with
  | nil => cases h; exact hs
  | cons a as ih =>
    rw [run_cons, Option.bind_eq_some_iff] at h
    obtain ⟨s1, e1, h1⟩ := h
    exact ih (hstep s a s1 hs e1) h1

/-- Two runs over the same inputs, under a relation that the steps keep: both end, in the relation. -/
theorem run_rel {τ : Type} {step : σ → α → Option σ} {step' : τ → α → Option τ} {R : σ → τ → Prop}
    (hstep : ∀ s t a, R s t → ∃ s' t', step s a = some s' ∧ step' t a = some t' ∧ R s' t') {s : σ}
    {t : τ} (h : R s t) (as : List α) :
    ∃ s' t', run step s as = some s' ∧ run step' t as = some t' ∧ R s' t' := by
  induction as generalizing s t with
  | nil => exact ⟨s, t, rfl, rfl, h⟩
  | cons a as ih =>
    obtain ⟨s1, t1, es, et, h1⟩ := hstep s t a h
    obtain ⟨s2, t2, es', et', h2⟩ := ih h1
    exact ⟨s2, t2, by simp [es, es'], by simp [et, et'], h2⟩

/-- `P` holds of every step of a run, at the state in which the step is taken. -/
def Along (step : σ → α → Option σ) (P : σ → α → Prop) : σ → List α → Prop
  | _, [] => True
  | s, a :: as => P s a ∧ ∀ s', step s a = some s' → Along step P s' as

instance Along.decidable {step : σ → α → Option σ} {P : σ → α → Prop} [∀ s a, Decidable (P s a)] :
    ∀ (s : σ) (as : List α), Decidable (Along step P s as)
  | _, [] => isTrue trivial
  | s, a :: as =>
    match h : step s a with
    | none => decidable_of_iff (P s a) (by simp [Along, h])
    | some s' =>
      have : Decidable (Along step P s' as) := Along.decidable s' as
      decidable_of_iff (P s a ∧ Along step P s' as) (by simp [Along, h])

/-- An invariant that the steps with `P` keep, and under which they have `Q`. -/
theorem Along.imp {step : σ → α → Option σ} {Inv : σ → Prop} {P Q : σ → α → Prop}
    (hstep : ∀ s a, Inv s → P s a → Q s a ∧ ∀ s', step s a = some s' → Inv s') {s : σ} (hs : Inv s)
    {as : List α} (h : Along step P s as) : Along step Q s as := by
  induction as generalizing s with
  | nil => trivial
  | cons a as ih =>
    obtain ⟨hP, hrest⟩ := h
    obtain ⟨hQ, hinv⟩ := hstep s a hs hP
    exact ⟨hQ, fun s' hs' => ih (hinv s' hs') (hrest s' hs')⟩

/-- An invariant under which the steps with `P` are defined: the run ends, in the invariant. -/
theorem Along.total {step : σ → α → Option σ} {Inv : σ → Prop} {P : σ → α → Prop}
    (hstep : ∀ s a, Inv s → P s a → ∃ s', step s a = some s' ∧ Inv s') {s : σ} (hs : Inv s)
    {as : List α} (h : Along step P s as) : ∃ s', run step s as = some s' ∧ Inv s' := by
  induction as generalizing s with
  | nil => exact ⟨s, rfl, hs⟩
  | cons a as ih =>
    obtain ⟨s1, e1, h1⟩ := hstep s a hs h.1
    obtain ⟨s2, e2, h2⟩ := ih h1 (h.2 s1 e1)
    exact ⟨s2, by simp [e1, e2], h2⟩

/-- Under an invariant that the steps with `R` keep, two properties that agree at a step agree along a
run. -/
theorem Along.iff {step : σ → α → Option σ} {Inv : σ → Prop} {P Q R : σ → α → Prop}
    (hstep : ∀ s a, Inv s → R s a → (P s a ↔ Q s a) ∧ ∀ s', step s a = some s' → Inv s') {s : σ}
    (hs : Inv s) {as : List α} (h : Along step R s as) : Along step P s as ↔ Along step Q s as := by
  induction as generalizing s with
  | nil => exact Iff.rfl
  | cons a as ih =>
    obtain ⟨hR, hrest⟩ := h
    obtain ⟨hPQ, hinv⟩ := hstep s a hs hR
    simp only [Along, hPQ]
    refine and_congr_right fun _ => forall_congr' fun s' => ?_
    refine imp_congr_right fun hs' => ih (hinv s' hs') (hrest s' hs')

/-- Two properties that agree at a step under an invariant, which the steps with them keep, agree along
a run. -/
theorem Along.iff_of_inv {step : σ → α → Option σ} {Inv : σ → Prop} {P Q : σ → α → Prop}
    (hstep : ∀ s a, Inv s → (P s a ↔ Q s a) ∧ (P s a → ∀ s', step s a = some s' → Inv s')) {s : σ}
    (hs : Inv s) (as : List α) : Along step P s as ↔ Along step Q s as := by
  induction as generalizing s with
  | nil => exact Iff.rfl
  | cons a as ih =>
    obtain ⟨hPQ, hinv⟩ := hstep s a hs
    rw [Along, Along, ← hPQ]
    refine and_congr_right fun hP => forall_congr' fun s' => ?_
    exact imp_congr_right fun hs' => ih (hinv hP s' hs')

lemma Along.mono {step : σ → α → Option σ} {P Q : σ → α → Prop} (hPQ : ∀ s a, P s a → Q s a) {s : σ}
    {as : List α} (h : Along step P s as) : Along step Q s as :=
  Along.imp (fun s a (_ : True) hP => ⟨hPQ s a hP, fun _ _ => trivial⟩) trivial h

/-- An invariant that the steps with `P` keep holds after the run. -/
lemma Along.inv {step : σ → α → Option σ} {Inv : σ → Prop} {P : σ → α → Prop}
    (hstep : ∀ s a s', Inv s → P s a → step s a = some s' → Inv s') {s s' : σ} (hs : Inv s)
    {as : List α} (h : Along step P s as) (hrun : run step s as = some s') : Inv s' := by
  induction as generalizing s with
  | nil =>
    cases hrun
    exact hs
  | cons a as ih =>
    rw [run_cons, Option.bind_eq_some_iff] at hrun
    obtain ⟨s1, h1, hrest⟩ := hrun
    exact ih (hstep s a s1 hs h.1 h1) (h.2 s1 h1) hrest

/-- A run in two parts. -/
lemma Along.append {step : σ → α → Option σ} {P : σ → α → Prop} {s : σ} {as bs : List α} :
    Along step P s (as ++ bs) ↔
      Along step P s as ∧ ∀ s', run step s as = some s' → Along step P s' bs := by
  induction as generalizing s with
  | nil => simp [Along]
  | cons a as ih =>
    simp only [List.cons_append, Along, ih, run_cons, Option.bind_eq_some_iff, and_assoc]
    refine and_congr_right fun _ => ⟨fun h => ⟨fun s' hs' => (h s' hs').1, ?_⟩, fun h s' hs' => ?_⟩
    · rintro s' ⟨s1, h1, hrest⟩
      exact (h s1 h1).2 s' hrest
    · exact ⟨h.1 s' hs', fun s'' hrest => h.2 s'' ⟨s', hs', hrest⟩⟩

/-- The last step of a run. -/
lemma Along.last {step : σ → α → Option σ} {P : σ → α → Prop} {s s' : σ} {as : List α} {a : α}
    (h : Along step P s (as ++ [a])) (hrun : run step s as = some s') : P s' a :=
  ((Along.append.mp h).2 s' hrun).1

lemma Along.and {step : σ → α → Option σ} {P Q : σ → α → Prop} {s : σ} {as : List α}
    (h : Along step P s as) (h' : Along step Q s as) : Along step (fun s a => P s a ∧ Q s a) s as := by
  induction as generalizing s with
  | nil => trivial
  | cons a as ih => exact ⟨⟨h.1, h'.1⟩, fun s' hs' => ih (h.2 s' hs') (h'.2 s' hs')⟩

/-- A property of every input, at whatever state. -/
lemma Along.of_forall {step : σ → α → Option σ} {P : σ → α → Prop} {as : List α}
    (h : ∀ s, ∀ a ∈ as, P s a) {s : σ} : Along step P s as := by
  induction as generalizing s with
  | nil => trivial
  | cons a as ih =>
    exact ⟨h s a (by simp), fun s' _ => ih fun s a ha => h s a (List.mem_cons_of_mem _ ha)⟩

/-- A counter that every step of a run increments counts its steps. -/
lemma Along.count_run {step : σ → α → Option σ} {count : σ → ℕ} {s : σ} {as : List α}
    (h : Along step (fun s a => ∃ s', step s a = some s' ∧ count s' = count s + 1) s as) :
    ∃ s', run step s as = some s' ∧ count s' = count s + as.length := by
  induction as generalizing s with
  | nil => exact ⟨s, rfl, rfl⟩
  | cons a as ih =>
    obtain ⟨s1, h1, hcount⟩ := h.1
    obtain ⟨s2, h2, hcount'⟩ := ih (h.2 s1 h1)
    refine ⟨s2, by simp [h1, h2], ?_⟩
    rw [hcount', hcount, List.length_cons]
    omega

/-- A counter that every step of a run increments, and a property of the steps that take it to a multiple
of `n`: within `n` steps there is one with the property. -/
lemma Along.exists_of_period {step : σ → α → Option σ} {P : σ → α → Prop} {count : σ → ℕ} {n : ℕ}
    (hn : 0 < n) {s : σ} {as : List α} (h : Along step (fun s a =>
      (∃ s', step s a = some s' ∧ count s' = count s + 1) ∧ (n ∣ count s + 1 → P s a)) s as)
    (hlen : n ≤ as.length) : ∃ before a after s', as = before ++ a :: after ∧ before.length < n ∧
      run step s before = some s' ∧ P s' a := by
  -- by induction on the number of steps before the next multiple
  have hnext (r : ℕ) {s : σ} {as : List α} (h : Along step (fun s a =>
      (∃ s', step s a = some s' ∧ count s' = count s + 1) ∧ (n ∣ count s + 1 → P s a)) s as)
      (hdvd : n ∣ count s + 1 + r) (hr : r < as.length) : ∃ before a after s',
      as = before ++ a :: after ∧ before.length = r ∧ run step s before = some s' ∧ P s' a := by
    induction r generalizing s as with
    | zero =>
      obtain ⟨a, rest, rfl⟩ := List.exists_cons_of_length_pos hr
      exact ⟨[], a, rest, s, rfl, rfl, rfl, h.1.2 hdvd⟩
    | succ r ih =>
      obtain ⟨a, rest, rfl⟩ := List.exists_cons_of_length_pos (Nat.zero_lt_of_lt hr)
      obtain ⟨⟨s1, h1, hcount⟩, _⟩ := h.1
      have hdvd1 : n ∣ count s1 + 1 + r := by
        rw [hcount]
        rwa [show count s + 1 + (r + 1) = count s + 1 + 1 + r by omega] at hdvd
      obtain ⟨before, b, after, s', rfl, hbefore, hrun, hP⟩ := ih (h.2 s1 h1) hdvd1
        (by simpa using hr)
      exact ⟨a :: before, b, after, s', rfl, by simp [hbefore], by simp [h1, hrun], hP⟩
  have hmod := Nat.mod_lt (count s) hn
  have hdvd : n ∣ count s + 1 + (n - 1 - count s % n) := by
    have hsum : count s + 1 + (n - 1 - count s % n) = n * (count s / n) + n := by
      have hdiv := Nat.div_add_mod (count s) n
      omega
    rw [hsum]
    exact Nat.dvd_add (Nat.dvd_mul_right _ _) (Nat.dvd_refl n)
  obtain ⟨before, a, after, s', heq, hbefore, hrun, hP⟩ := hnext _ h hdvd (by omega)
  exact ⟨before, a, after, s', heq, by omega, hrun, hP⟩

/-- The step function on states that remember the last input. -/
def remembering (step : σ → α → Option σ) (s : σ × Option α) (a : α) : Option (σ × Option α) :=
  (step s.1 a).map fun s' => (s', some a)

/-- A property of the steps of a run is one of the run that remembers its inputs. -/
lemma Along.remembering {step : σ → α → Option σ} {P : σ → α → Prop} {s : σ} {as : List α}
    (h : Along step P s as) (last : Option α) :
    Along (Lib.remembering step) (fun s a => P s.1 a) (s, last) as := by
  induction as generalizing s last with
  | nil => trivial
  | cons a as ih =>
    refine ⟨h.1, fun s' hs' => ?_⟩
    obtain ⟨s1, h1, rfl⟩ := Option.map_eq_some_iff.mp hs'
    exact ih (h.2 s1 h1) (some a)

/-- What the steps of a run leave in a log, in order. -/
def collect {β : Type} (step : σ → α → Option σ) (entries : σ → α → List β) : σ → List α → List β
  | _, [] => []
  | s, a :: as => entries s a ++ match step s a with
    | none => []
    | some s' => collect step entries s' as

@[simp] lemma collect_nil {β : Type} (step : σ → α → Option σ) (entries : σ → α → List β) (s : σ) :
    collect step entries s [] = [] := rfl

lemma collect_cons {β : Type} {step : σ → α → Option σ} (entries : σ → α → List β) {s s' : σ} {a : α}
    (h : step s a = some s') (as : List α) :
    collect step entries s (a :: as) = entries s a ++ collect step entries s' as := by
  simp [collect, h]

end Lib
