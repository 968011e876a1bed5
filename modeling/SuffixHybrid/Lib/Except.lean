import Mathlib.Data.List.Forall2
import Mathlib.Tactic.Common

/-!
# Computations that fail

What a chain of fallible steps has done when it succeeds: `bind_eq_ok` takes one step off it, and a
successful `mapM` has succeeded on every element (`mapM_eq_ok`, `mapM_some`).
-/

namespace Lib
variable {ε α β : Type}

lemma bind_eq_ok {x : Except ε α} {f : α → Except ε β} {b : β} :
    (x >>= f) = .ok b ↔ ∃ a, x = .ok a ∧ f a = .ok b := by
  cases x with
  | error e => simp [bind, Except.bind]
  | ok a => simp [bind, Except.bind]

lemma pure_eq_ok {a b : α} : (pure a : Except ε α) = .ok b ↔ a = b := by
  simp [pure, Except.pure]

lemma ite_error_eq_ok {c : Prop} [Decidable c] {e : ε} {x : Except ε α} {a : α} :
    (if c then .error e else x) = .ok a ↔ ¬c ∧ x = .ok a := by
  split_ifs with h <;> simp [h]

lemma mapM_eq_ok {f : α → Except ε β} {l : List α} {r : List β} :
    l.mapM f = .ok r ↔ List.Forall₂ (fun a b => f a = .ok b) l r := by
  induction l generalizing r with
  | nil => rw [List.mapM_nil, pure_eq_ok, List.forall₂_nil_left_iff, eq_comm]
  | cons a l ih =>
    rw [List.mapM_cons]
    simp only [bind_eq_ok, pure_eq_ok, ih]
    constructor
    · rintro ⟨b, hb, bs, hbs, rfl⟩
      exact .cons hb hbs
    · intro h
      cases h with
      | cons hb hbs => exact ⟨_, hb, _, hbs, rfl⟩

/-- Steps that all have a value. -/
lemma mapM_some {f : α → Option β} {g : α → β} {l : List α} (h : ∀ a ∈ l, f a = some (g a)) :
    l.mapM f = some (l.map g) := by
  induction l with
  | nil => rfl
  | cons a l ih =>
    rw [List.mapM_cons, h a List.mem_cons_self, ih fun b hb => h b (List.mem_cons_of_mem a hb)]
    rfl

/-- What a `mapM` returns comes from its elements. -/
lemma exists_of_mem_mapM {f : α → Except ε β} {l : List α} {r : List β} (h : l.mapM f = .ok r) {b : β} (hb : b ∈ r) :
    ∃ a ∈ l, f a = .ok b := by
  have hall := mapM_eq_ok.1 h
  clear h
  induction hall with
  | nil => cases hb
  | cons ha _ ih =>
    obtain rfl | hb := List.mem_cons.1 hb
    · exact ⟨_, List.mem_cons_self, ha⟩
    · obtain ⟨a, hmem, ha⟩ := ih hb
      exact ⟨a, List.mem_cons_of_mem _ hmem, ha⟩

/-- What a `mapM` returns has an entry for each element. -/
lemma exists_of_mapM_mem {f : α → Except ε β} {l : List α} {r : List β} (h : l.mapM f = .ok r) {a : α} (ha : a ∈ l) :
    ∃ b ∈ r, f a = .ok b := by
  have hall := mapM_eq_ok.1 h
  clear h
  induction hall with
  | nil => cases ha
  | cons hb _ ih =>
    obtain rfl | ha := List.mem_cons.1 ha
    · exact ⟨_, List.mem_cons_self, hb⟩
    · obtain ⟨b, hmem, hb⟩ := ih ha
      exact ⟨b, List.mem_cons_of_mem _ hmem, hb⟩

/-- A loop over pairs, where the second of each pair may be exchanged. -/
lemma mapM_zip_congr {γ : Type} {f : α × β → Except ε γ} {l : List α} {r r' : List β} (hr : r.length = r'.length)
    (h : ∀ (i : ℕ) a b b', l[i]? = some a → r[i]? = some b → r'[i]? = some b' → f (a, b) = f (a, b')) :
    (l.zip r).mapM f = (l.zip r').mapM f := by
  induction l generalizing r r' with
  | nil => rfl
  | cons a l ih =>
    match r, r', hr with
    | [], [], _ => rfl
    | b :: r, b' :: r', hr =>
      rw [List.zip_cons_cons, List.zip_cons_cons, List.mapM_cons, List.mapM_cons, h 0 a b b' rfl rfl rfl,
        ih (Nat.succ.inj hr) fun i => h (i + 1)]

/-- When a step can only return `g a`, the list returned is the image under `g`. -/
lemma mapM_eq_map {f : α → Except ε β} {g : α → β} (hf : ∀ {a b}, f a = .ok b → g a = b) {l : List α}
    {r : List β} (h : l.mapM f = .ok r) : l.map g = r := by
  rw [← List.forall₂_eq_eq_eq, List.forall₂_map_left_iff]
  exact (mapM_eq_ok.1 h).imp fun _ _ => hf

/-- A loop that takes each state of a sequence to the next one. -/
lemma foldlM_range_ok {σ : Type} {f : σ → ℕ → Except ε σ} (st : ℕ → σ) {m : ℕ}
    (h : ∀ i < m, f (st i) i = .ok (st (i + 1))) : (List.range m).foldlM f (st 0) = .ok (st m) := by
  induction m with
  | zero => rfl
  | succ m ih =>
    rw [List.range_succ, List.foldlM_append, ih fun i hi => h i (Nat.lt_succ_of_lt hi), bind_eq_ok]
    refine ⟨st m, rfl, ?_⟩
    rw [List.foldlM_cons, h m (Nat.lt_succ_self m)]
    rfl

end Lib
