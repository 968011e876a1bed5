import Mathlib.Tactic.Common

/-!
# FIFO streams

Operations are enqueued on a stream and complete in the order in which they were enqueued. An event that is
recorded on the stream is the number of operations before it, and has completed once that many have.
-/

namespace Lib

/-- What has been enqueued on a stream, in order, and how much of it has completed. -/
structure Fifo (α : Type) where
  log : List α
  done : ℕ

namespace Fifo
variable {α β γ : Type}

/-- A stream on which nothing has been enqueued. -/
def empty : Fifo α := ⟨[], 0⟩

/-- One operation more. -/
def enqueue (q : Fifo α) (a : α) : Fifo α := { q with log := q.log ++ [a] }

/-- The next operation completes. -/
def complete (q : Fifo α) : Fifo α := { q with done := q.done + 1 }

/-- The event that is recorded behind everything enqueued so far. -/
def record (q : Fifo α) : ℕ := q.log.length

/-- What the completed operations have made of a memory. -/
def landed (land : β → α → β) (mem : β) (q : Fifo α) : β := (q.log.take q.done).foldl land mem

lemma length_enqueue (q : Fifo α) (a : α) : (q.enqueue a).log.length = q.log.length + 1 := by
  simp [enqueue]

lemma getElem?_enqueue {q : Fifo α} {a b : α} {i : ℕ} (h : (q.enqueue a).log[i]? = some b) :
    q.log[i]? = some b ∨ i = q.log.length ∧ b = a := by
  rw [enqueue, List.getElem?_append] at h
  split at h
  case isTrue => exact Or.inl h
  case isFalse hle =>
    obtain ⟨hlt, rfl⟩ := List.getElem?_eq_some_iff.mp h
    rw [List.length_singleton] at hlt
    exact Or.inr ⟨by omega, by simp⟩

lemma mem_enqueue {q : Fifo α} {a b : α} : b ∈ (q.enqueue a).log ↔ b ∈ q.log ∨ b = a := by
  simp [enqueue]

/-- A completed operation decides what a part of the memory holds if no later one touches that part. -/
lemma landed_view (land : β → α → β) (mem : β) {q : Fifo α} {before after : List α} {a : α}
    (view : β → γ) (hlog : q.log = before ++ a :: after) (hdone : before.length < q.done)
    (hafter : ∀ b ∈ after, ∀ mem, view (land mem b) = view mem) :
    ∃ mem', view (q.landed land mem) = view (land mem' a) := by
  have hfold (bs : List α) (hbs : ∀ b ∈ bs, b ∈ after) (mem : β) :
      view (bs.foldl land mem) = view mem := by
    induction bs generalizing mem with
    | nil => rfl
    | cons b bs ih =>
      rw [List.foldl_cons, ih fun c hc => hbs c (List.mem_cons_of_mem b hc)]
      exact hafter b (hbs b List.mem_cons_self) mem
  obtain ⟨k, hk⟩ := Nat.exists_eq_add_of_lt hdone
  have htake : q.log.take q.done = before ++ a :: after.take k := by
    rw [hlog, hk, Nat.add_assoc, List.take_length_add_append, List.take_succ_cons]
  refine ⟨before.foldl land mem, ?_⟩
  rw [landed, htake, List.foldl_append, List.foldl_cons]
  exact hfold _ (fun b hb => List.mem_of_mem_take hb) _

end Fifo
end Lib
