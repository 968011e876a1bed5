import Mathlib.Data.List.DropRight
import SuffixHybrid.Lib.Map

/-!
# Capped inverted indexes

An inverted index maps a key to the entries posted under it and keeps at most `cap` of them, the
most recent ones. `Indexes cap m posts` says that the map `m` is the index of the list of postings
`posts`: a key without postings has no bucket, every other key has the last `cap` entries posted
under it. Posting appends to the list (`Indexes.post`); purging dead entries bucket by bucket
removes the postings of a dead front part of the list, provided every key of that part is visited
(`Indexes.purge`). Keys that are visited twice do no harm.
-/

namespace Lib
variable {K E : Type} [DecidableEq K]

/-- The entries posted under a key, in posting order. -/
def postings (posts : List (K × E)) (key : K) : List E :=
  (posts.filter (·.1 = key)).map (·.2)

/-- The bucket of a key: its last `cap` entries, no bucket when there are none. -/
def bucket (cap : ℕ) (posts : List (K × E)) (key : K) : Option (List E) :=
  if (postings posts key).isEmpty then none else some ((postings posts key).rtake cap)

/-- The map is the index of the postings. -/
def Indexes (cap : ℕ) (m : Map K (List E)) (posts : List (K × E)) : Prop :=
  ∀ key, m.lookup key = bucket cap posts key

/-- Append an entry to the bucket of a key and drop the oldest one past the cap. -/
def post (cap : ℕ) (m : Map K (List E)) (p : K × E) : Map K (List E) :=
  let b := (m.lookup p.1).getD [] ++ [p.2]
  m.put p.1 (if b.length > cap then b.tail else b)

/-- Remove the dead entries of a bucket, and the bucket when nothing is left. -/
def purge (dead : E → Bool) (m : Map K (List E)) (key : K) : Map K (List E) :=
  match m.lookup key with
  | none => m
  | some b =>
    let b := b.filter fun e => !dead e
    if b.isEmpty then m.erase key else m.put key b

@[simp] lemma postings_nil (key : K) : postings ([] : List (K × E)) key = [] := rfl

lemma postings_append (ps qs : List (K × E)) (key : K) :
    postings (ps ++ qs) key = postings ps key ++ postings qs key := by
  simp [postings]

lemma postings_flatMap {S : Type} (f : S → List (K × E)) (ss : List S) (key : K) :
    postings (ss.flatMap f) key = ss.flatMap fun s => postings (f s) key := by
  induction ss with
  | nil => rfl
  | cons s ss ih => rw [List.flatMap_cons, List.flatMap_cons, postings_append, ih]

lemma mem_postings {ps : List (K × E)} {key : K} {e : E} :
    e ∈ postings ps key ↔ (key, e) ∈ ps := by
  simp [postings]

lemma bucket_getD (cap : ℕ) (posts : List (K × E)) (key : K) :
    (bucket cap posts key).getD [] = (postings posts key).rtake cap := by
  unfold bucket
  split
  case isTrue h => simp [List.isEmpty_iff.mp h, List.rtake]
  case isFalse => rfl

lemma indexes_empty (cap : ℕ) : Indexes cap (∅ : Map K (List E)) [] := fun key => by
  simp [bucket]

/-- An indexed entry was posted. -/
lemma Indexes.mem_posts {cap : ℕ} {m : Map K (List E)} {posts : List (K × E)}
    (h : Indexes cap m posts) {key : K} {b : List E} (hb : m.lookup key = some b) {e : E}
    (he : e ∈ b) : (key, e) ∈ posts := by
  have hr : b = (postings posts key).rtake cap := by
    rw [← bucket_getD, ← h key, hb]
    rfl
  rw [hr] at he
  exact mem_postings.mp (List.mem_of_mem_drop he)

/-- The last `cap` elements after an append at the back. -/
lemma rtake_concat {cap : ℕ} (h : 0 < cap) (es : List E) (e : E) :
    (es ++ [e]).rtake cap =
      if (es.rtake cap ++ [e]).length > cap then (es.rtake cap ++ [e]).tail
      else es.rtake cap ++ [e] := by
  have happ : es.rtake cap ++ [e] = (es ++ [e]).drop (es.length - cap) := by
    rw [List.rtake, List.drop_append_of_le_length (by omega)]
  have hlen : (es ++ [e]).length = es.length + 1 := by simp
  rw [happ, List.length_drop, hlen]
  split
  · rw [List.tail_drop, List.rtake, hlen]
    congr 1
    omega
  · rw [List.rtake, hlen]
    congr 1
    omega

/-- Posting appends to the list of postings. -/
theorem Indexes.post {cap : ℕ} (h : 0 < cap) {m : Map K (List E)} {posts : List (K × E)}
    (hm : Indexes cap m posts) (p : K × E) : Indexes cap (post cap m p) (posts ++ [p]) := by
  intro key
  by_cases hk : key = p.1
  · subst hk
    have hp : postings (posts ++ [p]) p.1 = postings posts p.1 ++ [p.2] := by
      rw [postings_append]
      simp [postings]
    rw [Lib.post, Map.lookup_put_self, hm p.1, bucket_getD, ← rtake_concat h, bucket, hp]
    simp
  · have hp : postings (posts ++ [p]) key = postings posts key := by
      rw [postings_append]
      simp [postings, Ne.symm hk]
    rw [Lib.post, Map.lookup_put_ne _ _ hk, hm key, bucket, bucket, hp]

/-- Posting a list of entries one by one. -/
lemma Indexes.foldl_post {cap : ℕ} (h : 0 < cap) {m : Map K (List E)} {posts : List (K × E)}
    (hm : Indexes cap m posts) (ps : List (K × E)) :
    Indexes cap (ps.foldl (Lib.post cap) m) (posts ++ ps) := by
  induction ps generalizing m posts with
  | nil => simpa using hm
  | cons p ps ih => simpa using ih (hm.post h p)

/-- The live part of a bucket, `none` when nothing of it is live. -/
def alive (dead : E → Bool) (b : List E) : Option (List E) :=
  if (b.filter fun e => !dead e).isEmpty then none else some (b.filter fun e => !dead e)

lemma lookup_purge (dead : E → Bool) (m : Map K (List E)) (key key' : K) :
    (purge dead m key).lookup key' =
      if key' = key then (m.lookup key).bind (alive dead) else m.lookup key' := by
  unfold purge
  cases hk : m.lookup key with
  | none =>
    by_cases e : key' = key
    · subst e
      simp [hk]
    · simp [e]
  | some b =>
    by_cases hb : (b.filter fun e => !dead e).isEmpty
    · simp only [hb, if_true, Map.lookup_erase_eq, alive, Option.bind_some]
    · simp only [hb, if_false, Map.lookup_put, alive, Option.bind_some, Bool.false_eq_true]

lemma alive_idem (dead : E → Bool) (b : List E) : (alive dead b).bind (alive dead) = alive dead b := by
  by_cases h : (b.filter fun e => !dead e).isEmpty
  · simp [alive, h]
  · have hf : (b.filter fun e => !dead e).filter (fun e => !dead e) = b.filter fun e => !dead e := by
      simp
    simp only [alive, h, Bool.false_eq_true, if_false, Option.bind_some, hf]

/-- Purging a list of keys: every visited bucket keeps its live part. -/
lemma lookup_foldl_purge (dead : E → Bool) (ks : List K) (m : Map K (List E)) (key : K) :
    (ks.foldl (purge dead) m).lookup key =
      if key ∈ ks then (m.lookup key).bind (alive dead) else m.lookup key := by
  induction ks generalizing m with
  | nil => simp
  | cons k ks ih =>
    rw [List.foldl_cons, ih, lookup_purge]
    by_cases hk : key = k
    · subst hk
      by_cases hks : key ∈ ks
      · simp [hks, Option.bind_assoc, alive_idem]
      · simp [hks]
    · simp [hk]

/-- Purging the dead part of a bucket whose dead entries all come first. -/
lemma filter_rtake_append {dead : E → Bool} {cap : ℕ} {old rest : List E}
    (hold : ∀ e ∈ old, dead e) (hrest : ∀ e ∈ rest, dead e = false) :
    ((old ++ rest).rtake cap).filter (fun e => !dead e) = rest.rtake cap := by
  have hdead : (old.drop (old.length + rest.length - cap)).filter (fun e => !dead e) = [] :=
    List.filter_eq_nil_iff.mpr fun e he => by simp [hold e (List.mem_of_mem_drop he)]
  simp only [List.rtake, List.length_append, List.drop_append, List.filter_append, hdead,
    List.nil_append]
  rw [List.filter_eq_self.mpr fun e he => by simp [hrest e (List.mem_of_mem_drop he)]]
  congr 1
  omega

/-- Purging the keys of a dead front part of the postings leaves the index of the rest. -/
theorem Indexes.purge {dead : E → Bool} {cap : ℕ} {m : Map K (List E)} {old rest : List (K × E)}
    (hm : Indexes cap m (old ++ rest)) (h : 0 < cap) (hold : ∀ p ∈ old, dead p.2)
    (hrest : ∀ p ∈ rest, dead p.2 = false) {ks : List K} (hks : ∀ p ∈ old, p.1 ∈ ks) :
    Indexes cap (ks.foldl (Lib.purge dead) m) rest := by
  intro key
  have ho : ∀ e ∈ postings old key, dead e := fun e he => hold _ (mem_postings.mp he)
  have hr : ∀ e ∈ postings rest key, dead e = false := fun e he => hrest _ (mem_postings.mp he)
  rw [lookup_foldl_purge, hm key, bucket, bucket, postings_append]
  by_cases hk : key ∈ ks
  · by_cases he : (postings old key ++ postings rest key).isEmpty
    · have hnil := List.append_eq_nil_iff.mp (List.isEmpty_iff.mp he)
      simp [hk, hnil.1, hnil.2]
    · simp only [hk, he, if_true, if_false, Bool.false_eq_true, Option.bind_some, alive,
        filter_rtake_append ho hr]
      have hnil : ((postings rest key).rtake cap).isEmpty ↔ (postings rest key).isEmpty := by
        simp only [List.isEmpty_iff, List.rtake, List.drop_eq_nil_iff]
        constructor
        · intro hlen
          exact List.eq_nil_of_length_eq_zero (by omega)
        · intro hnil
          simp [hnil]
      simp only [hnil]
  · -- an unvisited key has no posting in the dead part
    have hnone : postings old key = [] := List.eq_nil_iff_forall_not_mem.mpr fun e he =>
      hk (hks _ (mem_postings.mp he))
    simp [hk, hnone]

end Lib
