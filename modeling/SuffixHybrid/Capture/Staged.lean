import SuffixHybrid.Capture.Steps

/-!
# Staging a step

The entries that `enqueue` gathers lie one after the other and cover the rows it stages, each with the rows of its
own request (`Gathered`). The stretch that is reserved for them is behind every counter, so nothing that is known of
the others changes.
-/

namespace SuffixHybrid.Capture
open Lib

variable {H R : Type} {b : Batch H R} {entries : List (Entry R)} {src : List ℕ} {total : ℕ}

/-! ## The entries -/

/-- What `enqueue` gathers. -/
structure Gathered (b : Batch H R) (entries : List (Entry R)) (src : List ℕ) (total : ℕ) : Prop where
  length : src.length = total
  inside : ∀ e ∈ entries, 0 < e.rows ∧ e.off + e.rows ≤ total
  sorted : entries.Pairwise fun e e' => e.off + e.rows ≤ e'.off
  cover : ∀ t < total, ∃ e ∈ entries, e.off ≤ t ∧ t < e.off + e.rows
  source : ∀ e ∈ entries, e.i < b.reqIds.length ∧ ∃ base, b.queryStart e.i ≤ base ∧
    base + e.rows ≤ b.queryStart (e.i + 1) ∧ ∀ t < e.rows, src[e.off + t]? = some (base + t)

/-- One more request. -/
lemma Gathered.concat (h : Gathered b entries src total) {rid : R} {i base rows : ℕ} (plen : ℤ) (hrows : 0 < rows)
    (hi : i < b.reqIds.length) (hle : b.queryStart i ≤ base) (hend : base + rows ≤ b.queryStart (i + 1)) :
    Gathered b (entries ++ [⟨rid, i, total, rows, plen⟩]) (src ++ List.range' base rows) (total + rows) where
  length := by rw [List.length_append, List.length_range', h.length]
  inside e he := by
    obtain he | he := List.mem_append.mp he
    · have := h.inside e he
      omega
    · obtain rfl := List.mem_singleton.mp he
      exact ⟨hrows, Nat.le_refl _⟩
  sorted := by
    refine List.pairwise_append.mpr ⟨h.sorted, List.pairwise_singleton _ _, fun e he e' he' => ?_⟩
    obtain rfl := List.mem_singleton.mp he'
    exact (h.inside e he).2
  cover t ht := by
    by_cases hlt : t < total
    · obtain ⟨e, he, hin⟩ := h.cover t hlt
      exact ⟨e, List.mem_append_left _ he, hin⟩
    · exact ⟨_, List.mem_append_right _ (List.mem_singleton_self _), by dsimp only; omega⟩
  source e he := by
    obtain he | he := List.mem_append.mp he
    · obtain ⟨hi, base', hle, hend, hsrc⟩ := h.source e he
      refine ⟨hi, base', hle, hend, fun t ht => ?_⟩
      have hin := (h.inside e he).2
      rw [List.getElem?_append_left (by rw [h.length]; omega)]
      exact hsrc t ht
    · obtain rfl := List.mem_singleton.mp he
      refine ⟨hi, base, hle, hend, fun t ht => ?_⟩
      dsimp only at ht ⊢
      rw [List.getElem?_append_right (by rw [h.length]; omega), h.length, Nat.add_sub_cancel_left,
        List.getElem?_range' ht, Nat.one_mul]

/-- The loop over the requests. -/
lemma gather_spec (cfg : Config R) (b : Batch H R) :
    Gathered b (State.gather cfg b).1 (State.gather cfg b).2.1 (State.gather cfg b).2.2 := by
  rw [State.gather]
  refine foldl_zipIdx_inv (P := fun _ (acc : List (Entry R) × List ℕ × ℕ) => Gathered b acc.1 acc.2.1 acc.2.2) ?_ fun i rid acc hrid hacc => ?_
  · exact ⟨rfl, fun e he => absurd he List.not_mem_nil, .nil, fun t ht => absurd ht (Nat.not_lt_zero t),
      fun e he => absurd he List.not_mem_nil⟩
  · have hi := (List.getElem?_eq_some_iff.mp hrid).1
    rw [Nat.zero_add]
    dsimp only
    split
    case isTrue => exact hacc
    case isFalse =>
      split
      case isTrue => exact hacc
      case isFalse hrows =>
        split
        case isTrue => exact hacc
        case isFalse =>
          exact hacc.concat _ (by omega) hi (by omega) (by omega)

/-- The entry of a row. -/
lemma Gathered.find? (h : Gathered b entries src total) {e : Entry R} (he : e ∈ entries) {t : ℕ} (ht : t < e.rows) :
    entries.find? (fun e' => e'.off ≤ e.off + t ∧ e.off + t < e'.off + e'.rows) = some e := by
  have hsorted := h.sorted
  clear h
  induction entries with
  | nil => cases he
  | cons e' entries ih =>
    obtain ⟨hfirst, hsorted⟩ := List.pairwise_cons.mp hsorted
    obtain rfl | he := List.mem_cons.mp he
    · exact List.find?_cons_of_pos (decide_eq_true ⟨Nat.le_add_right _ _, Nat.add_lt_add_left ht _⟩)
    · have hlt := hfirst e he
      rw [List.find?_cons_of_neg (by rw [decide_eq_true_iff]; omega)]
      exact ih he hsorted

/-- The rows of every request have consecutive positions. -/
def Batch.Steady (b : Batch H R) : Prop :=
  ∀ i < b.reqIds.length, ∀ p < b.queryStart (i + 1), b.queryStart i < p → b.positions p = b.positions (p - 1) + 1

instance (b : Batch H R) : Decidable b.Steady := inferInstanceAs (Decidable (∀ _ < _, _))

/-- The positions of an entry. -/
lemma Gathered.steady (h : Gathered b entries src total) (hb : b.Steady) {e : Entry R} (he : e ∈ entries) {t : ℕ}
    (ht : t < e.rows) : b.positions (src.getD (e.off + t) 0) = b.positions (src.getD e.off 0) + t := by
  obtain ⟨hi, base, hle, hend, hsrc⟩ := h.source e he
  have hget (t : ℕ) (ht : t < e.rows) : src.getD (e.off + t) 0 = base + t := by
    rw [List.getD_eq_getElem?_getD, hsrc t ht]
    rfl
  rw [hget t ht, show src.getD e.off 0 = base from hget 0 (by omega)]
  induction t with
  | zero => exact (Int.add_zero _).symm
  | succ t ih =>
    have hnext := hb e.i hi (base + (t + 1)) (by omega) (by omega)
    have hprev : base + (t + 1) - 1 = base + t := rfl
    rw [hnext, hprev, ih (by omega), Nat.cast_succ, Int.add_assoc]

/-- Each staged row is one of an entry's request. -/
lemma Gathered.stagedRow (h : Gathered b entries src total) {e : Entry R} (he : e ∈ entries) {t : ℕ} (ht : t < e.rows) :
    State.stagedRow b entries src (e.off + t) = some (e.rid, ⟨b.hidden (src.getD (e.off + t) 0),
      b.inputIds (src.getD (e.off + t) 0), b.positions (src.getD (e.off + t) 0)⟩) := by
  rw [State.stagedRow, h.find? he ht]
  rfl

/-! ## Staging -/

variable [DecidableEq R] {E : Prop} {cfg : Config R} {s : State H R} {fin issued : List Bool}

/-- A slot is staged in a stretch of the arena. -/
def State.stage (s : State H R) (i : Bool) (slot : Slot H R) (rows : ℕ → Option (R × Row H)) : State H R :=
  { s with
    arena := { s.arena with
      written := slot.start + slot.total
      d1 := fun x =>
        if slot.start % s.arena.cap ≤ x ∧ x < slot.start % s.arena.cap + slot.total then -1 else s.arena.d1 x }
    slots := Function.update s.slots i slot
    free := s.free.dropLast
    inflight := s.inflight ++ [i]
    reserved := s.reserved ++ [(slot.start, slot.total)]
    captured := fun c =>
      if slot.start ≤ c ∧ c < slot.start + slot.total then rows (c - slot.start) else s.captured c
    drafted := fun c => if slot.start ≤ c ∧ c < slot.start + slot.total then -1 else s.drafted c
    staged := s.staged ++ [i] }

section
variable {i : Bool} {slot : Slot H R} {rows : ℕ → Option (R × Row H)}
variable (hfree : s.free.getLast? = some i) (hle : s.arena.written ≤ slot.start)
variable (hfits : slot.start % s.arena.cap + slot.total ≤ s.arena.cap)

include hfree in
/-- The slot is not in flight. -/
lemma Base.stage_free (hb : Base E cfg s) : s.free = s.free.dropLast ++ [i] ∧ i ∉ s.inflight ∧ i ∉ s.free.dropLast := by
  obtain ⟨ys, hys⟩ := List.getLast?_eq_some_iff.mp hfree
  have hdrop : s.free.dropLast = ys := by rw [hys, List.dropLast_concat]
  have hnodup := hb.nodup
  rw [hys, ← List.append_assoc] at hnodup
  obtain ⟨-, -, hne⟩ := List.nodup_append.mp hnodup
  have hout : i ∉ s.inflight ++ ys := fun hi => hne i hi i (List.mem_singleton_self i) rfl
  rw [List.mem_append, not_or] at hout
  rw [hdrop]
  exact ⟨hys, hout⟩

include hle in
/-- What was captured before. -/
lemma captured_stage {c : ℕ} (hc : c < s.arena.written) : (s.stage i slot rows).captured c = s.captured c :=
  if_neg (by omega)

include hle hfits in
/-- A counter of before that is alive has its place outside the stretch. -/
lemma stage_outside {c : ℕ} (hc : c < s.arena.written) (halive : (s.stage i slot rows).arena.Alive c) :
    ¬(slot.start % s.arena.cap ≤ c % s.arena.cap ∧ c % s.arena.cap < slot.start % s.arena.cap + slot.total) := by
  intro hin
  obtain ⟨t, ht⟩ := Nat.exists_eq_add_of_le hin.1
  have hmod : (slot.start + t) % s.arena.cap = slot.start % s.arena.cap + t := by
    rw [← Nat.mod_add_mod, Nat.mod_eq_of_lt (by omega)]
  have hlt : c < slot.start + t := by omega
  have hwritten : slot.start + t < (s.stage i slot rows).arena.written := by
    dsimp only [State.stage]
    omega
  exact halive.mod_ne hlt hwritten (hmod.trans ht.symm)

/-- What is captured for the stretch. -/
lemma captured_stage_add {t : ℕ} (ht : t < slot.total) :
    (s.stage i slot rows).captured (slot.start + t) = rows t := by
  have hin : slot.start ≤ slot.start + t ∧ slot.start + t < slot.start + slot.total :=
    ⟨Nat.le_add_right _ _, Nat.add_lt_add_left ht _⟩
  have h : (s.stage i slot rows).captured (slot.start + t) = rows (slot.start + t - slot.start) := if_pos hin
  rwa [Nat.add_sub_cancel_left] at h

include hfree hle

section
include hfits

/-- The stretch is behind every counter: the state of the store is kept. -/
lemma Base.stage (hb : Base E cfg s)
    (hok : SlotOk E (s.stage i slot rows).arena (s.stage i slot rows).captured slot) :
    Base E cfg (s.stage i slot rows) := by
  obtain ⟨hsplit, hi, hi'⟩ := hb.stage_free hfree
  have hother (j : Bool) (hj : j ∈ s.inflight) : (s.stage i slot rows).slots j = s.slots j :=
    Function.update_of_ne (ne_of_mem_of_not_mem hj hi) _ _
  have hself : (s.stage i slot rows).slots i = slot := Function.update_self _ _ _
  have hcap (c : ℕ) (hc : c < s.arena.written) : (s.stage i slot rows).captured c = s.captured c :=
    captured_stage hle hc
  have hwritten : s.arena.written ≤ (s.stage i slot rows).arena.written := Nat.le_trans hle (Nat.le_add_right _ _)
  have hsize : (s.stage i slot rows).arena.cap = s.arena.cap := rfl
  refine ⟨hb.reserved.concat hle hfits, fun c hc => ?_, ?_, fun j hj => ?_, ?_, fun c hc halive => ?_, ?_⟩
  · by_cases hin : slot.start ≤ c ∧ c < slot.start + slot.total
    · exact hin.2
    · have hold : s.captured c ≠ none := by
        dsimp only [State.stage] at hc
        rwa [if_neg hin] at hc
      exact Nat.lt_of_lt_of_le (hb.lt c hold) hwritten
  · have hnodup := hb.nodup
    rw [hsplit] at hnodup
    show (s.inflight ++ [i] ++ s.free.dropLast).Nodup
    rw [List.append_assoc]
    exact (List.perm_append_comm.append_left s.inflight).nodup_iff.mp hnodup
  · obtain hj | hj := List.mem_append.mp hj
    · have hold : SlotOk E (s.stage i slot rows).arena (s.stage i slot rows).captured (s.slots j) :=
        (hb.slot j hj).congr hsize hwritten hcap _ _ _ _
      rw [hother j hj]
      exact hold
    · obtain rfl := List.mem_singleton.mp hj
      rw [hself]
      exact hok
  · refine List.pairwise_append.mpr ⟨?_, List.pairwise_singleton _ _, fun j hj j' hj' => ?_⟩
    · refine hb.sorted.imp_of_mem fun {j j'} hj hj' hjj' => ?_
      rw [hother j hj, hother j' hj']
      exact hjj'
    · obtain rfl := List.mem_singleton.mp hj'
      rw [hother j hj, hself]
      exact Nat.le_trans (hb.slot j hj).le hle
  · by_cases hin : slot.start ≤ c ∧ c < slot.start + slot.total
    · obtain ⟨t, rfl⟩ := Nat.exists_eq_add_of_le hin.1
      have ht : t < slot.total := Nat.lt_of_add_lt_add_left hin.2
      have hmod : (slot.start + t) % s.arena.cap = slot.start % s.arena.cap + t := hok.mod ht
      have hd : (s.stage i slot rows).arena.d1 ((slot.start + t) % s.arena.cap) = -1 := by
        rw [hmod]
        exact if_pos ⟨Nat.le_add_right _ _, Nat.add_lt_add_left ht _⟩
      exact hd.trans (if_pos hin).symm
    · have hold : s.captured c ≠ none := by
        dsimp only [State.stage] at hc
        rwa [if_neg hin] at hc
      have hd : (s.stage i slot rows).arena.d1 (c % s.arena.cap) = s.arena.d1 (c % s.arena.cap) :=
        if_neg (stage_outside hle hfits (hb.lt c hold) halive)
      exact (hd.trans (hb.drafted c hold (halive.of_written rfl hwritten))).trans (if_neg hin).symm
  · obtain ⟨bound, hbound, hstart, hw⟩ := hb.windows
    refine ⟨bound, Nat.le_trans hbound hwritten, fun j hj => ?_, hw.congr fun c hc => hcap c (Nat.lt_of_lt_of_le hc hbound)⟩
    obtain hj | hj := List.mem_append.mp hj
    · rw [hother j hj]
      exact hstart j hj
    · obtain rfl := List.mem_singleton.mp hj
      rw [hself]
      exact Nat.le_trans hbound hle

end

/-- The slot is the last one in flight. -/
lemma Stream.stage (h : Stream cfg s fin issued) (hb : Base E cfg s) (hev : slot.ev = none) :
    Stream cfg (s.stage i slot rows) fin issued := by
  obtain ⟨hsplit, hi, hi'⟩ := hb.stage_free hfree
  have hother (j : Bool) (hj : j ∈ s.inflight) : (s.stage i slot rows).slots j = s.slots j :=
    Function.update_of_ne (ne_of_mem_of_not_mem hj hi) _ _
  have hself : (s.stage i slot rows).slots i = slot := Function.update_self _ _ _
  have hflight := h.landing.inflight
  have hfin (j : Bool) (hj : j ∈ fin) : j ∈ s.inflight := by
    rw [hflight]
    exact List.mem_append_left _ hj
  have hrest (j : Bool) (hj : j ∈ issued ++ s.staged) : j ∈ s.inflight := by
    rw [hflight]
    exact List.mem_append_right _ hj
  have hwritten : s.arena.written ≤ (s.stage i slot rows).arena.written := Nat.le_trans hle (Nat.le_add_right _ _)
  have hsize : (s.stage i slot rows).arena.cap = s.arena.cap := rfl
  have hl : Landing (s.stage i slot rows) fin (issued ++ (s.stage i slot rows).staged) := by
    refine ⟨?_, fun j hj => ?_, fun c hc => ?_⟩
    · show s.inflight ++ [i] = fin ++ (issued ++ (s.staged ++ [i]))
      rw [hflight, List.append_assoc, List.append_assoc]
    · rw [hother j (hfin j hj)]
      exact h.landing.rej j hj
    · rw [show (s.stage i slot rows).staged = s.staged ++ [i] from rfl, ← List.append_assoc]
      by_cases hin : slot.start ≤ c ∧ c < slot.start + slot.total
      · refine .inl ⟨i, List.mem_append_right _ (List.mem_singleton_self i), ?_⟩
        rw [hself]
        exact hin
      · have hold : s.captured c ≠ none := by
          dsimp only [State.stage] at hc
          rwa [if_neg hin] at hc
        obtain ⟨j, hj, hcov⟩ | ⟨hlt, hholds⟩ := h.landing.landed c hold
        · refine .inl ⟨j, List.mem_append_left _ hj, ?_⟩
          rw [hother j (hrest j hj)]
          exact hcov
        · refine .inr ⟨fun j hj => ?_, fun rid row hrow halive => ?_⟩
          · obtain hj | hj := List.mem_append.mp hj
            · rw [hother j (hrest j hj)]
              exact hlt j hj
            · obtain rfl := List.mem_singleton.mp hj
              rw [hself]
              exact Nat.lt_of_lt_of_le (hb.lt c hold) hle
          · rw [captured_stage hle (hb.lt c hold)] at hrow
            exact hholds rid row hrow (halive.of_written hsize hwritten)
  refine ⟨hl, fun j hj => ?_, fun j hj => ?_, fun j hj => ?_, h.cuda, h.pending.congr rfl rfl rfl rfl rfl fun j hj => ?_⟩
  · rw [hother j (hfin j hj)]
    exact h.ev_fin j hj
  · rw [hother j (hrest j (List.mem_append_left _ hj))]
    exact h.ev_issued j hj
  · have hmem : j ∈ s.staged ++ [i] ++ s.free.dropLast := hj
    rw [List.mem_append, List.mem_append, List.mem_singleton] at hmem
    obtain (hj | rfl) | hj := hmem
    · rw [hother j (hrest j (List.mem_append_right _ hj))]
      exact h.ev_idle j (List.mem_append_left _ hj)
    · rw [hself]
      exact hev
    · have hne : j ≠ i := ne_of_mem_of_not_mem hj hi'
      rw [show (s.stage i slot rows).slots j = s.slots j from Function.update_of_ne hne _ _]
      refine h.ev_idle j (List.mem_append_right _ ?_)
      rw [hsplit]
      exact List.mem_append_left _ hj
  · exact hother j (hrest j (List.mem_append_left _ hj))

end

/-- The slot that `enqueue` fills. -/
def Batch.fill (b : Batch H R) (slot : Slot H R) (entries : List (Entry R)) (src : List ℕ) (start total : ℕ) : Slot H R :=
  { slot with
    entries := entries
    start := start
    total := total
    h := fun t => if t < total then b.hidden (src.getD t 0) else slot.h t
    tok := fun t => if t < total then b.inputIds (src.getD t 0) else slot.tok t
    pos := fun t => if t < total then b.positions (src.getD t 0) else slot.pos t
    rejD := fun j =>
      if j < (entries.map fun e => e.i).length then b.numRejected ((entries.map fun e => e.i).getD j 0)
      else slot.rejD j
    d1D := fun j => if j < (entries.map fun e => e.i).length then -1 else slot.d1D j }

lemma Gathered.slotOk (hg : Gathered b entries src total) (i : Bool) (slot : Slot H R) {start : ℕ}
    (hfits : start % s.arena.cap + total ≤ s.arena.cap) (hrej : ∀ j < b.reqIds.length, 0 ≤ b.numRejected j) (hE : E → b.Steady) :
    SlotOk E (s.stage i (b.fill slot entries src start total) (State.stagedRow b entries src)).arena
      (s.stage i (b.fill slot entries src start total) (State.stagedRow b entries src)).captured
      (b.fill slot entries src start total) where
  le := Nat.le_refl _
  fits := hfits
  inside e he := (hg.inside e he).2
  sorted := hg.sorted
  staged t ht := by
    rw [captured_stage_add ht]
    have ht : t < total := ht
    obtain ⟨e, he, hle, hlt⟩ := hg.cover t ht
    obtain ⟨t, rfl⟩ := Nat.exists_eq_add_of_le hle
    refine ⟨e.rid, ?_⟩
    rw [hg.stagedRow he (Nat.lt_of_add_lt_add_left hlt)]
    dsimp only [Batch.fill]
    rw [if_pos ht, if_pos ht, if_pos ht]
  own e he t ht := by
    have hin := (hg.inside e he).2
    have hlt : e.off + t < (b.fill slot entries src start total).total := Nat.lt_of_lt_of_le (Nat.add_lt_add_left ht _) hin
    exact ⟨_, (captured_stage_add hlt).trans (hg.stagedRow he ht)⟩
  steady hsteady e he t ht := by
    obtain ⟨hpos, hin⟩ := hg.inside e he
    have hlt : e.off + t < total := Nat.lt_of_lt_of_le (Nat.add_lt_add_left ht _) hin
    dsimp only [Batch.fill]
    rw [if_pos hlt, if_pos (by omega)]
    exact hg.steady (hE hsteady) he ht
  rejD j hj := by
    have hlt : j < (entries.map fun e => e.i).length := by
      rw [List.length_map]
      exact hj
    dsimp only [Batch.fill]
    rw [if_pos hlt, List.getD_eq_getElem?_getD, List.getElem?_eq_getElem hlt, Option.getD_some, List.getElem_map]
    exact hrej _ (hg.source _ (List.getElem_mem hj)).1

/-- `enqueue` drops the step or stages it in a free slot. -/
lemma enqueue_cases (cfg : Config R) (s : State H R) (b : Batch H R) :
    s.enqueue cfg b = s ∨ ∃ i entries src start total, Gathered b entries src total ∧ s.free.getLast? = some i ∧
      s.arena.written ≤ start ∧ start % s.arena.cap + total ≤ s.arena.cap ∧
      s.enqueue cfg b = s.stage i (b.fill (s.slots i) entries src start total) (State.stagedRow b entries src) := by
  have hg := gather_spec cfg b
  rw [State.enqueue]
  dsimp only
  generalize (State.gather cfg b).1 = entries at hg ⊢
  generalize (State.gather cfg b).2.1 = src at hg ⊢
  generalize (State.gather cfg b).2.2 = total at hg ⊢
  by_cases hentries : entries = []
  · rw [if_pos hentries]
    exact .inl rfl
  rw [if_neg hentries]
  cases hfree : s.free.getLast? with
  | none => exact .inl rfl
  | some i =>
    cases hres : s.arena.reserve total with
    | none => exact .inl rfl
    | some r =>
      obtain ⟨start, arena⟩ := r
      obtain ⟨e, he⟩ := List.exists_mem_of_ne_nil entries hentries
      have hpos := hg.inside e he
      obtain ⟨hle, hfits, rfl⟩ := Arena.reserve_spec (by omega) hres
      exact .inr ⟨i, entries, src, start, total, hg, rfl, hle, hfits, rfl⟩

/-- `enqueue`. -/
lemma Stream.enqueue (h : Stream cfg s fin issued) (hb : Base E cfg s) (b : Batch H R)
    (hrej : ∀ j < b.reqIds.length, 0 ≤ b.numRejected j) (hE : E → b.Steady) :
    Base E cfg (s.enqueue cfg b) ∧ Stream cfg (s.enqueue cfg b) fin issued := by
  obtain heq | ⟨i, entries, src, start, total, hg, hfree, hle, hfits, heq⟩ := enqueue_cases cfg s b
  · rw [heq]
    exact ⟨hb, h⟩
  · have hev : (b.fill (s.slots i) entries src start total).ev = none :=
      h.ev_idle i (List.mem_append_right _ (List.mem_of_getLast? hfree))
    have hok := hg.slotOk i (s.slots i) hfits hrej hE
    rw [heq]
    exact ⟨hb.stage hfree hle hfits hok, h.stage hfree hle hb hev⟩

end SuffixHybrid.Capture
