import SuffixHybrid.Capture.Stream

/-!
# The steps of a store

Each step keeps what the store is built on (`Base`) and the order of the stream (`Stream`), provided that the slots
are flushed in the order in which they were staged, and before the next `absorb`.
-/

namespace SuffixHybrid.Capture
open Lib

variable {H R : Type} [DecidableEq R] {E : Prop} {cfg : Config R} {s : State H R} {i : Bool}
variable {fin issued rest : List Bool}

/-! ## The stream -/

/-- The fields whose copies `flush` issues. -/
def Field.all : List Field := [.h, .tok, .pos, .rej, .d1, .ev]

/-- The copies that are issued: those of the first slot from some field on, then those of the others. -/
def Pending (s : State H R) : List Bool → Prop
  | [] => s.copies = []
  | i :: rest => ∃ done todo, done ++ todo = Field.all ∧ todo ≠ [] ∧
      s.copies = todo.map (s.copyOf i) ++ rest.flatMap (fun j => Field.all.map (s.copyOf j)) ∧
      ∀ f ∈ done, Landed s.arena (s.slots i) f

/-- The slots in flight: those whose copies are done, those whose copies are issued and those that are staged. -/
structure Stream (cfg : Config R) (s : State H R) (fin issued : List Bool) : Prop where
  landing : Landing s fin (issued ++ s.staged)
  ev_fin : ∀ i ∈ fin, (s.slots i).ev ≠ some false
  ev_issued : ∀ i ∈ issued, (s.slots i).ev = some false
  ev_idle : ∀ i ∈ s.staged ++ s.free, (s.slots i).ev = none
  cuda : cfg.cuda = false → issued = []
  pending : Pending s issued

/-- The first copy of the stream, with what is behind it. -/
lemma Pending.cons {c : Copy} {copies : List Copy} (h : Pending s issued) (hs : s.copies = c :: copies) :
    ∃ i rest done f todo, issued = i :: rest ∧ done ++ f :: todo = Field.all ∧ c = s.copyOf i f ∧
      copies = todo.map (s.copyOf i) ++ rest.flatMap (fun j => Field.all.map (s.copyOf j)) ∧
      ∀ f ∈ done, Landed s.arena (s.slots i) f := by
  cases issued with
  | nil =>
    rw [Pending, hs] at h
    cases h
  | cons i rest =>
    obtain ⟨done, todo, hall, hne, hcopies, hdone⟩ := h
    obtain ⟨f, todo, rfl⟩ := List.exists_cons_of_ne_nil hne
    rw [hs] at hcopies
    obtain ⟨hc, hrest⟩ := List.cons.inj hcopies
    exact ⟨i, rest, done, f, todo, rfl, hall, hc, hrest, hdone⟩

/-- The copies of whole slots. -/
lemma Pending.of_flatMap (h : s.copies = issued.flatMap fun j => Field.all.map (s.copyOf j)) : Pending s issued := by
  cases issued with
  | nil => exact h
  | cons i rest => exact ⟨[], Field.all, rfl, List.cons_ne_nil _ _, h, fun f hf => absurd hf List.not_mem_nil⟩

/-- A copy is carried out. -/
lemma Stream.complete {c : Copy} {copies : List Copy} (h : Stream cfg s fin issued) (hb : Base E cfg s)
    (hs : s.copies = c :: copies) :
    ∃ fin' issued', Base E cfg ({ s with copies := copies }.copy c) ∧
      Stream cfg ({ s with copies := copies }.copy c) fin' issued' := by
  obtain ⟨i, rest, done, f, todo, rfl, hall, rfl, rfl, hdone⟩ := h.pending.cons hs
  generalize hcopies : todo.map (s.copyOf i) ++ rest.flatMap (fun j => Field.all.map (s.copyOf j)) = copies at hs ⊢
  have hb' : Base E cfg { s with copies := copies } := ⟨hb.1, hb.2, hb.3, hb.4, hb.5, hb.6, hb.7⟩
  have hl' : Landing { s with copies := copies } fin (i :: (rest ++ s.staged)) :=
    ⟨h.landing.1, h.landing.2, h.landing.3⟩
  obtain ⟨h', tok, pos, slots, heq, hc, hf, hev⟩ := copy_spec { s with copies := copies } i f
  have hcopy : { s with copies := copies }.copy (s.copyOf i f) = State.copied { s with copies := copies } h' tok pos slots :=
    heq
  rw [hcopy]
  have hcopyOf : (State.copied { s with copies := copies } h' tok pos slots).copyOf = s.copyOf := by
    funext j f'
    exact hc.copyOf j f'
  have hother : ∀ j, j ≠ i → slots j = s.slots j := hc.other
  have halone : i ∉ fin ∧ i ∉ rest ++ s.staged ++ s.free := hl'.alone hb'
  obtain ⟨hfin, hrest⟩ := halone
  rw [List.append_assoc] at hrest
  have hidle : ∀ j ∈ s.staged ++ s.free, (slots j).ev = none := fun j hj => by
    rw [hother j (ne_of_mem_of_not_mem (List.mem_append_right rest hj) hrest)]
    exact h.ev_idle j hj
  have hissued : ∀ j ∈ rest, (slots j).ev = some false := fun j hj => by
    rw [hother j (ne_of_mem_of_not_mem (List.mem_append_left _ hj) hrest)]
    exact h.ev_issued j (List.mem_cons_of_mem i hj)
  have hfin' : ∀ j ∈ fin, (slots j).ev ≠ some false := fun j hj => by
    rw [hother j (ne_of_mem_of_not_mem hj hfin)]
    exact h.ev_fin j hj
  by_cases htodo : todo = []
  · -- the event: the rows of the slot are in the arena
    subst htodo
    have hsplit : done ++ [f] = [.h, .tok, .pos, .rej, .d1] ++ [.ev] := hall
    obtain ⟨-, hlast⟩ := List.append_inj' hsplit rfl
    cases hlast
    refine ⟨fin ++ [i], rest, hc.base hb', ?_, fun j hj => ?_, hissued, hidle, fun hcuda => ?_, ?_⟩
    · refine (hc.landing hb' hl').land (hc.base hb') fun f' hd1 hev => ?_
      have hmem : f' ∈ Field.all := by cases f' <;> decide
      rw [← hall] at hmem
      refine hf f' (.inr (hdone f' ?_))
      obtain hmem | hmem := List.mem_append.mp hmem
      · exact hmem
      · exact absurd (List.mem_singleton.mp hmem) hev
    · obtain hj | hj := List.mem_append.mp hj
      · exact hfin' j hj
      · obtain rfl := List.mem_singleton.mp hj
        show (slots j).ev ≠ some false
        rw [hev, if_pos rfl]
        decide
    · exact absurd (h.cuda hcuda) (List.cons_ne_nil _ _)
    · refine .of_flatMap ?_
      rw [hcopyOf]
      exact hcopies.symm
  · have hne : f ≠ .ev := by
      rintro rfl
      have hnodup : Field.all.Nodup := by decide
      have hlast : Field.all.getLast? = some .ev := rfl
      rw [← hall] at hnodup hlast
      rw [List.getLast?_append_of_ne_nil done (List.cons_ne_nil _ _), List.getLast?_cons_of_ne_nil htodo] at hlast
      exact (List.nodup_cons.mp (List.nodup_append.mp hnodup).2.1).1 (List.mem_of_getLast? hlast)
    rw [if_neg hne] at hev
    refine ⟨fin, i :: rest, hc.base hb', hc.landing hb' hl', hfin', fun j hj => ?_, hidle, h.cuda, ?_⟩
    · obtain rfl | hj := List.mem_cons.mp hj
      · exact hev.trans (h.ev_issued j List.mem_cons_self)
      · exact hissued j hj
    · refine ⟨done ++ [f], todo, by rw [List.append_assoc]; exact hall, htodo, ?_, fun f' hf' => ?_⟩
      · rw [hcopyOf]
        exact hcopies.symm
      · obtain hf' | hf' := List.mem_append.mp hf'
        · exact hf f' (.inr (hdone f' hf'))
        · exact hf f' (.inl (List.mem_singleton.mp hf'))

/-- Copies that are issued stay so where nothing of their slots and of the rows changes. -/
lemma Pending.congr {s' : State H R} (hp : Pending s issued) (hcopies : s'.copies = s.copies)
    (hcap : s'.arena.cap = s.arena.cap) (hh : s'.arena.h = s.arena.h) (htok : s'.arena.tok = s.arena.tok)
    (hpos : s'.arena.pos = s.arena.pos) (hslots : ∀ j ∈ issued, s'.slots j = s.slots j) : Pending s' issued := by
  have hcopyOf (j : Bool) (hj : j ∈ issued) : s'.copyOf j = s.copyOf j := by
    funext f
    rw [State.copyOf, State.copyOf, hslots j hj, hcap]
  cases issued with
  | nil => exact hcopies.trans hp
  | cons i rest =>
    obtain ⟨done, todo, hall, hne, hold, hdone⟩ := hp
    refine ⟨done, todo, hall, hne, ?_, fun f hf => ?_⟩
    · rw [hcopies, hold, hcopyOf i List.mem_cons_self]
      congr 1
      exact List.flatMap_congr fun j hj => by rw [hcopyOf j (List.mem_cons_of_mem i hj)]
    · have hland := hdone f hf
      rw [hslots i List.mem_cons_self]
      cases f with
      | h => rw [Landed, hh, hcap]; exact hland
      | tok => rw [Landed, htok, hcap]; exact hland
      | pos => rw [Landed, hpos, hcap]; exact hland
      | _ => exact hland

section
variable {slots : Bool → Slot H R}

/-- The drafts and the events of the slots say nothing of their rows. -/
lemma Landing.same (hl : Landing s fin rest)
    (hsame : ∀ j, ∃ d1D ev, slots j = { s.slots j with d1D := d1D, ev := ev }) :
    Landing { s with slots := slots } fin rest where
  inflight := hl.inflight
  rej j hj := by
    obtain ⟨d1D, ev, heq⟩ := hsame j
    dsimp only
    rw [heq]
    exact hl.rej j hj
  landed c hcap := by
    have hstart (j : Bool) : (slots j).start = (s.slots j).start ∧ (slots j).total = (s.slots j).total := by
      obtain ⟨d1D, ev, heq⟩ := hsame j
      rw [heq]
      exact ⟨rfl, rfl⟩
    obtain ⟨j, hj, hcov⟩ | ⟨hlt, hholds⟩ := hl.landed c hcap
    · refine .inl ⟨j, hj, ?_⟩
      dsimp only [Slot.Covers]
      rw [(hstart j).1, (hstart j).2]
      exact hcov
    · refine .inr ⟨fun j hj => ?_, hholds⟩
      dsimp only
      rw [(hstart j).1]
      exact hlt j hj

lemma copyOf_same (hsame : ∀ j, ∃ d1D ev, slots j = { s.slots j with d1D := d1D, ev := ev }) :
    ({ s with slots := slots } : State H R).copyOf = s.copyOf := by
  funext j f
  obtain ⟨d1D, ev, heq⟩ := hsame j
  dsimp only [State.copyOf]
  rw [heq]

lemma Pending.same (hp : Pending s issued)
    (hsame : ∀ j, ∃ d1D ev, slots j = { s.slots j with d1D := d1D, ev := ev }) :
    Pending { s with slots := slots } issued := by
  cases issued with
  | nil => exact hp
  | cons i rest =>
    obtain ⟨done, todo, hall, hne, hcopies, hdone⟩ := hp
    refine ⟨done, todo, hall, hne, ?_, fun f hf => ?_⟩
    · rw [copyOf_same hsame]
      exact hcopies
    · obtain ⟨d1D, ev, heq⟩ := hsame i
      dsimp only
      rw [heq]
      have hland := hdone f hf
      cases f <;> exact hland

end

/-- The drafts or the event of one slot are set. -/
lemma same_update (s : State H R) (i : Bool) (d1D : ℕ → ℤ) (ev : Option Bool) (j : Bool) :
    ∃ d1D' ev', Function.update s.slots i { s.slots i with d1D := d1D, ev := ev } j =
      { s.slots j with d1D := d1D', ev := ev' } := by
  by_cases hj : j = i
  · subst hj
    exact ⟨d1D, ev, Function.update_self _ _ _⟩
  · rw [Function.update_of_ne hj]
    exact ⟨_, _, rfl⟩

/-- One more slot whose copies are issued. -/
lemma Pending.concat (hp : Pending s issued) (i : Bool) (staged : List Bool) :
    Pending { s with staged := staged, copies := s.copies ++ s.pairs i ++ [s.copyOf i .ev] } (issued ++ [i]) := by
  cases issued with
  | nil =>
    refine .of_flatMap ?_
    dsimp only
    rw [hp]
    rfl
  | cons j rest =>
    obtain ⟨done, todo, hall, hne, hcopies, hdone⟩ := hp
    have hflat : (rest ++ [i]).flatMap (fun j => Field.all.map (s.copyOf j)) =
        rest.flatMap (fun j => Field.all.map (s.copyOf j)) ++ (s.pairs i ++ [s.copyOf i .ev]) := by
      rw [List.flatMap_append, List.flatMap_singleton]
      rfl
    have happend : s.copies ++ s.pairs i ++ [s.copyOf i .ev] =
        todo.map (s.copyOf j) ++ (rest ++ [i]).flatMap (fun j => Field.all.map (s.copyOf j)) := by
      rw [hflat, hcopies, List.append_assoc, List.append_assoc]
    exact ⟨done, todo, hall, hne, happend, hdone⟩

/-- `flush` of the slot that was staged first. -/
lemma Stream.flush (h : Stream cfg s fin issued) (hb : Base E cfg s) (hs : s.staged.head? = some i) :
    ∃ fin' issued', Base E cfg (s.flush cfg i) ∧ Stream cfg (s.flush cfg i) fin' issued' := by
  obtain ⟨rest, hstaged⟩ := List.head?_eq_some_iff.mp hs
  have herase : s.staged.erase i = rest := by rw [hstaged, List.erase_cons_head]
  have hl := h.landing
  rw [hstaged] at hl
  rw [State.flush, herase]
  by_cases hcuda : cfg.cuda = false
  · -- without a stream the copies are carried out at once
    obtain rfl := h.cuda hcuda
    rw [if_pos hcuda]
    have hb' : Base E cfg { s with staged := rest } := ⟨hb.1, hb.2, hb.3, hb.4, hb.5, hb.6, hb.7⟩
    have hl' : Landing { s with staged := rest } fin (i :: rest) := ⟨hl.1, hl.2, hl.3⟩
    obtain ⟨h', tok, pos, slots, heq, hc, hf, hev⟩ := copies_spec { s with staged := rest } i [.h, .tok, .pos, .rej, .d1]
    have heq' : (State.pairs { s with staged := rest } i).foldl State.copy { s with staged := rest } =
      State.copied { s with staged := rest } h' tok pos slots := heq
    rw [heq']
    have halone : i ∉ fin ∧ i ∉ rest ++ s.free := hl'.alone hb'
    have hidle : (s.slots i).ev = none := h.ev_idle i (by rw [hstaged]; exact List.mem_append_left _ List.mem_cons_self)
    refine ⟨fin ++ [i], [], hc.base hb', (hc.landing hb' hl').land (hc.base hb') fun f hd1 hev => ?_, fun j hj => ?_,
      fun j hj => absurd hj List.not_mem_nil, fun j hj => ?_, fun _ => rfl, h.pending⟩
    · refine hf f (.inl ?_)
      cases f <;> first | decide | contradiction
    · obtain hj | hj := List.mem_append.mp hj
      · rw [show (State.copied { s with staged := rest } h' tok pos slots).slots j = s.slots j from
          hc.other j (ne_of_mem_of_not_mem hj halone.1)]
        exact h.ev_fin j hj
      · obtain rfl := List.mem_singleton.mp hj
        rw [show ((State.copied { s with staged := rest } h' tok pos slots).slots j).ev = none from
          (hev (by decide)).trans hidle]
        exact nofun
    · rw [show (State.copied { s with staged := rest } h' tok pos slots).slots j = s.slots j from
        hc.other j (ne_of_mem_of_not_mem hj halone.2)]
      refine h.ev_idle j ?_
      rw [hstaged]
      exact List.mem_cons_of_mem i hj
  · rw [if_neg hcuda]
    have hb' : Base E cfg { s with staged := rest, copies := s.copies ++ s.pairs i ++ [s.copyOf i .ev] } :=
      ⟨hb.1, hb.2, hb.3, hb.4, hb.5, hb.6, hb.7⟩
    have hl' : Landing { s with staged := rest, copies := s.copies ++ s.pairs i ++ [s.copyOf i .ev] } fin
        (issued ++ [i] ++ rest) := by
      rw [show issued ++ [i] ++ rest = issued ++ i :: rest from List.append_assoc _ _ _]
      exact ⟨hl.1, hl.2, hl.3⟩
    have hnodup := hb.nodup
    rw [hl.inflight, List.append_assoc, List.append_assoc, List.nodup_append] at hnodup
    have hnodup' := List.nodup_append.mp hnodup.2.1
    have hfin : i ∉ fin := fun hi => hnodup.2.2 i hi i (List.mem_append_right _ List.mem_cons_self) rfl
    have hidle : i ∉ rest ++ s.free := (List.nodup_cons.mp hnodup'.2.1).1
    have hsame := same_update s i (s.slots i).d1D (some false)
    refine ⟨fin, issued ++ [i], (Copied.setSlot _ _ _ _).base hb', hl'.same hsame, fun j hj => ?_, fun j hj => ?_,
      fun j hj => ?_, fun h => absurd h hcuda, (h.pending.concat i rest).same hsame⟩
    · show (Function.update s.slots i _ j).ev ≠ some false
      rw [Function.update_of_ne (ne_of_mem_of_not_mem hj hfin)]
      exact h.ev_fin j hj
    · show (Function.update s.slots i _ j).ev = some false
      by_cases hj' : j = i
      · subst hj'
        rw [Function.update_self]
      · rw [Function.update_of_ne hj']
        obtain hj | hj := List.mem_append.mp hj
        · exact h.ev_issued j hj
        · exact absurd (List.mem_singleton.mp hj) hj'
    · show (Function.update s.slots i _ j).ev = none
      rw [Function.update_of_ne (ne_of_mem_of_not_mem hj hidle)]
      refine h.ev_idle j ?_
      rw [hstaged]
      exact List.mem_cons_of_mem i hj

/-- `enqueue_drafts`. -/
lemma Stream.enqueueDrafts (h : Stream cfg s fin issued) (hb : Base E cfg s) (i : Bool) (drafts : ℕ → ℤ) :
    Base E cfg (s.enqueueDrafts i drafts) ∧ Stream cfg (s.enqueueDrafts i drafts) fin issued := by
  have hsame := same_update s i (fun j =>
    if j < (s.slots i).entries.length then drafts (((s.slots i).entries.map fun e => e.i).getD j 0) else (s.slots i).d1D j)
    (s.slots i).ev
  have hev (j : Bool) : ((s.enqueueDrafts i drafts).slots j).ev = (s.slots j).ev := by
    show (Function.update s.slots i _ j).ev = _
    by_cases hj : j = i
    · subst hj
      rw [Function.update_self]
    · rw [Function.update_of_ne hj]
  refine ⟨(Copied.setSlot (s.slots i).rej _ (s.slots i).d1 (s.slots i).ev).base hb, h.landing.same hsame,
    fun j hj => ?_, fun j hj => ?_, fun j hj => ?_, h.cuda, h.pending.same hsame⟩
  · rw [hev]
    exact h.ev_fin j hj
  · rw [hev]
    exact h.ev_issued j hj
  · rw [hev]
    exact h.ev_idle j hj

/-! ## Absorbing a slot -/

/-- A draft is noted for a counter that is alive. -/
lemma drafted_update (hlt : ∀ c, s.captured c ≠ none → c < s.arena.written)
    (hd : ∀ c, s.captured c ≠ none → s.arena.Alive c → s.arena.d1 (c % s.arena.cap) = s.drafted c) {c1 : ℕ}
    (halive : s.arena.Alive c1) (hc1 : c1 < s.arena.written) (d : ℤ) (c : ℕ) (hcap : s.captured c ≠ none)
    (hc : s.arena.Alive c) :
    Function.update s.arena.d1 (c1 % s.arena.cap) d (c % s.arena.cap) = Function.update s.drafted c1 d c := by
  by_cases heq : c = c1
  · subst heq
    rw [Function.update_self, Function.update_self]
  · have hne : c % s.arena.cap ≠ c1 % s.arena.cap := by
      obtain hlt' | hgt := Nat.lt_or_gt_of_ne heq
      · exact (hc.mod_ne hlt' hc1).symm
      · exact halive.mod_ne hgt (hlt c hcap)
    rw [Function.update_of_ne hne, Function.update_of_ne heq]
    exact hd c hcap hc

section
variable {slot : Slot H R} (hok : SlotOk E s.arena s.captured slot) (halive : s.arena.Alive slot.start)
variable (hpos : ∀ t < slot.total, s.arena.pos ((slot.start + t) % s.arena.cap) = slot.pos t)
variable (hlt : ∀ c, s.captured c ≠ none → c < s.arena.written)
variable (hd : ∀ c, s.captured c ≠ none → s.arena.Alive c → s.arena.d1 (c % s.arena.cap) = s.drafted c)
include hok halive hpos hlt hd

/-- An entry of a slot is joined: the rows of a request that were not rejected. -/
lemma joinEntry_spec {e : Entry R} {k bound : ℕ} (he : e ∈ slot.entries) (hrej : 0 ≤ slot.rej k)
    (hbound : bound ≤ slot.start + e.off) (hw : Windows E cfg s.captured bound s.reqs s.emitted) :
    ∃ d1 drafted reqs emitted train held, State.joinEntry cfg slot s (e, k) = { s with
      arena := { s.arena with d1 := d1 }
      drafted := drafted
      reqs := reqs
      emitted := emitted
      train := train
      held := held } ∧ (∀ c, s.captured c ≠ none → s.arena.Alive c → d1 (c % s.arena.cap) = drafted c) ∧
      ∃ bound', bound' ≤ slot.start + (e.off + e.rows) ∧ Windows E cfg s.captured bound' reqs emitted := by
  have hin := hok.inside e he
  rw [State.joinEntry]
  generalize hvalid : (max 0 ((e.rows : ℤ) - slot.rej k)).toNat = valid
  have hrows : valid ≤ e.rows := by omega
  by_cases hzero : valid = 0
  · dsimp only
    rw [if_pos hzero]
    exact ⟨_, _, _, _, _, _, rfl, hd, bound, by omega, hw⟩
  · have hnew : ∀ t < valid, ∃ row, s.captured (slot.start + e.off + t) = some (e.rid, row) ∧
        (E → row.pos = s.arena.pos ((slot.start + e.off) % s.arena.cap) + (t : ℤ)) := by
      intro t ht
      obtain ⟨row, hrow⟩ := hok.own e he t (by omega)
      obtain ⟨rid, hstaged⟩ := hok.staged (e.off + t) (by omega)
      rw [hrow] at hstaged
      cases hstaged
      refine ⟨_, by rw [Nat.add_assoc]; exact hrow, fun hE => ?_⟩
      rw [hpos e.off (by omega)]
      exact hok.steady hE e he t (by omega)
    -- the last row that stays has the draft
    have hlast : slot.start + e.off + valid - 1 < s.arena.written := by
      have hle := hok.le
      omega
    have hd' := drafted_update hlt hd (halive.of_le (by omega)) hlast (slot.d1 k)
    dsimp only
    rw [if_neg hzero]
    split
    case isTrue =>
      obtain ⟨reqs, ws, train, held, heq, hw'⟩ := Windows.append (s := { s with
        arena := { s.arena with
          d1 := Function.update s.arena.d1 ((slot.start + e.off + valid - 1) % s.arena.cap) (slot.d1 k) }
        drafted := Function.update s.drafted (slot.start + e.off + valid - 1) (slot.d1 k) }) hw hbound hnew e.plen
      rw [heq]
      exact ⟨_, _, _, _, _, _, rfl, hd', _, by omega, hw'⟩
    case isFalse =>
      obtain ⟨reqs, ws, train, held, heq, hw'⟩ := Windows.append (s := s) hw hbound hnew e.plen
      rw [heq]
      exact ⟨_, _, _, _, _, _, rfl, hd, _, by omega, hw'⟩

/-- The entries of a slot are joined. -/
lemma joinEntries {entries : List (Entry R)} {k bound : ℕ} (hsub : entries ⊆ slot.entries)
    (hsorted : entries.Pairwise fun e e' => e.off + e.rows ≤ e'.off)
    (hrej : ∀ j < entries.length, 0 ≤ slot.rej (k + j)) (hend : bound ≤ slot.start + slot.total)
    (hbound : ∀ e ∈ entries, bound ≤ slot.start + e.off) (hw : Windows E cfg s.captured bound s.reqs s.emitted) :
    ∃ d1 drafted reqs emitted train held, (entries.zipIdx k).foldl (State.joinEntry cfg slot) s = { s with
      arena := { s.arena with d1 := d1 }
      drafted := drafted
      reqs := reqs
      emitted := emitted
      train := train
      held := held } ∧ (∀ c, s.captured c ≠ none → s.arena.Alive c → d1 (c % s.arena.cap) = drafted c) ∧
      ∃ bound', bound' ≤ slot.start + slot.total ∧ Windows E cfg s.captured bound' reqs emitted := by
  induction entries generalizing s k bound with
  | nil => exact ⟨_, _, _, _, _, _, rfl, hd, bound, hend, hw⟩
  | cons e entries ih =>
    rw [List.zipIdx_cons, List.foldl_cons]
    obtain ⟨hfirst, hsorted⟩ := List.pairwise_cons.mp hsorted
    have he := hsub List.mem_cons_self
    have hin := hok.inside e he
    obtain ⟨d1, drafted, reqs, emitted, train, held, heq, hd', bound', hbound', hw'⟩ :=
      joinEntry_spec hok halive hpos hlt hd he (hrej 0 (Nat.zero_lt_succ _)) (hbound e List.mem_cons_self) hw
    rw [Nat.add_zero] at heq
    have hrej' : ∀ j < entries.length, 0 ≤ slot.rej (k + 1 + j) := fun j hj => by
      have h := hrej (j + 1) (Nat.succ_lt_succ hj)
      rwa [Nat.add_comm j 1, ← Nat.add_assoc] at h
    have hbound'' : ∀ e' ∈ entries, bound' ≤ slot.start + e'.off := fun e' he' => by
      have := hfirst e' he'
      omega
    rw [heq]
    exact ih (s := { s with
      arena := { s.arena with d1 := d1 }
      drafted := drafted
      reqs := reqs
      emitted := emitted
      train := train
      held := held }) ⟨hok.1, hok.2, hok.3, hok.4, hok.5, hok.6, hok.7, hok.8⟩ halive hpos hlt hd'
      (fun e' he' => hsub (List.mem_cons_of_mem e he')) hsorted hrej' (by omega) hbound'' hw'

end

/-- The entries of the first slot in flight are joined, unless they are dead. -/
lemma Base.entries (hb : Base E cfg s) (hrest : s.inflight = i :: rest)
    (hrej : ∀ j < (s.slots i).entries.length, (s.slots i).rej j = (s.slots i).rejD j)
    (hholds : ∀ c, s.captured c ≠ none → (s.slots i).Covers c → Holds s.arena s.captured c) :
    ∃ d1 drafted reqs emitted train held, (if s.arena.Alive (s.slots i).start then
      (s.slots i).entries.zipIdx.foldl (State.joinEntry cfg (s.slots i)) { s with inflight := rest }
      else { s with inflight := rest }) = { s with
        inflight := rest
        arena := { s.arena with d1 := d1 }
        drafted := drafted
        reqs := reqs
        emitted := emitted
        train := train
        held := held } ∧ (∀ c, s.captured c ≠ none → s.arena.Alive c → d1 (c % s.arena.cap) = drafted c) ∧
      ∃ bound, bound ≤ (s.slots i).start + (s.slots i).total ∧ Windows E cfg s.captured bound reqs emitted := by
  have hmem : i ∈ s.inflight := by
    rw [hrest]
    exact List.mem_cons_self
  have hok := hb.slot i hmem
  obtain ⟨bound, -, hstart, hw⟩ := hb.windows
  have hstart := hstart i hmem
  by_cases halive : s.arena.Alive (s.slots i).start
  · rw [if_pos halive]
    have hpos : ∀ t < (s.slots i).total, s.arena.pos (((s.slots i).start + t) % s.arena.cap) = (s.slots i).pos t := by
      intro t ht
      obtain ⟨rid, hrid⟩ := hok.staged t ht
      exact (hholds ((s.slots i).start + t) (by rw [hrid]; exact nofun) ⟨Nat.le_add_right _ _, Nat.add_lt_add_left ht _⟩ rid _ hrid
        (halive.of_le (Nat.le_add_right _ _))).2.2
    exact joinEntries (s := { s with inflight := rest }) hok halive hpos hb.lt hb.drafted (List.Subset.refl _)
      hok.sorted (fun j hj => by rw [Nat.zero_add, hrej j hj]; exact hok.rejD j hj)
      (Nat.le_trans hstart (Nat.le_add_right _ _)) (fun e _ => Nat.le_trans hstart (Nat.le_add_right _ _)) hw
  · rw [if_neg halive]
    exact ⟨_, _, _, _, _, _, rfl, hb.drafted, bound, Nat.le_trans hstart (Nat.le_add_right _ _), hw⟩

/-- The first slot in flight is absorbed. -/
lemma Stream.join (h : Stream cfg s (i :: fin) issued) (hb : Base E cfg s) (hrest : s.inflight = i :: rest) :
    Base E cfg (s.join cfg i rest) ∧ Stream cfg (s.join cfg i rest) fin issued ∧
      (s.join cfg i rest).staged = s.staged ∧ (s.join cfg i rest).inflight = rest := by
  have hinflight : i :: rest = i :: (fin ++ (issued ++ s.staged)) := hrest.symm.trans h.landing.inflight
  obtain rfl : rest = fin ++ (issued ++ s.staged) := (List.cons.inj hinflight).2
  have hsorted := hb.sorted
  have hnodup := hb.nodup
  rw [hrest] at hsorted hnodup
  obtain ⟨hnext, hsorted⟩ := List.pairwise_cons.mp hsorted
  obtain ⟨hout, hnodup⟩ := List.nodup_cons.mp hnodup
  have hmem (j : Bool) (hj : j ∈ fin ++ (issued ++ s.staged)) : j ∈ s.inflight := by
    rw [hrest]
    exact List.mem_cons_of_mem i hj
  -- what is captured in the slot's stretch is in the arena
  have hholds : ∀ c, s.captured c ≠ none → (s.slots i).Covers c → Holds s.arena s.captured c := by
    intro c hcap hcov
    obtain ⟨j, hj, hcov'⟩ | ⟨-, hholds⟩ := h.landing.landed c hcap
    · have := hnext j (List.mem_append_right fin hj)
      have := hcov.2
      have := hcov'.1
      omega
    · exact hholds
  obtain ⟨d1, drafted, reqs, emitted, train, held, heq, hd, bound, hbound, hw⟩ :=
    hb.entries hrest (h.landing.rej i List.mem_cons_self) hholds
  rw [State.join]
  dsimp only
  rw [heq]
  have hb' : Base E cfg { s with
      inflight := fin ++ (issued ++ s.staged)
      arena := { s.arena with d1 := d1 }
      drafted := drafted
      reqs := reqs
      emitted := emitted
      train := train
      held := held
      free := s.free ++ [i] } :=
    { reserved := hb.reserved
      lt := hb.lt
      nodup := by
        rw [← List.append_assoc, List.nodup_append]
        refine ⟨hnodup, List.nodup_singleton i, fun j hj j' hj' => ?_⟩
        obtain rfl := List.mem_singleton.mp hj'
        exact ne_of_mem_of_not_mem hj hout
      slot := fun j hj => by
        have hok := hb.slot j (hmem j hj)
        exact ⟨hok.1, hok.2, hok.3, hok.4, hok.5, hok.6, hok.7, hok.8⟩
      sorted := hsorted
      drafted := hd
      windows := ⟨bound, Nat.le_trans hbound (hb.slot i (by rw [hrest]; exact List.mem_cons_self)).le,
        fun j hj => Nat.le_trans hbound (hnext j hj), hw⟩ }
  have hl' : Landing { s with
      inflight := fin ++ (issued ++ s.staged)
      arena := { s.arena with d1 := d1 }
      drafted := drafted
      reqs := reqs
      emitted := emitted
      train := train
      held := held
      free := s.free ++ [i] } fin (issued ++ s.staged) :=
    ⟨rfl, fun j hj => h.landing.rej j (List.mem_cons_of_mem i hj), h.landing.landed⟩
  have hsame := same_update s i (s.slots i).d1D none
  have hev (j : Bool) (hj : j ≠ i) (slot : Slot H R) : (Function.update s.slots i slot j).ev = (s.slots j).ev := by
    rw [Function.update_of_ne hj]
  have hne (j : Bool) (hj : j ∈ fin ++ (issued ++ s.staged) ++ s.free) : j ≠ i := ne_of_mem_of_not_mem hj hout
  refine ⟨(Copied.setSlot _ _ _ _).base hb', ⟨hl'.same hsame, fun j hj => ?_, fun j hj => ?_, fun j hj => ?_, h.cuda, ?_⟩,
    rfl, rfl⟩
  · show (Function.update s.slots i _ j).ev ≠ some false
    rw [hev j (hne j (List.mem_append_left _ (List.mem_append_left _ hj)))]
    exact h.ev_fin j (List.mem_cons_of_mem i hj)
  · show (Function.update s.slots i _ j).ev = some false
    rw [hev j (hne j (List.mem_append_left _ (List.mem_append_right fin (List.mem_append_left _ hj))))]
    exact h.ev_issued j hj
  · show (Function.update s.slots i _ j).ev = none
    by_cases hj' : j = i
    · subst hj'
      rw [Function.update_self]
    · rw [hev j hj']
      refine h.ev_idle j ?_
      rw [← List.append_assoc] at hj
      obtain hj | hj := List.mem_append.mp hj
      · exact hj
      · exact absurd (List.mem_singleton.mp hj) hj'
  · have hp : Pending { s with
      inflight := fin ++ (issued ++ s.staged)
      arena := { s.arena with d1 := d1 }
      drafted := drafted
      reqs := reqs
      emitted := emitted
      train := train
      held := held
      free := s.free ++ [i] } issued := h.pending.congr rfl rfl rfl rfl rfl fun _ _ => rfl
    exact hp.same hsame

/-- The loop of `absorb`, with every slot flushed. -/
lemma absorbFrom_spec {l : List Bool} (h : Stream cfg s fin issued) (hb : Base E cfg s) (hs : s.staged = [])
    (hl : s.inflight = l) :
    ∃ fin' issued', Base E cfg (State.absorbFrom cfg l s) ∧ Stream cfg (State.absorbFrom cfg l s) fin' issued' := by
  induction l generalizing s fin with
  | nil => exact ⟨fin, issued, hb, h⟩
  | cons i rest ih =>
    rw [State.absorbFrom]
    split
    case isTrue => exact ⟨fin, issued, hb, h⟩
    case isFalse hev =>
      have hinflight := hl.symm.trans h.landing.inflight
      cases fin with
      | nil =>
        cases issued with
        | nil =>
          rw [hs] at hinflight
          cases hinflight
        | cons j issued =>
          cases hinflight
          exact absurd (h.ev_issued i List.mem_cons_self) hev
      | cons j fin =>
        cases hinflight
        obtain ⟨hb', h', hs', hl'⟩ := h.join hb hl
        exact ih h' hb' (hs'.trans hs) hl'

end SuffixHybrid.Capture
