import Mathlib.Tactic.Common
import SuffixHybrid.Capture.Windows

/-!
# The arena and the copies to it

The stretches that `reserve` gives lie in the ring one after the other, and none covers a counter that is alive
(`Reserved`). The slots whose rows are not in the arena yet are the last ones in flight; every other captured row
that is alive is in the arena (`Landing`), since a copy of a slot changes no row that is alive but the slot's own
(`Copied`).
-/

namespace SuffixHybrid.Capture
open Lib

variable {H R : Type} {a a' : Arena H} {captured captured' : ℕ → Option (R × Row H)}

/-! ## The ring -/

/-- A counter that is alive has no other place than those behind it. -/
lemma Arena.Alive.mod_ne {c c' : ℕ} (h : a.Alive c) (hlt : c < c') (hwritten : c' < a.written) :
    c' % a.cap ≠ c % a.cap := by
  intro heq
  have hdvd : a.cap ∣ c' - c := Nat.dvd_of_mod_eq_zero (Nat.sub_mod_eq_zero_of_mod_eq heq)
  have hle := Nat.le_of_dvd (by omega) hdvd
  unfold Arena.Alive at h
  omega

lemma Arena.Alive.of_le {c c' : ℕ} (h : a.Alive c) (hle : c ≤ c') : a.Alive c' := by
  unfold Arena.Alive at *
  omega

lemma Arena.Alive.of_written {c : ℕ} (h : a'.Alive c) (hcap : a'.cap = a.cap) (hle : a.written ≤ a'.written) :
    a.Alive c := by
  unfold Arena.Alive at *
  omega

/-- What `reserve` gives. -/
lemma Arena.reserve_spec {n start : ℕ} (hn : 0 < n) (h : a.reserve n = some (start, a')) :
    a.written ≤ start ∧ start % a.cap + n ≤ a.cap ∧ a' = { a with
      written := start + n
      d1 := fun x => if start % a.cap ≤ x ∧ x < start % a.cap + n then -1 else a.d1 x } := by
  rw [Arena.reserve] at h
  split at h
  case isTrue => cases h
  case isFalse hcap =>
    have hmod : a.written % a.cap < a.cap := Nat.mod_lt _ (by omega)
    have hdiv := Nat.div_add_mod a.written a.cap
    cases h
    split
    case isTrue =>
      -- the rest of the ring is left out
      have hstart : a.written + (a.cap - a.written % a.cap) = a.cap * (a.written / a.cap + 1) := by
        rw [Nat.mul_add, Nat.mul_one]
        omega
      refine ⟨by omega, ?_, rfl⟩
      rw [hstart, Nat.mul_mod_right]
      omega
    case isFalse => exact ⟨Nat.le_refl _, by omega, rfl⟩

/-- The stretches that are reserved. -/
structure Reserved (cap written : ℕ) (reserved : List (ℕ × ℕ)) : Prop where
  le : ∀ r ∈ reserved, r.1 + r.2 ≤ written
  fits : ∀ r ∈ reserved, r.1 % cap + r.2 ≤ cap
  sorted : reserved.Pairwise fun r r' => r.1 + r.2 ≤ r'.1

lemma Reserved.concat {cap written start n : ℕ} {reserved : List (ℕ × ℕ)} (h : Reserved cap written reserved)
    (hle : written ≤ start) (hfits : start % cap + n ≤ cap) : Reserved cap (start + n) (reserved ++ [(start, n)]) where
  le r hr := by
    obtain hr | hr := List.mem_append.mp hr
    · have := h.le r hr
      omega
    · obtain rfl := List.mem_singleton.mp hr
      exact Nat.le_refl _
  fits r hr := by
    obtain hr | hr := List.mem_append.mp hr
    · exact h.fits r hr
    · obtain rfl := List.mem_singleton.mp hr
      exact hfits
  sorted := by
    refine List.pairwise_append.mpr ⟨h.sorted, List.pairwise_singleton _ _, fun r hr r' hr' => ?_⟩
    obtain rfl := List.mem_singleton.mp hr'
    exact Nat.le_trans (h.le r hr) hle

/-! ## Slots -/

/-- The counter is one of the slot's. -/
def Slot.Covers (slot : Slot H R) (c : ℕ) : Prop := slot.start ≤ c ∧ c < slot.start + slot.total

/-- The row that is captured for a counter is in the arena, if the counter is alive. -/
def Holds (a : Arena H) (captured : ℕ → Option (R × Row H)) (c : ℕ) : Prop :=
  ∀ rid row, captured c = some (rid, row) → a.Alive c →
    a.h (c % a.cap) = row.h ∧ a.tok (c % a.cap) = row.tok ∧ a.pos (c % a.cap) = row.pos

/-- A slot in flight: a stretch of the arena, the rows that are captured for it, and the entries. -/
structure SlotOk (E : Prop) (a : Arena H) (captured : ℕ → Option (R × Row H)) (slot : Slot H R) : Prop where
  le : slot.start + slot.total ≤ a.written
  fits : slot.start % a.cap + slot.total ≤ a.cap
  inside : ∀ e ∈ slot.entries, e.off + e.rows ≤ slot.total
  sorted : slot.entries.Pairwise fun e e' => e.off + e.rows ≤ e'.off
  staged : ∀ t < slot.total, ∃ rid, captured (slot.start + t) = some (rid, ⟨slot.h t, slot.tok t, slot.pos t⟩)
  own : ∀ e ∈ slot.entries, ∀ t < e.rows, ∃ row, captured (slot.start + (e.off + t)) = some (e.rid, row)
  steady : E → ∀ e ∈ slot.entries, ∀ t < e.rows, slot.pos (e.off + t) = slot.pos e.off + (t : ℤ)
  rejD : ∀ j < slot.entries.length, 0 ≤ slot.rejD j

variable {E : Prop} {slot : Slot H R}

/-- A slot's place in the ring. -/
lemma SlotOk.mod (h : SlotOk E a captured slot) {t : ℕ} (ht : t < slot.total) :
    (slot.start + t) % a.cap = slot.start % a.cap + t := by
  have := h.fits
  rw [← Nat.mod_add_mod, Nat.mod_eq_of_lt (by omega)]

/-- What is behind the slot's rows changes nothing, and neither does what the copies to the host change. -/
lemma SlotOk.congr (h : SlotOk E a captured slot) (hcap : a'.cap = a.cap) (hle : a.written ≤ a'.written)
    (hsame : ∀ c < a.written, captured' c = captured c) (rej d1D d1 : ℕ → ℤ) (ev : Option Bool) :
    SlotOk E a' captured' { slot with rej := rej, d1D := d1D, d1 := d1, ev := ev } where
  le := Nat.le_trans h.le hle
  fits := hcap ▸ h.fits
  inside := h.inside
  sorted := h.sorted
  staged t ht := by
    have hlt : slot.start + t < a.written := Nat.lt_of_lt_of_le (Nat.add_lt_add_left ht _) h.le
    obtain ⟨rid, hrid⟩ := h.staged t ht
    exact ⟨rid, (hsame _ hlt).trans hrid⟩
  own e he t ht := by
    have hlt : slot.start + (e.off + t) < a.written := by
      have hle := h.le
      have hin := h.inside e he
      omega
    obtain ⟨row, hrow⟩ := h.own e he t ht
    exact ⟨row, (hsame _ hlt).trans hrow⟩
  steady := h.steady
  rejD := h.rejD

/-! ## Copies -/

/-- A field of the slot is copied. -/
def Landed (a : Arena H) (slot : Slot H R) : Field → Prop
  | .h => ∀ t < slot.total, a.h (slot.start % a.cap + t) = slot.h t
  | .tok => ∀ t < slot.total, a.tok (slot.start % a.cap + t) = slot.tok t
  | .pos => ∀ t < slot.total, a.pos (slot.start % a.cap + t) = slot.pos t
  | .rej => ∀ j < slot.entries.length, slot.rej j = slot.rejD j
  | .d1 => True
  | .ev => True

section
variable [DecidableEq R] {cfg : Config R} {s : State H R} {i : Bool} {fin rest : List Bool}
variable {h : ℕ → H} {tok pos : ℕ → ℤ} {slots : Bool → Slot H R}

/-- Other rows of the arena and other slots. -/
def State.copied (s : State H R) (h : ℕ → H) (tok pos : ℕ → ℤ) (slots : Bool → Slot H R) : State H R :=
  { s with
    arena := { s.arena with
      h := h
      tok := tok
      pos := pos }
    slots := slots }

/-- What the copies of a slot leave as it was. -/
structure Copied (i : Bool) (s : State H R) (h : ℕ → H) (tok pos : ℕ → ℤ) (slots : Bool → Slot H R) : Prop where
  host : ∀ j, ∃ rej d1D d1 ev, slots j = { s.slots j with rej := rej, d1D := d1D, d1 := d1, ev := ev }
  other : ∀ j, j ≠ i → slots j = s.slots j
  outside : ∀ x, ¬((s.slots i).start % s.arena.cap ≤ x ∧ x < (s.slots i).start % s.arena.cap + (s.slots i).total) →
    h x = s.arena.h x ∧ tok x = s.arena.tok x ∧ pos x = s.arena.pos x

lemma Copied.refl (i : Bool) (s : State H R) : Copied i s s.arena.h s.arena.tok s.arena.pos s.slots :=
  ⟨fun _ => ⟨_, _, _, _, rfl⟩, fun _ _ => rfl, fun _ _ => ⟨rfl, rfl, rfl⟩⟩

/-- What the host has of a slot is changed. -/
lemma Copied.setSlot (rej d1D d1 : ℕ → ℤ) (ev : Option Bool) : Copied i s s.arena.h s.arena.tok s.arena.pos
    (Function.update s.slots i { s.slots i with rej := rej, d1D := d1D, d1 := d1, ev := ev }) := by
  refine ⟨fun j => ?_, fun j hj => Function.update_of_ne hj _ _, fun x _ => ⟨rfl, rfl, rfl⟩⟩
  by_cases hj : j = i
  · subst hj
    exact ⟨rej, d1D, d1, ev, Function.update_self _ _ _⟩
  · rw [Function.update_of_ne hj]
    exact ⟨_, _, _, _, rfl⟩

omit [DecidableEq R] in
/-- A stretch that is copied. -/
lemma copied_range {α : Type} {u v : ℕ → α} {d n t : ℕ} (ht : t < n) :
    (if d ≤ d + t ∧ d + t < d + n then u (d + t - d) else v (d + t)) = u t := by
  rw [if_pos (by omega), Nat.add_sub_cancel_left]

/-- What the copy of a field does. -/
lemma copy_spec (s : State H R) (i : Bool) (f : Field) :
    ∃ h tok pos slots, s.copy (s.copyOf i f) = s.copied h tok pos slots ∧ Copied i s h tok pos slots ∧
      (∀ f', f' = f ∨ Landed s.arena (s.slots i) f' → Landed (s.copied h tok pos slots).arena (slots i) f') ∧
      (slots i).ev = if f = .ev then some true else (s.slots i).ev := by
  have hself : ∀ j, ∃ rej d1D d1 ev, s.slots j = { s.slots j with rej := rej, d1D := d1D, d1 := d1, ev := ev } :=
    fun j => ⟨_, _, _, _, rfl⟩
  have hev (slot : Slot H R) : (Function.update s.slots i slot i).ev = slot.ev := by rw [Function.update_self]
  have hland (slot : Slot H R) (f' : Field) (hf' : Landed s.arena slot f') :
      Landed s.arena (Function.update s.slots i slot i) f' := by
    rw [Function.update_self]
    exact hf'
  cases f with
  | h =>
    refine ⟨_, s.arena.tok, s.arena.pos, s.slots, rfl, ⟨hself, fun j _ => rfl, fun x hx => ⟨if_neg hx, rfl, rfl⟩⟩, fun f' hf' => ?_, rfl⟩
    cases f' with
    | h => exact fun t ht => copied_range ht
    | _ => exact hf'.resolve_left (by decide)
  | tok =>
    refine ⟨s.arena.h, _, s.arena.pos, s.slots, rfl, ⟨hself, fun j _ => rfl, fun x hx => ⟨rfl, if_neg hx, rfl⟩⟩, fun f' hf' => ?_, rfl⟩
    cases f' with
    | tok => exact fun t ht => copied_range ht
    | _ => exact hf'.resolve_left (by decide)
  | pos =>
    refine ⟨s.arena.h, s.arena.tok, _, s.slots, rfl, ⟨hself, fun j _ => rfl, fun x hx => ⟨rfl, rfl, if_neg hx⟩⟩, fun f' hf' => ?_, rfl⟩
    cases f' with
    | pos => exact fun t ht => copied_range ht
    | _ => exact hf'.resolve_left (by decide)
  | rej =>
    refine ⟨s.arena.h, s.arena.tok, s.arena.pos, _, rfl, Copied.setSlot _ _ _ _, fun f' hf' => ?_, hev _⟩
    refine hland _ _ ?_
    cases f' with
    | rej => exact fun j hj => if_pos hj
    | _ => exact hf'.resolve_left (by decide)
  | d1 =>
    refine ⟨s.arena.h, s.arena.tok, s.arena.pos, _, rfl, Copied.setSlot _ _ _ _, fun f' hf' => ?_, hev _⟩
    refine hland _ _ ?_
    cases f' with
    | d1 => trivial
    | _ => exact hf'.resolve_left (by decide)
  | ev =>
    refine ⟨s.arena.h, s.arena.tok, s.arena.pos, _, rfl, Copied.setSlot _ _ _ _, fun f' hf' => ?_, hev _⟩
    refine hland _ _ ?_
    cases f' with
    | ev => trivial
    | _ => exact hf'.resolve_left (by decide)

/-- The state of a store but for the copies: the slots in flight and what is known of the rows that are captured. -/
structure Base (E : Prop) (cfg : Config R) (s : State H R) : Prop where
  reserved : Reserved s.arena.cap s.arena.written s.reserved
  lt : ∀ c, s.captured c ≠ none → c < s.arena.written
  nodup : (s.inflight ++ s.free).Nodup
  slot : ∀ i ∈ s.inflight, SlotOk E s.arena s.captured (s.slots i)
  sorted : s.inflight.Pairwise fun i j => (s.slots i).start + (s.slots i).total ≤ (s.slots j).start
  drafted : ∀ c, s.captured c ≠ none → s.arena.Alive c → s.arena.d1 (c % s.arena.cap) = s.drafted c
  windows : ∃ bound, bound ≤ s.arena.written ∧ (∀ i ∈ s.inflight, bound ≤ (s.slots i).start) ∧
    Windows E cfg s.captured bound s.reqs s.emitted

/-- The rows of the slots `fin` are in the arena, those of the slots `rest` are not. -/
structure Landing (s : State H R) (fin rest : List Bool) : Prop where
  inflight : s.inflight = fin ++ rest
  rej : ∀ i ∈ fin, ∀ j < (s.slots i).entries.length, (s.slots i).rej j = (s.slots i).rejD j
  landed : ∀ c, s.captured c ≠ none →
    (∃ i ∈ rest, (s.slots i).Covers c) ∨ (∀ i ∈ rest, c < (s.slots i).start) ∧ Holds s.arena s.captured c

/-- The first slot whose rows are not in the arena is in the lists once. -/
lemma Landing.alone (hl : Landing s fin (i :: rest)) (hb : Base E cfg s) : i ∉ fin ∧ i ∉ rest ++ s.free := by
  have hnodup := hb.nodup
  rw [hl.inflight, List.append_assoc] at hnodup
  obtain ⟨-, hnodup, hdisj⟩ := List.nodup_append.mp hnodup
  exact ⟨fun hi => hdisj i hi i List.mem_cons_self rfl, (List.nodup_cons.mp hnodup).1⟩

namespace Copied

variable (hc : Copied i s h tok pos slots)
include hc

lemma start (j : Bool) : (slots j).start = (s.slots j).start := by
  obtain ⟨rej, d1D, d1, ev, heq⟩ := hc.host j
  rw [heq]

lemma total (j : Bool) : (slots j).total = (s.slots j).total := by
  obtain ⟨rej, d1D, d1, ev, heq⟩ := hc.host j
  rw [heq]

lemma entries (j : Bool) : (slots j).entries = (s.slots j).entries := by
  obtain ⟨rej, d1D, d1, ev, heq⟩ := hc.host j
  rw [heq]

lemma copyOf (j : Bool) (f : Field) : (s.copied h tok pos slots).copyOf j f = s.copyOf j f := by
  dsimp only [State.copyOf, State.copied]
  rw [hc.start, hc.total, hc.entries]

lemma trans {h' : ℕ → H} {tok' pos' : ℕ → ℤ} {slots' : Bool → Slot H R}
    (hc' : Copied i (s.copied h tok pos slots) h' tok' pos' slots') : Copied i s h' tok' pos' slots' where
  host j := by
    obtain ⟨rej, d1D, d1, ev, heq⟩ := hc.host j
    obtain ⟨rej', d1D', d1', ev', heq'⟩ := hc'.host j
    refine ⟨rej', d1D', d1', ev', heq'.trans ?_⟩
    dsimp only [State.copied]
    rw [heq]
  other j hj := (hc'.other j hj).trans (hc.other j hj)
  outside x hx := by
    have hx' := hx
    rw [← hc.start, ← hc.total] at hx'
    have hout := hc.outside x hx
    have hout' := hc'.outside x hx'
    exact ⟨hout'.1.trans hout.1, hout'.2.1.trans hout.2.1, hout'.2.2.trans hout.2.2⟩

/-- The copies keep the state of the store. -/
lemma base (hb : Base E cfg s) : Base E cfg (s.copied h tok pos slots) where
  reserved := hb.reserved
  lt := hb.lt
  nodup := hb.nodup
  slot j hj := by
    obtain ⟨rej, d1D, d1, ev, heq⟩ := hc.host j
    have hcap : (s.copied h tok pos slots).arena.cap = s.arena.cap := rfl
    have hok := (hb.slot j hj).congr hcap (Nat.le_refl _) (fun _ _ => rfl) rej d1D d1 ev
    rw [← heq] at hok
    exact hok
  sorted := hb.sorted.imp fun {j j'} hle => by
    dsimp only [State.copied]
    rw [hc.start, hc.total, hc.start]
    exact hle
  drafted := hb.drafted
  windows := by
    obtain ⟨bound, hbound, hstart, hw⟩ := hb.windows
    refine ⟨bound, hbound, fun j hj => ?_, hw⟩
    dsimp only [State.copied]
    rw [hc.start]
    exact hstart j hj

/-- The copies of the first slot whose rows are not in the arena change no row that is alive but its own. -/
lemma landing (hb : Base E cfg s) (hl : Landing s fin (i :: rest)) :
    Landing (s.copied h tok pos slots) fin (i :: rest) where
  inflight := hl.inflight
  rej j hj n hn := by
    have hne : j ≠ i := ne_of_mem_of_not_mem hj (hl.alone hb).1
    dsimp only [State.copied] at hn ⊢
    rw [hc.other j hne] at hn ⊢
    exact hl.rej j hj n hn
  landed c hcap := by
    obtain ⟨j, hj, hcov⟩ | ⟨hlt, hholds⟩ := hl.landed c hcap
    · refine .inl ⟨j, hj, ?_⟩
      dsimp only [State.copied, Slot.Covers]
      rw [hc.start, hc.total]
      exact hcov
    · refine .inr ⟨fun j hj => ?_, fun rid row hrow halive => ?_⟩
      · dsimp only [State.copied]
        rw [hc.start]
        exact hlt j hj
      · have hok := hb.slot i (by rw [hl.inflight]; exact List.mem_append_right _ List.mem_cons_self)
        have hout := hc.outside (c % s.arena.cap) fun hin => by
          obtain ⟨t, ht⟩ := Nat.exists_eq_add_of_le hin.1
          have htotal : t < (s.slots i).total := by omega
          have hle := hok.le
          have hlt := hlt i List.mem_cons_self
          have hbehind : c < (s.slots i).start + t := by omega
          have hwritten : (s.slots i).start + t < s.arena.written := by omega
          have hne := Arena.Alive.mod_ne (a := s.arena) halive hbehind hwritten
          rw [hok.mod htotal] at hne
          exact hne ht.symm
        have hold := hholds rid row hrow halive
        rw [← hout.1, ← hout.2.1, ← hout.2.2] at hold
        exact hold

end Copied

/-- The copies of some fields. -/
lemma copies_spec (s : State H R) (i : Bool) (fields : List Field) :
    ∃ h tok pos slots, (fields.map (s.copyOf i)).foldl State.copy s = s.copied h tok pos slots ∧
      Copied i s h tok pos slots ∧
      (∀ f, f ∈ fields ∨ Landed s.arena (s.slots i) f → Landed (s.copied h tok pos slots).arena (slots i) f) ∧
      (.ev ∉ fields → (slots i).ev = (s.slots i).ev) := by
  induction fields generalizing s with
  | nil => exact ⟨_, _, _, _, rfl, Copied.refl i s, fun f hf => hf.resolve_left List.not_mem_nil, fun _ => rfl⟩
  | cons f fields ih =>
    obtain ⟨h, tok, pos, slots, heq, hc, hland, hev⟩ := copy_spec s i f
    have hcopyOf : (s.copied h tok pos slots).copyOf i = s.copyOf i := funext (hc.copyOf i)
    obtain ⟨h', tok', pos', slots', heq', hc', hland', hev'⟩ := ih (s.copied h tok pos slots)
    rw [List.map_cons, List.foldl_cons, heq, ← hcopyOf, heq']
    refine ⟨h', tok', pos', slots', rfl, hc.trans hc', fun f' hf' => hland' f' ?_, fun hno => ?_⟩
    · obtain hf' | hf' := hf'
      · obtain rfl | hf' := List.mem_cons.mp hf'
        · exact .inr (hland f' (.inl rfl))
        · exact .inl hf'
      · exact .inr (hland f' (.inr hf'))
    · rw [List.mem_cons, not_or] at hno
      rw [hev' hno.2]
      exact hev.trans (if_neg (Ne.symm hno.1))

/-- The rows of the next slot are in the arena. -/
lemma Landing.land (hl : Landing s fin (i :: rest)) (hb : Base E cfg s)
    (hf : ∀ f, f ≠ .d1 → f ≠ .ev → Landed s.arena (s.slots i) f) : Landing s (fin ++ [i]) rest where
  inflight := by
    rw [List.append_assoc]
    exact hl.inflight
  rej j hj := by
    obtain hj | hj := List.mem_append.mp hj
    · exact hl.rej j hj
    · obtain rfl := List.mem_singleton.mp hj
      exact hf .rej (by decide) (by decide)
  landed c hcap := by
    have hmem : i ∈ s.inflight := by
      rw [hl.inflight]
      exact List.mem_append_right _ List.mem_cons_self
    obtain ⟨j, hj, hcov⟩ | ⟨hlt, hholds⟩ := hl.landed c hcap
    · obtain rfl | hj := List.mem_cons.mp hj
      · refine .inr ⟨fun j' hj' => ?_, fun rid row hrow halive => ?_⟩
        · have hsorted := hb.sorted
          rw [hl.inflight, List.pairwise_append, List.pairwise_cons] at hsorted
          exact Nat.lt_of_lt_of_le hcov.2 (hsorted.2.1.1 j' hj')
        · have hok := hb.slot j hmem
          obtain ⟨t, rfl⟩ := Nat.exists_eq_add_of_le hcov.1
          have ht : t < (s.slots j).total := Nat.lt_of_add_lt_add_left hcov.2
          obtain ⟨rid', hstaged⟩ := hok.staged t ht
          rw [hrow] at hstaged
          cases hstaged
          rw [hok.mod ht]
          exact ⟨hf .h (by decide) (by decide) t ht, hf .tok (by decide) (by decide) t ht,
            hf .pos (by decide) (by decide) t ht⟩
      · exact .inl ⟨j, hj, hcov⟩
    · exact .inr ⟨fun j hj => hlt j (List.mem_cons_of_mem i hj), hholds⟩

end

end SuffixHybrid.Capture
