import Mathlib.Algebra.BigOperators.Group.Finset.Basic
import Mathlib.Algebra.Field.Rat
import Mathlib.Data.Fintype.Basic
import SuffixHybrid.Lib.Lockstep

/-!
# The votes of an op

Every op begins with a liveness vote of the ranks, and some go on with votes on memory before they come to
the model. The head of an op is what a rank does up to the model forward, with its decision; an op without a
forward has its collectives in the head. The rest of an op is local, but for the vote on the gradients behind
the first micro-batch.
-/

namespace SuffixHybrid.SftVotes
open Lib

/-! ## Ops and ranks -/

/-- `OPS`, and any other string. -/
inductive Op where
  | info
  | begin
  | micro
  | step
  | eval
  | save
  | commit
  | abort
  | load
  | reset
  | diag
  | kvFree
  | kvRestore
  | other
  deriving DecidableEq

/-- `RUN_OPS`. -/
def Op.needsRun : Op → Bool
  | .micro | .step | .commit => true
  | _ => false

/-- The ops that leave the run alone when they fail. -/
def Op.keepsRun : Op → Bool
  | .info | .eval | .save | .diag => true
  | _ => false

/-- What is the same on all ranks: the device, the limits, whether host checkpoints are on and what they
need, whether some factor is replicated, and `SUFFIX_SFT_DIAG`. -/
structure Config where
  cuda : Bool
  minFree : ℕ
  hostCkpt : Bool
  reserve : ℚ
  bytesPerToken : Option ℕ
  replicated : Bool
  diag : Bool

/-- The payload of a call: the tokens, whether `batch_rows` takes it, whether a token is trained, and
`check`. -/
structure Payload where
  tokens : ℕ
  batch : Bool
  targets : Bool
  check : Bool

/-- The limit of a control group (missing for "max"), its usage and its reclaimable cache. -/
structure Cgroup where
  limit : Option ℕ
  current : ℕ
  inactive : ℕ

/-- `_cgroup_headroom`: the files that cannot be read are skipped. -/
def headroom : List (Option Cgroup) → Option ℤ
  | [] => none
  | none :: rest => headroom rest
  | some g :: _ => g.limit.bind fun limit =>
    if 1 <<< 60 ≤ limit then none else some (limit - (g.current - g.inactive : ℤ))

/-- Whether SFT is installed on a rank, and its run, with or without a gradient. -/
structure Rank where
  installed : Bool
  run : Option Bool

/-- What an op meets on a rank: the free memory, the control groups (v2 and v1), the pinned blocks, whether
its norm is finite; then whether anything behind the votes raises, the adapters without a gradient, and
whether there is a gradient. -/
structure Local where
  free : ℕ
  cgroups : List (Option Cgroup)
  pinned : ℕ
  finite : Bool
  raises : Bool
  unreached : ℕ
  gradient : Bool

/-! ## Collectives -/

/-- The `all_reduce` calls of an op. -/
inductive Coll where
  | live
  | memory
  | host
  | replicated
  | shard
  | reach
  deriving DecidableEq

/-- What a rank brings to a collective or gets from it. -/
inductive Msg where
  | flag (b : Bool)
  | sums (need cached room : ℚ)
  deriving DecidableEq

/-- The flag of a message. -/
def Msg.set : Msg → Bool
  | .flag b => b
  | .sums _ _ _ => false

/-- A field of a message of numbers. -/
def Msg.get (f : ℚ → ℚ → ℚ → ℚ) : Msg → ℚ
  | .flag _ => 0
  | .sums need cached room => f need cached room

/-- The sum over the ranks; a flag is set when some rank sets it. -/
def allReduce {n : ℕ} : Coll → (Fin n → Msg) → Msg
  | .host, x => .sums (∑ r, (x r).get fun a _ _ => a) (∑ r, (x r).get fun _ b _ => b) (∑ r, (x r).get fun _ _ c => c)
  | _, x => .flag (decide (∃ r, (x r).set = true))

/-- A program of one rank. -/
abbrev Prog (α : Type) : Type := Proc Coll Msg Msg α

/-- A collective, where there is more than one rank. -/
def reduce (world : ℕ) (c : Coll) (x : Msg) : Prog Msg := if 1 < world then .sync c x .done else .done x

/-! ## The head of an op -/

/-- What an op comes to on a rank. -/
inductive Decision where
  | refused
  | noMemory
  | badBatch
  | noHost
  | noTargets
  | noDiag
  | noGradient
  | notFinite
  | go
  deriving DecidableEq

section
variable (world : ℕ) (cfg : Config) (p : Payload) (a : Local) (s : Rank)

/-- `_mem_vote`: whether a rank has less than the limit. -/
def memVote : Prog Bool := (reduce world .memory (.flag (cfg.cuda && decide (a.free < cfg.minFree)))).bind
  fun y => .done y.set

/-- Whether the tokens need more than there is. -/
def tooMuch (y : Msg) : Bool :=
  decide (y.get (fun _ _ c => c) / world + y.get (fun _ b _ => b) - cfg.reserve < y.get fun a _ _ => a)

/-- `_host_vote`: whether it raises. A rank without a limit leaves it before the vote. -/
def hostVote : Prog Bool :=
  if cfg.hostCkpt then
    match headroom a.cgroups with
    | none => .done false
    | some room => match cfg.bytesPerToken with
      | none => .done true
      | some bytes => (reduce world .host (.sums (p.tokens * bytes) a.pinned room)).bind
          fun y => .done (tooMuch world cfg y)
  else .done false

/-- `micro` up to the forward. -/
def microHead : Prog Decision :=
  (memVote world cfg a).bind fun low =>
    if low then .done .noMemory
    else if !p.batch then .done .badBatch
    else (hostVote world cfg p a).bind fun short =>
      .done (if short then .noHost else if p.targets then .go else .noTargets)

/-- `eval` up to the forward. -/
def evalHead : Prog Decision :=
  (memVote world cfg a).bind fun low =>
    .done (if low then .noMemory else if p.batch then .go else .badBatch)

/-- `Run.step` up to its last collective. -/
def stepHead : Prog Decision :=
  if s.run = some false then .done .noGradient
  else (if cfg.replicated then reduce world .replicated (.flag false) else .done (.flag false)).bind fun _ =>
    (reduce world .shard (.flag !a.finite)).bind fun y => .done (if y.set then .notFinite else .go)

/-- An op behind the liveness vote, up to the forward or its last collective. -/
def opHead : Op → Prog Decision
  | .micro => microHead world cfg p a
  | .eval => evalHead world cfg p a
  | .diag => if cfg.diag then evalHead world cfg p a else .done .noDiag
  | .step => stepHead world cfg a s
  | _ => .done .go

/-- The vote of a rank. -/
def Rank.ok (op : Op) : Bool := s.installed && decide (op ≠ .other) && (!op.needsRun || s.run.isSome)

/-- `rpc` up to the forward. -/
def head (op : Op) : Prog Decision :=
  (reduce world .live (.flag !s.ok op)).bind fun y =>
    if y.set then .done .refused else opHead world cfg p a s op

/-! ## The rest of an op -/

/-- A rank behind an op that raised. -/
def Rank.failed (op : Op) : Rank := if op.keepsRun then s else { s with run := none }

/-- A rank behind an op that returns. -/
def Rank.after (op : Op) : Rank := match op with
  | .begin => { s with run := some false }
  | .micro => { s with run := s.run.map fun gradient => gradient || a.gradient }
  | .step => { s with run := s.run.map fun _ => false }
  | .commit | .abort => { s with run := none }
  | _ => s

/-- The rest of an op: the rank behind it, and whether it reports an error. -/
def tail (op : Op) : Decision → Prog (Rank × Bool)
  | .refused => .done (if s.installed && op.needsRun then { s with run := none } else s, true)
  | .go =>
    if a.raises then .done (s.failed op, true)
    else if op = .micro && p.check then
      (reduce world .reach (.flag (decide (0 < a.unreached)))).bind fun y =>
        .done (if y.set then (s.failed op, true) else (s.after a op, false))
    else .done (s.after a op, false)
  | _ => .done (s.failed op, true)

/-- `rpc`. -/
def rpc (op : Op) : Prog (Rank × Bool) :=
  (head world cfg p a s op).bind (tail world p a s op)

end

/-! ## Calls -/

/-- A `collective_rpc`: the op and the payload, the same on all ranks, and what the op meets on each. -/
structure Call (n : ℕ) where
  op : Op
  payload : Payload
  rank : Fin n → Local

namespace Call
variable {n : ℕ} (cfg : Config) (c : Call n) (s : Fin n → Rank)

/-- The heads of the ranks. -/
def heads (r : Fin n) : Prog Decision := head n cfg c.payload (c.rank r) (s r) c.op

/-- The programs of the ranks. -/
def progs (r : Fin n) : Prog (Rank × Bool) := rpc n cfg c.payload (c.rank r) (s r) c.op

end Call

/-- The ranks enter the same collectives and end with the same result. -/
def Agree {n : ℕ} {α : Type} (p : Fin n → Prog α) (d : α) : Prop := ∃ tr, Lockstep allReduce p tr fun _ => d

/-- The ranks enter the same collectives and come to the same decision: all of them work, or none. -/
def Uniform {n : ℕ} (cfg : Config) (c : Call n) (s : Fin n → Rank) : Prop := ∃ d, Agree (c.heads cfg s) d

/-- In every call of a run that the ranks get to. -/
def UniformAlong {n : ℕ} (cfg : Config) : (Fin n → Rank) → List (Call n) → Prop
  | _, [] => True
  | s, c :: cs => Uniform cfg c s ∧ ∀ tr out, Lockstep allReduce (c.progs cfg s) tr out →
      UniformAlong cfg (fun r => (out r).1) cs

/-- A call in which the ranks agree on what they ask before a vote: whether there is a limit on their memory,
where a micro-batch comes to ask it, and whether there is a gradient to step with. -/
structure Even {n : ℕ} (cfg : Config) (c : Call n) (s : Fin n → Rank) : Prop where
  host : c.op = .micro → cfg.hostCkpt → c.payload.batch → (∀ r, ¬ (cfg.cuda ∧ (c.rank r).free < cfg.minFree)) →
    (∀ r, (headroom (c.rank r).cgroups).isSome) ∨ ∀ r, headroom (c.rank r).cgroups = none
  gradient : c.op = .step → (∀ r, (s r).run = some false) ∨ ∀ r, (s r).run ≠ some false

/-- Every call of a run that finds the op possible on all ranks is even. -/
def EvenAlong {n : ℕ} (cfg : Config) : (Fin n → Rank) → List (Call n) → Prop
  | _, [] => True
  | s, c :: cs => ((∀ r, (s r).ok c.op) → Even cfg c s) ∧ ∀ tr out, Lockstep allReduce (c.progs cfg s) tr out →
      EvenAlong cfg (fun r => (out r).1) cs

/-! ## The votes -/

section
variable {n : ℕ} {α β : Type} {cfg : Config}

lemma Agree.done (d : α) : Agree (fun _ : Fin n => .done d) d := ⟨[], .pure _⟩

lemma Agree.bind {p : Fin n → Prog α} {f : Fin n → α → Prog β} {d : α} {e : β} (h : Agree p d)
    (hf : Agree (fun r => f r d) e) : Agree (fun r => (p r).bind (f r)) e := by
  obtain ⟨tr, hl⟩ := h
  obtain ⟨tr', hl'⟩ := hf
  exact ⟨tr ++ tr', hl.bind hl'⟩

lemma Agree.map {p : Fin n → Prog α} {d : α} (h : Agree p d) (g : α → β) :
    Agree (fun r => (p r).bind fun y => .done (g y)) (g d) := h.bind (.done _)

/-- Programs that are the same on all ranks up to a choice that all make alike. -/
lemma Agree.congr {p q : Fin n → Prog α} {d : α} (h : Agree q d) (hpq : ∀ r, p r = q r) : Agree p d :=
  funext hpq ▸ h

/-- A collective gives all ranks the same. -/
lemma agree_reduce (c : Coll) (x : Fin n → Msg) : ∃ y, Agree (fun r => reduce n c (x r)) y := by
  by_cases hn : 1 < n
  · exact ⟨_, Agree.congr ⟨_, .step (.pure _)⟩ fun r => if_pos hn⟩
  · obtain _ | ⟨_ | n⟩ := n
    · exact ⟨.flag false, [], .done fun r => r.elim0⟩
    · exact ⟨x 0, [], .done fun r => by rw [Fin.fin_one_eq_zero r, reduce, if_neg hn]⟩
    · omega

/-- A vote tells all ranks whether some rank has set its flag. -/
lemma agree_vote (c : Coll) (hc : c ≠ .host) (b : Fin n → Bool) :
    ∃ y, Agree (fun r => reduce n c (.flag (b r))) y ∧ (y.set = true ↔ ∃ r, b r = true) := by
  by_cases hn : 1 < n
  · refine ⟨allReduce c fun r => .flag (b r), Agree.congr ⟨_, .step (.pure _)⟩ fun r => if_pos hn, ?_⟩
    cases c with
    | host => exact absurd rfl hc
    | _ => exact decide_eq_true_iff
  · obtain _ | ⟨_ | n⟩ := n
    · refine ⟨.flag false, ⟨[], .done fun r => r.elim0⟩, ⟨fun h => ?_, fun ⟨r, _⟩ => r.elim0⟩⟩
      cases h
    · refine ⟨.flag (b 0), ⟨[], .done fun r => by rw [Fin.fin_one_eq_zero r, reduce, if_neg hn]⟩,
        ⟨fun h => ⟨0, h⟩, fun ⟨r, hr⟩ => ?_⟩⟩
      rwa [Fin.fin_one_eq_zero r] at hr
    · omega

/-- The vote on the free memory. -/
lemma agree_memVote (cfg : Config) (a : Fin n → Local) : ∃ low, Agree (fun r => memVote n cfg (a r)) low ∧
    (low = true ↔ ∃ r, cfg.cuda ∧ (a r).free < cfg.minFree) := by
  obtain ⟨y, hl, hy⟩ := agree_vote .memory (by decide) fun r => cfg.cuda && decide ((a r).free < cfg.minFree)
  refine ⟨y.set, hl.map Msg.set, ?_⟩
  rw [hy]
  simp

/-- The vote on the host memory, where all ranks have a limit or none. -/
lemma agree_hostVote (p : Payload) (a : Fin n → Local)
    (h : cfg.hostCkpt → (∀ r, (headroom (a r).cgroups).isSome) ∨ ∀ r, headroom (a r).cgroups = none) :
    ∃ short, Agree (fun r => hostVote n cfg p (a r)) short := by
  by_cases hckpt : cfg.hostCkpt
  · obtain hall | hnone := h hckpt
    · choose room hroom using fun r => Option.isSome_iff_exists.mp (hall r)
      cases hbytes : cfg.bytesPerToken with
      | none => exact ⟨true, (Agree.done true).congr fun r => by simp [hostVote, hckpt, hroom r, hbytes]⟩
      | some bytes =>
        obtain ⟨y, hl⟩ := agree_reduce .host fun r => .sums (p.tokens * bytes) (a r).pinned (room r)
        refine ⟨tooMuch n cfg y, (hl.map (tooMuch n cfg)).congr fun r => ?_⟩
        simp only [hostVote, hckpt, if_true, hroom, hbytes]
    · exact ⟨false, (Agree.done false).congr fun r => by simp [hostVote, hckpt, hnone r]⟩
  · exact ⟨false, (Agree.done false).congr fun r => by simp [hostVote, hckpt]⟩

/-! ## The heads -/

lemma agree_microHead (p : Payload) (a : Fin n → Local)
    (h : cfg.hostCkpt → p.batch → (∀ r, ¬ (cfg.cuda ∧ (a r).free < cfg.minFree)) →
      (∀ r, (headroom (a r).cgroups).isSome) ∨ ∀ r, headroom (a r).cgroups = none) :
    ∃ d, Agree (fun r => microHead n cfg p (a r)) d := by
  obtain ⟨low, hl, hlow⟩ := agree_memVote cfg a
  cases hlow' : low with
  | true => exact ⟨.noMemory, hl.bind ((Agree.done _).congr fun _ => by rw [hlow', if_pos rfl])⟩
  | false =>
    cases hbatch : p.batch with
    | false =>
      exact ⟨.badBatch, hl.bind ((Agree.done _).congr fun _ => by simp [hlow', hbatch])⟩
    | true =>
      have hfree (r : Fin n) : ¬ (cfg.cuda ∧ (a r).free < cfg.minFree) := by
        intro hr
        rw [hlow.mpr ⟨r, hr⟩] at hlow'
        cases hlow'
      obtain ⟨short, hl'⟩ := agree_hostVote p a fun hckpt => h hckpt hbatch hfree
      refine ⟨_, hl.bind ((hl'.map fun short => if short then Decision.noHost else if p.targets then .go else .noTargets).congr
        fun _ => ?_)⟩
      rw [hlow', if_neg Bool.false_ne_true, hbatch, if_neg (by decide)]

lemma agree_evalHead (cfg : Config) (p : Payload) (a : Fin n → Local) : ∃ d, Agree (fun r => evalHead n cfg p (a r)) d := by
  obtain ⟨low, hl, _⟩ := agree_memVote cfg a
  exact ⟨_, hl.map fun low => if low then Decision.noMemory else if p.batch then .go else .badBatch⟩

lemma agree_stepHead (a : Fin n → Local) (s : Fin n → Rank)
    (h : (∀ r, (s r).run = some false) ∨ ∀ r, (s r).run ≠ some false) :
    ∃ d, Agree (fun r => stepHead n cfg (a r) (s r)) d := by
  obtain hall | hnone := h
  · exact ⟨.noGradient, (Agree.done _).congr fun r => if_pos (hall r)⟩
  · obtain ⟨y, hl⟩ : ∃ y, Agree (fun _ : Fin n =>
        if cfg.replicated then reduce n .replicated (.flag false) else .done (.flag false)) y := by
      cases cfg.replicated with
      | true => exact agree_reduce .replicated fun _ => .flag false
      | false => exact ⟨_, .done _⟩
    obtain ⟨y', hl'⟩ := agree_reduce .shard fun r => .flag !(a r).finite
    exact ⟨_, (hl.bind (hl'.map fun y => if y.set then Decision.notFinite else .go)).congr fun r => if_neg (hnone r)⟩

lemma agree_opHead {c : Call n} {s : Fin n → Rank} (h : Even cfg c s) :
    ∃ d, Agree (fun r => opHead n cfg c.payload (c.rank r) (s r) c.op) d := by
  cases hop : c.op with
  | micro => exact agree_microHead c.payload c.rank (h.host hop)
  | step => exact agree_stepHead c.rank s (h.gradient hop)
  | eval => exact agree_evalHead cfg c.payload c.rank
  | diag =>
    cases hdiag : cfg.diag with
    | true =>
      obtain ⟨d, hd⟩ := agree_evalHead cfg c.payload c.rank
      exact ⟨d, hd.congr fun _ => if_pos hdiag⟩
    | false => exact ⟨.noDiag, (Agree.done _).congr fun _ => if_neg (by simp [hdiag])⟩
  | _ => exact ⟨_, .done _⟩

/-- An even call is uniform, and so is one that is refused. -/
theorem uniform_of_even {c : Call n} {s : Fin n → Rank} (h : (∀ r, (s r).ok c.op) → Even cfg c s) :
    Uniform cfg c s := by
  obtain ⟨y, hl, hy⟩ := agree_vote .live (by decide) fun r => !(s r).ok c.op
  by_cases hok : ∀ r, (s r).ok c.op
  · have hset : ¬ y.set = true := by
      intro hset
      obtain ⟨r, hr⟩ := hy.mp hset
      simp [hok r] at hr
    obtain ⟨d, hd⟩ := agree_opHead (h hok)
    exact ⟨d, hl.bind (hd.congr fun _ => if_neg hset)⟩
  · obtain ⟨r, hr⟩ := not_forall.mp hok
    have hset : y.set = true := hy.mpr ⟨r, by simpa using hr⟩
    exact ⟨.refused, hl.bind ((Agree.done _).congr fun _ => if_pos hset)⟩

theorem uniform_along (cfg : Config) (cs : List (Call n)) (s : Fin n → Rank) (h : EvenAlong cfg s cs) :
    UniformAlong cfg s cs := by
  induction cs generalizing s with
  | nil => trivial
  | cons c cs ih => exact ⟨uniform_of_even h.1, fun tr out hl => ih _ (h.2 tr out hl)⟩

end

/-! ## Two ranks -/

/-- Host checkpoints of a byte a token, and no floor for the free memory. -/
def hostConfig : Config where
  cuda := true
  minFree := 0
  hostCkpt := true
  reserve := 0
  bytesPerToken := some 1
  replicated := true
  diag := false

/-- A rank that can read its limit, or not. -/
def limited (readable : Bool) : Local where
  free := 1
  cgroups := if readable then [some ⟨some 100, 10, 0⟩] else [none, none]
  pinned := 0
  finite := true
  raises := false
  unreached := 0
  gradient := true

/-- A call on two ranks; the second one can read its limit or not. -/
def hostCall (op : Op) (readable : Bool) : Call 2 where
  op := op
  payload := ⟨8, true, true, false⟩
  rank r := limited (r.val = 0 || readable)

/-- A rank with a run that has no gradient yet. -/
def begun : Rank := ⟨true, some false⟩

theorem uniform_along_limited : UniformAlong hostConfig (fun _ => begun) [hostCall .begin true, hostCall .micro true] := by
  have hbegin (s : Fin 2 → Rank) : Even hostConfig (hostCall .begin true) s :=
    ⟨fun h => absurd h (by decide), fun h => absurd h (by decide)⟩
  refine uniform_along hostConfig _ _ ⟨fun _ => hbegin _, fun _ _ _ =>
    ⟨fun _ => ⟨fun _ _ _ _ => ?_, fun h => absurd h (by decide)⟩, fun _ _ _ => trivial⟩⟩
  have hrank (r : Fin 2) : (hostCall .micro true).rank r = limited true := by simp [hostCall]
  refine Or.inl fun r => ?_
  rw [hrank]
  rfl

/-- The limit cannot be read on the second rank: it leaves the vote on the host memory, in which the first
one waits. -/
theorem limit_unread : ¬ ∀ (cfg : Config) (c : Call 2) (s : Fin 2 → Rank), Uniform cfg c s := by
  intro h
  obtain ⟨d, tr, hl⟩ := h hostConfig (hostCall .micro false) fun _ => begun
  -- both ranks are live and have the memory
  obtain ⟨tr1, -, hl1⟩ := Lockstep.sync_inv (fun _ => rfl) hl
  obtain ⟨tr2, -, hl2⟩ := Lockstep.sync_inv (fun _ => rfl) hl1
  exact hl2.not_done_sync (i := 1) (j := 0) rfl rfl

end SuffixHybrid.SftVotes
