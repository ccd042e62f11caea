import JobQueue.Lifecycle.Endings
import JobQueue.Worker.Process

/-!
# The attempts of a runner

A run of `run_once` that returns has finished the attempt it claimed.  From
the claim to the return the runner carries the attempt.  What it knows about
it is an assertion for every point of the loop: whenever the handler, the
heartbeat or the runner acts on the loss of the job, the attempt is over, and
it is over when nothing is left to settle.
-/

namespace JobQueue.Worker

open Support

/-! ## Runs -/

/-- The operation of `job_service` seen in a turn, if there is one. -/
def opOf : Option Event → Option Op
  | some (.database _ op _) => some op
  | _ => none

def opsIn (log : Log) : List Op := log.filterMap fun x => opOf x.2

/-- The attempt this runner is handed out in a turn. -/
def claimedAttempt : Option Event → Option Attempt
  | some (.database .runner (.claimJob _ _ _ _ _)
      (.ok (.claimed (some row)))) => (Attempt.of row).toOption
  | _ => none

def settles (a : Attempt) : Option Event → Bool
  | some (.database .runner (.completeJob _ b _) (.ok _)) => b = a
  | some (.database .runner (.failAttempt _ b _) (.ok _)) => b = a
  | _ => false

section Runs

variable (settings : Settings) (config : Config)

def systemAfter (turns : List Turn) : System :=
  (process settings config).run start turns

def logOf (turns : List Turn) : Log :=
  (process settings config).trace start turns

/-- What is seen of a turn after a list of turns. -/
def eventOf (turns : List Turn) (turn : Turn) : Option Event :=
  ((process settings config).step (systemAfter settings config turns) turn).2

theorem systemAfter_concat (turns : List Turn) (turn : Turn) :
    systemAfter settings config (turns ++ [turn]) =
      ((process settings config).step (systemAfter settings config turns)
        turn).1 :=
  (process settings config).run_append start turns [turn]

theorem logOf_concat (turns : List Turn) (turn : Turn) :
    logOf settings config (turns ++ [turn]) =
      logOf settings config turns ++
        [(turn, eventOf settings config turns turn)] :=
  (process settings config).trace_append start turns [turn]

end Runs

theorem opsIn_concat (log : Log) (turn : Turn) (event : Option Event) :
    opsIn (log ++ [(turn, event)]) = opsIn log ++ (opOf event).toList := by
  cases h : opOf event <;> simp [opsIn, h]

/-! ## The stores -/

theorem perform_jobs {π : Type} (settings : Settings) (party : Party)
    (jobs : Jobs) (redis : Redis) (c : Command π) :
    (perform settings party jobs redis c).1 =
      (service settings).run jobs
        (opOf (perform settings party jobs redis c).2.2.2).toList := by
  cases c <;> rfl

theorem step_jobs (settings : Settings) (config : Config) (s : System)
    (turn : Turn) :
    ((process settings config).step s turn).1.jobs =
      (service settings).run s.jobs
        (opOf ((process settings config).step s turn).2).toList := by
  cases turn with
  | stop => rfl
  | other op => rfl
  | otherQueue op => rfl
  | runner turn => exact perform_jobs settings .runner s.jobs s.redis _
  | scheduler turn => exact perform_jobs settings .scheduler s.jobs s.redis _
  | recovery turn => exact perform_jobs settings .recovery s.jobs s.redis _

theorem perform_outcome {π : Type} {settings : Settings} {jobs : Jobs}
    {op : Op} {outcome : Outcome} {party party' : Party} (redis : Redis)
    (c : Command π)
    (h : (perform settings party jobs redis c).2.2.2 =
      some (.database party' op outcome)) :
    outcome = ((service settings).step jobs op).2 ∧ party' = party := by
  cases c with
  | quiet next => cases h
  | announce note next => cases h
  | database op' next =>
      cases h
      exact ⟨rfl, rfl⟩
  | queue op' next => cases h

theorem step_outcome {settings : Settings} {config : Config} {s : System}
    {turn : Turn} {party : Party} {op : Op} {outcome : Outcome}
    (h : ((process settings config).step s turn).2 =
      some (.database party op outcome)) :
    outcome = ((service settings).step s.jobs op).2 := by
  cases turn with
  | stop => cases h
  | other op' =>
      exact (perform_outcome s.redis (.database op' fun _ => ()) h).1
  | otherQueue op' => cases h
  | runner turn =>
      exact (perform_outcome s.redis
        (s.runner.next config s.stop s.jobs turn) h).1
  | scheduler turn =>
      exact (perform_outcome s.redis
        (s.scheduler.schedule config s.stop turn) h).1
  | recovery turn =>
      exact (perform_outcome s.redis
        (s.recovery.recover config s.stop turn) h).1

/-- The table is the one that the operations of all processes lead to. -/
theorem jobs_systemAfter (settings : Settings) (config : Config)
    (turns : List Turn) :
    (systemAfter settings config turns).jobs =
      tableAfter settings (opsIn (logOf settings config turns)) := by
  refine (process settings config).trace_invariant
    (P := fun log s => s.jobs = tableAfter settings (opsIn log)) rfl ?_ turns
  intro log s turn h
  rw [opsIn_concat, tableAfter_append, ← h]
  exact step_jobs settings config s turn

/-! ## What the runner knows -/

/-- What holds of an attempt under execution. -/
structure Execution.Sound (settings : Settings) (ops : List Op)
    (e : Execution) : Prop where
  handedOut : HandedOut settings ops e.attempt
  lost : e.ownershipLost = true → IsOver settings ops e.attempt
  rejected : e.handler = .running true → IsOver settings ops e.attempt
  raised : e.handler = .finished .ownershipLost →
    IsOver settings ops e.attempt

/-- What the runner knows about its attempt at each point. -/
def Point.Asserts (settings : Settings) (ops : List Op) : Point → Prop
  | .dropping _ row => ∃ a, Attempt.of row = .ok a ∧ HandedOut settings ops a
  | .handling e => e.Sound settings ops
  | .cancelling e => e.Sound settings ops ∧ IsOver settings ops e.attempt
  | .leaving e ending =>
      e.Sound settings ops ∧
        (ending = .ownershipLost → IsOver settings ops e.attempt)
  | .closing e ending =>
      e.Sound settings ops ∧
        (ending = .ownershipLost → IsOver settings ops e.attempt)
  | .settling a _ => HandedOut settings ops a
  | .settled a => IsOver settings ops a
  | _ => True

/-- The attempt the runner works on. -/
def Point.carrying : Point → Option Attempt
  | .dropping _ row => (Attempt.of row).toOption
  | .handling e => some e.attempt
  | .cancelling e => some e.attempt
  | .leaving e _ => some e.attempt
  | .closing e _ => some e.attempt
  | .settling a _ => some a
  | .settled a => some a
  | _ => none

section

variable {settings : Settings} {ops : List Op}

theorem Execution.Sound.append {e : Execution} (h : e.Sound settings ops)
    (later : List Op) : e.Sound settings (ops ++ later) where
  handedOut := h.handedOut.append later
  lost hlost := (h.lost hlost).append later
  rejected hrejected := (h.rejected hrejected).append later
  raised hraised := (h.raised hraised).append later

/-- What others do afterwards does not disturb the runner. -/
theorem Point.Asserts.append {p : Point} (h : p.Asserts settings ops)
    (later : List Op) : p.Asserts settings (ops ++ later) := by
  cases p with
  | dropping candidate row =>
      obtain ⟨a, ha, hhanded⟩ := h
      exact ⟨a, ha, hhanded.append later⟩
  | handling e => exact Execution.Sound.append h later
  | cancelling e => exact ⟨h.1.append later, h.2.append later⟩
  | leaving e ending =>
      exact ⟨h.1.append later, fun hlost => (h.2 hlost).append later⟩
  | closing e ending =>
      exact ⟨h.1.append later, fun hlost => (h.2 hlost).append later⟩
  | settling a s => exact HandedOut.append h later
  | settled a => exact IsOver.append h later
  | _ => trivial

theorem Execution.Sound.start {a : Attempt} (h : HandedOut settings ops a) :
    (Execution.start a).Sound settings ops where
  handedOut := h
  lost hlost := nomatch hlost
  rejected hrejected := by cases hrejected
  raised hraised := by cases hraised

theorem Point.Asserts.handedOut {p : Point} (h : p.Asserts settings ops)
    {a : Attempt} (ha : p.carrying = some a) : HandedOut settings ops a := by
  cases p with
  | dropping candidate row =>
      obtain ⟨b, hb, hhanded⟩ := h
      simp only [Point.carrying, hb] at ha
      obtain rfl := Option.some.inj ha
      exact hhanded
  | handling e =>
      obtain rfl := Option.some.inj ha
      exact Execution.Sound.handedOut h
  | cancelling e =>
      obtain rfl := Option.some.inj ha
      exact h.1.handedOut
  | leaving e ending =>
      obtain rfl := Option.some.inj ha
      exact h.1.handedOut
  | closing e ending =>
      obtain rfl := Option.some.inj ha
      exact h.1.handedOut
  | settling b s =>
      obtain rfl := Option.some.inj ha
      exact h
  | settled b =>
      obtain rfl := Option.some.inj ha
      exact IsOver.handedOut h
  | _ => cases ha

/-! ## One turn of the runner -/

/-- What a turn of the runner does to its attempt. -/
structure Proceeds (settings : Settings) (ops : List Op) (p : Point)
    (event : Option Event) (q : Point) : Prop where
  asserts : q.Asserts settings (ops ++ (opOf event).toList)
  carried : ∀ a, p.carrying = some a →
    q.carrying = some a ∨ event = some (.note (.returned a))
  picked : ∀ a, q.carrying = some a →
    p.carrying = some a ∨ claimedAttempt event = some a
  claimed : ∀ a, claimedAttempt event = some a → q.carrying = some a
  returned : ∀ a, event = some (.note (.returned a)) → p = .settled a
  fenced : ∀ op outcome, event = some (.database .runner op outcome) →
    (p.carrying = none ∧ op.mintedToken.isSome = true) ∨
      ∃ a w, p.carrying = some a ∧ op = FencedWrite.op a w

/-- The command of a turn, carried out in a reachable table. -/
def Command.Proceeds (settings : Settings) (ops : List Op) (p : Point)
    (c : Command Point) : Prop :=
  ∀ redis, Worker.Proceeds settings ops p
    (perform settings .runner (tableAfter settings ops) redis c).2.2.2
    (perform settings .runner (tableAfter settings ops) redis c).2.2.1

/-- A turn in which the runner makes no call keeps its attempt. -/
theorem Command.Proceeds.quiet {p q : Point} (hq : q.Asserts settings ops)
    (hcarrying : q.carrying = p.carrying) :
    (Command.quiet q).Proceeds settings ops p := by
  intro redis
  refine ⟨?_, fun a ha => Or.inl (hcarrying.trans ha),
    fun a ha => Or.inl (hcarrying.symm.trans ha), (fun _ h => nomatch h),
    (fun _ h => nomatch h), (fun _ _ h => nomatch h)⟩
  simpa [perform, opOf] using hq

/-- So does a call to Redis. -/
theorem Command.Proceeds.queue {p : Point} {op : QueueOp}
    {next : QueueReply → Point}
    (hnext : ∀ reply, (next reply).Asserts settings ops)
    (hcarrying : ∀ reply, (next reply).carrying = p.carrying) :
    (Command.queue op next).Proceeds settings ops p := by
  intro redis
  refine ⟨?_, fun a ha => Or.inl ((hcarrying _).trans ha),
    fun a ha => Or.inl ((hcarrying _).symm.trans ha),
    (fun _ h => nomatch h), (fun _ h => by cases h), (fun _ _ h => by cases h)⟩
  simpa [perform, opOf] using hnext _

/-- So does a fenced write, whose answer tells whether the attempt is
over. -/
theorem Command.Proceeds.fencedWrite {p : Point} {a : Attempt}
    (hp : p.Asserts settings ops) (ha : p.carrying = some a)
    (htokens : (mintedTokens ops).Nodup) {w : FencedWrite}
    {next : Outcome → Point}
    (hcarrying : ∀ outcome, isOwnershipLost outcome = true ∨
      (∃ reply, outcome = .ok reply) → (next outcome).carrying = some a)
    (hreturns : ∀ reply, ((service settings).step (tableAfter settings ops)
      (w.op a)).2 = .ok reply →
        (next (.ok reply)).Asserts settings (ops ++ [w.op a]))
    (hrejected : IsOver settings (ops ++ [w.op a]) a →
      (next (.error a.ownershipLost)).Asserts settings (ops ++ [w.op a])) :
    (Command.database (w.op a) next).Proceeds settings ops p := by
  intro redis
  have hcases := (hp.handedOut ha).write_cases htokens w
  have hwrite : claimedAttempt (some (.database .runner (w.op a)
      ((service settings).step (tableAfter settings ops) (w.op a)).2)) =
        none := by
    cases w <;> rfl
  have hnext : (next ((service settings).step (tableAfter settings ops)
        (w.op a)).2).Asserts settings (ops ++ [w.op a]) ∧
      (next ((service settings).step (tableAfter settings ops)
        (w.op a)).2).carrying = some a := by
    rcases hcases with ⟨reply, hreply, -⟩ | ⟨hover, hrej⟩
    · rw [hreply]
      exact ⟨hreturns reply hreply, hcarrying _ (Or.inr ⟨reply, rfl⟩)⟩
    · rw [hrej]
      exact ⟨hrejected (hover.append _), hcarrying _ (Or.inl rfl)⟩
  refine ⟨hnext.1, ?_, ?_, ?_, (fun _ h => by cases h), ?_⟩
  · intro b hb
    exact Or.inl (hnext.2.trans (ha.symm.trans hb))
  · intro b hb
    exact Or.inl (ha.trans (hnext.2.symm.trans hb))
  · intro b hb
    exact nomatch hwrite.symm.trans hb
  · intro op outcome hop
    cases hop
    exact Or.inr ⟨a, w, ha, rfl⟩

theorem nextCandidate_carrying (stop : Bool) (left : ℕ) :
    (nextCandidate stop left).carrying = none := by
  cases left with
  | zero => rfl
  | succ left => cases stop <;> rfl

theorem nextCandidate_asserts (stop : Bool) (left : ℕ) :
    (nextCandidate stop left).Asserts settings ops := by
  cases left with
  | zero => trivial
  | succ left => cases stop <;> trivial

theorem nextCycle_carrying (stop : Bool) :
    (nextCycle stop).carrying = none := by
  cases stop <;> rfl

theorem nextCycle_asserts (stop : Bool) :
    (nextCycle stop).Asserts settings ops := by
  cases stop <;> trivial

/-- A claim hands out an attempt, or the runner has none. -/
theorem Command.Proceeds.claim {config : Config} {left : ℕ}
    {candidate : QueueCandidate} {now : Time} {token : UUID} :
    (Command.database (.claimJob now candidate.jobId config.workerId token
      (some config.leaseSeconds)) (afterClaim left candidate)).Proceeds
        settings ops (.claiming left candidate) := by
  intro redis
  simp only [perform]
  generalize hout : ((service settings).step (tableAfter settings ops)
    (.claimJob now candidate.jobId config.workerId token
      (some config.leaseSeconds))).2 = outcome
  have hfenced : ∀ op outcome', some (Event.database .runner (.claimJob now
      candidate.jobId config.workerId token (some config.leaseSeconds))
        outcome) = some (.database .runner op outcome') →
      ((Point.claiming left candidate).carrying = none ∧
          op.mintedToken.isSome = true) ∨
        ∃ a w, (Point.claiming left candidate).carrying = some a ∧
          op = FencedWrite.op a w := by
    intro op outcome' hop
    cases hop
    exact Or.inl ⟨rfl, rfl⟩
  cases outcome with
  | error e =>
      exact ⟨trivial, (fun _ h => nomatch h), (fun _ h => nomatch h),
        (fun _ h => nomatch h), (fun _ h => by cases h), hfenced⟩
  | ok reply =>
      obtain ⟨row?, hclaim, rfl⟩ := answer_eq_ok (execute_of_step_ok hout)
      rcases claimJob_cases hclaim with ⟨rfl, -⟩ | ⟨r, -, rfl, -⟩
      · exact ⟨trivial, (fun _ h => nomatch h), (fun _ h => nomatch h),
          (fun _ h => nomatch h), (fun _ h => by cases h), hfenced⟩
      · refine ⟨⟨_, rfl, ops, _, [], rfl, ?_⟩, (fun _ h => nomatch h),
          fun a ha => Or.inr ha, fun a ha => ha, (fun _ h => by cases h),
          hfenced⟩
        exact ⟨_, _, _, _, _, _, rfl, hout, rfl⟩

/-! ### The execution of an attempt -/

/-- A point of `_execute` with an execution of `a`: what is sound stays
known there. -/
structure Hosts (settings : Settings) (ops : List Op) (a : Attempt)
    (next : Execution → Point) : Prop where
  carrying : ∀ e, (next e).carrying = some e.attempt
  asserts : ∀ later e, e.Sound settings (ops ++ later) → e.attempt = a →
    (next e).Asserts settings (ops ++ later)

theorem Hosts.here {a : Attempt} {next : Execution → Point}
    (h : Hosts settings ops a next) {e : Execution}
    (he : e.Sound settings ops) (ha : e.attempt = a) :
    (next e).Asserts settings ops := by
  have hasserts := h.asserts [] e (he.append []) ha
  rwa [List.append_nil] at hasserts

theorem Hosts.quiet {e e' : Execution} {next : Execution → Point}
    (h : Hosts settings ops e.attempt next) (he' : e'.Sound settings ops)
    (hsame : e'.attempt = e.attempt) :
    (Command.quiet (next e')).Proceeds settings ops (next e) := by
  refine .quiet (h.here he' hsame) ?_
  rw [h.carrying, h.carrying, hsame]

/-- A beat that is rejected finds the attempt over. -/
theorem Execution.Sound.pulse {e : Execution} (h : e.Sound settings ops)
    {next : Execution → Point} (hnext : Hosts settings ops e.attempt next)
    (htokens : (mintedTokens ops).Nodup) (config : Config) (stop : Bool)
    (turn : RunnerTurn) :
    (e.pulse config stop next turn).Proceeds settings ops (next e) := by
  cases turn with
  | wake =>
      exact hnext.quiet ⟨h.handedOut, h.lost, h.rejected, h.raised⟩ rfl
  | beat now =>
      have hlater := h.append
        [(FencedWrite.extendLease now (some config.leaseSeconds)).op e.attempt]
      simp only [Execution.pulse]
      split
      · refine .fencedWrite (hnext.here h rfl) (hnext.carrying e) htokens
          ?_ ?_ ?_
        · intro outcome _
          rw [hnext.carrying]
          unfold Execution.beaten
          split <;> rfl
        · intro reply _
          exact hnext.asserts _ _ ⟨hlater.handedOut, hlater.lost,
            hlater.rejected, hlater.raised⟩ rfl
        · intro hover
          exact hnext.asserts _ _ ⟨hlater.handedOut, fun _ => hover,
            hlater.rejected, hlater.raised⟩ rfl
      · exact hnext.quiet h rfl
  | _ => exact hnext.quiet h rfl

/-- A handler ends as it likes, but with `OwnershipLostError` only after a
rejected report. -/
theorem Execution.work_finish (e : Execution) (next : Execution → Point)
    (ending : Ending) :
    e.work next (.finish ending) = .quiet (next e) ∨
      (e.work next (.finish ending) =
          .quiet (next { e with handler := .finished ending }) ∧
        (ending = .ownershipLost → e.handler = .running true)) := by
  cases hhandler : e.handler with
  | running rejected =>
      cases ending <;> cases rejected <;> simp [Execution.work, hhandler]
  | finished ending' =>
      left
      simp [Execution.work, hhandler]
  | cancelled =>
      left
      simp [Execution.work, hhandler]

/-- A report that is rejected finds the attempt over. -/
theorem Execution.Sound.report {e : Execution} (h : e.Sound settings ops)
    {next : Execution → Point} (hnext : Hosts settings ops e.attempt next)
    (htokens : (mintedTokens ops).Nodup) (percentage : ℤ) :
    (e.work next (.report percentage)).Proceeds settings ops (next e) := by
  have hlater := h.append
    [(FencedWrite.updateProgress percentage).op e.attempt]
  simp only [Execution.work]
  split
  · next rejected hhandler =>
      refine .fencedWrite (hnext.here h rfl) (hnext.carrying e) htokens
        ?_ ?_ ?_
      · intro outcome _
        rw [hnext.carrying]
      · intro reply _
        refine hnext.asserts _ _ ⟨hlater.handedOut, hlater.lost, ?_, ?_⟩ rfl
        · intro hrejected
          refine hlater.rejected ?_
          simpa [HandlerTask.reported, isOwnershipLost, hhandler]
            using hrejected
        · intro hraised
          simp [HandlerTask.reported, hhandler] at hraised
      · intro hover
        exact hnext.asserts _ _ ⟨hlater.handedOut, hlater.lost,
          fun _ => hover, fun _ => hover⟩ rfl
  · exact hnext.quiet h rfl

theorem Execution.Sound.finish {e : Execution} (h : e.Sound settings ops)
    {next : Execution → Point} (hnext : Hosts settings ops e.attempt next)
    (ending : Ending) :
    (e.work next (.finish ending)).Proceeds settings ops (next e) := by
  rcases e.work_finish next ending with hstay | ⟨hfinish, hraised⟩
  · rw [hstay]
    exact hnext.quiet h rfl
  · rw [hfinish]
    refine hnext.quiet ⟨h.handedOut, h.lost, ?_, ?_⟩ rfl
    · intro hrunning
      cases hrunning
    · intro hfinished
      exact h.rejected (hraised (HandlerTask.finished.inj hfinished))

/-- Waiting for the handler and for the loss of the job: whoever is cancelled
has lost its job. -/
theorem Execution.Sound.race {e : Execution} (h : e.Sound settings ops) :
    (Command.quiet e.race).Proceeds settings ops (.handling e) := by
  unfold Execution.race
  split
  · next ending hhandler =>
      refine .quiet ⟨h, ?_⟩ rfl
      rintro rfl
      exact h.raised hhandler
  · split
    · next hlost => exact .quiet ⟨h, h.lost hlost⟩ rfl
    · exact .quiet h rfl

theorem Execution.Sound.abandon {e : Execution} (h : e.Sound settings ops)
    (hover : IsOver settings ops e.attempt) :
    (Command.quiet e.abandon).Proceeds settings ops (.cancelling e) := by
  unfold Execution.abandon
  split
  · exact .quiet ⟨h, hover⟩ rfl
  · exact .quiet ⟨h, fun _ => hover⟩ rfl
  · exact .quiet ⟨h, fun _ => hover⟩ rfl

theorem Execution.Sound.cancel {e : Execution} (h : e.Sound settings ops)
    (hover : IsOver settings ops e.attempt) :
    (Command.quiet (.cancelling e.cancel)).Proceeds settings ops
      (.cancelling e) := by
  unfold Execution.cancel
  split
  · refine .quiet ⟨⟨h.handedOut, h.lost, ?_, ?_⟩, hover⟩ rfl
    · intro hrunning
      cases hrunning
    · intro hfinished
      cases hfinished
  · exact .quiet ⟨h, hover⟩ rfl

/-- An attempt is abandoned without a write only if it is over. -/
theorem Execution.Sound.close {e : Execution} (h : e.Sound settings ops)
    {ending : Ending}
    (hover : ending = .ownershipLost → IsOver settings ops e.attempt) :
    (Command.quiet (e.close ending)).Proceeds settings ops
      (.closing e ending) := by
  unfold Execution.close
  split
  · cases ending with
    | ownershipLost => exact .quiet (hover rfl) rfl
    | returned result => exact .quiet h.handedOut rfl
    | executionError message => exact .quiet h.handedOut rfl
    | crashed repr => exact .quiet h.handedOut rfl
  · exact .quiet ⟨h, hover⟩ rfl

/-- A settling write leaves the attempt over, whether it returns or is
rejected. -/
theorem Command.Proceeds.settle {a : Attempt} (h : HandedOut settings ops a)
    (htokens : (mintedTokens ops).Nodup) (s : Settlement) (now : Time) :
    (Command.database ((s.write now).op a) (afterSettling a)).Proceeds
      settings ops (.settling a s) := by
  refine .fencedWrite (p := .settling a s) h rfl htokens ?_ ?_ ?_
  · rintro outcome (hlost | ⟨reply, rfl⟩)
    · cases outcome with
      | ok reply => rfl
      | error e =>
          rw [afterSettling, if_pos hlost]
          rfl
    · rfl
  · intro reply hreply
    refine h.isOver_of_settled ?_ hreply
    cases s <;> rfl
  · intro hover
    exact hover

/-- `run_once` returns only when its attempt is over. -/
theorem Command.Proceeds.return (stop : Bool) (a : Attempt) :
    (Command.announce (.returned a) (nextCycle stop)).Proceeds settings ops
      (.settled a) := by
  intro redis
  refine ⟨nextCycle_asserts stop, ?_, ?_, (fun _ h => nomatch h), ?_,
    (fun _ _ h => by cases h)⟩
  · intro b hb
    obtain rfl := Option.some.inj hb
    exact Or.inr rfl
  · intro b hb
    exact nomatch (nextCycle_carrying stop).symm.trans hb
  · intro b hb
    cases hb
    rfl

theorem Command.Proceeds.reread {p q : Point} (hq : q.Asserts settings ops)
    (hcarrying : q.carrying = p.carrying) (c : QueueCandidate)
    (job : Option Job) :
    (Command.announce (.reread c job) q).Proceeds settings ops p := by
  intro redis
  refine ⟨by simpa [perform, opOf] using hq,
    fun a ha => Or.inl (hcarrying.trans ha),
    fun a ha => Or.inl (hcarrying.symm.trans ha), (fun _ h => nomatch h),
    (fun _ h => by cases h), (fun _ _ h => by cases h)⟩

/-! ### The points in order -/

section

variable {config : Config} {stop : Bool} {jobs : Jobs}

theorem proceeds_idle (turn : RunnerTurn) :
    (Point.next config stop jobs .idle turn).Proceeds settings ops .idle := by
  cases turn with
  | go => exact .quiet (nextCycle_asserts stop) (nextCycle_carrying stop)
  | _ => exact .quiet trivial rfl

theorem proceeds_peeking (left : ℕ) (turn : RunnerTurn) :
    (Point.next config stop jobs (.peeking left) turn).Proceeds settings ops
      (.peeking left) := by
  cases turn with
  | queue =>
      refine .queue (fun reply => ?_) (fun reply => ?_)
      · unfold afterPeek
        split <;> trivial
      · unfold afterPeek
        split <;> rfl
  | _ => exact .quiet trivial rfl

theorem proceeds_peeked (left : ℕ) (c : QueueCandidate) (turn : RunnerTurn) :
    (Point.next config stop jobs (.peeked left c) turn).Proceeds settings ops
      (.peeked left c) := by
  cases turn with
  | go => cases stop <;> exact .quiet trivial rfl
  | _ => exact .quiet trivial rfl

theorem proceeds_claiming (left : ℕ) (c : QueueCandidate)
    (turn : RunnerTurn) :
    (Point.next config stop jobs (.claiming left c) turn).Proceeds settings
      ops (.claiming left c) := by
  cases turn with
  | claim now token => exact .claim
  | _ => exact .quiet trivial rfl

theorem proceeds_inspecting (left : ℕ) (c : QueueCandidate)
    (turn : RunnerTurn) :
    (Point.next config stop jobs (.inspecting left c) turn).Proceeds settings
      ops (.inspecting left c) := by
  cases turn with
  | read =>
      exact .reread (p := .inspecting left c) (q := .inspected left c _)
        trivial rfl c _
  | _ => exact .quiet trivial rfl

theorem proceeds_inspected (left : ℕ) (c : QueueCandidate)
    (job : Option Job) (turn : RunnerTurn) :
    (Point.next config stop jobs (.inspected left c job) turn).Proceeds
      settings ops (.inspected left c job) := by
  cases turn with
  | go =>
      simp only [Point.next]
      split
      · exact .quiet (nextCandidate_asserts stop left)
          (nextCandidate_carrying stop left)
      · exact .quiet trivial rfl
  | _ => exact .quiet trivial rfl

theorem proceeds_discarding (left : ℕ) (c : QueueCandidate)
    (turn : RunnerTurn) :
    (Point.next config stop jobs (.discarding left c) turn).Proceeds settings
      ops (.discarding left c) := by
  cases turn with
  | queue => exact .queue (fun _ => trivial) (fun _ => rfl)
  | _ => exact .quiet trivial rfl

theorem proceeds_discarded (left : ℕ) (turn : RunnerTurn) :
    (Point.next config stop jobs (.discarded left) turn).Proceeds settings ops
      (.discarded left) := by
  cases turn with
  | go =>
      exact .quiet (nextCandidate_asserts stop left)
        (nextCandidate_carrying stop left)
  | _ => exact .quiet trivial rfl

/-- The claimed attempt is under execution once its entry is dropped. -/
theorem proceeds_dropping {c : QueueCandidate} {row : Job}
    (hp : (Point.dropping c row).Asserts settings ops) (turn : RunnerTurn) :
    (Point.next config stop jobs (.dropping c row) turn).Proceeds settings ops
      (.dropping c row) := by
  cases turn with
  | queue =>
      obtain ⟨a, ha, hhanded⟩ := hp
      refine .queue (fun _ => ?_) (fun _ => ?_)
      · simp only [afterDrop, ha, execute]
        split
        · exact Execution.Sound.start hhanded
        · exact hhanded
      · simp only [afterDrop, ha, Point.carrying.eq_1]
        unfold execute
        split <;> rfl
  | _ => exact .quiet hp rfl

theorem proceeds_handling {e : Execution}
    (hp : (Point.handling e).Asserts settings ops)
    (htokens : (mintedTokens ops).Nodup) (turn : RunnerTurn) :
    (Point.next config stop jobs (.handling e) turn).Proceeds settings ops
      (.handling e) := by
  have hosts : Hosts settings ops e.attempt .handling :=
    ⟨fun _ => rfl, fun _ _ h _ => h⟩
  cases turn with
  | go => exact Execution.Sound.race hp
  | report percentage =>
      exact Execution.Sound.report hp hosts htokens percentage
  | finish ending => exact Execution.Sound.finish hp hosts ending
  | _ =>
      simp only [Point.next]
      exact Execution.Sound.pulse hp hosts htokens config false _

theorem proceeds_cancelling {e : Execution}
    (hp : (Point.cancelling e).Asserts settings ops)
    (htokens : (mintedTokens ops).Nodup) (turn : RunnerTurn) :
    (Point.next config stop jobs (.cancelling e) turn).Proceeds settings ops
      (.cancelling e) := by
  have hosts : Hosts settings ops e.attempt .cancelling :=
    ⟨fun _ => rfl, fun later e' h ha => ⟨h, ha ▸ hp.2.append later⟩⟩
  cases turn with
  | go => exact hp.1.abandon hp.2
  | report percentage => exact hp.1.report hosts htokens percentage
  | finish ending => exact hp.1.finish hosts ending
  | cancelled => exact hp.1.cancel hp.2
  | _ =>
      simp only [Point.next]
      exact hp.1.pulse hosts htokens config false _

theorem proceeds_leaving {e : Execution} {ending : Ending}
    (hp : (Point.leaving e ending).Asserts settings ops)
    (htokens : (mintedTokens ops).Nodup) (turn : RunnerTurn) :
    (Point.next config stop jobs (.leaving e ending) turn).Proceeds settings
      ops (.leaving e ending) := by
  have hosts : Hosts settings ops e.attempt (.leaving · ending) :=
    ⟨fun _ => rfl,
      fun later e' h ha => ⟨h, fun hl => ha ▸ (hp.2 hl).append later⟩⟩
  cases turn with
  | go => exact .quiet hp rfl
  | _ =>
      simp only [Point.next]
      exact hp.1.pulse hosts htokens config false _

theorem proceeds_closing {e : Execution} {ending : Ending}
    (hp : (Point.closing e ending).Asserts settings ops)
    (htokens : (mintedTokens ops).Nodup) (turn : RunnerTurn) :
    (Point.next config stop jobs (.closing e ending) turn).Proceeds settings
      ops (.closing e ending) := by
  have hosts : Hosts settings ops e.attempt (.closing · ending) :=
    ⟨fun _ => rfl,
      fun later e' h ha => ⟨h, fun hl => ha ▸ (hp.2 hl).append later⟩⟩
  cases turn with
  | go => exact hp.1.close hp.2
  | timeout =>
      exact hosts.quiet ⟨hp.1.handedOut, hp.1.lost, hp.1.rejected,
        hp.1.raised⟩ rfl
  | _ =>
      simp only [Point.next]
      exact hp.1.pulse hosts htokens config true _

theorem proceeds_settling {a : Attempt} (h : HandedOut settings ops a)
    (htokens : (mintedTokens ops).Nodup) (s : Settlement)
    (turn : RunnerTurn) :
    (Point.next config stop jobs (.settling a s) turn).Proceeds settings ops
      (.settling a s) := by
  cases turn with
  | write now => exact .settle h htokens s now
  | _ => exact .quiet h rfl

theorem proceeds_settled {a : Attempt} (h : IsOver settings ops a)
    (turn : RunnerTurn) :
    (Point.next config stop jobs (.settled a) turn).Proceeds settings ops
      (.settled a) := by
  cases turn with
  | go => exact .return stop a
  | _ => exact .quiet h rfl

theorem proceeds_stopped (turn : RunnerTurn) :
    (Point.next config stop jobs .stopped turn).Proceeds settings ops
      .stopped := by
  cases turn <;> exact .quiet trivial rfl

end

/-- What a turn of the runner does to its attempt, at every point. -/
theorem Point.proceeds (config : Config) (stop : Bool) (jobs : Jobs)
    {p : Point} (hp : p.Asserts settings ops)
    (htokens : (mintedTokens ops).Nodup) (turn : RunnerTurn) :
    (p.next config stop jobs turn).Proceeds settings ops p := by
  cases p with
  | idle => exact proceeds_idle turn
  | peeking left => exact proceeds_peeking left turn
  | peeked left c => exact proceeds_peeked left c turn
  | claiming left c => exact proceeds_claiming left c turn
  | inspecting left c => exact proceeds_inspecting left c turn
  | inspected left c job => exact proceeds_inspected left c job turn
  | discarding left c => exact proceeds_discarding left c turn
  | discarded left => exact proceeds_discarded left turn
  | dropping c row => exact proceeds_dropping hp turn
  | handling e => exact proceeds_handling hp htokens turn
  | cancelling e => exact proceeds_cancelling hp htokens turn
  | leaving e ending => exact proceeds_leaving hp htokens turn
  | closing e ending => exact proceeds_closing hp htokens turn
  | settling a s => exact proceeds_settling hp htokens s turn
  | settled a => exact proceeds_settled hp turn
  | stopped => exact proceeds_stopped turn

/-! ## Turns of a run -/

/-- A turn of anyone else leaves the runner where it is. -/
theorem Proceeds.outside {p : Point} (hp : p.Asserts settings ops)
    {event : Option Event} (hclaim : claimedAttempt event = none)
    (hreturned : ∀ a, event ≠ some (.note (.returned a)))
    (hrunner : ∀ op outcome, event ≠ some (.database .runner op outcome)) :
    Proceeds settings ops p event p where
  asserts := hp.append _
  carried _ ha := Or.inl ha
  picked _ ha := Or.inl ha
  claimed _ ha := nomatch hclaim.symm.trans ha
  returned a ha := absurd ha (hreturned a)
  fenced op outcome h := absurd h (hrunner op outcome)

theorem perform_outside {π : Type} {party : Party} (hparty : party ≠ .runner)
    {p : Point} (hp : p.Asserts settings ops) (jobs : Jobs) (redis : Redis)
    {c : Command π} (hc : ∀ a next, c ≠ .announce (.returned a) next) :
    Proceeds settings ops p (perform settings party jobs redis c).2.2.2 p := by
  cases c with
  | quiet next =>
      exact .outside hp rfl (fun _ h => nomatch h) (fun _ _ h => nomatch h)
  | announce note next =>
      refine .outside hp rfl (fun a h => ?_) (fun _ _ h => by cases h)
      cases h
      exact hc a next rfl
  | database op next =>
      refine .outside hp ?_ (fun _ h => by cases h) (fun _ _ h => ?_)
      · cases party with
        | runner => exact absurd rfl hparty
        | _ => rfl
      · cases h
        exact hparty rfl
  | queue op next =>
      exact .outside hp rfl (fun _ h => by cases h) (fun _ _ h => by cases h)

theorem schedule_ne_returned (config : Config) (stop : Bool) (p : LoopPoint)
    (turn : LoopTurn) (a : Attempt) (next : LoopPoint) :
    p.schedule config stop turn ≠ .announce (.returned a) next := by
  intro h
  cases p <;> cases turn <;> try cases h
  cases stop <;> cases h

theorem recover_ne_returned (config : Config) (stop : Bool) (p : LoopPoint)
    (turn : LoopTurn) (a : Attempt) (next : LoopPoint) :
    p.recover config stop turn ≠ .announce (.returned a) next := by
  intro h
  cases p <;> cases turn <;> try cases h
  cases stop <;> cases h

theorem step_proceeds (config : Config) {s : System}
    (hjobs : s.jobs = tableAfter settings ops)
    (hp : s.runner.Asserts settings ops) (htokens : (mintedTokens ops).Nodup)
    (turn : Turn) :
    Proceeds settings ops s.runner
      ((process settings config).step s turn).2
      ((process settings config).step s turn).1.runner := by
  cases turn with
  | stop =>
      exact .outside hp rfl (fun _ h => nomatch h) (fun _ _ h => nomatch h)
  | other op =>
      exact perform_outside (by decide) hp s.jobs s.redis
        (c := .database op fun _ => ()) (fun _ _ h => by cases h)
  | otherQueue op =>
      exact perform_outside (by decide) hp s.jobs s.redis
        (c := .queue op fun _ => ()) (fun _ _ h => by cases h)
  | runner turn =>
      have hturn := Point.proceeds config s.stop s.jobs hp htokens turn s.redis
      rw [← hjobs] at hturn
      exact hturn
  | scheduler turn =>
      exact perform_outside (by decide) hp s.jobs s.redis
        (schedule_ne_returned config s.stop s.scheduler turn)
  | recovery turn =>
      exact perform_outside (by decide) hp s.jobs s.redis
        (recover_ne_returned config s.stop s.recovery turn)

end

end JobQueue.Worker
