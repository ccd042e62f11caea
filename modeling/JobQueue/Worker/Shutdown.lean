import JobQueue.Worker.Returns

/-!
# Graceful shutdown

The stop event may be set at any moment.  From then on no sweep begins, and
the runner only finishes what it has begun: a claim that had passed its check
of the event may still take effect, and the entry of that candidate may still
be dropped.  When the runner has stopped, every attempt it was handed out is
over.
-/

namespace JobQueue.Worker

open Support

/-! ## What the runner is committed to -/

/-- The candidate that is past the check of the stop event, until its entry is
kept or dropped. -/
def Point.committed : Point → Option QueueCandidate
  | .claiming _ candidate => some candidate
  | .inspecting _ candidate => some candidate
  | .inspected _ candidate _ => some candidate
  | .discarding _ candidate => some candidate
  | .dropping candidate _ => some candidate
  | _ => none

/-- The claims the runner makes without another check of the stop event. -/
def Point.pendingClaims : Point → ℕ
  | .claiming _ _ => 1
  | _ => 0

/-- A claim of this runner takes effect. -/
def takesClaim : Option Event → Bool
  | some (.database .runner (.claimJob _ _ _ _ _)
      (.ok (.claimed (some _)))) => true
  | _ => false

/-- The runner has claimed the job of the candidate, or has read it again and
found that it cannot be claimed. -/
def MayDrop (candidate : QueueCandidate) (event : Event) : Prop :=
  (∃ now workerId token leaseSeconds row, event =
      .database .runner (.claimJob now candidate.jobId workerId token
        leaseSeconds) (.ok (.claimed (some row)))) ∨
    ∃ job, event = .note (.reread candidate job) ∧
      job.any Job.isClaimable = false

/-- Why the runner is where it is, by the last event of its own. -/
def Point.Reason (last : Option Event) : Point → Prop
  | .inspected _ candidate job => last = some (.note (.reread candidate job))
  | .discarding _ candidate => ∃ event, last = some event ∧
      MayDrop candidate event
  | .dropping candidate _ => ∃ event, last = some event ∧
      MayDrop candidate event
  | _ => True

/-- What a turn of the runner does to its commitments and to the queue. -/
structure Commits (stop : Bool) (p : Point) (last : Option Event)
    (event : Option Event) (q : Point) : Prop where
  reason : q.Reason (event.or last)
  committed : stop = true → ∀ c, q.committed = some c → p.committed = some c
  pending : stop = true →
    (if takesClaim event then 1 else 0) + q.pendingClaims ≤ p.pendingClaims
  queued : ∀ op reply, event = some (.queue .runner op reply) →
    op = .peekMany 1 ∨ ∃ c, op = .remove c ∧ p.committed = some c ∧
      ∃ e, last = some e ∧ MayDrop c e
  sweepless : ∀ party, event ≠ some (.note (.sweepStarted party))

/-- The command of a turn, carried out on any stores. -/
def Command.Commits (settings : Settings) (stop : Bool) (p : Point)
    (last : Option Event) (c : Command Point) : Prop :=
  ∀ jobs redis, Worker.Commits stop p last
    (perform settings .runner jobs redis c).2.2.2
    (perform settings .runner jobs redis c).2.2.1

section

variable {settings : Settings} {stop : Bool} {p : Point} {last : Option Event}

theorem Point.reason_of_uncommitted {q : Point} (h : q.committed = none)
    (last : Option Event) : q.Reason last := by
  cases q with
  | inspected left candidate job => cases h
  | discarding left candidate => cases h
  | dropping candidate row => cases h
  | _ => trivial

theorem Point.pendingClaims_of_uncommitted {q : Point}
    (h : q.committed = none) : q.pendingClaims = 0 := by
  cases q with
  | claiming left candidate => cases h
  | _ => rfl

/-- A turn that leads away from every candidate, without a claim and without
a call to Redis. -/
theorem Commits.aside {event : Option Event} {q : Point}
    (hq : q.committed = none) (hclaim : takesClaim event = false)
    (hqueue : ∀ op reply, event ≠ some (.queue .runner op reply))
    (hsweep : ∀ party, event ≠ some (.note (.sweepStarted party))) :
    Commits stop p last event q where
  reason := q.reason_of_uncommitted hq _
  committed _ c hc := nomatch hq.symm.trans hc
  pending _ := by
    rw [hclaim, Point.pendingClaims_of_uncommitted hq]
    exact Nat.zero_le _
  queued op reply h := absurd h (hqueue op reply)
  sweepless := hsweep

theorem Command.Commits.stay (h : p.Reason last) :
    (Command.quiet p).Commits settings stop p last := by
  intro jobs redis
  exact ⟨h, fun _ _ hc => hc, fun _ => by simp [perform, takesClaim],
    (fun _ _ hevent => by cases hevent), (fun _ hevent => by cases hevent)⟩

theorem Command.Commits.quiet {q : Point} (hq : q.committed = none) :
    (Command.quiet q).Commits settings stop p last := by
  intro jobs redis
  exact .aside hq rfl (fun _ _ h => by cases h) (fun _ h => by cases h)

theorem Command.Commits.return {q : Point} (a : Attempt)
    (hq : q.committed = none) :
    (Command.announce (.returned a) q).Commits settings stop p last := by
  intro jobs redis
  exact .aside hq rfl (fun _ _ h => by cases h) (fun _ h => by cases h)

theorem Command.Commits.fencedWrite {a : Attempt} {w : FencedWrite}
    {next : Outcome → Point}
    (hnext : ∀ outcome, (next outcome).committed = none) :
    (Command.database (w.op a) next).Commits settings stop p last := by
  intro jobs redis
  refine .aside (hnext _) ?_ (fun _ _ h => by cases h) (fun _ h => by cases h)
  cases w <;> rfl

theorem Command.Commits.claim {config : Config} {left : ℕ}
    {candidate : QueueCandidate} {now : Time} {token : UUID} :
    (Command.database (.claimJob now candidate.jobId config.workerId token
      (some config.leaseSeconds)) (afterClaim left candidate)).Commits
        settings stop (.claiming left candidate) last := by
  intro jobs redis
  simp only [perform]
  generalize ((service settings).step jobs (.claimJob now candidate.jobId
    config.workerId token (some config.leaseSeconds))).2 = outcome
  have hqueued : ∀ op reply, some (Event.database .runner (.claimJob now
      candidate.jobId config.workerId token (some config.leaseSeconds))
        outcome) ≠ some (.queue .runner op reply) :=
    fun op reply h => by cases h
  have hsweep : ∀ party, some (Event.database .runner (.claimJob now
      candidate.jobId config.workerId token (some config.leaseSeconds))
        outcome) ≠ some (.note (.sweepStarted party)) :=
    fun party h => by cases h
  cases outcome with
  | error e => exact .aside rfl rfl hqueued hsweep
  | ok reply =>
      cases reply with
      | claimed row =>
          cases row with
          | none =>
              exact ⟨trivial, fun _ _ hc => hc, fun _ => Nat.zero_le _,
                (fun op reply h => absurd h (hqueued op reply)), hsweep⟩
          | some row =>
              exact ⟨⟨_, rfl, Or.inl ⟨_, _, _, _, _, rfl⟩⟩,
                fun _ _ hc => hc, fun _ => le_rfl,
                (fun op reply h => absurd h (hqueued op reply)), hsweep⟩
      | _ => exact .aside rfl rfl hqueued hsweep

theorem Command.Commits.remove {c : QueueCandidate}
    (hc : p.committed = some c) {e : Event} (he : last = some e)
    (hdrop : MayDrop c e) {q : Point} (hq : q.committed = none) :
    (Command.queue (.remove c) fun _ => q).Commits settings stop p last := by
  intro jobs redis
  refine ⟨q.reason_of_uncommitted hq _, fun _ d hd => ?_, fun _ => ?_, ?_,
    (fun _ h => by cases h)⟩
  · exact nomatch hq.symm.trans hd
  · rw [show (perform settings .runner jobs redis (.queue (.remove c)
        fun _ => q)).2.2.1 = q from rfl, q.pendingClaims_of_uncommitted hq]
    exact Nat.zero_le _
  · intro op reply hevent
    cases hevent
    exact Or.inr ⟨c, rfl, hc, e, he, hdrop⟩

/-! ### Away from the candidates -/

theorem nextCandidate_committed (stop : Bool) (left : ℕ) :
    (nextCandidate stop left).committed = none := by
  cases left with
  | zero => rfl
  | succ left => cases stop <;> rfl

theorem nextCycle_committed (stop : Bool) :
    (nextCycle stop).committed = none := by
  cases stop <;> rfl

theorem afterDrop_committed (row : Job) : (afterDrop row).committed = none := by
  unfold afterDrop execute
  split
  · split <;> rfl
  · rfl

theorem afterSettling_committed (a : Attempt) (outcome : Outcome) :
    (afterSettling a outcome).committed = none := by
  unfold afterSettling
  split
  · rfl
  · split <;> rfl

theorem Execution.race_committed (e : Execution) :
    e.race.committed = none := by
  unfold Execution.race
  split
  · rfl
  · split <;> rfl

theorem Execution.abandon_committed (e : Execution) :
    e.abandon.committed = none := by
  unfold Execution.abandon
  split <;> rfl

theorem Execution.close_committed (e : Execution) (ending : Ending) :
    (e.close ending).committed = none := by
  unfold Execution.close
  split
  · cases ending <;> rfl
  · rfl

theorem Execution.pulse_commits (e : Execution) {next : Execution → Point}
    (hnext : ∀ e, (next e).committed = none) (config : Config)
    (closing : Bool) (turn : RunnerTurn) :
    (e.pulse config closing next turn).Commits settings stop p last := by
  cases turn with
  | beat now =>
      simp only [Execution.pulse]
      split
      · exact .fencedWrite fun _ => hnext _
      · exact .quiet (hnext e)
  | wake => exact .quiet (hnext _)
  | _ => exact .quiet (hnext e)

theorem Execution.work_commits (e : Execution) {next : Execution → Point}
    (hnext : ∀ e, (next e).committed = none) (turn : RunnerTurn) :
    (e.work next turn).Commits settings stop p last := by
  cases turn with
  | report percentage =>
      simp only [Execution.work]
      split
      · exact .fencedWrite fun _ => hnext _
      · exact .quiet (hnext e)
  | finish ending =>
      rcases e.work_finish next ending with hstay | ⟨hfinish, -⟩
      · rw [hstay]
        exact .quiet (hnext e)
      · rw [hfinish]
        exact .quiet (hnext _)
  | _ => exact .quiet (hnext e)

/-! ### The points in order -/

section

variable {config : Config} {jobs : Jobs}

theorem commits_idle (turn : RunnerTurn) :
    (Point.next config stop jobs .idle turn).Commits settings stop .idle
      last := by
  cases turn with
  | go => exact .quiet (nextCycle_committed stop)
  | _ => exact .quiet rfl

theorem afterPeek_committed (left : ℕ) (reply : QueueReply) :
    (afterPeek left reply).committed = none := by
  unfold afterPeek
  split <;> rfl

theorem commits_peeking (left : ℕ) (turn : RunnerTurn) :
    (Point.next config stop jobs (.peeking left) turn).Commits settings stop
      (.peeking left) last := by
  cases turn with
  | queue =>
      intro jobs redis
      have hpeek := afterPeek_committed left
      refine ⟨Point.reason_of_uncommitted (hpeek _) _, fun _ c hc => ?_,
        fun _ => ?_, fun op reply h => ?_, (fun _ h => by cases h)⟩
      · exact absurd ((hpeek _).symm.trans hc) (Option.some_ne_none c).symm
      · exact (Nat.zero_add _).trans_le
          (Point.pendingClaims_of_uncommitted (hpeek _)).le
      · cases h
        exact Or.inl rfl
  | _ => exact .quiet rfl

theorem commits_peeked (left : ℕ) (c : QueueCandidate) (turn : RunnerTurn) :
    (Point.next config stop jobs (.peeked left c) turn).Commits settings stop
      (.peeked left c) last := by
  cases turn with
  | go =>
      cases stop with
      | true => exact .quiet rfl
      | false =>
          intro jobs redis
          exact ⟨trivial, (fun h => absurd h Bool.false_ne_true),
            (fun h => absurd h Bool.false_ne_true),
            (fun _ _ h => by cases h), (fun _ h => by cases h)⟩
  | _ => exact .quiet rfl

theorem commits_claiming (left : ℕ) (c : QueueCandidate) (turn : RunnerTurn) :
    (Point.next config stop jobs (.claiming left c) turn).Commits settings
      stop (.claiming left c) last := by
  cases turn with
  | claim now token => exact .claim
  | _ => exact .stay trivial

theorem commits_inspecting (left : ℕ) (c : QueueCandidate)
    (turn : RunnerTurn) :
    (Point.next config stop jobs (.inspecting left c) turn).Commits settings
      stop (.inspecting left c) last := by
  cases turn with
  | read =>
      intro jobs redis
      exact ⟨rfl, fun _ _ hc => hc, fun _ => le_rfl,
        (fun _ _ h => by cases h), (fun _ h => by cases h)⟩
  | _ => exact .stay trivial

theorem commits_inspected {left : ℕ} {c : QueueCandidate} {job : Option Job}
    (hp : (Point.inspected left c job).Reason last) (turn : RunnerTurn) :
    (Point.next config stop jobs (.inspected left c job) turn).Commits
      settings stop (.inspected left c job) last := by
  cases turn with
  | go =>
      simp only [Point.next]
      split
      · exact .quiet (nextCandidate_committed stop left)
      · next hclaimable =>
          intro jobs redis
          refine ⟨⟨_, hp, Or.inr ⟨job, rfl, ?_⟩⟩, fun _ _ hc => hc,
            fun _ => le_rfl, (fun _ _ h => by cases h),
            (fun _ h => by cases h)⟩
          simpa using hclaimable
  | _ => exact .stay hp

theorem commits_discarding {left : ℕ} {c : QueueCandidate}
    (hp : (Point.discarding left c).Reason last) (turn : RunnerTurn) :
    (Point.next config stop jobs (.discarding left c) turn).Commits settings
      stop (.discarding left c) last := by
  cases turn with
  | queue =>
      obtain ⟨event, hlast, hdrop⟩ := hp
      exact .remove rfl hlast hdrop rfl
  | _ => exact .stay hp

theorem commits_discarded (left : ℕ) (turn : RunnerTurn) :
    (Point.next config stop jobs (.discarded left) turn).Commits settings stop
      (.discarded left) last := by
  cases turn with
  | go => exact .quiet (nextCandidate_committed stop left)
  | _ => exact .quiet rfl

theorem commits_dropping {c : QueueCandidate} {row : Job}
    (hp : (Point.dropping c row).Reason last) (turn : RunnerTurn) :
    (Point.next config stop jobs (.dropping c row) turn).Commits settings stop
      (.dropping c row) last := by
  cases turn with
  | queue =>
      obtain ⟨event, hlast, hdrop⟩ := hp
      exact .remove rfl hlast hdrop (afterDrop_committed row)
  | _ => exact .stay hp

theorem commits_handling (e : Execution) (turn : RunnerTurn) :
    (Point.next config stop jobs (.handling e) turn).Commits settings stop
      (.handling e) last := by
  cases turn with
  | go => exact .quiet e.race_committed
  | report percentage =>
      simp only [Point.next]
      exact e.work_commits (fun _ => rfl) _
  | finish ending =>
      simp only [Point.next]
      exact e.work_commits (fun _ => rfl) _
  | _ =>
      simp only [Point.next]
      exact e.pulse_commits (fun _ => rfl) config false _

theorem commits_cancelling (e : Execution) (turn : RunnerTurn) :
    (Point.next config stop jobs (.cancelling e) turn).Commits settings stop
      (.cancelling e) last := by
  cases turn with
  | go => exact .quiet e.abandon_committed
  | report percentage =>
      simp only [Point.next]
      exact e.work_commits (fun _ => rfl) _
  | finish ending =>
      simp only [Point.next]
      exact e.work_commits (fun _ => rfl) _
  | cancelled => exact .quiet rfl
  | _ =>
      simp only [Point.next]
      exact e.pulse_commits (fun _ => rfl) config false _

theorem commits_leaving (e : Execution) (ending : Ending)
    (turn : RunnerTurn) :
    (Point.next config stop jobs (.leaving e ending) turn).Commits settings
      stop (.leaving e ending) last := by
  cases turn with
  | go => exact .quiet rfl
  | _ =>
      simp only [Point.next]
      exact e.pulse_commits (fun _ => rfl) config false _

theorem commits_closing (e : Execution) (ending : Ending)
    (turn : RunnerTurn) :
    (Point.next config stop jobs (.closing e ending) turn).Commits settings
      stop (.closing e ending) last := by
  cases turn with
  | go => exact .quiet (e.close_committed ending)
  | timeout => exact .quiet rfl
  | _ =>
      simp only [Point.next]
      exact e.pulse_commits (fun _ => rfl) config true _

theorem commits_settling (a : Attempt) (s : Settlement) (turn : RunnerTurn) :
    (Point.next config stop jobs (.settling a s) turn).Commits settings stop
      (.settling a s) last := by
  cases turn with
  | write now => exact .fencedWrite (afterSettling_committed a)
  | _ => exact .quiet rfl

theorem commits_settled (a : Attempt) (turn : RunnerTurn) :
    (Point.next config stop jobs (.settled a) turn).Commits settings stop
      (.settled a) last := by
  cases turn with
  | go => exact .return a (nextCycle_committed stop)
  | _ => exact .quiet rfl

theorem commits_stopped (turn : RunnerTurn) :
    (Point.next config stop jobs .stopped turn).Commits settings stop .stopped
      last := by
  cases turn <;> exact .quiet rfl

end

/-- What a turn of the runner does to its commitments, at every point. -/
theorem Point.commits (settings : Settings) (config : Config) (stop : Bool)
    (jobs : Jobs) {p : Point} {last : Option Event} (hp : p.Reason last)
    (turn : RunnerTurn) :
    (p.next config stop jobs turn).Commits settings stop p last := by
  cases p with
  | idle => exact commits_idle turn
  | peeking left => exact commits_peeking left turn
  | peeked left c => exact commits_peeked left c turn
  | claiming left c => exact commits_claiming left c turn
  | inspecting left c => exact commits_inspecting left c turn
  | inspected left c job => exact commits_inspected hp turn
  | discarding left c => exact commits_discarding hp turn
  | discarded left => exact commits_discarded left turn
  | dropping c row => exact commits_dropping hp turn
  | handling e => exact commits_handling e turn
  | cancelling e => exact commits_cancelling e turn
  | leaving e ending => exact commits_leaving e ending turn
  | closing e ending => exact commits_closing e ending turn
  | settling a s => exact commits_settling a s turn
  | settled a => exact commits_settled a turn
  | stopped => exact commits_stopped turn

/-! ## Runs -/

/-- The events of the runner, its handler and its heartbeat. -/
def runnerEvents (log : Log) : List Event :=
  log.filterMap fun x =>
    match x.1 with
    | .runner _ => x.2
    | _ => none

def claims (log : Log) : ℕ := log.countP fun x => takesClaim x.2

theorem getLast?_runnerEvents_concat (log : Log) (turn : RunnerTurn)
    (event : Option Event) :
    (runnerEvents (log ++ [(.runner turn, event)])).getLast? =
      event.or (runnerEvents log).getLast? := by
  cases event with
  | none => simp [runnerEvents]
  | some event => simp [runnerEvents]

theorem step_outside (settings : Settings) (config : Config) (s : System)
    {turn : Turn} (hturn : ¬ ∃ t, turn = .runner t) :
    ((process settings config).step s turn).1.runner = s.runner ∧
      takesClaim ((process settings config).step s turn).2 = false ∧
      ∀ log event, runnerEvents (log ++ [(turn, event)]) =
        runnerEvents log := by
  cases turn with
  | runner t => exact absurd ⟨t, rfl⟩ hturn
  | stop => exact ⟨rfl, rfl, fun log event => by simp [runnerEvents]⟩
  | other op => exact ⟨rfl, rfl, fun log event => by simp [runnerEvents]⟩
  | otherQueue op =>
      exact ⟨rfl, rfl, fun log event => by simp [runnerEvents]⟩
  | scheduler t =>
      refine ⟨rfl, ?_, fun log event => by simp [runnerEvents]⟩
      simp only [process]
      cases s.scheduler.schedule config s.stop t <;> rfl
  | recovery t =>
      refine ⟨rfl, ?_, fun log event => by simp [runnerEvents]⟩
      simp only [process]
      cases s.recovery.recover config s.stop t <;> rfl

theorem perform_sweepless {π : Type} {party party' : Party} {jobs : Jobs}
    {redis : Redis} {c : Command π}
    (hc : ∀ next, c ≠ .announce (.sweepStarted party') next) :
    (perform settings party jobs redis c).2.2.2 ≠
      some (.note (.sweepStarted party')) := by
  cases c with
  | announce note next =>
      intro h
      cases h
      exact hc next rfl
  | _ => exact fun h => by cases h

theorem schedule_sweepless (config : Config) (p : LoopPoint) (turn : LoopTurn)
    (party : Party) (next : LoopPoint) :
    p.schedule config true turn ≠ .announce (.sweepStarted party) next := by
  intro h
  cases p <;> cases turn <;> cases h

theorem recover_sweepless (config : Config) (p : LoopPoint) (turn : LoopTurn)
    (party : Party) (next : LoopPoint) :
    p.recover config true turn ≠ .announce (.sweepStarted party) next := by
  intro h
  cases p <;> cases turn <;> cases h

end

section

variable {settings : Settings} {config : Config} {turns : List Turn}

/-- The last event of the runner is why it is where it is. -/
theorem reason_systemAfter (settings : Settings) (config : Config)
    (turns : List Turn) :
    (systemAfter settings config turns).runner.Reason
      (runnerEvents (logOf settings config turns)).getLast? := by
  induction turns using List.reverseRecOn with
  | nil => trivial
  | append_singleton turns turn ih =>
      rw [logOf_concat, systemAfter_concat]
      by_cases hturn : ∃ t, turn = .runner t
      · obtain ⟨t, rfl⟩ := hturn
        rw [getLast?_runnerEvents_concat]
        exact (Point.commits settings config _ _ ih t _ _).reason
      · obtain ⟨hrunner, -, hevents⟩ := step_outside settings config
          (systemAfter settings config turns) hturn
        rw [hrunner, hevents]
        exact ih

theorem commits_concat (settings : Settings) (config : Config)
    (turns : List Turn) (turn : RunnerTurn) :
    Commits (systemAfter settings config turns).stop
      (systemAfter settings config turns).runner
      (runnerEvents (logOf settings config turns)).getLast?
      (eventOf settings config turns (.runner turn))
      (systemAfter settings config (turns ++ [.runner turn])).runner := by
  rw [systemAfter_concat]
  exact Point.commits settings config _ _
    (reason_systemAfter settings config turns) turn _ _

theorem stop_systemAfter (settings : Settings) (config : Config)
    (before after : List Turn) :
    (systemAfter settings config (before ++ .stop :: after)).stop = true := by
  induction after using List.reverseRecOn with
  | nil =>
      rw [systemAfter_concat]
      rfl
  | append_singleton after turn ih =>
      rw [← List.cons_append, ← List.append_assoc, systemAfter_concat]
      cases turn with
      | stop => rfl
      | _ => exact ih

/-! ### After the stop event was set -/

theorem systemAfter_stop_concat (before after : List Turn) (turn : Turn) :
    systemAfter settings config (before ++ .stop :: (after ++ [turn])) =
      ((process settings config).step
        (systemAfter settings config (before ++ .stop :: after)) turn).1 := by
  rw [← systemAfter_concat]
  simp

theorem runner_stop (before : List Turn) :
    (systemAfter settings config (before ++ [.stop])).runner =
      (systemAfter settings config before).runner := by
  rw [systemAfter_concat]
  rfl

/-- No candidate gets past the check any more. -/
theorem committed_of_stop (before : List Turn) {after : List Turn}
    {c : QueueCandidate}
    (h : (systemAfter settings config
      (before ++ .stop :: after)).runner.committed = some c) :
    (systemAfter settings config before).runner.committed = some c := by
  induction after using List.reverseRecOn with
  | nil => rwa [runner_stop] at h
  | append_singleton after turn ih =>
      rw [systemAfter_stop_concat] at h
      by_cases hturn : ∃ t, turn = .runner t
      · obtain ⟨t, rfl⟩ := hturn
        have hstop := stop_systemAfter settings config before after
        have hcommits := commits_concat settings config
          (before ++ .stop :: after) t
        rw [systemAfter_concat] at hcommits
        exact ih (hcommits.committed hstop c h)
      · rw [(step_outside settings config _ hturn).1] at h
        exact ih h

def logFrom (settings : Settings) (config : Config) (turns later : List Turn) :
    Log :=
  (process settings config).trace (systemAfter settings config turns) later

theorem logFrom_concat (turns later : List Turn) (turn : Turn) :
    logFrom settings config turns (later ++ [turn]) =
      logFrom settings config turns later ++
        [(turn, eventOf settings config (turns ++ later) turn)] := by
  rw [logFrom, Machine.trace_append, eventOf, systemAfter, systemAfter,
    Machine.run_append]
  rfl

theorem claims_concat (log : Log) (turn : Turn) (event : Option Event) :
    claims (log ++ [(turn, event)]) =
      claims log + if takesClaim event then 1 else 0 := by
  rw [claims, List.countP_append, List.countP_singleton, claims]

/-- Only a claim that is past the check takes effect. -/
theorem claims_of_stop (settings : Settings) (config : Config)
    (before after : List Turn) :
    claims (logFrom settings config (before ++ [.stop]) after) +
        (systemAfter settings config
          (before ++ .stop :: after)).runner.pendingClaims ≤
      (systemAfter settings config before).runner.pendingClaims := by
  induction after using List.reverseRecOn with
  | nil =>
      rw [runner_stop]
      exact (Nat.zero_add _).le
  | append_singleton after turn ih =>
      rw [logFrom_concat, claims_concat, systemAfter_stop_concat,
        List.append_assoc, List.singleton_append]
      by_cases hturn : ∃ t, turn = .runner t
      · obtain ⟨t, rfl⟩ := hturn
        have hstop := stop_systemAfter settings config before after
        have hpending := (commits_concat settings config
          (before ++ .stop :: after) t).pending hstop
        rw [systemAfter_concat] at hpending
        omega
      · obtain ⟨hrunner, hclaim, -⟩ := step_outside settings config
          (systemAfter settings config (before ++ .stop :: after)) hturn
        rw [hrunner, eventOf, hclaim]
        exact ih

theorem sweepless_of_stop (before after : List Turn) (turn : Turn)
    (party : Party) :
    eventOf settings config (before ++ .stop :: after) turn ≠
      some (.note (.sweepStarted party)) := by
  have hstop := stop_systemAfter settings config before after
  cases turn with
  | stop => exact fun h => nomatch h
  | other op => exact fun h => by cases h
  | otherQueue op => exact fun h => by cases h
  | runner turn =>
      exact (commits_concat settings config _ turn).sweepless party
  | scheduler turn =>
      rw [eventOf]
      simp only [process]
      refine perform_sweepless fun next => ?_
      rw [hstop]
      exact schedule_sweepless config _ turn party next
  | recovery turn =>
      rw [eventOf]
      simp only [process]
      refine perform_sweepless fun next => ?_
      rw [hstop]
      exact recover_sweepless config _ turn party next

theorem perform_redis {π : Type} (settings : Settings) (party : Party)
    (jobs : Jobs) (redis : Redis) (c : Command π) :
    (perform settings party jobs redis c).2.1 = redis ∨
      ∃ op reply, (perform settings party jobs redis c).2.2.2 =
          some (.queue party op reply) ∧
        (perform settings party jobs redis c).2.1 =
          (JobQueue.queue.step redis op).1 := by
  cases c with
  | queue op next => exact Or.inr ⟨op, _, rfl, rfl⟩
  | _ => exact Or.inl rfl

/-- The runner changes the queue only by dropping the entry of the candidate
that was past the check, and only for a reason. -/
theorem redis_of_stop (before after : List Turn) (turn : RunnerTurn) :
    (systemAfter settings config
        (before ++ .stop :: (after ++ [.runner turn]))).redis =
      (systemAfter settings config (before ++ .stop :: after)).redis ∨
    ∃ c reply,
      (systemAfter settings config before).runner.committed = some c ∧
      eventOf settings config (before ++ .stop :: after) (.runner turn) =
        some (.queue .runner (.remove c) reply) ∧
      ∃ e, (runnerEvents (logOf settings config
        (before ++ .stop :: after))).getLast? = some e ∧ MayDrop c e := by
  have hcommits := commits_concat settings config (before ++ .stop :: after)
    turn
  rw [systemAfter_stop_concat]
  rcases perform_redis settings .runner
      (systemAfter settings config (before ++ .stop :: after)).jobs
      (systemAfter settings config (before ++ .stop :: after)).redis
      ((systemAfter settings config (before ++ .stop :: after)).runner.next
        config _ _ turn) with hsame | ⟨op, reply, hevent, hredis⟩
  · exact Or.inl hsame
  · rcases hcommits.queued op reply hevent with rfl | ⟨c, rfl, hc, hreason⟩
    · exact Or.inl hredis
    · exact Or.inr ⟨c, reply, committed_of_stop before hc, hevent, hreason⟩

/-! ### When the runner has stopped -/

def callOf : Option Event → Option (Op × Outcome)
  | some (.database _ op outcome) => some (op, outcome)
  | _ => none

theorem callsOf_opsIn (settings : Settings) (config : Config)
    (turns : List Turn) :
    callsOf settings (opsIn (logOf settings config turns)) =
      (logOf settings config turns).filterMap fun x => callOf x.2 := by
  induction turns using List.reverseRecOn with
  | nil => rfl
  | append_singleton turns turn ih =>
      rw [opsIn_logOf_concat, callsOf_append, ih, logOf_concat,
        List.filterMap_append, ← jobs_systemAfter]
      congr 1
      cases hevent : eventOf settings config turns turn with
      | none => rfl
      | some event =>
          cases event with
          | database party op outcome =>
              simp [opOf, callOf, step_outcome hevent]
          | queue party op reply => rfl
          | note note => rfl

/-- The token this runner draws in a turn, for a claim that may or may not
take effect. -/
def drawnToken : Option Event → Option UUID
  | some (.database .runner (.claimJob _ _ _ token _) _) => some token
  | _ => none

def drawnTokens (log : Log) : List UUID :=
  log.filterMap fun x => drawnToken x.2

theorem drawnToken_eq_some {event : Option Event} {token : UUID}
    (h : drawnToken event = some token) :
    ∃ now jobId workerId leaseSeconds outcome, event =
      some (.database .runner (.claimJob now jobId workerId token
        leaseSeconds) outcome) := by
  unfold drawnToken at h
  split at h
  · obtain rfl := Option.some.inj h
    exact ⟨_, _, _, _, _, rfl⟩
  · cases h

/-- A token of this runner that is on a row is that of an attempt it was
handed out. -/
theorem claimed_of_drawnToken (htokens : FreshTokens settings config turns)
    {token : UUID} (htoken : token ∈ drawnTokens (logOf settings config turns))
    {r : Job} (hr : r ∈ (systemAfter settings config turns).jobs.rows)
    (hrow : r.executionToken = some token) :
    ∃ a ∈ claimedAttempts (logOf settings config turns),
      a.executionToken = token := by
  obtain ⟨⟨turn, event⟩, hmem, hdrawn⟩ := List.mem_filterMap.mp htoken
  obtain ⟨now, jobId, workerId, leaseSeconds, outcome, rfl⟩ :=
    drawnToken_eq_some hdrawn
  have hown : (.claimJob now jobId workerId token leaseSeconds, outcome) ∈
      callsOf settings (opsIn (logOf settings config turns)) := by
    rw [callsOf_opsIn]
    exact List.mem_filterMap.mpr ⟨_, hmem, rfl⟩
  rw [jobs_systemAfter] at hr
  obtain ⟨now', workerId', leaseSeconds', row, hcall⟩ :=
    claim_of_token (KeyedTable.find?_eq_some_iff.mpr ⟨hr, rfl⟩) hrow
  -- The token was drawn once, so the claim that put it there is this one.
  have heq := eq_of_mintedToken htokens hown hcall rfl rfl
  obtain rfl := (Prod.mk.inj heq).2
  obtain ⟨before, after, -, hreply⟩ :=
    (service settings).exists_of_mem_trace hown
  obtain ⟨a, ha, htoken'⟩ := attempt_of_claimed hreply.symm
  refine ⟨a, List.mem_filterMap.mpr ⟨_, hmem, ?_⟩, htoken'⟩
  simp [claimedAttempt, ha, Except.toOption]

end

/-! ## Shutdown -/

/-- What the process does when the stop event is set after the turns `before`
and the turns `after` follow. -/
structure ShutsDown (settings : Settings) (config : Config)
    (before after : List Turn) : Prop where
  noSweep : ∀ earlier turn later party, after = earlier ++ turn :: later →
    eventOf settings config (before ++ .stop :: earlier) turn ≠
      some (.note (.sweepStarted party))
  oneClaim : claims (logFrom settings config (before ++ [.stop]) after) ≤ 1
  pastCheck : 0 < claims (logFrom settings config (before ++ [.stop]) after) →
    ∃ left c, (systemAfter settings config before).runner = .claiming left c
  keepsEntries : ∀ earlier turn later,
    after = earlier ++ .runner turn :: later →
    (systemAfter settings config
        (before ++ .stop :: (earlier ++ [.runner turn]))).redis =
      (systemAfter settings config (before ++ .stop :: earlier)).redis ∨
    ∃ c reply,
      (systemAfter settings config before).runner.committed = some c ∧
      eventOf settings config (before ++ .stop :: earlier) (.runner turn) =
        some (.queue .runner (.remove c) reply) ∧
      ∃ e, (runnerEvents (logOf settings config
        (before ++ .stop :: earlier))).getLast? = some e ∧ MayDrop c e
  drained :
    (systemAfter settings config (before ++ .stop :: after)).runner =
      .stopped →
    (∀ a ∈ claimedAttempts (logOf settings config (before ++ .stop :: after)),
      IsOver settings
        (opsIn (logOf settings config (before ++ .stop :: after))) a) ∧
    ∀ token ∈ drawnTokens (logOf settings config (before ++ .stop :: after)),
      ∀ r ∈ (systemAfter settings config (before ++ .stop :: after)).jobs.rows,
        r.executionToken ≠ some token

/-- Graceful shutdown.  Whenever the stop event is set, and in every
interleaving with other processes in which different claims draw different
tokens: no sweep begins afterwards; at most one claim of the runner takes
effect, and only one that was past its check; the runner leaves the queue as
it is, unless it drops the entry of the candidate that was past its check,
after claiming the job or after reading again that it cannot be claimed; and
when `run_forever` has returned, every attempt of the runner is over and no
row carries a token it minted. -/
theorem graceful_shutdown (settings : Settings) (config : Config)
    {before after : List Turn}
    (htokens : FreshTokens settings config (before ++ .stop :: after)) :
    ShutsDown settings config before after := by
  have hclaims := claims_of_stop settings config before after
  refine ⟨?_, ?_, ?_, ?_, ?_⟩
  · intro earlier turn later party _
    exact sweepless_of_stop before earlier turn party
  · have hpending : (systemAfter settings config
        before).runner.pendingClaims ≤ 1 := by
      cases (systemAfter settings config before).runner with
      | claiming left c => exact le_rfl
      | _ => exact Nat.zero_le 1
    omega
  · intro hpos
    cases hrunner : (systemAfter settings config before).runner with
    | claiming left c => exact ⟨left, c, rfl⟩
    | _ =>
        simp only [hrunner, Point.pendingClaims] at hclaims
        omega
  · intro earlier turn later _
    exact redis_of_stop before earlier turn
  · intro hstopped
    have hover : ∀ a ∈ claimedAttempts (logOf settings config
        (before ++ .stop :: after)), IsOver settings
          (opsIn (logOf settings config (before ++ .stop :: after))) a := by
      intro a ha
      rcases claimed_isOver htokens ha with hover | hcarrying
      · exact hover
      · rw [hstopped] at hcarrying
        cases hcarrying
    refine ⟨hover, fun token htoken r hr hrow => ?_⟩
    obtain ⟨a, ha, rfl⟩ := claimed_of_drawnToken htokens htoken hr hrow
    rw [jobs_systemAfter] at hr
    exact (hover a ha).token_ne htokens hr hrow

/-- The handler returns, the heartbeat ends, and the attempt is settled. -/
def settlingRun : List Turn :=
  [.runner (.finish (.returned "done")), .runner .go, .runner .go,
    .runner .wake, .runner .go, .runner (.write (seconds 5)), .runner .go]

/-- The stop event is set while a handler runs. -/
theorem graceful_shutdown_handling :
    (systemAfter sampleSettings sampleConfig
        (claimedRun ++ .stop :: settlingRun)).runner = .stopped ∧
      ShutsDown sampleSettings sampleConfig claimedRun settlingRun :=
  ⟨rfl, graceful_shutdown sampleSettings sampleConfig
    (by unfold FreshTokens; decide +kernel)⟩

/-- The runner saw the candidate at the front of the queue. -/
def Peeked (c : QueueCandidate) (log : Log) : Prop :=
  ∃ x ∈ log, ∃ others, x.2 = some (.queue .runner (.peekMany 1)
    (.candidates (.ok (c :: others))))

/-- Every candidate the runner saw and did not claim keeps its entry, as far
as the runner is concerned. -/
def KeepsUnclaimed (settings : Settings) (config : Config)
    (before after : List Turn) : Prop :=
  ∀ c, Peeked c (logOf settings config (before ++ .stop :: after)) →
    (∀ a ∈ claimedAttempts (logOf settings config (before ++ .stop :: after)),
      a.jobId ≠ c.jobId) →
    ∀ earlier turn later, after = earlier ++ .runner turn :: later →
      c.member ∈ (systemAfter settings config
        (before ++ .stop :: earlier)).redis.ready.members →
      c.member ∈ (systemAfter settings config
        (before ++ .stop :: (earlier ++ [.runner turn]))).redis.ready.members

/-- The entry of the first job that was published. -/
def firstEntry : QueueCandidate where
  jobId := 1
  member := entryMember sequenceWidth 1 (UUID.str 1)
  sequence := 1
  decodes := by decide +kernel

/-- The stop event is set while a claim is under way, and the job is cancelled
before the claim reaches it: the runner discards the entry. -/
theorem shutdown_discards_unclaimable :
    ¬ KeepsUnclaimed sampleSettings sampleConfig
      [.other (sampleSubmit 1), .otherQueue (.enqueue 1 50), .runner .go,
        .runner .queue, .runner .go]
      [.other (.cancelJob 1), .runner (.claim 0 7), .runner .read,
        .runner .go, .runner .queue] := by
  intro h
  have hkept := h firstEntry ⟨(.runner .queue, some (.queue .runner
      (.peekMany 1) (.candidates (.ok [firstEntry])))),
    List.mem_of_getElem? (i := 3) rfl, [], rfl⟩ (by decide +kernel)
    [.other (.cancelJob 1), .runner (.claim 0 7), .runner .read,
      .runner .go] .queue [] rfl (by decide +kernel)
  revert hkept
  decide +kernel

end JobQueue.Worker
