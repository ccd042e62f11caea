import JobQueue.Worker.Attempts

/-!
# The runner of a worker process is a runner of the deployment

The worker process splits `_execute` at every `await` of the handler, the
heartbeat and the runner; the deployment sees of it only the writes of an
attempt under execution.  Here the finer runner is shown to refine the coarser
one: every turn is matched by actions of the deployment's runner that make the
same calls, with the same answers, so the same holds of every run.
-/

namespace JobQueue.Worker

open Support

/-! ## A runner of the deployment among others -/

/-- What moves the stores: the runner acts, or someone else makes a call. -/
inductive Move
  | act (a : Action)
  | call (op : Op)
  | callQueue (op : QueueOp)

/-- One process of the deployment; of the others only their calls are seen. -/
def hosted (settings : Settings) (pid : ℕ) :
    Machine (Store × JobQueue.Process) Move (Option JobQueue.Event) where
  step x
  | .act a =>
      let (s, q, event) := (deployment settings).act pid x.1 x.2 a
      ((s, q), event)
  | .call op =>
      (({ x.1 with jobs := ((service settings).step x.1.jobs op).1 }, x.2),
        some (.database op ((service settings).step x.1.jobs op).2))
  | .callQueue op =>
      (({ x.1 with redis := (JobQueue.queue.step x.1.redis op).1 }, x.2),
        some (.redis op .answered (some (JobQueue.queue.step x.1.redis op).2)))

/-- An answered call to one of the stores, by the runner or by someone
else. -/
inductive Exchange
  | database (mine : Bool) (op : Op) (outcome : Outcome)
  | queue (mine : Bool) (op : QueueOp) (reply : QueueReply)

/-- The call seen in a turn of the worker process. -/
def exchanges : Option Event → List Exchange
  | some (.database party op outcome) =>
      [.database (party = .runner) op outcome]
  | some (.queue party op reply) => [.queue (party = .runner) op reply]
  | _ => []

/-- The call seen in a move. -/
def Move.exchanges : Move × Option JobQueue.Event → List Exchange
  | (.act _, some (.database op outcome)) => [.database true op outcome]
  | (.act _, some (.redis op _ (some reply))) => [.queue true op reply]
  | (_, some (.database op outcome)) => [.database false op outcome]
  | (_, some (.redis op _ (some reply))) => [.queue false op reply]
  | _ => []

/-! ## Where the two runners are -/

/-- The deployment's runner with the settings of the worker process. -/
def Config.host (config : Config) (stop : Bool) (point : RunnerPoint) :
    JobQueue.Process :=
  .runner ⟨config.workerId, config.leaseSeconds, stop, point⟩

def HandlerTask.knowsLoss : HandlerTask → Bool
  | .running rejected => rejected
  | .finished .ownershipLost => true
  | _ => false

/-- The heartbeat or the handler has been told that the job is lost. -/
def Execution.knowsLoss (e : Execution) : Bool :=
  e.ownershipLost || e.handler.knowsLoss

/-- Where the deployment's runner is while the worker's is at a point. -/
inductive Matches (config : Config) (stop : Bool) :
    Point → JobQueue.Process → Prop
  | idle : Matches config stop .idle (config.host stop .polling)
  | peeking (left : ℕ) :
      Matches config stop (.peeking left) (config.host stop (.peeking left))
  | peeked (left : ℕ) (c : QueueCandidate) :
      Matches config stop (.peeked left c)
        (config.host stop (.peeked left c))
  | claiming (left : ℕ) (c : QueueCandidate) :
      Matches config stop (.claiming left c)
        (config.host stop (.claiming left c))
  | inspecting (left : ℕ) (c : QueueCandidate) :
      Matches config stop (.inspecting left c)
        (config.host stop (.inspecting left c))
  | inspected (left : ℕ) (c : QueueCandidate) (job : Option Job) :
      Matches config stop (.inspected left c job)
        (config.host stop (if job.any Job.isClaimable then .checking left
          else .discarding left c))
  | discarding (left : ℕ) (c : QueueCandidate) :
      Matches config stop (.discarding left c)
        (config.host stop (.discarding left c))
  | discarded (left : ℕ) :
      Matches config stop (.discarded left)
        (config.host stop (.checking left))
  | dropping (c : QueueCandidate) (row : Job) :
      Matches config stop (.dropping c row)
        (config.host stop (.dropping c row))
  | handling (e : Execution) (lost : Bool)
      (h : e.knowsLoss = true → lost = true) :
      Matches config stop (.handling e)
        (config.host stop (.running e.attempt lost))
  | cancelling (e : Execution) :
      Matches config stop (.cancelling e)
        (config.host stop (.running e.attempt true))
  | leaving (e : Execution) (ending : Ending) (lost : Bool)
      (h : ending.settlement = none → lost = true) :
      Matches config stop (.leaving e ending)
        (config.host stop (.running e.attempt lost))
  | closing (e : Execution) (ending : Ending) (lost : Bool)
      (h : ending.settlement = none → lost = true) :
      Matches config stop (.closing e ending)
        (config.host stop (.running e.attempt lost))
  | settling (a : Attempt) (s : Settlement) (lost : Bool) :
      Matches config stop (.settling a s)
        (config.host stop (.running a lost))
  | unhandled (row : Job) (a : Attempt) :
      Matches config stop
        (.settling a (.failure (missingHandlerError row.type)))
        (config.host stop (.unhandled row a))
  | settled (a : Attempt) :
      Matches config stop (.settled a) (config.host stop .polling)
  | stopped : Matches config stop .stopped .finished

/-! ## One turn -/

/-- The deployment's runner `q` can act so that it makes the call of a
command, with the same answer, and ends where the command leads. -/
def Command.Simulated (settings : Settings) (config : Config) (stop : Bool)
    (pid : ℕ) (s : Store) (q : JobQueue.Process) (c : Command Point) : Prop :=
  let (jobs, redis, point, event) :=
    perform settings .runner s.jobs s.redis c
  ∃ x, (hosted settings pid).Reaches Move.exchanges (s, q)
      (exchanges event) x ∧
    x.1.jobs = jobs ∧ x.1.redis = redis ∧ Matches config stop point x.2

section Turn

variable {settings : Settings} {config : Config} {stop : Bool} {pid : ℕ}
  {s : Store} {q : JobQueue.Process}

theorem run_host (point : RunnerPoint) (a : Action) :
    (hosted settings pid).run (s, config.host stop point) [.act a] =
      let instruction := Runner.next
        ⟨config.workerId, config.leaseSeconds, stop, point⟩ s.jobs a
      ((s.perform settings pid instruction).1,
        (s.perform settings pid instruction).2.1) :=
  rfl

theorem Command.Simulated.unseen {p : Point} (h : Matches config stop p q) :
    (Command.quiet p).Simulated settings config stop pid s q :=
  ⟨_, ⟨[], rfl, rfl⟩, rfl, rfl, h⟩

theorem simulated_nextCandidate (left : ℕ) :
    (Command.quiet (nextCandidate stop left)).Simulated settings config stop
      pid s (config.host stop (.checking left)) := by
  cases left with
  | zero => exact ⟨_, ⟨[.act .go], rfl, rfl⟩, rfl, rfl, .idle⟩
  | succ left =>
      cases stop with
      | true => exact ⟨_, ⟨[.act .go], rfl, rfl⟩, rfl, rfl, .idle⟩
      | false => exact ⟨_, ⟨[.act .go], rfl, rfl⟩, rfl, rfl, .peeking left⟩

theorem reaches_nextCycle : ∃ x, (hosted settings pid).Reaches Move.exchanges
      (s, config.host stop .polling) [] x ∧
    x.1.jobs = s.jobs ∧ x.1.redis = s.redis ∧
      Matches config stop (nextCycle stop) x.2 := by
  cases stop with
  | true => exact ⟨_, ⟨[.act .go], rfl, rfl⟩, rfl, rfl, .stopped⟩
  | false =>
      exact ⟨_, ⟨[.act .go, .act .go], rfl, rfl⟩, rfl, rfl, .peeking _⟩

theorem simulated_peek (left : ℕ) :
    (Command.queue (.peekMany 1) (afterPeek left)).Simulated settings config
      stop pid s (config.host stop (.peeking left)) := by
  refine ⟨_, ⟨[.act (.redis .answered)], rfl, rfl⟩, rfl, rfl, ?_⟩
  simp only [run_host, Runner.next, Store.perform, Store.send]
  generalize (queue.step s.redis (.peekMany 1)).2 = reply
  unfold afterPeek
  split
  · exact .peeked left _
  · next hempty =>
      split
      · next hsome => exact (hempty _ _ (Option.some.inj hsome)).elim
      · exact .idle
      · exact .idle

theorem simulated_claim (left : ℕ) (c : QueueCandidate) (now : Time)
    (token : UUID) :
    (Command.database (.claimJob now c.jobId config.workerId token
        (some config.leaseSeconds)) (afterClaim left c)).Simulated settings
      config stop pid s (config.host stop (.claiming left c)) := by
  refine ⟨_, ⟨[.act (.claim now token)], rfl, rfl⟩, rfl, rfl, ?_⟩
  simp only [run_host, Runner.next, Store.perform]
  generalize ((service settings).step s.jobs _).2 = outcome
  unfold afterClaim
  split
  · exact .dropping c _
  · exact .inspecting left c
  · next hrow hnone =>
      split
      · exact (hnone rfl).elim
      · exact (hrow _ rfl).elim
      · exact .idle

/-- The deployment's runner decides on the entry when it reads the job, the
worker's when it goes on. -/
theorem simulated_reread (left : ℕ) (c : QueueCandidate) :
    (Command.announce (.reread c (getJob s.jobs c.jobId))
        (.inspected left c (getJob s.jobs c.jobId))).Simulated settings config
      stop pid s (config.host stop (.inspecting left c)) := by
  have hread : (hosted settings pid).run
      (s, config.host stop (.inspecting left c)) [.act (.read 0)] =
      (s, config.host stop
        (if (getJob s.jobs c.jobId).any Job.isClaimable then .checking left
          else .discarding left c)) := by
    simp only [run_host, Runner.next]
    split <;> rfl
  refine ⟨_, ⟨[.act (.read 0)], hread, ?_⟩, rfl, rfl, .inspected left c _⟩
  simp only [hosted, runner_act, Runner.next, Config.host,
    Machine.trace_cons, Machine.trace_nil]
  split <;> rfl

theorem reaches_execute (row : Job) (a : Attempt) :
    ∃ q', (hosted settings pid).Reaches Move.exchanges
        (s, config.host stop (.executing row a)) [] (s, q') ∧
      Matches config stop (execute row a) q' := by
  by_cases hhandler : (getHandler row.type).isSome = true
  · refine ⟨config.host stop (.running a false),
      ⟨[.act .go], ?_, ?_⟩, ?_⟩
    · simp only [run_host, Runner.next, hhandler, Store.perform, if_true]
      rfl
    · simp [hosted, runner_act, Runner.next, Config.host,
        hhandler, Store.perform, Move.exchanges]
    · rw [execute, if_pos hhandler]
      exact .handling (.start a) false fun h => h
  · refine ⟨config.host stop (.unhandled row a), ⟨[.act .go], ?_, ?_⟩, ?_⟩
    · simp only [run_host, Runner.next, if_neg hhandler, Store.perform]
      rfl
    · simp [hosted, runner_act, Runner.next, Config.host,
        hhandler, Store.perform, Move.exchanges]
    · rw [execute, if_neg hhandler]
      exact .unhandled row a

theorem simulated_drop (c : QueueCandidate) (row : Job) :
    (Command.queue (.remove c) fun _ => afterDrop row).Simulated settings
      config stop pid s (config.host stop (.dropping c row)) := by
  cases hattempt : Attempt.of row with
  | error e =>
      refine ⟨_, ⟨[.act (.redis .answered)], rfl, rfl⟩, rfl, rfl, ?_⟩
      simp only [run_host, Runner.next, Store.perform, Store.send, afterDrop,
        hattempt]
      exact .idle
  | ok a =>
      have hdrop : (hosted settings pid).run
          (s, config.host stop (.dropping c row)) [.act (.redis .answered)] =
          ({ s with redis := (queue.step s.redis (.remove c)).1 },
            config.host stop (.executing row a)) := by
        simp only [run_host, Runner.next, Store.perform, Store.send, hattempt]
        rfl
      obtain ⟨q', hgo, hmatch⟩ := @reaches_execute settings config stop pid
        { s with redis := (queue.step s.redis (.remove c)).1 } row a
      refine ⟨_, Machine.Reaches.trans _
        ⟨[.act (.redis .answered)], hdrop, rfl⟩ hgo, rfl, rfl, ?_⟩
      simp only [afterDrop, hattempt]
      exact hmatch

/-! ### While a handler runs -/

theorem Execution.knowsLoss_iff {e : Execution} :
    e.knowsLoss = true ↔
      e.ownershipLost = true ∨ e.handler.knowsLoss = true :=
  Bool.or_eq_true_iff

/-- A beat marks the loss of the job only when it is told so. -/
theorem Execution.knowsLoss_beaten {e : Execution} {closing : Bool}
    {outcome : Outcome} (h : (e.beaten closing outcome).knowsLoss = true) :
    e.knowsLoss = true ∨ isOwnershipLost outcome = true := by
  unfold Execution.beaten at h
  split at h
  · next hlost => exact Or.inr hlost
  · exact Or.inl h

theorem Execution.attempt_beaten (e : Execution) (closing : Bool)
    (outcome : Outcome) : (e.beaten closing outcome).attempt = e.attempt := by
  unfold Execution.beaten
  split <;> rfl

theorem Execution.knowsLoss_reported {e : Execution} {outcome : Outcome}
    (h : ({ e with handler := e.handler.reported outcome } :
      Execution).knowsLoss = true) :
    e.knowsLoss = true ∨ isOwnershipLost outcome = true := by
  cases hhandler : e.handler with
  | running rejected =>
      simp only [Execution.knowsLoss, HandlerTask.reported, hhandler,
        HandlerTask.knowsLoss, Bool.or_eq_true] at h ⊢
      rcases h with hlost | hrejected | hlost
      · exact Or.inl (Or.inl hlost)
      · exact Or.inl (Or.inr hrejected)
      · exact Or.inr hlost
  | _ => exact Or.inl (by simpa [Execution.knowsLoss, HandlerTask.reported,
      hhandler] using h)

/-- What the deployment's runner makes of an answer while a handler runs. -/
def lostAfter (lost : Bool) : Outcome → Bool
  | .ok _ => lost
  | .error _ => true

theorem lostAfter_of_isOwnershipLost {lost : Bool} {outcome : Outcome}
    (h : isOwnershipLost outcome = true) : lostAfter lost outcome = true := by
  cases outcome with
  | ok reply => cases h
  | error e => rfl

theorem lostAfter_of_lost {lost : Bool} (outcome : Outcome)
    (h : lost = true) : lostAfter lost outcome = true := by
  cases outcome with
  | ok reply => exact h
  | error e => rfl

/-- A point at which the attempt is under execution, whatever becomes of the
handler and the heartbeat. -/
def Runs (config : Config) (stop : Bool) (e : Execution) (lost : Bool)
    (next : Execution → Point) : Prop :=
  ∀ e' lost', e'.attempt = e.attempt → (lost = true → lost' = true) →
    (e'.knowsLoss = true → e.knowsLoss = true ∨ lost' = true) →
    Matches config stop (next e') (config.host stop (.running e.attempt lost'))

theorem simulated_pulse {e : Execution} {lost : Bool}
    {next : Execution → Point} (hnext : Runs config stop e lost next)
    (closing : Bool) (turn : RunnerTurn) :
    (e.pulse config closing next turn).Simulated settings config stop pid s
      (config.host stop (.running e.attempt lost)) := by
  have hstay : (Command.quiet (next e)).Simulated settings config stop pid s
      (config.host stop (.running e.attempt lost)) :=
    .unseen (hnext e lost rfl id Or.inl)
  cases turn with
  | wake => exact .unseen (hnext _ lost rfl id Or.inl)
  | beat now =>
      simp only [Execution.pulse]
      split
      · refine ⟨_, ⟨[.act (.beat now)], rfl, rfl⟩, rfl, rfl, ?_⟩
        have hrun : ((hosted settings pid).run
            (s, config.host stop (.running e.attempt lost))
            [.act (.beat now)]).2 = config.host stop (.running e.attempt
              (lostAfter lost ((service settings).step s.jobs
                (.extendLease now e.attempt (some config.leaseSeconds))).2)) := by
          simp only [run_host, Runner.next, Store.perform]
          cases ((service settings).step s.jobs _).2 <;> rfl
        rw [hrun]
        refine hnext _ _ (e.attempt_beaten closing _)
          (lostAfter_of_lost _) fun h => ?_
        exact (Execution.knowsLoss_beaten h).imp id
          lostAfter_of_isOwnershipLost
      · exact hstay
  | _ => exact hstay

theorem simulated_report {e : Execution} {lost : Bool}
    {next : Execution → Point} (hnext : Runs config stop e lost next)
    (percentage : ℤ) :
    (e.work next (.report percentage)).Simulated settings config stop pid s
      (config.host stop (.running e.attempt lost)) := by
  simp only [Execution.work]
  split
  · refine ⟨_, ⟨[.act (.progress percentage)], rfl, rfl⟩, rfl, rfl, ?_⟩
    have hrun : ((hosted settings pid).run
        (s, config.host stop (.running e.attempt lost))
        [.act (.progress percentage)]).2 = config.host stop (.running e.attempt
          (lostAfter lost ((service settings).step s.jobs
            (.updateProgress e.attempt percentage)).2)) := by
      simp only [run_host, Runner.next, Store.perform]
      cases ((service settings).step s.jobs _).2 <;> rfl
    rw [hrun]
    refine hnext _ _ rfl (lostAfter_of_lost _) fun h => ?_
    exact (Execution.knowsLoss_reported h).imp id
      lostAfter_of_isOwnershipLost
  · exact .unseen (hnext e lost rfl id Or.inl)

theorem simulated_finish {e : Execution} {lost : Bool}
    {next : Execution → Point} (hnext : Runs config stop e lost next)
    (ending : Ending) :
    (e.work next (.finish ending)).Simulated settings config stop pid s
      (config.host stop (.running e.attempt lost)) := by
  rcases e.work_finish next ending with hstay | ⟨hfinish, hlost⟩
  · rw [hstay]
    exact .unseen (hnext e lost rfl id Or.inl)
  · rw [hfinish]
    refine .unseen (hnext _ lost rfl id fun h => Or.inl ?_)
    rcases Execution.knowsLoss_iff.mp h with hown | hhandler
    · exact Execution.knowsLoss_iff.mpr (Or.inl hown)
    · cases ending with
      | ownershipLost =>
          refine Execution.knowsLoss_iff.mpr (Or.inr ?_)
          rw [hlost rfl]
          rfl
      | _ => cases hhandler

theorem Execution.attempt_cancel (e : Execution) :
    e.cancel.attempt = e.attempt := by
  unfold Execution.cancel
  split <;> rfl

theorem matches_race {e : Execution} {lost : Bool}
    (h : e.knowsLoss = true → lost = true) :
    Matches config stop e.race
      (config.host stop (.running e.attempt lost)) := by
  unfold Execution.race
  split
  · next ending hhandler =>
      refine .leaving e ending lost fun hnone =>
        h (Execution.knowsLoss_iff.mpr (Or.inr ?_))
      cases ending with
      | ownershipLost => rw [hhandler]; rfl
      | _ => cases hnone
  · split
    · next hlost =>
        rw [h (Execution.knowsLoss_iff.mpr (Or.inl hlost))]
        exact .cancelling e
    · exact .handling e lost h

theorem matches_abandon (e : Execution) :
    Matches config stop e.abandon
      (config.host stop (.running e.attempt true)) := by
  unfold Execution.abandon
  split
  · exact .cancelling e
  · exact .leaving e _ true fun _ => rfl
  · exact .leaving e _ true fun _ => rfl

/-- An attempt with nothing to record is abandoned. -/
theorem simulated_close {e : Execution} {ending : Ending} {lost : Bool}
    (h : ending.settlement = none → lost = true) :
    (Command.quiet (e.close ending)).Simulated settings config stop pid s
      (config.host stop (.running e.attempt lost)) := by
  unfold Execution.close
  split
  · cases hsettlement : ending.settlement with
    | some settlement => exact .unseen (.settling e.attempt settlement lost)
    | none =>
        rw [h hsettlement]
        exact ⟨_, ⟨[.act .abandon], rfl, rfl⟩, rfl, rfl, .settled e.attempt⟩
  · exact .unseen (.closing e ending lost h)

/-- Whatever the settling write comes to, the runner is done with it. -/
theorem matches_afterSettling (a : Attempt) (outcome : Outcome) :
    Matches config stop (afterSettling a outcome)
      (config.host stop .polling) := by
  unfold afterSettling
  split
  · exact .settled a
  · split
    · exact .settled a
    · exact .idle

theorem simulated_settle (a : Attempt) (settlement : Settlement)
    (lost : Bool) (now : Time) :
    (Command.database ((settlement.write now).op a)
        (afterSettling a)).Simulated settings config stop pid s
      (config.host stop (.running a lost)) := by
  cases settlement with
  | success result =>
      exact ⟨_, ⟨[.act (.complete now result)], rfl, rfl⟩, rfl, rfl,
        matches_afterSettling a _⟩
  | failure error =>
      exact ⟨_, ⟨[.act (.fail now error)], rfl, rfl⟩, rfl, rfl,
        matches_afterSettling a _⟩

theorem simulated_unhandled (row : Job) (a : Attempt) (now : Time) :
    (Command.database (((Settlement.failure
        (missingHandlerError row.type)).write now).op a)
        (afterSettling a)).Simulated settings config stop pid s
      (config.host stop (.unhandled row a)) :=
  ⟨_, ⟨[.act (.fail now "")], rfl, rfl⟩, rfl, rfl,
    matches_afterSettling a _⟩

theorem Runs.handling {e : Execution} {lost : Bool}
    (h : e.knowsLoss = true → lost = true) :
    Runs config stop e lost .handling := by
  intro e' lost' hattempt hgrows hloss
  rw [← hattempt]
  exact .handling e' lost' fun hknows =>
    (hloss hknows).elim (fun hold => hgrows (h hold)) id

theorem Runs.cancelling (e : Execution) :
    Runs config stop e true .cancelling := by
  intro e' lost' hattempt hgrows _
  rw [← hattempt, hgrows rfl]
  exact .cancelling e'

theorem Runs.leaving {e : Execution} {ending : Ending} {lost : Bool}
    (h : ending.settlement = none → lost = true) :
    Runs config stop e lost (.leaving · ending) := by
  intro e' lost' hattempt hgrows _
  rw [← hattempt]
  exact .leaving e' ending lost' fun hnone => hgrows (h hnone)

theorem Runs.closing {e : Execution} {ending : Ending} {lost : Bool}
    (h : ending.settlement = none → lost = true) :
    Runs config stop e lost (.closing · ending) := by
  intro e' lost' hattempt hgrows _
  rw [← hattempt]
  exact .closing e' ending lost' fun hnone => hgrows (h hnone)

theorem simulated_handling {e : Execution} {lost : Bool}
    (h : e.knowsLoss = true → lost = true) (turn : RunnerTurn) :
    (Point.next config stop s.jobs (.handling e) turn).Simulated settings
      config stop pid s (config.host stop (.running e.attempt lost)) := by
  cases turn with
  | go => exact .unseen (matches_race h)
  | report percentage => exact simulated_report (.handling h) percentage
  | finish ending => exact simulated_finish (.handling h) ending
  | _ =>
      simp only [Point.next]
      exact simulated_pulse (.handling h) false _

theorem simulated_cancelling (e : Execution) (turn : RunnerTurn) :
    (Point.next config stop s.jobs (.cancelling e) turn).Simulated settings
      config stop pid s (config.host stop (.running e.attempt true)) := by
  cases turn with
  | go => exact .unseen (matches_abandon e)
  | report percentage => exact simulated_report (.cancelling e) percentage
  | finish ending => exact simulated_finish (.cancelling e) ending
  | cancelled =>
      exact .unseen (Runs.cancelling e e.cancel true e.attempt_cancel id
        fun _ => Or.inr rfl)
  | _ =>
      simp only [Point.next]
      exact simulated_pulse (.cancelling e) false _

theorem simulated_leaving {e : Execution} {ending : Ending} {lost : Bool}
    (h : ending.settlement = none → lost = true) (turn : RunnerTurn) :
    (Point.next config stop s.jobs (.leaving e ending) turn).Simulated
      settings config stop pid s
      (config.host stop (.running e.attempt lost)) := by
  cases turn with
  | go => exact .unseen (.closing e ending lost h)
  | _ =>
      simp only [Point.next]
      exact simulated_pulse (.leaving h) false _

theorem simulated_closing {e : Execution} {ending : Ending} {lost : Bool}
    (h : ending.settlement = none → lost = true) (turn : RunnerTurn) :
    (Point.next config stop s.jobs (.closing e ending) turn).Simulated
      settings config stop pid s
      (config.host stop (.running e.attempt lost)) := by
  cases turn with
  | go => exact simulated_close h
  | timeout => exact .unseen (Runs.closing h _ lost rfl id Or.inl)
  | _ =>
      simp only [Point.next]
      exact simulated_pulse (.closing h) true _

/-- Every turn of the runner is matched by the deployment's runner. -/
theorem Matches.simulated {p : Point} (h : Matches config stop p q)
    (settings : Settings) (pid : ℕ) (s : Store) (turn : RunnerTurn) :
    (p.next config stop s.jobs turn).Simulated settings config stop pid s
      q := by
  have hstay : (Command.quiet p).Simulated settings config stop pid s q :=
    .unseen h
  cases h with
  | idle =>
      cases turn with
      | go => exact reaches_nextCycle
      | _ => exact hstay
  | peeking left =>
      cases turn with
      | queue => exact simulated_peek left
      | _ => exact hstay
  | peeked left c =>
      cases turn with
      | go =>
          cases stop with
          | true => exact ⟨_, ⟨[.act .go], rfl, rfl⟩, rfl, rfl, .idle⟩
          | false =>
              exact ⟨_, ⟨[.act .go], rfl, rfl⟩, rfl, rfl, .claiming left c⟩
      | _ => exact hstay
  | claiming left c =>
      cases turn with
      | claim now token => exact simulated_claim left c now token
      | _ => exact hstay
  | inspecting left c =>
      cases turn with
      | read => exact simulated_reread left c
      | _ => exact hstay
  | inspected left c job =>
      cases turn with
      | go =>
          simp only [Point.next]
          split
          · exact simulated_nextCandidate left
          · exact .unseen (.discarding left c)
      | _ => exact hstay
  | discarding left c =>
      cases turn with
      | queue =>
          exact ⟨_, ⟨[.act (.redis .answered)], rfl, rfl⟩, rfl, rfl,
            .discarded left⟩
      | _ => exact hstay
  | discarded left =>
      cases turn with
      | go => exact simulated_nextCandidate left
      | _ => exact hstay
  | dropping c row =>
      cases turn with
      | queue => exact simulated_drop c row
      | _ => exact hstay
  | handling e lost h => exact simulated_handling h turn
  | cancelling e => exact simulated_cancelling e turn
  | leaving e ending lost h => exact simulated_leaving h turn
  | closing e ending lost h => exact simulated_closing h turn
  | settling a settlement lost =>
      cases turn with
      | write now => exact simulated_settle a settlement lost now
      | _ => exact hstay
  | unhandled row a =>
      cases turn with
      | write now => exact simulated_unhandled row a now
      | _ => exact hstay
  | settled a =>
      cases turn with
      | go => exact reaches_nextCycle
      | _ => exact hstay
  | stopped => cases turn <;> exact hstay

end Turn

/-! ## Runs -/

/-- The stores are the same, and the two runners are at matching points. -/
structure Refines (config : Config) (s : System)
    (x : Store × JobQueue.Process) : Prop where
  jobs : x.1.jobs = s.jobs
  redis : x.1.redis = s.redis
  runner : Matches config s.stop s.runner x.2

/-- The stop event reaches the deployment's runner as an action of its own. -/
theorem Matches.stop {config : Config} {stop : Bool} {p : Point}
    {q : JobQueue.Process} (h : Matches config stop p q)
    (settings : Settings) (pid : ℕ) (s : Store) :
    ∃ q', (hosted settings pid).Reaches Move.exchanges (s, q) [] (s, q') ∧
      Matches config true p q' := by
  cases h with
  | stopped => exact ⟨_, ⟨[], rfl, rfl⟩, .stopped⟩
  | inspected left c job =>
      exact ⟨_, ⟨[.act .stop], rfl, rfl⟩, .inspected left c job⟩
  | handling e lost h =>
      exact ⟨_, ⟨[.act .stop], rfl, rfl⟩, .handling e lost h⟩
  | leaving e ending lost h =>
      exact ⟨_, ⟨[.act .stop], rfl, rfl⟩, .leaving e ending lost h⟩
  | closing e ending lost h =>
      exact ⟨_, ⟨[.act .stop], rfl, rfl⟩, .closing e ending lost h⟩
  | _ => exact ⟨_, ⟨[.act .stop], rfl, rfl⟩, by constructor⟩

/-- What the other loops and the other processes do are calls of others. -/
theorem reaches_outside {π : Type} (settings : Settings) (pid : ℕ)
    (party : Party) (hparty : party ≠ .runner) (c : Command π)
    (s : Store) (q : JobQueue.Process) :
    ∃ s', (hosted settings pid).Reaches Move.exchanges (s, q)
        (exchanges (perform settings party s.jobs s.redis c).2.2.2) (s', q) ∧
      s'.jobs = (perform settings party s.jobs s.redis c).1 ∧
      s'.redis = (perform settings party s.jobs s.redis c).2.1 := by
  have hmine : decide (party = .runner) = false := decide_eq_false hparty
  cases c with
  | quiet next => exact ⟨s, ⟨[], rfl, rfl⟩, rfl, rfl⟩
  | announce note next => exact ⟨s, ⟨[], rfl, rfl⟩, rfl, rfl⟩
  | database op next =>
      refine ⟨_, ⟨[.call op], rfl, ?_⟩, rfl, rfl⟩
      simp [hosted, perform, exchanges, Move.exchanges, hmine]
  | queue op next =>
      refine ⟨_, ⟨[.callQueue op], rfl, ?_⟩, rfl, rfl⟩
      simp [hosted, perform, exchanges, Move.exchanges, hmine]

theorem step_refines (settings : Settings) {config : Config} (pid : ℕ)
    {s : System} {x : Store × JobQueue.Process} (h : Refines config s x)
    (turn : Turn) :
    ∃ x', (hosted settings pid).Reaches Move.exchanges x
        (exchanges ((process settings config).step s turn).2) x' ∧
      Refines config ((process settings config).step s turn).1 x' := by
  obtain ⟨store, q⟩ := x
  obtain ⟨hjobs, hredis, hrunner⟩ := h
  obtain ⟨jobs, redis, stop, runner, scheduler, recovery⟩ := s
  subst hjobs hredis
  cases turn with
  | stop =>
      obtain ⟨q', hq', hmatch⟩ := hrunner.stop settings pid store
      exact ⟨_, hq', rfl, rfl, hmatch⟩
  | other op =>
      obtain ⟨s', hs', hjobs, hredis⟩ := reaches_outside settings pid
        .other (by decide) (.database op fun _ => ()) store q
      exact ⟨_, hs', hjobs, hredis, hrunner⟩
  | otherQueue op =>
      obtain ⟨s', hs', hjobs, hredis⟩ := reaches_outside settings pid
        .other (by decide) (.queue op fun _ => ()) store q
      exact ⟨_, hs', hjobs, hredis, hrunner⟩
  | runner turn =>
      obtain ⟨x', hx', hjobs, hredis, hmatch⟩ :=
        hrunner.simulated settings pid store turn
      exact ⟨x', hx', hjobs, hredis, hmatch⟩
  | scheduler turn =>
      obtain ⟨s', hs', hjobs, hredis⟩ := reaches_outside settings pid
        .scheduler (by decide) (scheduler.schedule config stop turn) store q
      exact ⟨_, hs', hjobs, hredis, hrunner⟩
  | recovery turn =>
      obtain ⟨s', hs', hjobs, hredis⟩ := reaches_outside settings pid
        .recovery (by decide) (recovery.recover config stop turn) store q
      exact ⟨_, hs', hjobs, hredis, hrunner⟩

/-- In every run of a worker process, whatever the other processes do, the
runner does what a runner of the deployment can do: the same calls in the same
order, with the same answers, over the same stores. -/
theorem runner_refines_deployment (settings : Settings) (config : Config)
    (pid : ℕ) (turns : List Turn) :
    ∃ x, (hosted settings pid).Reaches Move.exchanges
        (Store.empty,
          .ofCall (.runForever config.workerId config.leaseSeconds))
        ((logOf settings config turns).flatMap fun y => exchanges y.2) x ∧
      Refines config (systemAfter settings config turns) x :=
  (process settings config).simulation (R := Refines config)
    (hosted settings pid) (fun y => exchanges y.2) Move.exchanges
    (fun _ _ turn h => step_refines settings pid h turn)
    ⟨rfl, rfl, .idle⟩ turns

end JobQueue.Worker
