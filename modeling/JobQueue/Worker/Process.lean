import JobQueue.Deployment.Processes
import JobQueue.Lifecycle.Fencing

/-!
# The worker process

The three loops of one worker process, step by step.  A loop stops at every
`await`: the call it waits for takes effect at some moment, and the loop goes
on at some later moment, so the stop event can be set in between.  While a
handler runs, its progress reports, the beats of its heartbeat and the runner
that waits for both are interleaved as well.  Everything that other processes
do to the stores is an operation of `job_service` or a command to Redis.

The calls of this process are answered; what a call raises on its own account
is passed on as the source does.
-/

namespace JobQueue.Worker

open Support

/-- The settings of a worker process. -/
structure Config where
  workerId : String
  leaseSeconds : Duration
  schedulerBatchSize : ℕ
  recoveryBatchSize : ℕ

/-! ## Attempts under execution -/

/-- How a handler, or `_run_handler`, is left: with a result, or with an
exception.  A crash is any exception that is neither a `JobExecutionError` nor
an `OwnershipLostError`, known by its `repr`. -/
inductive Ending
  | returned (result : Jsonb)
  | executionError (message : String)
  | crashed (repr : String)
  | ownershipLost

/-- The task that runs the handler.  A running handler may have seen one of
its progress reports rejected. -/
inductive HandlerTask
  | running (rejected : Bool)
  | finished (ending : Ending)
  | cancelled

/-- The task of the heartbeat: waiting out its interval, with a beat under
way, or done. -/
inductive HeartbeatTask
  | waiting
  | beating
  | done
deriving DecidableEq

/-- An attempt with its handler and its heartbeat. -/
structure Execution where
  attempt : Attempt
  handler : HandlerTask
  heartbeat : HeartbeatTask
  ownershipLost : Bool

def Execution.start (a : Attempt) : Execution where
  attempt := a
  handler := .running false
  heartbeat := .waiting
  ownershipLost := false

/-- What `_execute` records about an attempt. -/
inductive Settlement
  | success (result : Jsonb)
  | failure (error : String)

/-- The write of `_settle_success` or `_settle_failure`. -/
def Settlement.write (now : Time) : Settlement → FencedWrite
  | .success result => .completeJob now result
  | .failure error => .failAttempt now error

/-- What is recorded when `_run_handler` was left this way; an attempt that
lost its job is abandoned without a write. -/
def Ending.settlement : Ending → Option Settlement
  | .returned result => some (.success result)
  | .executionError message => some (.failure message)
  | .crashed repr => some (.failure ("unexpected error: " ++ repr))
  | .ownershipLost => none

/-- How `_run_handler` is left once the handler it cancelled has ended: a
result it still returned is dropped. -/
def Ending.ofAbandoned : Ending → Ending
  | .returned _ => .ownershipLost
  | ending => ending

/-! ## Where the loops are -/

/-- Where the runner is.  Numbers count the candidates the current cycle may
still look at. -/
inductive Point
  | idle
  | peeking (left : ℕ)
  | peeked (left : ℕ) (candidate : QueueCandidate)
  | claiming (left : ℕ) (candidate : QueueCandidate)
  | inspecting (left : ℕ) (candidate : QueueCandidate)
  | inspected (left : ℕ) (candidate : QueueCandidate) (job : Option Job)
  | discarding (left : ℕ) (candidate : QueueCandidate)
  | discarded (left : ℕ)
  | dropping (candidate : QueueCandidate) (row : Job)
  | handling (e : Execution)
  | cancelling (e : Execution)
  | leaving (e : Execution) (ending : Ending)
  | closing (e : Execution) (ending : Ending)
  | settling (a : Attempt) (s : Settlement)
  | settled (a : Attempt)
  | stopped

/-- Where the scheduler or the recovery loop is; only the scheduler
publishes. -/
inductive LoopPoint
  | waiting
  | sweeping
  | publishing (row : Job) (rest : List Job)
  | stopped

/-! ## Turns and events -/

/-- What lets the runner, its handler or its heartbeat go on, with the values
that are read from clocks and random sources and the choices of the
handler. -/
inductive RunnerTurn
  | go
  | queue
  | claim (now : Time) (token : UUID)
  | read
  | report (percentage : ℤ)
  | finish (ending : Ending)
  | cancelled
  | wake
  | beat (now : Time)
  | timeout
  | write (now : Time)

/-- What lets one of the other loops go on. -/
inductive LoopTurn
  | go
  | sweep (now : Time) (skipped : List UUID)
  | queue

/-- Who takes a turn. -/
inductive Party
  | runner
  | scheduler
  | recovery
  | other
deriving DecidableEq

/-- What a loop does without changing a store: the runner reads the job of a
candidate again, a sweep begins, or `run_once` returns that it executed an
attempt. -/
inductive Note
  | reread (candidate : QueueCandidate) (job : Option Job)
  | sweepStarted (party : Party)
  | returned (a : Attempt)

/-- What an observer sees of a turn. -/
inductive Event
  | database (party : Party) (op : Op) (outcome : Outcome)
  | queue (party : Party) (op : QueueOp) (reply : QueueReply)
  | note (note : Note)

/-- What a turn does to the stores, and where the loop goes on. -/
inductive Command (π : Type)
  | quiet (next : π)
  | announce (note : Note) (next : π)
  | database (op : Op) (next : Outcome → π)
  | queue (op : QueueOp) (next : QueueReply → π)

/-! ## The runner -/

/-- The head of the loop in `run_once`, with so many candidates to go; a cycle
without work makes `run_forever` wait. -/
def nextCandidate (stop : Bool) : ℕ → Point
  | 0 => .idle
  | left + 1 => if stop then .idle else .peeking left

/-- The head of the loop in `run_forever`. -/
def nextCycle (stop : Bool) : Point :=
  if stop then .stopped else nextCandidate stop maxCandidatesPerCycle

/-- `_execute` up to its first `await`. -/
def execute (row : Job) (a : Attempt) : Point :=
  if (getHandler row.type).isSome then .handling (.start a)
  else .settling a (.failure (missingHandlerError row.type))

/-- The error says that the attempt has been taken away. -/
def isOwnershipLost : Outcome → Bool
  | .error (.ownershipLost _ _ _) => true
  | _ => false

/-- A report that was rejected raises in the handler. -/
def HandlerTask.reported (outcome : Outcome) : HandlerTask → HandlerTask
  | .running rejected => .running (rejected || isOwnershipLost outcome)
  | task => task

/-- `_run` of the heartbeat at its interval's end. -/
def HeartbeatTask.wake (stop : Bool) : HeartbeatTask → HeartbeatTask
  | .waiting => if stop then .done else .beating
  | task => task

/-- `_run` of the heartbeat after a beat. -/
def Execution.beaten (e : Execution) (stop : Bool) (outcome : Outcome) :
    Execution :=
  if isOwnershipLost outcome then
    { e with heartbeat := .done, ownershipLost := true }
  else { e with heartbeat := if stop then .done else .waiting }

/-- A turn of the heartbeat; `stop` is the event that `__aexit__` sets. -/
def Execution.pulse (config : Config) (stop : Bool) (e : Execution)
    (next : Execution → Point) : RunnerTurn → Command Point
  | .wake => .quiet (next { e with heartbeat := e.heartbeat.wake stop })
  | .beat now =>
      if e.heartbeat = .beating then
        .database ((FencedWrite.extendLease now
          (some config.leaseSeconds)).op e.attempt) fun outcome =>
            next (e.beaten stop outcome)
      else .quiet (next e)
  | _ => .quiet (next e)

/-- A turn of a running handler.  It raises `OwnershipLostError` only by
letting the error of a rejected report through. -/
def Execution.work (e : Execution) (next : Execution → Point) :
    RunnerTurn → Command Point
  | .report percentage =>
      match e.handler with
      | .running _ =>
          .database ((FencedWrite.updateProgress percentage).op e.attempt)
            fun outcome => next { e with handler := e.handler.reported outcome }
      | _ => .quiet (next e)
  | .finish ending =>
      match e.handler, ending with
      | .running false, .ownershipLost => .quiet (next e)
      | .running _, ending =>
          .quiet (next { e with handler := .finished ending })
      | _, _ => .quiet (next e)
  | _ => .quiet (next e)

/-- `_run_handler` after `asyncio.wait`: the handler's own end comes first. -/
def Execution.race (e : Execution) : Point :=
  match e.handler with
  | .finished ending => .leaving e ending
  | _ => if e.ownershipLost then .cancelling e else .handling e

/-- `_run_handler` after the handler it cancelled. -/
def Execution.abandon (e : Execution) : Point :=
  match e.handler with
  | .running _ => .cancelling e
  | .finished ending => .leaving e ending.ofAbandoned
  | .cancelled => .leaving e .ownershipLost

/-- The handler gives in to its cancellation. -/
def Execution.cancel (e : Execution) : Execution :=
  match e.handler with
  | .running _ => { e with handler := .cancelled }
  | _ => e

/-- `_execute` once the heartbeat has ended. -/
def Execution.close (e : Execution) (ending : Ending) : Point :=
  if e.heartbeat = .done then
    match ending.settlement with
    | some s => .settling e.attempt s
    | none => .settled e.attempt
  else .closing e ending

/-- The settling write: a rejected one is logged and leaves `_execute` like
one that went through; any other exception leaves `run_once`. -/
def afterSettling (a : Attempt) (outcome : Outcome) : Point :=
  match outcome with
  | .ok _ => .settled a
  | .error _ => if isOwnershipLost outcome then .settled a else .idle

def afterPeek (left : ℕ) : QueueReply → Point
  | .candidates (.ok (candidate :: _)) => .peeked left candidate
  | _ => .idle

def afterClaim (left : ℕ) (candidate : QueueCandidate) : Outcome → Point
  | .ok (.claimed (some row)) => .dropping candidate row
  | .ok (.claimed none) => .inspecting left candidate
  | _ => .idle

def afterDrop (row : Job) : Point :=
  match Attempt.of row with
  | .ok a => execute row a
  | .error _ => .idle

/-- The loops `run_forever` and `run_once`, and `_execute`.  A turn that does
not fit does nothing. -/
def Point.next (config : Config) (stop : Bool) (jobs : Jobs) :
    Point → RunnerTurn → Command Point
  | .idle, .go => .quiet (nextCycle stop)
  | .peeking left, .queue => .queue (.peekMany 1) (afterPeek left)
  | .peeked left candidate, .go =>
      .quiet (if stop then .idle else .claiming left candidate)
  | .claiming left candidate, .claim now token =>
      .database (.claimJob now candidate.jobId config.workerId token
        (some config.leaseSeconds)) (afterClaim left candidate)
  | .inspecting left candidate, .read =>
      .announce (.reread candidate (getJob jobs candidate.jobId))
        (.inspected left candidate (getJob jobs candidate.jobId))
  | .inspected left candidate job, .go =>
      .quiet (if job.any Job.isClaimable then nextCandidate stop left
        else .discarding left candidate)
  | .discarding left candidate, .queue =>
      .queue (.remove candidate) fun _ => .discarded left
  | .discarded left, .go => .quiet (nextCandidate stop left)
  | .dropping candidate row, .queue =>
      .queue (.remove candidate) fun _ => afterDrop row
  | .handling e, .go => .quiet e.race
  | .handling e, .report percentage => e.work .handling (.report percentage)
  | .handling e, .finish ending => e.work .handling (.finish ending)
  | .handling e, turn => e.pulse config false .handling turn
  | .cancelling e, .go => .quiet e.abandon
  | .cancelling e, .report percentage =>
      e.work .cancelling (.report percentage)
  | .cancelling e, .finish ending => e.work .cancelling (.finish ending)
  | .cancelling e, .cancelled => .quiet (.cancelling e.cancel)
  | .cancelling e, turn => e.pulse config false .cancelling turn
  | .leaving e ending, .go => .quiet (.closing e ending)
  | .leaving e ending, turn => e.pulse config false (.leaving · ending) turn
  | .closing e ending, .go => .quiet (e.close ending)
  | .closing e ending, .timeout =>
      .quiet (.closing { e with heartbeat := .done } ending)
  | .closing e ending, turn => e.pulse config true (.closing · ending) turn
  | .settling a s, .write now =>
      .database ((s.write now).op a) (afterSettling a)
  | .settled a, .go => .announce (.returned a) (nextCycle stop)
  | point, _ => .quiet point

/-! ## The other loops -/

/-- The head of `run_until_stopped`. -/
def beginSweep (party : Party) (stop : Bool) : Command LoopPoint :=
  if stop then .quiet .stopped
  else .announce (.sweepStarted party) .sweeping

/-- Publish the activated rows that are left, or wait for the next sweep. -/
def LoopPoint.publish : List Job → LoopPoint
  | [] => .waiting
  | row :: rest => .publishing row rest

/-- The scheduler loop: activate due jobs, then enqueue each of them. -/
def LoopPoint.schedule (config : Config) (stop : Bool) :
    LoopPoint → LoopTurn → Command LoopPoint
  | .waiting, .go => beginSweep .scheduler stop
  | .sweeping, .sweep now skipped =>
      .database (.activateDueScheduledJobs now config.schedulerBatchSize
        skipped) fun
        | .ok (.activated rows) => .publish rows
        | _ => .waiting
  | .publishing row rest, .queue =>
      .queue (.enqueue row.id row.priority) fun _ => .publish rest
  | point, _ => .quiet point

/-- The recovery loop: take one batch of expired leases away. -/
def LoopPoint.recover (config : Config) (stop : Bool) :
    LoopPoint → LoopTurn → Command LoopPoint
  | .waiting, .go => beginSweep .recovery stop
  | .sweeping, .sweep now skipped =>
      .database (.recoverExpiredLeases now config.recoveryBatchSize skipped)
        fun _ => .waiting
  | point, _ => .quiet point

/-! ## The process among others -/

/-- The stores, the stop event, and the three loops of the process. -/
structure System where
  jobs : Jobs
  redis : Redis
  stop : Bool
  runner : Point
  scheduler : LoopPoint
  recovery : LoopPoint

/-- A process that has just been started, over empty stores. -/
def start : System where
  jobs := KeyedTable.empty
  redis := Redis.empty
  stop := false
  runner := .idle
  scheduler := .waiting
  recovery := .waiting

/-- One turn: the signal handler sets the stop event, another process acts on
a store, or one of the loops goes on. -/
inductive Turn
  | stop
  | other (op : Op)
  | otherQueue (op : QueueOp)
  | runner (turn : RunnerTurn)
  | scheduler (turn : LoopTurn)
  | recovery (turn : LoopTurn)

def perform {π : Type} (settings : Settings) (party : Party) (jobs : Jobs)
    (redis : Redis) : Command π → Jobs × Redis × π × Option Event
  | .quiet next => (jobs, redis, next, none)
  | .announce note next => (jobs, redis, next, some (.note note))
  | .database op next =>
      let (jobs', outcome) := (service settings).step jobs op
      (jobs', redis, next outcome, some (.database party op outcome))
  | .queue op next =>
      let (redis', reply) := JobQueue.queue.step redis op
      (jobs, redis', next reply, some (.queue party op reply))

/-- Another process, of which only its calls are seen. -/
def System.outside (settings : Settings) (s : System)
    (command : Command Unit) : System × Option Event :=
  let (jobs, redis, _, event) := perform settings .other s.jobs s.redis command
  ({ s with jobs := jobs, redis := redis }, event)

/-- The worker process among other processes. -/
def process (settings : Settings) (config : Config) :
    Machine System Turn (Option Event) where
  step s
  | .stop => ({ s with stop := true }, none)
  | .other op => s.outside settings (.database op fun _ => ())
  | .otherQueue op => s.outside settings (.queue op fun _ => ())
  | .runner turn =>
      let (jobs, redis, runner, event) := perform settings .runner s.jobs
        s.redis (s.runner.next config s.stop s.jobs turn)
      ({ s with jobs := jobs, redis := redis, runner := runner }, event)
  | .scheduler turn =>
      let (jobs, redis, scheduler, event) := perform settings .scheduler
        s.jobs s.redis (s.scheduler.schedule config s.stop turn)
      ({ s with jobs := jobs, redis := redis, scheduler := scheduler }, event)
  | .recovery turn =>
      let (jobs, redis, recovery, event) := perform settings .recovery
        s.jobs s.redis (s.recovery.recover config s.stop turn)
      ({ s with jobs := jobs, redis := redis, recovery := recovery }, event)

abbrev Log := List (Turn × Option Event)

end JobQueue.Worker
