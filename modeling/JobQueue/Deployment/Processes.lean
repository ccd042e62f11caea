import JobQueue.Lifecycle.Pending
import JobQueue.ReadyQueue.Representation
import JobQueue.Support.Concurrent

/-!
# The processes of a deployment

API calls, scheduler cycles, recovery cycles and runners as processes over one
PostgreSQL table and one Redis.  A process stops at every database statement
and at every Redis call, so any interleaving is a list of actions.  A Redis
call may raise, with or without having taken effect, and a process may crash
between any two actions.
-/

namespace JobQueue

open Support

/-! ## Shared state -/

/-- What all processes share: the committed table, the row locks of open
transactions, and Redis. -/
structure Store where
  jobs : Jobs
  locks : List (ℕ × UUID)
  redis : Redis

def Store.empty : Store where
  jobs := KeyedTable.empty
  locks := []
  redis := Redis.empty

/-- How a Redis call ends for its caller: answered, or raising before or after
it took effect. -/
inductive Fault
  | answered
  | lostRequest
  | lostReply
deriving DecidableEq

/-- Send a command to Redis; a caller whose call raises gets no reply. -/
def Store.send (s : Store) (op : QueueOp) :
    Fault → Store × Option QueueReply
  | .answered =>
      ({ s with redis := (queue.step s.redis op).1 },
        some (queue.step s.redis op).2)
  | .lostRequest => (s, none)
  | .lostReply => ({ s with redis := (queue.step s.redis op).1 }, none)

def Store.unlock (s : Store) (pid : ℕ) : Store :=
  { s with locks := s.locks.filter fun lock => lock.1 ≠ pid }

def Store.lockedByOthers (s : Store) (pid : ℕ) : List UUID :=
  (s.locks.filter fun lock => lock.1 ≠ pid).map Prod.snd

/-! ## Local states -/

/-- Where a runner is.  Numbers count the candidates the current cycle may
still look at. -/
inductive RunnerPoint
  | polling
  | checking (left : ℕ)
  | peeking (left : ℕ)
  | peeked (left : ℕ) (candidate : QueueCandidate)
  | claiming (left : ℕ) (candidate : QueueCandidate)
  | inspecting (left : ℕ) (candidate : QueueCandidate)
  | discarding (left : ℕ) (candidate : QueueCandidate)
  | dropping (candidate : QueueCandidate) (row : Job)
  | executing (row : Job) (attempt : Attempt)
  | unhandled (row : Job) (attempt : Attempt)
  | running (attempt : Attempt) (lost : Bool)

/-- A runner, with the settings of its worker and its view of the stop
event. -/
structure Runner where
  workerId : String
  leaseSeconds : Duration
  stop : Bool
  point : RunnerPoint

/-- The local state of a process: which call it serves, and where it is. -/
inductive Process
  | idle
  | finished
  | crashed
  | lookingUp (request : JobCreateRequest) (key : Option String)
  | inserting (request : JobCreateRequest) (key : Option String)
  | publishing (row : Job) (rest : List Job)
  | cancelling (jobId : UUID)
  | cleaning (jobId : UUID)
  | erasing (candidate : QueueCandidate)
  | retrying (jobId : UUID)
  | scheduling (limit : ℕ)
  | locked (limit : ℕ) (now : Time) (due : List UUID)
  | recovering (limit : ℕ)
  | runner (r : Runner)

/-- The calls a process can serve; a runner stands for its whole loop. -/
inductive Call
  | submitJob (request : JobCreateRequest) (key : Option String)
  | cancelJob (jobId : UUID)
  | retryJob (jobId : UUID)
  | schedulerCycle (limit : ℕ)
  | recoveryCycle (limit : ℕ)
  | runForever (workerId : String) (leaseSeconds : Duration)

/-- Continue with the enqueues that are left, or be done. -/
def Process.publish : List Job → Process
  | [] => .finished
  | row :: rest => .publishing row rest

/-! ## Actions -/

/-- What lets a process go on, with the values it reads from clocks, from the
random source, from Redis' behaviour and from its handler. -/
inductive Action
  | start (call : Call)
  | crash
  | stop
  | go
  | read (now : Time)
  | insert (clock : SubmitClock) (id : UUID)
  | write (now : Time) (skipped : List UUID)
  | claim (now : Time) (token : UUID)
  | redis (fault : Fault)
  | beat (now : Time)
  | progress (progress : ℤ)
  | complete (now : Time) (result : Jsonb)
  | fail (now : Time) (error : String)
  | abandon

/-- What an action does to the shared state, and how the process goes on. -/
inductive Instruction
  | quiet (next : Process)
  | startHandler (attempt : Attempt) (next : Process)
  | missHandler (attempt : Attempt) (next : Process)
  | unlock (next : Process)
  | lock (rows : List UUID) (next : Process)
  | database (op : Op) (next : Outcome → Process)
  | redis (op : QueueOp) (fault : Fault) (next : Option QueueReply → Process)

/-- Candidates one cycle of a runner looks at. -/
def maxCandidatesPerCycle : ℕ := 10

/-- Look up a handler by the job's stored type string. -/
def getHandler (jobType : String) : Option JobType :=
  [JobType.email, .webhook, .report, .batch].find? fun t => t.value = jobType

def missingHandlerError (jobType : String) : String :=
  "no handler registered for job type '" ++ jobType ++ "'"

def Process.ofCall : Call → Process
  | .submitJob request key =>
      if truthyKey key then .lookingUp request key else .inserting request key
  | .cancelJob jobId => .cancelling jobId
  | .retryJob jobId => .retrying jobId
  | .schedulerCycle limit => .scheduling limit
  | .recoveryCycle limit => .recovering limit
  | .runForever workerId leaseSeconds =>
      .runner ⟨workerId, leaseSeconds, false, .polling⟩

def Runner.at (r : Runner) (point : RunnerPoint) : Process :=
  .runner { r with point := point }

/-- An exception leaves `run_once`; `run_forever` logs it and polls again. -/
def Runner.raise (r : Runner) : Process := r.at .polling

/-- The loops `run_forever` and `run_once`, and `_execute`. -/
def Runner.next (r : Runner) (jobs : Jobs) : Action → Instruction
  | .stop => .quiet (.runner { r with stop := true })
  | .crash => .unlock .crashed
  | action =>
    match r.point, action with
    | .polling, .go =>
        if r.stop then .quiet .finished
        else .quiet (r.at (.checking maxCandidatesPerCycle))
    | .checking 0, .go => .quiet (r.at .polling)
    | .checking (left + 1), .go =>
        if r.stop then .quiet (r.at .polling)
        else .quiet (r.at (.peeking left))
    | .peeking left, .redis fault =>
        .redis (.peekMany 1) fault fun
          | some (.candidates (.ok (candidate :: _))) =>
              r.at (.peeked left candidate)
          | some (.candidates (.ok [])) => r.at .polling
          | _ => r.raise
    | .peeked left candidate, .go =>
        if r.stop then .quiet (r.at .polling)
        else .quiet (r.at (.claiming left candidate))
    | .claiming left candidate, .claim now token =>
        .database (.claimJob now candidate.jobId r.workerId token
          (some r.leaseSeconds)) fun
          | .ok (.claimed none) => r.at (.inspecting left candidate)
          | .ok (.claimed (some row)) => r.at (.dropping candidate row)
          | _ => r.raise
    | .inspecting left candidate, .read _ =>
        if (getJob jobs candidate.jobId).any Job.isClaimable then
          .quiet (r.at (.checking left))
        else .quiet (r.at (.discarding left candidate))
    | .discarding left candidate, .redis fault =>
        .redis (.remove candidate) fault fun
          | some _ => r.at (.checking left)
          | none => r.raise
    | .dropping candidate row, .redis fault =>
        .redis (.remove candidate) fault fun
          | some _ =>
              match Attempt.of row with
              | .ok attempt => r.at (.executing row attempt)
              | .error _ => r.raise
          | none => r.raise
    | .executing row attempt, .go =>
        if (getHandler row.type).isSome then
          .startHandler attempt (r.at (.running attempt false))
        else .missHandler attempt (r.at (.unhandled row attempt))
    | .unhandled row attempt, .fail now _ =>
        .database (.failAttempt now attempt (missingHandlerError row.type))
          fun _ => r.at .polling
    | .running attempt lost, .beat now =>
        .database (.extendLease now attempt (some r.leaseSeconds)) fun
          | .error _ => r.at (.running attempt true)
          | .ok _ => r.at (.running attempt lost)
    | .running attempt lost, .progress progress =>
        .database (.updateProgress attempt progress) fun
          | .error _ => r.at (.running attempt true)
          | .ok _ => r.at (.running attempt lost)
    | .running attempt _, .complete now result =>
        .database (.completeJob now attempt result) fun _ => r.at .polling
    | .running attempt _, .fail now error =>
        .database (.failAttempt now attempt error) fun _ => r.at .polling
    | .running _ true, .abandon => .quiet (r.at .polling)
    | _, _ => .quiet (.runner r)

/-- What a process does next; an action that does not fit does nothing. -/
def Process.next (pid : ℕ) (s : Store) : Process → Action → Instruction
  | .idle, .start call => .quiet (.ofCall call)
  | .lookingUp request key, .read now =>
      match findActiveByKey s.jobs (key.getD "") now with
      | some _ => .quiet .finished
      | none => .quiet (.inserting request key)
  | .inserting request key, .insert clock id =>
      .database (.insertJob clock id request key) fun outcome =>
        .publish (publications (.insertJob clock id request key, outcome))
  | .publishing row rest, .redis fault =>
      .redis (.enqueue row.id row.priority) fault fun _ => .publish rest
  | .cancelling jobId, .write _ _ =>
      .database (.cancelJob jobId) fun
        | .ok (.cancelled c) => if c.changed then .cleaning jobId else .finished
        | _ => .finished
  | .cleaning jobId, .redis fault =>
      .redis (.currentMember jobId) fault fun
        | some (.member (some m)) =>
            match QueueCandidate.fromMember m with
            | .ok candidate => .erasing candidate
            | .error _ => .finished
        | _ => .finished
  | .erasing candidate, .redis fault =>
      .redis (.remove candidate) fault fun _ => .finished
  | .retrying jobId, .write _ _ =>
      .database (.retryJob jobId) fun outcome =>
        .publish (publications (.retryJob jobId, outcome))
  | .scheduling limit, .read now =>
      .lock (selectDue s.jobs now limit (s.lockedByOthers pid))
        (.locked limit now
          (selectDue s.jobs now limit (s.lockedByOthers pid)))
  | .locked _ now due, .write _ _ =>
      .database (.activateSelected now due) fun outcome =>
        .publish (publications (.activateSelected now due, outcome))
  | .recovering limit, .write now skipped =>
      .database (.recoverExpiredLeases now limit skipped) fun _ => .finished
  | .runner r, action => r.next s.jobs action
  | .idle, .crash => .quiet .idle
  | .finished, .crash => .quiet .finished
  | _, .crash => .unlock .crashed
  | p, _ => .quiet p

/-! ## The deployment -/

/-- What an observer of the shared state sees of an action. -/
inductive Event
  | database (op : Op) (outcome : Outcome)
  | redis (op : QueueOp) (fault : Fault) (reply : Option QueueReply)
  | handlerStarted (attempt : Attempt)
  | handlerMissing (attempt : Attempt)

/-- Carry out an instruction.  A database operation is one transaction, whose
end releases the locks of the process. -/
def Store.perform (settings : Settings) (pid : ℕ) (s : Store) :
    Instruction → Store × Process × Option Event
  | .quiet next => (s, next, none)
  | .startHandler attempt next => (s, next, some (.handlerStarted attempt))
  | .missHandler attempt next => (s, next, some (.handlerMissing attempt))
  | .unlock next => (s.unlock pid, next, none)
  | .lock rows next =>
      ({ s with locks := s.locks ++ rows.map fun row => (pid, row) },
        next, none)
  | .database op next =>
      let (jobs, outcome) := (service settings).step s.jobs op
      ({ s.unlock pid with jobs := jobs }, next outcome,
        some (.database op outcome))
  | .redis op fault next =>
      let (s', reply) := s.send op fault
      (s', next reply, some (.redis op fault reply))

/-- All processes of a deployment. -/
def deployment (settings : Settings) :
    Concurrent Store Process Action (Option Event) where
  act pid s p action := s.perform settings pid (p.next pid s action)

/-- A runner carries out what its loop does next. -/
theorem runner_act (settings : Settings) (pid : ℕ) (s : Store) (r : Runner)
    (action : Action) :
    (deployment settings).act pid s (.runner r) action =
      s.perform settings pid (r.next s.jobs action) := by
  cases action <;> rfl

def initial : Configuration Store Process where
  shared := Store.empty
  process _ := .idle

/-- The configuration after a list of actions, each by the named process. -/
def after (settings : Settings) (actions : List (ℕ × Action)) :
    Configuration Store Process :=
  (deployment settings).machine.run initial actions

abbrev History := List ((ℕ × Action) × Option Event)

def historyAfter (settings : Settings) (actions : List (ℕ × Action)) :
    History :=
  (deployment settings).machine.trace initial actions

end JobQueue
