import JobQueue.Core.Job

/-!
# Operations on the jobs table

Every state transition of the service is one conditional `UPDATE` (or one
`INSERT`) on the committed table.  Each function below takes the table, the
clock readings and the random identifiers the source draws, and returns the
next table together with what the source returns.  An error stands for the
exception the source raises; the transaction is then rolled back or had no
effect, so the caller keeps the old table.
-/

namespace JobQueue

open Support

/-- The part of the configuration the service reads. -/
structure Settings where
  jobLease : Duration
  jobLease_pos : 0 < jobLease

/-- Submitted idempotency keys stay valid for this long. -/
def idempotencyTtl : Duration := seconds (24 * 60 * 60)

/-- `max_attempts` is server-controlled. -/
def defaultMaxAttempts : ℤ := 3

/-! ## Statements -/

/-- `UPDATE jobs SET .. WHERE .. RETURNING *`, refused when a rewritten row
violates a check constraint. -/
def executeUpdate (t : Jobs) (p : Job → Bool) (a : Assignment Job.id) :
    Except ServiceError (Jobs × List Job) :=
  match (t.returning p a).findSome? Job.violatedCheck with
  | some name => .error (.integrity (.check name))
  | none => .ok (t.updateWhere p a, t.returning p a)

/-- The first row an update returns, as `scalars().first()` reads it. -/
def executeFirst (t : Jobs) (p : Job → Bool) (a : Assignment Job.id) :
    Except ServiceError (Jobs × Option Job) := do
  let (t', rows) ← executeUpdate t p a
  return (t', rows.head?)

def keyHolders (t : Jobs) (key : Option String) : List Job :=
  t.select fun r => key.isSome && r.idempotencyKey = key

/-- `INSERT INTO jobs`, refused by the constraints of the table. -/
def executeInsert (t : Jobs) (job : Job) : Except ServiceError Jobs :=
  match job.violatedCheck with
  | some name => .error (.integrity (.check name))
  | none =>
      if h : t.find? job.id = none then
        if (keyHolders t job.idempotencyKey).isEmpty then
          .ok (t.insert job h)
        else .error (.integrity (.unique idempotencyIndexName))
      else .error (.integrity (.unique "pk_jobs"))

def getJob (t : Jobs) (jobId : UUID) : Option Job := t.find? jobId

/-! ## Submission -/

/-- A key is used only when it is neither absent nor empty. -/
def truthyKey (key : Option String) : Bool := key.any (· ≠ "")

/-- Clock readings of one submission: `utcnow()` at each use, and the
database clock that stamps `created_at`. -/
structure SubmitClock where
  lookup : Time
  release : Time
  build : Time
  reload : Time
  database : Time

def isActiveHolder (key : String) (now : Time) (r : Job) : Bool :=
  r.idempotencyKey = some key &&
    (r.idempotencyExpiresAt.isNone || r.idempotencyExpiresAt.any (now < ·))

/-- The job currently owning an idempotency key, if it has not expired. -/
def findActiveByKey (t : Jobs) (key : String) (now : Time) : Option Job :=
  (t.select (isActiveHolder key now)).head?

def isExpiredHolder (key : String) (now : Time) (r : Job) : Bool :=
  r.idempotencyKey = some key && r.idempotencyExpiresAt.any (· ≤ now)

def releaseKey : Assignment Job.id where
  set r := { r with idempotencyKey := none, idempotencyExpiresAt := none }
  key_set _ := rfl

/-- Detach an expired key from its old job so the key can be reused; returns
the rows it touched. -/
def releaseExpiredKey (t : Jobs) (key : String) (now : Time) :
    Except ServiceError (Jobs × List UUID) := do
  let (t', rows) ← executeUpdate t (isExpiredHolder key now) releaseKey
  return (t', rows.map Job.id)

/-- The row of a request whose `scheduled_at` is in UTC. -/
def newJob (request : JobCreateRequest) (scheduledAt : Option Time)
    (key : Option String) (now createdAt : Time) (id : UUID) : Job :=
  let isFuture := scheduledAt.any (now < ·)
  { id := id
    type := request.type.value
    payload := request.payload
    status := if isFuture then .scheduled else .pending
    priority := request.priority
    attemptCount := 0
    maxAttempts := defaultMaxAttempts
    progress := 0
    result := none
    error := none
    scheduledAt := scheduledAt
    createdAt := createdAt
    startedAt := none
    completedAt := none
    workerId := none
    executionToken := none
    leaseExpiresAt := none
    idempotencyKey := key
    idempotencyExpiresAt :=
      if truthyKey key then some (now + idempotencyTtl) else none }

/-- The body asks for no time, or for one that has a date in UTC. -/
def JobCreateRequest.inUtcRange (request : JobCreateRequest) : Bool :=
  request.scheduledAt.all JobQueue.inUtcRange

/-- `_build_job`; raises when `scheduled_at` has no UTC date. -/
def buildJob (request : JobCreateRequest) (key : Option String)
    (now createdAt : Time) (id : UUID) : Except ServiceError Job := do
  let scheduledAt ← request.scheduledAt.mapM toUtc
  return newJob request scheduledAt key now createdAt id

/-- Only a rejection by the unique idempotency index counts as a lost race. -/
def isIdempotencyConflict : ServiceError → Bool
  | .integrity (.unique name) => name = idempotencyIndexName
  | _ => false

/-- What `create_job` hands back, with the rows whose key it released. -/
structure Submitted where
  job : Job
  created : Bool
  released : List UUID

/-- The release that precedes an insert under a key. -/
def releaseBeforeInsert (t : Jobs) (key : Option String) (now : Time) :
    Except ServiceError (Jobs × List UUID) :=
  if truthyKey key then releaseExpiredKey t (key.getD "") now
  else .ok (t, [])

/-- `create_job` after its lookup found nothing: release, build, insert and
commit, or roll back and reload the winner of the race. -/
def insertJob (t : Jobs) (clock : SubmitClock) (id : UUID)
    (request : JobCreateRequest) (key : Option String) :
    Except ServiceError (Jobs × Submitted) := do
  let (t', released) ← releaseBeforeInsert t key clock.release
  let job ← buildJob request key clock.build clock.database id
  match executeInsert t' job with
  | .ok t'' => return (t'', ⟨job, true, released⟩)
  | .error e =>
      if truthyKey key && isIdempotencyConflict e then
        match findActiveByKey t (key.getD "") clock.reload with
        | some winner => return (t, ⟨winner, false, []⟩)
        | none => throw e
      else throw e

/-- Create a job, or return the existing one for a live idempotency key. -/
def createJob (t : Jobs) (clock : SubmitClock) (id : UUID)
    (request : JobCreateRequest) (key : Option String) :
    Except ServiceError (Jobs × Submitted) :=
  if truthyKey key then
    match findActiveByKey t (key.getD "") clock.lookup with
    | some existing => .ok (t, ⟨existing, false, []⟩)
    | none => insertJob t clock id request key
  else insertJob t clock id request key

/-! ## Claims and fenced writes -/

/-- Lease expiry expressed against the database clock. -/
def leaseDeadline (settings : Settings) (now : Time)
    (leaseSeconds : Option Duration) : Time :=
  now + leaseSeconds.getD settings.jobLease

def Job.isClaimable (r : Job) : Bool :=
  r.status = .pending && r.attemptCount < r.maxAttempts

def claim (now : Time) (workerId : String) (token : UUID) (deadline : Time) :
    Assignment Job.id where
  set r :=
    { r with
      status := .processing
      workerId := some workerId
      executionToken := some token
      leaseExpiresAt := some deadline
      startedAt := some now
      attemptCount := r.attemptCount + 1 }
  key_set _ := rfl

/-- Atomically take ownership of a `PENDING` job for one attempt; `token` is
the fresh `uuid4` the statement stores. -/
def claimJob (settings : Settings) (t : Jobs) (now : Time) (jobId : UUID)
    (workerId : String) (token : UUID) (leaseSeconds : Option Duration) :
    Except ServiceError (Jobs × Option Job) :=
  executeFirst t (fun r => r.id = jobId && r.isClaimable)
    (claim now workerId token (leaseDeadline settings now leaseSeconds))

/-- The fence.  Only the live owner of this exact attempt matches. -/
def ownedBy (a : Attempt) (r : Job) : Bool :=
  r.id = a.jobId && r.status = .processing &&
    r.workerId = some a.workerId && r.executionToken = some a.executionToken

def setLease (deadline : Time) : Assignment Job.id where
  set r := { r with leaseExpiresAt := some deadline }
  key_set _ := rfl

/-- Push the lease forward; the heartbeat's only write. -/
def extendLease (settings : Settings) (t : Jobs) (now : Time) (a : Attempt)
    (leaseSeconds : Option Duration) : Except ServiceError (Jobs × Time) := do
  let deadline := leaseDeadline settings now leaseSeconds
  let (t', row) ← executeFirst t (ownedBy a) (setLease deadline)
  match row.bind Job.leaseExpiresAt with
  | some extended => return (t', extended)
  | none => throw a.ownershipLost

def clampProgress (progress : ℤ) : ℤ := max 0 (min 100 progress)

def setProgress (progress : ℤ) : Assignment Job.id where
  set r := { r with progress := clampProgress progress }
  key_set _ := rfl

/-- Persist a progress percentage for the attempt that owns the job. -/
def updateProgress (t : Jobs) (a : Attempt) (progress : ℤ) :
    Except ServiceError (Jobs × Unit) := do
  let (t', rows) ← executeUpdate t (ownedBy a) (setProgress progress)
  if rows.length ≠ 0 then return (t', ()) else throw a.ownershipLost

/-- Clear the fields that describe an in-flight attempt. -/
def releasedOwnership (r : Job) : Job :=
  { r with workerId := none, executionToken := none, leaseExpiresAt := none }

def complete (now : Time) (result : Jsonb) : Assignment Job.id where
  set r :=
    releasedOwnership
      { r with
        status := .completed
        result := some result
        progress := 100
        completedAt := some now
        error := none }
  key_set _ := rfl

/-- Mark the owned attempt `COMPLETED` and store its result. -/
def completeJob (t : Jobs) (now : Time) (a : Attempt) (result : Jsonb) :
    Except ServiceError (Jobs × Job) := do
  let (t', row) ← executeFirst t (ownedBy a) (complete now result)
  match row with
  | some job => return (t', job)
  | none => throw a.ownershipLost

/-- What happened to a processing attempt that did not succeed. -/
inductive AttemptOutcome
  | retryScheduled
  | permanentlyFailed
deriving DecidableEq, Repr

structure AttemptResult where
  outcome : AttemptOutcome
  job : Job

def scheduleRetry (now : Time) (delay : ℤ) (error : String) :
    Assignment Job.id where
  set r :=
    releasedOwnership
      { r with
        status := .scheduled
        scheduledAt := some (now + seconds delay)
        error := some error }
  key_set _ := rfl

def failPermanently (now : Time) (error : String) : Assignment Job.id where
  set r :=
    releasedOwnership
      { r with
        status := .failed
        error := some error
        completedAt := some now }
  key_set _ := rfl

/-- `lease_expires_at < now()`; unknown, hence false, for a null lease. -/
def Job.leaseExpired (now : Time) (r : Job) : Bool :=
  r.leaseExpiresAt.any (· < now)

/-- Record a failed attempt as a delayed retry or a permanent failure. -/
def applyFailedAttempt (t : Jobs) (now : Time) (a : Attempt) (error : String)
    (requireExpiredLease : Bool) :
    Except ServiceError (Jobs × Option AttemptResult) :=
  if a.hasAttemptsLeft then do
    let delay ← retryDelaySeconds a.attemptCount
    let (t', row) ← executeFirst t
      (fun r => ownedBy a r && r.attemptCount < r.maxAttempts &&
        (!requireExpiredLease || r.leaseExpired now))
      (scheduleRetry now delay error)
    return (t', row.map (AttemptResult.mk .retryScheduled))
  else do
    let (t', row) ← executeFirst t
      (fun r => ownedBy a r && r.attemptCount ≥ r.maxAttempts &&
        (!requireExpiredLease || r.leaseExpired now))
      (failPermanently now error)
    return (t', row.map (AttemptResult.mk .permanentlyFailed))

/-- Handle a handler failure: schedule a retry, or fail the job for good. -/
def failAttempt (t : Jobs) (now : Time) (a : Attempt) (error : String) :
    Except ServiceError (Jobs × AttemptResult) := do
  let (t', result) ← applyFailedAttempt t now a error false
  match result with
  | some result => return (t', result)
  | none => throw a.ownershipLost

/-! ## Sweeps -/

/-- Ascending order of a nullable timestamp, nulls last. -/
def nullsLast : Option Time → Option Time → Prop
  | some x, some y => x ≤ y
  | _, none => True
  | none, some _ => False

instance (x y : Option Time) : Decidable (nullsLast x y) :=
  match x, y with
  | some x, some y => inferInstanceAs (Decidable (x ≤ y))
  | some _, none => isTrue trivial
  | none, none => isTrue trivial
  | none, some _ => isFalse id

def Job.isDue (now : Time) (r : Job) : Bool :=
  r.status = .scheduled && r.scheduledAt.any (· ≤ now)

def activate : Assignment Job.id where
  set r := { r with status := .pending }
  key_set _ := rfl

/-- The `due_jobs` selection: due rows that no other transaction has locked,
earliest first, at most `limit` of them. -/
def selectDue (t : Jobs) (now : Time) (limit : ℕ) (locked : List UUID) :
    List UUID :=
  (t.selectOrdered (fun r => r.isDue now && !locked.contains r.id)
    (fun r s => nullsLast r.scheduledAt s.scheduledAt) limit).map Job.id

/-- The `UPDATE` of the activation, which repeats the conditions on the
selected rows. -/
def activateSelected (t : Jobs) (now : Time) (due : List UUID) :
    Except ServiceError (Jobs × List Job) :=
  executeUpdate t (fun r => due.contains r.id && r.isDue now) activate

/-- Move due `SCHEDULED` jobs to `PENDING` and return the rows moved. -/
def activateDueScheduledJobs (t : Jobs) (now : Time) (limit : ℕ)
    (locked : List UUID) : Except ServiceError (Jobs × List Job) :=
  activateSelected t now (selectDue t now limit locked)

/-- Error recorded on a job whose owner stopped heartbeating. -/
def leaseExpiredError : String := "worker lease expired"

/-- The rows a recovery sweep locks. -/
def selectExpired (t : Jobs) (now : Time) (limit : ℕ) (locked : List UUID) :
    List Job :=
  t.selectOrdered
    (fun r => r.status = .processing && r.leaseExpired now &&
      !locked.contains r.id)
    (fun r s => nullsLast r.leaseExpiresAt s.leaseExpiresAt) limit

/-- Settle the selected rows one after another.  Each result carries the
attempt it took away, as the `job_recovered` log line does. -/
def recoverRows (now : Time) : List Job → Jobs →
    Except ServiceError (Jobs × List (Attempt × AttemptResult))
  | [], t => .ok (t, [])
  | job :: rest, t => do
      let a ← Attempt.of job
      let (t', result) ← applyFailedAttempt t now a leaseExpiredError true
      let (t'', recovered) ← recoverRows now rest t'
      match result with
      | none => return (t'', recovered)
      | some result => return (t'', (a, result) :: recovered)

/-- Take jobs away from owners whose lease ran out. -/
def recoverExpiredLeases (t : Jobs) (now : Time) (limit : ℕ)
    (locked : List UUID) :
    Except ServiceError (Jobs × List (Attempt × AttemptResult)) :=
  recoverRows now (selectExpired t now limit locked) t

/-! ## Cancellation and manual retry -/

def cancellable (s : JobStatus) : Bool := s = .pending || s = .scheduled

def cancel : Assignment Job.id where
  set r := releasedOwnership { r with status := .cancelled }
  key_set _ := rfl

/-- The conditional `UPDATE` of `cancel_job`. -/
def cancelRow (t : Jobs) (jobId : UUID) :
    Except ServiceError (Jobs × Option Job) :=
  executeFirst t (fun r => r.id = jobId && cancellable r.status) cancel

/-- What `cancel_job` answers when its `UPDATE` matched nothing. -/
def cancelUnmatched (jobId : UUID) : Option Job → Except ServiceError Job
  | none => .error (.jobNotFound jobId)
  | some existing =>
      if existing.status = .cancelled then .ok existing
      else .error (.jobConflict jobId "cancel" existing.status.value)

/-- What `cancel_job` hands back, and whether this call made the change. -/
structure Cancelled where
  job : Job
  changed : Bool

/-- Cancel a `PENDING` or `SCHEDULED` job; cancelling twice is idempotent. -/
def cancelJob (t : Jobs) (jobId : UUID) :
    Except ServiceError (Jobs × Cancelled) := do
  let (t', row) ← cancelRow t jobId
  match row with
  | some job => return (t', ⟨job, true⟩)
  | none =>
      let existing ← cancelUnmatched jobId (getJob t' jobId)
      return (t', ⟨existing, false⟩)

def restart : Assignment Job.id where
  set r :=
    releasedOwnership
      { r with
        status := .pending
        attemptCount := 0
        progress := 0
        error := none
        result := none
        completedAt := none
        startedAt := none
        scheduledAt := none }
  key_set _ := rfl

/-- The conditional `UPDATE` of `retry_job`. -/
def retryRow (t : Jobs) (jobId : UUID) :
    Except ServiceError (Jobs × Option Job) :=
  executeFirst t (fun r => r.id = jobId && r.status = .failed) restart

/-- What `retry_job` raises when its `UPDATE` matched nothing. -/
def retryUnmatched (jobId : UUID) : Option Job → ServiceError
  | none => .jobNotFound jobId
  | some existing => .jobConflict jobId "retry" existing.status.value

/-- Start a new three-attempt cycle for a `FAILED` job. -/
def retryJob (t : Jobs) (jobId : UUID) :
    Except ServiceError (Jobs × Job) := do
  let (t', row) ← retryRow t jobId
  match row with
  | some job => return (t', job)
  | none => throw (retryUnmatched jobId (getJob t' jobId))

end JobQueue
