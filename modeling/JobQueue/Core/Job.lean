import JobQueue.Core.Text
import JobQueue.Support.KeyedTable

/-!
# The jobs table

Data model of the service: the columns of `jobs`, the constraints PostgreSQL
checks on every write, the identity of a processing attempt, and the retry
schedule.  Timestamps and durations are integers counting microseconds, the
resolution of `timestamptz`, timestamps from the Unix epoch on; JSONB documents
are kept as their canonical text, since the service stores and returns them
without looking inside.
-/

namespace JobQueue

open Support

/-- A point in time, in microseconds since the Unix epoch. -/
abbrev Time := ℤ

/-- A `timedelta`, in microseconds. -/
abbrev Duration := ℤ

/-- A JSONB document, as its canonical text. -/
abbrev Jsonb := String

/-- `timedelta(seconds=n)`. -/
def seconds (n : ℤ) : Duration := n * 1000000

inductive JobStatus
  | scheduled
  | pending
  | processing
  | completed
  | failed
  | cancelled
deriving DecidableEq, Repr

/-- The value stored in PostgreSQL and shown to clients. -/
def JobStatus.value : JobStatus → String
  | .scheduled => "scheduled"
  | .pending => "pending"
  | .processing => "processing"
  | .completed => "completed"
  | .failed => "failed"
  | .cancelled => "cancelled"

/-- Job types the service accepts; persisted as a plain string column. -/
inductive JobType
  | email
  | webhook
  | report
  | batch
deriving DecidableEq, Repr

def JobType.value : JobType → String
  | .email => "email"
  | .webhook => "webhook"
  | .report => "report"
  | .batch => "batch"

/-- One row of `jobs`. -/
structure Job where
  id : UUID
  type : String
  payload : Jsonb
  status : JobStatus
  priority : ℤ
  attemptCount : ℤ
  maxAttempts : ℤ
  progress : ℤ
  result : Option Jsonb
  error : Option String
  scheduledAt : Option Time
  createdAt : Time
  startedAt : Option Time
  completedAt : Option Time
  workerId : Option String
  executionToken : Option UUID
  leaseExpiresAt : Option Time
  idempotencyKey : Option String
  idempotencyExpiresAt : Option Time
deriving DecidableEq, Repr

/-- The committed contents of `jobs`, keyed by `id`. -/
abbrev Jobs := KeyedTable Job.id

/-- A client-supplied submission; validation keeps the priority in range. -/
structure JobCreateRequest where
  type : JobType
  payload : Jsonb
  priority : ℤ
  scheduledAt : Option Time
  priority_range : 0 ≤ priority ∧ priority ≤ 100
deriving DecidableEq

/-! ## Constraints -/

/-- The check constraints of `jobs`, by name. -/
def checkConstraints : List (String × (Job → Bool)) :=
  [("ck_jobs_attempt_count_non_negative", fun j => 0 ≤ j.attemptCount),
   ("ck_jobs_max_attempts_positive", fun j => 1 ≤ j.maxAttempts),
   ("ck_jobs_attempt_count_within_max", fun j =>
      j.attemptCount ≤ j.maxAttempts),
   ("ck_jobs_progress_percentage_range", fun j =>
      0 ≤ j.progress && j.progress ≤ 100)]

/-- The first check constraint a row violates. -/
def Job.violatedCheck (j : Job) : Option String :=
  (checkConstraints.find? fun c => !c.2 j).map Prod.fst

def idempotencyIndexName : String := "uq_jobs_idempotency_key_active"

/-- What SQLAlchemy reports as `IntegrityError`, with the constraint name. -/
inductive IntegrityError
  | check (constraintName : String)
  | unique (constraintName : String)
deriving DecidableEq, Repr

theorem Job.violatedCheck_eq_none_iff (j : Job) :
    j.violatedCheck = none ↔
      0 ≤ j.attemptCount ∧ 1 ≤ j.maxAttempts ∧
        j.attemptCount ≤ j.maxAttempts ∧
        0 ≤ j.progress ∧ j.progress ≤ 100 := by
  simp [Job.violatedCheck, checkConstraints]

/-! ## Errors that cross layer boundaries -/

/-- What an operation of the service may raise. -/
inductive ServiceError
  | jobNotFound (jobId : UUID)
  | jobConflict (jobId : UUID) (action : String) (status : String)
  | ownershipLost (jobId : UUID) (workerId : String) (executionToken : UUID)
  | valueError (message : String)
  | overflowError (message : String)
  | integrity (error : IntegrityError)
deriving DecidableEq

def UUID.show (u : UUID) : String := String.ofList u.str

def ServiceError.message : ServiceError → String
  | .jobNotFound jobId => "job " ++ UUID.show jobId ++ " not found"
  | .jobConflict jobId action status =>
      "cannot " ++ action ++ " job " ++ UUID.show jobId ++
        " while it is " ++ status
  | .ownershipLost jobId workerId executionToken =>
      "worker " ++ workerId ++ " no longer owns attempt " ++
        UUID.show executionToken ++ " of job " ++ UUID.show jobId
  | .valueError message => message
  | .overflowError message => message
  | .integrity (.check name) =>
      "new row for relation \"jobs\" violates check constraint \"" ++
        name ++ "\""
  | .integrity (.unique name) =>
      "duplicate key value violates unique constraint \"" ++ name ++ "\""

/-! ## Normalisation to UTC -/

/-- `datetime.min` in UTC, the first microsecond of the year 1. -/
def datetimeMin : Time := seconds (-62135596800)

/-- `datetime.max` in UTC, the last microsecond of the year 9999. -/
def datetimeMax : Time := seconds 253402300800 - 1

/-- A `datetime` in UTC can hold the moment. -/
def inUtcRange (value : Time) : Bool :=
  datetimeMin ≤ value && value ≤ datetimeMax

/-- What `astimezone` raises when the UTC year leaves 1 to 9999. -/
def dateOutOfRange : ServiceError := .overflowError "date value out of range"

/-- Normalise an aware datetime, given by its moment, to UTC. -/
def toUtc (value : Time) : Except ServiceError Time :=
  if inUtcRange value then .ok value else .error dateOutOfRange

/-! ## Attempts -/

/-- Proof of ownership handed out by a successful claim. -/
structure Attempt where
  jobId : UUID
  workerId : String
  executionToken : UUID
  attemptCount : ℤ
  maxAttempts : ℤ
deriving DecidableEq

/-- Read the attempt identity off a row that is currently `PROCESSING`. -/
def Attempt.of (job : Job) : Except ServiceError Attempt :=
  match job.workerId, job.executionToken with
  | some workerId, some executionToken =>
      .ok { jobId := job.id, workerId := workerId,
            executionToken := executionToken,
            attemptCount := job.attemptCount,
            maxAttempts := job.maxAttempts }
  | _, _ =>
      .error (.valueError
        ("job " ++ UUID.show job.id ++ " carries no owned attempt"))

def Attempt.hasAttemptsLeft (a : Attempt) : Bool :=
  a.attemptCount < a.maxAttempts

def Attempt.ownershipLost (a : Attempt) : ServiceError :=
  .ownershipLost a.jobId a.workerId a.executionToken

theorem Attempt.of_eq_ok_iff {job : Job} {a : Attempt} :
    Attempt.of job = .ok a ↔
      job.id = a.jobId ∧ job.workerId = some a.workerId ∧
        job.executionToken = some a.executionToken ∧
        job.attemptCount = a.attemptCount ∧
        job.maxAttempts = a.maxAttempts := by
  cases a
  cases hw : job.workerId with
  | none => simp [Attempt.of, hw]
  | some w =>
      cases ht : job.executionToken with
      | none => simp [Attempt.of, hw, ht]
      | some k => simp [Attempt.of, hw, ht]

/-! ## Retry schedule -/

/-- Delay before the attempt that follows the attempt used as the key. -/
def retryDelaysSeconds : List (ℤ × ℤ) := [(1, 30), (2, 120)]

/-- Seconds to wait before retrying after `attemptCount` failed attempts. -/
def retryDelaySeconds (attemptCount : ℤ) : Except ServiceError ℤ :=
  match retryDelaysSeconds.lookup attemptCount with
  | some delay => .ok delay
  | none =>
      .error (.valueError
        ("no retry delay defined for attempt " ++ toString attemptCount ++
          "; known attempts: [1, 2]"))

theorem retryDelaySeconds_eq_ok_iff {n delay : ℤ} :
    retryDelaySeconds n = .ok delay ↔
      n = 1 ∧ delay = 30 ∨ n = 2 ∧ delay = 120 := by
  by_cases h1 : n = 1
  · subst h1
    simp [retryDelaySeconds, retryDelaysSeconds, eq_comm]
  · by_cases h2 : n = 2
    · subst h2
      simp [retryDelaySeconds, retryDelaysSeconds, List.lookup_cons, eq_comm]
    · have hlookup : retryDelaysSeconds.lookup n = none := by
        simp [retryDelaysSeconds, List.lookup_cons, beq_eq_false_iff_ne.mpr h1,
          beq_eq_false_iff_ne.mpr h2]
      simp [retryDelaySeconds, hlookup, h1, h2]

end JobQueue
