import JobQueue.Service.Operations
import JobQueue.Support.Execution

/-!
# The service as a machine

One input is one operation of `job_service` with all its arguments, the clock
readings it makes and the identifiers it draws; the output is what the caller
gets.  A list of operations is one interleaving of any number of processes:
reads have no effect, and every write is one atomic statement or transaction.
-/

namespace JobQueue

open Support

/-- One operation, with its arguments and the values it reads from clocks and
from the random source. -/
inductive Op
  | createJob (clock : SubmitClock) (id : UUID) (request : JobCreateRequest)
      (key : Option String)
  | insertJob (clock : SubmitClock) (id : UUID) (request : JobCreateRequest)
      (key : Option String)
  | releaseExpiredKey (key : String) (now : Time)
  | claimJob (now : Time) (jobId : UUID) (workerId : String) (token : UUID)
      (leaseSeconds : Option Duration)
  | extendLease (now : Time) (attempt : Attempt)
      (leaseSeconds : Option Duration)
  | updateProgress (attempt : Attempt) (progress : ℤ)
  | completeJob (now : Time) (attempt : Attempt) (result : Jsonb)
  | failAttempt (now : Time) (attempt : Attempt) (error : String)
  | activateDueScheduledJobs (now : Time) (limit : ℕ) (locked : List UUID)
  | activateSelected (now : Time) (due : List UUID)
  | recoverExpiredLeases (now : Time) (limit : ℕ) (locked : List UUID)
  | cancelJob (jobId : UUID)
  | retryJob (jobId : UUID)

inductive Reply
  | submitted (s : Submitted)
  | released (rows : List UUID)
  | claimed (row : Option Job)
  | extended (deadline : Time)
  | progressed
  | completed (row : Job)
  | attemptFailed (result : AttemptResult)
  | activated (rows : List Job)
  | recovered (results : List (Attempt × AttemptResult))
  | cancelled (c : Cancelled)
  | retried (row : Job)

/-- The answer to a call: a reply or a raised exception. -/
abbrev Outcome := Except ServiceError Reply

/-- Wrap the value an operation returns. -/
def answer {α : Type} (wrap : α → Reply) :
    Except ServiceError (Jobs × α) → Except ServiceError (Jobs × Reply)
  | .ok (t, x) => .ok (t, wrap x)
  | .error e => .error e

theorem answer_eq_ok {α : Type} {wrap : α → Reply}
    {x : Except ServiceError (Jobs × α)} {t : Jobs} {reply : Reply}
    (h : answer wrap x = .ok (t, reply)) :
    ∃ y, x = .ok (t, y) ∧ reply = wrap y := by
  cases x with
  | error e => cases h
  | ok result =>
      cases h
      exact ⟨result.2, rfl, rfl⟩

def Op.execute (settings : Settings) (t : Jobs) :
    Op → Except ServiceError (Jobs × Reply)
  | .createJob clock id request key =>
      answer .submitted (JobQueue.createJob t clock id request key)
  | .insertJob clock id request key =>
      answer .submitted (JobQueue.insertJob t clock id request key)
  | .releaseExpiredKey key now =>
      answer .released (JobQueue.releaseExpiredKey t key now)
  | .claimJob now jobId workerId token leaseSeconds =>
      answer .claimed
        (JobQueue.claimJob settings t now jobId workerId token leaseSeconds)
  | .extendLease now a leaseSeconds =>
      answer .extended (JobQueue.extendLease settings t now a leaseSeconds)
  | .updateProgress a progress =>
      answer (fun _ => .progressed) (JobQueue.updateProgress t a progress)
  | .completeJob now a result =>
      answer .completed (JobQueue.completeJob t now a result)
  | .failAttempt now a error =>
      answer .attemptFailed (JobQueue.failAttempt t now a error)
  | .activateDueScheduledJobs now limit locked =>
      answer .activated
        (JobQueue.activateDueScheduledJobs t now limit locked)
  | .activateSelected now due =>
      answer .activated (JobQueue.activateSelected t now due)
  | .recoverExpiredLeases now limit locked =>
      answer .recovered (JobQueue.recoverExpiredLeases t now limit locked)
  | .cancelJob jobId => answer .cancelled (JobQueue.cancelJob t jobId)
  | .retryJob jobId => answer .retried (JobQueue.retryJob t jobId)

/-- An exception leaves the committed table as it was. -/
def settle {α : Type} (t : Jobs) :
    Except ServiceError (Jobs × α) → Jobs × Except ServiceError α
  | .ok (t', reply) => (t', .ok reply)
  | .error e => (t, .error e)

/-- The service as a machine over the committed table. -/
def service (settings : Settings) : Machine Jobs Op Outcome where
  step t op := settle t (op.execute settings t)

theorem execute_of_step_ok {settings : Settings} {t : Jobs} {op : Op}
    {reply : Reply} (h : ((service settings).step t op).2 = .ok reply) :
    op.execute settings t = .ok (((service settings).step t op).1, reply) := by
  simp only [service] at h ⊢
  cases hexec : op.execute settings t with
  | error e =>
      rw [hexec] at h
      cases h
  | ok result =>
      rw [hexec] at h
      cases h
      rfl

/-- The table after a run from the empty table. -/
def tableAfter (settings : Settings) (ops : List Op) : Jobs :=
  (service settings).run KeyedTable.empty ops

/-- The answered calls of a run from the empty table. -/
def callsOf (settings : Settings) (ops : List Op) : List (Op × Outcome) :=
  (service settings).trace KeyedTable.empty ops

/-! ## A small deployment, for examples -/

/-- The default lease of one minute. -/
def sampleSettings : Settings where
  jobLease := seconds 60
  jobLease_pos := by decide

/-- An email of middling priority, to be sent at once. -/
def sampleRequest : JobCreateRequest where
  type := .email
  payload := "\x7b\x7d"
  priority := 50
  scheduledAt := none
  priority_range := by decide

/-- All clocks of a submission show the same time. -/
def SubmitClock.at (now : Time) : SubmitClock := ⟨now, now, now, now, now⟩

/-- The submission, without a key, of the sample request at time zero. -/
def sampleSubmit (id : UUID) : Op :=
  .createJob (SubmitClock.at 0) id sampleRequest none

end JobQueue
