import JobQueue.Lifecycle.Sweeps
import JobQueue.Lifecycle.Transitions
import JobQueue.Support.Concurrent
import JobQueue.Support.Overlay

/-!
# Sessions

The statements of the service one at a time, as PostgreSQL runs them under
READ COMMITTED.  A session executes a conditional `UPDATE`, which locks the
rows it matches, and commits at some later moment; until then other sessions
see the old versions of these rows, and a statement that would change one of
them waits.  A cancellation or a manual retry whose `UPDATE` matches nothing
goes on to a transaction of its own, which reads the job.  A recovery sweep is
one transaction of many statements: it selects and locks the expired rows,
skipping those that others have locked, settles them one by one, and commits.
A session that crashes gives up its locks and its uncommitted versions.
Submissions are taken as one step.
-/

namespace JobQueue

open Support

/-! ## Transactions -/

/-- The `UPDATE` of a cancellation or manual retry matches nothing. -/
def Op.isUnmatched (t : Jobs) : Op → Bool
  | .cancelJob jobId =>
      match cancelRow t jobId with
      | .ok (_, none) => true
      | _ => false
  | .retryJob jobId =>
      match retryRow t jobId with
      | .ok (_, none) => true
      | _ => false
  | _ => false

/-- What such a call answers from the job it then reads. -/
def Op.explanation (t : Jobs) : Op → Option Outcome
  | .cancelJob jobId =>
      some ((cancelUnmatched jobId (getJob t jobId)).map fun existing =>
        .cancelled ⟨existing, false⟩)
  | .retryJob jobId => some (.error (retryUnmatched jobId (getJob t jobId)))
  | _ => none

/-- A transaction of a call: the one that writes, or the one that reads why
nothing was written. -/
inductive Transaction
  | write (op : Op)
  | explain (op : Op)

/-- Transactions one at a time; the output is the answer of the call, if the
transaction ends it. -/
def transactions (settings : Settings) :
    Machine Jobs Transaction (Option Outcome) where
  step t
    | .write op =>
        (((service settings).step t op).1,
          if op.isUnmatched t then none
          else some ((service settings).step t op).2)
    | .explain op => (t, op.explanation t)

/-- A transaction with the answer it has given. -/
abbrev Committed := Transaction × Option Outcome

/-- The transaction of a call that it answers. -/
def answered (call : Op × Outcome) : Committed := (.write call.1, some call.2)

/-! ## Sessions -/

/-- What all sessions share: the committed table, and the row locks of open
transactions. -/
structure Postgres where
  jobs : Jobs
  locks : List (ℕ × UUID)

/-- An open recovery transaction.  `now()` is the time it began at. -/
structure Sweep where
  now : Time
  limit : ℕ
  locked : List UUID
  expired : List Job
  remaining : List Job
  written : List Job
  recovered : List (Attempt × AttemptResult)

/-- Where a session is: between calls, before the read that explains an
unmatched `UPDATE`, before the commit of an `UPDATE` with the row versions it
has written, in a sweep, or left by an exception of a sweep. -/
inductive Session
  | idle
  | explaining (op : Op)
  | executed (op : Op) (written : List Job) (outcome : Outcome)
  | sweeping (s : Sweep)
  | raised (error : ServiceError)

/-- What a session does next. -/
inductive Statement
  | execute (op : Op)
  | selectExpired (now : Time) (limit : ℕ)
  | settle
  | commit
  | explain
  | crash

def Op.isUpdate : Op → Bool
  | .activateDueScheduledJobs _ _ _ => true
  | op => op.aim.isSome

/-- The operation as it runs when others have locked the given rows. -/
def Op.relocked (locked : List UUID) : Op → Op
  | .activateDueScheduledJobs now limit _ =>
      .activateDueScheduledJobs now limit locked
  | .recoverExpiredLeases now limit _ => .recoverExpiredLeases now limit locked
  | op => op

namespace Postgres

def lockedByOthers (d : Postgres) (pid : ℕ) : List UUID :=
  (d.locks.filter fun lock => lock.1 ≠ pid).map Prod.snd

def lock (d : Postgres) (pid : ℕ) (rows : List UUID) : Postgres :=
  { d with locks := d.locks ++ rows.map fun row => (pid, row) }

def unlock (d : Postgres) (pid : ℕ) : Postgres :=
  { d with locks := d.locks.filter fun lock => lock.1 ≠ pid }

/-- Make the row versions of a transaction visible, and end it. -/
def commit (d : Postgres) (pid : ℕ) (written : List Job) : Postgres :=
  { d.unlock pid with jobs := d.jobs.overwrite written }

end Postgres

def writtenIds (settings : Settings) (op : Op) (outcome : Outcome) :
    List UUID :=
  (changesOf settings (op, outcome)).map Prod.fst

/-- The statement of an operation.  It waits for the rows others have locked;
if it matches nothing there is nothing to commit.  Submissions, whose locks on
the index of the keys are a matter of their own, are taken as one step. -/
def Session.execute (settings : Settings) (pid : ℕ) (d : Postgres) (op : Op) :
    Postgres × Session × Option Committed :=
  let (jobs, outcome) := (service settings).step d.jobs op
  let ids := writtenIds settings op outcome
  if ids.any (d.lockedByOthers pid).contains then (d, .idle, none)
  else if op.isUnmatched d.jobs then
    (d, .explaining op, some (.write op, none))
  else if op.submits || ids.isEmpty then
    ({ d with jobs := jobs }, .idle, some (answered (op, outcome)))
  else
    (d.lock pid ids, .executed op (ids.filterMap jobs.find?) outcome, none)

/-- The next row of the sweep, settled on top of the versions written so
far. -/
def Sweep.settle (jobs : Jobs) (s : Sweep) : Except ServiceError Sweep :=
  match s.remaining with
  | [] => .ok s
  | job :: rest => do
      let a ← Attempt.of job
      let (_, result) ← applyFailedAttempt (jobs.overwrite s.written) s.now a
        leaseExpiredError true
      match result with
      | none => return { s with remaining := rest }
      | some result =>
          return { s with
            remaining := rest
            written := result.job :: s.written
            recovered := s.recovered ++ [(a, result)] }

/-- What the sweep answers once it has committed. -/
def Sweep.call (s : Sweep) : Op × Outcome :=
  (.recoverExpiredLeases s.now s.limit s.locked, .ok (.recovered s.recovered))

/-- One step of a session; the output is the transaction that has taken
effect. -/
def Session.next (settings : Settings) (pid : ℕ) (d : Postgres) :
    Session → Statement → Postgres × Session × Option Committed
  | .idle, .execute op =>
      if op.isUpdate || op.submits then
        Session.execute settings pid d (op.relocked (d.lockedByOthers pid))
      else (d, .idle, none)
  | .idle, .selectExpired now limit =>
      let locked := d.lockedByOthers pid
      let expired := selectExpired d.jobs now limit locked
      (d.lock pid (expired.map Job.id),
        .sweeping ⟨now, limit, locked, expired, expired, [], []⟩, none)
  | .explaining op, .explain =>
      (d, .idle, some (.explain op, op.explanation d.jobs))
  | .executed op written outcome, .commit =>
      (d.commit pid written, .idle, some (answered (op, outcome)))
  | .sweeping s, .settle =>
      match s.settle d.jobs with
      | .ok s' => (d, .sweeping s', none)
      | .error e => (d.unlock pid, .raised e, none)
  | .sweeping s, .commit =>
      if s.remaining.isEmpty then
        (d.commit pid s.written, .idle, some (answered s.call))
      else (d, .sweeping s, none)
  | _, .crash => (d.unlock pid, .idle, none)
  | session, _ => (d, session, none)

/-- Any number of sessions over one database. -/
def sessions (settings : Settings) :
    Concurrent Postgres Session Statement (Option Committed) where
  act pid d session statement := session.next settings pid d statement

def emptyDatabase : Configuration Postgres Session where
  shared := ⟨KeyedTable.empty, []⟩
  process _ := .idle

/-- The sessions after a list of statements, each by the named session. -/
def sessionsAfter (settings : Settings) (statements : List (ℕ × Statement)) :
    Configuration Postgres Session :=
  (sessions settings).machine.run emptyDatabase statements

/-- The transactions that have taken effect, in the order in which they
did. -/
def committedIn (h : List ((ℕ × Statement) × Option Committed)) :
    List Committed :=
  h.filterMap Prod.snd

def committedAfter (settings : Settings)
    (statements : List (ℕ × Statement)) : List Committed :=
  committedIn ((sessions settings).machine.trace emptyDatabase statements)

end JobQueue
