import JobQueue.Lifecycle.Flow
import JobQueue.Service.Counts

/-!
# Health and queue statistics

`collect_health` probes PostgreSQL and Redis one after the other; a store that
is down does not hide what the other one says.  The counts it reports are
checked against the answers the service has given: they are what the calls of
the run have moved into each stage and not out of it.
-/

namespace JobQueue

open Support

def healthy : String := "healthy"

def unhealthy : String := "unhealthy"

/-- `ready` is the size of the ready queue, the rest are counts of rows. -/
structure QueueStats where
  ready : Option ℕ
  pending : Option ℕ
  scheduled : Option ℕ
  processing : Option ℕ
  completed : Option ℕ
  failed : Option ℕ
  cancelled : Option ℕ
deriving DecidableEq

structure HealthResponse where
  status : String
  database : String
  redis : String
  queue : QueueStats
deriving DecidableEq

/-- `QueueStats(ready=ready, **counts)`: every field takes the keyword of its
own name, or its default. -/
def QueueStats.ofKeywords (ready : Option ℕ) (counts : Dict (Option ℕ)) :
    QueueStats where
  ready := ready
  pending := (counts.lookup "pending").join
  scheduled := (counts.lookup "scheduled").join
  processing := (counts.lookup "processing").join
  completed := (counts.lookup "completed").join
  failed := (counts.lookup "failed").join
  cancelled := (counts.lookup "cancelled").join

/-- The counts before the database has answered. -/
def unknownCounts : Dict (Option ℕ) :=
  JobStatus.members.foldl (fun counts s => counts.insert s.value none) ∅

/-- Probe both stores and return a report.  The arguments are what the three
calls return or raise: `SELECT 1`, the counts and the size of the queue. -/
def collectHealth {ε : Type} (selected : Except ε Unit)
    (counted : Except ε (Dict ℕ)) (sized : Except ε ℕ) : HealthResponse :=
  let (database, counts) :=
    match selected with
    | .ok () =>
        match counted with
        | .ok counts => (healthy, counts.map some)
        | .error _ => (unhealthy, unknownCounts)
    | .error _ => (unhealthy, unknownCounts)
  let (redis, ready) :=
    match sized with
    | .ok n => (healthy, some n)
    | .error _ => (unhealthy, none)
  let overall :=
    if database = healthy ∧ redis = healthy then healthy else unhealthy
  { status := overall
    database := database
    redis := redis
    queue := .ofKeywords ready counts }

/-- `GET /health`: the status code and the report. -/
def health {ε : Type} (selected : Except ε Unit) (counted : Except ε (Dict ℕ))
    (sized : Except ε ℕ) : ℕ × HealthResponse :=
  let report := collectHealth selected counted sized
  (if report.status ≠ healthy then 503 else 200, report)

/-! ## What is reported -/

def QueueStats.count (q : QueueStats) : JobStatus → Option ℕ
  | .scheduled => q.scheduled
  | .pending => q.pending
  | .processing => q.processing
  | .completed => q.completed
  | .failed => q.failed
  | .cancelled => q.cancelled

/-- Every status is reported in the field of its name. -/
theorem count_ofKeywords (ready : Option ℕ) (counts : Dict (Option ℕ))
    (s : JobStatus) :
    (QueueStats.ofKeywords ready counts).count s =
      (counts.lookup s.value).join := by
  cases s <;> rfl

theorem join_lookup_unknownCounts (s : JobStatus) :
    (unknownCounts.lookup s.value).join = none := by
  cases s <;> rfl

section

variable {ε : Type} (selected counted : Except ε Unit) (sized : Except ε ℕ)
  (t : Jobs)

def healthAt : ℕ × HealthResponse :=
  health selected (counted.map fun _ => countJobsByStatus t) sized

theorem ready_healthAt :
    (healthAt selected counted sized t).2.queue.ready = sized.toOption := by
  cases sized with
  | error e => rfl
  | ok n => rfl

theorem status_healthAt :
    (healthAt selected counted sized t).1 =
      if selected.isOk && counted.isOk && sized.isOk then 200 else 503 := by
  cases selected with
  | error e =>
      cases sized with
      | error e' => rfl
      | ok n => rfl
  | ok u =>
      cases counted with
      | error e =>
          cases sized with
          | error e' => rfl
          | ok n => rfl
      | ok u' =>
          cases sized with
          | error e' => rfl
          | ok n => rfl

theorem count_healthAt (s : JobStatus) :
    (healthAt selected counted sized t).2.queue.count s =
      if selected.isOk && counted.isOk then some (countWith t s)
      else none := by
  cases selected with
  | error e =>
      exact (count_ofKeywords _ _ s).trans (join_lookup_unknownCounts s)
  | ok u =>
      cases counted with
      | error e =>
          exact (count_ofKeywords _ _ s).trans (join_lookup_unknownCounts s)
      | ok u' =>
          refine (count_ofKeywords _ _ s).trans ?_
          rw [Dict.lookup_map, lookup_countJobsByStatus]
          rfl

end

/-! ## Counts and answers -/

/-- The counts are what the moves have brought into each stage and not taken
out of it. -/
structure Balanced (counts : JobStatus → ℕ) (moves : List Move) : Prop where
  waiting : counts .scheduled + counts .pending + exitsFrom .waiting moves =
    entriesInto .waiting moves
  processing : counts .processing + exitsFrom .processing moves =
    entriesInto .processing moves
  completed : counts .completed = entriesInto .completed moves
  failed : counts .failed + exitsFrom .failed moves = entriesInto .failed moves
  cancelled : counts .cancelled = entriesInto .cancelled moves
  all : counts .scheduled + counts .pending + counts .processing +
    counts .completed + counts .failed + counts .cancelled = creations moves

theorem length_select_waiting (t : Jobs) :
    (t.select fun r => r.status.stage = .waiting).length =
      countWith t .scheduled + countWith t .pending := by
  simp only [countWith, KeyedTable.select, ← List.countP_eq_length_filter]
  induction t.rows with
  | nil => rfl
  | cons r rows ih =>
      simp only [List.countP_cons, ih]
      cases r.status <;> simp [JobStatus.stage] <;> omega

theorem JobStatus.stage_eq_iff {s s' : JobStatus} (h : s.stage ≠ .waiting) :
    s'.stage = s.stage ↔ s' = s := by
  cases s <;> cases s' <;> simp_all [JobStatus.stage]

/-- Any other stage holds the jobs of one status. -/
theorem countWith_balance (settings : Settings) (ops : List Op)
    {s : JobStatus} (h : s.stage ≠ .waiting) :
    countWith (tableAfter settings ops) s +
        exitsFrom s.stage (movesAfter settings ops) =
      entriesInto s.stage (movesAfter settings ops) := by
  rw [← stage_balance, countWith]
  simp only [s.stage_eq_iff h]

theorem countWith_balanced (settings : Settings) (ops : List Op) :
    Balanced (countWith (tableAfter settings ops))
      (movesAfter settings ops) := by
  have hwaiting := stage_balance settings ops .waiting
  rw [length_select_waiting] at hwaiting
  have hprocessing : _ + exitsFrom .processing _ = entriesInto .processing _ :=
    countWith_balance settings ops (s := .processing) (by decide)
  have hcompleted : _ + exitsFrom .completed _ = entriesInto .completed _ :=
    countWith_balance settings ops (s := .completed) (by decide)
  have hfailed : _ + exitsFrom .failed _ = entriesInto .failed _ :=
    countWith_balance settings ops (s := .failed) (by decide)
  have hcancelled : _ + exitsFrom .cancelled _ = entriesInto .cancelled _ :=
    countWith_balance settings ops (s := .cancelled) (by decide)
  have hsum := sum_entered (movesAfter settings ops)
  obtain ⟨hleft, hleft'⟩ := left_movesAfter settings ops
  constructor <;> omega

/-- What `GET /health` reports in every state the service can reach, whatever
each store answers: the size of the ready queue if Redis answers, and, if the
database answers, for every status the number of jobs a list filtered by it
has, all together what the answered calls have brought into each stage and not
taken out of it.  The code is 200 exactly when every probe was answered. -/
theorem health_counts_balance (settings : Settings) (ops : List Op)
    {ε : Type} (selected counted : Except ε Unit) (sized : Except ε ℕ) :
    let t := tableAfter settings ops
    let response := healthAt selected counted sized t
    let queue := response.2.queue
    response.1 =
        (if selected.isOk && counted.isOk && sized.isOk then 200 else 503) ∧
      queue.ready = sized.toOption ∧
      if selected.isOk && counted.isOk then
        ∃ counts, Balanced counts (movesAfter settings ops) ∧
          ∀ s, queue.count s = some (counts s) ∧ ∀ limit offset,
            counts s = (listJobs t t (some s) none limit offset).2
      else ∀ s, queue.count s = none := by
  refine ⟨status_healthAt selected counted sized _,
    ready_healthAt selected counted sized _, ?_⟩
  have hcount := count_healthAt selected counted sized
    (tableAfter settings ops)
  split
  · next hok =>
      refine ⟨countWith (tableAfter settings ops),
        countWith_balanced settings ops, fun s => ⟨?_, ?_⟩⟩
      · rw [hcount, if_pos hok]
      · exact countWith_eq_total (tableAfter settings ops) s
  · next hfailed =>
      intro s
      rw [hcount, if_neg hfailed]

end JobQueue
