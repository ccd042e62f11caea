import JobQueue.Deployment.Processes

/-!
# Calls that compete for one job

`claim_job`, `cancel_job` and `retry_job` with their steps apart.  The
conditional `UPDATE` commits on its own; the read that explains why it matched
nothing is a second transaction, and the queue is cleaned up or filled after
that.  Anything may happen between two steps of a call.
-/

namespace JobQueue

open Support

/-- Where a call is. -/
inductive MutationCall
  | idle
  | claiming (jobId : UUID) (workerId : String)
      (leaseSeconds : Option Duration)
  | claimed (row : Option Job)
  | cancelling (jobId : UUID)
  | explainingCancel (jobId : UUID)
  | cleaning (row : Job)
  | erasing (row : Job) (candidate : QueueCandidate)
  | cancelled (row : Job)
  | retrying (jobId : UUID)
  | explainingRetry (jobId : UUID)
  | publishing (row : Job)
  | retried (row : Job)
  | raised (error : ServiceError)

/-- What may happen: a call begins, claims with a clock reading and a fresh
token, runs its next statement or its next Redis call; or the rest of the
system operates on the table or on the queue. -/
inductive MutationAction
  | startClaim (jobId : UUID) (workerId : String)
      (leaseSeconds : Option Duration)
  | startCancel (jobId : UUID)
  | startRetry (jobId : UUID)
  | claim (now : Time) (token : UUID)
  | go
  | redis (fault : Fault)
  | other (op : Op)
  | queue (op : QueueOp)

/-- One step of a call.  A Redis call that raises is logged and forgotten. -/
def MutationCall.next (settings : Settings) (s : Store) :
    MutationCall → MutationAction → Store × MutationCall
  | .idle, .startClaim jobId workerId leaseSeconds =>
      (s, .claiming jobId workerId leaseSeconds)
  | .idle, .startCancel jobId => (s, .cancelling jobId)
  | .idle, .startRetry jobId => (s, .retrying jobId)
  | .claiming jobId workerId leaseSeconds, .claim now token =>
      match claimJob settings s.jobs now jobId workerId token leaseSeconds with
      | .ok (jobs, row) => ({ s with jobs := jobs }, .claimed row)
      | .error e => (s, .raised e)
  | .cancelling jobId, .go =>
      match cancelRow s.jobs jobId with
      | .ok (jobs, some row) => ({ s with jobs := jobs }, .cleaning row)
      | .ok (jobs, none) => ({ s with jobs := jobs }, .explainingCancel jobId)
      | .error e => (s, .raised e)
  | .explainingCancel jobId, .go =>
      match cancelUnmatched jobId (getJob s.jobs jobId) with
      | .ok existing => (s, .cancelled existing)
      | .error e => (s, .raised e)
  | .cleaning row, .redis fault =>
      match s.send (.currentMember row.id) fault with
      | (s', some (.member (some m))) =>
          match QueueCandidate.fromMember m with
          | .ok candidate => (s', .erasing row candidate)
          | .error _ => (s', .cancelled row)
      | (s', _) => (s', .cancelled row)
  | .erasing row candidate, .redis fault =>
      ((s.send (.remove candidate) fault).1, .cancelled row)
  | .retrying jobId, .go =>
      match retryRow s.jobs jobId with
      | .ok (jobs, some row) => ({ s with jobs := jobs }, .publishing row)
      | .ok (jobs, none) => ({ s with jobs := jobs }, .explainingRetry jobId)
      | .error e => (s, .raised e)
  | .explainingRetry jobId, .go =>
      (s, .raised (retryUnmatched jobId (getJob s.jobs jobId)))
  | .publishing row, .redis fault =>
      ((s.send (.enqueue row.id row.priority) fault).1, .retried row)
  | p, _ => (s, p)

/-- Any number of calls, with the rest of the system. -/
def mutations (settings : Settings) :
    Concurrent Store MutationCall MutationAction Unit where
  act _ s p a :=
    match a with
    | .other op =>
        ({ s with jobs := ((service settings).step s.jobs op).1 }, p, ())
    | .queue op => ({ s with redis := (queue.step s.redis op).1 }, p, ())
    | a => ((p.next settings s a).1, (p.next settings s a).2, ())

def mutationsAfter (settings : Settings)
    (c : Configuration Store MutationCall)
    (actions : List (ℕ × MutationAction)) :
    Configuration Store MutationCall :=
  (mutations settings).machine.run c actions

def MutationCall.ended : MutationCall → Bool
  | .claimed _ => true
  | .cancelled _ => true
  | .retried _ => true
  | .raised _ => true
  | _ => false

/-- An upper bound on the steps a call still has to take. -/
def MutationCall.remaining : MutationCall → ℕ
  | .claiming _ _ _ => 1
  | .cancelling _ => 3
  | .explainingCancel _ => 1
  | .cleaning _ => 2
  | .erasing _ _ => 1
  | .retrying _ => 2
  | .explainingRetry _ => 1
  | .publishing _ => 1
  | _ => 0

/-! ## What one step does -/

/-- The operation of the service an action performs, if any. -/
def MutationCall.operation : MutationCall → MutationAction → Option Op
  | _, .other op => some op
  | .claiming jobId workerId leaseSeconds, .claim now token =>
      some (.claimJob now jobId workerId token leaseSeconds)
  | .cancelling jobId, .go => some (.cancelJob jobId)
  | .retrying jobId, .go => some (.retryJob jobId)
  | _, _ => none

/-- The steps of a call, one constructor for each thing that may happen. -/
inductive MutationStep (settings : Settings) (s : Store) :
    MutationCall → MutationAction → Store → MutationCall → Prop
  | stay (p : MutationCall) (a : MutationAction) (redis : Redis)
      (h : p.operation a = none) :
      MutationStep settings s p a { s with redis := redis } p
  | other (p : MutationCall) (op : Op) :
      MutationStep settings s p (.other op)
        { s with jobs := ((service settings).step s.jobs op).1 } p
  | startClaim (jobId : UUID) (workerId : String)
      (leaseSeconds : Option Duration) :
      MutationStep settings s .idle (.startClaim jobId workerId leaseSeconds)
        s (.claiming jobId workerId leaseSeconds)
  | startCancel (jobId : UUID) :
      MutationStep settings s .idle (.startCancel jobId) s (.cancelling jobId)
  | startRetry (jobId : UUID) :
      MutationStep settings s .idle (.startRetry jobId) s (.retrying jobId)
  | claim (jobId : UUID) (workerId : String) (leaseSeconds : Option Duration)
      (now : Time) (token : UUID) (jobs : Jobs) (row : Option Job)
      (h : claimJob settings s.jobs now jobId workerId token leaseSeconds =
        .ok (jobs, row)) :
      MutationStep settings s (.claiming jobId workerId leaseSeconds)
        (.claim now token) { s with jobs := jobs } (.claimed row)
  | claimRaised (jobId : UUID) (workerId : String)
      (leaseSeconds : Option Duration) (now : Time) (token : UUID)
      (e : ServiceError)
      (h : claimJob settings s.jobs now jobId workerId token leaseSeconds =
        .error e) :
      MutationStep settings s (.claiming jobId workerId leaseSeconds)
        (.claim now token) s (.raised e)
  | cancel (jobId : UUID) (jobs : Jobs) (row : Job)
      (h : cancelRow s.jobs jobId = .ok (jobs, some row)) :
      MutationStep settings s (.cancelling jobId) .go { s with jobs := jobs }
        (.cleaning row)
  | cancelMissed (jobId : UUID) (jobs : Jobs)
      (h : cancelRow s.jobs jobId = .ok (jobs, none)) :
      MutationStep settings s (.cancelling jobId) .go { s with jobs := jobs }
        (.explainingCancel jobId)
  | cancelRaised (jobId : UUID) (e : ServiceError)
      (h : cancelRow s.jobs jobId = .error e) :
      MutationStep settings s (.cancelling jobId) .go s (.raised e)
  | cancelExplained (jobId : UUID) (existing : Job)
      (h : cancelUnmatched jobId (getJob s.jobs jobId) = .ok existing) :
      MutationStep settings s (.explainingCancel jobId) .go s
        (.cancelled existing)
  | cancelRefused (jobId : UUID) (e : ServiceError)
      (h : cancelUnmatched jobId (getJob s.jobs jobId) = .error e) :
      MutationStep settings s (.explainingCancel jobId) .go s (.raised e)
  | cleanUp (row : Job) (candidate : QueueCandidate) (fault : Fault)
      (redis : Redis) :
      MutationStep settings s (.cleaning row) (.redis fault)
        { s with redis := redis } (.erasing row candidate)
  | cleaned (row : Job) (fault : Fault) (redis : Redis) :
      MutationStep settings s (.cleaning row) (.redis fault)
        { s with redis := redis } (.cancelled row)
  | erased (row : Job) (candidate : QueueCandidate) (fault : Fault)
      (redis : Redis) :
      MutationStep settings s (.erasing row candidate) (.redis fault)
        { s with redis := redis } (.cancelled row)
  | retry (jobId : UUID) (jobs : Jobs) (row : Job)
      (h : retryRow s.jobs jobId = .ok (jobs, some row)) :
      MutationStep settings s (.retrying jobId) .go { s with jobs := jobs }
        (.publishing row)
  | retryMissed (jobId : UUID) (jobs : Jobs)
      (h : retryRow s.jobs jobId = .ok (jobs, none)) :
      MutationStep settings s (.retrying jobId) .go { s with jobs := jobs }
        (.explainingRetry jobId)
  | retryRaised (jobId : UUID) (e : ServiceError)
      (h : retryRow s.jobs jobId = .error e) :
      MutationStep settings s (.retrying jobId) .go s (.raised e)
  | retryRefused (jobId : UUID) :
      MutationStep settings s (.explainingRetry jobId) .go s
        (.raised (retryUnmatched jobId (getJob s.jobs jobId)))
  | published (row : Job) (fault : Fault) (redis : Redis) :
      MutationStep settings s (.publishing row) (.redis fault)
        { s with redis := redis } (.retried row)

theorem send_eq (s : Store) (op : QueueOp) (fault : Fault) :
    ∃ redis, (s.send op fault).1 = { s with redis := redis } := by
  cases fault with
  | answered => exact ⟨_, rfl⟩
  | lostRequest => exact ⟨s.redis, rfl⟩
  | lostReply => exact ⟨_, rfl⟩

theorem mutation_redis_step (settings : Settings) (s : Store)
    (p : MutationCall) (fault : Fault) :
    MutationStep settings s p (.redis fault)
      (p.next settings s (.redis fault)).1
      (p.next settings s (.redis fault)).2 := by
  cases p with
  | cleaning row =>
      obtain ⟨redis, hredis⟩ := send_eq s (.currentMember row.id) fault
      simp only [MutationCall.next]
      generalize s.send (.currentMember row.id) fault = sent at hredis ⊢
      obtain ⟨s', reply⟩ := sent
      obtain rfl : s' = _ := hredis
      split
      · next heq =>
          cases heq
          split
          · next candidate _ => exact .cleanUp row candidate fault redis
          · exact .cleaned row fault redis
      · next heq =>
          cases heq
          exact .cleaned row fault redis
  | erasing row candidate =>
      obtain ⟨redis, hredis⟩ := send_eq s (.remove candidate) fault
      simp only [MutationCall.next, hredis]
      exact .erased row candidate fault redis
  | publishing row =>
      obtain ⟨redis, hredis⟩ := send_eq s (.enqueue row.id row.priority) fault
      simp only [MutationCall.next, hredis]
      exact .published row fault redis
  | _ => exact .stay _ _ s.redis rfl

theorem mutation_go_step (settings : Settings) (s : Store)
    (p : MutationCall) :
    MutationStep settings s p .go (p.next settings s .go).1
      (p.next settings s .go).2 := by
  cases p with
  | cancelling jobId =>
      simp only [MutationCall.next]
      split
      · next jobs row h => exact .cancel jobId jobs row h
      · next jobs h => exact .cancelMissed jobId jobs h
      · next e h => exact .cancelRaised jobId e h
  | explainingCancel jobId =>
      simp only [MutationCall.next]
      split
      · next existing h => exact .cancelExplained jobId existing h
      · next e h => exact .cancelRefused jobId e h
  | retrying jobId =>
      simp only [MutationCall.next]
      split
      · next jobs row h => exact .retry jobId jobs row h
      · next jobs h => exact .retryMissed jobId jobs h
      · next e h => exact .retryRaised jobId e h
  | explainingRetry jobId => exact .retryRefused jobId
  | _ => exact .stay _ _ s.redis rfl

/-- Every action of a call is one of the steps. -/
theorem mutation_step (settings : Settings) (pid : ℕ) (s : Store)
    (p : MutationCall) (a : MutationAction) :
    MutationStep settings s p a ((mutations settings).act pid s p a).1
      ((mutations settings).act pid s p a).2.1 := by
  cases a with
  | other op => exact .other p op
  | queue op => exact .stay p _ _ (by cases p <;> rfl)
  | redis fault => exact mutation_redis_step settings s p fault
  | go => exact mutation_go_step settings s p
  | startClaim jobId workerId leaseSeconds =>
      cases p with
      | idle => exact .startClaim jobId workerId leaseSeconds
      | _ => exact .stay _ _ s.redis rfl
  | startCancel jobId =>
      cases p with
      | idle => exact .startCancel jobId
      | _ => exact .stay _ _ s.redis rfl
  | startRetry jobId =>
      cases p with
      | idle => exact .startRetry jobId
      | _ => exact .stay _ _ s.redis rfl
  | claim now token =>
      cases p with
      | claiming jobId workerId leaseSeconds =>
          simp only [mutations, MutationCall.next]
          split
          · next jobs row h =>
              exact .claim jobId workerId leaseSeconds now token jobs row h
          · next e h =>
              exact .claimRaised jobId workerId leaseSeconds now token e h
      | _ => exact .stay _ _ s.redis rfl

/-- A call under way has a next step, whatever the stores hold, and fewer
steps remain after it. -/
theorem MutationCall.next_remaining (settings : Settings) {p : MutationCall}
    (hidle : p ≠ .idle) (hended : p.ended = false) :
    ∃ a ∈ [MutationAction.claim 0 0, .go, .redis .answered],
      ∀ s, (p.next settings s a).2.remaining < p.remaining := by
  cases p with
  | idle => exact absurd rfl hidle
  | claiming jobId workerId leaseSeconds =>
      refine ⟨.claim 0 0, by simp, fun s => ?_⟩
      simp only [MutationCall.next]
      split <;> simp [MutationCall.remaining]
  | cancelling jobId =>
      refine ⟨.go, by simp, fun s => ?_⟩
      simp only [MutationCall.next]
      split <;> simp [MutationCall.remaining]
  | explainingCancel jobId =>
      refine ⟨.go, by simp, fun s => ?_⟩
      simp only [MutationCall.next]
      split <;> simp [MutationCall.remaining]
  | cleaning row =>
      refine ⟨.redis .answered, by simp, fun s => ?_⟩
      simp only [MutationCall.next]
      split
      · split <;> simp [MutationCall.remaining]
      · simp [MutationCall.remaining]
  | erasing row candidate =>
      exact ⟨.redis .answered, by simp, fun s => Nat.zero_lt_one⟩
  | retrying jobId =>
      refine ⟨.go, by simp, fun s => ?_⟩
      simp only [MutationCall.next]
      split <;> simp [MutationCall.remaining]
  | explainingRetry jobId => exact ⟨.go, by simp, fun s => Nat.zero_lt_one⟩
  | publishing row =>
      exact ⟨.redis .answered, by simp, fun s => Nat.zero_lt_one⟩
  | claimed row => cases hended
  | cancelled row => cases hended
  | retried row => cases hended
  | raised error => cases hended

end JobQueue
