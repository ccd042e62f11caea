import JobQueue.Lifecycle.Row
import JobQueue.Service.Statements

/-!
# The service refines the row lifecycle

`changesOf` reads off an answered call which rows it changed and how.  The
main theorem says that this account is complete: under every operation, every
row of the table moves exactly along the changes listed for it, and a row that
is not listed keeps all its fields.  Invariants of the service are then proved
once, over the lifecycle of a single row.
-/

namespace JobQueue

open Support

/-- The change made by recording a failed attempt. -/
def failureChange (cause : Cause) (now : Time) (a : Attempt)
    (error : String) : AttemptOutcome → Change
  | .retryScheduled =>
      .retryScheduled cause now a
        (match retryDelaySeconds a.attemptCount with
          | .ok delay => delay
          | .error _ => 0) error
  | .permanentlyFailed => .permanentlyFailed cause now a error

/-- The rows an answered call changed, each with its change. -/
def changesOf (settings : Settings) :
    Op × Outcome → List (UUID × Change)
  | (_, .ok (.submitted s)) =>
      if s.created then
        s.released.map (fun id => (id, .keyReleased)) ++
          [(s.job.id, .created s.job)]
      else []
  | (_, .ok (.released rows)) => rows.map fun id => (id, .keyReleased)
  | (.claimJob now jobId workerId token leaseSeconds,
      .ok (.claimed (some _))) =>
      [(jobId, .claimed now workerId token
        (leaseDeadline settings now leaseSeconds))]
  | (.extendLease now a _, .ok (.extended deadline)) =>
      [(a.jobId, .leaseExtended now a deadline)]
  | (.updateProgress a progress, .ok .progressed) =>
      [(a.jobId, .progressed a progress)]
  | (.completeJob now a result, .ok (.completed _)) =>
      [(a.jobId, .completed now a result)]
  | (.failAttempt now a error, .ok (.attemptFailed result)) =>
      [(a.jobId, failureChange .worker now a error result.outcome)]
  | (.activateDueScheduledJobs now _ _, .ok (.activated rows)) =>
      rows.map fun r => (r.id, .activated now)
  | (.activateSelected now _, .ok (.activated rows)) =>
      rows.map fun r => (r.id, .activated now)
  | (.recoverExpiredLeases now _ _, .ok (.recovered results)) =>
      results.map fun x =>
        (x.1.jobId,
          failureChange .recovery now x.1 leaseExpiredError x.2.outcome)
  | (.cancelJob jobId, .ok (.cancelled c)) =>
      if c.changed then [(jobId, .cancelled)] else []
  | (.retryJob jobId, .ok (.retried _)) => [(jobId, .retried)]
  | _ => []

/-- The answered call changed the row `id` by `c`: the ways in which
`changesOf` lists a change. -/
inductive Makes (settings : Settings) : Op × Outcome → UUID → Change → Prop
  | keyReleased (op : Op) (rows : List UUID) (id : UUID) (hid : id ∈ rows) :
      Makes settings (op, .ok (.released rows)) id .keyReleased
  | keyReplaced (op : Op) (s : Submitted) (id : UUID)
      (hcreated : s.created = true) (hid : id ∈ s.released) :
      Makes settings (op, .ok (.submitted s)) id .keyReleased
  | created (op : Op) (s : Submitted) (hcreated : s.created = true) :
      Makes settings (op, .ok (.submitted s)) s.job.id (.created s.job)
  | claimed (now : Time) (jobId : UUID) (workerId : String) (token : UUID)
      (leaseSeconds : Option Duration) (row : Job) :
      Makes settings
        (.claimJob now jobId workerId token leaseSeconds,
          .ok (.claimed (some row)))
        jobId
        (.claimed now workerId token
          (leaseDeadline settings now leaseSeconds))
  | leaseExtended (now : Time) (a : Attempt)
      (leaseSeconds : Option Duration) (deadline : Time) :
      Makes settings
        (.extendLease now a leaseSeconds, .ok (.extended deadline))
        a.jobId (.leaseExtended now a deadline)
  | progressed (a : Attempt) (progress : ℤ) :
      Makes settings (.updateProgress a progress, .ok .progressed)
        a.jobId (.progressed a progress)
  | completed (now : Time) (a : Attempt) (result : Jsonb) (row : Job) :
      Makes settings (.completeJob now a result, .ok (.completed row))
        a.jobId (.completed now a result)
  | attemptFailed (now : Time) (a : Attempt) (error : String)
      (result : AttemptResult) :
      Makes settings (.failAttempt now a error, .ok (.attemptFailed result))
        a.jobId (failureChange .worker now a error result.outcome)
  | activated (now : Time) (limit : ℕ) (locked : List UUID)
      (rows : List Job) (r : Job) (hr : r ∈ rows) :
      Makes settings
        (.activateDueScheduledJobs now limit locked, .ok (.activated rows))
        r.id (.activated now)
  | activatedSelected (now : Time) (due : List UUID) (rows : List Job)
      (r : Job) (hr : r ∈ rows) :
      Makes settings (.activateSelected now due, .ok (.activated rows))
        r.id (.activated now)
  | recovered (now : Time) (limit : ℕ) (locked : List UUID)
      (results : List (Attempt × AttemptResult))
      (x : Attempt × AttemptResult) (hx : x ∈ results) :
      Makes settings
        (.recoverExpiredLeases now limit locked, .ok (.recovered results))
        x.1.jobId
        (failureChange .recovery now x.1 leaseExpiredError x.2.outcome)
  | cancelled (jobId : UUID) (c : Cancelled) (hchanged : c.changed = true) :
      Makes settings (.cancelJob jobId, .ok (.cancelled c)) jobId .cancelled
  | retried (jobId : UUID) (row : Job) :
      Makes settings (.retryJob jobId, .ok (.retried row)) jobId .retried

theorem makes_of_mem {settings : Settings} {call : Op × Outcome} {id : UUID}
    {c : Change} (h : (id, c) ∈ changesOf settings call) :
    Makes settings call id c := by
  unfold changesOf at h
  split at h
  · split at h
    · next hcreated =>
        rcases List.mem_append.mp h with hreleased | hrow
        · obtain ⟨k, hmem, hk⟩ := List.mem_map.mp hreleased
          obtain ⟨rfl, rfl⟩ := Prod.mk.inj hk
          exact .keyReplaced _ _ k hcreated hmem
        · obtain ⟨rfl, rfl⟩ := Prod.mk.inj (List.mem_singleton.mp hrow)
          exact .created _ _ hcreated
    · simp at h
  · obtain ⟨k, hmem, hk⟩ := List.mem_map.mp h
    obtain ⟨rfl, rfl⟩ := Prod.mk.inj hk
    exact .keyReleased _ _ k hmem
  · obtain ⟨rfl, rfl⟩ := Prod.mk.inj (List.mem_singleton.mp h)
    exact .claimed _ _ _ _ _ _
  · obtain ⟨rfl, rfl⟩ := Prod.mk.inj (List.mem_singleton.mp h)
    exact .leaseExtended _ _ _ _
  · obtain ⟨rfl, rfl⟩ := Prod.mk.inj (List.mem_singleton.mp h)
    exact .progressed _ _
  · obtain ⟨rfl, rfl⟩ := Prod.mk.inj (List.mem_singleton.mp h)
    exact .completed _ _ _ _
  · obtain ⟨rfl, rfl⟩ := Prod.mk.inj (List.mem_singleton.mp h)
    exact .attemptFailed _ _ _ _
  · obtain ⟨r, hr, hk⟩ := List.mem_map.mp h
    obtain ⟨rfl, rfl⟩ := Prod.mk.inj hk
    exact .activated _ _ _ _ r hr
  · obtain ⟨r, hr, hk⟩ := List.mem_map.mp h
    obtain ⟨rfl, rfl⟩ := Prod.mk.inj hk
    exact .activatedSelected _ _ _ r hr
  · obtain ⟨x, hx, hk⟩ := List.mem_map.mp h
    obtain ⟨rfl, rfl⟩ := Prod.mk.inj hk
    exact .recovered _ _ _ _ x hx
  · split at h
    · next hchanged =>
        obtain ⟨rfl, rfl⟩ := Prod.mk.inj (List.mem_singleton.mp h)
        exact .cancelled _ _ hchanged
    · simp at h
  · obtain ⟨rfl, rfl⟩ := Prod.mk.inj (List.mem_singleton.mp h)
    exact .retried _ _
  · simp at h

/-- The changes of the row stored under `id`, oldest first. -/
def changesFor (id : UUID) (changes : List (UUID × Change)) : List Change :=
  (changes.filter fun x => x.1 = id).map Prod.snd

theorem mem_changesFor {id : UUID} {changes : List (UUID × Change)}
    {c : Change} : c ∈ changesFor id changes ↔ (id, c) ∈ changes := by
  simp [changesFor]

@[simp] theorem changesFor_nil (id : UUID) : changesFor id [] = [] := rfl

theorem changesFor_append (id : UUID) (xs ys : List (UUID × Change)) :
    changesFor id (xs ++ ys) = changesFor id xs ++ changesFor id ys := by
  simp [changesFor]

theorem changesFor_cons (id k : UUID) (c : Change)
    (xs : List (UUID × Change)) :
    changesFor id ((k, c) :: xs) =
      if k = id then c :: changesFor id xs else changesFor id xs := by
  by_cases h : k = id
  · simp [changesFor, h]
  · simp [changesFor, h]

/-! ## Statements -/

/-- An update whose rewriting is a change moves each row by that change. -/
theorem executeUpdate_path {t t' : Jobs} {p : Job → Bool}
    {a : Assignment Job.id} {rows : List Job} {c : Change}
    (h : executeUpdate t p a = .ok (t', rows))
    (hc : ∀ r, p r = true → c.Enabled r ∧ c.apply r = a.set r) (id : UUID) :
    RowPath (t.find? id) (changesFor id (rows.map fun r => (r.id, c)))
      (t'.find? id) := by
  obtain ⟨rfl, rfl⟩ := executeUpdate_eq_ok h
  have hlist : changesFor id ((t.returning p a).map fun r => (r.id, c)) =
      ((t.find? id).filter p).toList.map fun _ => c := by
    have hkey : ∀ r : Job, (p r && decide (r.id = id)) = true → r.id = id := by
      intro r hr
      simp only [Bool.and_eq_true, decide_eq_true_eq] at hr
      exact hr.2
    have hfilter : (t.returning p a).filter (fun r => r.id = id) =
        t.returning (fun r => p r && decide (r.id = id)) a := by
      simp only [KeyedTable.returning, KeyedTable.select, List.filter_map,
        List.filter_filter, Function.comp_def, a.key_set]
      congr 2
      funext r
      exact Bool.and_comm _ _
    have hmap : changesFor id ((t.returning p a).map fun r => (r.id, c)) =
        ((t.returning p a).filter (fun r => r.id = id)).map fun _ => c := by
      simp [changesFor, List.filter_map, Function.comp_def]
    rw [hmap, hfilter, KeyedTable.returning_of_key t hkey]
    cases hr : t.find? id with
    | none => rfl
    | some r =>
        have hid := KeyedTable.key_of_find?_eq_some hr
        by_cases hpr : p r = true
        · simp [Option.filter, hpr, hid]
        · simp [Option.filter, hpr]
  rw [hlist, KeyedTable.find?_updateWhere]
  cases hr : t.find? id with
  | none => exact Trail.nil
  | some r =>
      by_cases hpr : p r = true
      · obtain ⟨henabled, happly⟩ := hc r hpr
        have hstep := RowStep.change henabled
        rw [happly] at hstep
        simpa [Option.filter, hpr] using Trail.single hstep
      · simpa [Option.filter, hpr] using Trail.nil

/-- Rewriting one row by a change moves that row and no other. -/
theorem path_of_rewrites {t t' : Jobs} {k : UUID} {r : Job} {c : Change}
    (hc : c.Enabled r) (h : Rewrites t t' k r (c.apply r)) (id : UUID) :
    RowPath (t.find? id) (changesFor id [(k, c)]) (t'.find? id) := by
  rw [changesFor_cons]
  by_cases hid : k = id
  · subst hid
    rw [if_pos rfl, h.before, h.after]
    exact Trail.single (RowStep.change hc)
  · rw [if_neg hid, h.others id (fun heq => hid heq.symm)]
    exact Trail.nil

theorem executeInsert_path {t t' : Jobs} {job : Job} (hnew : job.IsNew)
    (h : executeInsert t job = .ok t') (id : UUID) :
    RowPath (t.find? id) (changesFor id [(job.id, .created job)])
      (t'.find? id) := by
  obtain ⟨-, -, hfresh, rfl⟩ := executeInsert_eq_ok h
  rw [KeyedTable.find?_insert, changesFor_cons]
  by_cases hid : id = job.id
  · subst hid
    rw [if_pos rfl, if_pos rfl, hfresh]
    exact Trail.single (RowStep.create hnew)
  · rw [if_neg hid, if_neg (fun heq => hid heq.symm)]
    exact Trail.nil

/-! ## Operations -/

theorem ownedBy_id {a : Attempt} {r : Job} (h : ownedBy a r = true) :
    r.id = a.jobId :=
  (ownedBy_iff.mp h).1

theorem claimJob_cases {settings : Settings} {t t' : Jobs} {now : Time}
    {jobId : UUID} {workerId : String} {token : UUID}
    {leaseSeconds : Option Duration} {row : Option Job}
    (h : claimJob settings t now jobId workerId token leaseSeconds =
      .ok (t', row)) :
    (row = none ∧ t' = t ∧
        ∀ r, t.find? jobId = some r → r.isClaimable = false) ∨
      ∃ r, r.isClaimable = true ∧
        row = some ((claim now workerId token
          (leaseDeadline settings now leaseSeconds)).set r) ∧
        Rewrites t t' jobId r ((claim now workerId token
          (leaseDeadline settings now leaseSeconds)).set r) :=
  executeFirst_at h

theorem Job.violatedCheck_claim {r : Job} (hclaimable : r.isClaimable = true)
    (hcheck : r.violatedCheck = none) (now : Time) (workerId : String)
    (token : UUID) (deadline : Time) :
    ((claim now workerId token deadline).set r).violatedCheck = none := by
  have hlt := (Job.isClaimable_iff.mp hclaimable).2
  have hbounds := (Job.violatedCheck_eq_none_iff _).mp hcheck
  rw [Job.violatedCheck_eq_none_iff]
  simp only [claim]
  omega

/-- A claim of a claimable row that passes the check constraints succeeds. -/
theorem claimJob_of_claimable {t : Jobs} {jobId : UUID} {r : Job}
    (hr : t.find? jobId = some r) (hclaimable : r.isClaimable = true)
    (hcheck : r.violatedCheck = none) (settings : Settings) (now : Time)
    (workerId : String) (token : UUID) (leaseSeconds : Option Duration) :
    ∃ t' row, row = (claim now workerId token
          (leaseDeadline settings now leaseSeconds)).set r ∧
      claimJob settings t now jobId workerId token leaseSeconds =
        .ok (t', some row) ∧ Rewrites t t' jobId r row := by
  obtain ⟨t', hclaim, hrw⟩ := executeFirst_at_matched _ hr hclaimable
    (Job.violatedCheck_claim hclaimable hcheck now workerId token
      (leaseDeadline settings now leaseSeconds))
  exact ⟨t', _, rfl, hclaim, hrw⟩

/-- A claim that finds no claimable row returns nothing. -/
theorem claimJob_of_unclaimable {t : Jobs} {jobId : UUID}
    (h : ∀ r, t.find? jobId = some r → r.isClaimable = false)
    (settings : Settings) (now : Time) (workerId : String) (token : UUID)
    (leaseSeconds : Option Duration) :
    claimJob settings t now jobId workerId token leaseSeconds =
      .ok (t, none) :=
  executeFirst_at_unmatched _ h

theorem extendLease_cases {settings : Settings} {t t' : Jobs} {now : Time}
    {a : Attempt} {leaseSeconds : Option Duration} {deadline : Time}
    (h : extendLease settings t now a leaseSeconds = .ok (t', deadline)) :
    deadline = leaseDeadline settings now leaseSeconds ∧
      ∃ r, ownedBy a r = true ∧
        Rewrites t t' a.jobId r ((setLease deadline).set r) := by
  obtain ⟨⟨t₁, row⟩, hfirst, hret⟩ := bind_eq_ok.mp h
  rcases executeFirst_of_key (fun _ => ownedBy_id) hfirst with
    ⟨rfl, rfl, -⟩ | ⟨r, hpr, rfl, hrw⟩
  · cases hret
  · cases hret
    exact ⟨rfl, r, hpr, hrw⟩

theorem updateProgress_cases {t t' : Jobs} {a : Attempt} {progress : ℤ}
    {u : Unit} (h : updateProgress t a progress = .ok (t', u)) :
    ∃ r, ownedBy a r = true ∧
      Rewrites t t' a.jobId r ((setProgress progress).set r) := by
  obtain ⟨⟨t₁, rows⟩, hupdate, hret⟩ := bind_eq_ok.mp h
  rcases executeUpdate_of_key (fun _ => ownedBy_id) hupdate with
    ⟨rfl, rfl, -⟩ | ⟨r, hpr, rfl, hrw⟩
  · cases hret
  · cases hret
    exact ⟨r, hpr, hrw⟩

theorem completeJob_cases {t t' : Jobs} {now : Time} {a : Attempt}
    {result : Jsonb} {row : Job}
    (h : completeJob t now a result = .ok (t', row)) :
    ∃ r, ownedBy a r = true ∧ row = (complete now result).set r ∧
      Rewrites t t' a.jobId r ((complete now result).set r) := by
  obtain ⟨⟨t₁, row'⟩, hfirst, hret⟩ := bind_eq_ok.mp h
  rcases executeFirst_of_key (fun _ => ownedBy_id) hfirst with
    ⟨rfl, rfl, -⟩ | ⟨r, hpr, rfl, hrw⟩
  · cases hret
  · cases hret
    exact ⟨r, hpr, rfl, hrw⟩

/-- The extra condition recovery adds to a failed-attempt write. -/
def Cause.guarded : Cause → Bool
  | .worker => false
  | .recovery => true

theorem Cause.allows_of_guarded {cause : Cause} {now : Time} {r : Job}
    (h : (!cause.guarded || r.leaseExpired now) = true) :
    cause.Allows now r := by
  cases cause with
  | worker => trivial
  | recovery => simpa [Cause.guarded, Cause.Allows] using h

theorem applyFailedAttempt_cases {t t' : Jobs} {now : Time} {a : Attempt}
    {error : String} (cause : Cause) {result : Option AttemptResult}
    (h : applyFailedAttempt t now a error cause.guarded = .ok (t', result)) :
    (result = none ∧ t' = t) ∨
      ∃ r outcome, (failureChange cause now a error outcome).Enabled r ∧
        result = some ⟨outcome,
          (failureChange cause now a error outcome).apply r⟩ ∧
        Rewrites t t' a.jobId r
          ((failureChange cause now a error outcome).apply r) := by
  have hid : ∀ (q : Job → Bool) (r : Job),
      (ownedBy a r && q r && (!cause.guarded || r.leaseExpired now)) = true →
      r.id = a.jobId := by
    intro q r hr
    simp only [Bool.and_eq_true] at hr
    exact ownedBy_id hr.1.1
  unfold applyFailedAttempt at h
  split at h
  · obtain ⟨delay, hdelay, h⟩ := bind_eq_ok.mp h
    obtain ⟨⟨t₁, row⟩, hfirst, hret⟩ := bind_eq_ok.mp h
    cases hret
    rcases executeFirst_of_key (hid _) hfirst with
      ⟨rfl, rfl, -⟩ | ⟨r, hpr, rfl, hrw⟩
    · exact Or.inl ⟨rfl, rfl⟩
    · simp only [Bool.and_eq_true, decide_eq_true_eq] at hpr
      have happly : (failureChange cause now a error .retryScheduled).apply r =
          (scheduleRetry now delay error).set r := by
        simp [failureChange, Change.apply, hdelay]
      refine Or.inr ⟨r, .retryScheduled, ?_, ?_, ?_⟩
      · simp only [failureChange, hdelay]
        exact ⟨hpr.1.1, hpr.1.2, hdelay, Cause.allows_of_guarded hpr.2⟩
      · rw [happly]
        rfl
      · rw [happly]
        exact hrw
  · obtain ⟨⟨t₁, row⟩, hfirst, hret⟩ := bind_eq_ok.mp h
    cases hret
    rcases executeFirst_of_key (hid _) hfirst with
      ⟨rfl, rfl, -⟩ | ⟨r, hpr, rfl, hrw⟩
    · exact Or.inl ⟨rfl, rfl⟩
    · simp only [Bool.and_eq_true, decide_eq_true_eq] at hpr
      exact Or.inr ⟨r, .permanentlyFailed,
        ⟨hpr.1.1, hpr.1.2, Cause.allows_of_guarded hpr.2⟩, rfl, hrw⟩

theorem failAttempt_cases {t t' : Jobs} {now : Time} {a : Attempt}
    {error : String} {result : AttemptResult}
    (h : failAttempt t now a error = .ok (t', result)) :
    ∃ r, (failureChange .worker now a error result.outcome).Enabled r ∧
      result.job = (failureChange .worker now a error result.outcome).apply r ∧
      Rewrites t t' a.jobId r
        ((failureChange .worker now a error result.outcome).apply r) := by
  obtain ⟨⟨t₁, result'⟩, happly, hret⟩ := bind_eq_ok.mp h
  rcases applyFailedAttempt_cases .worker happly with
    ⟨rfl, rfl⟩ | ⟨r, outcome, henabled, rfl, hrw⟩
  · cases hret
  · cases hret
    exact ⟨r, henabled, rfl, hrw⟩

theorem cancelRow_cases {t t' : Jobs} {jobId : UUID} {row : Option Job}
    (h : cancelRow t jobId = .ok (t', row)) :
    (row = none ∧ t' = t ∧
        ∀ r, t.find? jobId = some r → cancellable r.status = false) ∨
      ∃ r, cancellable r.status = true ∧ row = some (cancel.set r) ∧
        Rewrites t t' jobId r (cancel.set r) :=
  executeFirst_at h

theorem cancelJob_cases {t t' : Jobs} {jobId : UUID} {c : Cancelled}
    (h : cancelJob t jobId = .ok (t', c)) :
    (c.changed = false ∧ t' = t) ∨
      c.changed = true ∧ ∃ r, cancellable r.status = true ∧
        c.job = cancel.set r ∧ Rewrites t t' jobId r (cancel.set r) := by
  obtain ⟨⟨t₁, row⟩, hrow, hret⟩ := bind_eq_ok.mp h
  rcases cancelRow_cases hrow with ⟨rfl, rfl, -⟩ | ⟨r, hr, rfl, hrw⟩
  · obtain ⟨existing, -, hret⟩ := bind_eq_ok.mp hret
    cases hret
    exact Or.inl ⟨rfl, rfl⟩
  · cases hret
    exact Or.inr ⟨rfl, r, hr, rfl, hrw⟩

theorem retryRow_cases {t t' : Jobs} {jobId : UUID} {row : Option Job}
    (h : retryRow t jobId = .ok (t', row)) :
    (row = none ∧ t' = t ∧
        ∀ r, t.find? jobId = some r → r.status ≠ .failed) ∨
      ∃ r, r.status = .failed ∧ row = some (restart.set r) ∧
        Rewrites t t' jobId r (restart.set r) := by
  rcases executeFirst_at h with ⟨rfl, rfl, hnone⟩ | ⟨r, hq, rfl, hrw⟩
  · refine Or.inl ⟨rfl, rfl, ?_⟩
    intro r hr
    exact of_decide_eq_false (hnone r hr)
  · exact Or.inr ⟨r, of_decide_eq_true hq, rfl, hrw⟩

theorem retryJob_cases {t t' : Jobs} {jobId : UUID} {row : Job}
    (h : retryJob t jobId = .ok (t', row)) :
    ∃ r, r.status = .failed ∧ row = restart.set r ∧
      Rewrites t t' jobId r (restart.set r) := by
  obtain ⟨⟨t₁, row'⟩, hrow, hret⟩ := bind_eq_ok.mp h
  rcases retryRow_cases hrow with ⟨rfl, rfl, -⟩ | ⟨r, hr, rfl, hrw⟩
  · cases hret
  · cases hret
    exact ⟨r, hr, rfl, hrw⟩

/-! ## Submissions and sweeps -/

theorem releaseExpiredKey_path {t t' : Jobs} {key : String} {now : Time}
    {released : List UUID}
    (h : releaseExpiredKey t key now = .ok (t', released)) (id : UUID) :
    RowPath (t.find? id)
      (changesFor id (released.map fun k => (k, .keyReleased)))
      (t'.find? id) := by
  obtain ⟨⟨t₁, rows⟩, hupdate, hret⟩ := bind_eq_ok.mp h
  cases hret
  have hpath := executeUpdate_path (c := .keyReleased) hupdate
    (fun _ _ => ⟨trivial, rfl⟩) id
  simpa [Function.comp_def] using hpath

/-- A submission that inserts its row first releases the expired holder of
the key; a submission that does not insert has no effect. -/
theorem insertJob_cases {t t' : Jobs} {clock : SubmitClock} {id : UUID}
    {request : JobCreateRequest} {key : Option String} {s : Submitted}
    (h : insertJob t clock id request key = .ok (t', s)) :
    (s.created = false ∧ t' = t) ∨
      (s.created = true ∧ s.job.IsNew ∧ ∃ t₁,
        (∀ k, RowPath (t.find? k)
          (changesFor k (s.released.map fun k => (k, .keyReleased)))
          (t₁.find? k)) ∧
        executeInsert t₁ s.job = .ok t') := by
  obtain ⟨t₁, released, row, hrelease, hbuild, hcases⟩ := insertJob_eq_ok h
  have hpath : ∀ k, RowPath (t.find? k)
      (changesFor k (released.map fun k => (k, Change.keyReleased)))
      (t₁.find? k) := by
    intro k
    unfold releaseBeforeInsert at hrelease
    split at hrelease
    · exact releaseExpiredKey_path hrelease k
    · cases hrelease
      exact Trail.nil
  rcases hcases with ⟨rfl, hinsert⟩ | ⟨winner, rfl, rfl, -⟩
  · exact Or.inr ⟨rfl, ⟨request, key, clock.build, clock.database, id, hbuild⟩,
      t₁, hpath, hinsert⟩
  · exact Or.inl ⟨rfl, rfl⟩

theorem createJob_cases {t t' : Jobs} {clock : SubmitClock} {id : UUID}
    {request : JobCreateRequest} {key : Option String} {s : Submitted}
    (h : createJob t clock id request key = .ok (t', s)) :
    (s.created = false ∧ t' = t) ∨
      insertJob t clock id request key = .ok (t', s) := by
  unfold createJob at h
  split at h
  · split at h
    · cases h
      exact Or.inl ⟨rfl, rfl⟩
    · exact Or.inr h
  · exact Or.inr h

theorem insertJob_path {settings : Settings} {op : Op} {t t' : Jobs}
    {clock : SubmitClock} {id : UUID} {request : JobCreateRequest}
    {key : Option String} {s : Submitted}
    (h : insertJob t clock id request key = .ok (t', s)) (k : UUID) :
    RowPath (t.find? k)
      (changesFor k (changesOf settings (op, .ok (.submitted s))))
      (t'.find? k) := by
  rcases insertJob_cases h with
    ⟨hcreated, rfl⟩ | ⟨hcreated, hnew, t₁, hrelease, hinsert⟩
  · simp only [changesOf, hcreated]
    exact Trail.nil
  · simp only [changesOf, hcreated, if_true, changesFor_append]
    exact (hrelease k).append (executeInsert_path hnew hinsert k)

theorem activateSelected_path {t t' : Jobs} {now : Time} {due : List UUID}
    {rows : List Job} (h : activateSelected t now due = .ok (t', rows))
    (id : UUID) :
    RowPath (t.find? id)
      (changesFor id (rows.map fun r => (r.id, .activated now)))
      (t'.find? id) := by
  apply executeUpdate_path h
  intro r hr
  simp only [Bool.and_eq_true] at hr
  exact ⟨hr.2, rfl⟩

/-- The change each result of a recovery sweep stands for. -/
def recoveryChange (now : Time) (x : Attempt × AttemptResult) :
    UUID × Change :=
  (x.1.jobId, failureChange .recovery now x.1 leaseExpiredError x.2.outcome)

theorem recoverRows_path {now : Time} {jobs : List Job} {t t' : Jobs}
    {results : List (Attempt × AttemptResult)}
    (h : recoverRows now jobs t = .ok (t', results)) (id : UUID) :
    RowPath (t.find? id)
      (changesFor id (results.map (recoveryChange now))) (t'.find? id) := by
  induction jobs generalizing t results with
  | nil =>
      cases h
      exact Trail.nil
  | cons job rest ih =>
      obtain ⟨a, -, hloop⟩ := bind_eq_ok.mp h
      obtain ⟨⟨t₁, result⟩, happly, hnext⟩ := bind_eq_ok.mp hloop
      obtain ⟨⟨t₂, recovered⟩, hrest, hret⟩ := bind_eq_ok.mp hnext
      rcases applyFailedAttempt_cases .recovery happly with
        ⟨rfl, rfl⟩ | ⟨r, outcome, henabled, rfl, hrw⟩
      · cases hret
        exact ih hrest
      · cases hret
        have hpath := (path_of_rewrites henabled hrw id).append (ih hrest)
        rw [← changesFor_append] at hpath
        exact hpath

/-! ## The refinement -/

/-- Under every operation that returns, every row moves along the changes the
call accounts for. -/
theorem execute_path {settings : Settings} {op : Op} {t t' : Jobs}
    {reply : Reply} (h : op.execute settings t = .ok (t', reply))
    (id : UUID) :
    RowPath (t.find? id)
      (changesFor id (changesOf settings (op, .ok reply))) (t'.find? id) := by
  cases op with
  | createJob clock jobId request key =>
      obtain ⟨s, hs, rfl⟩ := answer_eq_ok h
      rcases createJob_cases hs with ⟨hcreated, rfl⟩ | hinsert
      · simp only [changesOf, hcreated]
        exact Trail.nil
      · exact insertJob_path hinsert id
  | insertJob clock jobId request key =>
      obtain ⟨s, hs, rfl⟩ := answer_eq_ok h
      exact insertJob_path hs id
  | releaseExpiredKey key now =>
      obtain ⟨rows, hrows, rfl⟩ := answer_eq_ok h
      exact releaseExpiredKey_path hrows id
  | claimJob now jobId workerId token leaseSeconds =>
      obtain ⟨row, hrow, rfl⟩ := answer_eq_ok h
      rcases claimJob_cases hrow with ⟨rfl, rfl, -⟩ | ⟨r, hr, rfl, hrw⟩
      · exact Trail.nil
      · exact path_of_rewrites
          (c := .claimed now workerId token _) hr hrw id
  | extendLease now a leaseSeconds =>
      obtain ⟨deadline, hd, rfl⟩ := answer_eq_ok h
      obtain ⟨-, r, hr, hrw⟩ := extendLease_cases hd
      exact path_of_rewrites (c := .leaseExtended now a deadline) hr hrw id
  | updateProgress a progress =>
      obtain ⟨u, hu, rfl⟩ := answer_eq_ok h
      obtain ⟨r, hr, hrw⟩ := updateProgress_cases hu
      exact path_of_rewrites (c := .progressed a progress) hr hrw id
  | completeJob now a result =>
      obtain ⟨row, hrow, rfl⟩ := answer_eq_ok h
      obtain ⟨r, hr, -, hrw⟩ := completeJob_cases hrow
      exact path_of_rewrites (c := .completed now a result) hr hrw id
  | failAttempt now a error =>
      obtain ⟨result, hresult, rfl⟩ := answer_eq_ok h
      obtain ⟨r, hr, -, hrw⟩ := failAttempt_cases hresult
      exact path_of_rewrites hr hrw id
  | activateDueScheduledJobs now limit locked =>
      obtain ⟨rows, hrows, rfl⟩ := answer_eq_ok h
      exact activateSelected_path hrows id
  | activateSelected now due =>
      obtain ⟨rows, hrows, rfl⟩ := answer_eq_ok h
      exact activateSelected_path hrows id
  | recoverExpiredLeases now limit locked =>
      obtain ⟨results, hresults, rfl⟩ := answer_eq_ok h
      exact recoverRows_path hresults id
  | cancelJob jobId =>
      obtain ⟨c, hcancel, rfl⟩ := answer_eq_ok h
      rcases cancelJob_cases hcancel with
        ⟨hchanged, rfl⟩ | ⟨hchanged, r, hr, -, hrw⟩
      · simp only [changesOf, hchanged]
        exact Trail.nil
      · simp only [changesOf, hchanged, if_true]
        exact path_of_rewrites (c := .cancelled) hr hrw id
  | retryJob jobId =>
      obtain ⟨row, hrow, rfl⟩ := answer_eq_ok h
      obtain ⟨r, hr, -, hrw⟩ := retryJob_cases hrow
      exact path_of_rewrites (c := .retried) hr hrw id

theorem changesOf_error (settings : Settings) (op : Op) (e : ServiceError) :
    changesOf settings (op, .error e) = [] := by
  cases op <;> rfl

/-- One step of the service moves every row along its accounted changes. -/
theorem service_step_path (settings : Settings) (t : Jobs) (op : Op)
    (id : UUID) :
    RowPath (t.find? id)
      (changesFor id
        (changesOf settings (op, ((service settings).step t op).2)))
      (((service settings).step t op).1.find? id) := by
  simp only [service]
  cases h : op.execute settings t with
  | error e =>
      simp only [settle, changesOf_error]
      exact Trail.nil
  | ok result => exact execute_path h id

/-- The changes of one row along a run of the service from the table `t`. -/
def historyFrom (settings : Settings) (t : Jobs) (ops : List Op)
    (id : UUID) : List Change :=
  ((service settings).trace t ops).flatMap fun call =>
    changesFor id (changesOf settings call)

def historyOf (settings : Settings) (ops : List Op) (id : UUID) :
    List Change :=
  historyFrom settings KeyedTable.empty ops id

theorem tableAfter_append (settings : Settings) (ops later : List Op) :
    tableAfter settings (ops ++ later) =
      (service settings).run (tableAfter settings ops) later :=
  (service settings).run_append _ ops later

theorem callsOf_append (settings : Settings) (ops later : List Op) :
    callsOf settings (ops ++ later) =
      callsOf settings ops ++
        (service settings).trace (tableAfter settings ops) later :=
  (service settings).trace_append _ ops later

/-- Every run of the service projects to the lifecycle of every row. -/
theorem service_path_from (settings : Settings) (t : Jobs) (ops : List Op)
    (id : UUID) :
    RowPath (t.find? id) (historyFrom settings t ops id)
      (((service settings).run t ops).find? id) :=
  (service settings).trail_of_step (fun t => t.find? id)
    (fun call => changesFor id (changesOf settings call))
    (fun t op => service_step_path settings t op id) t ops

theorem service_run_path (settings : Settings) (ops : List Op) (id : UUID) :
    RowPath none (historyOf settings ops id)
      ((tableAfter settings ops).find? id) :=
  service_path_from settings KeyedTable.empty ops id

end JobQueue
