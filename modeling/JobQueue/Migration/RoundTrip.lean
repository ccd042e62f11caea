import JobQueue.Lifecycle.Endings
import JobQueue.Migration.ExecutionToken

/-!
# Down and up again

`downgrade()` of revision 0002 drops the column of the execution tokens, and
`upgrade()` adds it again.  At any time in the life of the service this brings
every row back as it was, except that a job that was being processed is due at
once and owned by nobody.  Workers of the time before may still be busy with
such a job; their writes are rejected for ever.  The lifecycle of the rows goes
on as if nothing had happened exactly when no job was in its last attempt.
-/

namespace JobQueue

open Support

/-- `DROP COLUMN execution_token`, on one row. -/
def Job.dropToken (r : Job) : LegacyJob where
  id := r.id
  type := r.type
  payload := r.payload
  status := r.status
  priority := r.priority
  attemptCount := r.attemptCount
  maxAttempts := r.maxAttempts
  progress := r.progress
  result := r.result
  error := r.error
  scheduledAt := r.scheduledAt
  createdAt := r.createdAt
  startedAt := r.startedAt
  completedAt := r.completedAt
  workerId := r.workerId
  leaseExpiresAt := r.leaseExpiresAt
  idempotencyKey := r.idempotencyKey
  idempotencyExpiresAt := r.idempotencyExpiresAt

def downgrade (t : Jobs) : LegacyJobs :=
  t.map Job.dropToken fun _ => rfl

/-! ## One row -/

theorem Job.addToken_dropToken {r : Job} (h : r.executionToken = none) :
    r.dropToken.addToken = r := by
  cases r
  cases h
  rfl

theorem Job.Wellformed.token_none {r : Job} (h : r.Wellformed)
    (hstatus : r.status ≠ .processing) : r.executionToken = none := by
  rw [← Option.not_isSome_iff_eq_none]
  intro hsome
  exact hstatus (h.ownership.worker.mpr (h.ownership.token.mpr hsome))

theorem Job.Wellformed.isLegal {r : Job} (h : r.Wellformed) :
    r.dropToken.isLegal = true := by
  obtain ⟨hmax, hnonneg, hle, hprogress, hprogress', -⟩ := h.counters
  simp only [LegacyJob.isLegal, Job.dropToken, hmax] at hle ⊢
  simp [hnonneg, hle, hprogress, hprogress']

/-- A row after its way down and up. -/
def Job.returned (now : Time) (r : Job) : Job :=
  if r.status = .processing then (releasePreToken now).set r else r

theorem Job.Wellformed.upgraded_dropToken {r : Job} (h : r.Wellformed)
    (now : Time) : r.dropToken.upgraded now = r.returned now := by
  by_cases hstatus : r.status = .processing
  · have hlegacy : r.dropToken.status = .processing := hstatus
    rw [LegacyJob.upgraded, if_pos hlegacy, Job.returned, if_pos hstatus]
    rfl
  · have hlegacy : r.dropToken.status ≠ .processing := hstatus
    rw [LegacyJob.upgraded, if_neg hlegacy, Job.returned, if_neg hstatus,
      Job.addToken_dropToken (h.token_none hstatus)]

theorem Job.Wellformed.token_returned {r : Job} (h : r.Wellformed)
    (now : Time) : (r.returned now).executionToken = none := by
  by_cases hstatus : r.status = .processing
  · rw [Job.returned, if_pos hstatus]
    rfl
  · rw [Job.returned, if_neg hstatus]
    exact h.token_none hstatus

/-- Only a job in its last attempt comes back as no run leaves it. -/
theorem Job.Wellformed.returned_iff {r : Job} (h : r.Wellformed) (now : Time) :
    (r.returned now).Wellformed ↔
      (r.status = .processing → r.attemptCount < r.maxAttempts) := by
  by_cases hstatus : r.status = .processing
  · rw [Job.returned, if_pos hstatus]
    constructor
    · intro hreturned _
      exact hreturned.counters.waiting (Or.inr (Or.inl rfl))
    · intro hleft
      have hcounters := h.counters
      have houtcome := h.outcome
      refine ⟨⟨?_, Iff.rfl, Iff.rfl⟩, ⟨hcounters.maxAttempts,
        hcounters.attempt_nonneg, hcounters.attempt_le,
        hcounters.progress_nonneg, hcounters.progress_le,
        fun _ => hleft hstatus, ?_, ?_, hcounters.started⟩,
        ⟨?_, fun _ => rfl, ?_, ?_, ?_, houtcome.key⟩⟩
      · simp [releasePreToken]
      · rintro (hs | hs) <;> cases hs
      · rintro ⟨⟩
      · rintro ⟨⟩
      · have hnone := houtcome.completedAt
        rw [hstatus] at hnone
        simpa [releasePreToken] using hnone
      · have hnone := houtcome.result
        rw [hstatus] at hnone
        simpa [releasePreToken] using hnone
      · rintro ⟨⟩
  · rw [Job.returned, if_neg hstatus]
    exact ⟨fun _ hs => absurd hs hstatus, fun _ => h⟩

/-! ## The table -/

/-- Going down and up rewrites a table row by row. -/
theorem upgrade_downgrade (now : Time) {t : Jobs} (h : Jobs.Wellformed t) :
    ∃ t', upgrade now (downgrade t) = .ok t' ∧
      t'.rows = t.rows.map (Job.returned now) := by
  have hlegal : ∀ j ∈ (downgrade t).rows, j.isLegal = true := by
    intro j hj
    obtain ⟨r, hr, rfl⟩ := List.mem_map.mp hj
    exact (h.of_mem hr).isLegal
  obtain ⟨t', hupgrade, hrows⟩ := upgrade_eq now hlegal
  refine ⟨t', hupgrade, ?_⟩
  rw [hrows]
  change (t.rows.map Job.dropToken).map (LegacyJob.upgraded now) = _
  rw [List.map_map]
  apply List.map_congr_left
  intro r hr
  exact (h.of_mem hr).upgraded_dropToken now

/-- The data step of the upgrade touches nothing while the service runs. -/
theorem releasePreToken_inert (now : Time) {t : Jobs}
    (h : Jobs.Wellformed t) :
    executeUpdate t Job.isPreToken (releasePreToken now) = .ok (t, []) := by
  have hnone : ∀ r ∈ t.rows, r.isPreToken = false := by
    intro r hr
    have howner := (h.of_mem hr).ownership
    by_contra hpre
    rw [Bool.not_eq_false, Job.isPreToken, Bool.and_eq_true,
      decide_eq_true_eq, Option.isNone_iff_eq_none] at hpre
    have hsome := howner.token.mp (howner.worker.mp hpre.1)
    rw [hpre.2] at hsome
    cases hsome
  have hselect : t.select Job.isPreToken = [] := by
    apply List.filter_eq_nil_iff.mpr
    intro r hr
    simp [hnone r hr]
  rw [executeUpdate, KeyedTable.returning, hselect,
    KeyedTable.updateWhere_eq_self hnone]
  rfl

theorem HandedOut.token_mem {settings : Settings} {ops : List Op}
    {a : Attempt} (h : HandedOut settings ops a) :
    a.executionToken ∈ mintedTokens ops := by
  obtain ⟨before, op, after, rfl, hobtained⟩ := h
  exact List.mem_filterMap.mpr ⟨op, by simp, hobtained.live.1⟩

/-- On a table without tokens, no later run accepts a token it does not draw
itself. -/
theorem rejected_of_untouched {settings : Settings} {t : Jobs}
    (hnone : ∀ r ∈ t.rows, r.executionToken = none) {a : Attempt}
    (ha : a.Schedulable) {later : List Op}
    (hfresh : a.executionToken ∉ mintedTokens later) (w : FencedWrite) :
    Rejected settings ((service settings).run t later) a w := by
  refine rejected_of_token_ne settings ha (fun s hs htoken => ?_) w
  have hpath := service_path_from settings t later a.jobId
  rw [hs] at hpath
  rcases hpath.token_origin htoken with ⟨r, hr, hstart⟩ | ⟨c, hc, hmint⟩
  · rw [hnone r (KeyedTable.find?_eq_some_iff.mp hr).1] at hstart
    cases hstart
  · exact hfresh (claimedToken_mem_mintedTokens hc hmint)

/-- Down and up again, after any run of the service.  The migration goes
through; jobs that were being processed come back due at once and without an
owner, all others as they were.  Whatever the service does later, every write
of an attempt of the time before is rejected.  And all rows of all later runs
are well formed, exactly when no job was in its last attempt.  Run once more on
the table the service had made, the data step of the upgrade would have changed
nothing. -/
theorem downgrade_upgrade_round_trip (settings : Settings) (ops : List Op)
    (now : Time) :
    let t := tableAfter settings ops
    executeUpdate t Job.isPreToken (releasePreToken now) = .ok (t, []) ∧
    ∃ t', upgrade now (downgrade t) = .ok t' ∧
      t'.rows = t.rows.map (Job.returned now) ∧
      (∀ a, HandedOut settings ops a → ∀ later,
        (mintedTokens (ops ++ later)).Nodup →
        ∀ w, Rejected settings ((service settings).run t' later) a w) ∧
      ((∀ later, Jobs.Wellformed ((service settings).run t' later)) ↔
        ∀ r ∈ t.rows, r.status = .processing →
          r.attemptCount < r.maxAttempts) := by
  intro t
  have hwf : Jobs.Wellformed t := tableAfter_wellformed settings ops
  obtain ⟨t', hupgrade, hrows⟩ := upgrade_downgrade now hwf
  have hnone : ∀ r ∈ t'.rows, r.executionToken = none := by
    intro r hr
    rw [hrows] at hr
    obtain ⟨r₀, hr₀, rfl⟩ := List.mem_map.mp hr
    exact (hwf.of_mem hr₀).token_returned now
  refine ⟨releasePreToken_inert now hwf, t', hupgrade, hrows, ?_, ?_⟩
  · intro a ha later htokens w
    refine rejected_of_untouched hnone ha.schedulable (fun hmint => ?_) w
    rw [mintedTokens, List.filterMap_append] at htokens
    exact List.disjoint_of_nodup_append htokens ha.token_mem hmint
  · constructor
    · intro hlater r hr
      have hreturned : r.returned now ∈ t'.rows := by
        rw [hrows]
        exact List.mem_map_of_mem hr
      exact ((hwf.of_mem hr).returned_iff now).mp
        ((hlater []).of_mem hreturned)
    · intro hleft later
      refine Jobs.Wellformed.of_path (t := t') (fun id s hs => ?_)
        fun id => ⟨_, service_path_from settings t' later id⟩
      have hmem := (KeyedTable.find?_eq_some_iff.mp hs).1
      rw [hrows] at hmem
      obtain ⟨r, hr, rfl⟩ := List.mem_map.mp hmem
      exact ((hwf.of_mem hr).returned_iff now).mpr (hleft r hr)

end JobQueue
