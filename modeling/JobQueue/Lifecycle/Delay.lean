import JobQueue.Lifecycle.Lease
import JobQueue.Lifecycle.Recovery
import JobQueue.Lifecycle.Transitions

/-!
# Delayed work

A job that waits for a time leaves `SCHEDULED` only by a due activation or by
cancellation, and cancellation is for ever.  So every claim of the job comes
after an activation at or after that time, whichever queue entries lead to the
claim, and on a clock that does not run backwards no claim is early.
-/

namespace JobQueue

open Support

/-! ## One row -/

/-- What has become of a row that was `SCHEDULED` for the time `due`. -/
def Delayed (due : Time) (cs : List Change) (r? : Option Job) : Prop :=
  (∃ r, r? = some r ∧ r.status = .scheduled ∧ r.scheduledAt = some due) ∨
    (∃ r, r? = some r ∧ r.status = .cancelled) ∨
    ∃ now, Change.activated now ∈ cs ∧ due ≤ now

/-- A waiting row can lose its key, be activated when due, or be cancelled. -/
theorem Change.of_scheduled {r : Job} {c : Change} (hc : c.Enabled r)
    (hr : r.status = .scheduled) :
    c = .keyReleased ∨ c = .cancelled ∨
      ∃ now at_, c = .activated now ∧ r.scheduledAt = some at_ ∧
        at_ ≤ now := by
  have howned : ∀ a, ownedBy a r ≠ true := by
    intro a ha
    rw [(ownedBy_iff.mp ha).2.1] at hr
    cases hr
  have hleaves : c.target.isSome → c.leaves .scheduled = true := by
    intro hmoves
    rw [← hr]
    exact Change.leaves_of_enabled hc hmoves
  cases c with
  | keyReleased => exact Or.inl rfl
  | cancelled => exact Or.inr (Or.inl rfl)
  | activated now =>
      obtain ⟨-, at_, hat, hle⟩ := Job.isDue_iff.mp hc
      exact Or.inr (Or.inr ⟨now, at_, rfl, hat, hle⟩)
  | created row => exact hc.elim
  | leaseExtended now a deadline => exact absurd hc (howned a)
  | progressed a progress => exact absurd hc (howned a)
  | _ => cases hleaves rfl

theorem Delayed.step {due : Time} {cs : List Change} {r? s? : Option Job}
    {c : Change} (h : Delayed due cs r?) (hstep : RowStep r? c s?) :
    Delayed due (cs ++ [c]) s? := by
  rcases h with ⟨r, rfl, hr, hdue⟩ | ⟨r, rfl, hr⟩ | ⟨now, hnow, hle⟩
  · cases hstep with
    | change hc =>
        rcases Change.of_scheduled hc hr with
          rfl | rfl | ⟨now, at_, rfl, hat, hle⟩
        · exact Or.inl ⟨_, rfl, hr, hdue⟩
        · exact Or.inr (Or.inl ⟨_, rfl, rfl⟩)
        · obtain rfl := Option.some.inj (hdue.symm.trans hat)
          exact Or.inr (Or.inr ⟨now, by simp, hle⟩)
  · cases hstep with
    | change hc =>
        have hfinal : r.status.isFinal = true := by
          simp [JobStatus.isFinal, hr]
        rw [Change.keyReleased_of_final hc hfinal]
        exact Or.inr (Or.inl ⟨_, rfl, hr⟩)
  · exact Or.inr (Or.inr ⟨now, by simp [hnow], hle⟩)

/-- Whatever path a waiting row takes, it is accounted for. -/
theorem RowPath.delayed {due : Time} {r : Job} {cs : List Change}
    {s? : Option Job} (h : RowPath (some r) cs s?)
    (hr : r.status = .scheduled) (hdue : r.scheduledAt = some due) :
    Delayed due cs s? :=
  Trail.invariant (P := Delayed due) (Or.inl ⟨r, rfl, hr, hdue⟩)
    (fun _ _ _ _ hb hstep => hb.step hstep) h

/-! ## Runs -/

theorem ClockNondecreasing.le {before after : List Op} {op op' : Op}
    {x y : Time} (h : ClockNondecreasing (before ++ op' :: after))
    (hop : op ∈ before) (hx : op.databaseTime = some x)
    (hy : op'.databaseTime = some y) : x ≤ y := by
  rw [ClockNondecreasing, List.filterMap_append] at h
  apply (List.pairwise_append.mp h).2.2
  · exact List.mem_filterMap.mpr ⟨op, hop, hx⟩
  · exact List.mem_filterMap.mpr ⟨op', by simp, hy⟩

/-- An activation in the history of a row is an operation of the run. -/
theorem databaseTime_of_activated {settings : Settings} {t : Jobs}
    {ops : List Op} {id : UUID} {now : Time}
    (h : Change.activated now ∈ historyFrom settings t ops id) :
    ∃ op ∈ ops, op.databaseTime = some now := by
  obtain ⟨call, hcall, hc⟩ := List.mem_flatMap.mp h
  refine ⟨call.1, ?_, ?_⟩
  · rw [← (service settings).map_fst_trace t ops]
    exact List.mem_map_of_mem hcall
  · have hmakes := makes_of_mem (mem_changesFor.mp hc)
    generalize hactivated : Change.activated now = c at hmakes
    cases hmakes with
    | activated now' limit locked rows r hr =>
        cases hactivated
        rfl
    | activatedSelected now' due rows r hr =>
        cases hactivated
        rfl
    | attemptFailed now' a error result =>
        cases houtcome : result.outcome <;> rw [houtcome] at hactivated <;>
          cases hactivated
    | recovered now' limit locked results x hx =>
        cases houtcome : x.2.outcome <;> rw [houtcome] at hactivated <;>
          cases hactivated
    | _ => cases hactivated

theorem claimable_of_claimed {settings : Settings} {t : Jobs} {now : Time}
    {jobId : UUID} {workerId : String} {token : UUID}
    {leaseSeconds : Option Duration} {row : Job}
    (h : ((service settings).step t
      (.claimJob now jobId workerId token leaseSeconds)).2 =
        .ok (.claimed (some row))) :
    ∃ r, t.find? jobId = some r ∧ r.isClaimable = true := by
  obtain ⟨row', hclaim, heq⟩ := answer_eq_ok (execute_of_step_ok h)
  cases heq
  rcases claimJob_cases hclaim with ⟨hnone, -⟩ | ⟨r, hr, -, hrw⟩
  · cases hnone
  · exact ⟨r, hrw.before, hr⟩

/-- A job that was `SCHEDULED` for `due` is not claimed before. -/
theorem claim_not_early {settings : Settings} {before between : List Op}
    {due now : Time} {jobId : UUID} {workerId : String} {token : UUID}
    {leaseSeconds : Option Duration} {r row : Job}
    (hclock : ClockNondecreasing (before ++ between ++
      [.claimJob now jobId workerId token leaseSeconds]))
    (hr : (tableAfter settings before).find? jobId = some r)
    (hstatus : r.status = .scheduled) (hdue : r.scheduledAt = some due)
    (hclaimed : ((service settings).step
      (tableAfter settings (before ++ between))
      (.claimJob now jobId workerId token leaseSeconds)).2 =
        .ok (.claimed (some row))) : due ≤ now := by
  have hpath := service_path_from settings (tableAfter settings before)
    between jobId
  rw [hr, ← tableAfter_append] at hpath
  obtain ⟨s, hs, hclaimable⟩ := claimable_of_claimed hclaimed
  have hpending := (Job.isClaimable_iff.mp hclaimable).1
  rcases RowPath.delayed hpath hstatus hdue with
    ⟨s', hs', hwaits, -⟩ | ⟨s', hs', hcancelled⟩ | ⟨activated, hmem, hle⟩
  · obtain rfl := Option.some.inj (hs.symm.trans hs')
    rw [hpending] at hwaits
    cases hwaits
  · obtain rfl := Option.some.inj (hs.symm.trans hs')
    rw [hpending] at hcancelled
    cases hcancelled
  · obtain ⟨op, hop, htime⟩ := databaseTime_of_activated hmem
    exact hle.trans
      (hclock.le (List.mem_append_right _ hop) htime rfl)

/-! ## Retries -/

theorem HandedOut.holds {settings : Settings} {ops : List Op} {a : Attempt}
    (h : HandedOut settings ops a) (htokens : (mintedTokens ops).Nodup)
    {r : Job} (hr : (tableAfter settings ops).find? a.jobId = some r)
    (howned : ownedBy a r = true) : r.Holds a := by
  obtain ⟨before, op, after, rfl, hobtained⟩ := h
  exact hobtained.holds_of_owned htokens hr howned

/-- The attempts a sweep takes away are read off the rows themselves. -/
theorem recovered_attempt {settings : Settings} {ops : List Op} {now : Time}
    {limit : ℕ} {locked : List UUID} {t' : Jobs}
    {results : List (Attempt × AttemptResult)}
    (h : recoverExpiredLeases (tableAfter settings ops) now limit locked =
      .ok (t', results)) {x : Attempt × AttemptResult} (hx : x ∈ results) :
    ∃ r, (tableAfter settings ops).find? x.1.jobId = some r ∧ r.Holds x.1 := by
  obtain ⟨t'', results', hok, -, hsettled, -⟩ := recoverRows_total
    (tableAfter_wellformed settings ops)
    (fun job hjob => expired_of_mem_selectExpired hjob)
    (KeyedTable.nodup_selectOrdered _ _ _ _)
  obtain ⟨-, rfl⟩ := Prod.mk.inj (Except.ok.inj (hok.symm.trans h))
  obtain ⟨job, hjob, hrecovers, -⟩ := hsettled x hx
  have hexpired := expired_of_mem_selectExpired hjob
  have hid := (Attempt.of_eq_ok_iff.mp hrecovers.attempt).1
  exact ⟨job, hid ▸ hexpired.row, hexpired.processing, hrecovers.attempt⟩

/-- The failure of an attempt is recorded with the count of its row. -/
theorem failureChange_of_failure {settings : Settings} {ops : List Op}
    {op : Op} {id : UUID} {r : Job} {c : Change}
    (htokens : (mintedTokens ops).Nodup)
    (hhanded : ∀ now a error, op = .failAttempt now a error →
      HandedOut settings ops a)
    (hr : (tableAfter settings ops).find? id = some r)
    (hc : c ∈ changesFor id (changesOf settings
      (op, ((service settings).step (tableAfter settings ops) op).2)))
    (henabled : c.Enabled r) (hfail : c.isFailure = true) :
    ∃ cause now a error outcome, c = failureChange cause now a error outcome ∧
      op.databaseTime = some now ∧ a.attemptCount = r.attemptCount := by
  obtain ⟨reply, hout, -, hmakes⟩ := makes_of_step hc
  cases hmakes with
  | attemptFailed now a error result =>
      have howned : ownedBy a r = true := by
        cases houtcome : result.outcome <;> rw [houtcome] at henabled <;>
          exact henabled.1
      have hholds := (hhanded now a error rfl).holds htokens hr howned
      exact ⟨_, now, a, error, _, rfl, rfl,
        (Job.holds_iff.mp hholds).2.1.symm⟩
  | recovered now limit locked results x hx =>
      obtain ⟨results', hrecover, heq⟩ :=
        answer_eq_ok (execute_of_step_ok hout)
      cases heq
      obtain ⟨s, hs, hholds⟩ := recovered_attempt hrecover hx
      obtain rfl := Option.some.inj (hr.symm.trans hs)
      exact ⟨_, now, x.1, _, _, rfl, rfl,
        (Job.holds_iff.mp hholds).2.1.symm⟩
  | _ => cases hfail

/-- A failed attempt that has a successor leaves its job waiting for the
delay that belongs to it. -/
theorem scheduled_of_failure {settings : Settings} {ops : List Op} {op : Op}
    {id : UUID} {k : ℕ} {delay : ℤ} {ended : Time}
    (hdelay : (k, delay) ∈ [(1, 30), (2, 120)])
    (hcycle : claims id (currentCycle id (callsOf settings ops)) = k)
    (hended : 0 < failuresBy id
      (op, ((service settings).step (tableAfter settings ops) op).2))
    (htime : op.databaseTime = some ended)
    (htokens : (mintedTokens ops).Nodup)
    (hhanded : ∀ now a error, op = .failAttempt now a error →
      HandedOut settings ops a) :
    ∃ s, (tableAfter settings (ops ++ [op])).find? id = some s ∧
      s.status = .scheduled ∧
      s.scheduledAt = some (ended + seconds delay) := by
  obtain ⟨r, c, hcs, hr, henabled, hfail, hs⟩ :=
    failure_of_failuresBy_pos hended
  have hc : c ∈ changesFor id (changesOf settings
      (op, ((service settings).step (tableAfter settings ops) op).2)) := by
    simp [hcs]
  obtain ⟨cause, now, a, error, outcome, rfl, hnow, hcount⟩ :=
    failureChange_of_failure htokens hhanded hr hc henabled hfail
  obtain rfl := Option.some.inj (hnow.symm.trans htime)
  have haccounted := (accounted_after settings ops id).count
  rw [hr, hcycle] at haccounted
  have hattempt : r.attemptCount = k := haccounted
  have hmax := (tableAfter_wellformed settings ops _ _ hr).counters.maxAttempts
  have hretry : retryDelaySeconds a.attemptCount = .ok delay ∧ k < 3 := by
    simp only [List.mem_cons, Prod.mk.injEq, List.not_mem_nil, or_false]
      at hdelay
    rw [hcount, hattempt]
    rcases hdelay with ⟨rfl, rfl⟩ | ⟨rfl, rfl⟩
    · exact ⟨rfl, by decide⟩
    · exact ⟨rfl, by decide⟩
  refine ⟨_, by rw [tableAfter_append]; exact hs, ?_⟩
  cases outcome with
  | retryScheduled => simp [failureChange, hretry.1, Change.apply,
      scheduleRetry, releasedOwnership]
  | permanentlyFailed =>
      have hge : r.maxAttempts ≤ r.attemptCount := henabled.2.1
      have hlt := hretry.2
      omega

/-- On a database clock that does not run backwards, whatever else happens: a
job that was `SCHEDULED` for some time is claimed at that time or later; and
when its first or second attempt of a cycle ends by failure or recovery, the
job is claimed no earlier than 30 or 120 seconds after that. -/
theorem delayed_work_never_early {settings : Settings}
    {before between : List Op} {now : Time} {jobId : UUID}
    {workerId : String} {token : UUID} {leaseSeconds : Option Duration}
    {row : Job}
    (hclock : ClockNondecreasing (before ++ between ++
      [.claimJob now jobId workerId token leaseSeconds]))
    (hclaimed : ((service settings).step
      (tableAfter settings (before ++ between))
      (.claimJob now jobId workerId token leaseSeconds)).2 =
        .ok (.claimed (some row))) :
    (∀ r due, (tableAfter settings before).find? jobId = some r →
      r.status = .scheduled → r.scheduledAt = some due → due ≤ now) ∧
    ∀ earlier op k delay ended, before = earlier ++ [op] →
      (k, delay) ∈ [(1, 30), (2, 120)] →
      claims jobId (currentCycle jobId (callsOf settings earlier)) = k →
      0 < failuresBy jobId
        (op, ((service settings).step (tableAfter settings earlier) op).2) →
      op.databaseTime = some ended →
      (mintedTokens earlier).Nodup →
      (∀ at_ a error, op = .failAttempt at_ a error →
        HandedOut settings earlier a) →
      ended + seconds delay ≤ now := by
  refine ⟨fun r due hr hstatus hdue =>
    claim_not_early hclock hr hstatus hdue hclaimed, ?_⟩
  rintro earlier op k delay ended rfl hdelay hcycle hended htime htokens
    hhanded
  obtain ⟨s, hs, hstatus, hdue⟩ := scheduled_of_failure hdelay hcycle hended
    htime htokens hhanded
  exact claim_not_early hclock hs hstatus hdue hclaimed

/-- The sample job fails ten seconds after its first claim. -/
def sampleFailure : List Op :=
  [sampleSubmit 1, .claimJob 0 1 "worker" 7 none,
   .failAttempt (seconds 10) ⟨1, "worker", 7, 1, 3⟩ "boom"]

theorem delayed_work_never_early_retry :
    seconds 10 + seconds 30 ≤ seconds 60 := by
  have hclock : ClockNondecreasing (sampleFailure ++
      [.activateDueScheduledJobs (seconds 50) 10 []] ++
      [.claimJob (seconds 60) 1 "other" 8 none]) := by
    unfold ClockNondecreasing
    decide
  have hclaimed : ∃ row, ((service sampleSettings).step
      (tableAfter sampleSettings (sampleFailure ++
        [.activateDueScheduledJobs (seconds 50) 10 []]))
      (.claimJob (seconds 60) 1 "other" 8 none)).2 =
        .ok (.claimed (some row)) := ⟨_, rfl⟩
  obtain ⟨row, hrow⟩ := hclaimed
  refine (delayed_work_never_early hclock hrow).2
    [sampleSubmit 1, .claimJob 0 1 "worker" 7 none] _ 1 30 (seconds 10) rfl
    (by decide) (by decide) (by decide) rfl (by decide) ?_
  intro at_ a error heq
  cases heq
  exact ⟨[sampleSubmit 1], _, [], rfl, 0, 1, "worker", 7, none, _, rfl, rfl,
    rfl⟩

end JobQueue
