import JobQueue.Lifecycle.Endings
import JobQueue.Lifecycle.Lease

/-!
# Progress

Where the percentage on a `PROCESSING` row comes from.  While a claim lasts,
the row shows the last successful report of its attempt, and until the first
report the percentage that the claim found.  A claim leaves the percentage
alone, and so does the end of an attempt, so what a claim finds may have been
reported by an earlier attempt.
-/

namespace JobQueue

open Support

/-! ## Reports -/

/-- The percentage stored by a successful `update_progress` of the claim of
`a`. -/
def reportOf (a : Attempt) : Op × Outcome → Option ℤ
  | (.updateProgress b progress, .ok .progressed) =>
      if a.SameClaim b then some (clampProgress progress) else none
  | _ => none

/-- The percentage after the last report of the claim of `a`, which found the
percentage `found`. -/
def lastReport (a : Attempt) (found : ℤ) (calls : List (Op × Outcome)) : ℤ :=
  (calls.filterMap (reportOf a)).getLastD found

theorem lastReport_concat (a : Attempt) (found : ℤ)
    (calls : List (Op × Outcome)) (call : Op × Outcome) :
    lastReport a found (calls ++ [call]) =
      (reportOf a call).getD (lastReport a found calls) := by
  rw [lastReport, lastReport, List.filterMap_append]
  cases hreport : reportOf a call with
  | none => simp [hreport]
  | some progress => simp [hreport]

/-- The percentage is what the claim found, or a report. -/
theorem lastReport_cases (a : Attempt) (found : ℤ)
    (calls : List (Op × Outcome)) :
    lastReport a found calls = found ∨
      ∃ b progress, a.SameClaim b ∧
        (.updateProgress b progress, .ok .progressed) ∈ calls ∧
        lastReport a found calls = clampProgress progress := by
  have hlast : lastReport a found calls ∈
      found :: calls.filterMap (reportOf a) := List.getLastD_mem_cons
  rcases List.mem_cons.mp hlast with hfound | hreport
  · exact Or.inl hfound
  · obtain ⟨call, hcall, hreport⟩ := List.mem_filterMap.mp hreport
    unfold reportOf at hreport
    split at hreport
    · next b progress =>
        split at hreport
        · next hsame =>
            exact Or.inr ⟨b, progress, hsame, hcall,
              (Option.some.inj hreport).symm⟩
        · cases hreport
    · cases hreport

/-! ## The percentage of a held row -/

def Change.isReport : Change → Bool
  | .progressed _ _ => true
  | _ => false

/-- Only a report moves the percentage of a held row. -/
theorem Change.progress_eq {r : Job} {a : Attempt} {c : Change}
    (hc : c.Enabled r) (h : r.Holds a) (hlive : ¬ c.Ends a.executionToken)
    (hreport : c.isReport = false) :
    (c.apply r).progress = r.progress := by
  rcases Change.of_held hc h hlive with
    rfl | ⟨now, b, deadline, rfl⟩ | ⟨b, progress, rfl⟩
  · rfl
  · rfl
  · cases hreport

theorem Makes.isReport {settings : Settings} {call : Op × Outcome}
    {id : UUID} {c : Change} (h : Makes settings call id c)
    (hc : c.isReport = true) :
    ∃ b progress, call = (.updateProgress b progress, .ok .progressed) ∧
      id = b.jobId := by
  cases h with
  | progressed b progress => exact ⟨b, progress, rfl, rfl⟩
  | attemptFailed now b error result =>
      cases ho : result.outcome <;>
        simp [ho, failureChange, Change.isReport] at hc
  | recovered now limit locked results x hx =>
      cases ho : x.2.outcome <;>
        simp [ho, failureChange, Change.isReport] at hc
  | _ => simp [Change.isReport] at hc

/-- The row of `a` is held under it and shows the percentage `progress`. -/
def Shows (t : Jobs) (a : Attempt) (progress : ℤ) : Prop :=
  ∃ r, t.find? a.jobId = some r ∧ r.Holds a ∧ r.progress = progress

/-- A call that does not end the claim keeps the row held; its percentage
stays, or is the one just reported. -/
theorem Shows.step {settings : Settings} {t : Jobs} {a : Attempt}
    {progress : ℤ} (h : Shows t a progress) (op : Op)
    (hlive : endsClaim a (op, ((service settings).step t op).2) = false) :
    Shows ((service settings).step t op).1 a
      ((reportOf a (op, ((service settings).step t op).2)).getD progress) := by
  obtain ⟨r, hr, hholds, hprogress⟩ := h
  obtain ⟨s, hs, hpath, hnoend, hheld⟩ := holds_step hr hholds op hlive
  refine ⟨s, hs, hheld, ?_⟩
  by_cases hreport : ∃ b p, op = .updateProgress b p ∧
      ((service settings).step t op).2 = .ok .progressed ∧
      b.jobId = a.jobId
  · obtain ⟨b, p, rfl, hreply, hjob⟩ := hreport
    obtain ⟨_, hupdate, -⟩ := answer_eq_ok (execute_of_step_ok hreply)
    obtain ⟨r', howned, hrw⟩ := updateProgress_cases hupdate
    have hrow := hrw.before
    rw [hjob, hr] at hrow
    obtain rfl := Option.some.inj hrow
    have hsame : a.SameClaim b := ⟨hjob, hholds.token_eq howned⟩
    have hafter := hrw.after
    rw [hjob, hs] at hafter
    obtain rfl := Option.some.inj hafter
    simp [hreply, reportOf, hsame, setProgress]
  · have hnoreport : ∀ c ∈ changesFor a.jobId
        (changesOf settings (op, ((service settings).step t op).2)),
        c.isReport = false := by
      intro c hc
      by_contra hne
      obtain ⟨b, p, hcall, hjob⟩ :=
        (makes_of_mem (mem_changesFor.mp hc)).isReport (by simpa using hne)
      obtain ⟨hop, hreply⟩ := Prod.mk.inj hcall
      exact hreport ⟨b, p, hop, hreply, hjob.symm⟩
    have hnone : reportOf a (op, ((service settings).step t op).2) = none := by
      unfold reportOf
      split
      · next b p hcall =>
          obtain ⟨hop, hreply⟩ := Prod.mk.inj hcall
          rw [if_neg]
          intro hsame
          exact hreport ⟨b, p, hop, hreply, hsame.1⟩
      · rfl
    rw [hnone, RowPath.column_eq Job.progress hpath hholds
      hnoend fun c hc b hb hholds =>
        Change.progress_eq hb hholds (hnoend c hc) (hnoreport c hc)]
    exact hprogress

/-- While nothing ends the claim, the row shows the last report. -/
theorem shows_run {settings : Settings} {t : Jobs} {a : Attempt} {found : ℤ}
    (h : Shows t a found) {after : List Op}
    (hlive : ∀ call ∈ (service settings).trace t after,
      endsClaim a call = false) :
    Shows ((service settings).run t after) a
      (lastReport a found ((service settings).trace t after)) := by
  induction after using List.reverseRecOn with
  | nil => exact h
  | append_singleton after op ih =>
      rw [Machine.trace_append] at hlive ⊢
      rw [Machine.run_append]
      have hlast := ih fun call hcall => hlive call (by simp [hcall])
      have hcall : endsClaim a (op, ((service settings).step
          ((service settings).run t after) op).2) = false :=
        hlive _ (by simp)
      rw [Machine.trace_cons, Machine.trace_nil, lastReport_concat]
      exact hlast.step op hcall

/-! ## Claims -/

namespace Claim

variable {settings : Settings} (k : Claim settings)

theorem liveAfter_nil : k.LiveAfter [] := by
  intro call hcall
  cases hcall

theorem LiveAfter.concat {k : Claim settings} {after : List Op} {op : Op}
    (h : k.LiveAfter after)
    (hop : endsClaim k.attempt (op, ((service settings).step
      (k.tableAfter after) op).2) = false) : k.LiveAfter (after ++ [op]) := by
  intro call hcall
  rw [callsAfter_cons, Machine.trace_nil] at hcall
  rcases List.mem_append.mp hcall with hcall | hcall
  · exact h call hcall
  · rw [List.mem_singleton.mp hcall]
    exact hop

theorem found : ∃ q, (JobQueue.tableAfter settings k.before).find? k.jobId =
      some q ∧ q.isClaimable = true ∧
    Shows (JobQueue.tableAfter settings (k.before ++ [k.op])) k.attempt
      q.progress := by
  obtain ⟨-, r, s, rfl, hs, hholds, hr, hclaimable, -⟩ := k.obtained.row
  exact ⟨r, hr, hclaimable, _, hs, hholds, rfl⟩

/-- While the claim is live its row shows the last report, or what the claim
found. -/
theorem shows {after : List Op} (hlive : k.LiveAfter after) {q : Job}
    (hq : (JobQueue.tableAfter settings k.before).find? k.jobId = some q) :
    Shows (k.tableAfter after) k.attempt
      (lastReport k.attempt q.progress (k.callsAfter after)) := by
  obtain ⟨q', hq', -, hshows⟩ := k.found
  obtain rfl := Option.some.inj (hq.symm.trans hq')
  rw [tableAfter, tableAfter_claim]
  exact shows_run hshows hlive

end Claim

/-- The last operation of a run claimed the job. -/
theorem exists_claim_of_claimedToken {settings : Settings} {ops : List Op}
    {op : Op} {id token : UUID} {r : Job} {c : Change}
    (hr : (tableAfter settings (ops ++ [op])).find? id = some r)
    (hc : c ∈ changesFor id (changesOf settings
      (op, ((service settings).step (tableAfter settings ops) op).2)))
    (htoken : c.claimedToken = some token) :
    ∃ k : Claim settings, k.before = ops ∧ k.op = op ∧ r.Holds k.attempt := by
  obtain ⟨now, workerId, leaseSeconds, row, hcall⟩ :=
    (makes_of_mem (mem_changesFor.mp hc)).claim htoken
  obtain ⟨rfl, hreply⟩ := Prod.mk.inj hcall
  obtain ⟨a, ha, -⟩ := attempt_of_claimed hreply
  have hobtained : Obtained settings ops
      (.claimJob now id workerId token leaseSeconds) a :=
    ⟨now, id, workerId, token, leaseSeconds, row, rfl, hreply, ha⟩
  obtain ⟨-, -, s, -, hs, hholds, -, -, hjob⟩ := hobtained.row
  rw [hjob, hr] at hs
  obtain rfl := Option.some.inj hs
  exact ⟨⟨ops, now, id, workerId, token, leaseSeconds, a, hobtained⟩, rfl, rfl,
    hholds⟩

/-- Every `PROCESSING` row is held under the attempt of a claim that is
live. -/
theorem exists_live_claim {settings : Settings} {ops : List Op} {id : UUID}
    {r : Job} (hr : (tableAfter settings ops).find? id = some r)
    (hprocessing : r.status = .processing) :
    ∃ (k : Claim settings) (after : List Op),
      ops = k.before ++ k.op :: after ∧ k.LiveAfter after ∧
        r.Holds k.attempt := by
  induction ops using List.reverseRecOn generalizing r with
  | nil => cases hr
  | append_singleton ops op ih =>
      have hpath := service_step_path settings (tableAfter settings ops) op id
      have htable := tableAfter_append settings ops [op]
      rw [Machine.run_cons, Machine.run_nil] at htable
      rw [← htable, hr] at hpath
      have hwf := tableAfter_wellformed settings
      obtain ⟨a, ha⟩ := (hwf _ _ _ hr).exists_attempt hprocessing
      have htoken := (Attempt.of_eq_ok_iff.mp ha).2.2.1
      by_cases hclaimed : ∃ c ∈ changesFor id (changesOf settings
          (op, ((service settings).step (tableAfter settings ops) op).2)),
          ∃ token, c.claimedToken = some token
      · obtain ⟨c, hc, token, hminted⟩ := hclaimed
        obtain ⟨k, rfl, rfl, hholds⟩ :=
          exists_claim_of_claimedToken hr hc hminted
        exact ⟨k, [], rfl, k.liveAfter_nil, hholds⟩
      · -- nothing but the operation before can have put the token there
        have hfresh : ∀ c ∈ changesFor id (changesOf settings
            (op, ((service settings).step (tableAfter settings ops) op).2)),
            ∀ token, c.claimedToken ≠ some token := by
          intro c hc token hminted
          exact hclaimed ⟨c, hc, token, hminted⟩
        rcases RowPath.token_origin hpath htoken with
          ⟨q, hq, hqtoken⟩ | ⟨c, hc, hminted⟩
        · have hqprocessing : q.status = .processing := by
            have hown := (hwf _ _ _ hq).ownership
            rw [hown.worker, hown.token, hqtoken]
            rfl
          obtain ⟨k, after, rfl, hlive, hholds⟩ := ih hq hqprocessing
          have hjob : k.attempt.jobId = id :=
            (Attempt.of_eq_ok_iff.mp hholds.2).1.symm.trans
              (KeyedTable.key_of_find?_eq_some hq)
          rw [← hjob] at hq hr hpath hfresh
          have hnotended : endsClaim k.attempt (op, ((service settings).step
              (k.tableAfter after) op).2) = false := by
            by_contra hne
            obtain ⟨c, hc, hend⟩ :=
              change_of_endsClaim settings ((Bool.not_eq_false _).mp hne)
            rw [hq] at hpath
            refine RowPath.token_ne_of_ended hpath
              ⟨c, mem_changesFor.mpr hc, hend⟩ (fun c hc => hfresh c hc _) ?_
            rw [htoken, ← hqtoken, hholds.token]
          obtain ⟨s, hs, -, -, hheld⟩ := holds_step hq hholds op hnotended
          rw [htable] at hr
          obtain rfl := Option.some.inj (hr.symm.trans hs)
          exact ⟨k, after ++ [op], by simp, hlive.concat hnotended, hheld⟩
        · exact absurd hminted (hfresh c hc _)

/-! ## Cycles -/

/-- The percentage a call stores in the row of the job, if it stores one. -/
def percentageBy (id : UUID) : Op × Outcome → Option ℤ
  | (.updateProgress b progress, .ok .progressed) =>
      if b.jobId = id then some (clampProgress progress) else none
  | (.completeJob _ b _, .ok (.completed _)) =>
      if b.jobId = id then some 100 else none
  | _ => none

/-- The last percentage stored since the job was created or last retried by
hand, by whichever attempt. -/
def lastPercentage (id : UUID) (calls : List (Op × Outcome)) : ℤ :=
  ((currentCycle id calls).filterMap (percentageBy id)).getLastD 0

/-- The percentage in the row, zero while there is no row. -/
def percentage (r? : Option Job) : ℤ := r?.elim 0 Job.progress

def Change.show (n : ℤ) : Change → ℤ
  | .created _ => 0
  | .retried => 0
  | .progressed _ progress => clampProgress progress
  | .completed _ _ _ => 100
  | _ => n

theorem RowStep.percentage {r? s? : Option Job} {c : Change}
    (h : RowStep r? c s?) :
    JobQueue.percentage s? = c.show (JobQueue.percentage r?) := by
  cases h with
  | create hnew =>
      obtain ⟨request, scheduledAt, key, now, createdAt, id, rfl⟩ :=
        hnew.eq_newJob
      rfl
  | @change r c hc =>
      cases c with
      | created row => exact hc.elim
      | _ => rfl

theorem RowPath.percentage {r? s? : Option Job} {cs : List Change}
    (h : RowPath r? cs s?) :
    JobQueue.percentage s? =
      cs.foldl Change.show (JobQueue.percentage r?) := by
  induction h with
  | nil => rfl
  | snoc _ hstep ih => rw [hstep.percentage, ih, List.foldl_concat]

theorem Change.show_of_isStart {c : Change} (h : c.isStart = true) (n : ℤ) :
    c.show n = 0 := by
  cases c with
  | created row => rfl
  | retried => rfl
  | _ => cases h

/-- A call that neither starts a cycle nor stores a percentage leaves the
percentages alone. -/
theorem Makes.show_eq {settings : Settings} {call : Op × Outcome} {id : UUID}
    {c : Change} (h : Makes settings call id c)
    (hstart : JobQueue.startsCycle id call = false)
    (hnone : percentageBy id call = none) (n : ℤ) : c.show n = n := by
  have hnotstart : c.isStart = false := by
    by_contra hne
    rw [h.startsCycle ((Bool.not_eq_false _).mp hne)] at hstart
    cases hstart
  cases h with
  | created op s hcreated => cases hnotstart
  | retried jobId row => cases hnotstart
  | progressed b progress => simp [percentageBy] at hnone
  | completed now b result row => simp [percentageBy] at hnone
  | attemptFailed now b error result => cases result.outcome <;> rfl
  | recovered now limit locked results x hx => cases x.2.outcome <;> rfl
  | _ => rfl

/-- How a call moves the percentage of a row. -/
theorem show_call (settings : Settings) (id : UUID) (call : Op × Outcome)
    (n : ℤ) :
    (changesFor id (changesOf settings call)).foldl Change.show n =
      if startsCycle id call then 0 else (percentageBy id call).getD n := by
  by_cases hstart : startsCycle id call = true
  · obtain ⟨cs, c, hcs, hc⟩ :=
      exists_start_of_startsCycle settings hstart
    rw [hcs, List.foldl_concat, Change.show_of_isStart hc, if_pos hstart]
  · rw [if_neg hstart]
    cases hstored : percentageBy id call with
    | some progress =>
        unfold percentageBy at hstored
        split at hstored
        · split at hstored
          · next b p hid =>
              obtain rfl := Option.some.inj hstored
              simp [changesOf, changesFor_cons, hid, Change.show]
          · cases hstored
        · split at hstored
          · next hid =>
              obtain rfl := Option.some.inj hstored
              simp [changesOf, changesFor_cons, hid, Change.show]
          · cases hstored
        · cases hstored
    | none =>
        have hquiet : ∀ c ∈ changesFor id (changesOf settings call),
            ∀ n, c.show n = n := fun c hc n =>
          (makes_of_mem (mem_changesFor.mp hc)).show_eq
            ((Bool.not_eq_true _).mp hstart) hstored n
        generalize changesFor id (changesOf settings call) = cs at hquiet
        induction cs with
        | nil => rfl
        | cons c cs ih =>
            rw [List.foldl_cons, hquiet c (by simp)]
            exact ih fun c' hc' => hquiet c' (by simp [hc'])

theorem lastPercentage_concat (id : UUID) (calls : List (Op × Outcome))
    (call : Op × Outcome) :
    lastPercentage id (calls ++ [call]) =
      if startsCycle id call then 0
      else (percentageBy id call).getD (lastPercentage id calls) := by
  by_cases hstart : startsCycle id call = true
  · simp [lastPercentage, currentCycle, hstart]
  · cases hstored : percentageBy id call with
    | none => simp [lastPercentage, currentCycle, hstart, hstored]
    | some progress => simp [lastPercentage, currentCycle, hstart, hstored]

/-- A row shows the last percentage stored in its cycle.  Attempts that end do
not take their percentage with them. -/
theorem percentage_after (settings : Settings) (ops : List Op) (id : UUID) :
    percentage ((tableAfter settings ops).find? id) =
      lastPercentage id (callsOf settings ops) := by
  refine (service settings).trace_invariant
    (P := fun calls t => percentage (t.find? id) = lastPercentage id calls)
    rfl (fun calls t op h => ?_) ops
  rw [RowPath.percentage (service_step_path settings t op id), show_call,
    lastPercentage_concat, h]

theorem progress_eq_last {settings : Settings} {ops : List Op} {id : UUID}
    {r : Job} (hr : (tableAfter settings ops).find? id = some r) :
    r.progress = lastPercentage id (callsOf settings ops) := by
  rw [← percentage_after, hr]
  rfl

/-! ## Percentages of earlier attempts -/

/-- Every `PROCESSING` row shows zero or a percentage that the attempt holding
it has reported since its claim. -/
def ProgressIsOwn (settings : Settings) (ops : List Op) : Prop :=
  ∀ r ∈ (tableAfter settings ops).rows, r.status = .processing →
    r.progress = 0 ∨
      ∃ (k : Claim settings) (after : List Op) (b : Attempt) (progress : ℤ),
        ops = k.before ++ k.op :: after ∧ k.LiveAfter after ∧
          r.Holds k.attempt ∧ k.attempt.SameClaim b ∧
          (.updateProgress b progress, .ok .progressed) ∈
            k.callsAfter after ∧
          r.progress = clampProgress progress

/-- Whenever a claim of the run takes a row, the last percentage stored in the
cycle of the job is zero, or none has been stored. -/
def NothingLeftBehind (settings : Settings) (ops : List Op) : Prop :=
  ∀ before now jobId workerId token leaseSeconds after r,
    ops = before ++
      .claimJob now jobId workerId token leaseSeconds :: after →
    (tableAfter settings before).find? jobId = some r →
    r.isClaimable = true →
    lastPercentage jobId (callsOf settings before) = 0

/-- If nothing is left behind, a run shows the reports of running attempts. -/
theorem NothingLeftBehind.own {settings : Settings}
    {ops before after : List Op} (h : NothingLeftBehind settings ops)
    (hops : ops = before ++ after) : ProgressIsOwn settings before := by
  intro r hmem hprocessing
  obtain ⟨k, since, rfl, hlive, hholds⟩ :=
    exists_live_claim (KeyedTable.find?_of_mem hmem) hprocessing
  obtain ⟨q, hq, hclaimable, -⟩ := k.found
  obtain ⟨s, hs, -, hprogress⟩ := k.shows hlive hq
  have hrow := KeyedTable.find?_of_mem hmem
  rw [(Attempt.of_eq_ok_iff.mp hholds.2).1] at hrow
  obtain rfl := Option.some.inj (hrow.symm.trans hs)
  have hzero : q.progress = 0 := by
    rw [progress_eq_last hq]
    exact h k.before k.now k.jobId k.workerId k.token k.leaseSeconds
      (since ++ after) q (by simp [hops, Claim.op]) hq hclaimable
  rcases lastReport_cases k.attempt q.progress (k.callsAfter since) with
    hfound | ⟨b, progress, hsame, hcall, hreport⟩
  · left
    rw [hprogress, hfound, hzero]
  · right
    exact ⟨k, since, b, progress, rfl, hlive, hholds, hsame, hcall,
      hprogress.trans hreport⟩

/-- A claim that finds a percentage shows it for an attempt that has reported
nothing. -/
theorem not_own_of_found {settings : Settings} {before : List Op} {now : Time}
    {jobId : UUID} (workerId : String) (token : UUID)
    (leaseSeconds : Option Duration) {r : Job}
    (hr : (tableAfter settings before).find? jobId = some r)
    (hclaimable : r.isClaimable = true) (hne : r.progress ≠ 0) :
    ¬ ProgressIsOwn settings (before ++
      [.claimJob now jobId workerId token leaseSeconds]) := by
  intro hown
  obtain ⟨t', row, hset, hclaim, hrw⟩ := claimJob_of_claimable hr hclaimable
    (tableAfter_wellformed settings _ _ _ hr).violatedCheck settings now
    workerId token leaseSeconds
  have htable : tableAfter settings (before ++
      [.claimJob now jobId workerId token leaseSeconds]) = t' := by
    rw [tableAfter_append, Machine.run_cons, Machine.run_nil]
    simp only [service, Op.execute, hclaim]
    rfl
  have hmem : row ∈ t'.rows := (KeyedTable.find?_eq_some_iff.mp hrw.after).1
  rcases hown row (htable ▸ hmem) (by rw [hset]; rfl) with
    hzero | ⟨k, since, b, progress, hops, hlive, hholds, -, hcall, -⟩
  · rw [hset] at hzero
    exact hne hzero
  · rcases List.eq_nil_or_concat' since with rfl | ⟨earlier, last, rfl⟩
    · cases hcall
    · -- a claim that is live before this one would hold a `PENDING` row
      have hsplit : before ++
          [.claimJob now jobId workerId token leaseSeconds] =
          k.before ++ k.op :: earlier ++ [last] := by simp [hops]
      obtain ⟨rfl, -⟩ := List.append_singleton_inj.mp hsplit
      obtain ⟨q, hq, -⟩ := k.found
      obtain ⟨s, hs, hheld, -⟩ := k.shows hlive.of_append hq
      rw [← (Attempt.of_eq_ok_iff.mp hholds.2).1,
        KeyedTable.key_of_find?_eq_some hrw.after] at hs
      obtain rfl := Option.some.inj (hr.symm.trans hs)
      have hpending := (Job.isClaimable_iff.mp hclaimable).1
      rw [hheld.1] at hpending
      cases hpending

/-- Progress belongs to the running attempt, in every state of a run, exactly
if no claim of the run takes a row on which an earlier attempt of the cycle
left a percentage. -/
theorem progress_is_own_iff (settings : Settings) (ops : List Op) :
    (∀ before after, ops = before ++ after →
      ProgressIsOwn settings before) ↔ NothingLeftBehind settings ops := by
  constructor
  · intro hown before now jobId workerId token leaseSeconds after r hops hr
      hclaimable
    rw [← progress_eq_last hr]
    by_contra hne
    exact not_own_of_found workerId token leaseSeconds hr hclaimable hne
      (hown (before ++ [.claimJob now jobId workerId token leaseSeconds]) after
        (by simp [hops]))
  · intro h before after hops
    exact h.own hops

/-- A batch of five items. -/
def sampleBatch : JobCreateRequest :=
  { sampleRequest with
    type := .batch
    payload := "\x7b\"items\":[1,2,3,4,5]\x7d" }

/-- The first attempt processes two items of five and fails; the retry is
activated when it is due. -/
def failedHalfway : List Op :=
  [.createJob (SubmitClock.at 0) 1 sampleBatch none,
    .claimJob 0 1 "worker" 7 none,
    .updateProgress ⟨1, "worker", 7, 1, 3⟩ 40,
    .failAttempt (seconds 10) ⟨1, "worker", 7, 1, 3⟩ "item 3",
    .activateDueScheduledJobs (seconds 40) 10 []]

/-- The second attempt, which has reported nothing, is shown with the
percentage of the first. -/
theorem progress_of_failed_attempt_shown :
    (∃ r ∈ (tableAfter sampleSettings (failedHalfway ++
        [.claimJob (seconds 41) 1 "worker" 8 none])).rows,
      r.status = .processing ∧ r.attemptCount = 2 ∧ r.progress = 40) ∧
    ¬ ProgressIsOwn sampleSettings (failedHalfway ++
        [.claimJob (seconds 41) 1 "worker" 8 none]) := by
  refine ⟨by decide +kernel, ?_⟩
  exact not_own_of_found "worker" 8 none rfl rfl (by decide)

end JobQueue
