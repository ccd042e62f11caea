import JobQueue.Lifecycle.Sweeps
import JobQueue.Lifecycle.Transitions
import JobQueue.Support.Potential
import Mathlib.Algebra.BigOperators.Ring.List

/-!
# Every job comes to an end

The attempts a row has left bound how often its status can still change: a
cycle of three attempts takes ten changes from the creation of a row to its
failure, and a manual retry grants nine more.  A service whose sweeps and
claims go on, and whose handlers end, therefore finishes every job.
-/

namespace JobQueue

open Support

/-! ## The changes a row has ahead of it -/

/-- Status changes ahead of a row with `left` attempts left, if nobody retries
it by hand. -/
def JobStatus.ahead (left : ℕ) : JobStatus → ℕ
  | .scheduled => 3 * left
  | .pending => 3 * left - 1
  | .processing => 3 * left + 1
  | _ => 0

/-- A row that does not exist yet will be created and may run through a whole
cycle. -/
def changesAhead : Option Job → ℕ
  | none => 10
  | some r => r.status.ahead (r.maxAttempts - r.attemptCount).toNat

def Change.setsStatus : Change → Bool
  | .created _ => true
  | c => c.target.isSome

def Change.isRestart : Change → Bool
  | .retried => true
  | _ => false

@[simp] theorem failureChange_isRestart (cause : Cause) (now : Time)
    (a : Attempt) (error : String) (outcome : AttemptOutcome) :
    (failureChange cause now a error outcome).isRestart = false := by
  cases outcome with
  | retryScheduled => rfl
  | permanentlyFailed => rfl

theorem Change.ahead {r : Job} {c : Change} (hc : c.Enabled r)
    (hwf : r.Wellformed) :
    changesAhead (some (c.apply r)) + c.setsStatus.toNat ≤
      changesAhead (some r) + 9 * c.isRestart.toNat := by
  have hmax := hwf.counters.maxAttempts
  have hwaiting := hwf.counters.waiting
  cases c with
  | created row => exact hc.elim
  | keyReleased => exact le_rfl
  | leaseExtended now a deadline => exact le_rfl
  | progressed a progress => exact le_rfl
  | claimed now workerId token deadline =>
      obtain ⟨hstatus, hlt⟩ := Job.isClaimable_iff.mp hc
      simp only [changesAhead, Change.apply, claim, hstatus, JobStatus.ahead]
      simp [Change.setsStatus, Change.target, Change.isRestart]
      omega
  | completed now a result =>
      have hstatus := (ownedBy_iff.mp hc).2.1
      simp only [changesAhead, hstatus]
      simp [Change.apply, complete, releasedOwnership, JobStatus.ahead,
        Change.setsStatus, Change.target]
      omega
  | retryScheduled cause now a delay error =>
      have hstatus := (ownedBy_iff.mp hc.1).2.1
      simp only [changesAhead, hstatus]
      simp [Change.apply, scheduleRetry, releasedOwnership, JobStatus.ahead,
        Change.setsStatus, Change.target]
  | permanentlyFailed cause now a error =>
      have hstatus := (ownedBy_iff.mp hc.1).2.1
      simp only [changesAhead, hstatus]
      simp [Change.apply, failPermanently, releasedOwnership,
        JobStatus.ahead, Change.setsStatus, Change.target]
      omega
  | activated now =>
      obtain ⟨hstatus, -⟩ := Job.isDue_iff.mp hc
      have hlt := hwaiting (Or.inr (Or.inl hstatus))
      simp only [changesAhead, Change.apply, activate, hstatus,
        JobStatus.ahead]
      simp [Change.setsStatus, Change.target, Change.isRestart]
      omega
  | cancelled =>
      rcases cancellable_iff.mp hc with hstatus | hstatus
      · have hlt := hwaiting (Or.inl hstatus)
        simp [changesAhead, Change.apply, cancel, releasedOwnership,
          JobStatus.ahead, Change.setsStatus, Change.target, hstatus]
        omega
      · have hlt := hwaiting (Or.inr (Or.inl hstatus))
        simp [changesAhead, Change.apply, cancel, releasedOwnership,
          JobStatus.ahead, Change.setsStatus, Change.target, hstatus]
        omega
  | retried =>
      have hstatus : r.status = .failed := hc
      simp [changesAhead, Change.apply, restart, releasedOwnership,
        JobStatus.ahead, Change.setsStatus, Change.target, Change.isRestart,
        hstatus, hmax]

theorem Job.IsNew.ahead {row : Job} (h : row.IsNew) :
    changesAhead (some row) + 1 ≤ changesAhead none := by
  obtain ⟨request, scheduledAt, key, now, createdAt, id, rfl⟩ := h.eq_newJob
  by_cases hfuture : scheduledAt.any (now < ·) = true
  · simp [changesAhead, newJob, hfuture, JobStatus.ahead,
      defaultMaxAttempts]
  · simp [changesAhead, newJob, hfuture, JobStatus.ahead,
      defaultMaxAttempts]

/-- Along the history of a row every change of status is paid for. -/
theorem RowPath.ahead {r? s? : Option Job} {cs : List Change}
    (h : RowPath r? cs s?) (hwf : ∀ r, r? = some r → r.Wellformed) :
    changesAhead s? + cs.countP Change.setsStatus ≤
      changesAhead r? + 9 * cs.countP Change.isRestart := by
  induction h with
  | nil => exact le_rfl
  | @snoc cs b? c? c hpath hstep ih =>
      have hone : ∀ q : Change → Bool,
          (cs ++ [c]).countP q = cs.countP q + (q c).toNat := by
        intro q
        cases hq : q c <;> simp [List.countP_append, hq]
      rw [hone, hone]
      cases hstep with
      | create hnew =>
          have hlast := hnew.ahead
          simp only [Change.setsStatus, Change.isRestart, Bool.toNat_true,
            Bool.toNat_false]
          omega
      | change hc =>
          have hlast := Change.ahead hc (RowPath.wellformed hpath hwf _ rfl)
          omega

/-! ## Status changes of a run -/

def statusAt (t : Jobs) (id : UUID) : Option JobStatus :=
  (t.find? id).map Job.status

/-- The operation changes the status of the job, or creates it. -/
def changesStatus (settings : Settings) (id : UUID) (t : Jobs) (op : Op) :
    Bool :=
  statusAt ((service settings).step t op).1 id ≠ statusAt t id

def restartsBy (id : UUID) : Op × Outcome → ℕ
  | (.retryJob jobId, .ok (.retried _)) => if jobId = id then 1 else 0
  | _ => 0

/-- How often the job was retried by hand. -/
def restarts (id : UUID) (calls : List (Op × Outcome)) : ℕ :=
  (calls.map (restartsBy id)).sum

theorem restartsBy_eq (settings : Settings) (id : UUID)
    (call : Op × Outcome) :
    restartsBy id call =
      (changesFor id (changesOf settings call)).countP
        Change.isRestart := by
  rw [countP_changesFor]
  unfold changesOf
  split <;> simp [restartsBy, List.countP_map, Function.comp_def,
    apply_ite, List.countP_cons] <;> simp [Change.isRestart]

theorem RowPath.status_eq {r? s? : Option Job} {cs : List Change}
    (h : RowPath r? cs s?) (hcs : ∀ c ∈ cs, c.setsStatus = false) :
    s?.map Job.status = r?.map Job.status := by
  induction h with
  | nil => rfl
  | @snoc cs b? c? c hpath hstep ih =>
      rw [← ih fun c hc => hcs c (by simp [hc])]
      have hlast := hcs c (by simp)
      cases hstep with
      | create hnew => cases hlast
      | @change b c hc =>
          have htarget : c.target = none := by
            cases c <;> first | rfl | cases hlast
          rw [Option.map_some, Change.status_apply hc, htarget]
          rfl

/-- What a row has ahead of it pays for its changes of status. -/
theorem statusPotential (settings : Settings) (id : UUID) :
    (service settings).Potential Jobs.Wellformed
      (fun t => changesAhead (t.find? id)) (changesStatus settings id)
      fun call => 9 * restartsBy id call where
  keep t op h := h.of_path fun k => ⟨_, service_step_path settings t op k⟩
  pay t op h := by
    have hpath := service_step_path settings t op id
    have hahead := RowPath.ahead hpath (h id)
    rw [← restartsBy_eq] at hahead
    cases hchanges : changesStatus settings id t op with
    | false =>
        rw [Bool.toNat_false]
        omega
    | true =>
        have hsome : 0 < (changesFor id (changesOf settings
            (op, ((service settings).step t op).2))).countP
              Change.setsStatus := by
          by_contra hnone
          have hsame := RowPath.status_eq hpath fun c hc => by
            simpa using (List.countP_eq_zero.mp
              (Nat.eq_zero_of_not_pos hnone)) c hc
          exact (of_decide_eq_true hchanges) hsame
        rw [Bool.toNat_true]
        omega

/-- Life is finite.  In every run the status of a job changes at most ten
times, its creation included, and nine times more for every manual retry. -/
theorem status_changes_are_bounded (settings : Settings) (ops : List Op)
    (id : UUID) :
    (service settings).occurrences (changesStatus settings id)
        KeyedTable.empty ops ≤
      10 + 9 * restarts id (callsOf settings ops) := by
  have hle := (statusPotential settings id).occurrences_le
    (s := KeyedTable.empty) (fun _ _ hr => by cases hr) ops
  have hsum : ((callsOf settings ops).map fun call =>
      9 * restartsBy id call).sum = 9 * restarts id (callsOf settings ops) :=
    List.sum_map_mul_left _ _ _
  exact (Nat.le_add_left _ _).trans (hsum ▸ hle)

/-! ## What moves a job on -/

section

variable (settings : Settings) {t : Jobs} (hwf : Jobs.Wellformed t)

include hwf

theorem changesStatus_of_pending {r : Job} (hr : r ∈ t.rows)
    (hstatus : r.status = .pending) (now : Time) (workerId : String)
    (token : UUID) (leaseSeconds : Option Duration) :
    changesStatus settings r.id t
      (.claimJob now r.id workerId token leaseSeconds) = true := by
  have hrow := KeyedTable.find?_of_mem hr
  have hlt := (hwf.of_mem hr).counters.waiting (Or.inl hstatus)
  obtain ⟨t', row, rfl, hclaim, hrw⟩ := claimJob_of_claimable hrow
    (Job.isClaimable_iff.mpr ⟨hstatus, hlt⟩) (hwf.of_mem hr).violatedCheck
    settings now workerId token leaseSeconds
  have hstep : ((service settings).step t (.claimJob now r.id workerId token
      leaseSeconds)).1 = t' := by
    simp only [service, Op.execute, hclaim]
    rfl
  rw [changesStatus, hstep, statusAt, statusAt, hrw.after, hrow]
  simp [claim, hstatus]

theorem changesStatus_of_due {r : Job} (hr : r ∈ t.rows) {now : Time}
    (hdue : r.isDue now = true) {limit : ℕ} (hlimit : 1 ≤ limit)
    {locked : List UUID} (hlocked : r.id ∉ locked) :
    ∃ s ∈ t.rows, changesStatus settings s.id t
      (.activateDueScheduledJobs now limit locked) = true := by
  have hselected : ∀ id ∈ selectDue t now limit locked,
      ∃ s, t.find? id = some s ∧ s.isDue now = true := by
    intro id hid
    obtain ⟨s, hs, rfl⟩ := List.mem_map.mp hid
    obtain ⟨hmem, hp⟩ := KeyedTable.mem_selectOrdered hs
    simp only [Bool.and_eq_true] at hp
    exact ⟨s, KeyedTable.find?_of_mem hmem, hp.1⟩
  have hnodup : (selectDue t now limit locked).Nodup :=
    KeyedTable.nodup_selectOrdered _ _ _ _
  obtain ⟨t', rows, hactivate, -, hperm, hrows, -⟩ :=
    activateSelected_returns hwf hnodup hselected
  obtain ⟨s, hs⟩ : ∃ s, s ∈ rows := by
    apply List.exists_mem_of_length_pos
    rw [← List.length_map Job.id, hperm.length_eq]
    obtain ⟨first, hfirst⟩ : ∃ s, s ∈ t.selectOrdered
        (fun r => r.isDue now && !locked.contains r.id)
        (fun r s => nullsLast r.scheduledAt s.scheduledAt) limit :=
      KeyedTable.exists_mem_selectOrdered hr (by simp [hdue, hlocked]) hlimit
    exact List.length_pos_of_mem (List.mem_map_of_mem hfirst)
  obtain ⟨before, hbefore, rfl, hafter⟩ := hrows s hs
  obtain ⟨s', hs', hdue'⟩ := hselected _ (hperm.mem_iff.mp
    (List.mem_map_of_mem hs))
  obtain rfl := Option.some.inj (hbefore.symm.trans hs')
  have hstep : ((service settings).step t
      (.activateDueScheduledJobs now limit locked)).1 = t' := by
    have hcall : activateDueScheduledJobs t now limit locked =
        .ok (t', rows) := hactivate
    simp only [service, Op.execute, hcall]
    rfl
  refine ⟨before, (KeyedTable.find?_eq_some_iff.mp hbefore).1, ?_⟩
  have hkey : (activate.set before).id = before.id := rfl
  rw [hkey] at hafter hbefore
  rw [changesStatus, hstep, statusAt, statusAt, hafter, hbefore]
  simp [activate, (Job.isDue_iff.mp hdue').1]

theorem changesStatus_of_expired {r : Job} (hr : r ∈ t.rows) {now : Time}
    (hexpired : r.isExpired now = true) {limit : ℕ} (hlimit : 1 ≤ limit)
    {locked : List UUID} (hlocked : r.id ∉ locked) :
    ∃ s ∈ t.rows, changesStatus settings s.id t
      (.recoverExpiredLeases now limit locked) = true := by
  have hnodup : ((selectExpired t now limit locked).map Job.id).Nodup :=
    KeyedTable.nodup_selectOrdered _ _ _ _
  obtain ⟨t', results, hrecover, hall, hrows, -⟩ := recoverRows_total hwf
    (fun job hjob => expired_of_mem_selectExpired hjob) hnodup
  obtain ⟨x, hx⟩ : ∃ x, x ∈ results := by
    apply List.exists_mem_of_length_pos
    rw [← hall.length_eq]
    obtain ⟨first, hfirst⟩ : ∃ job, job ∈ selectExpired t now limit locked :=
      KeyedTable.exists_mem_selectOrdered hr
        (by simpa [Job.isExpired, hlocked] using hexpired) hlimit
    exact List.length_pos_of_mem hfirst
  obtain ⟨before, hbefore, hrecovers, hafter⟩ := hrows x hx
  have hfound := expired_of_mem_selectExpired hbefore
  rw [← (Attempt.of_eq_ok_iff.mp hrecovers.attempt).1] at hafter
  have hstep : ((service settings).step t
      (.recoverExpiredLeases now limit locked)).1 = t' := by
    simp only [service, Op.execute, recoverExpiredLeases, hrecover]
    rfl
  refine ⟨before, (KeyedTable.find?_eq_some_iff.mp hfound.row).1, ?_⟩
  rw [changesStatus, hstep, statusAt, statusAt, hafter, hfound.row]
  rcases hrecovers.status with hstatus | hstatus
  · simp [hstatus, hfound.processing]
  · simp [hstatus, hfound.processing]

end

/-! ## What stays while the status stays -/

theorem RowPath.same_times {r : Job} {cs : List Change} {s? : Option Job}
    (h : RowPath (some r) cs s?) (hcs : ∀ c ∈ cs, c.target = none) :
    ∃ s, s? = some s ∧ s.scheduledAt = r.scheduledAt ∧
      ((∀ now a deadline, .leaseExtended now a deadline ∉ cs) →
        s.leaseExpiresAt = r.leaseExpiresAt) := by
  induction h with
  | nil => exact ⟨r, rfl, rfl, fun _ => rfl⟩
  | @snoc cs b? c? c hpath hstep ih =>
      obtain ⟨b, rfl, hschedule, hlease⟩ := ih fun c hc => hcs c (by simp [hc])
      have htarget := hcs c (by simp)
      cases hstep with
      | change hc =>
          cases c with
          | created row => exact hc.elim
          | keyReleased =>
              exact ⟨_, rfl, hschedule, fun hno => hlease fun now a d hmem =>
                hno now a d (List.mem_append_left _ hmem)⟩
          | progressed a progress =>
              exact ⟨_, rfl, hschedule, fun hno => hlease fun now a d hmem =>
                hno now a d (List.mem_append_left _ hmem)⟩
          | leaseExtended now a deadline =>
              exact ⟨_, rfl, hschedule, fun hno =>
                (hno now a deadline (by simp)).elim⟩
          | _ => cases htarget

theorem Makes.leaseExtended_inv {settings : Settings} {op : Op}
    {reply : Reply} {id : UUID} {now : Time} {a : Attempt} {deadline : Time}
    (h : Makes settings (op, .ok reply) id (.leaseExtended now a deadline)) :
    ∃ leaseSeconds, op = .extendLease now a leaseSeconds ∧ a.jobId = id := by
  generalize hc : Change.leaseExtended now a deadline = c at h
  cases h with
  | leaseExtended now' a' leaseSeconds deadline' =>
      obtain ⟨rfl, rfl, -⟩ := Change.leaseExtended.inj hc
      exact ⟨leaseSeconds, rfl, rfl⟩
  | attemptFailed now' a' error result =>
      cases ho : result.outcome <;> rw [ho] at hc <;> cases hc
  | recovered now' limit locked results x hx =>
      cases ho : x.2.outcome <;> rw [ho] at hc <;> cases hc
  | _ => cases hc

/-- A step that leaves the status of a row keeps its time, and its lease
unless it is a heartbeat of the job. -/
theorem same_times_of_silent {settings : Settings} {t : Jobs} {op : Op}
    {id : UUID} {r s : Job} (hr : t.find? id = some r)
    (hs : ((service settings).step t op).1.find? id = some s)
    (hsilent : changesStatus settings id t op = false)
    (hbeat : ∀ now a leaseSeconds,
      op = .extendLease now a leaseSeconds → a.jobId ≠ id) :
    s.status = r.status ∧ s.scheduledAt = r.scheduledAt ∧
      s.leaseExpiresAt = r.leaseExpiresAt := by
  have hstatus : s.status = r.status := by
    simpa [changesStatus, statusAt, hr, hs] using hsilent
  rcases status_step hr hs with ⟨hnone, -⟩ | ⟨c, -, hleaves, htarget⟩
  · have hpath := service_step_path settings t op id
    rw [hr, hs] at hpath
    obtain ⟨s', hs', hschedule, hlease⟩ := RowPath.same_times hpath hnone
    obtain rfl := Option.some.inj hs'
    refine ⟨hstatus, hschedule, hlease fun now a deadline hmem => ?_⟩
    obtain ⟨reply, -, -, hmakes⟩ := makes_of_step hmem
    obtain ⟨leaseSeconds, rfl, hid⟩ := hmakes.leaseExtended_inv
    exact hbeat now a leaseSeconds rfl hid
  · rw [hstatus] at htarget
    exact (JobStatus.canBecome_ne (Change.canBecome hleaves htarget) rfl).elim

theorem find?_step_eq_none {settings : Settings} {t : Jobs} {op : Op}
    {id : UUID} (h : t.find? id = none) (hop : op.submits = false) :
    ((service settings).step t op).1.find? id = none := by
  have hpath := service_step_path settings t op id
  rw [h] at hpath
  cases hs : ((service settings).step t op).1.find? id with
  | none => rfl
  | some s =>
      rw [hs] at hpath
      obtain ⟨row, hmem, -⟩ := hpath.created
      obtain ⟨reply, -, hreply, hmakes⟩ := makes_of_step hmem
      obtain ⟨op', submitted, hcall, -⟩ := hmakes.created_inv
      obtain ⟨rfl, hok⟩ := Prod.mk.inj hcall
      rw [Except.ok.inj hok, hop] at hreply
      cases hreply

/-! ## Endless runs -/

/-- The table at each time of an endless run. -/
def tableAt (settings : Settings) (t : Jobs) (input : ℕ → Op) (n : ℕ) : Jobs :=
  (service settings).stateAt t input n

/-- Nothing comes in and nothing is retried by hand, but the service goes on
working: every row is again and again within the reach of a recovery and of an
activation, at times that have no bound; a pending job is claimed at some time;
and no handler runs for ever. -/
structure KeepsWorking (settings : Settings) (t : Jobs) (input : ℕ → Op) :
    Prop where
  noSubmission : ∀ n, (input n).submits = false
  noRetry : ∀ n id, input n ≠ .retryJob id
  recovers : ∀ r ∈ t.rows, ∀ n T, ∃ m ≥ n, ∃ now limit locked,
    T < now ∧ 1 ≤ limit ∧ r.id ∉ locked ∧
      input m = .recoverExpiredLeases now limit locked
  activates : ∀ r ∈ t.rows, ∀ n T, ∃ m ≥ n, ∃ now limit locked,
    T < now ∧ 1 ≤ limit ∧ r.id ∉ locked ∧
      input m = .activateDueScheduledJobs now limit locked
  claims : ∀ r ∈ t.rows, ∀ n,
    statusAt (tableAt settings t input n) r.id = some .pending →
      ∃ m ≥ n, ∃ now workerId token leaseSeconds,
        input m = .claimJob now r.id workerId token leaseSeconds
  handlersEnd : ∀ r ∈ t.rows, ∃ n, ∀ m ≥ n, ∀ now a leaseSeconds,
    input m = .extendLease now a leaseSeconds → a.jobId ≠ r.id

/-- Statuses a job keeps unless it is retried by hand. -/
def terminalStatuses : List JobStatus := [.completed, .failed, .cancelled]

section

variable {settings : Settings} {t : Jobs} {input : ℕ → Op}
  (hwf : Jobs.Wellformed t) (h : KeepsWorking settings t input)

theorem tableAt_wellformed (hwf : Jobs.Wellformed t) (n : ℕ) :
    Jobs.Wellformed (tableAt settings t input n) :=
  (service settings).stateAt_invariant
    (statusPotential settings 0).keep hwf input n

include h

/-- The rows at all times are those of the beginning. -/
theorem KeepsWorking.exists_row {n : ℕ} {r : Job}
    (hr : r ∈ (tableAt settings t input n).rows) :
    ∃ r₀ ∈ t.rows, r₀.id = r.id := by
  have hnone : ∀ k, t.find? r.id = none →
      (tableAt settings t input k).find? r.id = none := by
    intro k hfresh
    induction k with
    | zero => exact hfresh
    | succ k ih => exact find?_step_eq_none ih (h.noSubmission k)
  cases hfind : t.find? r.id with
  | none =>
      have hgone := hnone n hfind
      rw [KeyedTable.find?_of_mem hr] at hgone
      cases hgone
  | some r₀ =>
      obtain ⟨hmem, hid⟩ := KeyedTable.find?_eq_some_iff.mp hfind
      exact ⟨r₀, hmem, hid⟩

include hwf

/-- From some time on no status changes any more, and no lease is extended. -/
theorem KeepsWorking.exists_silence : ∃ N, ∀ r ∈ t.rows, ∀ n ≥ N,
    changesStatus settings r.id (tableAt settings t input n) (input n) =
        false ∧
      ∀ now a leaseSeconds, input n = .extendLease now a leaseSeconds →
        a.jobId ≠ r.id := by
  apply exists_common_bound
  intro r hr
  have hgrant : ∀ n, 9 * restartsBy r.id (input n, ((service settings).step
      (tableAt settings t input n) (input n)).2) = 0 := by
    intro n
    rw [Nat.mul_eq_zero]
    refine Or.inr ?_
    unfold restartsBy
    split
    · next jobId row heq =>
        exact (h.noRetry n jobId (Prod.mk.inj heq).1).elim
    · rfl
  obtain ⟨N, hN⟩ :=
    (statusPotential settings r.id).eventually_silent hwf hgrant
  obtain ⟨M, hM⟩ := h.handlersEnd r hr
  exact ⟨max N M, fun n hn =>
    ⟨hN n (le_trans (le_max_left N M) hn),
      hM n (le_trans (le_max_right N M) hn)⟩⟩

omit hwf h in
/-- In silence a row keeps its status and its times. -/
theorem KeepsWorking.find?_of_silence {N : ℕ} {r : Job}
    (hsilent : ∀ n ≥ N,
      changesStatus settings r.id (tableAt settings t input n) (input n) =
          false ∧
        ∀ now a leaseSeconds, input n = .extendLease now a leaseSeconds →
          a.jobId ≠ r.id)
    (hr : (tableAt settings t input N).find? r.id = some r) {n : ℕ}
    (hn : N ≤ n) :
    ∃ s, (tableAt settings t input n).find? r.id = some s ∧
      s.status = r.status ∧ s.scheduledAt = r.scheduledAt ∧
      s.leaseExpiresAt = r.leaseExpiresAt := by
  induction n, hn using Nat.le_induction with
  | base => exact ⟨r, hr, rfl, rfl, rfl⟩
  | succ n hn ih =>
      obtain ⟨s, hs, hstatus, hschedule, hlease⟩ := ih
      obtain ⟨hquiet, hbeat⟩ := hsilent n hn
      have hpath := service_step_path settings
        (tableAt settings t input n) (input n) r.id
      rw [hs] at hpath
      obtain ⟨s', hs'⟩ := hpath.exists_some
      obtain ⟨hstatus', hschedule', hlease'⟩ :=
        same_times_of_silent hs hs' hquiet hbeat
      exact ⟨s', hs', hstatus'.trans hstatus, hschedule'.trans hschedule,
        hlease'.trans hlease⟩

/-- In silence every row is in a terminal status: any other row would be
moved on by a claim or by a sweep, or would let the sweep move another one. -/
theorem KeepsWorking.terminal_of_silence {N : ℕ}
    (hsilent : ∀ r ∈ t.rows, ∀ n ≥ N,
      changesStatus settings r.id (tableAt settings t input n) (input n) =
          false ∧
        ∀ now a leaseSeconds, input n = .extendLease now a leaseSeconds →
          a.jobId ≠ r.id)
    {r : Job} (hr : r ∈ (tableAt settings t input N).rows) :
    r.status ∈ terminalStatuses := by
  obtain ⟨r₀, hr₀, hid⟩ := h.exists_row hr
  have hrow := KeyedTable.find?_of_mem hr
  have hlater : ∀ n ≥ N, ∃ s ∈ (tableAt settings t input n).rows,
      s.id = r.id ∧ s.status = r.status ∧ s.scheduledAt = r.scheduledAt ∧
        s.leaseExpiresAt = r.leaseExpiresAt := by
    intro n hn
    obtain ⟨s, hs, hsame⟩ := KeepsWorking.find?_of_silence
      (hid ▸ hsilent r₀ hr₀) hrow hn
    obtain ⟨hmem, hkey⟩ := KeyedTable.find?_eq_some_iff.mp hs
    exact ⟨s, hmem, hkey, hsame⟩
  have hstill : ∀ n ≥ N, ∀ s ∈ (tableAt settings t input n).rows,
      changesStatus settings s.id (tableAt settings t input n) (input n) =
        false := by
    intro n hn s hs
    obtain ⟨s₀, hs₀, hkey⟩ := h.exists_row hs
    rw [← hkey]
    exact (hsilent s₀ hs₀ n hn).1
  cases hstatus : r.status with
  | pending =>
      have hpending : statusAt (tableAt settings t input N) r₀.id =
          some .pending := by
        rw [statusAt, hid, hrow, Option.map_some, hstatus]
      obtain ⟨m, hm, now, workerId, token, leaseSeconds, hop⟩ :=
        h.claims r₀ hr₀ N hpending
      obtain ⟨s, hs, hkey, hsame, -⟩ := hlater m hm
      have hmoved := changesStatus_of_pending settings
        (tableAt_wellformed hwf m) hs (hsame.trans hstatus) now workerId
        token leaseSeconds
      have hquiet := hstill m hm s hs
      rw [hop, hid, ← hkey, hmoved] at hquiet
      cases hquiet
  | scheduled =>
      have hsome := ((tableAt_wellformed hwf N).of_mem hr).outcome.scheduled
        hstatus
      obtain ⟨due, hdue⟩ := Option.isSome_iff_exists.mp hsome
      obtain ⟨m, hm, now, limit, locked, hlt, hlimit, hlocked, hop⟩ :=
        h.activates r₀ hr₀ N due
      obtain ⟨s, hs, hkey, hsame, hschedule, -⟩ := hlater m hm
      have hready : s.isDue now = true :=
        Job.isDue_iff.mpr ⟨hsame.trans hstatus, due, hschedule.trans hdue,
          hlt.le⟩
      obtain ⟨s', hs', hmoved⟩ := changesStatus_of_due settings
        (tableAt_wellformed hwf m) hs hready hlimit
        (hkey.trans hid.symm ▸ hlocked)
      have hquiet := hstill m hm s' hs'
      rw [hop, hmoved] at hquiet
      cases hquiet
  | processing =>
      have hown := ((tableAt_wellformed hwf N).of_mem hr).ownership
      have hsome := hown.lease.mp (hown.token.mp (hown.worker.mp hstatus))
      obtain ⟨deadline, hdeadline⟩ := Option.isSome_iff_exists.mp hsome
      obtain ⟨m, hm, now, limit, locked, hlt, hlimit, hlocked, hop⟩ :=
        h.recovers r₀ hr₀ N deadline
      obtain ⟨s, hs, hkey, hsame, -, hlease⟩ := hlater m hm
      have hexpired : s.isExpired now = true := by
        simp [Job.isExpired, Job.leaseExpired, hsame, hstatus, hlease,
          hdeadline, hlt]
      obtain ⟨s', hs', hmoved⟩ := changesStatus_of_expired settings
        (tableAt_wellformed hwf m) hs hexpired hlimit
        (hkey.trans hid.symm ▸ hlocked)
      have hquiet := hstill m hm s' hs'
      rw [hop, hmoved] at hquiet
      cases hquiet
  | _ => simp [terminalStatuses]

end

/-- Every job comes to an end.  Take any reachable table and any endless run
from it in which nothing is submitted or retried by hand, in which recoveries,
activations and claims go on, whatever the workers report and however often
they fall silent, and in which no handler runs for ever: from some time on
every job is completed, failed or cancelled. -/
theorem every_job_finishes (settings : Settings) (ops : List Op)
    (input : ℕ → Op)
    (h : KeepsWorking settings (tableAfter settings ops) input) :
    ∃ N, ∀ n ≥ N,
      ∀ r ∈ (tableAt settings (tableAfter settings ops) input n).rows,
        r.status ∈ terminalStatuses := by
  have hwf := tableAfter_wellformed settings ops
  obtain ⟨N, hN⟩ := h.exists_silence hwf
  exact ⟨N, fun n hn r hr => h.terminal_of_silence hwf
    (fun s hs m hm => hN s hs m (hn.trans hm)) hr⟩

/-- Rounds of a recovery, an activation and a claim of job 1 by a worker that
never reports anything. -/
def silentRounds (n : ℕ) : Op :=
  if n % 3 = 0 then .recoverExpiredLeases n 1 []
  else if n % 3 = 1 then .activateDueScheduledJobs n 1 []
  else .claimJob n 1 "worker" 77 none

theorem silentRounds_recover (k : ℕ) :
    silentRounds (3 * k) = .recoverExpiredLeases (3 * k : ℕ) 1 [] :=
  if_pos (Nat.mul_mod_right 3 k)

theorem silentRounds_activate (k : ℕ) : silentRounds (3 * k + 1) =
    .activateDueScheduledJobs (3 * k + 1 : ℕ) 1 [] := by
  rw [silentRounds, if_neg (by omega), if_pos (by omega)]

theorem silentRounds_claim (k : ℕ) : silentRounds (3 * k + 2) =
    .claimJob (3 * k + 2 : ℕ) 1 "worker" 77 none := by
  rw [silentRounds, if_neg (by omega), if_neg (by omega)]

theorem silentRounds_cases (n : ℕ) :
    silentRounds n = .recoverExpiredLeases n 1 [] ∨
      silentRounds n = .activateDueScheduledJobs n 1 [] ∨
      silentRounds n = .claimJob n 1 "worker" 77 none := by
  unfold silentRounds
  split
  · exact Or.inl rfl
  · split
    · exact Or.inr (Or.inl rfl)
    · exact Or.inr (Or.inr rfl)

theorem every_job_finishes_silent_worker :
    ∃ N, ∀ n ≥ N, ∀ r ∈ (tableAt sampleSettings
      (tableAfter sampleSettings [sampleSubmit 1]) silentRounds n).rows,
        r.status ∈ terminalStatuses := by
  have hid : ∀ r ∈ (tableAfter sampleSettings [sampleSubmit 1]).rows,
      r.id = 1 := by decide +kernel
  have hlater : ∀ (T : ℤ) (k : ℕ), T.toNat < k → T < k := by omega
  refine every_job_finishes sampleSettings [sampleSubmit 1] silentRounds
    ⟨fun n => ?_, fun n id => ?_, fun r hr n T => ?_, fun r hr n T => ?_,
      fun r hr n _ => ?_, fun r hr => ⟨0, fun m _ now a lease hop => ?_⟩⟩
  · rcases silentRounds_cases n with h | h | h <;> rw [h] <;> rfl
  · rcases silentRounds_cases n with h | h | h <;> simp [h]
  · refine ⟨3 * (n + T.toNat + 1), by omega, (3 * (n + T.toNat + 1) : ℕ), 1,
      [], hlater T _ ?_, le_rfl, List.not_mem_nil, silentRounds_recover _⟩
    omega
  · refine ⟨3 * (n + T.toNat + 1) + 1, by omega,
      (3 * (n + T.toNat + 1) + 1 : ℕ), 1, [], hlater T _ ?_, le_rfl,
      List.not_mem_nil, silentRounds_activate _⟩
    omega
  · refine ⟨3 * n + 2, by omega, (3 * n + 2 : ℕ), "worker", 77, none, ?_⟩
    rw [hid r hr]
    exact silentRounds_claim n
  · rcases silentRounds_cases m with h | h | h <;> rw [h] at hop <;> cases hop

end JobQueue
