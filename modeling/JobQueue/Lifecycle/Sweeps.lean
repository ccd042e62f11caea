import JobQueue.Lifecycle.Recovery
import JobQueue.Lifecycle.Accounting
import JobQueue.Support.Draining

/-!
# Batched sweeps

A sweep without concurrent transactions takes the oldest rows it looks for, up
to its batch limit, and puts them out of its own reach: an activated row is
`PENDING`, a recovered one `SCHEDULED` or `FAILED`.  Successive sweeps
therefore drain the rows that are due.  PostgreSQL may return rows with equal
timestamps in any order, and in another one each time.
-/

namespace JobQueue

open Support

/-! ## Orders -/

instance : Std.Total nullsLast where
  total x y := by
    cases x with
    | none => cases y <;> simp [nullsLast]
    | some x =>
        cases y with
        | none => exact Or.inl trivial
        | some y => exact Int.le_total x y

instance : IsTrans (Option Time) nullsLast where
  trans x y z hxy hyz := by
    cases z with
    | none => cases x <;> trivial
    | some z =>
        cases y with
        | none => exact hyz.elim
        | some y =>
            cases x with
            | none => exact hxy.elim
            | some x => exact Int.le_trans hxy hyz

/-- `ORDER BY scheduled_at`. -/
def scheduleOrder (r s : Job) : Prop := nullsLast r.scheduledAt s.scheduledAt

/-- `ORDER BY lease_expires_at`. -/
def leaseOrder (r s : Job) : Prop :=
  nullsLast r.leaseExpiresAt s.leaseExpiresAt

instance : DecidableRel scheduleOrder := fun _ _ =>
  inferInstanceAs (Decidable (nullsLast _ _))

instance : DecidableRel leaseOrder := fun _ _ =>
  inferInstanceAs (Decidable (nullsLast _ _))

instance : Std.Total scheduleOrder where
  total _ _ := Std.Total.total (r := nullsLast) _ _

instance : Std.Total leaseOrder where
  total _ _ := Std.Total.total (r := nullsLast) _ _

instance : IsTrans Job scheduleOrder where
  trans _ _ _ := IsTrans.trans (r := nullsLast) _ _ _

instance : IsTrans Job leaseOrder where
  trans _ _ _ := IsTrans.trans (r := nullsLast) _ _ _

/-! ## Sweeps without concurrent transactions -/

/-- The rows a recovery looks for. -/
def Job.isExpired (now : Time) (r : Job) : Bool :=
  r.status = .processing && r.leaseExpired now

/-- `activate_due_scheduled_jobs` when no row is locked and the database puts
the due rows in the order of `σ`. -/
def activateOldest (σ : Sorting scheduleOrder) (t : Jobs) (now : Time)
    (limit : ℕ) : Except ServiceError (Jobs × List Job) :=
  activateSelected t now ((t.pick (Job.isDue now) σ limit).map Job.id)

/-- `recover_expired_leases` when no row is locked and the database puts the
expired rows in the order of `σ`. -/
def recoverOldest (σ : Sorting leaseOrder) (t : Jobs) (now : Time)
    (limit : ℕ) : Except ServiceError (Jobs × List (Attempt × AttemptResult)) :=
  recoverRows now (t.pick (Job.isExpired now) σ limit) t

theorem activateDueScheduledJobs_eq (t : Jobs) (now : Time) (limit : ℕ) :
    activateDueScheduledJobs t now limit [] =
      activateOldest (Sorting.stable scheduleOrder) t now limit := by
  have hp : (fun r : Job => r.isDue now && !([] : List UUID).contains r.id) =
      Job.isDue now := by
    funext r
    simp
  rw [activateDueScheduledJobs, selectDue, hp]
  rfl

theorem recoverExpiredLeases_eq (t : Jobs) (now : Time) (limit : ℕ) :
    recoverExpiredLeases t now limit [] =
      recoverOldest (Sorting.stable leaseOrder) t now limit := by
  have hp : (fun r : Job => r.status = .processing && r.leaseExpired now &&
      !([] : List UUID).contains r.id) = Job.isExpired now := by
    funext r
    simp [Job.isExpired]
  rw [recoverExpiredLeases, selectExpired, hp]
  rfl

/-! ## One call -/

/-- An activation of due rows returns them, activated, and touches no other
row. -/
theorem activateSelected_returns {t : Jobs} (hwf : Jobs.Wellformed t)
    {now : Time} {due : List UUID} (hnodup : due.Nodup)
    (hdue : ∀ id ∈ due, ∃ r, t.find? id = some r ∧ r.isDue now = true) :
    ∃ t' rows, activateSelected t now due = .ok (t', rows) ∧
      Jobs.Wellformed t' ∧ (rows.map Job.id).Perm due ∧
      (∀ s ∈ rows, ∃ r, t.find? s.id = some r ∧ s = activate.set r ∧
        t'.find? s.id = some s) ∧
      ∀ id, id ∉ due → t'.find? id = t.find? id := by
  have hupdate : activateSelected t now due = .ok
      (t.updateWhere (fun r => due.contains r.id && r.isDue now) activate,
        t.returning (fun r => due.contains r.id && r.isDue now) activate) := by
    refine executeUpdate_checked fun r hr hp => ?_
    have henabled : (Change.activated now).Enabled r := (by simpa using hp :
      r.id ∈ due ∧ r.isDue now = true).2
    exact (Change.wellformed henabled (hwf.of_mem hr)).violatedCheck
  refine ⟨_, _, hupdate, hwf.of_path fun id =>
    ⟨_, activateSelected_path hupdate id⟩, ?_, ?_, ?_⟩
  · have hids : (t.returning (fun r => due.contains r.id && r.isDue now)
        activate).map Job.id =
        (t.select fun r => due.contains r.id && r.isDue now).map Job.id := by
      rw [KeyedTable.returning, List.map_map]
      rfl
    rw [hids, List.perm_ext_iff_of_nodup (t.nodup_select _) hnodup]
    intro id
    rw [List.mem_map]
    constructor
    · rintro ⟨r, hr, rfl⟩
      have hp := (KeyedTable.mem_select.mp hr).2
      simp only [Bool.and_eq_true, List.contains_iff_mem] at hp
      exact hp.1
    · intro hid
      obtain ⟨r, hr, hrdue⟩ := hdue id hid
      obtain ⟨hmem, rfl⟩ := KeyedTable.find?_eq_some_iff.mp hr
      exact ⟨r, KeyedTable.mem_select.mpr ⟨hmem, by simp [hid, hrdue]⟩, rfl⟩
  · intro s hs
    obtain ⟨r, hr, rfl⟩ := List.mem_map.mp hs
    obtain ⟨hmem, hp⟩ := KeyedTable.mem_select.mp hr
    have hrow : t.find? (activate.set r).id = some r :=
      KeyedTable.find?_of_mem hmem
    refine ⟨r, hrow, rfl, ?_⟩
    rw [KeyedTable.find?_updateWhere, hrow, Option.map_some, if_pos hp]
  · intro id hid
    rw [KeyedTable.find?_updateWhere]
    cases hr : t.find? id with
    | none => rfl
    | some r =>
        have hkey : r.id = id := KeyedTable.key_of_find?_eq_some hr
        simp [hkey, hid]

/-- One activation returns the rows it picked, activated, and touches no other
row. -/
theorem activateOldest_returns {t : Jobs} (hwf : Jobs.Wellformed t)
    (σ : Sorting scheduleOrder) (now : Time) (limit : ℕ) :
    ∃ t' rows, activateOldest σ t now limit = .ok (t', rows) ∧
      Jobs.Wellformed t' ∧
      KeyedTable.SweepCall (Job.isDue now) σ limit t t' Job.id id
        (fun r s => s = activate.set r) rows := by
  have hdue : ∀ id ∈ (t.pick (Job.isDue now) σ limit).map Job.id,
      ∃ r, t.find? id = some r ∧ r.isDue now = true := by
    intro id hid
    obtain ⟨r, hr, rfl⟩ := List.mem_map.mp hid
    obtain ⟨hmem, hp⟩ := KeyedTable.mem_select.mp
      (KeyedTable.mem_of_mem_pick hr)
    exact ⟨r, KeyedTable.find?_of_mem hmem, hp⟩
  obtain ⟨t', rows, hactivate, hwf', hids, hrows, hothers⟩ :=
    activateSelected_returns hwf KeyedTable.nodup_pick hdue
  exact ⟨t', rows, hactivate, hwf', hids, hrows, hothers⟩

/-- One recovery returns a result for each row it picked and touches no other
row. -/
theorem recoverOldest_returns {t : Jobs} (hwf : Jobs.Wellformed t)
    (σ : Sorting leaseOrder) (now : Time) (limit : ℕ) :
    ∃ t' results, recoverOldest σ t now limit = .ok (t', results) ∧
      Jobs.Wellformed t' ∧
      KeyedTable.SweepCall (Job.isExpired now) σ limit t t'
        (fun x => x.1.jobId) (fun x => x.2.job) (Recovers now) results := by
  have hexpired : ∀ job ∈ t.pick (Job.isExpired now) σ limit,
      Expired t now job := by
    intro job hjob
    obtain ⟨hmem, hp⟩ := KeyedTable.mem_select.mp
      (KeyedTable.mem_of_mem_pick hjob)
    simp only [Job.isExpired, Bool.and_eq_true, decide_eq_true_eq] at hp
    exact ⟨KeyedTable.find?_of_mem hmem, hp.1, hp.2⟩
  obtain ⟨t', results, hrecover, hall, hsettled, hothers⟩ :=
    recoverRows_total hwf hexpired KeyedTable.nodup_pick
  refine ⟨t', results, hrecover, hwf.of_path fun id =>
    ⟨_, recoverRows_path hrecover id⟩, ?_, ?_, hothers⟩
  · have hids : List.Forall₂ Eq
        ((t.pick (Job.isExpired now) σ limit).map Job.id)
        (results.map fun x => x.1.jobId) := by
      rw [List.forall₂_map_left_iff, List.forall₂_map_right_iff]
      exact hall.imp fun job x h => (Attempt.of_eq_ok_iff.mp h.attempt).1
    rw [List.forall₂_eq_eq_eq] at hids
    rw [hids]
  · intro x hx
    obtain ⟨job, hjob, hrecovers, hrow⟩ := hsettled x hx
    have hid := (Attempt.of_eq_ok_iff.mp hrecovers.attempt).1
    exact ⟨job, hid ▸ (hexpired job hjob).row, hrecovers, hrow⟩

/-! ## Sequences of calls -/

theorem Recovers.status {now : Time} {r : Job} {x : Attempt × AttemptResult}
    (h : Recovers now r x) :
    x.2.job.status = .scheduled ∨ x.2.job.status = .failed := by
  rw [h.row]
  cases x.2.outcome with
  | retryScheduled => exact Or.inl rfl
  | permanentlyFailed => exact Or.inr rfl

theorem Recovers.not_expired {now : Time} {r : Job}
    {x : Attempt × AttemptResult} (h : Recovers now r x) (later : Time) :
    x.2.job.isExpired later = false := by
  rcases h.status with hstatus | hstatus
  · simp [Job.isExpired, hstatus]
  · simp [Job.isExpired, hstatus]

/-- Successive activations of the rows that are due return and drain them. -/
theorem activations_drain {t : Jobs} (hwf : Jobs.Wellformed t) {limit : ℕ}
    (hlimit : 0 < limit) (now : ℕ → Time) (σ : ℕ → Sorting scheduleOrder)
    (hsame : ∀ k, ∀ r ∈ t.rows, r.isDue (now k) = r.isDue (now 0)) :
    ∃ (T : ℕ → Jobs) (rows : ℕ → List Job), T 0 = t ∧
      (∀ k, activateOldest (σ k) (T k) (now k) limit =
        .ok (T (k + 1), rows k)) ∧
      (∀ k, ∀ s ∈ rows k, ∃ r, t.find? s.id = some r ∧ s = activate.set r ∧
        (T (k + 1)).find? s.id = some s) ∧
      KeyedTable.Drained (Job.isDue (now 0)) scheduleOrder limit T
        fun k => (rows k).map Job.id := by
  obtain ⟨T, rows, rfl, hcalls⟩ := exists_calls
    (R := fun k s s' rows =>
      activateOldest (σ k) s (now k) limit = .ok (s', rows) ∧
        KeyedTable.SweepCall (Job.isDue (now k)) (σ k) limit s s' Job.id id
          (fun r s => s = activate.set r) rows) hwf fun k s hs => by
      obtain ⟨s', rows, hcall, hwf', hsweep⟩ :=
        activateOldest_returns hs (σ k) (now k) limit
      exact ⟨s', rows, ⟨hcall, hsweep⟩, hwf'⟩
  obtain ⟨hrows, hdrained⟩ := KeyedTable.drained_of_calls
    (p := fun k => Job.isDue (now k)) (fun k => (hcalls k).2)
    (fun k r s hs j => by rw [hs]; rfl) hsame hlimit
  exact ⟨T, rows, rfl, fun k => (hcalls k).1, hrows, hdrained⟩

/-- Successive recoveries of the rows that are expired return and drain
them. -/
theorem recoveries_drain {t : Jobs} (hwf : Jobs.Wellformed t) {limit : ℕ}
    (hlimit : 0 < limit) (now : ℕ → Time) (σ : ℕ → Sorting leaseOrder)
    (hsame : ∀ k, ∀ r ∈ t.rows, r.isExpired (now k) = r.isExpired (now 0)) :
    ∃ (T : ℕ → Jobs) (results : ℕ → List (Attempt × AttemptResult)),
      T 0 = t ∧
      (∀ k, recoverOldest (σ k) (T k) (now k) limit =
        .ok (T (k + 1), results k)) ∧
      (∀ k, ∀ x ∈ results k, ∃ r, t.find? x.1.jobId = some r ∧
        Recovers (now k) r x ∧
        (T (k + 1)).find? x.1.jobId = some x.2.job) ∧
      KeyedTable.Drained (Job.isExpired (now 0)) leaseOrder limit T
        fun k => (results k).map fun x => x.1.jobId := by
  obtain ⟨T, results, rfl, hcalls⟩ := exists_calls
    (R := fun k s s' results =>
      recoverOldest (σ k) s (now k) limit = .ok (s', results) ∧
        KeyedTable.SweepCall (Job.isExpired (now k)) (σ k) limit s s'
          (fun x => x.1.jobId) (fun x => x.2.job) (Recovers (now k)) results)
    hwf fun k s hs => by
      obtain ⟨s', results, hcall, hwf', hsweep⟩ :=
        recoverOldest_returns hs (σ k) (now k) limit
      exact ⟨s', results, ⟨hcall, hsweep⟩, hwf'⟩
  obtain ⟨hresults, hdrained⟩ := KeyedTable.drained_of_calls
    (p := fun k => Job.isExpired (now k)) (fun k => (hcalls k).2)
    (fun k r x hx j => hx.not_expired (now j)) hsame hlimit
  exact ⟨T, results, rfl, fun k => (hcalls k).1, hresults, hdrained⟩

/-! ## After a recovery -/

theorem claims_eq (settings : Settings) (t : Jobs) (ops : List Op)
    (id : UUID) :
    claims id ((service settings).trace t ops) =
      (historyFrom settings t ops id).countP Change.isClaim := by
  rw [claims, historyFrom, List.countP_flatMap]
  congr 1
  exact List.map_congr_left fun call _ => claimsBy_eq settings id call

/-- A row that is `PROCESSING` again was claimed in between. -/
theorem claims_pos_of_processing {settings : Settings} {t : Jobs}
    {later : List Op} {id : UUID} {r s : Job} (hr : t.find? id = some r)
    (hidle : r.status ≠ .processing)
    (hs : ((service settings).run t later).find? id = some s)
    (hprocessing : s.status = .processing) :
    0 < claims id ((service settings).trace t later) := by
  have hbusy := RowPath.busy (service_path_from settings t later id)
  have hbefore : busy (some r) = 0 := by simp [busy, hidle]
  have hafter : busy (some s) = 1 := by simp [busy, hprocessing]
  rw [hr, hs, hbefore, hafter] at hbusy
  rw [claims_eq]
  omega

/-- Batched sweeps drain exactly, oldest first.  In every reachable table, for
every batch limit and every sequence of calls at whose times the same rows are
due, in whatever order the database returns ties: the calls return; call
number `k` sweeps `min limit (n - k * limit)` of the `n` rows that are due,
every one of them is swept by exactly one call, no later call sweeps a row with
an earlier timestamp than an earlier call, and all other rows stay as they
are.  This holds for activations and for recoveries; and a recovered row is
not expired in any later state unless it was claimed in between. -/
theorem batched_sweeps_drain (settings : Settings) (ops : List Op)
    {limit : ℕ} (hlimit : 1 ≤ limit) :
    (∀ t now, activateDueScheduledJobs t now limit [] =
        activateOldest (Sorting.stable scheduleOrder) t now limit ∧
      recoverExpiredLeases t now limit [] =
        recoverOldest (Sorting.stable leaseOrder) t now limit) ∧
    (∀ (now : ℕ → Time) (σ : ℕ → Sorting scheduleOrder),
      (∀ k, ∀ r ∈ (tableAfter settings ops).rows,
        r.isDue (now k) = r.isDue (now 0)) →
      ∃ (T : ℕ → Jobs) (rows : ℕ → List Job),
        T 0 = tableAfter settings ops ∧
        (∀ k, activateOldest (σ k) (T k) (now k) limit =
          .ok (T (k + 1), rows k)) ∧
        (∀ k, ∀ s ∈ rows k, ∃ r,
          (tableAfter settings ops).find? s.id = some r ∧
            s = activate.set r ∧ (T (k + 1)).find? s.id = some s) ∧
        KeyedTable.Drained (Job.isDue (now 0)) scheduleOrder limit T
          fun k => (rows k).map Job.id) ∧
    (∀ (now : ℕ → Time) (σ : ℕ → Sorting leaseOrder),
      (∀ k, ∀ r ∈ (tableAfter settings ops).rows,
        r.isExpired (now k) = r.isExpired (now 0)) →
      ∃ (T : ℕ → Jobs) (results : ℕ → List (Attempt × AttemptResult)),
        T 0 = tableAfter settings ops ∧
        (∀ k, recoverOldest (σ k) (T k) (now k) limit =
          .ok (T (k + 1), results k)) ∧
        (∀ k, ∀ x ∈ results k, ∃ r,
          (tableAfter settings ops).find? x.1.jobId = some r ∧
            Recovers (now k) r x ∧
            (T (k + 1)).find? x.1.jobId = some x.2.job) ∧
        KeyedTable.Drained (Job.isExpired (now 0)) leaseOrder limit T
          fun k => (results k).map fun x => x.1.jobId) ∧
    ∀ (now : Time) (σ : Sorting leaseOrder) (t' : Jobs)
      (results : List (Attempt × AttemptResult)),
      recoverOldest σ (tableAfter settings ops) now limit =
        .ok (t', results) →
      ∀ x ∈ results, ∀ later s at_,
        ((service settings).run t' later).find? x.1.jobId = some s →
        s.isExpired at_ = true →
        0 < claims x.1.jobId ((service settings).trace t' later) := by
  have hwf := tableAfter_wellformed settings ops
  refine ⟨fun t now => ⟨activateDueScheduledJobs_eq t now limit,
      recoverExpiredLeases_eq t now limit⟩,
    fun now σ hsame => activations_drain hwf hlimit now σ hsame,
    fun now σ hsame => recoveries_drain hwf hlimit now σ hsame, ?_⟩
  intro now σ t' results hrecover x hx later s at_ hs hexpired
  obtain ⟨t'', results', hcall, -, hsweep⟩ :=
    recoverOldest_returns hwf σ now limit
  obtain ⟨rfl, rfl⟩ := Prod.mk.inj
    (Except.ok.inj (hcall.symm.trans hrecover))
  obtain ⟨r, -, hrecovers, hrow⟩ := hsweep.answered x hx
  have hidle : x.2.job.status ≠ .processing := by
    rcases hrecovers.status with hstatus | hstatus
    · simp [hstatus]
    · simp [hstatus]
  have hprocessing : s.status = .processing := by
    simp only [Job.isExpired, Bool.and_eq_true, decide_eq_true_eq] at hexpired
    exact hexpired.1
  exact claims_pos_of_processing hrow hidle hs hprocessing

/-- Three jobs that wait for their time, two of them for the same, and one
whose worker claims it and falls silent. -/
def sampleBacklog : List Op :=
  [.createJob (SubmitClock.at 0) 1
      { sampleRequest with scheduledAt := some (seconds 30) } none,
    .createJob (SubmitClock.at 0) 2
      { sampleRequest with scheduledAt := some (seconds 10) } none,
    .createJob (SubmitClock.at 0) 3
      { sampleRequest with scheduledAt := some (seconds 30) } none,
    sampleSubmit 4, .claimJob 0 4 "worker" 7 none]

/-- Sweeps of two rows each, after two minutes. -/
theorem batched_sweeps_drain_backlog :
    (∃ (T : ℕ → Jobs) (rows : ℕ → List Job),
      T 0 = tableAfter sampleSettings sampleBacklog ∧
      (∀ k, activateOldest (Sorting.stable scheduleOrder) (T k)
        (seconds 120) 2 = .ok (T (k + 1), rows k)) ∧
      (rows 0).length = 2 ∧ (rows 1).length = 1 ∧ (rows 2).length = 0) ∧
    ∃ (T : ℕ → Jobs) (results : ℕ → List (Attempt × AttemptResult)),
      T 0 = tableAfter sampleSettings sampleBacklog ∧
      (∀ k, recoverOldest (Sorting.stable leaseOrder) (T k)
        (seconds 120) 2 = .ok (T (k + 1), results k)) ∧
      (results 0).length = 1 ∧ (results 1).length = 0 := by
  obtain ⟨-, hactivations, hrecoveries, -⟩ :=
    batched_sweeps_drain sampleSettings sampleBacklog (show 1 ≤ 2 by decide)
  constructor
  · obtain ⟨T, rows, hstart, hcalls, -, hdrained⟩ := hactivations
      (fun _ => seconds 120) (fun _ => Sorting.stable scheduleOrder)
      fun _ _ _ => rfl
    have hdue : ((T 0).select (Job.isDue (seconds 120))).length = 3 := by
      rw [hstart]
      decide +kernel
    have hcount : ∀ k, (rows k).length = min 2 (3 - k * 2) := by
      intro k
      rw [← hdue, ← hdrained.count k, List.length_map]
    exact ⟨T, rows, hstart, hcalls, hcount 0, hcount 1, hcount 2⟩
  · obtain ⟨T, results, hstart, hcalls, -, hdrained⟩ := hrecoveries
      (fun _ => seconds 120) (fun _ => Sorting.stable leaseOrder)
      fun _ _ _ => rfl
    have hexpired :
        ((T 0).select (Job.isExpired (seconds 120))).length = 1 := by
      rw [hstart]
      decide +kernel
    have hcount : ∀ k, (results k).length = min 2 (1 - k * 2) := by
      intro k
      rw [← hexpired, ← hdrained.count k, List.length_map]
    exact ⟨T, results, hstart, hcalls, hcount 0, hcount 1⟩

end JobQueue
