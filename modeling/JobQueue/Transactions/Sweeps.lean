import JobQueue.Transactions.Locality
import JobQueue.Lifecycle.Recovery

/-!
# Open sweeps

A recovery sweep is one transaction of many statements, and other sessions
commit in between.  The rows it has locked stay as it found them, so that it
settles each of them, and what it has written by the end is what it would have
written in a single step at the time of its commit.
-/

namespace JobQueue

open Support

/-! ## Settling rows -/

theorem Recovers.unique {now : Time} {job : Job} {x y : Attempt × AttemptResult}
    (hx : Recovers now job x) (hy : Recovers now job y) : x = y := by
  obtain ⟨a, outcome, row⟩ := x
  obtain ⟨b, outcome', row'⟩ := y
  have hattempt := hx.attempt.symm.trans hy.attempt
  have houtcome := hx.outcome.trans hy.outcome.symm
  have hrow := hx.row
  have hrow' := hy.row
  dsimp only at hattempt houtcome hrow hrow'
  obtain rfl := Except.ok.inj hattempt
  subst houtcome
  rw [hrow, hrow']

theorem recovers_unique {now : Time} {jobs : List Job}
    {xs ys : List (Attempt × AttemptResult)}
    (hx : List.Forall₂ (Recovers now) jobs xs)
    (hy : List.Forall₂ (Recovers now) jobs ys) : xs = ys := by
  induction hx generalizing ys with
  | nil =>
      cases hy
      rfl
  | cons hhead _ ih =>
      cases hy with
      | cons hhead' htail' => rw [hhead.unique hhead', ih htail']

theorem Recovers.jobId {now : Time} {job : Job} {x : Attempt × AttemptResult}
    (h : Recovers now job x) : x.1.jobId = job.id :=
  (Attempt.of_eq_ok_iff.mp h.attempt).1.symm

theorem failureChange_id (cause : Cause) (now : Time) (a : Attempt)
    (error : String) (outcome : AttemptOutcome) (r : Job) :
    ((failureChange cause now a error outcome).apply r).id = r.id := by
  cases outcome <;> rfl

theorem Recovers.id {now : Time} {job : Job} {x : Attempt × AttemptResult}
    (h : Recovers now job x) : x.2.job.id = job.id := by
  rw [h.row, failureChange_id]

theorem recovers_ids {now : Time} {jobs : List Job}
    {xs : List (Attempt × AttemptResult)}
    (h : List.Forall₂ (Recovers now) jobs xs) :
    xs.map (fun x => x.2.job.id) = jobs.map Job.id := by
  induction h with
  | nil => rfl
  | cons hhead _ ih => rw [List.map_cons, List.map_cons, hhead.id, ih]

theorem applyFailedAttempt_keys {t t' : Jobs} {now : Time} {a : Attempt}
    {error : String} {guarded : Bool} {result : Option AttemptResult}
    (h : applyFailedAttempt t now a error guarded = .ok (t', result)) :
    t'.rows.map Job.id = t.rows.map Job.id := by
  obtain ⟨p, s, outcome, -, heq⟩ := applyFailedAttempt_eq h
  rw [heq] at h
  obtain ⟨x, hfirst, hret⟩ := bind_eq_ok.mp h
  cases hret
  obtain ⟨y, hupdate, hret⟩ := bind_eq_ok.mp hfirst
  cases hret
  rw [(executeUpdate_eq_ok hupdate).1]
  exact KeyedTable.keys_updateWhere _ _ _

theorem recoverRows_keys {now : Time} {jobs : List Job} {t t' : Jobs}
    {results : List (Attempt × AttemptResult)}
    (h : recoverRows now jobs t = .ok (t', results)) :
    t'.rows.map Job.id = t.rows.map Job.id := by
  induction jobs generalizing t results with
  | nil =>
      cases h
      rfl
  | cons job rest ih =>
      obtain ⟨a, -, h⟩ := bind_eq_ok.mp h
      obtain ⟨⟨t₁, result⟩, happly, h⟩ := bind_eq_ok.mp h
      obtain ⟨⟨t₂, recovered⟩, hrest, h⟩ := bind_eq_ok.mp h
      cases result with
      | none =>
          cases h
          exact (ih hrest).trans (applyFailedAttempt_keys happly)
      | some result =>
          cases h
          exact (ih hrest).trans (applyFailedAttempt_keys happly)

def recoveredRows (recovered : List (Attempt × AttemptResult)) : List Job :=
  (recovered.map fun x => x.2.job).reverse

theorem mem_recoveredRows {recovered : List (Attempt × AttemptResult)}
    {id : UUID} : id ∈ (recoveredRows recovered).map Job.id ↔
      id ∈ recovered.map fun x => x.2.job.id := by
  simp [recoveredRows]

/-- Settling expired rows in one go lays their new versions over the table. -/
theorem recoverRows_eq {now : Time} {jobs : List Job} {t : Jobs}
    {recovered : List (Attempt × AttemptResult)} (hwf : Jobs.Wellformed t)
    (hexpired : ∀ job ∈ jobs, Expired t now job)
    (hnodup : (jobs.map Job.id).Nodup)
    (hall : List.Forall₂ (Recovers now) jobs recovered) :
    recoverRows now jobs t =
      .ok (t.overwrite (recoveredRows recovered), recovered) := by
  obtain ⟨t', results, hrecover, hresults, hafter, hothers⟩ :=
    recoverRows_total hwf hexpired hnodup
  obtain rfl := recovers_unique hall hresults
  have hids := recovers_ids hall
  have hnodup' : ((recoveredRows recovered).map Job.id).Nodup := by
    rw [recoveredRows, List.map_reverse, List.nodup_reverse, List.map_map]
    exact hids ▸ hnodup
  have htable : t' = t.overwrite (recoveredRows recovered) := by
    apply KeyedTable.ext_find?
    · rw [recoverRows_keys hrecover, KeyedTable.keys_overwrite]
    · intro id
      by_cases hid : id ∈ recovered.map fun x => x.2.job.id
      · obtain ⟨x, hx, rfl⟩ := List.mem_map.mp hid
        obtain ⟨job, hjob, hrecovers, hfind⟩ := hafter x hx
        rw [hrecovers.jobId, ← hrecovers.id] at hfind
        have hrow : (t.find? x.2.job.id).isSome = true := by
          rw [hrecovers.id, (hexpired job hjob).row]
          rfl
        rw [hfind, KeyedTable.find?_overwrite_of_mem hnodup' _ hrow]
        simp only [recoveredRows, List.mem_reverse]
        exact List.mem_map_of_mem hx
      · rw [KeyedTable.find?_overwrite_of_notMem t
          (fun hmem => hid (mem_recoveredRows.mp hmem))]
        exact hothers id (hids ▸ hid)
  rw [hrecover, htable]

/-! ## The sweep as a transaction -/

structure Sweep.Sound (t : Jobs) (s : Sweep) : Prop where
  expired : ∀ job ∈ s.expired, Expired t s.now job
  nodup : (s.expired.map Job.id).Nodup
  again : ∀ t', KeyedTable.MovesAround (s.expired.map Job.id) t t' →
    ∃ locked, selectExpired t' s.now s.limit locked = s.expired
  settled : ∃ done, s.expired = done ++ s.remaining ∧
    List.Forall₂ (Recovers s.now) done s.recovered
  written : s.written = recoveredRows s.recovered

theorem Sweep.Sound.moved {t t' : Jobs} {s : Sweep} (h : s.Sound t)
    (hmoves : KeyedTable.MovesAround (s.expired.map Job.id) t t') :
    s.Sound t' := by
  refine ⟨fun job hjob => ?_, h.nodup, fun t'' hmoves' => ?_, h.settled,
    h.written⟩
  · obtain ⟨hrow, hprocessing, hlease⟩ := h.expired job hjob
    refine ⟨?_, hprocessing, hlease⟩
    rw [hmoves.same job.id (List.mem_map_of_mem hjob)]
    exact hrow
  · exact h.again t'' (hmoves.trans hmoves')

theorem Sweep.sound_of_select (t : Jobs) (now : Time) (limit : ℕ)
    (locked : List UUID) :
    Sweep.Sound t ⟨now, limit, locked, selectExpired t now limit locked,
      selectExpired t now limit locked, [], []⟩ where
  expired _ hjob := expired_of_mem_selectExpired hjob
  nodup := KeyedTable.nodup_selectOrdered _ _ _ limit
  again _ hmoves := selectExpired_local hmoves
  settled := ⟨[], rfl, .nil⟩
  written := rfl

/-- A sweep settles its next row, whatever others do meanwhile: it neither
raises nor passes the row over. -/
theorem Sweep.Sound.settle {t : Jobs} {s : Sweep} (h : s.Sound t)
    (hwf : Jobs.Wellformed t) :
    ∃ s', s.settle t = .ok s' ∧ s'.Sound t ∧ s'.expired = s.expired ∧
      s'.remaining = s.remaining.tail := by
  obtain ⟨now, limit, locked, expired, remaining, written, recovered⟩ := s
  obtain ⟨hexpired, hnodup, hagain, ⟨done, hdone, hall⟩, hwritten⟩ := h
  dsimp only at hexpired hnodup hagain hdone hall hwritten
  subst hwritten
  subst hdone
  cases remaining with
  | nil =>
      exact ⟨_, rfl, ⟨hexpired, hnodup, hagain, ⟨done, rfl, hall⟩, rfl⟩, rfl,
        rfl⟩
  | cons job rest =>
      have hjob := hexpired job (by simp)
      have hrecover := recoverRows_eq hwf
        (fun j hj => hexpired j (List.mem_append_left _ hj))
        (hnodup.sublist ((List.sublist_append_left _ _).map _)) hall
      have hwf' : Jobs.Wellformed (t.overwrite (recoveredRows recovered)) :=
        hwf.of_path fun id => ⟨_, recoverRows_path hrecover id⟩
      have hnot : job.id ∉ done.map Job.id := by
        rw [List.map_append, List.nodup_append] at hnodup
        exact fun hmem => hnodup.2.2 _ hmem job.id (by simp) rfl
      have hjob' : Expired (t.overwrite (recoveredRows recovered)) now job := by
        refine ⟨?_, hjob.processing, hjob.lease⟩
        rw [KeyedTable.find?_overwrite_of_notMem t]
        · exact hjob.row
        · rw [mem_recoveredRows, recovers_ids hall]
          exact hnot
      obtain ⟨a, ha⟩ := (hwf _ _ hjob.row).exists_attempt hjob.processing
      obtain ⟨t₁, happly, -⟩ := (hjob'.live hwf' ha).applyFailedAttempt
        .recovery now hjob.lease leaseExpiredError
      have hrecovers : Recovers now job (a, ⟨a.failureOutcome, (failureChange
          .recovery now a leaseExpiredError a.failureOutcome).apply job⟩) :=
        ⟨ha, failureOutcome_of ha, rfl⟩
      refine ⟨_, bind_eq_ok.mpr ⟨a, ha, bind_eq_ok.mpr ⟨_, happly, rfl⟩⟩,
        ⟨hexpired, hnodup, hagain, ⟨done ++ [job], by simp, ?_⟩, ?_⟩, rfl,
        rfl⟩
      · exact List.rel_append hall (.cons hrecovers .nil)
      · simp [recoveredRows]

/-- A sweep that has settled all its rows does at its commit what the service
does in one step. -/
theorem Sweep.Sound.commit {settings : Settings} {t : Jobs} {s : Sweep}
    (h : s.Sound t) (hwf : Jobs.Wellformed t) (hdone : s.remaining = []) :
    ∃ locked, (service settings).step t (s.call.1.relocked locked) =
      (t.overwrite s.written, s.call.2) := by
  obtain ⟨done, hexpired, hall⟩ := h.settled
  rw [hdone, List.append_nil] at hexpired
  obtain ⟨locked, hselect⟩ := h.again t (KeyedTable.MovesAround.refl _ t)
  refine ⟨locked, step_of_execute ?_⟩
  rw [Sweep.call, Op.relocked, Op.execute, recoverExpiredLeases, hselect,
    recoverRows_eq hwf h.expired h.nodup (hexpired ▸ hall), h.written]
  rfl

end JobQueue
