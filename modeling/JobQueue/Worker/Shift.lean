import JobQueue.Lifecycle.Fencing
import JobQueue.Lifecycle.Transitions
import JobQueue.Worker.Pickup

/-!
# A worker alone with a backlog

`run_once` again and again, in a worker that has the stores to itself and whose
attempts end any way they like.  The jobs it executes are those of the queue
that can be claimed, each once, by priority and then in the order of their
enqueues; it makes no difference how many stale entries stand between them.
-/

namespace JobQueue

open Support

/-- One call of `run_once`: what it draws, and the heartbeats, reports and the
settling write `_execute` makes with the attempt. -/
structure Round where
  draw : ℕ → Time × UUID
  writes : Job → Attempt → List FencedWrite

/-- What `_execute` makes of the table. -/
def Round.execute (settings : Settings) (round : Round) (row : Job)
    (attempt : Attempt) (jobs : Jobs) : Jobs :=
  (service settings).run jobs
    ((round.writes row attempt).map (FencedWrite.op attempt))

/-- `run_once`, and the job it executes. -/
def serveOne (settings : Settings) (workerId : String)
    (leaseSeconds : Duration) (round : Round) (jobs : Jobs) (redis : Redis) :
    Except PickupError (Jobs × Redis × Option UUID) :=
  match pickUp settings workerId leaseSeconds false round.draw
      maxCandidatesPerCycle jobs redis with
  | .error e => .error e
  | .ok (jobs', redis', none) => .ok (jobs', redis', none)
  | .ok (jobs', redis', some (row, attempt)) =>
      .ok (round.execute settings row attempt jobs', redis', some row.id)

theorem runOnce_eq_serveOne (settings : Settings) (workerId : String)
    (leaseSeconds : Duration) (round : Round) (jobs : Jobs) (redis : Redis) :
    runOnce settings workerId leaseSeconds false round.draw
        (round.execute settings) jobs redis =
      (serveOne settings workerId leaseSeconds round jobs redis).map
        fun x => (x.1, x.2.1, x.2.2.isSome) := by
  unfold runOnce serveOne
  rcases pickUp settings workerId leaseSeconds false round.draw
    maxCandidatesPerCycle jobs redis with e | ⟨jobs', redis', _ | x⟩
  · rfl
  · rfl
  · rfl

/-- One call after another, and the jobs they execute, in order. -/
def serveAll (settings : Settings) (workerId : String)
    (leaseSeconds : Duration) :
    List Round → Jobs → Redis → Except PickupError (Jobs × Redis × List UUID)
  | [], jobs, redis => .ok (jobs, redis, [])
  | round :: rest, jobs, redis =>
      match serveOne settings workerId leaseSeconds round jobs redis with
      | .error e => .error e
      | .ok (jobs', redis', served) =>
          (serveAll settings workerId leaseSeconds rest jobs' redis').map
            fun x => (x.1, x.2.1, served.toList ++ x.2.2)

def canBeClaimed (jobs : Jobs) (id : UUID) : Bool :=
  (getJob jobs id).any Job.isClaimable

/-- The jobs of the queue that can be claimed, in service order. -/
def backlog (jobs : Jobs) (redis : Redis) : List UUID :=
  (serviceOrder redis).filter (canBeClaimed jobs)

/-! ## One call -/

theorem Redis.Wellformed.nodup_serviceOrder {r : Redis}
    (h : r.Wellformed) : (serviceOrder r).Nodup := by
  refine List.Nodup.map_on (fun m hm m' hm' hsame => ?_) r.ready.nodup
  obtain ⟨field, hfield⟩ := (h.queued m).mp hm
  obtain ⟨field', hfield'⟩ := (h.queued m').mp hm'
  obtain ⟨c, hc, rfl⟩ := h.decodes field m hfield
  obtain ⟨c', hc', rfl⟩ := h.decodes field' m' hfield'
  rw [← QueueCandidate.member_of_fromMember hc,
    ← QueueCandidate.member_of_fromMember hc', jobOf_member,
    jobOf_member] at hsame
  rw [hsame, hfield'] at hfield
  exact (Option.some.inj hfield).symm

theorem DropsFront.serviceOrder {n : ℕ} {r r' : Redis}
    (h : DropsFront n r r') :
    JobQueue.serviceOrder r' = (JobQueue.serviceOrder r).drop n := by
  rw [JobQueue.serviceOrder, h.members, List.map_drop]
  rfl

theorem find?_run_of_writes (settings : Settings) {a : Attempt} {id : UUID}
    (hne : id ≠ a.jobId) (ws : List FencedWrite) (t : Jobs) :
    ((service settings).run t (ws.map (FencedWrite.op a))).find? id =
      t.find? id := by
  induction ws generalizing t with
  | nil => rfl
  | cons w ws ih =>
      have haim : (w.op a).aim = some a.jobId := by cases w <;> rfl
      rw [List.map_cons, Machine.run_cons, ih]
      exact find?_step_of_aim haim hne

theorem Jobs.Wellformed.run {settings : Settings} {t : Jobs}
    (h : Jobs.Wellformed t) (ops : List Op) :
    Jobs.Wellformed ((service settings).run t ops) :=
  h.of_path fun id => ⟨_, service_path_from settings t ops id⟩

theorem backlog_congr {jobs jobs' : Jobs} {redis : Redis}
    (h : ∀ id ∈ serviceOrder redis, jobs'.find? id = jobs.find? id) :
    backlog jobs' redis = backlog jobs redis := by
  apply List.filter_congr
  intro id hid
  rw [canBeClaimed, canBeClaimed, getJob, getJob, h id hid]

/-- What one call makes of the stores. -/
structure Serves (jobs : Jobs) (redis : Redis) (jobs' : Jobs)
    (redis' : Redis) (served : Option UUID) : Prop where
  table : Jobs.Wellformed jobs'
  queue : redis'.Wellformed
  shrinks : size redis' ≤ size redis - 1
  order : served.toList ++ backlog jobs' redis' = backlog jobs redis
  others : ∀ id, served ≠ some id → jobs'.find? id = jobs.find? id

theorem serveOne_serves (settings : Settings) (workerId : String)
    (leaseSeconds : Duration) (round : Round) {jobs : Jobs} {redis : Redis}
    (hjobs : Jobs.Wellformed jobs) (hredis : redis.Wellformed) :
    ∃ jobs' redis' served,
      serveOne settings workerId leaseSeconds round jobs redis =
        .ok (jobs', redis', served) ∧
      Serves jobs redis jobs' redis' served := by
  have hbefore : ∀ n ≤ firstServable jobs redis,
      ((serviceOrder redis).take n).filter (canBeClaimed jobs) = [] := by
    intro n hn
    rw [List.filter_eq_nil_iff, serviceOrder, ← List.map_take]
    intro id hid
    obtain ⟨m, hm, rfl⟩ := List.mem_map.mp hid
    exact (Bool.not_eq_true _).mpr (not_servable_before hn hm)
  by_cases h : firstServable jobs redis < maxCandidatesPerCycle ∧
      firstServable jobs redis < size redis
  · obtain ⟨m, r, now, token, row, attempt, jobs₁, redis', hm, hr, hclaimable,
      hset, hattempt, hrw, hdrop, hpick⟩ := pickUp_serves settings workerId
        leaseSeconds round.draw
        (fun s hs => (hjobs.of_mem hs).violatedCheck) hredis h.1 h.2
    have hid : row.id = jobOf m := KeyedTable.key_of_find?_eq_some hrw.after
    have hjob : attempt.jobId = jobOf m := by
      rw [← hid]
      exact (Attempt.of_eq_ok_iff.mp hattempt).1.symm
    have hothers : ∀ id, id ≠ jobOf m →
        (round.execute settings row attempt jobs₁).find? id =
          jobs.find? id := by
      intro id hne
      rw [Round.execute, find?_run_of_writes settings (hjob ▸ hne),
        hrw.others id hne]
    have horder : serviceOrder redis =
        (serviceOrder redis).take (firstServable jobs redis) ++
          jobOf m :: serviceOrder redis' := by
      have hget : (serviceOrder redis)[firstServable jobs redis]? =
          some (jobOf m) := by
        rw [serviceOrder, List.getElem?_map, hm]
        rfl
      obtain ⟨hlt, hget⟩ := List.getElem?_eq_some_iff.mp hget
      rw [hdrop.serviceOrder, ← hget, List.cons_getElem_drop_succ,
        List.take_append_drop]
    have hrest : ∀ id ∈ serviceOrder redis', id ≠ jobOf m := by
      rintro id hmem rfl
      have hnodup := hredis.nodup_serviceOrder
      rw [horder] at hnodup
      exact (List.nodup_cons.mp hnodup.of_append_right).1 hmem
    refine ⟨round.execute settings row attempt jobs₁, redis', some row.id,
      by rw [serveOne, hpick], Jobs.Wellformed.run ?_ _,
      hdrop.wellformed hredis, ?_, ?_, ?_⟩
    · exact hjobs.of_path fun id => ⟨_, path_of_rewrites
        (c := .claimed now workerId token _) hclaimable (hset ▸ hrw) id⟩
    · rw [hdrop.size]
      omega
    · rw [backlog_congr fun id hmem => hothers id (hrest id hmem)]
      conv_rhs => rw [backlog, horder]
      have hserved : canBeClaimed jobs (jobOf m) = true := by
        rw [canBeClaimed, getJob, hr]
        exact hclaimable
      rw [List.filter_append, hbefore _ le_rfl, List.nil_append,
        List.filter_cons_of_pos hserved, hid]
      rfl
    · intro id hne
      exact hothers id fun heq => hne (by rw [heq, hid])
  · have hnone : min maxCandidatesPerCycle (size redis) ≤
        firstServable jobs redis := by omega
    obtain ⟨redis', hdrop, hpick⟩ := pickUp_discards settings workerId
      leaseSeconds round.draw hredis hnone
    refine ⟨jobs, redis', none, by rw [serveOne, hpick], hjobs,
      hdrop.wellformed hredis, ?_, ?_, fun _ _ => rfl⟩
    · rw [hdrop.size]
      have hpos : 0 < maxCandidatesPerCycle := by decide
      omega
    · conv_rhs => rw [backlog, ← List.take_append_drop
        (min maxCandidatesPerCycle (size redis)) (serviceOrder redis)]
      rw [List.filter_append, hbefore _ hnone, ← hdrop.serviceOrder]
      rfl

/-! ## Call after call -/

theorem serveAll_serves (settings : Settings) (workerId : String)
    (leaseSeconds : Duration) (rounds : List Round) {jobs : Jobs}
    {redis : Redis} (hjobs : Jobs.Wellformed jobs)
    (hredis : redis.Wellformed) :
    ∃ jobs' redis' served,
      serveAll settings workerId leaseSeconds rounds jobs redis =
        .ok (jobs', redis', served) ∧
      size redis' ≤ size redis - rounds.length ∧
      served ++ backlog jobs' redis' = backlog jobs redis ∧
      ∀ id, id ∉ served → jobs'.find? id = jobs.find? id := by
  induction rounds generalizing jobs redis with
  | nil => exact ⟨jobs, redis, [], rfl, le_rfl, rfl, fun _ _ => rfl⟩
  | cons round rest ih =>
      obtain ⟨jobs₁, redis₁, first, hone, hserves⟩ := serveOne_serves settings
        workerId leaseSeconds round hjobs hredis
      obtain ⟨jobs', redis', served, hall, hsize, horder, hothers⟩ :=
        ih hserves.table hserves.queue
      refine ⟨jobs', redis', first.toList ++ served, ?_, ?_, ?_, ?_⟩
      · rw [serveAll, hone]
        simp only [hall]
        rfl
      · have hshrinks := hserves.shrinks
        rw [List.length_cons]
        omega
      · rw [List.append_assoc, horder, hserves.order]
      · intro id hid
        rw [List.mem_append, not_or] at hid
        rw [hothers id hid.2]
        refine hserves.others id fun heq => hid.1 ?_
        rw [heq]
        exact List.mem_singleton_self id

/-- A backlog is served in order.  Whatever runs the service and the queue have
seen, while the counter is below `2 ^ 53`: a worker that has the stores to
itself executes a prefix of the backlog, and leaves the rest of it for later.
As many calls of `run_once` as there are entries execute all of it and empty
the queue.  The backlog are the waiting jobs that can be claimed, each once, by
decreasing priority and then by latest enqueue; no other row changes, whatever
the attempts write. -/
theorem backlog_served_in_order (settings : Settings) (workerId : String)
    (leaseSeconds : Duration) (ops : List Op) (commands : List QueueOp)
    (hbound : (queueAfter commands).sequence < sequenceBound)
    (rounds : List Round) :
    let jobs := tableAfter settings ops
    let redis := queueAfter commands
    ((∀ id, id ∈ backlog jobs redis ↔
        waiting id (queueCalls commands) = true ∧
          canBeClaimed jobs id = true) ∧
      (backlog jobs redis).Nodup ∧
      (backlog jobs redis).Pairwise (ServedBefore (queueCalls commands))) ∧
    ∃ jobs' redis' served,
      serveAll settings workerId leaseSeconds rounds jobs redis =
        .ok (jobs', redis', served) ∧
      served ++ backlog jobs' redis' = backlog jobs redis ∧
      (size redis ≤ rounds.length →
        served = backlog jobs redis ∧ size redis' = 0) ∧
      ∀ id, id ∉ served → jobs'.find? id = jobs.find? id := by
  intro jobs redis
  have hrep := represents_after hbound
  have hredis := hrep.wellformed hbound
  refine ⟨⟨fun id => ?_, hredis.nodup_serviceOrder.filter _,
    (hrep.pairwise_serviceOrder hbound).filter _⟩, ?_⟩
  · rw [backlog, List.mem_filter, hrep.mem_serviceOrder hbound]
  · obtain ⟨jobs', redis', served, hall, hsize, horder, hothers⟩ :=
      serveAll_serves settings workerId leaseSeconds rounds
        (tableAfter_wellformed settings ops) hredis
    refine ⟨jobs', redis', served, hall, horder, fun hlength => ?_, hothers⟩
    have hzero : size redis' = 0 := by
      rw [Nat.sub_eq_zero_of_le hlength] at hsize
      exact Nat.le_zero.mp hsize
    have hempty : backlog jobs' redis' = [] := by
      have hentries : redis'.ready.entries = [] :=
        List.length_eq_zero_iff.mp hzero
      rw [backlog, serviceOrder, SortedSet.members, hentries]
      rfl
    rw [hempty, List.append_nil] at horder
    exact ⟨horder, hzero⟩

/-- A call whose attempt writes nothing. -/
def silentRound : Round where
  draw left := (0, left + 7)
  writes _ _ := []

/-- Two calls serve the pending job behind the cancelled one. -/
theorem backlog_served_in_order_stale_front :
    ∃ jobs' redis', serveAll sampleSettings "worker" (seconds 60)
        [silentRound, silentRound] staleFrontJobs staleFrontQueue =
          .ok (jobs', redis', [2]) ∧
      size redis' = 0 := by
  obtain ⟨-, jobs', redis', served, hall, -, hserved, -⟩ :=
    backlog_served_in_order sampleSettings "worker" (seconds 60)
      [sampleSubmit 1, sampleSubmit 2, .cancelJob 1]
      [.enqueue 1 50, .enqueue 2 50] (by decide) [silentRound, silentRound]
  obtain ⟨hbacklog, hsize⟩ := hserved (by decide +kernel)
  have hjobs : served = [2] := hbacklog.trans (by decide +kernel)
  exact ⟨jobs', redis', hjobs ▸ hall, hsize⟩

end JobQueue
