import JobQueue.Api.Health
import JobQueue.Deployment.Visibility

/-!
# The ready queue and the pending jobs

`GET /health` reads the count of `PENDING` jobs and the size of the ready
queue one after the other, and calls a difference between them a visibility
window.  The size of that window has a bound: a `PENDING` job that is missing
from the queue was removed from it between the two readings, or the enqueue of
its latest entry is undelivered; and every queued job is in the table.
-/

namespace JobQueue

open Support

/-- The jobs whose entries the commands remove. -/
def removals (ops : List QueueOp) : List UUID :=
  ops.filterMap fun op =>
    match op with
    | .remove c => some c.jobId
    | _ => none

/-! ## The size of the queue -/

section

variable {calls : List (QueueOp × QueueReply)} {r : Redis}

theorem length_le_size (h : Represents calls r)
    (hbound : r.sequence < sequenceBound) {ids : List UUID}
    (hnodup : ids.Nodup)
    (hids : ∀ id ∈ ids, (r.entries id.str).isSome = true) :
    ids.length ≤ size r := by
  let member (id : UUID) : Text := (r.entries id.str).getD []
  have hmember : ∀ id ∈ ids, r.entries id.str = some (member id) := by
    intro id hid
    obtain ⟨m, hm⟩ := Option.isSome_iff_exists.mp (hids id hid)
    simp [member, hm]
  have hdistinct : (ids.map member).Nodup := by
    refine (List.nodup_map_iff_inj_on hnodup).mpr ?_
    intro id hid id' hid' heq
    have hentry := hmember id' hid'
    rw [← heq] at hentry
    exact UUID.str_injective
      (h.field_unique hbound (hmember id hid) hentry)
  have hsub : ids.map member ⊆ r.ready.members := by
    intro m hm
    obtain ⟨id, hid, rfl⟩ := List.mem_map.mp hm
    exact h.mem_ready_iff.mpr ⟨_, hmember id hid⟩
  have hle := (List.subperm_of_subset hdistinct hsub).length_le
  rw [List.length_map] at hle
  rwa [SortedSet.members, List.length_map] at hle

/-- The queue is at most as long as any list of all the jobs in it. -/
theorem size_le_length (h : Represents calls r) {ids : List UUID}
    (hids : ∀ id : UUID, (r.entries id.str).isSome = true → id ∈ ids) :
    size r ≤ ids.length := by
  have hsub : r.ready.members ⊆ ids.map fun id =>
      (r.entries id.str).getD [] := by
    intro m hm
    obtain ⟨field, hfield⟩ := h.mem_ready_iff.mp hm
    obtain ⟨id, k, rfl, -, -⟩ := h.minted hfield
    refine List.mem_map.mpr ⟨id, hids id (by rw [hfield]; rfl), ?_⟩
    rw [hfield, Option.getD_some]
  have hle := (List.subperm_of_subset r.ready.nodup hsub).length_le
  rw [List.length_map] at hle
  rwa [List.length_map] at hle

theorem sequence_le_run (r : Redis) (ops : List QueueOp) :
    r.sequence ≤ (queue.run r ops).sequence := by
  induction ops generalizing r with
  | nil => exact le_rfl
  | cons op ops ih => exact (sequence_le_step r op).trans (ih _)

/-- A queued job stays in the queue until a command removes its entry. -/
theorem queued_or_removed {ops : List QueueOp} (h : Represents calls r)
    (hrun : (queue.run r ops).sequence < sequenceBound) {id : UUID}
    (hsome : (r.entries id.str).isSome = true) :
    ((queue.run r ops).entries id.str).isSome = true ∨
      id ∈ removals ops := by
  induction ops generalizing calls r with
  | nil => exact Or.inl hsome
  | cons op ops ih =>
      have hnext : (queue.step r op).1.sequence < sequenceBound :=
        (sequence_le_run _ ops).trans_lt hrun
      by_cases hremoves : ∃ c, op = .remove c ∧
          r.entries id.str = some c.member
      · obtain ⟨c, rfl, hentry⟩ := hremoves
        have hbefore := (sequence_le_step r (.remove c)).trans_lt hnext
        obtain ⟨-, hid⟩ := observed_of_entry h hbefore hentry
        obtain rfl := UUID.str_injective hid
        exact Or.inr List.mem_cons_self
      · have hkeep : ∀ c, op = .remove c →
            r.entries id.str ≠ some c.member :=
          fun c hop hentry => hremoves ⟨c, hop, hentry⟩
        rcases ih (h.step op hnext) hrun
          (isSome_entries_step h hnext (Or.inr hsome) hkeep) with
            hqueued | hremoved
        · exact Or.inl hqueued
        · refine Or.inr ?_
          rw [removals, List.filterMap_cons]
          split
          · exact hremoved
          · exact List.mem_cons_of_mem _ hremoved

end

/-! ## Every queued job is in the table -/

theorem isSome_find?_step {settings : Settings} {t : Jobs} {id : UUID}
    (h : (t.find? id).isSome = true) (op : Op) :
    (((service settings).step t op).1.find? id).isSome = true := by
  obtain ⟨r, hr⟩ := Option.isSome_iff_exists.mp h
  have hpath := service_step_path settings t op id
  rw [hr] at hpath
  exact Option.isSome_iff_exists.mpr hpath.exists_some

theorem isSome_find?_perform {settings : Settings} {s : Store} {id : UUID}
    (h : (s.jobs.find? id).isSome = true) (pid : ℕ) (i : Instruction) :
    ((s.perform settings pid i).1.jobs.find? id).isSome = true := by
  rw [perform_jobs]
  cases callOf (s.perform settings pid i).2.2 with
  | none => exact h
  | some call => exact isSome_find?_step h call.1

/-- The jobs that enqueue commands name are in the table. -/
def EnqueuesJobs (ops : List QueueOp) (t : Jobs) : Prop :=
  ∀ id priority, .enqueue id priority ∈ ops → (t.find? id).isSome = true

/-- The jobs a process still has to enqueue are in the table. -/
def OwesJobs (p : Process) (t : Jobs) : Prop :=
  ∀ row ∈ p.remaining, (t.find? row.id).isSome = true

theorem mem_issues_of_commandOf {o : Option Event} {id : UUID}
    {priority : ℤ} (h : commandOf o = some (.enqueue id priority)) :
    id ∈ issues o := by
  unfold commandOf at h
  split at h
  · cases h
  · cases h
    exact List.mem_singleton_self id
  · cases h

/-- What one turn enqueues or owes is in the table. -/
theorem turn_enqueuesJobs {s : Store} {p : Process} (hp : OwesJobs p s.jobs)
    (settings : Settings) (pid : ℕ) (a : Action) :
    (∀ id ∈ issues (s.perform settings pid (p.next pid s a)).2.2,
      (s.jobs.find? id).isSome = true) ∧
      OwesJobs (s.perform settings pid (p.next pid s a)).2.1
        (s.perform settings pid (p.next pid s a)).1.jobs := by
  rcases p.next_publishing pid s a with
    ⟨row, rest, fault, rfl, hnext⟩ | ⟨op, -, hnext⟩ | hsilent
  · rw [hnext]
    refine ⟨?_, fun row' hrow' => isSome_find?_perform (hp row' ?_) pid _⟩
    · intro id hid
      obtain rfl := List.mem_singleton.mp hid
      exact hp row List.mem_cons_self
    · have hrest : row' ∈ (Process.publish rest).remaining := hrow'
      rw [remaining_publish] at hrest
      exact List.mem_cons_of_mem row hrest
  · rw [hnext]
    refine ⟨fun id hid => (List.not_mem_nil hid).elim, fun row hrow => ?_⟩
    have hreported : row ∈ reports (s.perform settings pid (.database op
        fun outcome => .publish (publications (op, outcome)))).2.2 := by
      simpa [Store.perform, reports] using hrow
    rw [find?_of_mem_reports hreported]
    rfl
  · obtain ⟨-, hissues, hq⟩ := perform_silent hsilent settings pid s
    refine ⟨fun id hid => by simp [hissues] at hid, fun row hrow => ?_⟩
    rcases hq.remaining with hcrashed | hsame
    · rw [hcrashed] at hrow
      exact (List.not_mem_nil hrow).elim
    · rw [hsame] at hrow
      exact isSome_find?_perform (hp row hrow) pid _

theorem enqueuesJobs_after (settings : Settings)
    (actions : List (ℕ × Action)) :
    EnqueuesJobs (commands (historyAfter settings actions))
      (after settings actions).shared.jobs := by
  refine (deployment_invariant settings
    (G := fun h s => EnqueuesJobs (commands h) s.jobs)
    (L := fun _ s _ p => OwesJobs p s.jobs)
    (fun _ _ hmem => (List.not_mem_nil hmem).elim)
    (fun _ _ hrow => (List.not_mem_nil hrow).elim) ?_ ?_ actions).2.1
  · intro h s pid p a _ hqueue hp
    obtain ⟨hissued, howes⟩ := turn_enqueuesJobs hp settings pid a
    refine ⟨fun id priority hmem => isSome_find?_perform ?_ pid _, howes⟩
    rw [commands_concat, List.mem_append, Option.mem_toList] at hmem
    rcases hmem with hold | hnew
    · exact hqueue id priority hold
    · exact hissued id (mem_issues_of_commandOf hnew)
  · intro h s pid p a other q _ _ _ _ hq row hrow
    exact isSome_find?_perform (hq row hrow) pid _

/-- The queue holds jobs of the table only, each once. -/
theorem size_le_rows (settings : Settings) (actions : List (ℕ × Action))
    (hbound : (after settings actions).shared.redis.sequence <
      sequenceBound) :
    size (after settings actions).shared.redis ≤
      (after settings actions).shared.jobs.rows.length := by
  have hrep := (projects_after settings actions).represents hbound
  rw [← List.length_map Job.id]
  refine size_le_length hrep fun id hid => ?_
  obtain ⟨m, hm⟩ := Option.isSome_iff_exists.mp hid
  obtain ⟨id', k, priority, hstr, hlatest, -⟩ := hrep.hash _ m hm
  obtain rfl := UUID.str_injective hstr
  have hget := List.mem_of_getElem? (getElem?_latestEnqueue hlatest)
  have henqueued : .enqueue id priority ∈
      commands (historyAfter settings actions) := by
    obtain ⟨⟨op, reply⟩, hcall, hop⟩ := List.mem_filterMap.mp hget
    have hmem : op ∈ commands (historyAfter settings actions) := by
      rw [← queue.map_fst_trace Redis.empty
        (commands (historyAfter settings actions))]
      exact List.mem_map_of_mem hcall
    cases op with
    | enqueue id' priority' =>
        obtain ⟨rfl, rfl⟩ := Prod.mk.inj (Option.some.inj hop)
        exact hmem
    | _ => cases hop
  obtain ⟨row, hrow⟩ := Option.isSome_iff_exists.mp
    (enqueuesJobs_after settings actions id priority henqueued)
  obtain ⟨hmem, rfl⟩ := KeyedTable.find?_eq_some_iff.mp hrow
  exact List.mem_map_of_mem hmem

/-! ## The window -/

/-- A job that was pending is queued, or has been removed from the queue
since, or the enqueue of its latest entry was undelivered. -/
theorem queued_removed_or_undelivered (settings : Settings)
    (actions later : List (ℕ × Action))
    (hbound : (after settings (actions ++ later)).shared.redis.sequence <
      sequenceBound) {id : UUID}
    (h : isPendingAt (after settings actions).shared.jobs id = true) :
    ((after settings (actions ++ later)).shared.redis.entries
        id.str).isSome = true ∨
      id ∈ removals (commands ((deployment settings).machine.trace
        (after settings actions) later)) ∨
      ∃ n pid a, actions[n]? = some (pid, a) ∧
        LatestEntry settings actions id n ∧
        Undelivered settings actions id pid := by
  have hredis : (after settings (actions ++ later)).shared.redis =
      queue.run (after settings actions).shared.redis
        (commands ((deployment settings).machine.trace
          (after settings actions) later)) := by
    rw [(projects_after settings (actions ++ later)).redis,
      (projects_after settings actions).redis, queueAfter, queueAfter,
      ← queue.run_append, historyAfter, Machine.trace_append, commands,
      List.filterMap_append]
    rfl
  rw [hredis] at hbound ⊢
  have hbefore := (sequence_le_run _ _).trans_lt hbound
  have hrep := (projects_after settings actions).represents hbefore
  rcases queued_or_undelivered settings actions h with hqueued | hstate
  · rcases queued_or_removed hrep hbound
      (kept_after settings actions hbefore id h hqueued) with hin | hremoved
    · exact Or.inl hin
    · exact Or.inr (Or.inl hremoved)
  · exact Or.inr (Or.inr hstate)

/-- The window between the two numbers of `GET /health`.  In any deployment,
with crashes and failing Redis calls, whose counter stays below `2 ^ 53`: if
the rows are counted at one time and the queue measured at a later one, the
report is healthy whatever the two numbers are, but `pending` exceeds `ready`
by at most the number of remove commands in between and the number of jobs
that were pending when the rows were counted and whose latest publication is
undelivered, and `ready` is at most the number of jobs. -/
theorem health_window_is_bounded (settings : Settings)
    (actions later : List (ℕ × Action))
    (hbound : (after settings (actions ++ later)).shared.redis.sequence <
      sequenceBound) :
    let counted := (after settings actions).shared.jobs
    let measured := (after settings (actions ++ later)).shared
    let removed := removals (commands ((deployment settings).machine.trace
      (after settings actions) later))
    let report := healthAt (.ok () : Except ServiceError Unit) (.ok ())
      (.ok (size measured.redis)) counted
    ∃ pending ready, report.1 = 200 ∧
      report.2.queue.pending = some pending ∧
      report.2.queue.ready = some ready ∧
      ready ≤ measured.jobs.rows.length ∧
      ∃ owed : List UUID, owed.Nodup ∧
        pending ≤ ready + removed.length + owed.length ∧
        ∀ id ∈ owed, isPendingAt counted id = true ∧
          ∃ n pid a, actions[n]? = some (pid, a) ∧
            LatestEntry settings actions id n ∧
            Undelivered settings actions id pid := by
  intro counted measured removed report
  have hrep := (projects_after settings (actions ++ later)).represents hbound
  let ids := (counted.select fun r => r.status = .pending).map Job.id
  have hnodup : ids.Nodup := counted.nodup_select _
  let queued (id : UUID) : Bool := (measured.redis.entries id.str).isSome
  let missing := ids.filter fun id => !queued id
  let owed := missing.filter fun id => !removed.contains id
  refine ⟨ids.length, size measured.redis, rfl, ?_, rfl,
    size_le_rows settings (actions ++ later) hbound, owed,
    (hnodup.filter _).filter _, ?_, ?_⟩
  · have hcount : report.2.queue.count .pending =
        some (countWith counted .pending) :=
      count_healthAt (.ok ()) (.ok ()) _ counted .pending
    rw [List.length_map]
    exact hcount
  · have hqueued : (ids.filter queued).length ≤ size measured.redis :=
      length_le_size hrep hbound (hnodup.filter _) fun id hid =>
        (List.mem_filter.mp hid).2
    have hremoved : (missing.filter fun id => removed.contains id).length ≤
        removed.length := by
      refine (List.subperm_of_subset ((hnodup.filter _).filter _) ?_).length_le
      intro id hid
      exact List.contains_iff_mem.mp (List.mem_filter.mp hid).2
    have hids : ids.length = (ids.filter queued).length + missing.length :=
      List.length_eq_length_filter_add queued
    have hmissing : missing.length =
        (missing.filter fun id => removed.contains id).length + owed.length :=
      List.length_eq_length_filter_add fun id => removed.contains id
    omega
  · intro id hid
    obtain ⟨hmissing, hnotRemoved⟩ := List.mem_filter.mp hid
    obtain ⟨hmem, hnotQueued⟩ := List.mem_filter.mp hmissing
    obtain ⟨r, hr, rfl⟩ := List.mem_map.mp hmem
    obtain ⟨hrow, hstatus⟩ := List.mem_filter.mp hr
    have hpending : isPendingAt counted r.id = true :=
      isPendingAt_iff.mpr ⟨r, KeyedTable.find?_of_mem hrow,
        of_decide_eq_true hstatus⟩
    rcases queued_removed_or_undelivered settings actions later hbound
      hpending with hin | hout | hstate
    · simp [queued, measured, hin] at hnotQueued
    · simp [removed, hout] at hnotRemoved
    · exact ⟨hpending, hstate⟩

/-- A job whose enqueue is lost on its way to Redis. -/
def lostEnqueue : List (ℕ × Action) :=
  [(0, .start (.submitJob sampleRequest none)),
   (0, .insert (SubmitClock.at 0) 1), (0, .redis .lostRequest)]

theorem health_window_of_lost_enqueue :
    ∃ owed : List UUID, 1 ≤ owed.length ∧
      ∀ id ∈ owed,
        isPendingAt (after sampleSettings lostEnqueue).shared.jobs id = true ∧
        ∃ n pid a, lostEnqueue[n]? = some (pid, a) ∧
          LatestEntry sampleSettings lostEnqueue id n ∧
          Undelivered sampleSettings lostEnqueue id pid := by
  obtain ⟨pending, ready, -, hpending, hready, -, owed, -, hle, howed⟩ :=
    health_window_is_bounded sampleSettings lostEnqueue []
      (by decide +kernel)
  have hone : (healthAt (.ok () : Except ServiceError Unit) (.ok ())
      (.ok (size (after sampleSettings (lostEnqueue ++ [])).shared.redis))
      (after sampleSettings lostEnqueue).shared.jobs).2.queue.pending =
        some 1 := by decide +kernel
  have hnone : size (after sampleSettings (lostEnqueue ++ [])).shared.redis =
      0 := by decide +kernel
  obtain rfl := Option.some.inj (hone.symm.trans hpending)
  obtain rfl : ready = 0 := (Option.some.inj hready).symm.trans hnone
  have hremoved : (removals (commands ((deployment
      sampleSettings).machine.trace (after sampleSettings lostEnqueue)
        []))).length = 0 := rfl
  exact ⟨owed, by omega, howed⟩

end JobQueue
