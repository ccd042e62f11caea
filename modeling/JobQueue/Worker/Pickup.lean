import JobQueue.Deployment.Processes
import JobQueue.ReadyQueue.Order

/-!
# Sequential pickup

`run_once` of a worker that has the stores to itself.  The loop over candidates
is followed through both stores: it drops the entries at the front of the queue
whose jobs nobody can claim, and it claims and executes the first job that can
be claimed, unless the bound on candidates stops it before.
-/

namespace JobQueue

open Support

/-! ## The cycle of a worker -/

/-- What may leave `run_once` as an exception. -/
inductive PickupError
  | service (e : ServiceError)
  | queue (e : QueueError)

/-- Drop a candidate this worker could not claim, unless the job is still
claimable. -/
def discardUnclaimable (jobs : Jobs) (redis : Redis)
    (candidate : QueueCandidate) : Redis :=
  if (getJob jobs candidate.jobId).any Job.isClaimable then redis
  else (remove redis candidate).1

section Cycle

variable (settings : Settings) (workerId : String) (leaseSeconds : Duration)
  (stop : Bool) (draw : ℕ → Time × UUID)

/-- The loop of `run_once` up to `_execute`, with `left` candidates to go.
`draw` supplies the clock reading and the fresh token of each claim. -/
def pickUp : ℕ → Jobs → Redis →
    Except PickupError (Jobs × Redis × Option (Job × Attempt))
  | 0, jobs, redis => .ok (jobs, redis, none)
  | left + 1, jobs, redis =>
      if stop then .ok (jobs, redis, none)
      else
        match peek redis with
        | .error e => .error (.queue e)
        | .ok none => .ok (jobs, redis, none)
        | .ok (some candidate) =>
            if stop then .ok (jobs, redis, none)
            else
              match claimJob settings jobs (draw left).1 candidate.jobId
                  workerId (draw left).2 (some leaseSeconds) with
              | .error e => .error (.service e)
              | .ok (jobs', none) =>
                  pickUp left jobs' (discardUnclaimable jobs' redis candidate)
              | .ok (jobs', some row) =>
                  match Attempt.of row with
                  | .error e => .error (.service e)
                  | .ok attempt =>
                      .ok (jobs', (remove redis candidate).1,
                        some (row, attempt))

/-- `run_once`: execute at most one job.  `execute` is what `_execute` makes
of the table; it does not touch the queue. -/
def runOnce (execute : Job → Attempt → Jobs → Jobs) (jobs : Jobs)
    (redis : Redis) : Except PickupError (Jobs × Redis × Bool) :=
  match pickUp settings workerId leaseSeconds stop draw maxCandidatesPerCycle
      jobs redis with
  | .error e => .error e
  | .ok (jobs', redis', none) => .ok (jobs', redis', false)
  | .ok (jobs', redis', some (row, attempt)) =>
      .ok (execute row attempt jobs', redis', true)

end Cycle

/-! ## The queue a worker finds -/

/-- The representation invariant of the ready queue: every mapping leads from
a job to a member of that job, and the sorted set holds exactly the members
that are mapped to. -/
structure Redis.Wellformed (r : Redis) : Prop where
  decodes : ∀ field m, r.entries field = some m →
    ∃ c, QueueCandidate.fromMember m = .ok c ∧ c.jobId.str = field
  queued : ∀ m, m ∈ r.ready.members ↔ ∃ field, r.entries field = some m

theorem Represents.wellformed {calls : List (QueueOp × QueueReply)}
    {r : Redis} (h : Represents calls r)
    (hbound : r.sequence < sequenceBound) : r.Wellformed where
  decodes _ _ := h.decode hbound
  queued _ := h.mem_ready_iff

/-- `r'` is `r` without its first `n` entries and their mappings. -/
structure DropsFront (n : ℕ) (r r' : Redis) : Prop where
  ready : r'.ready.entries = r.ready.entries.drop n
  entries : ∀ field, r'.entries field =
    (r.entries field).filter fun m => m ∉ r.ready.members.take n
  sequence : r'.sequence = r.sequence

theorem DropsFront.zero (r : Redis) : DropsFront 0 r r where
  ready := rfl
  entries field := by cases r.entries field <;> simp [Option.filter]
  sequence := rfl

theorem DropsFront.members {n : ℕ} {r r' : Redis} (h : DropsFront n r r') :
    r'.ready.members = r.ready.members.drop n := by
  rw [SortedSet.members, SortedSet.members, h.ready, List.map_drop]

theorem DropsFront.trans {n k : ℕ} {r r' r'' : Redis}
    (h : DropsFront n r r') (h' : DropsFront k r' r'') :
    DropsFront (n + k) r r'' where
  ready := by rw [h'.ready, h.ready, List.drop_drop]
  entries field := by
    rw [h'.entries, h.entries, Option.filter_filter, h.members]
    congr 1
    funext m
    simp [List.take_add]
  sequence := h'.sequence.trans h.sequence

theorem DropsFront.wellformed {n : ℕ} {r r' : Redis} (h : DropsFront n r r')
    (hwf : r.Wellformed) : r'.Wellformed where
  decodes field m hm := by
    rw [h.entries] at hm
    exact hwf.decodes field m (Option.filter_eq_some_iff.mp hm).1
  queued m := by
    have hsplit := List.take_append_drop n r.ready.members
    have hnodup : (r.ready.members.take n ++
        r.ready.members.drop n).Nodup := by
      rw [hsplit]
      exact r.ready.nodup
    have hdisjoint := (List.nodup_append.mp hnodup).2.2
    rw [h.members]
    constructor
    · intro hm
      obtain ⟨field, hfield⟩ := (hwf.queued m).mp (List.mem_of_mem_drop hm)
      refine ⟨field, ?_⟩
      rw [h.entries, Option.filter_eq_some_iff]
      exact ⟨hfield, by simpa using fun ht => hdisjoint m ht m hm rfl⟩
    · rintro ⟨field, hfield⟩
      rw [h.entries, Option.filter_eq_some_iff] at hfield
      obtain ⟨hfield, hout⟩ := hfield
      have hmem : m ∈ r.ready.members := (hwf.queued m).mpr ⟨field, hfield⟩
      rw [← hsplit, List.mem_append] at hmem
      exact hmem.resolve_left (by simpa using hout)

/-! ## One candidate -/

theorem range_front (r : Redis) :
    r.ready.range 0 (1 - 1) = r.ready.members.take 1 := by
  simpa using r.ready.range_zero (n := 1) le_rfl

theorem peek_nil {r : Redis} (h : r.ready.entries = []) :
    peek r = .ok none := by
  rw [peek, peekMany, range_front, SortedSet.members, h]
  rfl

theorem Redis.Wellformed.peek_cons {r : Redis} (hwf : r.Wellformed)
    {x : ℤ × Text} {rest : List (ℤ × Text)}
    (h : r.ready.entries = x :: rest) :
    ∃ c, peek r = .ok (some c) ∧ c.member = x.2 ∧ c.jobId = jobOf x.2 := by
  have hmember : x.2 ∈ r.ready.members := by
    simp [SortedSet.members, h]
  obtain ⟨field, hfield⟩ := (hwf.queued x.2).mp hmember
  obtain ⟨c, hc, -⟩ := hwf.decodes field x.2 hfield
  have hname := QueueCandidate.member_of_fromMember hc
  refine ⟨c, ?_, hname, ?_⟩
  · rw [peek, peekMany, range_front, SortedSet.members, h, List.map_cons,
      List.take_succ_cons, List.take_zero, List.mapM_cons, hc]
    rfl
  · rw [← hname, jobOf_member]

theorem Redis.Wellformed.remove_front {r : Redis} (hwf : r.Wellformed)
    {x : ℤ × Text} {rest : List (ℤ × Text)}
    (h : r.ready.entries = x :: rest) {c : QueueCandidate}
    (hc : c.member = x.2) : DropsFront 1 r (remove r c).1 := by
  have hready : (r.ready.remove c.member).entries =
      r.ready.entries.drop 1 := by
    rw [hc, SortedSet.entries_remove_front h, h]
    rfl
  have htake : r.ready.members.take 1 = [c.member] := by
    rw [SortedSet.members, h, hc]
    rfl
  have hfield : r.entries c.jobId.str = some c.member := by
    have hmember : c.member ∈ r.ready.members := by
      simp [SortedSet.members, h, hc]
    obtain ⟨field, hfield⟩ := (hwf.queued _).mp hmember
    obtain ⟨d, hd, rfl⟩ := hwf.decodes field _ hfield
    rwa [Except.ok.inj (hd.symm.trans c.fromMember_member)] at hfield
  have hstate : (remove r c).1 =
      { r with
        ready := r.ready.remove c.member
        entries := Function.update r.entries c.jobId.str none } := by
    simp [remove, removeScript, Redis.zrem, Redis.hget, Redis.hdel, hfield]
  rw [hstate]
  refine ⟨hready, ?_, rfl⟩
  intro field
  rw [htake]
  by_cases hsame : field = c.jobId.str
  · subst hsame
    simp [hfield, Option.filter]
  · have hother : ∀ m, r.entries field = some m → m ≠ c.member := by
      rintro m hm rfl
      obtain ⟨d, hd, hid⟩ := hwf.decodes field _ hm
      rw [Except.ok.inj (hd.symm.trans c.fromMember_member)] at hid
      exact hsame hid.symm
    change Function.update r.entries c.jobId.str none field = _
    rw [Function.update_of_ne hsame]
    cases hm : r.entries field with
    | none => rfl
    | some m => simp [Option.filter, hother m hm]

def isServable (jobs : Jobs) (m : Text) : Bool :=
  (getJob jobs (jobOf m)).any Job.isClaimable

/-- The position of the first entry, in service order, whose job can be
claimed; the size of the queue if there is none. -/
def firstServable (jobs : Jobs) (redis : Redis) : ℕ :=
  redis.ready.members.findIdx (isServable jobs)

theorem firstServable_front {jobs : Jobs} {redis : Redis} {x : ℤ × Text}
    {rest : List (ℤ × Text)} (h : redis.ready.entries = x :: rest)
    (hx : isServable jobs x.2 = true) : firstServable jobs redis = 0 := by
  simp [firstServable, SortedSet.members, h, List.findIdx_cons, hx]

/-- Dropping an entry that cannot be claimed moves the others up by one. -/
theorem firstServable_behind {jobs : Jobs} {redis redis' : Redis}
    {x : ℤ × Text} {rest : List (ℤ × Text)}
    (h : redis.ready.entries = x :: rest)
    (hx : isServable jobs x.2 = false) (hdrop : DropsFront 1 redis redis') :
    firstServable jobs redis = firstServable jobs redis' + 1 ∧
      size redis = size redis' + 1 := by
  have hrest : redis'.ready.entries = rest := by
    rw [hdrop.ready, h]
    rfl
  constructor
  · simp [firstServable, SortedSet.members, h, hrest, List.findIdx_cons, hx]
  · simp [size, SortedSet.card, h, hrest]

theorem isServable_eq_true_iff {jobs : Jobs} {m : Text} :
    isServable jobs m = true ↔
      ∃ r, jobs.find? (jobOf m) = some r ∧ r.isClaimable = true := by
  simp [isServable, getJob, Option.any_eq_true]

/-! ## The loop over candidates -/

section Loop

variable (settings : Settings) (workerId : String) (leaseSeconds : Duration)
  (draw : ℕ → Time × UUID) {jobs : Jobs} {redis : Redis}

theorem pickUp_empty (left : ℕ) (h : redis.ready.entries = []) :
    pickUp settings workerId leaseSeconds false draw left jobs redis =
      .ok (jobs, redis, none) := by
  cases left with
  | zero => rfl
  | succ left => simp [pickUp, peek_nil h]

/-- A candidate that cannot be claimed is dropped, and the loop goes on. -/
theorem pickUp_stale (left : ℕ) (hwf : redis.Wellformed) {x : ℤ × Text}
    {rest : List (ℤ × Text)} (h : redis.ready.entries = x :: rest)
    (hx : isServable jobs x.2 = false) :
    ∃ redis', DropsFront 1 redis redis' ∧
      pickUp settings workerId leaseSeconds false draw (left + 1) jobs
          redis =
        pickUp settings workerId leaseSeconds false draw left jobs redis' := by
  obtain ⟨c, hpeek, hmember, hjob⟩ := hwf.peek_cons h
  have hnone : ∀ r, jobs.find? c.jobId = some r → r.isClaimable = false := by
    intro r hr
    rw [hjob] at hr
    by_contra hclaimable
    rw [isServable_eq_true_iff.mpr ⟨r, hr, by simpa using hclaimable⟩] at hx
    cases hx
  have hclaim : claimJob settings jobs (draw left).1 c.jobId workerId
      (draw left).2 (some leaseSeconds) = .ok (jobs, none) :=
    claimJob_of_unclaimable hnone _ _ _ _ _
  refine ⟨(remove redis c).1, hwf.remove_front h hmember, ?_⟩
  have hdiscard : discardUnclaimable jobs redis c = (remove redis c).1 := by
    rw [discardUnclaimable, if_neg]
    rw [hjob]
    simpa [isServable] using hx
  rw [pickUp, if_neg (by decide), hpeek]
  simp only [Bool.false_eq_true, if_false, hclaim, hdiscard]

/-- A candidate that can be claimed is claimed and dropped from the queue. -/
theorem pickUp_claims (left : ℕ)
    (hchecked : ∀ r ∈ jobs.rows, r.violatedCheck = none)
    (hwf : redis.Wellformed) {x : ℤ × Text} {rest : List (ℤ × Text)}
    (h : redis.ready.entries = x :: rest) {r : Job}
    (hr : jobs.find? (jobOf x.2) = some r) (hclaimable : r.isClaimable = true) :
    ∃ row attempt jobs' redis',
      row = (claim (draw left).1 workerId (draw left).2 (leaseDeadline
        settings (draw left).1 (some leaseSeconds))).set r ∧
      Attempt.of row = .ok attempt ∧ Rewrites jobs jobs' (jobOf x.2) r row ∧
      DropsFront 1 redis redis' ∧
      pickUp settings workerId leaseSeconds false draw (left + 1) jobs
          redis = .ok (jobs', redis', some (row, attempt)) := by
  obtain ⟨c, hpeek, hmember, hjob⟩ := hwf.peek_cons h
  have hmem := (KeyedTable.find?_eq_some_iff.mp hr).1
  obtain ⟨jobs', row, hset, hclaim, hrw⟩ := claimJob_of_claimable hr
    hclaimable (hchecked r hmem) settings (draw left).1 workerId
    (draw left).2 (some leaseSeconds)
  obtain ⟨attempt, hattempt⟩ : ∃ attempt, Attempt.of row = .ok attempt := by
    rw [hset]
    exact ⟨_, rfl⟩
  rw [← hjob] at hclaim
  refine ⟨row, attempt, jobs', _, hset, hattempt, hrw,
    hwf.remove_front h hmember, ?_⟩
  rw [pickUp, if_neg (by decide), hpeek]
  simp only [Bool.false_eq_true, if_false, hclaim, hattempt]

/-- The loop claims the first job that can be claimed, if the bound allows
it, and drops its entry and all entries before it. -/
theorem pickUp_serves (hchecked : ∀ r ∈ jobs.rows, r.violatedCheck = none)
    {left : ℕ} (hwf : redis.Wellformed)
    (hleft : firstServable jobs redis < left)
    (hsize : firstServable jobs redis < size redis) :
    ∃ m r now token row attempt jobs' redis',
      redis.ready.members[firstServable jobs redis]? = some m ∧
      jobs.find? (jobOf m) = some r ∧ r.isClaimable = true ∧
      row = (claim now workerId token
        (leaseDeadline settings now (some leaseSeconds))).set r ∧
      Attempt.of row = .ok attempt ∧ Rewrites jobs jobs' (jobOf m) r row ∧
      DropsFront (firstServable jobs redis + 1) redis redis' ∧
      pickUp settings workerId leaseSeconds false draw left jobs redis =
        .ok (jobs', redis', some (row, attempt)) := by
  induction left generalizing redis with
  | zero => omega
  | succ left ih =>
      cases hentries : redis.ready.entries with
      | nil => simp [size, SortedSet.card, hentries] at hsize
      | cons x rest =>
          cases hx : isServable jobs x.2 with
          | true =>
              obtain ⟨r, hr, hclaimable⟩ := isServable_eq_true_iff.mp hx
              obtain ⟨row, attempt, jobs', redis', hset, hattempt, hrw, hdrop,
                hpick⟩ := pickUp_claims settings workerId leaseSeconds draw
                  left hchecked hwf hentries hr hclaimable
              have hfirst := firstServable_front hentries hx
              refine ⟨x.2, r, _, _, row, attempt, jobs', redis', ?_, hr,
                hclaimable, hset, hattempt, hrw, ?_, hpick⟩
              · rw [hfirst, SortedSet.members, hentries]
                rfl
              · rw [hfirst]
                exact hdrop
          | false =>
              obtain ⟨redis₁, hdrop, hpick⟩ := pickUp_stale settings workerId
                leaseSeconds draw left hwf hentries hx
              obtain ⟨hfirst, hcard⟩ :=
                firstServable_behind hentries hx hdrop
              obtain ⟨m, r, now, token, row, attempt, jobs', redis', hm, hr,
                hclaimable, hset, hattempt, hrw, hdrop', hpick'⟩ :=
                ih (hdrop.wellformed hwf) (by omega) (by omega)
              refine ⟨m, r, now, token, row, attempt, jobs', redis', ?_, hr,
                hclaimable, hset, hattempt, hrw, ?_, hpick.trans hpick'⟩
              · rw [hdrop.members, List.getElem?_drop] at hm
                rw [hfirst, ← hm, Nat.add_comm]
              · rw [hfirst, Nat.add_comm _ 1]
                exact hdrop.trans hdrop'

/-- Otherwise it drops as many entries as the bound allows, and nothing
else happens. -/
theorem pickUp_discards {left : ℕ} (hwf : redis.Wellformed)
    (hnone : min left (size redis) ≤ firstServable jobs redis) :
    ∃ redis', DropsFront (min left (size redis)) redis redis' ∧
      pickUp settings workerId leaseSeconds false draw left jobs redis =
        .ok (jobs, redis', none) := by
  induction left generalizing redis with
  | zero =>
      refine ⟨redis, ?_, rfl⟩
      rw [Nat.zero_min]
      exact DropsFront.zero redis
  | succ left ih =>
      cases hentries : redis.ready.entries with
      | nil =>
          have hzero : size redis = 0 := by
            simp [size, SortedSet.card, hentries]
          refine ⟨redis, ?_, pickUp_empty settings workerId leaseSeconds draw
            (left + 1) hentries⟩
          rw [hzero, Nat.min_zero]
          exact DropsFront.zero redis
      | cons x rest =>
          cases hx : isServable jobs x.2 with
          | true =>
              have hfirst := firstServable_front hentries hx
              have hpos : size redis = rest.length + 1 := by
                simp [size, SortedSet.card, hentries]
              omega
          | false =>
              obtain ⟨redis₁, hdrop, hpick⟩ := pickUp_stale settings workerId
                leaseSeconds draw left hwf hentries hx
              obtain ⟨hfirst, hcard⟩ :=
                firstServable_behind hentries hx hdrop
              obtain ⟨redis', hdrop', hpick'⟩ :=
                ih (hdrop.wellformed hwf) (by omega)
              refine ⟨redis', ?_, hpick.trans hpick'⟩
              have hsum : min (left + 1) (size redis) =
                  1 + min left (size redis₁) := by omega
              rw [hsum]
              exact hdrop.trans hdrop'

end Loop

/-! ## Calls of `run_once` -/

/-- One call of `run_once`: what it draws, and what `_execute` makes of the
table.  The database accepts no row that violates a check constraint. -/
structure Cycle where
  draw : ℕ → Time × UUID
  execute : Job → Attempt → Jobs → Jobs
  checked : ∀ row attempt (jobs : Jobs),
    (∀ r ∈ jobs.rows, r.violatedCheck = none) →
    ∀ r ∈ (execute row attempt jobs).rows, r.violatedCheck = none

/-- The call serves the best claimable job: if the first entry whose job can be
claimed is within the bound, that job is claimed and executed, and exactly the
entries up to its own are gone; otherwise as many entries as the bound allows
are gone, none of them claimable, and no row changes. -/
def ServesBest (settings : Settings) (workerId : String)
    (leaseSeconds : Duration) (cycle : Cycle) (jobs : Jobs)
    (redis : Redis) : Prop :=
  if firstServable jobs redis < maxCandidatesPerCycle ∧
      firstServable jobs redis < size redis then
    ∃ m r now token row attempt jobs' redis',
      redis.ready.members[firstServable jobs redis]? = some m ∧
      jobs.find? (jobOf m) = some r ∧ r.isClaimable = true ∧
      row = (claim now workerId token
        (leaseDeadline settings now (some leaseSeconds))).set r ∧
      Attempt.of row = .ok attempt ∧ Rewrites jobs jobs' (jobOf m) r row ∧
      DropsFront (firstServable jobs redis + 1) redis redis' ∧
      (∀ m' ∈ redis.ready.members.take (firstServable jobs redis),
        isServable jobs m' = false) ∧
      runOnce settings workerId leaseSeconds false cycle.draw cycle.execute
        jobs redis = .ok (cycle.execute row attempt jobs', redis', true)
  else
    ∃ redis',
      DropsFront (min maxCandidatesPerCycle (size redis)) redis redis' ∧
      (∀ m' ∈ redis.ready.members.take
          (min maxCandidatesPerCycle (size redis)),
        isServable jobs m' = false) ∧
      runOnce settings workerId leaseSeconds false cycle.draw cycle.execute
        jobs redis = .ok (jobs, redis', false)

theorem not_servable_before {jobs : Jobs} {redis : Redis} {n : ℕ}
    (hn : n ≤ firstServable jobs redis) {m : Text}
    (hm : m ∈ redis.ready.members.take n) : isServable jobs m = false := by
  obtain ⟨i, hi, rfl⟩ := List.mem_take_iff_getElem.mp hm
  have hlt : i < firstServable jobs redis := by omega
  simpa using List.not_of_lt_findIdx hlt

theorem servesBest (settings : Settings) (workerId : String)
    (leaseSeconds : Duration) (cycle : Cycle) {jobs : Jobs} {redis : Redis}
    (hchecked : ∀ r ∈ jobs.rows, r.violatedCheck = none)
    (hwf : redis.Wellformed) :
    ServesBest settings workerId leaseSeconds cycle jobs redis := by
  unfold ServesBest
  split
  · next h =>
      obtain ⟨m, r, now, token, row, attempt, jobs', redis', hm, hr,
        hclaimable, hset, hattempt, hrw, hdrop, hpick⟩ := pickUp_serves
          settings workerId leaseSeconds cycle.draw hchecked hwf h.1 h.2
      refine ⟨m, r, now, token, row, attempt, jobs', redis', hm, hr,
        hclaimable, hset, hattempt, hrw, hdrop, ?_, ?_⟩
      · intro m' hm'
        exact not_servable_before le_rfl hm'
      · rw [runOnce, hpick]
  · next h =>
      have hnone : min maxCandidatesPerCycle (size redis) ≤
          firstServable jobs redis := by omega
      obtain ⟨redis', hdrop, hpick⟩ := pickUp_discards settings workerId
        leaseSeconds cycle.draw hwf hnone
      refine ⟨redis', hdrop, ?_, ?_⟩
      · intro m' hm'
        exact not_servable_before hnone hm'
      · rw [runOnce, hpick]

/-- Calls of `run_once`, one after another. -/
def runCycles (settings : Settings) (workerId : String)
    (leaseSeconds : Duration) :
    List Cycle → Jobs → Redis → Except PickupError (Jobs × Redis)
  | [], jobs, redis => .ok (jobs, redis)
  | cycle :: rest, jobs, redis =>
      match runOnce settings workerId leaseSeconds false cycle.draw
          cycle.execute jobs redis with
      | .error e => .error e
      | .ok (jobs', redis', _) =>
          runCycles settings workerId leaseSeconds rest jobs' redis'

theorem DropsFront.size {n : ℕ} {r r' : Redis} (h : DropsFront n r r') :
    JobQueue.size r' = JobQueue.size r - n := by
  rw [JobQueue.size, JobQueue.size, SortedSet.card, SortedSet.card, h.ready,
    List.length_drop]

/-- One call leaves stores as it found them, with fewer entries. -/
theorem runOnce_shrinks (settings : Settings) (workerId : String)
    (leaseSeconds : Duration) (cycle : Cycle) {jobs : Jobs} {redis : Redis}
    (hchecked : ∀ r ∈ jobs.rows, r.violatedCheck = none)
    (hwf : redis.Wellformed) :
    ∃ jobs' redis' b, runOnce settings workerId leaseSeconds false cycle.draw
        cycle.execute jobs redis = .ok (jobs', redis', b) ∧
      (∀ r ∈ jobs'.rows, r.violatedCheck = none) ∧ redis'.Wellformed ∧
      size redis' ≤ size redis - 1 := by
  have hserves := servesBest settings workerId leaseSeconds cycle hchecked hwf
  unfold ServesBest at hserves
  split at hserves
  · obtain ⟨m, r, now, token, row, attempt, jobs', redis', hm, hr,
      hclaimable, hset, hattempt, hrw, hdrop, -, hrun⟩ := hserves
    refine ⟨_, redis', true, hrun, ?_, hdrop.wellformed hwf, ?_⟩
    · apply cycle.checked
      have hmem := (KeyedTable.find?_eq_some_iff.mp hr).1
      refine hrw.checked hchecked ?_
      rw [hset]
      exact Job.violatedCheck_claim hclaimable (hchecked r hmem) _ _ _ _
    · rw [hdrop.size]
      omega
  · obtain ⟨redis', hdrop, -, hrun⟩ := hserves
    refine ⟨jobs, redis', false, hrun, hchecked, hdrop.wellformed hwf, ?_⟩
    rw [hdrop.size]
    have hpos : 0 < maxCandidatesPerCycle := by decide
    omega

/-- Repeated calls take at least one entry each off a queue that is not
empty. -/
theorem runCycles_shrinks (settings : Settings) (workerId : String)
    (leaseSeconds : Duration) (cycles : List Cycle) {jobs : Jobs}
    {redis : Redis} (hchecked : ∀ r ∈ jobs.rows, r.violatedCheck = none)
    (hwf : redis.Wellformed) :
    ∃ jobs' redis', runCycles settings workerId leaseSeconds cycles jobs
        redis = .ok (jobs', redis') ∧
      (∀ r ∈ jobs'.rows, r.violatedCheck = none) ∧ redis'.Wellformed ∧
      size redis' ≤ size redis - cycles.length := by
  induction cycles generalizing jobs redis with
  | nil => exact ⟨jobs, redis, rfl, hchecked, hwf, by simp⟩
  | cons cycle rest ih =>
      obtain ⟨jobs₁, redis₁, b, hrun, hchecked₁, hwf₁, hsize₁⟩ :=
        runOnce_shrinks settings workerId leaseSeconds cycle hchecked hwf
      obtain ⟨jobs', redis', hruns, hchecked', hwf', hsize'⟩ :=
        ih hchecked₁ hwf₁
      refine ⟨jobs', redis', ?_, hchecked', hwf', ?_⟩
      · rw [runCycles, hrun]
        exact hruns
      · rw [List.length_cons]
        omega

/-- Sequential pickup serves the best claimable job.  From every table and
every queue that satisfies its representation invariant, every call of
`run_once` serves the best claimable job.  The same holds for each of any
number of calls in a row, so no entry of a claimable job is discarded without
claiming it, and as many calls as there are entries leave no stale entry. -/
theorem sequential_pickup (settings : Settings) (workerId : String)
    (leaseSeconds : Duration) {jobs : Jobs} {redis : Redis}
    (hchecked : ∀ r ∈ jobs.rows, r.violatedCheck = none)
    (hwf : redis.Wellformed) :
    (∀ cycle, ServesBest settings workerId leaseSeconds cycle jobs redis) ∧
    ∀ cycles : List Cycle,
      (∀ before cycle after, cycles = before ++ cycle :: after →
        ∃ jobs₁ redis₁, runCycles settings workerId leaseSeconds before jobs
            redis = .ok (jobs₁, redis₁) ∧
          ServesBest settings workerId leaseSeconds cycle jobs₁ redis₁) ∧
      ∃ jobs' redis', runCycles settings workerId leaseSeconds cycles jobs
          redis = .ok (jobs', redis') ∧
        (size redis ≤ cycles.length → redis'.ready.entries = []) := by
  refine ⟨fun cycle => servesBest settings workerId leaseSeconds cycle
    hchecked hwf, fun cycles => ⟨?_, ?_⟩⟩
  · rintro before cycle after -
    obtain ⟨jobs₁, redis₁, hrun, hchecked₁, hwf₁, -⟩ := runCycles_shrinks
      settings workerId leaseSeconds before hchecked hwf
    exact ⟨jobs₁, redis₁, hrun,
      servesBest settings workerId leaseSeconds cycle hchecked₁ hwf₁⟩
  · obtain ⟨jobs', redis', hrun, -, -, hsize⟩ := runCycles_shrinks settings
      workerId leaseSeconds cycles hchecked hwf
    refine ⟨jobs', redis', hrun, fun hall => ?_⟩
    have hzero : size redis' = 0 := by omega
    exact List.length_eq_zero_iff.mp hzero

/-- A cancelled job in front of a pending one. -/
def staleFrontJobs : Jobs :=
  tableAfter sampleSettings [sampleSubmit 1, sampleSubmit 2, .cancelJob 1]

def staleFrontQueue : Redis := queueAfter [.enqueue 1 50, .enqueue 2 50]

/-- A call whose execution leaves the table as it is. -/
def idleCycle : Cycle where
  draw _ := (0, 7)
  execute _ _ jobs := jobs
  checked _ _ _ h := h

theorem sequential_pickup_stale_front :
    firstServable staleFrontJobs staleFrontQueue = 1 ∧
      ServesBest sampleSettings "worker" (seconds 60) idleCycle staleFrontJobs
        staleFrontQueue :=
  ⟨by decide +kernel, (sequential_pickup sampleSettings "worker" (seconds 60)
    (by decide +kernel)
    ((represents_after (by decide)).wellformed (by decide))).1 idleCycle⟩

/-! ## The loop in the deployment -/

/-- Where a runner stands after its loop over candidates. -/
def RunnerPoint.afterPickup : Option (Job × Attempt) → RunnerPoint
  | none => .polling
  | some (row, attempt) => .executing row attempt

theorem peek_eq (r : Redis) : peek r = (peekMany r 1).map List.head? := by
  rw [peek]
  cases peekMany r 1 <;> rfl

/-- How one iteration of the loop that raises nothing goes. -/
theorem pickUp_succ_cases {settings : Settings} {workerId : String}
    {leaseSeconds : Duration} {draw : ℕ → Time × UUID} {left : ℕ}
    {jobs jobs' : Jobs} {redis redis' : Redis}
    {picked : Option (Job × Attempt)}
    (h : pickUp settings workerId leaseSeconds false draw (left + 1) jobs
      redis = .ok (jobs', redis', picked)) :
    (peekMany redis 1 = .ok [] ∧ jobs' = jobs ∧ redis' = redis ∧
        picked = none) ∨
      ∃ candidate others jobs₁ row,
        peekMany redis 1 = .ok (candidate :: others) ∧
        claimJob settings jobs (draw left).1 candidate.jobId workerId
          (draw left).2 (some leaseSeconds) = .ok (jobs₁, row) ∧
        ((row = none ∧ pickUp settings workerId leaseSeconds false draw left
            jobs₁ (discardUnclaimable jobs₁ redis candidate) =
              .ok (jobs', redis', picked)) ∨
          ∃ job attempt, row = some job ∧ Attempt.of job = .ok attempt ∧
            jobs' = jobs₁ ∧ redis' = (remove redis candidate).1 ∧
            picked = some (job, attempt)) := by
  rw [pickUp, if_neg (by decide), peek_eq] at h
  cases hpeek : peekMany redis 1 with
  | error e =>
      rw [hpeek] at h
      cases h
  | ok candidates =>
      rw [hpeek] at h
      cases candidates with
      | nil =>
          cases h
          exact Or.inl ⟨rfl, rfl, rfl, rfl⟩
      | cons candidate others =>
          simp only [Except.map, List.head?_cons, Bool.false_eq_true,
            if_false] at h
          split at h
          · cases h
          · next jobs₁ hclaim =>
              exact Or.inr ⟨candidate, others, jobs₁, none, rfl, hclaim,
                Or.inl ⟨rfl, h⟩⟩
          · next jobs₁ job hclaim =>
              split at h
              · cases h
              · next attempt hattempt =>
                  cases h
                  exact Or.inr ⟨candidate, others, _, some job, rfl, hclaim,
                    Or.inr ⟨job, attempt, rfl, hattempt, rfl, rfl, rfl⟩⟩

section Alone

variable (settings : Settings) (pid : ℕ) {r : Runner} (hstop : r.stop = false)
  {s : Store}

include hstop

theorem alone_peek (left : ℕ) {candidates : List QueueCandidate}
    (h : peekMany s.redis 1 = .ok candidates) :
    (deployment settings).alone pid (s, r.at (.checking (left + 1)))
        [.go, .redis .answered] =
      (s, r.at (candidates.head?.elim .polling (.peeked left))) := by
  cases candidates with
  | nil =>
      simp [Concurrent.alone, runner_act, Runner.next, Runner.at,
        Store.perform, Store.send, queue, hstop, h]
  | cons candidate others =>
      simp [Concurrent.alone, runner_act, Runner.next, Runner.at,
        Store.perform, Store.send, queue, hstop, h]

theorem alone_claim (left : ℕ) (candidate : QueueCandidate) {now : Time}
    {token : UUID} {jobs : Jobs} {row : Option Job}
    (hclaim : claimJob settings s.jobs now candidate.jobId r.workerId token
      (some r.leaseSeconds) = .ok (jobs, row)) :
    (deployment settings).alone pid (s, r.at (.peeked left candidate))
        [.go, .claim now token] =
      (⟨jobs, (s.unlock pid).locks, s.redis⟩,
        r.at (row.elim (.inspecting left candidate)
          (.dropping candidate))) := by
  have hstep : (service settings).step s.jobs (.claimJob now candidate.jobId
      r.workerId token (some r.leaseSeconds)) =
      (jobs, .ok (.claimed row)) := by
    simp [service, Op.execute, hclaim, answer, settle]
  cases row with
  | none =>
      simp [Concurrent.alone, runner_act, Runner.next, Runner.at,
        Store.perform, Store.unlock, hstop, hstep]
  | some row =>
      simp [Concurrent.alone, runner_act, Runner.next, Runner.at,
        Store.perform, Store.unlock, hstop, hstep]

omit hstop in
theorem alone_discard (r : Runner) (s : Store) (left : ℕ)
    (candidate : QueueCandidate) :
    ∃ actions, (deployment settings).alone pid
        (s, r.at (.inspecting left candidate)) actions =
      (⟨s.jobs, s.locks, discardUnclaimable s.jobs s.redis candidate⟩,
        r.at (.checking left)) := by
  by_cases hclaimable :
      (getJob s.jobs candidate.jobId).any Job.isClaimable = true
  · refine ⟨[.read 0], ?_⟩
    simp [Concurrent.alone, runner_act, Runner.next, Runner.at,
      Store.perform, discardUnclaimable, hclaimable]
  · refine ⟨[.read 0, .redis .answered], ?_⟩
    simp [Concurrent.alone, runner_act, Runner.next, Runner.at,
      Store.perform, Store.send, queue, discardUnclaimable, hclaimable]

theorem pickUp_alone (draw : ℕ → Time × UUID) (left : ℕ) {jobs' : Jobs}
    {redis' : Redis} {picked : Option (Job × Attempt)}
    (h : pickUp settings r.workerId r.leaseSeconds false draw left s.jobs
      s.redis = .ok (jobs', redis', picked)) :
    ∃ actions locks, (deployment settings).alone pid
        (s, r.at (.checking left)) actions =
      (⟨jobs', locks, redis'⟩, r.at (.afterPickup picked)) := by
  induction left generalizing s with
  | zero =>
      cases h
      exact ⟨[.go], s.locks, rfl⟩
  | succ left ih =>
      rcases pickUp_succ_cases h with ⟨hpeek, rfl, rfl, rfl⟩ |
        ⟨candidate, others, jobs₁, row, hpeek, hclaim, hrow⟩
      · exact ⟨_, s.locks, alone_peek settings pid hstop left hpeek⟩
      · have hfront := alone_peek settings pid hstop left hpeek
        have hfirst := alone_claim settings pid hstop left candidate hclaim
        rcases hrow with ⟨rfl, hrest⟩ |
          ⟨job, attempt, rfl, hattempt, rfl, rfl, rfl⟩
        · obtain ⟨discards, hdiscard⟩ := alone_discard settings pid r
            ⟨jobs₁, (s.unlock pid).locks, s.redis⟩ left candidate
          obtain ⟨rest, locks, hrun⟩ := ih (s := ⟨jobs₁, (s.unlock pid).locks,
            discardUnclaimable jobs₁ s.redis candidate⟩) hrest
          refine ⟨[.go, .redis .answered] ++
            ([.go, .claim (draw left).1 (draw left).2] ++ (discards ++ rest)),
            locks, ?_⟩
          rw [Concurrent.alone_append, hfront, List.head?_cons,
            Option.elim_some, Concurrent.alone_append, hfirst,
            Concurrent.alone_append, Option.elim_none, hdiscard, hrun]
        · refine ⟨[.go, .redis .answered] ++
            ([.go, .claim (draw left).1 (draw left).2] ++ [.redis .answered]),
            (s.unlock pid).locks, ?_⟩
          rw [Concurrent.alone_append, hfront, List.head?_cons,
            Option.elim_some, Concurrent.alone_append, hfirst]
          simp [Concurrent.alone, runner_act, Runner.next, Runner.at,
            Store.perform, Store.send, queue, hattempt,
            RunnerPoint.afterPickup]

/-- The loop is a run of the deployment in which only this runner acts and
Redis answers. -/
theorem pickUp_deployment (c : Configuration Store Process)
    (draw : ℕ → Time × UUID) (left : ℕ)
    (hc : c.process pid = r.at (.checking left)) {jobs' : Jobs}
    {redis' : Redis} {picked : Option (Job × Attempt)}
    (h : pickUp settings r.workerId r.leaseSeconds false draw left
      c.shared.jobs c.shared.redis = .ok (jobs', redis', picked)) :
    ∃ actions : List Action, ∃ c', c' = (deployment settings).machine.run c
        (actions.map (Prod.mk pid)) ∧
      c'.shared.jobs = jobs' ∧ c'.shared.redis = redis' ∧
      c'.process pid = r.at (.afterPickup picked) := by
  obtain ⟨actions, locks, halone⟩ := pickUp_alone settings pid hstop draw left h
  refine ⟨actions, _, rfl, ?_⟩
  have hrun := (deployment settings).run_alone c pid actions
  rw [hc, halone] at hrun
  obtain ⟨hshared, hprocess⟩ := Prod.mk.inj hrun
  rw [hshared, hprocess]
  exact ⟨rfl, rfl, rfl⟩

end Alone

end JobQueue
