import JobQueue.Lifecycle.Accounting
import JobQueue.Lifecycle.Fencing
import Mathlib.Data.List.Chain

/-!
# Leases

The lease of a live attempt is its last sign of life plus the lease length,
whatever sweeps and other writers do in between, and a recovery takes the
attempt away only after that time.  The database clock is assumed not to run
backwards along the run.
-/

namespace JobQueue

open Support

/-! ## Times -/

/-- The database time at which an operation runs, for those that read it. -/
def Op.databaseTime : Op → Option Time
  | .createJob clock _ _ _ => some clock.database
  | .insertJob clock _ _ _ => some clock.database
  | .claimJob now _ _ _ _ => some now
  | .extendLease now _ _ => some now
  | .completeJob now _ _ => some now
  | .failAttempt now _ _ => some now
  | .activateDueScheduledJobs now _ _ => some now
  | .activateSelected now _ => some now
  | .recoverExpiredLeases now _ _ => some now
  | _ => none

/-- The database clock does not run backwards. -/
def ClockNondecreasing (ops : List Op) : Prop :=
  (ops.filterMap Op.databaseTime).Pairwise (· ≤ ·)

/-- Every heartbeat of the claim of `a` asks for the lease length `length`. -/
def BeatsWith (settings : Settings) (a : Attempt) (length : Duration)
    (op : Op) : Prop :=
  ∀ now b leaseSeconds, op = .extendLease now b leaseSeconds →
    a.SameClaim b → leaseSeconds.getD settings.jobLease = length

/-- The time of a successful `extend_lease` of the claim of `a`. -/
def beatTime (a : Attempt) : Op × Outcome → Option Time
  | (.extendLease now b _, .ok (.extended _)) =>
      if a.SameClaim b then some now else none
  | _ => none

/-- The times of the successful heartbeats of the claim, as long as it
lasts. -/
def heartbeats (a : Attempt) (calls : List (Op × Outcome)) : List Time :=
  (calls.takeWhile fun call => !endsClaim a call).filterMap (beatTime a)

/-- The last sign of life of an attempt claimed at `claimedAt`. -/
def lastBeat (a : Attempt) (claimedAt : Time)
    (calls : List (Op × Outcome)) : Time :=
  (heartbeats a calls).getLastD claimedAt

def SettlesAt (a : Attempt) (now : Time) (op : Op) : Prop :=
  (∃ result, op = .completeJob now a result) ∨
    ∃ error, op = .failAttempt now a error

/-! ## The lease of a held row -/

def Change.isExtension : Change → Bool
  | .leaseExtended _ _ _ => true
  | _ => false

/-- Only an extension moves the lease of a held row. -/
theorem Change.lease_eq {r : Job} {a : Attempt} {c : Change}
    (hc : c.Enabled r) (h : r.Holds a) (hlive : ¬ c.Ends a.executionToken)
    (hext : c.isExtension = false) :
    (c.apply r).leaseExpiresAt = r.leaseExpiresAt := by
  rcases Change.of_held hc h hlive with
    rfl | ⟨now, b, deadline, rfl⟩ | ⟨b, progress, rfl⟩
  · rfl
  · cases hext
  · rfl

/-! ## One call -/

/-- The row of `a` is held under it, and its lease runs until `deadline`. -/
def Leased (t : Jobs) (a : Attempt) (deadline : Time) : Prop :=
  ∃ r, t.find? a.jobId = some r ∧ r.Holds a ∧
    r.leaseExpiresAt = some deadline

theorem Makes.isExtension {settings : Settings} {call : Op × Outcome}
    {id : UUID} {c : Change} (h : Makes settings call id c)
    (hc : c.isExtension = true) :
    ∃ now b leaseSeconds deadline,
      call = (.extendLease now b leaseSeconds, .ok (.extended deadline)) ∧
        id = b.jobId := by
  cases h with
  | leaseExtended now b leaseSeconds deadline =>
      exact ⟨now, b, leaseSeconds, deadline, rfl, rfl⟩
  | attemptFailed now b error result =>
      cases ho : result.outcome <;>
        simp [ho, failureChange, Change.isExtension] at hc
  | recovered now limit locked results x hx =>
      cases ho : x.2.outcome <;>
        simp [ho, failureChange, Change.isExtension] at hc
  | _ => simp [Change.isExtension] at hc

/-- A call that does not end the claim keeps the row held; its lease stays,
or moves to the lease length after a successful heartbeat. -/
theorem Leased.step {settings : Settings} {t : Jobs} {a : Attempt}
    {deadline : Time} {length : Duration} (h : Leased t a deadline) (op : Op)
    (hbeat : BeatsWith settings a length op)
    (hlive : endsClaim a (op, ((service settings).step t op).2) = false) :
    Leased ((service settings).step t op).1 a
      ((beatTime a (op, ((service settings).step t op).2)).elim deadline
        (· + length)) := by
  obtain ⟨r, hr, hholds, hlease⟩ := h
  obtain ⟨s, hs, hpath, hnoend, hheld⟩ := holds_step hr hholds op hlive
  refine ⟨s, hs, hheld, ?_⟩
  by_cases hext : ∃ now b leaseSeconds d, op = .extendLease now b leaseSeconds ∧
      ((service settings).step t op).2 = .ok (.extended d) ∧
      b.jobId = a.jobId
  · obtain ⟨now, b, leaseSeconds, d, rfl, hreply, hjob⟩ := hext
    obtain ⟨d', hextend, hd'⟩ := answer_eq_ok (execute_of_step_ok hreply)
    obtain rfl := Reply.extended.inj hd'
    obtain ⟨rfl, r', howned, hrw⟩ := extendLease_cases hextend
    have hrow := hrw.before
    rw [hjob, hr] at hrow
    obtain rfl := Option.some.inj hrow
    have hsame : a.SameClaim b := ⟨hjob, hholds.token_eq howned⟩
    have hafter := hrw.after
    rw [hjob, hs] at hafter
    obtain rfl := Option.some.inj hafter
    have hlength := hbeat now b leaseSeconds rfl hsame
    simp [hreply, beatTime, hsame, setLease, leaseDeadline, hlength]
  · have hnoext : ∀ c ∈ changesFor a.jobId
        (changesOf settings (op, ((service settings).step t op).2)),
        c.isExtension = false := by
      intro c hc
      by_contra hne
      obtain ⟨now, b, leaseSeconds, d, hcall, hjob⟩ :=
        (makes_of_mem (mem_changesFor.mp hc)).isExtension (by simpa using hne)
      obtain ⟨hop, hreply⟩ := Prod.mk.inj hcall
      exact hext ⟨now, b, leaseSeconds, d, hop, hreply, hjob.symm⟩
    have hnone : beatTime a (op, ((service settings).step t op).2) = none := by
      unfold beatTime
      split
      · next now b leaseSeconds d hcall =>
          obtain ⟨hop, hreply⟩ := Prod.mk.inj hcall
          rw [if_neg]
          intro hsame
          exact hext ⟨now, b, leaseSeconds, d, hop, hreply, hsame.1⟩
      · rfl
    rw [hnone, RowPath.column_eq Job.leaseExpiresAt hpath hholds
      hnoend fun c hc b hb hholds =>
        Change.lease_eq hb hholds (hnoend c hc) (hnoext c hc)]
    exact hlease

/-! ## Recovery -/

theorem failuresBy_pos_of_endsClaim {a : Attempt} {now : Time} {limit : ℕ}
    {locked : List UUID} {outcome : Outcome}
    (h : endsClaim a (.recoverExpiredLeases now limit locked, outcome) =
      true) :
    0 < failuresBy a.jobId
      (.recoverExpiredLeases now limit locked, outcome) := by
  unfold endsClaim at h
  split at h
  · next hcall => cases hcall
  · next hcall => cases hcall
  · next results hcall =>
      obtain ⟨-, rfl⟩ := Prod.mk.inj hcall
      obtain ⟨x, hx, hsame⟩ := List.any_eq_true.mp h
      exact List.countP_pos_iff.mpr
        ⟨x, hx, decide_eq_true (of_decide_eq_true hsame).1⟩
  · cases h

theorem Makes.leaseExpired {settings : Settings} {now : Time}
    {limit : ℕ} {locked : List UUID} {outcome : Outcome} {id : UUID} {c : Change}
    {r : Job}
    (h : Makes settings (.recoverExpiredLeases now limit locked, outcome)
      id c) (hc : c.Enabled r) (hfail : c.isFailure = true) :
    r.leaseExpired now = true := by
  cases h with
  | recovered now limit locked results x hx =>
      cases ho : x.2.outcome with
      | retryScheduled =>
          rw [ho] at hc
          exact hc.2.2.2
      | permanentlyFailed =>
          rw [ho] at hc
          exact hc.2.2
  | _ => cases hfail

/-- A recovery that takes a held attempt away runs after its lease. -/
theorem deadline_lt_of_recovered {settings : Settings} {t : Jobs}
    {a : Attempt} {deadline now : Time} {limit : ℕ} {locked : List UUID}
    (h : Leased t a deadline)
    (hends : endsClaim a (.recoverExpiredLeases now limit locked,
      ((service settings).step t
        (.recoverExpiredLeases now limit locked)).2) = true) :
    deadline < now := by
  obtain ⟨r, c, hcs, hr, henabled, hfail, -⟩ :=
    failure_of_failuresBy_pos (failuresBy_pos_of_endsClaim hends)
  have hmem : c ∈ changesFor a.jobId (changesOf settings
      (.recoverExpiredLeases now limit locked, ((service settings).step t
        (.recoverExpiredLeases now limit locked)).2)) := by simp [hcs]
  have hexpired := (makes_of_mem (mem_changesFor.mp hmem)).leaseExpired
    henabled hfail
  obtain ⟨r', hr', -, hlease⟩ := h
  obtain rfl := Option.some.inj (hr.symm.trans hr')
  obtain ⟨d, hd, hlt⟩ := Job.leaseExpired_iff.mp hexpired
  obtain rfl := Option.some.inj (hlease.symm.trans hd)
  exact hlt

/-! ## Runs -/

theorem heartbeats_of_live {a : Attempt} {calls : List (Op × Outcome)}
    (h : ∀ call ∈ calls, endsClaim a call = false) :
    heartbeats a calls = calls.filterMap (beatTime a) := by
  rw [heartbeats, List.takeWhile_eq_self_iff.mpr]
  intro call hcall
  simp [h call hcall]

theorem lastBeat_concat {a : Attempt} {claimedAt : Time}
    {calls : List (Op × Outcome)} {call : Op × Outcome}
    (h : ∀ c ∈ calls ++ [call], endsClaim a c = false) :
    lastBeat a claimedAt (calls ++ [call]) =
      (beatTime a call).getD (lastBeat a claimedAt calls) := by
  have hcalls : ∀ c ∈ calls, endsClaim a c = false :=
    fun c hc => h c (by simp [hc])
  rw [lastBeat, lastBeat, heartbeats_of_live h, heartbeats_of_live hcalls,
    List.filterMap_append]
  cases hb : beatTime a call with
  | none => simp [hb]
  | some now => simp [hb]

/-- While nothing ends the claim, the lease is the last sign of life plus the
lease length. -/
theorem leased_run {settings : Settings} {t : Jobs} {a : Attempt}
    {claimedAt : Time} {length : Duration}
    (h : Leased t a (claimedAt + length)) {after : List Op}
    (hbeats : ∀ op ∈ after, BeatsWith settings a length op)
    (hlive : ∀ call ∈ (service settings).trace t after,
      endsClaim a call = false) :
    Leased ((service settings).run t after) a
      (lastBeat a claimedAt ((service settings).trace t after) + length) := by
  induction after using List.reverseRecOn with
  | nil => exact h
  | append_singleton after op ih =>
      rw [Machine.trace_append] at hlive ⊢
      rw [Machine.run_append]
      have hlast := ih (fun op hop => hbeats op (by simp [hop]))
        (fun call hcall => hlive call (by simp [hcall]))
      have hstep := hlast.step op (hbeats op (by simp))
        (hlive _ (by simp))
      rw [Machine.trace_cons, Machine.trace_nil] at hlive ⊢
      rw [lastBeat_concat hlive]
      cases hb : beatTime a (op, ((service settings).step
          ((service settings).run t after) op).2) with
      | none =>
          rw [hb] at hstep
          exact hstep
      | some now =>
          rw [hb] at hstep
          exact hstep

theorem databaseTime_of_beatTime {a : Attempt} {call : Op × Outcome}
    {now : Time} (h : beatTime a call = some now) :
    call.1.databaseTime = some now := by
  unfold beatTime at h
  split at h
  · split at h
    · exact h
    · cases h
  · cases h

/-- A successful claim of a run, with what came before it and the attempt it
handed out. -/
structure Claim (settings : Settings) where
  before : List Op
  now : Time
  jobId : UUID
  workerId : String
  token : UUID
  leaseSeconds : Option Duration
  attempt : Attempt
  obtained : Obtained settings before
    (.claimJob now jobId workerId token leaseSeconds) attempt

namespace Claim

variable {settings : Settings} (k : Claim settings)

def op : Op := .claimJob k.now k.jobId k.workerId k.token k.leaseSeconds

def length : Duration := k.leaseSeconds.getD settings.jobLease

/-- The table after the claim and the further operations `after`. -/
def tableAfter (after : List Op) : Jobs :=
  JobQueue.tableAfter settings (k.before ++ k.op :: after)

def callsAfter (after : List Op) : List (Op × Outcome) :=
  (service settings).trace
    (JobQueue.tableAfter settings (k.before ++ [k.op])) after

/-- No call has ended the claim. -/
def LiveAfter (after : List Op) : Prop :=
  ∀ call ∈ k.callsAfter after, endsClaim k.attempt call = false

/-- The database time of the last successful claim or heartbeat. -/
def lastBeat (after : List Op) : Time :=
  JobQueue.lastBeat k.attempt k.now (k.callsAfter after)

theorem callsAfter_append (after later : List Op) :
    k.callsAfter (after ++ later) = k.callsAfter after ++
      (service settings).trace (k.tableAfter after) later := by
  rw [tableAfter, tableAfter_claim]
  exact (service settings).trace_append _ after later

theorem callsAfter_cons (after rest : List Op) (op : Op) :
    k.callsAfter (after ++ op :: rest) = k.callsAfter after ++
      (op, ((service settings).step (k.tableAfter after) op).2) ::
        (service settings).trace
          ((service settings).step (k.tableAfter after) op).1 rest := by
  rw [callsAfter_append, Machine.trace_cons]

theorem LiveAfter.of_append {k : Claim settings} {after later : List Op}
    (h : k.LiveAfter (after ++ later)) : k.LiveAfter after := by
  intro call hcall
  apply h
  rw [callsAfter_append]
  exact List.mem_append_left _ hcall

/-- The claim itself starts the lease. -/
theorem leased_start :
    Leased (JobQueue.tableAfter settings (k.before ++ [k.op])) k.attempt
      (k.now + k.length) := by
  obtain ⟨-, r, s, rfl, hs, hholds, -⟩ := k.obtained.row
  exact ⟨_, hs, hholds, rfl⟩

/-- While the claim is live, the lease is the last sign of life plus the
lease length. -/
theorem leased {after : List Op}
    (hbeats : ∀ op ∈ after, BeatsWith settings k.attempt k.length op)
    (hlive : k.LiveAfter after) :
    Leased (k.tableAfter after) k.attempt (k.lastBeat after + k.length) := by
  rw [tableAfter, tableAfter_claim]
  exact leased_run k.leased_start hbeats hlive

/-! ### Time -/

theorem clock_after {after : List Op}
    (hclock : ClockNondecreasing (k.before ++ k.op :: after)) :
    (k.now :: after.filterMap Op.databaseTime).Pairwise (· ≤ ·) := by
  have hsplit : (k.before ++ k.op :: after).filterMap Op.databaseTime =
      k.before.filterMap Op.databaseTime ++
        (k.now :: after.filterMap Op.databaseTime) := by
    simp [op, Op.databaseTime]
  rw [ClockNondecreasing, hsplit] at hclock
  exact (List.pairwise_append.mp hclock).2.1

theorem lastBeat_mem (after : List Op) :
    k.lastBeat after ∈ k.now :: after.filterMap Op.databaseTime := by
  have hlast : k.lastBeat after ∈
      k.now :: heartbeats k.attempt (k.callsAfter after) :=
    List.getLastD_mem_cons
  rcases List.mem_cons.mp hlast with hnow | hbeat
  · rw [hnow]
    exact List.mem_cons_self
  · obtain ⟨call, hcall, hb⟩ := List.mem_filterMap.mp hbeat
    have hmem : call.1 ∈ after := by
      rw [← (service settings).map_fst_trace
        (JobQueue.tableAfter settings (k.before ++ [k.op])) after]
      exact List.mem_map_of_mem (List.takeWhile_subset _ hcall)
    exact List.mem_cons_of_mem _ (List.mem_filterMap.mpr
      ⟨call.1, hmem, databaseTime_of_beatTime hb⟩)

theorem lastBeat_le_of_clock {after rest : List Op} {op : Op} {now : Time}
    (hclock : ClockNondecreasing (k.before ++ k.op :: (after ++ op :: rest)))
    (hnow : op.databaseTime = some now) : k.lastBeat after ≤ now := by
  have hpairs := k.clock_after hclock
  rw [List.filterMap_append, List.filterMap_cons_some hnow,
    ← List.cons_append] at hpairs
  exact (List.pairwise_append.mp hpairs).2.2 _ (k.lastBeat_mem after) now
    List.mem_cons_self

/-- The last sign of life of a live claim only moves forward. -/
theorem lastBeat_le {after later : List Op}
    (hclock : ClockNondecreasing (k.before ++ k.op :: (after ++ later)))
    (hlive : k.LiveAfter (after ++ later)) :
    k.lastBeat after ≤ k.lastBeat (after ++ later) := by
  induction later using List.reverseRecOn with
  | nil => simp
  | append_singleton later op ih =>
      rw [← List.append_assoc] at hclock hlive ⊢
      have hearlier : ClockNondecreasing
          (k.before ++ k.op :: (after ++ later)) := by
        have hsplit : k.before ++ k.op :: (after ++ later ++ [op]) =
            k.before ++ k.op :: (after ++ later) ++ [op] := by simp
        rw [ClockNondecreasing, hsplit, List.filterMap_append] at hclock
        exact (List.pairwise_append.mp hclock).1
      have hstep := ih hearlier hlive.of_append
      have hcalls := k.callsAfter_cons (after ++ later) [] op
      simp only [Machine.trace_nil] at hcalls
      have hlast : k.lastBeat (after ++ later ++ [op]) =
          (beatTime k.attempt (op, ((service settings).step
            (k.tableAfter (after ++ later)) op).2)).getD
              (k.lastBeat (after ++ later)) := by
        rw [LiveAfter, hcalls] at hlive
        rw [lastBeat, hcalls]
        exact lastBeat_concat hlive
      rw [hlast]
      cases hb : beatTime k.attempt (op, ((service settings).step
          (k.tableAfter (after ++ later)) op).2) with
      | none => exact hstep
      | some now =>
          exact hstep.trans (k.lastBeat_le_of_clock hclock
            (databaseTime_of_beatTime hb))

/-- The call that ends a live claim closes the list of its heartbeats. -/
theorem heartbeats_of_ended {earlier later : List Op} {op : Op}
    (hlive : k.LiveAfter earlier)
    (hends : endsClaim k.attempt
      (op, ((service settings).step (k.tableAfter earlier) op).2) = true) :
    heartbeats k.attempt (k.callsAfter (earlier ++ op :: later)) =
      heartbeats k.attempt (k.callsAfter earlier) := by
  rw [heartbeats_of_live hlive, heartbeats, callsAfter_cons,
    List.takeWhile_append_of_pos fun call hcall => by simp [hlive call hcall],
    List.takeWhile_cons_of_neg (by simp [hends]), List.append_nil]

end Claim

theorem SettlesAt.databaseTime {a : Attempt} {now : Time} {op : Op}
    (h : SettlesAt a now op) : op.databaseTime = some now := by
  rcases h with ⟨result, rfl⟩ | ⟨error, rfl⟩
  · rfl
  · rfl

/-- The settle runs no earlier than the operations before it. -/
theorem SettlesAt.ge {a : Attempt} {now settledAt : Time}
    {before later : List Op} {op settle : Op}
    (hclock : ClockNondecreasing (before ++ op :: (later ++ [settle])))
    (hop : op.databaseTime = some now)
    (hsettle : SettlesAt a settledAt settle) : now ≤ settledAt := by
  have hsplit : (before ++ op :: (later ++ [settle])).filterMap
      Op.databaseTime = before.filterMap Op.databaseTime ++
        now :: (later.filterMap Op.databaseTime ++ [settledAt]) := by
    simp [hop, hsettle.databaseTime]
  rw [ClockNondecreasing, hsplit] at hclock
  exact List.rel_of_pairwise_cons (List.pairwise_append.mp hclock).2.1
    (by simp)

theorem gap_of_chain {length : Duration} {x y : Time} {xs : List Time}
    (h : (x :: (xs ++ [y])).IsChain fun s t => t ≤ s + length) :
    y ≤ xs.getLastD x + length := by
  rw [← List.cons_append, List.isChain_append] at h
  refine h.2.2 _ ?_ y (by simp)
  simp [List.getLast?_cons]

/-- A live lease is never recovered.  Along every run whose database clock
does not run backwards, for every successful claim and every continuation in
which its heartbeats ask for the lease length of the claim: while the claim is
live, the lease of its row is the database time of the last successful claim
or heartbeat plus the lease length, and never decreases; a recovery that ends
the claim runs strictly after it; and if the signs of life of the attempt and
its settle follow each other within the lease length, no recovery ends the
claim before the settle. -/
theorem live_lease_never_recovered {settings : Settings}
    (k : Claim settings) (after : List Op)
    (hclock : ClockNondecreasing (k.before ++ k.op :: after))
    (hbeats : ∀ op ∈ after, BeatsWith settings k.attempt k.length op) :
    (k.LiveAfter after →
      Leased (k.tableAfter after) k.attempt
        (k.lastBeat after + k.length)) ∧
    (∀ earlier later d d', after = earlier ++ later → k.LiveAfter after →
      Leased (k.tableAfter earlier) k.attempt d →
      Leased (k.tableAfter after) k.attempt d' → d ≤ d') ∧
    (∀ now limit locked, k.LiveAfter after →
      endsClaim k.attempt (.recoverExpiredLeases now limit locked,
        ((service settings).step (k.tableAfter after)
          (.recoverExpiredLeases now limit locked)).2) = true →
      k.lastBeat after + k.length < now) ∧
    (∀ earlier now limit locked later settle settledAt,
      after = earlier ++ .recoverExpiredLeases now limit locked ::
        (later ++ [settle]) →
      SettlesAt k.attempt settledAt settle →
      (k.now :: (heartbeats k.attempt (k.callsAfter (earlier ++
        .recoverExpiredLeases now limit locked :: later)) ++
          [settledAt])).IsChain (fun s t => t ≤ s + k.length) →
      k.LiveAfter earlier →
      endsClaim k.attempt (.recoverExpiredLeases now limit locked,
        ((service settings).step (k.tableAfter earlier)
          (.recoverExpiredLeases now limit locked)).2) = false) := by
  refine ⟨k.leased hbeats, ?_, ?_, ?_⟩
  · rintro earlier later d d' rfl hlive ⟨r, hr, -, hd⟩ ⟨s, hs, -, hd'⟩
    obtain ⟨r', hr', -, hlease⟩ := k.leased
      (fun op hop => hbeats op (by simp [hop])) hlive.of_append
    obtain ⟨s', hs', -, hlease'⟩ := k.leased hbeats hlive
    obtain rfl := Option.some.inj (hr.symm.trans hr')
    obtain rfl := Option.some.inj (hs.symm.trans hs')
    obtain rfl := Option.some.inj (hd.symm.trans hlease)
    obtain rfl := Option.some.inj (hd'.symm.trans hlease')
    exact Int.add_le_add_right (k.lastBeat_le hclock hlive) k.length
  · intro now limit locked hlive hends
    exact deadline_lt_of_recovered (k.leased hbeats hlive) hends
  · rintro earlier now limit locked later settle settledAt rfl hsettle
      hchain hlive
    by_contra hne
    have hends := (Bool.not_eq_false _).mp hne
    have hexpired := deadline_lt_of_recovered
      (k.leased (fun op hop => hbeats op (by simp [hop])) hlive) hends
    rw [k.heartbeats_of_ended hlive hends] at hchain
    have hsplit : k.before ++ k.op :: (earlier ++
        .recoverExpiredLeases now limit locked :: (later ++ [settle])) =
        (k.before ++ k.op :: earlier) ++
          .recoverExpiredLeases now limit locked :: (later ++ [settle]) := by
      simp
    rw [hsplit] at hclock
    have horder := SettlesAt.ge hclock rfl hsettle
    exact absurd (hexpired.trans_le (horder.trans (gap_of_chain hchain)))
      (lt_irrefl _)

/-- The attempt of the sample job, claimed at time zero. -/
def sampleClaim : Claim sampleSettings where
  before := [sampleSubmit 1]
  now := 0
  jobId := 1
  workerId := "worker"
  token := 7
  leaseSeconds := none
  attempt := ⟨1, "worker", 7, 1, 3⟩
  obtained := ⟨0, 1, "worker", 7, none, _, rfl, rfl, rfl⟩

/-- A heartbeat after 50 seconds keeps a sweep after 100 seconds away from an
attempt that settles after 105 seconds. -/
theorem live_lease_never_recovered_sample :
    endsClaim sampleClaim.attempt
      (.recoverExpiredLeases (seconds 100) 10 [],
        ((service sampleSettings).step
          (sampleClaim.tableAfter
            [.extendLease (seconds 50) sampleClaim.attempt none])
          (.recoverExpiredLeases (seconds 100) 10 [])).2) = false := by
  refine (live_lease_never_recovered sampleClaim
    ([.extendLease (seconds 50) sampleClaim.attempt none] ++
      .recoverExpiredLeases (seconds 100) 10 [] ::
        ([] ++ [.completeJob (seconds 105) sampleClaim.attempt "done"]))
    ?_ ?_).2.2.2 _ _ _ _ [] _ (seconds 105) rfl (Or.inl ⟨_, rfl⟩) ?_ ?_
  · unfold ClockNondecreasing
    decide
  · intro op hop now b leaseSeconds hbeat _
    subst hbeat
    have hbeat : leaseSeconds = none := by
      simp only [List.cons_append, List.nil_append, List.mem_cons,
        Op.extendLease.injEq, reduceCtorEq, List.not_mem_nil, or_false] at hop
      exact hop.2.2
    simp [hbeat, Claim.length, sampleClaim]
  · decide
  · unfold Claim.LiveAfter
    decide

end JobQueue
