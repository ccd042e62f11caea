import JobQueue.Lifecycle.Ownership

/-!
# Fencing

An attempt read off the row of a successful claim is a capability: a write
made with it takes effect exactly as long as nothing has ended the claim, and
is rejected for ever after.  The tokens that different claims draw are assumed
to be distinct; workers may hold on to their attempts for any length of time.
-/

namespace JobQueue

open Support

/-! ## Fenced writes -/

/-- A write fenced by an attempt, with its other arguments. -/
inductive FencedWrite
  | extendLease (now : Time) (leaseSeconds : Option Duration)
  | updateProgress (progress : ℤ)
  | completeJob (now : Time) (result : Jsonb)
  | failAttempt (now : Time) (error : String)

def FencedWrite.op (a : Attempt) : FencedWrite → Op
  | .extendLease now leaseSeconds => .extendLease now a leaseSeconds
  | .updateProgress progress => .updateProgress a progress
  | .completeJob now result => .completeJob now a result
  | .failAttempt now error => .failAttempt now a error

def FencedWrite.effect (settings : Settings) (a : Attempt) :
    FencedWrite → Change
  | .extendLease now leaseSeconds =>
      .leaseExtended now a (leaseDeadline settings now leaseSeconds)
  | .updateProgress progress => .progressed a progress
  | .completeJob now result => .completed now a result
  | .failAttempt now error =>
      failureChange .worker now a error
        (if a.hasAttemptsLeft then .retryScheduled else .permanentlyFailed)

/-- The write returns and makes its change, on the row of the attempt and on
no other row. -/
def TakesEffect (settings : Settings) (t : Jobs) (a : Attempt)
    (w : FencedWrite) : Prop :=
  ∃ t' reply r, (service settings).step t (w.op a) = (t', .ok reply) ∧
    Rewrites t t' a.jobId r ((w.effect settings a).apply r)

/-- The write raises `OwnershipLostError` and leaves the table as it is. -/
def Rejected (settings : Settings) (t : Jobs) (a : Attempt)
    (w : FencedWrite) : Prop :=
  (service settings).step t (w.op a) = (t, .error a.ownershipLost)

theorem TakesEffect.not_rejected {settings : Settings} {t : Jobs}
    {a : Attempt} {w : FencedWrite} (h : TakesEffect settings t a w) :
    ¬ Rejected settings t a w := by
  obtain ⟨t', reply, r, hstep, -⟩ := h
  intro hrejected
  rw [Rejected, hstep] at hrejected
  simp at hrejected

/-- The row `r` of the attempt `a` is held under it. -/
structure Live (t : Jobs) (a : Attempt) (r : Job) : Prop where
  row : t.find? a.jobId = some r
  holds : r.Holds a
  wellformed : r.Wellformed

/-- The attempts handed out by claims have a retry delay whenever they have
attempts left. -/
def Attempt.Schedulable (a : Attempt) : Prop :=
  a.hasAttemptsLeft = true →
    ∃ delay, retryDelaySeconds a.attemptCount = .ok delay

theorem Job.Holds.schedulable {r : Job} {a : Attempt} (h : r.Holds a)
    (hwf : r.Wellformed) : a.Schedulable := by
  intro hleft
  obtain ⟨-, hcount, hmax⟩ := Job.holds_iff.mp h
  have hthree := hwf.counters.maxAttempts
  have hpos := hwf.counters.worked (Or.inl h.1)
  have hlt : a.attemptCount < a.maxAttempts := of_decide_eq_true hleft
  have hcases : a.attemptCount = 1 ∨ a.attemptCount = 2 := by omega
  rcases hcases with h1 | h2
  · exact ⟨30, retryDelaySeconds_eq_ok_iff.mpr (Or.inl ⟨h1, rfl⟩)⟩
  · exact ⟨120, retryDelaySeconds_eq_ok_iff.mpr (Or.inr ⟨h2, rfl⟩)⟩

/-- A fenced statement whose rewriting is a change of the live row goes
through. -/
theorem Live.executeUpdate {t : Jobs} {a : Attempt} {r : Job}
    (h : Live t a r) {p : Job → Bool} {s : Assignment Job.id} {c : Change}
    (hp : ∀ r, p r = true → r.id = a.jobId) (hpr : p r = true)
    (hc : c.Enabled r) (hs : c.apply r = s.set r) :
    JobQueue.executeUpdate t p s = .ok (t.updateWhere p s, [s.set r]) ∧
      Rewrites t (t.updateWhere p s) a.jobId r (c.apply r) := by
  have hcheck : (s.set r).violatedCheck = none := by
    rw [← hs]
    exact (Change.wellformed hc h.wellformed).violatedCheck
  rw [hs]
  exact ⟨executeUpdate_matched s hp h.row hpr hcheck,
    updateWhere_rewrites s hp h.row hpr⟩

theorem Live.executeFirst {t : Jobs} {a : Attempt} {r : Job}
    (h : Live t a r) {p : Job → Bool} {s : Assignment Job.id} {c : Change}
    (hp : ∀ r, p r = true → r.id = a.jobId) (hpr : p r = true)
    (hc : c.Enabled r) (hs : c.apply r = s.set r) :
    JobQueue.executeFirst t p s =
        .ok (t.updateWhere p s, some (s.set r)) ∧
      Rewrites t (t.updateWhere p s) a.jobId r (c.apply r) := by
  obtain ⟨hupdate, hrw⟩ := h.executeUpdate hp hpr hc hs
  refine ⟨?_, hrw⟩
  rw [JobQueue.executeFirst, hupdate]
  rfl

def Attempt.failureOutcome (a : Attempt) : AttemptOutcome :=
  if a.hasAttemptsLeft then .retryScheduled else .permanentlyFailed

theorem Cause.guarded_of_allows {cause : Cause} {now : Time} {r : Job}
    (h : cause.Allows now r) :
    (!cause.guarded || r.leaseExpired now) = true := by
  cases cause with
  | worker => rfl
  | recovery => exact h

/-- The counters in the condition of a failed attempt never reject the live
owner, nor a recovery once the lease has run out. -/
theorem Live.applyFailedAttempt {t : Jobs} {a : Attempt} {r : Job}
    (h : Live t a r) (cause : Cause) (now : Time)
    (hallows : cause.Allows now r) (error : String) :
    ∃ t', JobQueue.applyFailedAttempt t now a error cause.guarded =
        .ok (t', some ⟨a.failureOutcome,
          (failureChange cause now a error a.failureOutcome).apply r⟩) ∧
      Rewrites t t' a.jobId r
        ((failureChange cause now a error a.failureOutcome).apply r) := by
  obtain ⟨howned, hcount, hmax⟩ := Job.holds_iff.mp h.holds
  have hguard := Cause.guarded_of_allows hallows
  by_cases hleft : a.hasAttemptsLeft = true
  · obtain ⟨delay, hdelay⟩ := h.holds.schedulable h.wellformed hleft
    have hlt : r.attemptCount < r.maxAttempts := by
      rw [hcount, hmax]
      exact of_decide_eq_true hleft
    obtain ⟨hfirst, hrw⟩ := h.executeFirst
      (p := fun r => ownedBy a r && r.attemptCount < r.maxAttempts &&
        (!cause.guarded || r.leaseExpired now))
      (s := scheduleRetry now delay error)
      (c := .retryScheduled cause now a delay error)
      (fun r hr => ownedBy_id (by simp_all)) (by simp [howned, hlt, hguard])
      ⟨howned, hlt, hdelay, hallows⟩ rfl
    have heffect : failureChange cause now a error .retryScheduled =
        .retryScheduled cause now a delay error := by
      simp [failureChange, hdelay]
    rw [Attempt.failureOutcome, if_pos hleft, heffect,
      JobQueue.applyFailedAttempt, if_pos hleft]
    exact ⟨_,
      bind_eq_ok.mpr ⟨delay, hdelay, bind_eq_ok.mpr ⟨_, hfirst, rfl⟩⟩, hrw⟩
  · have hge : r.attemptCount ≥ r.maxAttempts := by
      rw [hcount, hmax]
      exact not_lt.mp (fun hlt => hleft (decide_eq_true hlt))
    obtain ⟨hfirst, hrw⟩ := h.executeFirst
      (p := fun r => ownedBy a r && r.attemptCount ≥ r.maxAttempts &&
        (!cause.guarded || r.leaseExpired now))
      (s := failPermanently now error)
      (c := .permanentlyFailed cause now a error)
      (fun r hr => ownedBy_id (by simp_all)) (by simp [howned, hge, hguard])
      ⟨howned, hge, hallows⟩ rfl
    rw [Attempt.failureOutcome, if_neg hleft, JobQueue.applyFailedAttempt,
      if_neg hleft]
    exact ⟨_, bind_eq_ok.mpr ⟨_, hfirst, rfl⟩, hrw⟩

theorem Live.failAttempt {t : Jobs} {a : Attempt} {r : Job}
    (h : Live t a r) (now : Time) (error : String) :
    ∃ t' result, JobQueue.failAttempt t now a error = .ok (t', result) ∧
      Rewrites t t' a.jobId r
        ((failureChange .worker now a error a.failureOutcome).apply r) := by
  obtain ⟨t', happly, hrw⟩ :=
    h.applyFailedAttempt .worker now trivial error
  exact ⟨t', _, bind_eq_ok.mpr ⟨_, happly, rfl⟩, hrw⟩

/-- Every fenced write of the live owner takes effect. -/
theorem Live.takesEffect {t : Jobs} {a : Attempt} {r : Job}
    (h : Live t a r) (settings : Settings) (w : FencedWrite) :
    TakesEffect settings t a w := by
  have howned := h.holds.ownedBy
  cases w with
  | extendLease now leaseSeconds =>
      obtain ⟨hfirst, hrw⟩ := h.executeFirst
        (s := setLease (leaseDeadline settings now leaseSeconds))
        (c := .leaseExtended now a (leaseDeadline settings now leaseSeconds))
        (fun _ => ownedBy_id) howned howned rfl
      refine ⟨_, .extended (leaseDeadline settings now leaseSeconds), r, ?_,
        hrw⟩
      simp only [service, FencedWrite.op, Op.execute, JobQueue.extendLease,
        hfirst]
      rfl
  | updateProgress progress =>
      obtain ⟨hupdate, hrw⟩ := h.executeUpdate
        (s := setProgress progress) (c := .progressed a progress)
        (fun _ => ownedBy_id) howned howned rfl
      refine ⟨_, .progressed, r, ?_, hrw⟩
      simp only [service, FencedWrite.op, Op.execute, JobQueue.updateProgress,
        hupdate]
      rfl
  | completeJob now result =>
      obtain ⟨hfirst, hrw⟩ := h.executeFirst
        (s := complete now result) (c := .completed now a result)
        (fun _ => ownedBy_id) howned howned rfl
      refine ⟨_, .completed ((complete now result).set r), r, ?_, hrw⟩
      simp only [service, FencedWrite.op, Op.execute, JobQueue.completeJob,
        hfirst]
      rfl
  | failAttempt now error =>
      obtain ⟨t', result, hfail, hrw⟩ := h.failAttempt now error
      refine ⟨t', .attemptFailed result, r, ?_, hrw⟩
      simp only [service, FencedWrite.op, Op.execute, hfail]
      rfl

/-- Every fenced write with a token the row does not carry is rejected. -/
theorem rejected_of_token_ne {t : Jobs} {a : Attempt} (settings : Settings)
    (ha : a.Schedulable)
    (h : ∀ r, t.find? a.jobId = some r →
      r.executionToken ≠ some a.executionToken) (w : FencedWrite) :
    Rejected settings t a w := by
  have hunowned : ∀ r, t.find? a.jobId = some r → ownedBy a r = false := by
    intro r hr
    by_contra hne
    exact h r hr (ownedBy_iff.mp (by simpa using hne)).2.2.2
  cases w with
  | extendLease now leaseSeconds =>
      have hfirst := executeFirst_unmatched
        (setLease (leaseDeadline settings now leaseSeconds))
        (fun _ => ownedBy_id) hunowned
      simp only [Rejected, service, FencedWrite.op, Op.execute,
        JobQueue.extendLease, hfirst]
      rfl
  | updateProgress progress =>
      have hupdate := executeUpdate_unmatched (setProgress progress)
        (fun _ => ownedBy_id) hunowned
      simp only [Rejected, service, FencedWrite.op, Op.execute,
        JobQueue.updateProgress, hupdate]
      rfl
  | completeJob now result =>
      have hfirst := executeFirst_unmatched (complete now result)
        (fun _ => ownedBy_id) hunowned
      simp only [Rejected, service, FencedWrite.op, Op.execute,
        JobQueue.completeJob, hfirst]
      rfl
  | failAttempt now error =>
      have hfirst : ∀ (q : Job → Bool) (s : Assignment Job.id),
          executeFirst t (fun r => ownedBy a r && q r &&
            (!false || r.leaseExpired now)) s = .ok (t, none) := by
        intro q s
        refine executeFirst_unmatched s (k := a.jobId)
          (fun r hr => ownedBy_id (by simp_all)) fun r hr => ?_
        simp [hunowned r hr]
      have happly : applyFailedAttempt t now a error false =
          .ok (t, none) := by
        unfold applyFailedAttempt
        split
        · next hleft =>
            obtain ⟨delay, hdelay⟩ := ha hleft
            exact bind_eq_ok.mpr ⟨delay, hdelay,
              bind_eq_ok.mpr ⟨(t, none), hfirst _ _, rfl⟩⟩
        · exact bind_eq_ok.mpr ⟨(t, none), hfirst _ _, rfl⟩
      simp only [Rejected, service, FencedWrite.op, Op.execute,
        JobQueue.failAttempt, happly]
      rfl

/-! ## Claims in a run -/

/-- The token an operation draws, if it is a claim. -/
def Op.mintedToken : Op → Option UUID
  | .claimJob _ _ _ token _ => some token
  | _ => none

def mintedTokens (ops : List Op) : List UUID :=
  ops.filterMap Op.mintedToken

/-- The operation `op`, run after `before`, is a claim that returned a row,
and `a` is the attempt read off that row. -/
def Obtained (settings : Settings) (before : List Op) (op : Op)
    (a : Attempt) : Prop :=
  ∃ now jobId workerId token leaseSeconds row,
    op = .claimJob now jobId workerId token leaseSeconds ∧
      ((service settings).step (tableAfter settings before) op).2 =
        .ok (.claimed (some row)) ∧
      Attempt.of row = .ok a

/-- `b` names the claim that handed out `a`. -/
def Attempt.SameClaim (a b : Attempt) : Prop :=
  b.jobId = a.jobId ∧ b.executionToken = a.executionToken

instance (a b : Attempt) : Decidable (a.SameClaim b) :=
  inferInstanceAs (Decidable (_ ∧ _))

/-- The answered call settled the claim that handed out `a`, or is a recovery
that took it away. -/
def endsClaim (a : Attempt) : Op × Outcome → Bool
  | (.completeJob _ b _, .ok (.completed _)) => a.SameClaim b
  | (.failAttempt _ b _, .ok (.attemptFailed _)) => a.SameClaim b
  | (.recoverExpiredLeases _ _ _, .ok (.recovered results)) =>
      results.any fun x => a.SameClaim x.1
  | _ => false

/-- The claim `op`, made after `before`, was ended by one of the calls in
`after`. -/
def Ended (settings : Settings) (before : List Op) (op : Op)
    (after : List Op) (a : Attempt) : Prop :=
  ∃ call ∈ (service settings).trace (tableAfter settings (before ++ [op]))
    after, endsClaim a call = true

theorem failureChange_endedAttempt (cause : Cause) (now : Time) (a : Attempt)
    (error : String) (outcome : AttemptOutcome) :
    (failureChange cause now a error outcome).endedAttempt = some a := by
  cases outcome <;> rfl

theorem failureChange_claimedToken (cause : Cause) (now : Time) (a : Attempt)
    (error : String) (outcome : AttemptOutcome) :
    (failureChange cause now a error outcome).claimedToken = none := by
  cases outcome <;> rfl

/-- A call that ends the claim makes a change that ends it. -/
theorem change_of_endsClaim (settings : Settings) {a : Attempt}
    {call : Op × Outcome} (h : endsClaim a call = true) :
    ∃ c, (a.jobId, c) ∈ changesOf settings call ∧
      c.Ends a.executionToken := by
  unfold endsClaim at h
  split at h
  · next now b result row =>
      have h := of_decide_eq_true h
      refine ⟨.completed now b result, ?_, b, rfl, h.2⟩
      simp [changesOf, h.1]
  · next now b error result =>
      have h := of_decide_eq_true h
      refine ⟨failureChange .worker now b error result.outcome, ?_, b,
        failureChange_endedAttempt _ _ _ _ _, h.2⟩
      simp [changesOf, h.1]
  · next now limit locked results =>
      obtain ⟨x, hx, hsame⟩ := List.any_eq_true.mp h
      obtain ⟨hjob, htoken⟩ := of_decide_eq_true hsame
      refine ⟨failureChange .recovery now x.1 leaseExpiredError x.2.outcome,
        ?_, x.1, failureChange_endedAttempt _ _ _ _ _, htoken⟩
      rw [← hjob]
      exact List.mem_map.mpr ⟨x, hx, rfl⟩
  · cases h

/-- A change that ends the claim is made by a call that ends it. -/
theorem Makes.endsClaim {settings : Settings} {a : Attempt}
    {call : Op × Outcome} {id : UUID} {c : Change}
    (h : Makes settings call id c) (hid : id = a.jobId)
    (hend : c.Ends a.executionToken) : JobQueue.endsClaim a call = true := by
  obtain ⟨b, hb, htoken⟩ := hend
  cases h with
  | completed now b' result row =>
      obtain rfl := Option.some.inj hb
      exact decide_eq_true ⟨hid, htoken⟩
  | attemptFailed now b' error result =>
      rw [failureChange_endedAttempt] at hb
      obtain rfl := Option.some.inj hb
      exact decide_eq_true ⟨hid, htoken⟩
  | recovered now limit locked results x hx =>
      rw [failureChange_endedAttempt] at hb
      obtain rfl := Option.some.inj hb
      exact List.any_eq_true.mpr ⟨x, hx, decide_eq_true ⟨hid, htoken⟩⟩
  | _ => simp [Change.endedAttempt] at hb

/-- A call that does not end the claim keeps the row held, and makes no
change that ends the claim. -/
theorem holds_step {settings : Settings} {t : Jobs} {a : Attempt} {r : Job}
    (hr : t.find? a.jobId = some r) (hholds : r.Holds a) (op : Op)
    (hlive : endsClaim a (op, ((service settings).step t op).2) = false) :
    ∃ s, ((service settings).step t op).1.find? a.jobId = some s ∧
      RowPath (some r) (changesFor a.jobId
        (changesOf settings (op, ((service settings).step t op).2)))
        (some s) ∧
      (∀ c ∈ changesFor a.jobId
        (changesOf settings (op, ((service settings).step t op).2)),
        ¬ c.Ends a.executionToken) ∧
      s.Holds a := by
  have hpath := service_step_path settings t op a.jobId
  rw [hr] at hpath
  obtain ⟨s, hs⟩ := RowPath.exists_some hpath
  rw [hs] at hpath
  have hnoend : ∀ c ∈ changesFor a.jobId
      (changesOf settings (op, ((service settings).step t op).2)),
      ¬ c.Ends a.executionToken := by
    intro c hc hend
    have hends := (makes_of_mem (mem_changesFor.mp hc)).endsClaim rfl hend
    simp [hlive] at hends
  exact ⟨s, hs, hpath, hnoend, RowPath.holds hpath hholds hnoend⟩

/-- A change that puts a token on a row is made by a claim of its job. -/
theorem Makes.claim {settings : Settings} {call : Op × Outcome}
    {id token : UUID} {c : Change} (h : Makes settings call id c)
    (htoken : c.claimedToken = some token) :
    ∃ now workerId leaseSeconds row,
      call = (.claimJob now id workerId token leaseSeconds,
        .ok (.claimed (some row))) := by
  cases h with
  | claimed now jobId workerId token' leaseSeconds row =>
      obtain rfl := Option.some.inj htoken
      exact ⟨now, workerId, leaseSeconds, row, rfl⟩
  | attemptFailed now b error result =>
      simp [failureChange_claimedToken] at htoken
  | recovered now limit locked results x hx =>
      simp [failureChange_claimedToken] at htoken
  | _ => simp [Change.claimedToken] at htoken

/-- The claim was ended exactly when the history of its row since then holds
a change that ends it. -/
theorem ended_iff {settings : Settings} {before after : List Op} {op : Op}
    {a : Attempt} :
    Ended settings before op after a ↔
      ∃ c ∈ historyFrom settings (tableAfter settings (before ++ [op])) after
        a.jobId, c.Ends a.executionToken := by
  simp only [historyFrom, List.mem_flatMap, mem_changesFor]
  constructor
  · rintro ⟨call, hcall, hends⟩
    obtain ⟨c, hc, hend⟩ := change_of_endsClaim settings hends
    exact ⟨c, ⟨call, hcall, hc⟩, hend⟩
  · rintro ⟨c, ⟨call, hcall, hc⟩, hend⟩
    exact ⟨call, hcall, (makes_of_mem hc).endsClaim rfl hend⟩

/-- The claims in the history of a row drew their tokens in the run. -/
theorem claimedToken_mem_mintedTokens {settings : Settings} {t : Jobs}
    {ops : List Op} {id token : UUID} {c : Change}
    (hc : c ∈ historyFrom settings t ops id)
    (htoken : c.claimedToken = some token) : token ∈ mintedTokens ops := by
  simp only [historyFrom, List.mem_flatMap, mem_changesFor] at hc
  obtain ⟨call, hcall, hmem⟩ := hc
  have hop : call.1 ∈ ops := by
    rw [← (service settings).map_fst_trace t ops]
    exact List.mem_map_of_mem hcall
  obtain ⟨now, workerId, leaseSeconds, row, rfl⟩ :=
    (makes_of_mem hmem).claim htoken
  exact List.mem_filterMap.mpr ⟨_, hop, rfl⟩

theorem Obtained.row {settings : Settings} {before : List Op} {now : Time}
    {jobId : UUID} {workerId : String} {token : UUID}
    {leaseSeconds : Option Duration} {a : Attempt}
    (h : Obtained settings before
      (.claimJob now jobId workerId token leaseSeconds) a) :
    token = a.executionToken ∧ ∃ r s,
      s = (claim now workerId token
        (leaseDeadline settings now leaseSeconds)).set r ∧
      (tableAfter settings (before ++
        [.claimJob now jobId workerId token leaseSeconds])).find? a.jobId =
        some s ∧
      s.Holds a ∧
      (tableAfter settings before).find? jobId = some r ∧
      r.isClaimable = true ∧ a.jobId = jobId := by
  obtain ⟨_, _, _, _, _, row, hop, hreply, hof⟩ := h
  cases hop
  have htable := tableAfter_append settings before
    [.claimJob now jobId workerId token leaseSeconds]
  simp only [Machine.run_cons, Machine.run_nil] at htable
  obtain ⟨row', hclaim, hrow'⟩ := answer_eq_ok (execute_of_step_ok hreply)
  obtain rfl := Reply.claimed.inj hrow'
  rw [← htable] at hclaim
  rcases claimJob_cases hclaim with ⟨hnone, -⟩ | ⟨r, hclaimable, hset, hrw⟩
  · simp at hnone
  · obtain rfl := Option.some.inj hset
    obtain ⟨hid, -, htoken, -⟩ := Attempt.of_eq_ok_iff.mp hof
    have hkey : a.jobId = jobId :=
      hid.symm.trans (KeyedTable.key_of_find?_eq_some hrw.after)
    refine ⟨Option.some.inj htoken, r, _, rfl, ?_, ⟨rfl, hof⟩, hrw.before,
      hclaimable, hkey⟩
    rw [hkey]
    exact hrw.after

theorem Obtained.live {settings : Settings} {before : List Op} {op : Op}
    {a : Attempt} (h : Obtained settings before op a) :
    op.mintedToken = some a.executionToken ∧
      ∃ r, Live (tableAfter settings (before ++ [op])) a r := by
  obtain ⟨now, jobId, workerId, token, leaseSeconds, -, rfl, -⟩ := id h
  obtain ⟨htoken, -, s, -, hs, hholds, -⟩ := h.row
  exact ⟨congrArg some htoken, s, hs, hholds,
    tableAfter_wellformed settings _ _ _ hs⟩

theorem Ended.append {settings : Settings} {before after : List Op} {op : Op}
    {a : Attempt} (h : Ended settings before op after a) (later : List Op) :
    Ended settings before op (after ++ later) a := by
  obtain ⟨call, hcall, hends⟩ := h
  refine ⟨call, ?_, hends⟩
  rw [Machine.trace_append]
  exact List.mem_append_left _ hcall

theorem tableAfter_claim (settings : Settings) (before after : List Op)
    (op : Op) :
    tableAfter settings (before ++ op :: after) =
      (service settings).run (tableAfter settings (before ++ [op])) after := by
  rw [← tableAfter_append, List.append_assoc]
  rfl

theorem Obtained.live_of_not_ended {settings : Settings}
    {before after : List Op} {op : Op} {a : Attempt}
    (h : Obtained settings before op a)
    (hlive : ¬ Ended settings before op after a) :
    ∃ r, Live (tableAfter settings (before ++ op :: after)) a r := by
  obtain ⟨-, r, hr⟩ := h.live
  have hpath := service_path_from settings
    (tableAfter settings (before ++ [op])) after a.jobId
  rw [hr.row, ← tableAfter_claim] at hpath
  obtain ⟨s, hs⟩ := RowPath.exists_some hpath
  rw [hs] at hpath
  refine ⟨s, hs, RowPath.holds hpath hr.holds fun c hc hend => ?_,
    tableAfter_wellformed settings _ _ _ hs⟩
  exact hlive (ended_iff.mpr ⟨c, hc, hend⟩)

theorem Obtained.token_ne_of_ended {settings : Settings}
    {before after : List Op} {op : Op} {a : Attempt}
    (h : Obtained settings before op a)
    (htokens : (mintedTokens (before ++ op :: after)).Nodup)
    (hended : Ended settings before op after a) {s : Job}
    (hs : (tableAfter settings (before ++ op :: after)).find? a.jobId =
      some s) : s.executionToken ≠ some a.executionToken := by
  obtain ⟨hminted, r, hr⟩ := h.live
  have hpath := service_path_from settings
    (tableAfter settings (before ++ [op])) after a.jobId
  rw [hr.row, ← tableAfter_claim, hs] at hpath
  have hfresh : a.executionToken ∉ mintedTokens after := by
    have hsplit : mintedTokens (before ++ op :: after) =
        mintedTokens before ++ a.executionToken :: mintedTokens after := by
      simp [mintedTokens, hminted]
    rw [hsplit] at htokens
    exact (List.nodup_cons.mp htokens.of_append_right).1
  refine RowPath.token_ne_of_ended hpath (ended_iff.mp hended) ?_
  intro c hc htoken
  exact hfresh (claimedToken_mem_mintedTokens hc htoken)

/-- Once the claim is ended, its writes are rejected. -/
theorem Obtained.rejected_of_ended {settings : Settings}
    {before after : List Op} {op : Op} {a : Attempt}
    (h : Obtained settings before op a)
    (htokens : (mintedTokens (before ++ op :: after)).Nodup)
    (hended : Ended settings before op after a) (w : FencedWrite) :
    Rejected settings (tableAfter settings (before ++ op :: after)) a w := by
  obtain ⟨-, r, hr⟩ := h.live
  exact rejected_of_token_ne settings (hr.holds.schedulable hr.wellformed)
    (fun s hs => h.token_ne_of_ended htokens hended hs) w

/-- The owner of a row in a run is the attempt of a claim that lasts. -/
theorem Obtained.holds_of_owned {settings : Settings}
    {before after : List Op} {op : Op} {a : Attempt}
    (h : Obtained settings before op a)
    (htokens : (mintedTokens (before ++ op :: after)).Nodup) {s : Job}
    (hs : (tableAfter settings (before ++ op :: after)).find? a.jobId =
      some s) (howned : ownedBy a s = true) : s.Holds a := by
  have hlive : ¬ Ended settings before op after a := fun hended =>
    h.token_ne_of_ended htokens hended hs (ownedBy_iff.mp howned).2.2.2
  obtain ⟨r, hr⟩ := h.live_of_not_ended hlive
  obtain rfl := Option.some.inj (hr.row.symm.trans hs)
  exact hr.holds

/-- Fencing is exact.  In every run from the empty table in which different
claims draw different tokens, for the attempt `a` of any successful claim: a
fenced write takes effect if and only if nothing has ended the claim yet;
otherwise it is rejected, now and in every later state; and no other attempt
of the same job can write at the same time. -/
theorem fencing_exact (settings : Settings) {before after : List Op} {op : Op}
    {a : Attempt} (hclaim : Obtained settings before op a)
    (htokens : (mintedTokens (before ++ op :: after)).Nodup)
    (w : FencedWrite) :
    (TakesEffect settings (tableAfter settings (before ++ op :: after)) a w ↔
      ¬ Ended settings before op after a) ∧
    (Ended settings before op after a → ∀ later,
      (mintedTokens (before ++ op :: (after ++ later))).Nodup →
      Rejected settings
        (tableAfter settings (before ++ op :: (after ++ later))) a w) ∧
    (∀ before' op' after' b w',
      before' ++ op' :: after' = before ++ op :: after →
      Obtained settings before' op' b → b.jobId = a.jobId →
      TakesEffect settings
        (tableAfter settings (before ++ op :: after)) a w →
      TakesEffect settings
        (tableAfter settings (before ++ op :: after)) b w' → b = a) := by
  have hexact : ∀ {before after op a} {w : FencedWrite},
      Obtained settings before op a →
      (mintedTokens (before ++ op :: after)).Nodup →
      (TakesEffect settings (tableAfter settings (before ++ op :: after)) a w ↔
        ¬ Ended settings before op after a) := by
    intro before after op a w hclaim htokens
    constructor
    · intro heffect hended
      exact heffect.not_rejected (hclaim.rejected_of_ended htokens hended w)
    · intro hlive
      obtain ⟨r, hr⟩ := hclaim.live_of_not_ended hlive
      exact hr.takesEffect settings w
  refine ⟨hexact hclaim htokens, ?_, ?_⟩
  · intro hended later hlater
    exact hclaim.rejected_of_ended hlater (hended.append later) w
  · intro before' op' after' b w' hrun hclaim' hjob ha hb
    obtain ⟨r, hr⟩ := hclaim.live_of_not_ended
      ((hexact hclaim htokens).mp ha)
    rw [← hrun] at hb htokens
    obtain ⟨s, hs⟩ := hclaim'.live_of_not_ended
      ((hexact hclaim' htokens).mp hb)
    have hrow := hs.row
    rw [hrun, hjob, hr.row] at hrow
    obtain rfl := Option.some.inj hrow
    exact Except.ok.inj (hs.holds.2.symm.trans hr.holds.2)

/-- A claim that a recovery takes away: the stale owner can no longer complete
the job, although it claims it again itself. -/
theorem fencing_exact_recovered :
    ∃ a, Obtained sampleSettings [sampleSubmit 1]
        (.claimJob 0 1 "worker" 7 none) a ∧
      Rejected sampleSettings
        (tableAfter sampleSettings
          ([sampleSubmit 1] ++ .claimJob 0 1 "worker" 7 none ::
            ([.recoverExpiredLeases (seconds 61) 10 []] ++
              [.activateDueScheduledJobs (seconds 91) 10 [],
                .claimJob (seconds 91) 1 "worker" 8 none]))) a
        (.completeJob (seconds 92) "done") := by
  have hobtained : Obtained sampleSettings [sampleSubmit 1]
      (.claimJob 0 1 "worker" 7 none) ⟨1, "worker", 7, 1, 3⟩ :=
    ⟨0, 1, "worker", 7, none, _, rfl, rfl, rfl⟩
  refine ⟨_, hobtained, ?_⟩
  refine (fencing_exact sampleSettings hobtained (by decide)
    (.completeJob (seconds 92) "done")).2.1 ?_ _ (by decide)
  exact ⟨_, List.mem_cons_self, rfl⟩

end JobQueue
