import JobQueue.Lifecycle.Ownership

/-!
# The transition graph

Which statuses a change leaves and enters, what it never touches, and which
rows an operation touches at all.  The laws are proved for one change, lifted
to the changes of one call, and from there to whole runs.
-/

namespace JobQueue

open Support

/-! ## Statuses -/

def JobStatus.canBecome : JobStatus → JobStatus → Bool
  | .scheduled, .pending => true
  | .scheduled, .cancelled => true
  | .pending, .processing => true
  | .pending, .cancelled => true
  | .processing, .completed => true
  | .processing, .scheduled => true
  | .processing, .failed => true
  | .failed, .pending => true
  | _, _ => false

def Change.target : Change → Option JobStatus
  | .claimed _ _ _ _ => some .processing
  | .completed _ _ _ => some .completed
  | .retryScheduled _ _ _ _ _ => some .scheduled
  | .permanentlyFailed _ _ _ _ => some .failed
  | .activated _ => some .pending
  | .cancelled => some .cancelled
  | .retried => some .pending
  | _ => none

def Change.leaves (s : JobStatus) : Change → Bool
  | .claimed _ _ _ _ => s = .pending
  | .completed _ _ _ => s = .processing
  | .retryScheduled _ _ _ _ _ => s = .processing
  | .permanentlyFailed _ _ _ _ => s = .processing
  | .activated _ => s = .scheduled
  | .cancelled => cancellable s
  | .retried => s = .failed
  | _ => false

theorem Change.status_apply {r : Job} {c : Change} (hc : c.Enabled r) :
    (c.apply r).status = c.target.getD r.status := by
  cases c with
  | created row => exact hc.elim
  | _ => rfl

/-- A change that moves the status finds the row in a status it leaves. -/
theorem Change.leaves_of_enabled {r : Job} {c : Change} (hc : c.Enabled r)
    (hmoves : c.target.isSome) : c.leaves r.status = true := by
  cases c with
  | claimed now workerId token deadline =>
      exact decide_eq_true (Job.isClaimable_iff.mp hc).1
  | completed now a result => exact decide_eq_true (ownedBy_iff.mp hc).2.1
  | retryScheduled cause now a delay error =>
      exact decide_eq_true (ownedBy_iff.mp hc.1).2.1
  | permanentlyFailed cause now a error =>
      exact decide_eq_true (ownedBy_iff.mp hc.1).2.1
  | activated now => exact decide_eq_true (Job.isDue_iff.mp hc).1
  | cancelled => exact hc
  | retried => exact decide_eq_true hc
  | _ => cases hmoves

theorem Change.canBecome {c : Change} {s s' : JobStatus}
    (hleaves : c.leaves s = true) (htarget : c.target = some s') :
    s.canBecome s' = true := by
  cases c with
  | cancelled =>
      cases htarget
      rcases cancellable_iff.mp hleaves with rfl | rfl
      · rfl
      · rfl
  | created row => cases htarget
  | keyReleased => cases htarget
  | leaseExtended now a deadline => cases htarget
  | progressed a progress => cases htarget
  | _ =>
      cases htarget
      obtain rfl := of_decide_eq_true hleaves
      rfl

/-- Only `retry_job` leaves `FAILED`. -/
theorem Change.retried_of_leaves_failed {c : Change}
    (h : c.leaves .failed = true) : c = .retried := by
  cases c <;> first | rfl | cases h

/-! ## One call moves a row at most once -/

theorem failureChange_leaves (cause : Cause) (now : Time) (a : Attempt)
    (error : String) (outcome : AttemptOutcome) (s : JobStatus) :
    (failureChange cause now a error outcome).leaves s =
      decide (s = .processing) := by
  cases outcome <;> rfl

theorem failureChange_target_ne (cause : Cause) (now : Time) (a : Attempt)
    (error : String) (outcome : AttemptOutcome) :
    (failureChange cause now a error outcome).target ≠ some .processing := by
  cases outcome <;> exact fun h => nomatch h

/-- No change of a call leaves a status that a change of the call enters. -/
theorem Makes.not_leaves {settings : Settings} {call : Op × Outcome}
    {id id' : UUID} {c l : Change} {s : JobStatus}
    (hc : Makes settings call id c) (hl : Makes settings call id' l)
    (htarget : c.target = some s) : l.leaves s = false := by
  cases hc with
  | attemptFailed now a error result =>
      cases hl
      rw [failureChange_leaves]
      apply decide_eq_false
      rintro rfl
      exact failureChange_target_ne _ _ _ _ _ htarget
  | recovered now limit locked results x hx =>
      cases hl
      rw [failureChange_leaves]
      apply decide_eq_false
      rintro rfl
      exact failureChange_target_ne _ _ _ _ _ htarget
  | _ => cases hl <;> cases htarget <;> rfl

/-- The changes of one call leave the status of a row as it is, or move it
along one of them. -/
theorem RowPath.status_of_call {settings : Settings} {call : Op × Outcome}
    {id : UUID} {r s : Job} {cs : List Change}
    (h : RowPath (some r) cs (some s))
    (hcs : ∀ c ∈ cs, Makes settings call id c) :
    ((∀ c ∈ cs, c.target = none) ∧ s.status = r.status) ∨
      ∃ c ∈ cs, c.leaves r.status = true ∧ c.target = some s.status := by
  generalize hs : some s = s? at h
  induction h generalizing s with
  | nil =>
      exact Or.inl ⟨fun _ hc => (nomatch hc),
        congrArg Job.status (Option.some.inj hs)⟩
  | @snoc cs b? c? l hpath hstep ih =>
      subst hs
      cases hstep with
      | create hnew =>
          obtain ⟨_, hsome⟩ := RowPath.exists_some hpath
          cases hsome
      | @change b l henabled =>
          have hlast := hcs l (by simp)
          have hbefore := ih (fun c hc => hcs c (by simp [hc])) rfl
          rw [Change.status_apply henabled]
          cases htarget : l.target with
          | none =>
              rcases hbefore with ⟨hnone, hsame⟩ | ⟨c, hc, hleaves, hc'⟩
              · refine Or.inl ⟨fun c hc => ?_, hsame⟩
                rcases List.mem_append.mp hc with hold | hnew
                · exact hnone c hold
                · rw [List.mem_singleton.mp hnew, htarget]
              · exact Or.inr ⟨c, by simp [hc], hleaves, hc'⟩
          | some status =>
              have hleaves : l.leaves b.status = true :=
                Change.leaves_of_enabled henabled (by simp [htarget])
              rcases hbefore with ⟨-, hsame⟩ | ⟨c, hc, -, hc'⟩
              · rw [hsame] at hleaves
                exact Or.inr ⟨l, by simp, hleaves, htarget⟩
              · have hmade := hcs c (by simp [hc])
                rw [hmade.not_leaves hlast hc'] at hleaves
                cases hleaves

/-- One step leaves the status of a row as it is, or moves it along one of
its changes. -/
theorem status_step {settings : Settings} {t : Jobs} {op : Op} {id : UUID}
    {r s : Job} (hr : t.find? id = some r)
    (hs : ((service settings).step t op).1.find? id = some s) :
    ((∀ c ∈ changesFor id
        (changesOf settings (op, ((service settings).step t op).2)),
        c.target = none) ∧ s.status = r.status) ∨
      ∃ c ∈ changesFor id
        (changesOf settings (op, ((service settings).step t op).2)),
        c.leaves r.status = true ∧ c.target = some s.status := by
  have hpath := service_step_path settings t op id
  rw [hr, hs] at hpath
  exact RowPath.status_of_call hpath fun c hc =>
    makes_of_mem (mem_changesFor.mp hc)

/-! ## What stays -/

/-- The columns fixed at submission agree. -/
structure Job.SameSubmission (r s : Job) : Prop where
  id : s.id = r.id
  type : s.type = r.type
  payload : s.payload = r.payload
  priority : s.priority = r.priority
  maxAttempts : s.maxAttempts = r.maxAttempts
  createdAt : s.createdAt = r.createdAt

theorem Change.sameSubmission {r : Job} {c : Change} (hc : c.Enabled r) :
    r.SameSubmission (c.apply r) := by
  cases c with
  | created row => exact hc.elim
  | _ => exact ⟨rfl, rfl, rfl, rfl, rfl, rfl⟩

theorem Job.SameSubmission.trans {r s u : Job} (h : r.SameSubmission s)
    (h' : s.SameSubmission u) : r.SameSubmission u :=
  ⟨h'.id.trans h.id, h'.type.trans h.type, h'.payload.trans h.payload,
    h'.priority.trans h.priority, h'.maxAttempts.trans h.maxAttempts,
    h'.createdAt.trans h.createdAt⟩

/-- All columns but the two of the idempotency key agree. -/
def Job.SameButKey (r s : Job) : Prop :=
  s = { r with
    idempotencyKey := s.idempotencyKey
    idempotencyExpiresAt := s.idempotencyExpiresAt }

theorem Job.SameButKey.release {r s : Job} (h : r.SameButKey s) :
    r.SameButKey (releaseKey.set s) := by
  rw [Job.SameButKey, releaseKey, h]

/-- A job that will not move again. -/
def JobStatus.isFinal (s : JobStatus) : Bool :=
  s = .completed || s = .cancelled

/-- Losing its key is all that can happen to a finished job. -/
theorem Change.keyReleased_of_final {r : Job} {c : Change}
    (hc : c.Enabled r) (hr : r.status.isFinal = true) : c = .keyReleased := by
  have howned : ∀ a, ownedBy a r ≠ true := by
    intro a ha
    rw [(ownedBy_iff.mp ha).2.1] at hr
    cases hr
  by_cases hmoves : c.target.isSome
  · have hleaves := Change.leaves_of_enabled hc hmoves
    simp only [JobStatus.isFinal, Bool.or_eq_true, decide_eq_true_eq] at hr
    rcases hr with hr | hr
    · rw [hr] at hleaves
      cases c <;> cases hleaves
    · rw [hr] at hleaves
      cases c <;> cases hleaves
  · cases c with
    | keyReleased => rfl
    | created row => exact hc.elim
    | leaseExtended now a deadline => exact absurd hc (howned a)
    | progressed a progress => exact absurd hc (howned a)
    | _ => exact absurd rfl hmoves

/-- What a row remembers of an earlier state of it. -/
structure Job.Continues (r s : Job) : Prop where
  submission : r.SameSubmission s
  frozen : r.status.isFinal = true → r.SameButKey s

theorem Job.Continues.refl (r : Job) : r.Continues r :=
  ⟨⟨rfl, rfl, rfl, rfl, rfl, rfl⟩, fun _ => rfl⟩

/-- Whatever happens to a row, it keeps its submission, and its outcome once
it has one. -/
theorem RowPath.continues {r : Job} {cs : List Change} {s? : Option Job}
    (h : RowPath (some r) cs s?) : ∃ s, s? = some s ∧ r.Continues s := by
  refine Trail.invariant (P := fun _ s? => ∃ s, s? = some s ∧ r.Continues s)
    ⟨r, rfl, .refl r⟩ ?_ h
  rintro _ b l c ⟨s, rfl, hs⟩ hstep
  cases hstep with
  | change hl =>
      refine ⟨_, rfl, hs.submission.trans (Change.sameSubmission hl), ?_⟩
      intro hfinal
      have hsame := hs.frozen hfinal
      have hstatus : s.status.isFinal = true := by
        rw [hsame]
        exact hfinal
      rw [Change.keyReleased_of_final hl hstatus]
      exact hsame.release

/-- A row that was not there has been created on the way. -/
theorem RowPath.created {s : Job} {cs : List Change}
    (h : RowPath none cs (some s)) :
    ∃ row, Change.created row ∈ cs ∧ row.SameSubmission s := by
  refine Trail.invariant (P := fun cs s? => ∀ s, s? = some s →
    ∃ row, Change.created row ∈ cs ∧ row.SameSubmission s) ?_ ?_ h s rfl
  · intro s hs
    cases hs
  · intro cs r? c s? hr hstep s hs
    cases hstep with
    | create hnew =>
        obtain rfl := Option.some.inj hs
        exact ⟨_, by simp, (Job.Continues.refl _).submission⟩
    | @change r c hc =>
        obtain rfl := Option.some.inj hs
        obtain ⟨row, hmem, hsame⟩ := hr r rfl
        exact ⟨row, List.mem_append_left _ hmem,
          hsame.trans (Change.sameSubmission hc)⟩

theorem Makes.created_inv {settings : Settings} {call : Op × Outcome}
    {id : UUID} {row : Job} (h : Makes settings call id (.created row)) :
    ∃ op s, call = (op, .ok (.submitted s)) ∧ s.created = true ∧
      s.job = row ∧ s.job.id = id := by
  generalize hc : Change.created row = c at h
  cases h with
  | created op s hcreated =>
      exact ⟨op, s, rfl, hcreated, (Change.created.inj hc).symm, rfl⟩
  | attemptFailed now a error result =>
      cases ho : result.outcome <;> rw [ho] at hc <;> cases hc
  | recovered now limit locked results x hx =>
      cases ho : x.2.outcome <;> rw [ho] at hc <;> cases hc
  | _ => cases hc

/-! ## Which rows an operation touches -/

def Op.aim : Op → Option UUID
  | .claimJob _ jobId _ _ _ => some jobId
  | .extendLease _ a _ => some a.jobId
  | .updateProgress a _ => some a.jobId
  | .completeJob _ a _ => some a.jobId
  | .failAttempt _ a _ => some a.jobId
  | .cancelJob jobId => some jobId
  | .retryJob jobId => some jobId
  | _ => none

/-- Operations that submit jobs or release keys. -/
def Op.submits : Op → Bool
  | .createJob _ _ _ _ => true
  | .insertJob _ _ _ _ => true
  | .releaseExpiredKey _ _ => true
  | _ => false

def Reply.swept : Reply → List UUID
  | .activated rows => rows.map Job.id
  | .recovered results => results.map fun x => x.2.job.id
  | _ => []

def Reply.submits : Reply → Bool
  | .submitted _ => true
  | .released _ => true
  | _ => false

theorem submits_reply {settings : Settings} {t t' : Jobs} {op : Op}
    {reply : Reply} (h : op.execute settings t = .ok (t', reply)) :
    reply.submits = op.submits := by
  cases op <;> (obtain ⟨_, -, rfl⟩ := answer_eq_ok h; rfl)

theorem Op.submits_of_aim {op : Op} {k : UUID} (h : op.aim = some k) :
    op.submits = false := by
  cases op <;> first | rfl | cases h

/-- The changes a step makes to a row are made by its reply. -/
theorem makes_of_step {settings : Settings} {t : Jobs} {op : Op} {id : UUID}
    {c : Change} (h : c ∈ changesFor id
      (changesOf settings (op, ((service settings).step t op).2))) :
    ∃ reply, ((service settings).step t op).2 = .ok reply ∧
      reply.submits = op.submits ∧ Makes settings (op, .ok reply) id c := by
  have hmakes := makes_of_mem (mem_changesFor.mp h)
  cases hout : ((service settings).step t op).2 with
  | error e =>
      rw [hout, changesOf_error] at h
      cases h
  | ok reply =>
      rw [hout] at hmakes
      exact ⟨reply, rfl, submits_reply (execute_of_step_ok hout), hmakes⟩

theorem Makes.aim {settings : Settings} {op : Op} {reply : Reply}
    {id k : UUID} {c : Change} (h : Makes settings (op, .ok reply) id c)
    (hreply : reply.submits = op.submits) (haim : op.aim = some k) :
    id = k := by
  rw [Op.submits_of_aim haim] at hreply
  cases h with
  | keyReleased op rows id hid => cases hreply
  | keyReplaced op s id hcreated hid => cases hreply
  | created op s hcreated => cases hreply
  | activated now limit locked rows r hr => cases haim
  | activatedSelected now due rows r hr => cases haim
  | recovered now limit locked results x hx => cases haim
  | _ => exact Option.some.inj haim

theorem find?_step_eq {settings : Settings} {t : Jobs} {op : Op} {id : UUID}
    (h : ∀ c, c ∉ changesFor id
      (changesOf settings (op, ((service settings).step t op).2))) :
    ((service settings).step t op).1.find? id = t.find? id := by
  have hpath := service_step_path settings t op id
  rw [List.eq_nil_iff_forall_not_mem.mpr h] at hpath
  exact (Trail.eq_of_nil hpath).symm

/-- An operation aimed at one job leaves the others alone. -/
theorem find?_step_of_aim {settings : Settings} {t : Jobs} {op : Op}
    {id k : UUID} (haim : op.aim = some k) (hne : id ≠ k) :
    ((service settings).step t op).1.find? id = t.find? id := by
  apply find?_step_eq
  intro c hc
  obtain ⟨reply, -, hreply, hmakes⟩ := makes_of_step hc
  exact hne (hmakes.aim hreply haim)

theorem RowPath.sameButKey {r : Job} {cs : List Change} {s? : Option Job}
    (h : RowPath (some r) cs s?)
    (hcs : ∀ c ∈ cs, c = .keyReleased ∨ ∃ row, c = .created row) :
    ∃ s, s? = some s ∧ r.SameButKey s := by
  induction h with
  | nil => exact ⟨r, rfl, rfl⟩
  | @snoc cs b? c? l hpath hstep ih =>
      obtain ⟨b, rfl, hb⟩ := ih fun c hc => hcs c (by simp [hc])
      cases hstep with
      | change henabled =>
          rcases hcs l (by simp) with rfl | ⟨row, rfl⟩
          · exact ⟨_, rfl, hb.release⟩
          · exact henabled.elim

/-- A submission or a release touches nothing but the keys of the jobs that
exist. -/
theorem sameButKey_of_submits {settings : Settings} {t : Jobs} {op : Op}
    (hop : op.submits = true) {id : UUID} {r : Job}
    (hr : t.find? id = some r) :
    ∃ s, ((service settings).step t op).1.find? id = some s ∧
      r.SameButKey s := by
  have hpath := service_step_path settings t op id
  rw [hr] at hpath
  apply RowPath.sameButKey hpath
  intro c hc
  obtain ⟨reply, -, hreply, hmakes⟩ := makes_of_step hc
  rw [hop] at hreply
  cases hmakes with
  | keyReleased op rows id hid => exact Or.inl rfl
  | keyReplaced op s id hcreated hid => exact Or.inl rfl
  | created op s hcreated => exact Or.inr ⟨_, rfl⟩
  | _ => cases hreply

/-! ## Sweeps -/

def Op.sweeps : Op → Bool
  | .activateDueScheduledJobs _ _ _ => true
  | .activateSelected _ _ => true
  | .recoverExpiredLeases _ _ _ => true
  | _ => false

theorem recoverRows_id {now : Time} {jobs : List Job} {t t' : Jobs}
    {results : List (Attempt × AttemptResult)}
    (h : recoverRows now jobs t = .ok (t', results)) :
    ∀ x ∈ results, x.2.job.id = x.1.jobId := by
  induction jobs generalizing t results with
  | nil =>
      cases h
      exact fun _ hx => (nomatch hx)
  | cons job rest ih =>
      obtain ⟨a, -, hloop⟩ := bind_eq_ok.mp h
      obtain ⟨⟨t₁, result⟩, happly, hnext⟩ := bind_eq_ok.mp hloop
      obtain ⟨⟨t₂, recovered⟩, hrest, hret⟩ := bind_eq_ok.mp hnext
      rcases applyFailedAttempt_cases .recovery happly with
        ⟨rfl, rfl⟩ | ⟨r, outcome, henabled, rfl, hrw⟩
      · cases hret
        exact ih hrest
      · cases hret
        intro x hx
        rcases List.mem_cons.mp hx with rfl | hx
        · exact KeyedTable.key_of_find?_eq_some hrw.after
        · exact ih hrest x hx

/-- The rows a sweep returns are the rows it accounts for. -/
theorem mem_swept_iff {settings : Settings} {t t' : Jobs} {op : Op}
    (hop : op.sweeps = true) {reply : Reply}
    (h : op.execute settings t = .ok (t', reply)) (id : UUID) :
    id ∈ reply.swept ↔
      ∃ c, c ∈ changesFor id (changesOf settings (op, .ok reply)) := by
  simp only [mem_changesFor]
  cases op with
  | activateDueScheduledJobs now limit locked =>
      obtain ⟨rows, -, rfl⟩ := answer_eq_ok h
      simp [Reply.swept, changesOf]
  | activateSelected now due =>
      obtain ⟨rows, -, rfl⟩ := answer_eq_ok h
      simp [Reply.swept, changesOf]
  | recoverExpiredLeases now limit locked =>
      obtain ⟨results, hresults, rfl⟩ := answer_eq_ok h
      have hid : results.map (fun x => x.2.job.id) =
          results.map fun x => x.1.jobId :=
        List.map_congr_left (recoverRows_id hresults)
      rw [Reply.swept, hid]
      simp [changesOf]
  | _ => cases hop

theorem Makes.target_of_sweep {settings : Settings} {op : Op} {reply : Reply}
    {id : UUID} {c : Change} (h : Makes settings (op, .ok reply) id c)
    (hop : op.sweeps = true) (hreply : reply.submits = op.submits) :
    c.target.isSome = true := by
  have hnot : reply.submits = false := by
    rw [hreply]
    cases op <;> first | rfl | cases hop
  cases h with
  | keyReleased op rows id hid => cases hnot
  | keyReplaced op s id hcreated hid => cases hnot
  | created op s hcreated => cases hnot
  | activated now limit locked rows r hr => rfl
  | activatedSelected now due rows r hr => rfl
  | recovered now limit locked results x hx => cases x.2.outcome <;> rfl
  | _ => cases hop

theorem JobStatus.canBecome_ne {s s' : JobStatus}
    (h : s.canBecome s' = true) : s' ≠ s := by
  rintro rfl
  cases s' <;> cases h

theorem RowPath.exists_some_of_mem {r? s? : Option Job} {cs : List Change}
    {c : Change} (h : RowPath r? cs s?) (hc : c ∈ cs) : ∃ s, s? = some s := by
  cases h with
  | nil => cases hc
  | snoc _ hstep => exact hstep.some_of_right

/-- A sweep changes exactly the rows it returns. -/
theorem swept_iff_changed {settings : Settings} {t : Jobs} {op : Op}
    (hop : op.sweeps = true) (id : UUID) :
    ((service settings).step t op).1.find? id ≠ t.find? id ↔
      ∃ reply, ((service settings).step t op).2 = .ok reply ∧
        id ∈ reply.swept := by
  constructor
  · intro hne
    by_contra hnone
    apply hne
    apply find?_step_eq
    intro c hc
    obtain ⟨reply, hout, -, -⟩ := makes_of_step hc
    rw [hout] at hc
    exact hnone ⟨reply, hout,
      (mem_swept_iff hop (execute_of_step_ok hout) id).mpr ⟨c, hc⟩⟩
  · rintro ⟨reply, hout, hid⟩ hsame
    obtain ⟨c, hc⟩ := (mem_swept_iff hop (execute_of_step_ok hout) id).mp hid
    rw [← hout] at hc
    obtain ⟨reply', -, hreply, hmakes⟩ := makes_of_step hc
    have htarget := hmakes.target_of_sweep hop hreply
    cases hr : t.find? id with
    | none =>
        have hpath := service_step_path settings t op id
        obtain ⟨s, hs⟩ := RowPath.exists_some_of_mem hpath hc
        rw [hsame, hr] at hs
        cases hs
    | some r =>
        rw [hr] at hsame
        rcases status_step hr hsame with ⟨hnone, -⟩ | ⟨l, -, hleaves, hl⟩
        · rw [hnone c hc] at htarget
          cases htarget
        · exact JobStatus.canBecome_ne (Change.canBecome hleaves hl) rfl

/-! ## The law -/

/-- Only `retry_job` on the job takes it out of `FAILED`. -/
theorem retryJob_of_leaves_failed {settings : Settings} {t : Jobs} {op : Op}
    {id : UUID} {c : Change}
    (hc : c ∈ changesFor id
      (changesOf settings (op, ((service settings).step t op).2)))
    (hleaves : c.leaves .failed = true) : op = .retryJob id := by
  obtain rfl := Change.retried_of_leaves_failed hleaves
  obtain ⟨reply, -, -, hmakes⟩ := makes_of_step hc
  generalize hretried : Change.retried = c at hmakes
  cases hmakes with
  | retried jobId row => rfl
  | attemptFailed now a error result =>
      cases houtcome : result.outcome <;> rw [houtcome] at hretried <;>
        cases hretried
  | recovered now limit locked results x hx =>
      cases houtcome : x.2.outcome <;> rw [houtcome] at hretried <;>
        cases hretried
  | _ => cases hretried

/-- Along every run, from any table: a job moves only along the arrows, out
of `FAILED` only by `retry_job`; its submission never changes, and once it is
`COMPLETED` or `CANCELLED` nothing but its key does; an operation aimed at one
job changes no other, a submission or release changes only keys of existing
jobs, and a sweep changes exactly the rows it returns. -/
theorem transition_graph_and_frozen_outcomes (settings : Settings)
    (start : Jobs) (before : List Op) :
    (∀ op id r, ((service settings).run start before).find? id = some r →
      ∃ s, ((service settings).run start (before ++ [op])).find? id = some s ∧
        (s.status = r.status ∨
          r.status.canBecome s.status = true ∧
            (r.status = .failed → op = .retryJob id))) ∧
    (∀ after id r, ((service settings).run start before).find? id = some r →
      ∃ s, ((service settings).run start (before ++ after)).find? id =
          some s ∧
        r.SameSubmission s ∧
        (r.status = .completed ∨ r.status = .cancelled → r.SameButKey s)) ∧
    (∀ op k id, op.aim = some k → id ≠ k →
      ((service settings).run start (before ++ [op])).find? id =
        ((service settings).run start before).find? id) ∧
    (∀ op id r, op.submits = true →
      ((service settings).run start before).find? id = some r →
      ∃ s, ((service settings).run start (before ++ [op])).find? id = some s ∧
        r.SameButKey s) ∧
    ∀ op id, op.sweeps = true →
      (((service settings).run start (before ++ [op])).find? id ≠
          ((service settings).run start before).find? id ↔
        ∃ reply, ((service settings).step
            ((service settings).run start before) op).2 = .ok reply ∧
          id ∈ reply.swept) := by
  have hlast : ∀ op, (service settings).run start (before ++ [op]) =
      ((service settings).step ((service settings).run start before) op).1 :=
    fun op => (service settings).run_append start before [op]
  simp only [hlast, Machine.run_append]
  generalize (service settings).run start before = t
  refine ⟨fun op id r hr => ?_, fun after id r hr => ?_,
    fun op k id haim hne => find?_step_of_aim haim hne,
    fun op id r hop hr => sameButKey_of_submits hop hr,
    fun op id hop => swept_iff_changed hop id⟩
  · have hpath := service_step_path settings t op id
    rw [hr] at hpath
    obtain ⟨s, hs⟩ := RowPath.exists_some hpath
    refine ⟨s, hs, ?_⟩
    rcases status_step hr hs with ⟨-, hsame⟩ | ⟨c, hc, hleaves, htarget⟩
    · exact Or.inl hsame
    · refine Or.inr ⟨Change.canBecome hleaves htarget, fun hfailed => ?_⟩
      rw [hfailed] at hleaves
      exact retryJob_of_leaves_failed hc hleaves
  · have hpath := service_path_from settings t after id
    rw [hr] at hpath
    obtain ⟨s, hs, hcontinues⟩ := RowPath.continues hpath
    refine ⟨s, hs, hcontinues.submission, fun hfinal => ?_⟩
    apply hcontinues.frozen
    rcases hfinal with hfinal | hfinal
    · simp [JobStatus.isFinal, hfinal]
    · simp [JobStatus.isFinal, hfinal]

end JobQueue
