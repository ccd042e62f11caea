import JobQueue.Deployment.Publishing

/-!
# What becomes of a claimed attempt

A claim consumes an attempt of the job before the runner has removed the queue
entry.  The runner executes the attempt only if that removal returns: when it
raises, the exception leaves `run_once`, `run_forever` polls again, and the
attempt is lost to the lease.  Apart from this one point every claimed attempt
reaches its handler.
-/

namespace JobQueue

open Support

/-! ## Claims, executions and runners in between -/

def claimedRow : Option Event → Option Job
  | some (.database (.claimJob _ _ _ _ _) (.ok (.claimed row))) => row
  | _ => none

/-- The handler of the attempt is started, or its absence is recorded as the
failure of the attempt. -/
def executes (row : Job) : Option Event → Bool
  | some (.handlerStarted attempt) => Attempt.of row = .ok attempt
  | some (.database (.failAttempt _ attempt error) _) =>
      Attempt.of row = .ok attempt && error = missingHandlerError row.type
  | _ => false

/-- The claimed row a runner is carrying from its claim into `_execute`. -/
def Process.carrying : Process → Option Job
  | .runner r =>
      match r.point with
      | .dropping _ row => some row
      | .executing row _ => some row
      | .unhandled row _ => some row
      | _ => none
  | _ => none

/-- The runner is about to remove the entry through which it claimed. -/
def Process.isDropping : Process → Bool
  | .runner r =>
      match r.point with
      | .dropping _ _ => true
      | _ => false
  | _ => false

/-- The attempt a runner reads off the row it carries. -/
def Process.AttemptRead : Process → Prop
  | .runner r =>
      match r.point with
      | .dropping _ row => ∃ attempt, Attempt.of row = .ok attempt
      | .executing row attempt => Attempt.of row = .ok attempt
      | .unhandled row attempt => Attempt.of row = .ok attempt
      | _ => True
  | _ => True

/-! ## One turn -/

section

variable {settings : Settings} {pid : ℕ} {s : Store}

/-- What a turn does to the attempt a process carries. -/
structure Carries (p : Process) (a : Action) (o : Option Event)
    (q : Process) : Prop where
  read : q.AttemptRead
  claimed : ∀ row, claimedRow o = some row → q.carrying = some row
  carried : a ≠ .crash →
    (∀ fault, a = .redis fault → p.isDropping = true → fault = .answered) →
    ∀ row, p.carrying = some row →
      executes row o = true ∨ q.carrying = some row
  dropping : q.isDropping = true →
    (∃ row, claimedRow o = some row) ∨
      o = none ∧ p.isDropping = true ∧ q.carrying = p.carrying

theorem Carries.quiet {p q : Process} {a : Action} (hq : q.AttemptRead)
    (hcarrying : q.carrying = p.carrying)
    (hdropping : q.isDropping = p.isDropping) : Carries p a none q := by
  refine ⟨hq, fun _ h => absurd h (Option.some_ne_none _).symm,
    fun _ _ row hrow => Or.inr ?_, fun h => Or.inr ⟨rfl, ?_, hcarrying⟩⟩
  · rw [hcarrying, hrow]
  · rw [← hdropping, h]

/-- A turn that claims nothing, away from the removal of an entry. -/
theorem Carries.onward {p q : Process} {a : Action} {o : Option Event}
    (hq : q.AttemptRead ∧ q.isDropping = false) (hclaim : claimedRow o = none)
    (hcarried : a ≠ .crash →
      (∀ fault, a = .redis fault → p.isDropping = true → fault = .answered) →
      ∀ row, p.carrying = some row →
        executes row o = true ∨ q.carrying = some row) :
    Carries p a o q where
  read := hq.1
  claimed row h := absurd (hclaim.symm.trans h) (Option.some_ne_none row).symm
  carried := hcarried
  dropping h := absurd (hq.2.symm.trans h) Bool.false_ne_true

theorem Carries.idle {p q : Process} {a : Action} {o : Option Event}
    (hq : q.AttemptRead ∧ q.isDropping = false) (hclaim : claimedRow o = none)
    (hp : p.carrying = none) : Carries p a o q := by
  refine .onward hq hclaim fun _ _ row hrow => ?_
  rw [hp] at hrow
  exact absurd hrow (Option.some_ne_none row).symm

theorem carries_claim {now : Time} {jobId : UUID} {workerId : String}
    {token : UUID} {leaseSeconds : Option Duration} {r : Runner} {left : ℕ}
    {c : QueueCandidate} {p : Process} {a : Action}
    (hp : p.carrying = none) :
    (Instruction.database
        (.claimJob now jobId workerId token leaseSeconds) fun
          | .ok (.claimed none) => r.at (.inspecting left c)
          | .ok (.claimed (some row)) => r.at (.dropping c row)
          | _ => r.raise).Ensures settings pid s
      fun _ o q => Carries p a o q := by
  simp only [Instruction.Ensures, Store.perform]
  generalize hreply : ((service settings).step s.jobs
    (.claimJob now jobId workerId token leaseSeconds)).2 = outcome
  cases outcome with
  | error e => exact Carries.idle ⟨trivial, rfl⟩ rfl hp
  | ok reply =>
      obtain ⟨row?, hrow, rfl⟩ := answer_eq_ok (execute_of_step_ok hreply)
      rcases claimJob_cases hrow with ⟨rfl, -⟩ | ⟨r', -, rfl, -⟩
      · exact Carries.idle ⟨trivial, rfl⟩ rfl hp
      · refine ⟨⟨_, rfl⟩, fun row hsame => hsame, ?_,
          fun _ => Or.inl ⟨_, rfl⟩⟩
        intro _ _ row hrow
        rw [hp] at hrow
        exact absurd hrow (Option.some_ne_none row).symm

theorem Runner.carrying_of_point {r : Runner} {point : RunnerPoint}
    (h : r.point = point) :
    (Process.runner r).carrying = (r.at point).carrying := by
  subst h
  rfl

/-- Turns of a runner between the execution of one attempt and the claim of
the next. -/
theorem Runner.carries_none {r : Runner} (hr : (Process.runner r).AttemptRead)
    (hnone : (Process.runner r).carrying = none) (a : Action) :
    (r.next s.jobs a).Ensures settings pid s
      fun _ o q => Carries (.runner r) a o q := by
  unfold Runner.next
  split
  · exact Carries.quiet hr rfl rfl
  · exact Carries.onward ⟨trivial, rfl⟩ rfl fun hcrash => absurd rfl hcrash
  · split
    · split <;> exact Carries.idle ⟨trivial, rfl⟩ rfl hnone
    · exact Carries.idle ⟨trivial, rfl⟩ rfl hnone
    · split <;> exact Carries.idle ⟨trivial, rfl⟩ rfl hnone
    · refine Carries.idle ?_ rfl hnone
      simp only [Store.perform]
      split <;> exact ⟨trivial, rfl⟩
    · split <;> exact Carries.idle ⟨trivial, rfl⟩ rfl hnone
    · exact carries_claim hnone
    · split <;> exact Carries.idle ⟨trivial, rfl⟩ rfl hnone
    · refine Carries.idle ?_ rfl hnone
      simp only [Store.perform]
      split <;> exact ⟨trivial, rfl⟩
    · next hpoint _ _ =>
        rw [Runner.carrying_of_point hpoint] at hnone
        cases hnone
    · next hpoint _ _ =>
        rw [Runner.carrying_of_point hpoint] at hnone
        cases hnone
    · next hpoint _ _ =>
        rw [Runner.carrying_of_point hpoint] at hnone
        cases hnone
    · refine Carries.idle ?_ rfl hnone
      simp only [Store.perform]
      split <;> exact ⟨trivial, rfl⟩
    · refine Carries.idle ?_ rfl hnone
      simp only [Store.perform]
      split <;> exact ⟨trivial, rfl⟩
    · exact Carries.idle ⟨trivial, rfl⟩ rfl hnone
    · exact Carries.idle ⟨trivial, rfl⟩ rfl hnone
    · exact Carries.idle ⟨trivial, rfl⟩ rfl hnone
    · exact Carries.quiet hr rfl rfl

/-- Only a removal that raises loses the attempt. -/
theorem Runner.carries_dropping {r : Runner} {c : QueueCandidate} {row : Job}
    (hr : (Process.runner r).AttemptRead) (hpoint : r.point = .dropping c row)
    (a : Action) :
    (r.next s.jobs a).Ensures settings pid s
      fun _ o q => Carries (.runner r) a o q := by
  have hdropping : (Process.runner r).isDropping = true := by
    simp [Process.isDropping, hpoint]
  cases a with
  | stop => exact Carries.quiet hr rfl rfl
  | crash =>
      exact Carries.onward ⟨trivial, rfl⟩ rfl fun hcrash => absurd rfl hcrash
  | redis fault =>
      unfold Runner.next
      simp only [hpoint]
      simp only [Process.AttemptRead, hpoint] at hr
      obtain ⟨attempt, hattempt⟩ := hr
      cases fault with
      | answered =>
          simp only [Instruction.Ensures, Store.perform, Store.send, hattempt]
          refine Carries.onward ⟨hattempt, rfl⟩ rfl fun _ _ row' hrow => ?_
          rw [Runner.carrying_of_point hpoint] at hrow
          exact Or.inr hrow
      | lostRequest =>
          refine Carries.onward ⟨trivial, rfl⟩ rfl fun _ hdrop => ?_
          cases hdrop .lostRequest rfl hdropping
      | lostReply =>
          refine Carries.onward ⟨trivial, rfl⟩ rfl fun _ hdrop => ?_
          cases hdrop .lostReply rfl hdropping
  | _ =>
      unfold Runner.next
      simp only [hpoint]
      exact Carries.quiet hr rfl rfl

theorem Runner.carries_executing {r : Runner} {row : Job} {attempt : Attempt}
    (hr : (Process.runner r).AttemptRead)
    (hpoint : r.point = .executing row attempt) (a : Action) :
    (r.next s.jobs a).Ensures settings pid s
      fun _ o q => Carries (.runner r) a o q := by
  have hread : Attempt.of row = .ok attempt := by
    simpa only [Process.AttemptRead, hpoint] using hr
  cases a with
  | stop => exact Carries.quiet hr rfl rfl
  | crash =>
      exact Carries.onward ⟨trivial, rfl⟩ rfl fun hcrash => absurd rfl hcrash
  | go =>
      unfold Runner.next
      simp only [hpoint]
      split
      · refine Carries.onward ⟨trivial, rfl⟩ rfl fun _ _ row' hrow => ?_
        rw [Runner.carrying_of_point hpoint] at hrow
        obtain rfl := Option.some.inj hrow
        exact Or.inl (decide_eq_true hread)
      · refine Carries.onward ⟨hread, rfl⟩ rfl fun _ _ row' hrow => ?_
        rw [Runner.carrying_of_point hpoint] at hrow
        exact Or.inr hrow
  | _ =>
      unfold Runner.next
      simp only [hpoint]
      exact Carries.quiet hr rfl rfl

theorem Runner.carries_unhandled {r : Runner} {row : Job} {attempt : Attempt}
    (hr : (Process.runner r).AttemptRead)
    (hpoint : r.point = .unhandled row attempt) (a : Action) :
    (r.next s.jobs a).Ensures settings pid s
      fun _ o q => Carries (.runner r) a o q := by
  have hread : Attempt.of row = .ok attempt := by
    simpa only [Process.AttemptRead, hpoint] using hr
  cases a with
  | stop => exact Carries.quiet hr rfl rfl
  | crash =>
      exact Carries.onward ⟨trivial, rfl⟩ rfl fun hcrash => absurd rfl hcrash
  | fail now error =>
      unfold Runner.next
      simp only [hpoint]
      refine Carries.onward ⟨trivial, rfl⟩ rfl fun _ _ row' hrow => ?_
      rw [Runner.carrying_of_point hpoint] at hrow
      obtain rfl := Option.some.inj hrow
      simp [Store.perform, executes, hread]
  | _ =>
      unfold Runner.next
      simp only [hpoint]
      exact Carries.quiet hr rfl rfl

theorem Runner.carries {r : Runner} (hr : (Process.runner r).AttemptRead)
    (a : Action) :
    (r.next s.jobs a).Ensures settings pid s
      fun _ o q => Carries (.runner r) a o q := by
  cases hpoint : r.point with
  | dropping c row => exact Runner.carries_dropping hr hpoint a
  | executing row attempt => exact Runner.carries_executing hr hpoint a
  | unhandled row attempt => exact Runner.carries_unhandled hr hpoint a
  | _ => exact Runner.carries_none hr (Runner.carrying_of_point hpoint) a

theorem Process.carries {p : Process} (hp : p.AttemptRead) (a : Action) :
    (p.next pid s a).Ensures settings pid s fun _ o q => Carries p a o q := by
  unfold Process.next
  split
  · next call =>
      refine Carries.idle ?_ rfl rfl
      cases call with
      | submitJob request key =>
          by_cases hkey : truthyKey key = true
          · simp [Store.perform, Process.ofCall, hkey, Process.AttemptRead,
              Process.isDropping]
          · simp [Store.perform, Process.ofCall, hkey, Process.AttemptRead,
              Process.isDropping]
      | _ => exact ⟨trivial, rfl⟩
  · split <;> exact Carries.idle ⟨trivial, rfl⟩ rfl rfl
  · refine Carries.idle ?_ rfl rfl
    simp only [Store.perform]
    cases publications _ <;> exact ⟨trivial, rfl⟩
  · next row rest fault =>
      refine Carries.idle ?_ rfl rfl
      cases rest <;> exact ⟨trivial, rfl⟩
  · refine Carries.idle ?_ rfl rfl
    simp only [Store.perform]
    split
    · split <;> exact ⟨trivial, rfl⟩
    · exact ⟨trivial, rfl⟩
  · refine Carries.idle ?_ rfl rfl
    simp only [Store.perform]
    split
    · split <;> exact ⟨trivial, rfl⟩
    · exact ⟨trivial, rfl⟩
  · exact Carries.idle ⟨trivial, rfl⟩ rfl rfl
  · refine Carries.idle ?_ rfl rfl
    simp only [Store.perform]
    cases publications _ <;> exact ⟨trivial, rfl⟩
  · exact Carries.idle ⟨trivial, rfl⟩ rfl rfl
  · refine Carries.idle ?_ rfl rfl
    simp only [Store.perform]
    cases publications _ <;> exact ⟨trivial, rfl⟩
  · exact Carries.idle ⟨trivial, rfl⟩ rfl rfl
  · exact Runner.carries hp _
  · exact Carries.idle ⟨trivial, rfl⟩ rfl rfl
  · exact Carries.idle ⟨trivial, rfl⟩ rfl rfl
  · next hrunner _ _ =>
      refine Carries.idle ⟨trivial, rfl⟩ rfl ?_
      cases p with
      | runner r => exact (hrunner r rfl).elim
      | _ => rfl
  · exact Carries.quiet hp rfl rfl

end

/-! ## Runs -/

/-- Every successful claim of the run is followed by the execution of the
attempt by the same process, or the process is carrying it there. -/
def AttemptsCarried (settings : Settings) (actions : List (ℕ × Action)) :
    Prop :=
  ∀ (n pid : ℕ) a o row,
    (historyAfter settings actions)[n]? = some ((pid, a), o) →
    claimedRow o = some row →
    (∃ (m : ℕ) (a' : Action) (o' : Option Event), n < m ∧
      (historyAfter settings actions)[m]? = some ((pid, a'), o') ∧
      executes row o' = true) ∨
    ((after settings actions).process pid).carrying = some row

/-- Every `FAILED` job had an attempt executed, or a process is carrying one
of its attempts there. -/
def FailedWereExecuted (settings : Settings)
    (actions : List (ℕ × Action)) : Prop :=
  ∀ row ∈ (after settings actions).shared.jobs.rows, row.status = .failed →
    (∃ x ∈ historyAfter settings actions, ∃ claimed : Job,
      claimed.id = row.id ∧ executes claimed x.2 = true) ∨
    ∃ pid claimed, ((after settings actions).process pid).carrying =
      some claimed ∧ claimed.id = row.id

/-- No removal that a runner makes right after a successful claim raises. -/
def DropsAnswered (settings : Settings) (actions : List (ℕ × Action)) :
    Prop :=
  ∀ (n pid : ℕ) fault, actions[n]? = some (pid, .redis fault) →
    ((after settings (actions.take n)).process pid).isDropping = true →
    fault = .answered

theorem attemptRead_after (settings : Settings)
    (actions : List (ℕ × Action)) (pid : ℕ) :
    ((after settings actions).process pid).AttemptRead :=
  (deployment_invariant _ (G := fun _ _ => True)
    (L := fun _ _ _ p => p.AttemptRead) trivial (fun _ => trivial)
    (fun _ _ _ _ a _ _ hp => ⟨trivial, (Process.carries hp a).read⟩)
    (fun _ _ _ _ _ _ _ _ _ _ _ hq => hq) actions).2.2 pid

/-- The turn of the acting process, in a run. -/
theorem carries_concat (settings : Settings) (actions : List (ℕ × Action))
    (pid : ℕ) (a : Action) :
    Carries ((after settings actions).process pid) a
      (nextEvent settings actions (pid, a))
      ((after settings (actions ++ [(pid, a)])).process pid) := by
  rw [process_after_concat]
  exact Process.carries (attemptRead_after settings actions pid) a

theorem DropsAnswered.init {settings : Settings}
    {actions later : List (ℕ × Action)}
    (h : DropsAnswered settings (actions ++ later)) :
    DropsAnswered settings actions := by
  intro n pid fault hn
  have hlt := (List.getElem?_eq_some_iff.mp hn).1
  have hsame := h n pid fault (by rw [List.getElem?_append_left hlt, hn])
  rwa [List.take_append_of_le_length hlt.le] at hsame

theorem AttemptsCarried.concat {settings : Settings}
    {actions : List (ℕ × Action)} (h : AttemptsCarried settings actions)
    {pid : ℕ} {a : Action} (hcrash : a ≠ .crash)
    (hdrop : DropsAnswered settings (actions ++ [(pid, a)])) :
    AttemptsCarried settings (actions ++ [(pid, a)]) := by
  have hturn := carries_concat settings actions pid a
  intro n who b o row hn hclaim
  rcases getElem?_historyAfter_concat.mp hn with hold | ⟨rfl, hnew⟩
  · rcases h n who b o row hold hclaim with
      ⟨m, a', o', hnm, hm, hexecutes⟩ | hcarrying
    · exact Or.inl ⟨m, a', o', hnm,
        getElem?_historyAfter_concat.mpr (Or.inl hm), hexecutes⟩
    · by_cases hwho : who = pid
      · subst hwho
        have hfault : ∀ fault, a = .redis fault →
            ((after settings actions).process who).isDropping = true →
            fault = .answered := by
          rintro fault rfl hdropping
          exact hdrop actions.length who fault (by simp)
            (by rwa [List.take_left])
        rcases hturn.carried hcrash hfault row hcarrying with
          hexecutes | hnext
        · have hlt := (List.getElem?_eq_some_iff.mp hold).1
          rw [length_historyAfter] at hlt
          exact Or.inl ⟨actions.length, a, _, hlt,
            getElem?_historyAfter_concat.mpr (Or.inr ⟨rfl, rfl⟩), hexecutes⟩
        · exact Or.inr hnext
      · rw [process_after_other settings actions hwho]
        exact Or.inr hcarrying
  · obtain ⟨hwho, rfl⟩ := Prod.mk.inj hnew
    obtain ⟨rfl, rfl⟩ := Prod.mk.inj hwho
    exact Or.inr (hturn.claimed row hclaim)

theorem attemptsCarried_of_dropsAnswered (settings : Settings)
    {actions : List (ℕ × Action)}
    (hcrash : ∀ pid, (pid, Action.crash) ∉ actions)
    (hdrop : DropsAnswered settings actions) :
    AttemptsCarried settings actions := by
  induction actions using List.reverseRecOn with
  | nil =>
      intro n pid a o row hn
      cases hn
  | append_singleton actions x ih =>
      obtain ⟨pid, a⟩ := x
      refine (ih (fun pid hmem => hcrash pid (by simp [hmem]))
        hdrop.init).concat ?_ hdrop
      rintro rfl
      exact hcrash pid (by simp)

/-! ## A removal that raises -/

/-- The claim behind a pending removal, after which the process did nothing
that can be observed. -/
def DroppingSince (h : History) (pid : ℕ) (p : Process) : Prop :=
  ∃ (k : ℕ) (a : Action) (o : Option Event) (row : Job),
    h[k]? = some ((pid, a), o) ∧ claimedRow o = some row ∧
    p.carrying = some row ∧
    ∀ (m : ℕ) (a' : Action) (o' : Option Event), k < m →
      h[m]? = some ((pid, a'), o') → o' = none

theorem droppingSince_after (settings : Settings)
    (actions : List (ℕ × Action)) (pid : ℕ)
    (h : ((after settings actions).process pid).isDropping = true) :
    DroppingSince (historyAfter settings actions) pid
      ((after settings actions).process pid) := by
  induction actions using List.reverseRecOn with
  | nil => cases h
  | append_singleton actions x ih =>
      obtain ⟨who, a⟩ := x
      have hkeep : ∀ {k : ℕ} {y : (ℕ × Action) × Option Event},
          (historyAfter settings actions)[k]? = some y →
          (historyAfter settings (actions ++ [(who, a)]))[k]? = some y :=
        fun hk => getElem?_historyAfter_concat.mpr (Or.inl hk)
      by_cases hwho : pid = who
      · subst hwho
        have hturn := carries_concat settings actions pid a
        rcases hturn.dropping h with ⟨row, hrow⟩ | ⟨hnone, hbefore, hsame⟩
        · refine ⟨actions.length, a, _, row,
            getElem?_historyAfter_concat.mpr (Or.inr ⟨rfl, rfl⟩), hrow,
            hturn.claimed row hrow, ?_⟩
          intro m a' o' hlt hm
          have hbound := (List.getElem?_eq_some_iff.mp hm).1
          rw [length_historyAfter, List.length_append,
            List.length_singleton] at hbound
          omega
        · obtain ⟨k, b, o, row, hk, hclaim, hcarrying, hquiet⟩ := ih hbefore
          refine ⟨k, b, o, row, hkeep hk, hclaim, hsame.trans hcarrying, ?_⟩
          intro m a' o' hlt hm
          rcases getElem?_historyAfter_concat.mp hm with hm | ⟨-, hy⟩
          · exact hquiet m a' o' hlt hm
          · rw [(Prod.mk.inj hy).2, hnone]
      · rw [process_after_other settings actions hwho] at h ⊢
        obtain ⟨k, b, o, row, hk, hclaim, hcarrying, hquiet⟩ := ih h
        refine ⟨k, b, o, row, hkeep hk, hclaim, hcarrying, ?_⟩
        intro m a' o' hlt hm
        rcases getElem?_historyAfter_concat.mp hm with hm | ⟨-, hy⟩
        · exact hquiet m a' o' hlt hm
        · exact absurd (Prod.mk.inj (Prod.mk.inj hy).1).1 hwho

/-- A removal that raises leaves the runner with nothing in hand. -/
theorem dropping_raises (settings : Settings) (pid : ℕ) (s : Store)
    {p : Process} (hp : p.isDropping = true) {fault : Fault}
    (hfault : fault ≠ .answered) :
    ((deployment settings).act pid s p (.redis fault)).2.1.carrying = none ∧
      ∀ row, executes row
        ((deployment settings).act pid s p (.redis fault)).2.2 = false := by
  cases p with
  | runner r =>
      obtain ⟨workerId, leaseSeconds, stop, point⟩ := r
      cases point with
      | dropping c row =>
          cases fault with
          | answered => exact absurd rfl hfault
          | lostRequest => exact ⟨rfl, fun _ => rfl⟩
          | lostReply => exact ⟨rfl, fun _ => rfl⟩
      | _ => cases hp
  | _ => cases hp

theorem not_attemptsCarried_of_raise (settings : Settings)
    {actions : List (ℕ × Action)} {pid : ℕ} {fault : Fault}
    (hdropping : ((after settings actions).process pid).isDropping = true)
    (hfault : fault ≠ .answered) :
    ¬ AttemptsCarried settings (actions ++ [(pid, .redis fault)]) := by
  intro hcarried
  obtain ⟨k, a, o, row, hk, hclaim, -, hquiet⟩ :=
    droppingSince_after settings actions pid hdropping
  obtain ⟨hnothing, hnoexec⟩ := dropping_raises settings pid
    (after settings actions).shared hdropping hfault
  have hk' : (historyAfter settings (actions ++ [(pid, .redis fault)]))[k]? =
      some ((pid, a), o) := getElem?_historyAfter_concat.mpr (Or.inl hk)
  rcases hcarried k pid a o row hk' hclaim with
    ⟨m, a', o', hkm, hm, hexecutes⟩ | hcarrying
  · rcases getElem?_historyAfter_concat.mp hm with hm | ⟨-, hnew⟩
    · rw [hquiet m a' o' hkm hm] at hexecutes
      cases hexecutes
    · rw [(Prod.mk.inj hnew).2] at hexecutes
      exact Bool.false_ne_true ((hnoexec row).symm.trans hexecutes)
  · rw [process_after_concat, hnothing] at hcarrying
    cases hcarrying

theorem dropsAnswered_of_attemptsCarried (settings : Settings)
    {actions : List (ℕ × Action)}
    (h : ∀ n, AttemptsCarried settings (actions.take n)) :
    DropsAnswered settings actions := by
  intro n pid fault hn hdropping
  by_contra hfault
  apply not_attemptsCarried_of_raise settings hdropping hfault
  have htake : actions.take (n + 1) =
      actions.take n ++ [(pid, .redis fault)] := by
    rw [List.take_add_one, hn]
    rfl
  rw [← htake]
  exact h (n + 1)

/-! ## Permanent failure -/

theorem exists_claim_of_failed {settings : Settings} {ops : List Op}
    {row : Job} (hrow : row ∈ (tableAfter settings ops).rows)
    (hfailed : row.status = .failed) :
    ∃ now workerId token leaseSeconds claimed,
      (Op.claimJob now row.id workerId token leaseSeconds,
        Except.ok (Reply.claimed (some claimed))) ∈
          callsOf settings ops := by
  have hfind := KeyedTable.find?_of_mem hrow
  have hcounters := (tableAfter_wellformed settings ops row.id row
    hfind).counters
  have hcount := (accounted_after settings ops row.id).count
  rw [hfind] at hcount
  have hattempts : row.attemptCount =
      claims row.id (currentCycle row.id (callsOf settings ops)) := hcount
  have hthree := hcounters.exhausted hfailed
  have hmax := hcounters.maxAttempts
  have hpos : 0 < claims row.id
      (currentCycle row.id (callsOf settings ops)) := by omega
  obtain ⟨call, hcall, hne⟩ : ∃ call ∈
      currentCycle row.id (callsOf settings ops), claimsBy row.id call ≠ 0 := by
    by_contra hnone
    push Not at hnone
    have hzero : claims row.id
        (currentCycle row.id (callsOf settings ops)) = 0 := by
      rw [claims, List.sum_eq_zero_iff]
      intro n hn
      obtain ⟨call, hcall, rfl⟩ := List.mem_map.mp hn
      exact hnone call hcall
    omega
  have hmem := (List.rtakeWhile_suffix _ _).subset hcall
  unfold claimsBy at hne
  split at hne
  · next now jobId workerId token leaseSeconds claimed =>
      by_cases hid : jobId = row.id
      · subst hid
        exact ⟨now, workerId, token, leaseSeconds, claimed, hmem⟩
      · rw [if_neg hid] at hne
        exact absurd rfl hne
  · exact absurd rfl hne

theorem claimed_id (settings : Settings) (actions : List (ℕ × Action)) :
    ∀ x ∈ historyAfter settings actions, ∀ now jobId workerId token
      leaseSeconds row, x.2 = some (.database
        (.claimJob now jobId workerId token leaseSeconds)
        (.ok (.claimed (some row)))) → row.id = jobId := by
  refine (deployment_invariant settings
    (G := fun h _ => ∀ x ∈ h, ∀ now jobId workerId token leaseSeconds row,
      x.2 = some (.database
        (.claimJob now jobId workerId token leaseSeconds)
        (.ok (.claimed (some row)))) → row.id = jobId)
    (L := fun _ _ _ _ => True) (fun _ h => absurd h List.not_mem_nil)
    (fun _ => trivial) ?_
    (fun _ _ _ _ _ _ _ _ _ _ _ _ => trivial) actions).2.1
  intro h s pid p a _ hids _
  refine ⟨fun x hx now jobId workerId token leaseSeconds row hevent => ?_,
    trivial⟩
  rcases List.mem_append.mp hx with hold | hnew
  · exact hids x hold now jobId workerId token leaseSeconds row hevent
  · rw [List.mem_singleton.mp hnew] at hevent
    have houtcome := perform_outcome hevent
    obtain ⟨row?, hclaim, hsame⟩ :=
      answer_eq_ok (execute_of_step_ok houtcome.symm)
    obtain rfl := Reply.claimed.inj hsame
    rcases claimJob_cases hclaim with ⟨hnone, -⟩ | ⟨r, -, hrow, hrw⟩
    · cases hnone
    · obtain rfl := Option.some.inj hrow
      exact KeyedTable.key_of_find?_eq_some hrw.after

theorem failedWereExecuted_of_attemptsCarried {settings : Settings}
    {actions : List (ℕ × Action)} (h : AttemptsCarried settings actions) :
    FailedWereExecuted settings actions := by
  intro row hrow hfailed
  have hproject := projects_after settings actions
  rw [hproject.jobs] at hrow
  obtain ⟨now, workerId, token, leaseSeconds, claimed, hcall⟩ :=
    exists_claim_of_failed hrow hfailed
  rw [hproject.calls] at hcall
  obtain ⟨x, hx, hcallOf⟩ := List.mem_filterMap.mp hcall
  have hevent := eq_some_of_callOf hcallOf
  have hid := claimed_id settings actions x hx _ _ _ _ _ _ hevent
  obtain ⟨n, hn⟩ := List.mem_iff_getElem?.mp hx
  have hclaim : claimedRow x.2 = some claimed := by rw [hevent]; rfl
  rcases h n x.1.1 x.1.2 x.2 claimed hn hclaim with
    ⟨m, a', o', -, hm, hexecutes⟩ | hcarrying
  · exact Or.inl ⟨_, List.mem_of_getElem? hm, claimed, hid, hexecutes⟩
  · exact Or.inr ⟨x.1.1, claimed, hcarrying, hid⟩

/-- Redis errors and attempts, for every run without crashes, with any number
of runners, API calls, scheduler and recovery cycles, in which any Redis call
may raise.  In every state of the run every claimed attempt has been executed
or is on its way, precisely if no removal that a runner makes right after a
successful claim raises; and then no job becomes `FAILED` unless one of its
attempts was executed or is on its way. -/
theorem attempts_survive_redis_errors (settings : Settings)
    (actions : List (ℕ × Action))
    (hcrash : ∀ pid, (pid, Action.crash) ∉ actions) :
    ((∀ n, AttemptsCarried settings (actions.take n)) ↔
      DropsAnswered settings actions) ∧
    (DropsAnswered settings actions →
      ∀ n, FailedWereExecuted settings (actions.take n)) := by
  have hcarried : DropsAnswered settings actions →
      ∀ n, AttemptsCarried settings (actions.take n) := by
    intro hdrop n
    rw [← List.take_append_drop n actions] at hdrop
    exact attemptsCarried_of_dropsAnswered settings
      (fun pid hmem => hcrash pid (List.mem_of_mem_take hmem)) hdrop.init
  exact ⟨⟨dropsAnswered_of_attemptsCarried settings, hcarried⟩,
    fun hdrop n => failedWereExecuted_of_attemptsCarried (hcarried hdrop n)⟩

/-- A run in which the removal after the claim is answered. -/
def answeredRun : List (ℕ × Action) :=
  [(0, .start (.submitJob sampleRequest none)),
   (0, .insert (SubmitClock.at 0) 1), (0, .redis .answered),
   (1, .start (.runForever "worker" (seconds 60))), (1, .go), (1, .go),
   (1, .redis .answered), (1, .go), (1, .claim 0 71), (1, .redis .answered),
   (1, .go)]

/-- The handler of the claimed attempt starts. -/
theorem attempts_survive_redis_errors_answered :
    DropsAnswered sampleSettings answeredRun ∧
      ∀ n, AttemptsCarried sampleSettings (answeredRun.take n) := by
  have hdrops : DropsAnswered sampleSettings answeredRun := by
    intro n pid fault hn _
    have hmem := List.mem_of_getElem? hn
    have hcases : (pid = 0 ∧ fault = .answered) ∨
        (pid = 1 ∧ fault = .answered) := by simpa [answeredRun] using hmem
    rcases hcases with ⟨-, hfault⟩ | ⟨-, hfault⟩
    · exact hfault
    · exact hfault
  refine ⟨hdrops, (attempts_survive_redis_errors sampleSettings answeredRun
    ?_).1.mpr hdrops⟩
  intro pid
  simp [answeredRun]

/-! ## Losing every attempt -/

/-- A runner polls, claims the job at the front, and then fails to reach
Redis. -/
def lostClaim (now : Time) (token : UUID) : List (ℕ × Action) :=
  [(1, .go), (1, .go), (1, .redis .answered), (1, .go), (1, .claim now token),
   (1, .redis .lostRequest)]

/-- A recovery cycle that finds no locked rows. -/
def recoverAt (pid : ℕ) (now : Time) : List (ℕ × Action) :=
  [(pid, .start (.recoveryCycle 10)), (pid, .write now [])]

/-- A scheduler cycle that publishes the one job it activates. -/
def scheduleAt (pid : ℕ) (now : Time) : List (ℕ × Action) :=
  [(pid, .start (.schedulerCycle 10)), (pid, .read now), (pid, .write now []),
   (pid, .redis .answered)]

/-- One job, one runner, and a Redis error after each of its claims. -/
def lostAttempts : List (ℕ × Action) :=
  [(0, .start (.submitJob sampleRequest none)),
   (0, .insert (SubmitClock.at 0) 1), (0, .redis .answered),
   (1, .start (.runForever "worker" (seconds 60)))] ++
  lostClaim 0 71 ++ recoverAt 2 (seconds 61) ++ scheduleAt 3 (seconds 100) ++
  lostClaim (seconds 100) 72 ++ recoverAt 4 (seconds 200) ++
  scheduleAt 5 (seconds 400) ++ lostClaim (seconds 400) 73 ++
  recoverAt 6 (seconds 500)

/-- The kinds of events that execute an attempt. -/
def isExecution : Option Event → Bool
  | some (.handlerStarted _) => true
  | some (.database (.failAttempt _ _ _) _) => true
  | _ => false

theorem isExecution_of_executes {row : Job} {o : Option Event}
    (h : executes row o = true) : isExecution o = true := by
  unfold executes at h
  split at h
  · rfl
  · rfl
  · cases h

/-- Redis errors alone drive the job to `FAILED`: every attempt is consumed,
no handler is ever started, and nobody is on the way to start one. -/
theorem redis_errors_cost_every_attempt :
    (∀ pid, (pid, Action.crash) ∉ lostAttempts) ∧
      ¬ AttemptsCarried sampleSettings lostAttempts ∧
      ¬ FailedWereExecuted sampleSettings lostAttempts := by
  have hquiet : ∀ x ∈ historyAfter sampleSettings lostAttempts,
      isExecution x.2 = false := by decide +kernel
  have hnone : ∀ pid,
      ((after sampleSettings lostAttempts).process pid).carrying = none := by
    intro pid
    by_cases hpid : pid ∈ lostAttempts.map Prod.fst
    · have hall : ∀ n ∈ lostAttempts.map Prod.fst,
          ((after sampleSettings lostAttempts).process n).carrying =
            none := by decide +kernel
      exact hall pid hpid
    · rw [process_of_notMem sampleSettings hpid]
      rfl
  refine ⟨?_, ?_, ?_⟩
  · intro pid
    simp [lostAttempts, lostClaim, recoverAt, scheduleAt]
  · intro hcarried
    have hclaim : ∃ x ∈ historyAfter sampleSettings lostAttempts,
        (claimedRow x.2).isSome = true := by decide +kernel
    obtain ⟨x, hx, hsome⟩ := hclaim
    obtain ⟨row, hrow⟩ := Option.isSome_iff_exists.mp hsome
    obtain ⟨n, hn⟩ := List.mem_iff_getElem?.mp hx
    rcases hcarried n x.1.1 x.1.2 x.2 row hn hrow with
      ⟨m, a, o, -, hm, hexecutes⟩ | hcarrying
    · have hexec := isExecution_of_executes hexecutes
      have hnot := hquiet _ (List.mem_of_getElem? hm)
      exact Bool.false_ne_true (hnot.symm.trans hexec)
    · rw [hnone] at hcarrying
      cases hcarrying
  · intro hexecuted
    have hfailed : ∃ row ∈ (after sampleSettings lostAttempts).shared.jobs.rows,
        row.status = .failed := by decide +kernel
    obtain ⟨row, hrow, hstatus⟩ := hfailed
    rcases hexecuted row hrow hstatus with
      ⟨x, hx, claimed, -, hexecutes⟩ | ⟨pid, claimed, hcarrying, -⟩
    · have hexec := isExecution_of_executes hexecutes
      exact Bool.false_ne_true ((hquiet x hx).symm.trans hexec)
    · rw [hnone] at hcarrying
      cases hcarrying

end JobQueue
