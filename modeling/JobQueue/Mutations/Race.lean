import JobQueue.Mutations.Calls
import JobQueue.Lifecycle.Refinement

/-!
# Claims against cancellations

Any number of `claim_job` and `cancel_job` calls compete for one claimable
job.  The first `UPDATE` to commit decides the race; every later statement of
every other call, on whichever side of a cancellation's two steps it falls,
only finds out how it was decided.
-/

namespace JobQueue

open Support

/-- Calls about to compete for one job: the processes below `claims` claim
it, the next `cancels` ones cancel it.  The row is claimable and passes the
check constraints of its table. -/
structure ClaimRace where
  jobId : UUID
  row : Job
  claims : ℕ
  cancels : ℕ
  worker : ℕ → String
  lease : ℕ → Option Duration
  claimable : row.isClaimable = true
  checked : row.violatedCheck = none

inductive RaceOutcome
  | undecided
  | claimed (winner : ℕ) (row : Job)
  | cancelled

namespace ClaimRace

variable (race : ClaimRace)

def start (s : Store) : Configuration Store MutationCall where
  shared := s
  process i :=
    if i < race.claims then
      .claiming race.jobId (race.worker i) (race.lease i)
    else if i < race.claims + race.cancels then .cancelling race.jobId
    else .idle

/-- The action is not a further operation on the job: no other call on it
begins, and an operation of the rest of the system leaves its row alone. -/
def Elsewhere (settings : Settings) (t : Jobs) : MutationAction → Prop
  | .startClaim jobId _ _ => jobId ≠ race.jobId
  | .startCancel jobId => jobId ≠ race.jobId
  | .startRetry jobId => jobId ≠ race.jobId
  | .other op =>
      ((service settings).step t op).1.find? race.jobId =
        t.find? race.jobId
  | _ => True

/-- The row of the job under an outcome. -/
def stored : RaceOutcome → Job
  | .undecided => race.row
  | .claimed _ row => row
  | .cancelled => cancel.set race.row

/-- Only a competitor decides the race, and only by its own write. -/
def Possible : RaceOutcome → Prop
  | .undecided => True
  | .claimed winner row => winner < race.claims ∧ ∃ now token deadline,
      row = (claim now (race.worker winner) token deadline).set race.row
  | .cancelled => 0 < race.cancels

/-- Where the claim `i` may be. -/
def Claimer (i : ℕ) : RaceOutcome → MutationCall → Prop
  | .undecided, p => p = .claiming race.jobId (race.worker i) (race.lease i)
  | .claimed winner row, p =>
      (winner = i ∧ p = .claimed (some row)) ∨
        (winner ≠ i ∧
          (p = .claiming race.jobId (race.worker i) (race.lease i) ∨
            p = .claimed none))
  | .cancelled, p =>
      p = .claiming race.jobId (race.worker i) (race.lease i) ∨
        p = .claimed none

/-- Where a cancellation may be. -/
def Canceller : RaceOutcome → MutationCall → Prop
  | .undecided, p => p = .cancelling race.jobId
  | .claimed _ _, p =>
      p = .cancelling race.jobId ∨ p = .explainingCancel race.jobId ∨
        p = .raised (.jobConflict race.jobId "cancel" "processing")
  | .cancelled, p =>
      p = .cancelling race.jobId ∨ p = .explainingCancel race.jobId ∨
        p = .cleaning (cancel.set race.row) ∨
        (∃ candidate, p = .erasing (cancel.set race.row) candidate) ∨
        p = .cancelled (cancel.set race.row)

/-- Every other call is about other jobs. -/
def Bystander : MutationCall → Prop
  | .claiming jobId _ _ => jobId ≠ race.jobId
  | .cancelling jobId => jobId ≠ race.jobId
  | .retrying jobId => jobId ≠ race.jobId
  | _ => True

/-- Where the process `i` may be. -/
def Agrees (o : RaceOutcome) (i : ℕ) (p : MutationCall) : Prop :=
  if i < race.claims then race.Claimer i o p
  else if i < race.claims + race.cancels then race.Canceller o p
  else race.Bystander p

variable {race} in
theorem agrees_claimer {o : RaceOutcome} {i : ℕ} {p : MutationCall}
    (hi : i < race.claims) : race.Agrees o i p ↔ race.Claimer i o p := by
  simp [Agrees, hi]

variable {race} in
theorem agrees_canceller {o : RaceOutcome} {i : ℕ} {p : MutationCall}
    (hi : race.claims ≤ i) (hlt : i < race.claims + race.cancels) :
    race.Agrees o i p ↔ race.Canceller o p := by
  simp [Agrees, hi.not_gt, hlt]

variable {race} in
theorem agrees_bystander {o : RaceOutcome} {i : ℕ} {p : MutationCall}
    (hi : race.claims + race.cancels ≤ i) :
    race.Agrees o i p ↔ race.Bystander p := by
  have hclaims : ¬i < race.claims := by omega
  simp [Agrees, hclaims, hi.not_gt]

/-- One step by the process `i` leaves the outcome as it is, or decides it;
a claim is then won by `i`. -/
def Leads (i : ℕ) (o o' : RaceOutcome) : Prop :=
  o' = o ∨ o = .undecided ∧ ∀ winner row, o' = .claimed winner row → winner = i

/-! ## Statements on the row -/

variable {race}

theorem not_claimable {o : RaceOutcome} (h : race.Possible o)
    (hdecided : o ≠ .undecided) : (race.stored o).isClaimable = false := by
  cases o with
  | undecided => exact absurd rfl hdecided
  | claimed winner row =>
      obtain ⟨-, now, token, deadline, rfl⟩ := h
      rfl
  | cancelled => rfl

theorem not_cancellable {o : RaceOutcome} (h : race.Possible o)
    (hdecided : o ≠ .undecided) :
    JobQueue.cancellable (race.stored o).status = false := by
  cases o with
  | undecided => exact absurd rfl hdecided
  | claimed winner row =>
      obtain ⟨-, now, token, deadline, rfl⟩ := h
      rfl
  | cancelled => rfl

theorem cancellable_row (race : ClaimRace) :
    JobQueue.cancellable race.row.status = true := by
  have hpending := (Job.isClaimable_iff.mp race.claimable).1
  rw [hpending]
  rfl

theorem cancel_checked (race : ClaimRace) :
    (cancel.set race.row).violatedCheck = none := by
  rw [Job.violatedCheck_eq_none_iff]
  exact (Job.violatedCheck_eq_none_iff _).mp race.checked

/-- A claim of the job wins while the race is open. -/
theorem claim_wins {t : Jobs} (settings : Settings)
    (hrow : t.find? race.jobId = some race.row) (now : Time)
    (workerId : String) (token : UUID) (leaseSeconds : Option Duration) :
    ∃ t', claimJob settings t now race.jobId workerId token leaseSeconds =
        .ok (t', some ((claim now workerId token
          (leaseDeadline settings now leaseSeconds)).set race.row)) ∧
      t'.find? race.jobId = some ((claim now workerId token
        (leaseDeadline settings now leaseSeconds)).set race.row) := by
  obtain ⟨t', row, rfl, hclaim, hrw⟩ := claimJob_of_claimable hrow
    race.claimable race.checked settings now workerId token leaseSeconds
  exact ⟨t', hclaim, hrw.after⟩

theorem claim_loses {t : Jobs} {o : RaceOutcome} (settings : Settings)
    (hpossible : race.Possible o) (hdecided : o ≠ .undecided)
    (hrow : t.find? race.jobId = some (race.stored o)) (now : Time)
    (workerId : String) (token : UUID) (leaseSeconds : Option Duration) :
    claimJob settings t now race.jobId workerId token leaseSeconds =
      .ok (t, none) := by
  apply claimJob_of_unclaimable
  intro r hr
  rw [hrow] at hr
  obtain rfl := Option.some.inj hr
  exact not_claimable hpossible hdecided

theorem claim_answers {t : Jobs} {o : RaceOutcome} (settings : Settings)
    (hpossible : race.Possible o)
    (hrow : t.find? race.jobId = some (race.stored o)) (now : Time)
    (workerId : String) (token : UUID) (leaseSeconds : Option Duration) :
    ∃ x, claimJob settings t now race.jobId workerId token leaseSeconds =
      .ok x := by
  by_cases hopen : o = .undecided
  · subst hopen
    obtain ⟨t', hwins, -⟩ := claim_wins settings hrow now workerId token
      leaseSeconds
    exact ⟨_, hwins⟩
  · exact ⟨_, claim_loses settings hpossible hopen hrow now workerId token
      leaseSeconds⟩

/-- A cancellation wins while the race is open. -/
theorem cancel_wins {t : Jobs}
    (hrow : t.find? race.jobId = some race.row) :
    ∃ t', cancelRow t race.jobId = .ok (t', some (cancel.set race.row)) ∧
      t'.find? race.jobId = some (cancel.set race.row) := by
  obtain ⟨t', hcancel, hrw⟩ := executeFirst_at_matched cancel
    (q := fun r => JobQueue.cancellable r.status) hrow race.cancellable_row
    race.cancel_checked
  exact ⟨t', hcancel, hrw.after⟩

theorem cancel_loses {t : Jobs} {o : RaceOutcome}
    (hpossible : race.Possible o) (hdecided : o ≠ .undecided)
    (hrow : t.find? race.jobId = some (race.stored o)) :
    cancelRow t race.jobId = .ok (t, none) := by
  apply executeFirst_at_unmatched
  intro r hr
  rw [hrow] at hr
  obtain rfl := Option.some.inj hr
  exact not_cancellable hpossible hdecided

theorem cancel_answers {t : Jobs} {o : RaceOutcome}
    (hpossible : race.Possible o)
    (hrow : t.find? race.jobId = some (race.stored o)) :
    ∃ x, cancelRow t race.jobId = .ok x := by
  by_cases hopen : o = .undecided
  · subst hopen
    obtain ⟨t', hwins, -⟩ := cancel_wins hrow
    exact ⟨_, hwins⟩
  · exact ⟨_, cancel_loses hpossible hopen hrow⟩

/-- The read that explains a cancellation shows who won. -/
theorem explained_claim {t : Jobs} {winner : ℕ} {row : Job}
    (hpossible : race.Possible (.claimed winner row))
    (hrow : t.find? race.jobId = some row) :
    cancelUnmatched race.jobId (getJob t race.jobId) =
      .error (.jobConflict race.jobId "cancel" "processing") := by
  obtain ⟨-, now, token, deadline, rfl⟩ := hpossible
  rw [getJob, hrow]
  rfl

theorem explained_cancel {t : Jobs}
    (hrow : t.find? race.jobId = some (cancel.set race.row)) :
    cancelUnmatched race.jobId (getJob t race.jobId) =
      .ok (cancel.set race.row) := by
  rw [getJob, hrow]
  rfl

/-! ## Steps -/

theorem Canceller.cancelling {o : RaceOutcome} {k : UUID}
    (h : race.Canceller o (.cancelling k)) : k = race.jobId := by
  cases o <;> simpa [Canceller] using h

theorem Canceller.explaining {o : RaceOutcome} {k : UUID}
    (h : race.Canceller o (.explainingCancel k)) :
    k = race.jobId ∧ o ≠ .undecided := by
  cases o <;> simp_all [Canceller]

/-- After a step by the process `i` that ends in `p'`, the race stands at
some outcome `i` agrees with. -/
def Advances (race : ClaimRace) (i : ℕ) (o : RaceOutcome) (t' : Jobs)
    (p' : MutationCall) : Prop :=
  ∃ o', race.Possible o' ∧ t'.find? race.jobId = some (race.stored o') ∧
    race.Agrees o' i p' ∧ Leads i o o'

/-- A step that keeps the row and the call keeps the outcome. -/
theorem Advances.same {i : ℕ} {o : RaceOutcome} {t' : Jobs}
    {p' : MutationCall} (hpossible : race.Possible o)
    (hrow : t'.find? race.jobId = some (race.stored o))
    (hp' : race.Agrees o i p') : race.Advances i o t' p' :=
  ⟨o, hpossible, hrow, hp', Or.inl rfl⟩

theorem claimer_step {settings : Settings} {s s' : Store}
    {p p' : MutationCall} {a : MutationAction} {i : ℕ} {o : RaceOutcome}
    (hi : i < race.claims) (hpossible : race.Possible o)
    (hrow : s.jobs.find? race.jobId = some (race.stored o))
    (hp : race.Claimer i o p) (ha : race.Elsewhere settings s.jobs a)
    (hstep : MutationStep settings s p a s' p') :
    race.Advances i o s'.jobs p' := by
  have hagrees : ∀ o p, race.Claimer i o p → race.Agrees o i p :=
    fun _ _ => (agrees_claimer hi).mpr
  have hcall : p = .claiming race.jobId (race.worker i) (race.lease i) ∨
      ∃ row, p = .claimed row := by
    cases o with
    | undecided => exact Or.inl hp
    | claimed winner row =>
        rcases hp with ⟨-, rfl⟩ | ⟨-, rfl | rfl⟩
        · exact Or.inr ⟨_, rfl⟩
        · exact Or.inl rfl
        · exact Or.inr ⟨_, rfl⟩
    | cancelled => exact hp.imp_right fun h => ⟨_, h⟩
  cases hstep with
  | stay p a redis hnone => exact .same hpossible hrow (hagrees o p hp)
  | other p op => exact .same hpossible (ha.trans hrow) (hagrees o p hp)
  | claim jobId workerId leaseSeconds now token jobs row hclaim =>
      obtain ⟨rfl, rfl, rfl⟩ : jobId = race.jobId ∧
          workerId = race.worker i ∧ leaseSeconds = race.lease i := by
        simpa using hcall
      by_cases hopen : o = .undecided
      · subst hopen
        obtain ⟨t', hwins, hafter⟩ := claim_wins settings hrow now
          (race.worker i) token (race.lease i)
        rw [hwins] at hclaim
        cases hclaim
        refine ⟨.claimed i _, ⟨hi, now, token, _, rfl⟩, hafter, ?_, ?_⟩
        · exact hagrees _ _ (Or.inl ⟨rfl, rfl⟩)
        · refine Or.inr ⟨rfl, ?_⟩
          rintro winner row h
          cases h
          rfl
      · rw [claim_loses settings hpossible hopen hrow] at hclaim
        cases hclaim
        refine .same hpossible hrow (hagrees _ _ ?_)
        cases o with
        | undecided => exact absurd rfl hopen
        | claimed winner row =>
            rcases hp with ⟨-, hp⟩ | ⟨hne, -⟩
            · cases hp
            · exact Or.inr ⟨hne, Or.inr rfl⟩
        | cancelled => exact Or.inr rfl
  | claimRaised jobId workerId leaseSeconds now token e hclaim =>
      obtain ⟨rfl, rfl, rfl⟩ : jobId = race.jobId ∧
          workerId = race.worker i ∧ leaseSeconds = race.lease i := by
        simpa using hcall
      obtain ⟨x, hok⟩ := claim_answers settings hpossible hrow now
        (race.worker i) token (race.lease i)
      rw [hok] at hclaim
      cases hclaim
  | _ => simp at hcall

theorem canceller_step {settings : Settings} {s s' : Store}
    {p p' : MutationCall} {a : MutationAction} {i : ℕ} {o : RaceOutcome}
    (hi : race.claims ≤ i) (hlt : i < race.claims + race.cancels)
    (hpossible : race.Possible o)
    (hrow : s.jobs.find? race.jobId = some (race.stored o))
    (hp : race.Canceller o p) (ha : race.Elsewhere settings s.jobs a)
    (hstep : MutationStep settings s p a s' p') :
    race.Advances i o s'.jobs p' := by
  have hagrees : ∀ o p, race.Canceller o p → race.Agrees o i p :=
    fun _ _ => (agrees_canceller hi hlt).mpr
  cases hstep with
  | stay p a redis hnone => exact .same hpossible hrow (hagrees o p hp)
  | other p op => exact .same hpossible (ha.trans hrow) (hagrees o p hp)
  | cancel jobId jobs row hcancel =>
      obtain rfl := hp.cancelling
      by_cases hopen : o = .undecided
      · subst hopen
        obtain ⟨t', hwins, hafter⟩ := cancel_wins hrow
        rw [hwins] at hcancel
        cases hcancel
        refine ⟨.cancelled, by simp only [Possible]; omega, hafter, ?_, ?_⟩
        · exact hagrees _ _ (Or.inr (Or.inr (Or.inl rfl)))
        · exact Or.inr ⟨rfl, fun winner row h => nomatch h⟩
      · rw [cancel_loses hpossible hopen hrow] at hcancel
        cases hcancel
  | cancelMissed jobId jobs hcancel =>
      obtain rfl := hp.cancelling
      by_cases hopen : o = .undecided
      · subst hopen
        obtain ⟨t', hwins, -⟩ := cancel_wins hrow
        rw [hwins] at hcancel
        cases hcancel
      · rw [cancel_loses hpossible hopen hrow] at hcancel
        cases hcancel
        refine .same hpossible hrow (hagrees _ _ ?_)
        cases o with
        | undecided => exact absurd rfl hopen
        | claimed winner row => exact Or.inr (Or.inl rfl)
        | cancelled => exact Or.inr (Or.inl rfl)
  | cancelRaised jobId e hcancel =>
      obtain rfl := hp.cancelling
      obtain ⟨x, hok⟩ := cancel_answers hpossible hrow
      rw [hok] at hcancel
      cases hcancel
  | cancelExplained jobId existing hexplained =>
      obtain ⟨rfl, hdecided⟩ := hp.explaining
      refine .same hpossible hrow (hagrees _ _ ?_)
      cases o with
      | undecided => exact absurd rfl hdecided
      | claimed winner row =>
          rw [explained_claim hpossible hrow] at hexplained
          cases hexplained
      | cancelled =>
          rw [explained_cancel hrow] at hexplained
          cases hexplained
          simp [Canceller]
  | cancelRefused jobId e hrefused =>
      obtain ⟨rfl, hdecided⟩ := hp.explaining
      refine .same hpossible hrow (hagrees _ _ ?_)
      cases o with
      | undecided => exact absurd rfl hdecided
      | claimed winner row =>
          rw [explained_claim hpossible hrow] at hrefused
          cases hrefused
          simp [Canceller]
      | cancelled =>
          rw [explained_cancel hrow] at hrefused
          cases hrefused
  | cleanUp row candidate fault redis =>
      refine .same hpossible hrow (hagrees _ _ ?_)
      cases o <;> simp_all [Canceller]
  | cleaned row fault redis =>
      refine .same hpossible hrow (hagrees _ _ ?_)
      cases o <;> simp_all [Canceller]
  | erased row candidate fault redis =>
      refine .same hpossible hrow (hagrees _ _ ?_)
      cases o <;> simp_all [Canceller]
  | _ => cases o <;> simp [Canceller] at hp

theorem bystander_step {settings : Settings} {s s' : Store}
    {p p' : MutationCall} {a : MutationAction} {i : ℕ} {o : RaceOutcome}
    (hi : race.claims + race.cancels ≤ i) (hpossible : race.Possible o)
    (hrow : s.jobs.find? race.jobId = some (race.stored o))
    (hp : race.Bystander p) (ha : race.Elsewhere settings s.jobs a)
    (hstep : MutationStep settings s p a s' p') :
    race.Advances i o s'.jobs p' := by
  have hagrees : ∀ p, race.Bystander p → race.Agrees o i p :=
    fun _ => (agrees_bystander hi).mpr
  have hkeep : ∀ {t' : Jobs} {k : UUID} {r r' : Job}, k ≠ race.jobId →
      Rewrites s.jobs t' k r r' →
      t'.find? race.jobId = some (race.stored o) := by
    intro t' k r r' hk hrw
    rw [hrw.others _ hk.symm, hrow]
  cases hstep with
  | stay p a redis hnone => exact .same hpossible hrow (hagrees p hp)
  | other p op => exact .same hpossible (ha.trans hrow) (hagrees p hp)
  | startClaim jobId workerId leaseSeconds =>
      exact .same hpossible hrow (hagrees _ ha)
  | startCancel jobId => exact .same hpossible hrow (hagrees _ ha)
  | startRetry jobId => exact .same hpossible hrow (hagrees _ ha)
  | claim jobId workerId leaseSeconds now token jobs row hclaim =>
      refine .same hpossible ?_ (hagrees _ trivial)
      rcases claimJob_cases hclaim with ⟨-, rfl, -⟩ | ⟨r, -, -, hrw⟩
      · exact hrow
      · exact hkeep hp hrw
  | cancel jobId jobs row hcancel =>
      refine .same hpossible ?_ (hagrees _ trivial)
      rcases cancelRow_cases hcancel with ⟨-, rfl, -⟩ | ⟨r, -, -, hrw⟩
      · exact hrow
      · exact hkeep hp hrw
  | cancelMissed jobId jobs hcancel =>
      refine .same hpossible ?_ (hagrees _ trivial)
      rcases cancelRow_cases hcancel with ⟨-, rfl, -⟩ | ⟨r, -, -, hrw⟩
      · exact hrow
      · exact hkeep hp hrw
  | retry jobId jobs row hretry =>
      refine .same hpossible ?_ (hagrees _ trivial)
      rcases retryRow_cases hretry with ⟨-, rfl, -⟩ | ⟨r, -, -, hrw⟩
      · exact hrow
      · exact hkeep hp hrw
  | retryMissed jobId jobs hretry =>
      refine .same hpossible ?_ (hagrees _ trivial)
      rcases retryRow_cases hretry with ⟨-, rfl, -⟩ | ⟨r, -, -, hrw⟩
      · exact hrow
      · exact hkeep hp hrw
  | _ => exact .same hpossible hrow (hagrees _ trivial)

/-- The other processes still agree once the race is decided. -/
theorem Agrees.of_leads {i j : ℕ} {o o' : RaceOutcome} {q : MutationCall}
    (hq : race.Agrees o j q) (hj : j ≠ i) (hleads : Leads i o o') :
    race.Agrees o' j q := by
  rcases hleads with rfl | ⟨rfl, hwinner⟩
  · exact hq
  by_cases hclaims : j < race.claims
  · rw [agrees_claimer hclaims] at hq ⊢
    cases o' with
    | undecided => exact hq
    | claimed winner row =>
        have hne : winner ≠ j := by
          rw [hwinner winner row rfl]
          exact hj.symm
        exact Or.inr ⟨hne, Or.inl hq⟩
    | cancelled => exact Or.inl hq
  · by_cases hcancels : j < race.claims + race.cancels
    · rw [agrees_canceller (by omega) hcancels] at hq ⊢
      cases o' with
      | undecided => exact hq
      | claimed winner row => exact Or.inl hq
      | cancelled => exact Or.inl hq
    · rw [agrees_bystander (by omega)] at hq ⊢
      exact hq

/-! ## Runs -/

/-- The race stands at some outcome every process agrees with. -/
def Standing (race : ClaimRace) (c : Configuration Store MutationCall) : Prop :=
  ∃ o, race.Possible o ∧
    c.shared.jobs.find? race.jobId = some (race.stored o) ∧
    ∀ i, race.Agrees o i (c.process i)

theorem Standing.step {settings : Settings}
    {c : Configuration Store MutationCall} (h : race.Standing c)
    (x : ℕ × MutationAction) (hx : race.Elsewhere settings c.shared.jobs x.2) :
    race.Standing ((mutations settings).machine.step c x).1 := by
  obtain ⟨i, a⟩ := x
  obtain ⟨o, hpossible, hrow, hagrees⟩ := h
  have hstep := mutation_step settings i c.shared (c.process i) a
  have hadvances : race.Advances i o
      ((mutations settings).act i c.shared (c.process i) a).1.jobs
      ((mutations settings).act i c.shared (c.process i) a).2.1 := by
    have hi := hagrees i
    by_cases hclaims : i < race.claims
    · exact claimer_step hclaims hpossible hrow
        ((agrees_claimer hclaims).mp hi) hx hstep
    · by_cases hcancels : i < race.claims + race.cancels
      · exact canceller_step (by omega) hcancels hpossible hrow
          ((agrees_canceller (by omega) hcancels).mp hi) hx hstep
      · exact bystander_step (by omega) hpossible hrow
          ((agrees_bystander (by omega)).mp hi) hx hstep
  obtain ⟨o', hpossible', hrow', hself, hleads⟩ := hadvances
  refine ⟨o', hpossible', hrow', fun j => ?_⟩
  by_cases hj : j = i
  · subst hj
    simpa [Concurrent.machine] using hself
  · simpa [Concurrent.machine, Function.update_of_ne hj] using
      (hagrees j).of_leads hj hleads

theorem start_standing {s : Store}
    (hrow : s.jobs.find? race.jobId = some race.row) :
    race.Standing (race.start s) := by
  refine ⟨.undecided, trivial, hrow, fun i => ?_⟩
  simp only [Agrees, start]
  split
  · rfl
  · split
    · rfl
    · trivial

theorem standing_after {settings : Settings} {s : Store}
    {actions : List (ℕ × MutationAction)}
    (hrow : s.jobs.find? race.jobId = some race.row)
    (hquiet : ∀ before pid a after, actions = before ++ (pid, a) :: after →
      race.Elsewhere settings
        (mutationsAfter settings (race.start s) before).shared.jobs a) :
    race.Standing (mutationsAfter settings (race.start s) actions) := by
  refine (mutations settings).machine.run_invariant_under
    (P := race.Standing)
    (C := fun c x => race.Elsewhere settings c.shared.jobs x.2)
    (start_standing hrow) (fun c x h hx => h.step x hx) ?_
  rintro before ⟨pid, a⟩ after hsplit
  exact hquiet before pid a after hsplit

theorem Claimer.ended {i : ℕ} {o : RaceOutcome} {p : MutationCall}
    (h : race.Claimer i o p) (hended : p.ended = true) :
    (∃ row, o = .claimed i row ∧ p = .claimed (some row)) ∨
      (∀ row, o ≠ .claimed i row) ∧ o ≠ .undecided ∧ p = .claimed none := by
  cases o with
  | undecided =>
      obtain rfl := h
      cases hended
  | claimed winner row =>
      rcases h with ⟨rfl, rfl⟩ | ⟨hne, rfl | rfl⟩
      · exact Or.inl ⟨row, rfl, rfl⟩
      · cases hended
      · refine Or.inr ⟨?_, by simp, rfl⟩
        rintro row' hrow'
        cases hrow'
        exact hne rfl
  | cancelled =>
      rcases h with rfl | rfl
      · cases hended
      · exact Or.inr ⟨by simp, by simp, rfl⟩

theorem Canceller.ended {o : RaceOutcome} {p : MutationCall}
    (h : race.Canceller o p) (hended : p.ended = true) :
    (∃ winner row, o = .claimed winner row ∧
        p = .raised (.jobConflict race.jobId "cancel" "processing")) ∨
      o = .cancelled ∧ p = .cancelled (cancel.set race.row) := by
  cases o with
  | undecided =>
      obtain rfl := h
      cases hended
  | claimed winner row =>
      rcases h with rfl | rfl | rfl
      · cases hended
      · cases hended
      · exact Or.inl ⟨winner, row, rfl, rfl⟩
  | cancelled =>
      rcases h with rfl | rfl | rfl | ⟨candidate, rfl⟩ | rfl
      · cases hended
      · cases hended
      · cases hended
      · cases hended
      · exact Or.inr ⟨rfl, rfl⟩

theorem Agrees.ne_idle {i : ℕ} {o : RaceOutcome} {p : MutationCall}
    (h : race.Agrees o i p) (hi : i < race.claims + race.cancels) :
    p ≠ .idle := by
  rintro rfl
  by_cases hclaims : i < race.claims
  · rw [agrees_claimer hclaims] at h
    cases o <;> simp [Claimer] at h
  · rw [agrees_canceller (by omega) hi] at h
    cases o <;> simp [Canceller] at h

/-- Once some call has ended, the race is decided. -/
theorem decided_of_ended {o : RaceOutcome} {process : ℕ → MutationCall}
    (hsome : 1 ≤ race.claims + race.cancels)
    (hagrees : ∀ i, race.Agrees o i (process i))
    (hended : ∀ i < race.claims + race.cancels, (process i).ended = true) :
    o ≠ .undecided := by
  rintro rfl
  by_cases hclaims : 0 < race.claims
  · have hclaimer := (agrees_claimer hclaims).mp (hagrees 0)
    rcases hclaimer.ended (hended 0 (by omega)) with
      ⟨row, hopen, -⟩ | ⟨-, hopen, -⟩
    · cases hopen
    · exact hopen rfl
  · have hcanceller := (agrees_canceller le_rfl (by omega)).mp
      (hagrees race.claims)
    rcases hcanceller.ended (hended race.claims (by omega)) with
      ⟨winner, row, hopen, -⟩ | ⟨hopen, -⟩
    · cases hopen
    · cases hopen

end ClaimRace

/-- However the steps of any number of claims and cancellations of one
claimable job interleave, no call gets stuck, and once all have ended either
one claim has taken the job and everyone else knows it, or the job is
cancelled and everyone knows that. -/
theorem cancel_against_claim_one_winner (settings : Settings) (race : ClaimRace)
    (hsome : 1 ≤ race.claims + race.cancels) {s : Store}
    (hrow : s.jobs.find? race.jobId = some race.row)
    {actions : List (ℕ × MutationAction)}
    (hquiet : ∀ before pid a after, actions = before ++ (pid, a) :: after →
      race.Elsewhere settings
        (mutationsAfter settings (race.start s) before).shared.jobs a)
    {c : Configuration Store MutationCall}
    (hc : c = mutationsAfter settings (race.start s) actions) :
    (∀ i < race.claims + race.cancels, (c.process i).ended = true ∨
      ∃ a, (∀ t, race.Elsewhere settings t a) ∧ ∀ s,
        ((c.process i).next settings s a).2.remaining <
          (c.process i).remaining) ∧
    ((∀ i < race.claims + race.cancels, (c.process i).ended = true) →
      (∃ winner < race.claims, ∃ row,
        c.shared.jobs.find? race.jobId = some row ∧
        row.status = .processing ∧
        row.attemptCount = race.row.attemptCount + 1 ∧
        row.workerId = some (race.worker winner) ∧
        row.executionToken.isSome = true ∧
        c.process winner = .claimed (some row) ∧
        (∀ i < race.claims, i ≠ winner → c.process i = .claimed none) ∧
        ∀ i, race.claims ≤ i → i < race.claims + race.cancels →
          c.process i =
            .raised (.jobConflict race.jobId "cancel" "processing")) ∨
      (1 ≤ race.cancels ∧ ∃ row,
        c.shared.jobs.find? race.jobId = some row ∧
        row.status = .cancelled ∧
        row.attemptCount = race.row.attemptCount ∧
        (∀ i < race.claims, c.process i = .claimed none) ∧
        ∀ i, race.claims ≤ i → i < race.claims + race.cancels →
          c.process i = .cancelled row)) := by
  subst hc
  obtain ⟨o, hpossible, hstored, hagrees⟩ :=
    ClaimRace.standing_after hrow hquiet
  have hclaims := fun i hi => (ClaimRace.agrees_claimer hi).mp (hagrees i)
  have hcancels := fun i hi hlt =>
    (ClaimRace.agrees_canceller hi hlt).mp (hagrees i)
  refine ⟨?_, ?_⟩
  · intro i hi
    cases hended : ((mutationsAfter settings (race.start s)
        actions).process i).ended with
    | true => exact Or.inl rfl
    | false =>
        obtain ⟨a, ha, hless⟩ := MutationCall.next_remaining settings
          ((hagrees i).ne_idle hi) hended
        refine Or.inr ⟨a, ?_, hless⟩
        simp only [List.mem_cons, List.not_mem_nil, or_false] at ha
        rcases ha with rfl | rfl | rfl <;> exact fun _ => trivial
  · intro hended
    cases o with
    | undecided =>
        exact absurd rfl (ClaimRace.decided_of_ended hsome hagrees hended)
    | claimed winner row =>
        obtain ⟨hwinner, now, token, deadline, hset⟩ := hpossible
        refine Or.inl ⟨winner, hwinner, row, hstored, ?_⟩
        refine ⟨by rw [hset]; rfl, by rw [hset]; rfl, by rw [hset]; rfl,
          by rw [hset]; rfl, ?_, ?_, ?_⟩
        · rcases (hclaims winner hwinner).ended
            (hended winner (by omega)) with ⟨row', ho, hp⟩ | ⟨hne, -⟩
          · cases ho
            exact hp
          · exact absurd rfl (hne row)
        · intro i hi hne
          rcases (hclaims i hi).ended (hended i (by omega)) with
            ⟨row', ho, -⟩ | ⟨-, -, hp⟩
          · cases ho
            exact absurd rfl hne
          · exact hp
        · intro i hi hlt
          rcases (hcancels i hi hlt).ended (hended i hlt) with
            ⟨_, _, -, hp⟩ | ⟨ho, -⟩
          · exact hp
          · cases ho
    | cancelled =>
        refine Or.inr ⟨hpossible, _, hstored, rfl, rfl, ?_, ?_⟩
        · intro i hi
          rcases (hclaims i hi).ended (hended i (by omega)) with
            ⟨row', ho, -⟩ | ⟨-, -, hp⟩
          · cases ho
          · exact hp
        · intro i hi hlt
          rcases (hcancels i hi hlt).ended (hended i hlt) with
            ⟨_, _, ho, -⟩ | ⟨-, hp⟩
          · cases ho
          · exact hp

/-- Two claims and a cancellation of the job with id 1. -/
def sampleRace : ClaimRace where
  jobId := 1
  row := newJob sampleRequest none none 0 0 1
  claims := 2
  cancels := 1
  worker i := if i = 0 then "first" else "second"
  lease _ := none
  claimable := rfl
  checked := rfl

/-- The stores when the race begins: the job has been submitted. -/
def sampleRaceStore : Store :=
  { Store.empty with jobs := tableAfter sampleSettings [sampleSubmit 1] }

/-- The second claim commits first; the cancellation misses in between. -/
def sampleRaceSteps : List (ℕ × MutationAction) :=
  [(1, .claim 5 9), (2, .go), (0, .claim 6 8), (2, .go)]

theorem cancel_against_claim_one_winner_second :
    ∃ winner < 2, ∃ row,
      (mutationsAfter sampleSettings (sampleRace.start sampleRaceStore)
        sampleRaceSteps).process winner = .claimed (some row) ∧
      (∀ i < 2, i ≠ winner →
        (mutationsAfter sampleSettings (sampleRace.start sampleRaceStore)
          sampleRaceSteps).process i = .claimed none) ∧
      (mutationsAfter sampleSettings (sampleRace.start sampleRaceStore)
        sampleRaceSteps).process 2 =
          .raised (.jobConflict 1 "cancel" "processing") := by
  have hended : ∀ i < sampleRace.claims + sampleRace.cancels,
      ((mutationsAfter sampleSettings (sampleRace.start sampleRaceStore)
        sampleRaceSteps).process i).ended = true := by
    intro i hi
    have hlt : i < 3 := hi
    interval_cases i <;> rfl
  have hquiet : ∀ before pid a after,
      sampleRaceSteps = before ++ (pid, a) :: after →
        sampleRace.Elsewhere sampleSettings (mutationsAfter sampleSettings
          (sampleRace.start sampleRaceStore) before).shared.jobs a := by
    intro before pid a after hsplit
    have hmem : (pid, a) ∈ sampleRaceSteps := by simp [hsplit]
    simp only [sampleRaceSteps, List.mem_cons, Prod.mk.injEq,
      List.not_mem_nil, or_false] at hmem
    rcases hmem with ⟨-, rfl⟩ | ⟨-, rfl⟩ | ⟨-, rfl⟩ | ⟨-, rfl⟩ <;> trivial
  rcases (cancel_against_claim_one_winner sampleSettings sampleRace
      (by decide) rfl hquiet rfl).2 hended with
    ⟨winner, hwinner, row, -, -, -, -, -, hclaimed, hothers, hcancels⟩ |
      ⟨-, row, hrow, hstatus, -⟩
  · exact ⟨winner, hwinner, row, hclaimed, hothers,
      hcancels 2 (by decide) (by decide)⟩
  · have hprocessing : ((mutationsAfter sampleSettings
        (sampleRace.start sampleRaceStore)
        sampleRaceSteps).shared.jobs.find? 1).map Job.status =
          some .processing := rfl
    rw [show (1 : UUID) = sampleRace.jobId from rfl, hrow] at hprocessing
    simp [hstatus] at hprocessing

end JobQueue
