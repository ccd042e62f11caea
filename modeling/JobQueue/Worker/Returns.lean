import JobQueue.Worker.Attempts

/-!
# Returned runs

What holds along whole runs of the worker process: which attempts the runner
was handed out, which it settled, and what is left of an attempt when
`run_once` returns.
-/

namespace JobQueue.Worker

open Support

section

variable {settings : Settings} {config : Config} {turns : List Turn}

/-- Different claims of all processes draw different tokens. -/
def FreshTokens (settings : Settings) (config : Config) (turns : List Turn) :
    Prop :=
  (mintedTokens (opsIn (logOf settings config turns))).Nodup

theorem opsIn_logOf_concat (turn : Turn) :
    opsIn (logOf settings config (turns ++ [turn])) =
      opsIn (logOf settings config turns) ++
        (opOf (eventOf settings config turns turn)).toList := by
  rw [logOf_concat, opsIn_concat]

theorem FreshTokens.init {later : List Turn}
    (h : FreshTokens settings config (turns ++ later)) :
    FreshTokens settings config turns := by
  unfold FreshTokens mintedTokens opsIn logOf at *
  rw [Machine.trace_append, List.filterMap_append, List.filterMap_append] at h
  exact h.of_append_left

theorem asserts_systemAfter (htokens : FreshTokens settings config turns) :
    (systemAfter settings config turns).runner.Asserts settings
      (opsIn (logOf settings config turns)) := by
  induction turns using List.reverseRecOn with
  | nil => trivial
  | append_singleton turns turn ih =>
      have hstep := step_proceeds config
        (jobs_systemAfter settings config turns) (ih htokens.init)
        htokens.init turn
      rw [opsIn_logOf_concat, systemAfter_concat]
      exact hstep.asserts

theorem proceeds_concat (htokens : FreshTokens settings config turns)
    (turn : Turn) :
    Proceeds settings (opsIn (logOf settings config turns))
      (systemAfter settings config turns).runner
      (eventOf settings config turns turn)
      (systemAfter settings config (turns ++ [turn])).runner := by
  rw [systemAfter_concat]
  exact step_proceeds config (jobs_systemAfter settings config turns)
    (asserts_systemAfter htokens) htokens turn

/-- A runner that works on an attempt has done so since it was handed out. -/
theorem carrying_since (htokens : FreshTokens settings config turns)
    {a : Attempt}
    (ha : (systemAfter settings config turns).runner.carrying = some a) :
    ∃ earlier claim during, turns = earlier ++ claim :: during ∧
      claimedAttempt (eventOf settings config earlier claim) = some a ∧
      ∀ before after, during = before ++ after →
        (systemAfter settings config
          (earlier ++ claim :: before)).runner.carrying = some a := by
  induction turns using List.reverseRecOn with
  | nil => cases ha
  | append_singleton turns turn ih =>
      rcases (proceeds_concat htokens.init turn).picked a ha with hold | hnew
      · obtain ⟨earlier, claim, during, rfl, hclaim, hsince⟩ :=
          ih htokens.init hold
        refine ⟨earlier, claim, during ++ [turn], by simp, hclaim, ?_⟩
        intro before after hsplit
        rcases List.eq_nil_or_concat after with rfl | ⟨after, last, rfl⟩
        · rw [List.append_nil] at hsplit
          rw [← hsplit]
          simpa using ha
        · rw [List.concat_eq_append, ← List.append_assoc] at hsplit
          exact hsince before after (List.append_inj_left' hsplit rfl)
      · refine ⟨turns, turn, [], rfl, hnew, ?_⟩
        intro before after hsplit
        obtain ⟨rfl, rfl⟩ := List.append_eq_nil_iff.mp hsplit.symm
        exact ha

def claimedAttempts (log : Log) : List Attempt :=
  log.filterMap fun x => claimedAttempt x.2

/-- Every attempt of this runner is over, unless it works on it. -/
theorem claimed_isOver (htokens : FreshTokens settings config turns)
    {a : Attempt}
    (ha : a ∈ claimedAttempts (logOf settings config turns)) :
    IsOver settings (opsIn (logOf settings config turns)) a ∨
      (systemAfter settings config turns).runner.carrying = some a := by
  induction turns using List.reverseRecOn with
  | nil => cases ha
  | append_singleton turns turn ih =>
      have hstep := proceeds_concat htokens.init turn
      rw [opsIn_logOf_concat]
      rw [logOf_concat, claimedAttempts, List.filterMap_append,
        List.mem_append] at ha
      rcases ha with hold | hnew
      · rcases ih htokens.init hold with hover | hcarrying
        · exact Or.inl (hover.append _)
        · rcases hstep.carried a hcarrying with hkeep | hreturned
          · exact Or.inr hkeep
          · have hsettled := asserts_systemAfter htokens.init
            rw [hstep.returned a hreturned] at hsettled
            exact Or.inl (IsOver.append hsettled _)
      · simp only [List.mem_filterMap, List.mem_singleton,
          exists_eq_left] at hnew
        exact Or.inr (hstep.claimed a hnew)

def settlements (a : Attempt) (log : Log) : ℕ :=
  log.countP fun x => settles a x.2

/-- A turn that settles an attempt is a settling write with it that
returns. -/
theorem settles_eq_true {a : Attempt} {event : Option Event}
    (h : settles a event = true) :
    ∃ w reply, FencedWrite.settles w = true ∧
      event = some (.database .runner (FencedWrite.op a w) (.ok reply)) := by
  unfold settles at h
  split at h
  · next now b result reply =>
      obtain rfl := of_decide_eq_true h
      exact ⟨.completeJob now result, reply, rfl, rfl⟩
  · next now b error reply =>
      obtain rfl := of_decide_eq_true h
      exact ⟨.failAttempt now error, reply, rfl, rfl⟩
  · cases h

theorem FencedWrite.op_inj {a b : Attempt} {w w' : FencedWrite}
    (h : FencedWrite.op a w = FencedWrite.op b w') : a = b := by
  cases w <;> cases w' <;> cases h <;> rfl

theorem FencedWrite.mintedToken_op (a : Attempt) (w : FencedWrite) :
    (FencedWrite.op a w).mintedToken = none := by
  cases w <;> rfl

/-- Every fenced write of the runner is made with the attempt it carries. -/
theorem carrying_of_write (htokens : FreshTokens settings config turns)
    {turn : Turn} {a : Attempt} {w : FencedWrite} {outcome : Outcome}
    (h : eventOf settings config turns turn =
      some (.database .runner (FencedWrite.op a w) outcome)) :
    (systemAfter settings config turns).runner.carrying = some a := by
  rcases (proceeds_concat htokens turn).fenced _ _ h with
    ⟨-, hminted⟩ | ⟨b, w', hcarrying, hop⟩
  · rw [FencedWrite.mintedToken_op] at hminted
    cases hminted
  · rw [FencedWrite.op_inj hop]
    exact hcarrying

/-- The runner settles an attempt at most once, and it is over then. -/
theorem settlements_le_one (htokens : FreshTokens settings config turns)
    (a : Attempt) :
    settlements a (logOf settings config turns) ≤ 1 ∧
      (0 < settlements a (logOf settings config turns) →
        IsOver settings (opsIn (logOf settings config turns)) a) := by
  induction turns using List.reverseRecOn with
  | nil => exact ⟨Nat.zero_le 1, fun h => nomatch h⟩
  | append_singleton turns turn ih =>
      obtain ⟨hle, hover⟩ := ih htokens.init
      have hcount : settlements a (logOf settings config (turns ++ [turn])) =
          settlements a (logOf settings config turns) +
            if settles a (eventOf settings config turns turn) = true then 1
              else 0 := by
        rw [logOf_concat, settlements, List.countP_append,
          List.countP_singleton, settlements]
      rw [hcount, opsIn_logOf_concat]
      by_cases hsettles :
          settles a (eventOf settings config turns turn) = true
      · obtain ⟨w, reply, hw, hevent⟩ := settles_eq_true hsettles
        have hhanded := (asserts_systemAfter htokens.init).handedOut
          (carrying_of_write htokens.init hevent)
        have hreply := step_outcome hevent
        rw [jobs_systemAfter] at hreply
        have hlive : ¬ IsOver settings
            (opsIn (logOf settings config turns)) a := by
          intro hover
          have hrejected := hover.rejected htokens.init w
          rw [hrejected] at hreply
          cases hreply
        have hzero : settlements a (logOf settings config turns) = 0 :=
          Nat.eq_zero_of_not_pos fun hpos => hlive (hover hpos)
        rw [hzero, if_pos hsettles, hevent]
        exact ⟨le_rfl, fun _ => hhanded.isOver_of_settled hw hreply.symm⟩
      · rw [if_neg hsettles]
        exact ⟨hle, fun hpos => (hover hpos).append _⟩

/-- Once its attempt is over, the runner changes no row until it returns. -/
theorem jobs_of_isOver (htokens : FreshTokens settings config turns)
    {a : Attempt}
    (ha : (systemAfter settings config turns).runner.carrying = some a)
    (hover : IsOver settings (opsIn (logOf settings config turns)) a)
    (turn : RunnerTurn) :
    (systemAfter settings config (turns ++ [.runner turn])).jobs =
      (systemAfter settings config turns).jobs := by
  rw [systemAfter_concat, step_jobs]
  cases hop : opOf ((process settings config).step
      (systemAfter settings config turns) (.runner turn)).2 with
  | none => rfl
  | some op =>
      obtain ⟨outcome, hevent⟩ : ∃ outcome, eventOf settings config turns
          (.runner turn) = some (.database .runner op outcome) := by
        unfold opOf at hop
        split at hop
        · next party op' outcome hsome =>
            obtain rfl := Option.some.inj hop
            obtain ⟨-, rfl⟩ := perform_outcome _ (Point.next config _ _ _ turn)
              hsome
            exact ⟨outcome, hsome⟩
        · cases hop
      rcases (proceeds_concat htokens (.runner turn)).fenced _ _ hevent with
        ⟨hnone, -⟩ | ⟨b, w, hb, rfl⟩
      · exact nomatch hnone.symm.trans ha
      · obtain rfl := Option.some.inj (ha.symm.trans hb)
        have hrejected := hover.rejected htokens w
        rw [← jobs_systemAfter] at hrejected
        exact congrArg Prod.fst hrejected

theorem isOver_later {a : Attempt}
    (h : IsOver settings (opsIn (logOf settings config turns)) a)
    (later : List Turn) :
    IsOver settings (opsIn (logOf settings config (turns ++ later))) a := by
  have hsplit := (process settings config).trace_append start turns later
  rw [logOf, hsplit, opsIn, List.filterMap_append]
  exact h.append _

/-- A call, of whichever process, settles the attempt `a` or takes it away in
a recovery. -/
def endsAttempt (a : Attempt) : Option Event → Bool
  | some (.database _ op outcome) => endsClaim a (op, outcome)
  | _ => false

theorem isOver_of_endsAttempt (htokens : FreshTokens settings config turns)
    {a : Attempt} {turn : Turn}
    (ha : (systemAfter settings config turns).runner.carrying = some a)
    (hends : endsAttempt a (eventOf settings config turns turn) = true) :
    IsOver settings (opsIn (logOf settings config (turns ++ [turn]))) a := by
  have hhanded := (asserts_systemAfter htokens).handedOut ha
  rw [opsIn_logOf_concat]
  unfold endsAttempt at hends
  split at hends
  · next party op outcome hevent =>
      rw [step_outcome hevent, jobs_systemAfter] at hends
      rw [hevent]
      exact hhanded.isOver_of_endsClaim hends
  · cases hends

end

/-! ## The end of a run -/

/-- What is left of the run of `run_once` that claimed `a` after the turns
`earlier` when it has taken the turns `during`, others in between: the token
of the attempt is on no row, the run settled it at most once, and once the
attempt was ended, by a recovery or otherwise, no turn of the run, be it of
the runner, the handler or the heartbeat, changed the table. -/
structure FinishedRun (settings : Settings) (config : Config)
    (earlier : List Turn) (claim : Turn) (during : List Turn) (a : Attempt) :
    Prop where
  claimed : claimedAttempt (eventOf settings config earlier claim) = some a
  ended : ∀ r ∈ (systemAfter settings config
    (earlier ++ claim :: during)).jobs.rows,
      r.executionToken ≠ some a.executionToken
  settledOnce : settlements a
    (logOf settings config (earlier ++ claim :: during)) ≤ 1
  untouched : ∀ before ending after turn rest,
    during = before ++ ending :: (after ++ .runner turn :: rest) →
    endsAttempt a (eventOf settings config (earlier ++ claim :: before)
      ending) = true →
    (systemAfter settings config (earlier ++ claim ::
        (before ++ ending :: (after ++ [.runner turn])))).jobs =
      (systemAfter settings config (earlier ++ claim ::
        (before ++ ending :: after))).jobs

/-- A returned run means a finished attempt.  Whatever the handler does, in
every interleaving of the runner, the handler's reports, the heartbeat and
other processes in which different claims draw different tokens: when
`run_once` returns that it executed `a`, it claimed `a` before and its run is
finished. -/
theorem returned_run_finished (settings : Settings) (config : Config)
    {turns : List Turn} {turn : Turn} {a : Attempt}
    (htokens : FreshTokens settings config (turns ++ [turn]))
    (hreturned : eventOf settings config turns turn =
      some (.note (.returned a))) :
    ∃ earlier claim during, turns = earlier ++ claim :: during ∧
      FinishedRun settings config earlier claim (during ++ [turn]) a := by
  have hsettled := (proceeds_concat htokens.init turn).returned a hreturned
  have hover := asserts_systemAfter htokens.init
  rw [hsettled] at hover
  obtain ⟨earlier, claim, during, rfl, hclaim, hsince⟩ :=
    carrying_since htokens.init (a := a) (by rw [hsettled]; rfl)
  have hwhole : earlier ++ claim :: (during ++ [turn]) =
      (earlier ++ claim :: during) ++ [turn] := by simp
  refine ⟨earlier, claim, during, rfl, hclaim, ?_, ?_, ?_⟩
  · rw [hwhole, jobs_systemAfter]
    intro r hr
    exact (isOver_later hover [turn]).token_ne htokens hr
  · rw [hwhole]
    exact (settlements_le_one htokens a).1
  · intro before ending after turn' rest hsplit hends
    -- The last turn is the return itself, so all but that is in `during`.
    obtain ⟨tail, htail⟩ : ∃ tail,
        during = (before ++ ending :: after) ++ tail := by
      have hcut : during ++ [turn] =
          (before ++ ending :: after) ++ .runner turn' :: rest := by
        simpa using hsplit
      rcases List.append_eq_append_iff.mp hcut with
        ⟨extra, hlong, hlast⟩ | ⟨tail, hshort, -⟩
      · rcases List.cons_eq_append_iff.mp hlast with
          ⟨rfl, -⟩ | ⟨_, -, hnil⟩
        · exact ⟨[], by simpa using hlong.symm⟩
        · simp at hnil
      · exact ⟨tail, hshort⟩
    have hcarrying := hsince _ _ htail
    have hfresh : FreshTokens settings config
        (earlier ++ claim :: (before ++ ending :: after)) := by
      rw [htail] at htokens
      have hlong : FreshTokens settings config
          ((earlier ++ claim :: (before ++ ending :: after)) ++
            (tail ++ [turn])) := by
        simpa using htokens
      exact hlong.init
    have hinitial : earlier ++ claim :: (before ++ ending :: after) =
        ((earlier ++ claim :: before) ++ [ending]) ++ after := by simp
    have hover' : IsOver settings (opsIn (logOf settings config
        (earlier ++ claim :: (before ++ ending :: after)))) a := by
      rw [hinitial] at hfresh ⊢
      refine isOver_later (isOver_of_endsAttempt hfresh.init.init ?_ hends) _
      exact hsince before (ending :: after ++ tail) (by simp [htail])
    have hquiet := jobs_of_isOver hfresh hcarrying hover' turn'
    simpa using hquiet

/-- A worker with the default settings. -/
def sampleConfig : Config where
  workerId := "worker"
  leaseSeconds := seconds 60
  schedulerBatchSize := 100
  recoveryBatchSize := 100

/-- The runner claims a job that was submitted and published, and starts its
handler. -/
def claimedRun : List Turn :=
  [.other (sampleSubmit 1), .otherQueue (.enqueue 1 50), .runner .go,
    .runner .queue, .runner .go, .runner (.claim 0 7), .runner .queue]

/-- A recovery takes the job away; the next beat finds out, and the handler is
cancelled. -/
def recoveredRun : List Turn :=
  claimedRun ++
    [.other (.recoverExpiredLeases (seconds 61) 10 []), .runner .wake,
      .runner (.beat (seconds 62)), .runner .go, .runner .cancelled,
      .runner .go, .runner .go, .runner .go]

theorem returned_run_finished_recovered :
    ∃ earlier claim during, recoveredRun = earlier ++ claim :: during ∧
      FinishedRun sampleSettings sampleConfig earlier claim
        (during ++ [.runner .go]) ⟨1, "worker", 7, 1, 3⟩ :=
  returned_run_finished sampleSettings sampleConfig
    (by unfold FreshTokens; decide +kernel) rfl

end JobQueue.Worker
