import JobQueue.Worker.Chronicle
import JobQueue.Worker.Refinement
import JobQueue.Worker.Returns

/-!
# What is recorded of executions

The runner of the worker process follows the order of an execution in every
run, whatever the handler, the heartbeat and the other processes do.  So its
chronicle is made of complete executions, and what the table shows of an
attempt is what its handler did.
-/

namespace JobQueue.Worker

open Support

/-! ## Where the runner is in an execution -/

def Execution.stage (e : Execution) (rejected : Bool) : Stage :=
  match e.handler with
  | .running _ => .working e.attempt rejected
  | .finished ending => .ended e.attempt (some ending) rejected
  | .cancelled => .ended e.attempt none rejected

/-- `_run_handler` may be left this way: with the ending of the handler, or
with the loss of the job once the handler has been cancelled. -/
inductive Execution.Concludes (e : Execution) (rejected : Bool) : Ending → Prop
  | finished {ending : Ending} (h : e.handler = .finished ending)
      (hlost : ending = .ownershipLost → rejected = true) :
      Concludes e rejected ending
  | dropped {result : Jsonb} (h : e.handler = .finished (.returned result))
      (hlost : rejected = true) : Concludes e rejected .ownershipLost
  | cancelled (h : e.handler = .cancelled) (hlost : rejected = true) :
      Concludes e rejected .ownershipLost

/-- The stage of the execution while the runner is at a point. -/
inductive Stands : Point → Stage → Prop
  | away {p : Point} (h : p.carrying = none) : Stands p .free
  | dropping {c : QueueCandidate} {row : Job} {a : Attempt}
      (h : Attempt.of row = .ok a) :
      Stands (.dropping c row) (.begun row a)
  | handling {e : Execution} {rejected : Bool}
      (h : e.knowsLoss = true → rejected = true) :
      Stands (.handling e) (e.stage rejected)
  | cancelling {e : Execution} : Stands (.cancelling e) (e.stage true)
  | leaving {e : Execution} {ending : Ending} {rejected : Bool}
      (h : e.Concludes rejected ending) :
      Stands (.leaving e ending) (e.stage rejected)
  | closing {e : Execution} {ending : Ending} {rejected : Bool}
      (h : e.Concludes rejected ending) :
      Stands (.closing e ending) (e.stage rejected)
  | settling {a : Attempt} {ending : Ending} {s : Settlement}
      {rejected : Bool} (h : ending.settlement = some s) :
      Stands (.settling a s) (.ended a (some ending) rejected)
  | unhandled {row : Job} {a : Attempt} :
      Stands (.settling a (.failure (missingHandlerError row.type)))
        (.unhandled row a)
  | recorded {a : Attempt} : Stands (.settled a) (.recorded a)
  | abandoned {a : Attempt} {ending : Option Ending}
      (h : Dispensable ending) : Stands (.settled a) (.ended a ending true)

/-- A runner without an attempt is between two executions. -/
theorem Stands.eq_free {p : Point} {stage : Stage} (h : Stands p stage)
    (hnone : p.carrying = none) : stage = .free := by
  cases h with
  | away _ => rfl
  | dropping ha => simp [Point.carrying, ha, Except.toOption] at hnone
  | _ => cases hnone

theorem Execution.Concludes.mono {e e' : Execution} {ending : Ending}
    {rejected rejected' : Bool} (h : e.Concludes rejected ending)
    (hhandler : e'.handler = e.handler)
    (hgrows : rejected = true → rejected' = true) :
    e'.Concludes rejected' ending := by
  cases h with
  | finished hfinished hlost =>
      exact .finished (hhandler.trans hfinished) fun h => hgrows (hlost h)
  | dropped hfinished hlost =>
      exact .dropped (hhandler.trans hfinished) (hgrows hlost)
  | cancelled hcancelled hlost =>
      exact .cancelled (hhandler.trans hcancelled) (hgrows hlost)

theorem handlerEnd_self (task : Option HandlerTask) :
    handlerEnd task task = none := by
  rcases task with _ | ⟨rejected | ending | _⟩ <;> rfl

theorem handlerEnd_none (task : Option HandlerTask) :
    handlerEnd task none = none := by
  rcases task with _ | ⟨rejected | ending | _⟩ <;> rfl

theorem deedOf_write (a : Attempt) (w : FencedWrite) (outcome : Outcome) :
    deedOf (some (.database .runner (w.op a) outcome)) =
      some (.wrote a w outcome) := by
  cases w <;> rfl

/-- Carried out on a table, the command of a turn does the deeds of a stage,
and ends where the execution has got to. -/
def Command.Follows (settings : Settings) (jobs : Jobs) (p : Point)
    (stage : Stage) (c : Command Point) : Prop :=
  ∀ redis, ∃ stage',
    Trail Stage.Step stage
      (deeds p (perform settings .runner jobs redis c).2.2.2
        (perform settings .runner jobs redis c).2.2.1) stage' ∧
    Stands (perform settings .runner jobs redis c).2.2.1 stage'

section

variable {settings : Settings} {jobs : Jobs} {p q : Point} {stage : Stage}

theorem Command.Follows.quiet (hq : Stands q stage)
    (hend : handlerEnd p.handler q.handler = none) :
    (Command.quiet q).Follows settings jobs p stage := by
  intro redis
  refine ⟨stage, ?_, hq⟩
  simpa [deeds, perform, deedOf, hend] using Trail.nil

theorem Command.Follows.ends {stage' : Stage} {d : Deed} (hq : Stands q stage')
    (hend : handlerEnd p.handler q.handler = some d)
    (hstep : Stage.Step stage d stage') :
    (Command.quiet q).Follows settings jobs p stage := by
  intro redis
  refine ⟨stage', ?_, hq⟩
  simpa [deeds, perform, deedOf, hend] using Trail.single hstep

theorem Command.Follows.queue {op : QueueOp} {next : QueueReply → Point}
    (hp : p.handler = none) (hnext : ∀ reply, Stands (next reply) stage) :
    (Command.queue op next).Follows settings jobs p stage := by
  intro redis
  refine ⟨stage, ?_, hnext _⟩
  simpa [deeds, perform, deedOf, hp, handlerEnd] using Trail.nil

theorem Command.Follows.write {a : Attempt} {w : FencedWrite}
    {next : Outcome → Point}
    (hend : ∀ outcome, handlerEnd p.handler (next outcome).handler = none)
    (hnext : ∀ outcome, ((service settings).step jobs (w.op a)).2 = outcome →
      ∃ stage', Stage.Step stage (.wrote a w outcome) stage' ∧
        Stands (next outcome) stage') :
    (Command.database (w.op a) next).Follows settings jobs p stage := by
  intro redis
  obtain ⟨stage', hstep, hstands⟩ := hnext _ rfl
  refine ⟨stage', ?_, hstands⟩
  simpa [deeds, perform, deedOf_write, hend] using Trail.single hstep

/-! ### Between two executions -/

theorem stands_nextCycle (stop : Bool) : Stands (nextCycle stop) .free :=
  .away (nextCycle_carrying stop)

theorem Command.Follows.away (hp : p.handler = none)
    (hq : q.carrying = none) :
    (Command.quiet q).Follows settings jobs p .free :=
  .quiet (.away hq) (by rw [hp]; rfl)

theorem Command.Follows.claim {config : Config} {left : ℕ}
    {c : QueueCandidate} {now : Time} {token : UUID} :
    (Command.database (.claimJob now c.jobId config.workerId token
      (some config.leaseSeconds)) (afterClaim left c)).Follows settings jobs
        (.claiming left c) .free := by
  intro redis
  simp only [perform]
  generalize hout : ((service settings).step jobs (.claimJob now c.jobId
    config.workerId token (some config.leaseSeconds))).2 = outcome
  cases outcome with
  | error e => exact ⟨.free, Trail.nil, .away rfl⟩
  | ok reply =>
      obtain ⟨row?, hclaim, rfl⟩ := answer_eq_ok (execute_of_step_ok hout)
      rcases claimJob_cases hclaim with ⟨rfl, -⟩ | ⟨r, -, rfl, -⟩
      · exact ⟨.free, Trail.nil, .away rfl⟩
      · exact ⟨_, Trail.single (.claim rfl), .dropping rfl⟩

theorem Command.Follows.reread (hp : p.handler = none)
    (hq : q.carrying = none) (c : QueueCandidate) (job : Option Job) :
    (Command.announce (.reread c job) q).Follows settings jobs p .free := by
  intro redis
  refine ⟨.free, ?_, .away hq⟩
  simpa [deeds, perform, deedOf, hp, handlerEnd] using Trail.nil

theorem stands_execute (row : Job) (a : Attempt) :
    Stands (execute row a) (.begun row a) := by
  unfold execute Stage.begun
  split
  · refine .handling (e := .start a) ?_
    intro hknows
    cases hknows
  · exact .unhandled

theorem Command.Follows.return {a : Attempt} (stop : Bool)
    (h : Stage.Step stage (.returned a) .free) :
    (Command.announce (.returned a) (nextCycle stop)).Follows settings jobs
      (.settled a) stage := by
  intro redis
  refine ⟨.free, ?_, stands_nextCycle stop⟩
  simpa [deeds, perform, deedOf, Point.handler, handlerEnd]
    using Trail.single h

/-! ### While an attempt is under execution -/

/-- A point at which the attempt is under execution and its handler stays as
it is, whatever becomes of the heartbeat. -/
structure Awaits (e : Execution) (rejected : Bool)
    (next : Execution → Point) : Prop where
  stands : ∀ e' rejected', e'.attempt = e.attempt → e'.handler = e.handler →
    (rejected = true → rejected' = true) →
    (e'.knowsLoss = true → e.knowsLoss = true ∨ rejected' = true) →
      Stands (next e') (e'.stage rejected')
  handler : ∀ e', (next e').handler = some e'.handler

theorem Awaits.handling {e : Execution} {rejected : Bool}
    (h : e.knowsLoss = true → rejected = true) :
    Awaits e rejected .handling where
  stands _ _ _ _ hgrows hloss :=
    .handling fun hknows => (hloss hknows).elim (fun hold => hgrows (h hold)) id
  handler _ := rfl

theorem Awaits.cancelling (e : Execution) : Awaits e true .cancelling where
  stands e' rejected' _ _ hgrows _ := by
    rw [hgrows rfl]
    exact .cancelling
  handler _ := rfl

theorem Awaits.leaving {e : Execution} {ending : Ending} {rejected : Bool}
    (h : e.Concludes rejected ending) : Awaits e rejected (.leaving · ending)
    where
  stands _ _ _ hhandler hgrows _ := .leaving (h.mono hhandler hgrows)
  handler _ := rfl

theorem Awaits.closing {e : Execution} {ending : Ending} {rejected : Bool}
    (h : e.Concludes rejected ending) : Awaits e rejected (.closing · ending)
    where
  stands _ _ _ hhandler hgrows _ := .closing (h.mono hhandler hgrows)
  handler _ := rfl

/-- A turn in which neither the handler nor what is known changes. -/
theorem Awaits.quiet {e e' : Execution} {rejected : Bool}
    {next : Execution → Point} (h : Awaits e rejected next)
    (hattempt : e'.attempt = e.attempt) (hhandler : e'.handler = e.handler)
    (hloss : e'.knowsLoss = true → e.knowsLoss = true) :
    (Command.quiet (next e')).Follows settings jobs (next e)
      (e.stage rejected) := by
  have hstage : e'.stage rejected = e.stage rejected := by
    unfold Execution.stage
    rw [hhandler, hattempt]
  rw [← hstage]
  refine .quiet (h.stands e' rejected hattempt hhandler id
    fun hknows => Or.inl (hloss hknows)) ?_
  rw [h.handler, h.handler, hhandler]
  exact handlerEnd_self _

theorem Execution.stage_beat (e : Execution) (rejected : Bool) (now : Time)
    (leaseSeconds : Option Duration) (outcome : Outcome) :
    Stage.Step (e.stage rejected)
      (.wrote e.attempt (.extendLease now leaseSeconds) outcome)
      (e.stage (rejected || isOwnershipLost outcome)) := by
  cases hhandler : e.handler with
  | running told =>
      simp only [Execution.stage, hhandler]
      exact .upkeep rfl
  | finished ending =>
      simp only [Execution.stage, hhandler]
      exact .beat
  | cancelled =>
      simp only [Execution.stage, hhandler]
      exact .beat

theorem Execution.handler_beaten (e : Execution) (closing : Bool)
    (outcome : Outcome) : (e.beaten closing outcome).handler = e.handler := by
  unfold Execution.beaten
  split <;> rfl

theorem Awaits.pulse {e : Execution} {rejected : Bool}
    {next : Execution → Point} (h : Awaits e rejected next) (config : Config)
    (closing : Bool) (turn : RunnerTurn) :
    (e.pulse config closing next turn).Follows settings jobs (next e)
      (e.stage rejected) := by
  cases turn with
  | wake => exact h.quiet rfl rfl id
  | beat now =>
      simp only [Execution.pulse]
      split
      · refine .write (fun outcome => ?_) (fun outcome _ => ?_)
        · rw [h.handler, h.handler, e.handler_beaten]
          exact handlerEnd_self _
        · have hattempt := e.attempt_beaten closing outcome
          have hhandler := e.handler_beaten closing outcome
          have hstage : (e.beaten closing outcome).stage
              (rejected || isOwnershipLost outcome) =
                e.stage (rejected || isOwnershipLost outcome) := by
            unfold Execution.stage
            rw [hhandler, hattempt]
          refine ⟨_, e.stage_beat rejected _ _ outcome, ?_⟩
          rw [← hstage]
          refine h.stands _ _ hattempt hhandler
            (fun hr => by rw [hr]; rfl) fun hknows => ?_
          rcases Execution.knowsLoss_beaten hknows with hold | hnew
          · exact Or.inl hold
          · exact Or.inr (by rw [hnew, Bool.or_true])
      · exact h.quiet rfl rfl id
  | _ => exact h.quiet rfl rfl id

theorem Command.Follows.report {e : Execution} {rejected : Bool}
    {next : Execution → Point} (h : Awaits e rejected next)
    (hnext : ∀ e' rejected', (rejected = true → rejected' = true) →
      (e'.knowsLoss = true → e.knowsLoss = true ∨ rejected' = true) →
        Stands (next e') (e'.stage rejected')) (percentage : ℤ) :
    (e.work next (.report percentage)).Follows settings jobs (next e)
      (e.stage rejected) := by
  simp only [Execution.work]
  split
  · next told hhandler =>
      refine .write (fun outcome => ?_) (fun outcome _ => ?_)
      · rw [h.handler, h.handler, hhandler]
        rfl
      · refine ⟨.working e.attempt (rejected || isOwnershipLost outcome), ?_,
          ?_⟩
        · simp only [Execution.stage, hhandler]
          exact .upkeep rfl
        · have hstands := hnext { e with handler := e.handler.reported outcome }
            (rejected || isOwnershipLost outcome) (fun hr => by rw [hr]; rfl)
            fun hknows => (Execution.knowsLoss_reported hknows).imp_right
              fun hnew => by rw [hnew, Bool.or_true]
          simpa only [Execution.stage, HandlerTask.reported, hhandler]
            using hstands
  · exact h.quiet rfl rfl id

theorem Command.Follows.finish {e : Execution} {rejected : Bool}
    {next : Execution → Point} (h : Awaits e rejected next)
    (hknows : e.knowsLoss = true → rejected = true)
    (hnext : ∀ e' : Execution, (e'.knowsLoss = true → rejected = true) →
      Stands (next e') (e'.stage rejected)) (ending : Ending) :
    (e.work next (.finish ending)).Follows settings jobs (next e)
      (e.stage rejected) := by
  cases hhandler : e.handler with
  | running told =>
      -- Without a rejected report the handler cannot raise its loss.
      by_cases hraises : ending = .ownershipLost ∧ told = false
      · obtain ⟨rfl, rfl⟩ := hraises
        simp only [Execution.work, hhandler]
        exact h.quiet rfl rfl id
      · have hlost : ending = .ownershipLost → rejected = true := by
          rintro rfl
          refine hknows (Execution.knowsLoss_iff.mpr (Or.inr ?_))
          rw [hhandler]
          cases told with
          | true => rfl
          | false => exact absurd ⟨rfl, rfl⟩ hraises
        have hwork : e.work next (.finish ending) =
            .quiet (next { e with handler := .finished ending }) := by
          cases told <;> cases ending <;> simp_all [Execution.work]
        rw [hwork]
        refine .ends (d := .finished ending)
          (hnext { e with handler := .finished ending } ?_) ?_ ?_
        · intro hknows'
          rcases Execution.knowsLoss_iff.mp hknows' with hbeat | hraised
          · exact hknows (Execution.knowsLoss_iff.mpr (Or.inl hbeat))
          · cases ending with
            | ownershipLost => exact hlost rfl
            | _ => cases hraised
        · rw [h.handler, h.handler, hhandler]
          rfl
        · simp only [Execution.stage, hhandler]
          exact .finish hlost
  | finished done =>
      simp only [Execution.work, hhandler]
      exact h.quiet rfl rfl id
  | cancelled =>
      simp only [Execution.work, hhandler]
      exact h.quiet rfl rfl id

/-! ### The runner among its tasks -/

/-- The handler's own end comes first. -/
theorem stands_race {e : Execution} {rejected : Bool}
    (h : e.knowsLoss = true → rejected = true) :
    Stands e.race (e.stage rejected) := by
  unfold Execution.race
  split
  · next ending hhandler =>
      refine .leaving (.finished hhandler ?_)
      rintro rfl
      refine h (Execution.knowsLoss_iff.mpr (Or.inr ?_))
      rw [hhandler]
      rfl
  · split
    · next hlost =>
        rw [h (Execution.knowsLoss_iff.mpr (Or.inl hlost))]
        exact .cancelling
    · exact .handling h

/-- A handler that was cancelled has given in, has raised, or its result is
dropped. -/
theorem stands_abandon (e : Execution) : Stands e.abandon (e.stage true) := by
  unfold Execution.abandon
  split
  · exact .cancelling
  · next ending hhandler =>
      cases ending with
      | returned result => exact .leaving (.dropped hhandler rfl)
      | _ => exact .leaving (.finished hhandler fun _ => rfl)
  · next hhandler => exact .leaving (.cancelled hhandler rfl)

theorem handler_race (e : Execution) : e.race.handler = some e.handler := by
  unfold Execution.race
  split
  · rfl
  · split <;> rfl

theorem handler_abandon (e : Execution) :
    e.abandon.handler = some e.handler := by
  unfold Execution.abandon
  split <;> rfl

/-- The handler gives in to its cancellation. -/
theorem Command.Follows.cancel (e : Execution) :
    (Command.quiet (.cancelling e.cancel)).Follows settings jobs
      (.cancelling e) (e.stage true) := by
  cases hhandler : e.handler with
  | running told =>
      simp only [Execution.cancel, hhandler]
      refine .ends (d := .gaveIn) (.cancelling (e := { e with
        handler := .cancelled })) ?_ ?_
      · simp only [Point.handler, hhandler]
        rfl
      · simp only [Execution.stage, hhandler]
        exact .giveIn
  | _ =>
      simp only [Execution.cancel, hhandler]
      exact (Awaits.cancelling e).quiet rfl rfl id

/-- What is settled once the heartbeat has ended is how the handler ended. -/
theorem stands_close {e : Execution} {ending : Ending} {rejected : Bool}
    (h : e.Concludes rejected ending) :
    Stands (e.close ending) (e.stage rejected) := by
  unfold Execution.close
  split
  · cases h with
    | finished hhandler hlost =>
        simp only [Execution.stage, hhandler]
        split
        · next s hs => exact .settling hs
        · next hnone =>
            rw [hlost (Ending.settlement_eq_none hnone)]
            exact .abandoned (.some (by simp [hnone]))
    | dropped hhandler hlost =>
        simp only [Execution.stage, hhandler, hlost]
        exact .abandoned (.some (by simp [Ending.settlement]))
    | cancelled hhandler hlost =>
        simp only [Execution.stage, hhandler, hlost]
        exact .abandoned .none
  · exact .closing h

theorem handlerEnd_close (e : Execution) (ending : Ending) :
    handlerEnd (some e.handler) (e.close ending).handler = none := by
  unfold Execution.close
  split
  · split <;> exact handlerEnd_none _
  · exact handlerEnd_self _

end

section

variable {settings : Settings} {ops : List Op}

/-- The settling write ends the execution, be it rejected or not. -/
theorem Command.Follows.settle {a : Attempt} (ha : HandedOut settings ops a)
    (htokens : (mintedTokens ops).Nodup) {stage : Stage} (s : Settlement)
    (now : Time)
    (hstep : ∀ outcome, Stage.Step stage (.wrote a (s.write now) outcome)
      (.recorded a)) :
    (Command.database ((s.write now).op a) (afterSettling a)).Follows settings
      (tableAfter settings ops) (.settling a s) stage := by
  refine .write (fun _ => rfl) fun outcome hout => ⟨_, hstep outcome, ?_⟩
  rcases ha.write_cases htokens (s.write now) with
    ⟨reply, hreply, -⟩ | ⟨-, hrejected⟩
  · rw [← hout, hreply]
    exact .recorded
  · rw [← hout, hrejected]
    exact .recorded

/-! ### One turn of the runner -/

section

variable {config : Config} {stop : Bool} {jobs : Jobs} {stage : Stage}

theorem follows_away {p : Point} (hnone : p.carrying = none)
    (hp : p.Asserts settings ops) (turn : RunnerTurn) :
    (p.next config stop jobs turn).Follows settings jobs p .free := by
  have hstay : (Command.quiet p).Follows settings jobs p .free :=
    .quiet (.away hnone) (handlerEnd_self _)
  cases p with
  | idle =>
      cases turn with
      | go => exact .away rfl (nextCycle_carrying stop)
      | _ => exact hstay
  | peeking left =>
      cases turn with
      | queue =>
          refine .queue rfl fun reply => .away ?_
          unfold afterPeek
          split <;> rfl
      | _ => exact hstay
  | peeked left c =>
      cases turn with
      | go => cases stop <;> exact .away rfl rfl
      | _ => exact hstay
  | claiming left c =>
      cases turn with
      | claim now token => exact .claim
      | _ => exact hstay
  | inspecting left c =>
      cases turn with
      | read => exact .reread rfl rfl c _
      | _ => exact hstay
  | inspected left c job =>
      cases turn with
      | go =>
          simp only [Point.next]
          split
          · exact .away rfl (nextCandidate_carrying stop left)
          · exact .away rfl rfl
      | _ => exact hstay
  | discarding left c =>
      cases turn with
      | queue => exact .queue rfl fun _ => .away rfl
      | _ => exact hstay
  | discarded left =>
      cases turn with
      | go => exact .away rfl (nextCandidate_carrying stop left)
      | _ => exact hstay
  | dropping c row =>
      obtain ⟨a, ha, -⟩ := hp
      simp [Point.carrying, ha, Except.toOption] at hnone
  | stopped => cases turn <;> exact hstay
  | _ => cases hnone

theorem follows_dropping {c : QueueCandidate} {row : Job} {a : Attempt}
    (ha : Attempt.of row = .ok a) (turn : RunnerTurn) :
    (Point.next config stop jobs (.dropping c row) turn).Follows settings jobs
      (.dropping c row) (.begun row a) := by
  cases turn with
  | queue =>
      refine .queue rfl fun _ => ?_
      simp only [afterDrop, ha]
      exact stands_execute row a
  | _ => exact .quiet (.dropping ha) (handlerEnd_self _)

theorem follows_handling {e : Execution} {rejected : Bool}
    (hknows : e.knowsLoss = true → rejected = true) (turn : RunnerTurn) :
    (Point.next config stop jobs (.handling e) turn).Follows settings jobs
      (.handling e) (e.stage rejected) := by
  have hawaits := Awaits.handling hknows
  cases turn with
  | go =>
      refine .quiet (stands_race hknows) ?_
      rw [handler_race]
      exact handlerEnd_self _
  | report percentage =>
      exact .report hawaits (fun e' rejected' hgrows hloss => .handling
        fun h => (hloss h).elim (fun hold => hgrows (hknows hold)) id)
        percentage
  | finish ending =>
      exact .finish hawaits hknows (fun _ h => .handling h) ending
  | _ =>
      simp only [Point.next]
      exact hawaits.pulse config false _

theorem follows_cancelling (e : Execution) (turn : RunnerTurn) :
    (Point.next config stop jobs (.cancelling e) turn).Follows settings jobs
      (.cancelling e) (e.stage true) := by
  have hawaits := Awaits.cancelling e
  cases turn with
  | go =>
      refine .quiet (stands_abandon e) ?_
      rw [handler_abandon]
      exact handlerEnd_self _
  | report percentage =>
      refine .report hawaits (fun e' rejected' hgrows _ => ?_) percentage
      rw [hgrows rfl]
      exact .cancelling
  | finish ending =>
      exact .finish hawaits (fun _ => rfl) (fun _ _ => .cancelling) ending
  | cancelled => exact .cancel e
  | _ =>
      simp only [Point.next]
      exact hawaits.pulse config false _

theorem follows_leaving {e : Execution} {ending : Ending} {rejected : Bool}
    (h : e.Concludes rejected ending) (turn : RunnerTurn) :
    (Point.next config stop jobs (.leaving e ending) turn).Follows settings
      jobs (.leaving e ending) (e.stage rejected) := by
  cases turn with
  | go => exact .quiet (.closing h) (handlerEnd_self _)
  | _ =>
      simp only [Point.next]
      exact (Awaits.leaving h).pulse config false _

theorem follows_closing {e : Execution} {ending : Ending} {rejected : Bool}
    (h : e.Concludes rejected ending) (turn : RunnerTurn) :
    (Point.next config stop jobs (.closing e ending) turn).Follows settings
      jobs (.closing e ending) (e.stage rejected) := by
  have hawaits := Awaits.closing h
  cases turn with
  | go => exact .quiet (stands_close h) (handlerEnd_close e ending)
  | timeout => exact hawaits.quiet rfl rfl id
  | _ =>
      simp only [Point.next]
      exact hawaits.pulse config true _

theorem follows_settling {a : Attempt} (ha : HandedOut settings ops a)
    (htokens : (mintedTokens ops).Nodup) {s : Settlement}
    (hstands : Stands (.settling a s) stage)
    (hstep : ∀ now outcome, Stage.Step stage (.wrote a (s.write now) outcome)
      (.recorded a)) (turn : RunnerTurn) :
    (Point.next config stop (tableAfter settings ops) (.settling a s)
      turn).Follows settings (tableAfter settings ops) (.settling a s)
        stage := by
  cases turn with
  | write now => exact .settle ha htokens s now (hstep now)
  | _ => exact .quiet hstands (handlerEnd_self _)

theorem follows_settled {a : Attempt} (hstands : Stands (.settled a) stage)
    (hstep : Stage.Step stage (.returned a) .free) (turn : RunnerTurn) :
    (Point.next config stop jobs (.settled a) turn).Follows settings jobs
      (.settled a) stage := by
  cases turn with
  | go => exact .return stop hstep
  | _ => exact .quiet hstands (handlerEnd_self _)

end

/-- Whatever turn the runner takes, it follows the order. -/
theorem Stands.follows {p : Point} {stage : Stage} (h : Stands p stage)
    (hp : p.Asserts settings ops) (htokens : (mintedTokens ops).Nodup)
    (config : Config) (stop : Bool) (turn : RunnerTurn) :
    (p.next config stop (tableAfter settings ops) turn).Follows settings
      (tableAfter settings ops) p stage := by
  cases h with
  | away hnone => exact follows_away hnone hp turn
  | dropping ha => exact follows_dropping ha turn
  | handling hknows => exact follows_handling hknows turn
  | cancelling => exact follows_cancelling _ turn
  | leaving hconcludes => exact follows_leaving hconcludes turn
  | closing hconcludes => exact follows_closing hconcludes turn
  | settling hs =>
      exact follows_settling hp htokens (.settling hs)
        (fun _ _ => .record hs) turn
  | unhandled =>
      exact follows_settling hp htokens .unhandled
        (fun _ _ => .recordUnhandled) turn
  | recorded => exact follows_settled .recorded .return turn
  | abandoned hending =>
      exact follows_settled (.abandoned hending) (.abandon hending) turn

theorem deedOf_outside {π : Type} {party : Party} (hparty : party ≠ .runner)
    (jobs : Jobs) (redis : Redis) {c : Command π}
    (hc : ∀ a next, c ≠ .announce (.returned a) next) :
    deedOf (perform settings party jobs redis c).2.2.2 = none := by
  cases c with
  | quiet next => rfl
  | queue op next => rfl
  | announce note next =>
      cases note with
      | returned a => exact absurd rfl (hc a next)
      | _ => rfl
  | database op next =>
      cases party with
      | runner => exact absurd rfl hparty
      | _ => rfl

/-- Nobody else does a deed of the runner. -/
theorem Stands.outside {p : Point} {stage : Stage} (h : Stands p stage)
    {event : Option Event} (hevent : deedOf event = none) :
    ∃ stage', Trail Stage.Step stage (deeds p event p) stage' ∧
      Stands p stage' :=
  ⟨stage, by simpa [deeds, hevent, handlerEnd_self] using Trail.nil, h⟩

theorem step_stands (config : Config) {s : System}
    (hjobs : s.jobs = tableAfter settings ops)
    (hp : s.runner.Asserts settings ops) (htokens : (mintedTokens ops).Nodup)
    {stage : Stage} (h : Stands s.runner stage) (turn : Turn) :
    ∃ stage', Trail Stage.Step stage
        (deeds s.runner ((process settings config).step s turn).2
          ((process settings config).step s turn).1.runner) stage' ∧
      Stands ((process settings config).step s turn).1.runner stage' := by
  cases turn with
  | stop => exact h.outside rfl
  | other op =>
      exact h.outside (deedOf_outside (by decide) s.jobs s.redis
        (c := .database op fun _ => ()) (by simp))
  | otherQueue op => exact h.outside rfl
  | runner turn =>
      have hturn := h.follows hp htokens config s.stop turn s.redis
      rw [← hjobs] at hturn
      exact hturn
  | scheduler turn =>
      exact h.outside (deedOf_outside (by decide) s.jobs s.redis
        (schedule_ne_returned config s.stop s.scheduler turn))
  | recovery turn =>
      exact h.outside (deedOf_outside (by decide) s.jobs s.redis
        (recover_ne_returned config s.stop s.recovery turn))

end

/-- The runner follows the order in every run. -/
theorem chronicle_follows {settings : Settings} {config : Config}
    {turns : List Turn} (htokens : FreshTokens settings config turns) :
    ∃ stage, Trail Stage.Step .free (chronicle settings config turns) stage ∧
      Stands (systemAfter settings config turns).runner stage := by
  induction turns using List.reverseRecOn with
  | nil => exact ⟨.free, Trail.nil, .away rfl⟩
  | append_singleton turns turn ih =>
      obtain ⟨stage, htrail, hstands⟩ := ih htokens.init
      obtain ⟨stage', hstep, hstands'⟩ := step_stands config
        (jobs_systemAfter settings config turns)
        (asserts_systemAfter htokens.init) htokens.init hstands turn
      rw [← systemAfter_concat] at hstep hstands'
      refine ⟨stage', ?_, hstands'⟩
      rw [chronicle_concat]
      exact htrail.append hstep

/-! ## What the table shows -/

/-- The row of a job shows what was recorded of its attempt. -/
def Settlement.Shows : Settlement → Job → Prop
  | .success result, r =>
      r.status = .completed ∧ r.result = some result ∧ r.error = none
  | .failure error, r =>
      (r.status = .scheduled ∨ r.status = .failed) ∧ r.error = some error

theorem Settlement.shows_apply (s : Settlement) (settings : Settings)
    (now : Time) (a : Attempt) (r : Job) :
    s.Shows (((s.write now).effect settings a).apply r) := by
  cases s with
  | success result => exact ⟨rfl, rfl, rfl⟩
  | failure error =>
      simp only [Settlement.write, FencedWrite.effect]
      split
      · exact ⟨Or.inl rfl, rfl⟩
      · exact ⟨Or.inr rfl, rfl⟩

/-- A settling write that takes effect is shown by the row. -/
theorem shows_of_write {settings : Settings} {ops : List Op} {a : Attempt}
    (ha : HandedOut settings ops a) (htokens : (mintedTokens ops).Nodup)
    {s : Settlement} {now : Time} {reply : Reply}
    (hreply : ((service settings).step (tableAfter settings ops)
      ((s.write now).op a)).2 = .ok reply) :
    ∃ r, (tableAfter settings (ops ++ [(s.write now).op a])).find? a.jobId =
      some r ∧ s.Shows r := by
  have hlive : ¬ IsOver settings ops a := by
    intro hover
    rw [hover.rejected htokens (s.write now)] at hreply
    cases hreply
  obtain ⟨r, hr⟩ := ha.live_or_isOver.resolve_right hlive
  obtain ⟨t', reply', r', hstep, hrw⟩ := hr.takesEffect settings (s.write now)
  refine ⟨_, ?_, s.shows_apply settings now a r'⟩
  rw [tableAfter_append]
  simpa [hstep] using hrw.after

/-- The result of a completed job is shown for good. -/
theorem Settlement.shows_later {settings : Settings} {ops : List Op}
    {id : UUID} {r : Job} {result : Jsonb}
    (hr : (tableAfter settings ops).find? id = some r)
    (hshows : (Settlement.success result).Shows r) (later : List Op) :
    ∃ r', (tableAfter settings (ops ++ later)).find? id = some r' ∧
      (Settlement.success result).Shows r' := by
  have hpath := service_path_from settings (tableAfter settings ops) later id
  rw [hr] at hpath
  obtain ⟨r', hr', hcontinues⟩ := RowPath.continues hpath
  have hsame := hcontinues.frozen (by simp [JobStatus.isFinal, hshows.1])
  rw [tableAfter_append]
  refine ⟨r', hr', ?_⟩
  rw [hsame]
  exact hshows

theorem exists_opsIn_append (settings : Settings) (config : Config)
    (turns later : List Turn) :
    ∃ ops, opsIn (logOf settings config (turns ++ later)) =
      opsIn (logOf settings config turns) ++ ops := by
  have hsplit := (process settings config).trace_append start turns later
  rw [logOf, hsplit, opsIn, List.filterMap_append]
  exact ⟨_, rfl⟩

/-- The chronicle of a worker is made of complete executions, the last of
which may be under way; between two cycles all are complete.  Whatever a
settling write with effect records is shown by the row of the job, a result
for ever. -/
theorem executions_are_recorded (settings : Settings) (config : Config)
    {turns : List Turn} (htokens : FreshTokens settings config turns) :
    (∃ more, Executions (chronicle settings config turns ++ more)) ∧
      ((systemAfter settings config turns).runner.carrying = none →
        Executions (chronicle settings config turns)) ∧
      ∀ before turn after a s now reply, turns = before ++ turn :: after →
        eventOf settings config before turn = some (.database .runner
          ((Settlement.write now s).op a) (.ok reply)) →
        (∃ r, (systemAfter settings config (before ++ [turn])).jobs.find?
          a.jobId = some r ∧ s.Shows r) ∧
        ∀ result, s = .success result → ∃ r, (systemAfter settings config
          turns).jobs.find? a.jobId = some r ∧ s.Shows r := by
  obtain ⟨stage, htrail, hstands⟩ := chronicle_follows htokens
  have htells := Stage.tells_of_trail htrail
  refine ⟨htells.exists_more, fun hnone => ?_, ?_⟩
  · rw [hstands.eq_free hnone] at htells
    exact htells.executions
  · rintro before turn after a s now reply rfl hevent
    have hcut : before ++ turn :: after = (before ++ [turn]) ++ after := by simp
    rw [hcut] at htokens ⊢
    have hbefore := htokens.init.init
    have hhanded := (asserts_systemAfter hbefore).handedOut
      (carrying_of_write hbefore hevent)
    have hreply := step_outcome hevent
    rw [jobs_systemAfter] at hreply
    obtain ⟨r, hr, hshows⟩ := shows_of_write hhanded hbefore hreply.symm
    have hops : opsIn (logOf settings config (before ++ [turn])) =
        opsIn (logOf settings config before) ++ [(Settlement.write now s).op a]
        := by
      rw [opsIn_logOf_concat, hevent]
      rfl
    refine ⟨⟨r, ?_, hshows⟩, ?_⟩
    · rw [jobs_systemAfter, hops]
      exact hr
    · rintro result rfl
      obtain ⟨later, hlater⟩ := exists_opsIn_append settings config
        (before ++ [turn]) after
      rw [jobs_systemAfter, hlater, hops]
      exact Settlement.shows_later hr hshows later

/-- The handler of a claimed job returns, the heartbeat ends, and the result is
recorded. -/
def recordedRun : List Turn :=
  claimedRun ++
    [.runner (.report 40), .runner .wake, .runner (.beat (seconds 20)),
      .runner (.finish (.returned "result")), .runner .go, .runner .go,
      .runner .wake, .runner .go, .runner (.write (seconds 30)), .runner .go]

theorem executions_are_recorded_returned :
    Executions (chronicle sampleSettings sampleConfig recordedRun) ∧
      ∃ r, (systemAfter sampleSettings sampleConfig recordedRun).jobs.find?
        1 = some r ∧ (Settlement.success "result").Shows r := by
  have hfresh : FreshTokens sampleSettings sampleConfig recordedRun := by
    unfold FreshTokens
    decide +kernel
  obtain ⟨-, hcomplete, hshown⟩ :=
    executions_are_recorded sampleSettings sampleConfig hfresh
  refine ⟨hcomplete rfl, ?_⟩
  exact (hshown (recordedRun.take 15) (.runner (.write (seconds 30)))
    [.runner .go] ⟨1, "worker", 7, 1, 3⟩ (.success "result") (seconds 30) _
    rfl rfl).2 _ rfl

end JobQueue.Worker
