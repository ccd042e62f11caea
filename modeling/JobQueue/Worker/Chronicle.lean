import JobQueue.Worker.Attempts

/-!
# The chronicle of a runner

What a runner does with its attempts, in order: it claims a job, writes while
the handler runs, sees the handler end, writes again, and returns.  An
abstract machine says which order is right and what may be recorded of an
attempt; the worker process follows it in every run.  So what the table says
about an attempt is what happened in its handler.
-/

namespace JobQueue.Worker

open Support

/-! ## Deeds -/

def fencedWrite : Op → Option (Attempt × FencedWrite)
  | .extendLease now a leaseSeconds => some (a, .extendLease now leaseSeconds)
  | .updateProgress a progress => some (a, .updateProgress progress)
  | .completeJob now a result => some (a, .completeJob now result)
  | .failAttempt now a error => some (a, .failAttempt now error)
  | _ => none

@[simp] theorem fencedWrite_op (a : Attempt) (w : FencedWrite) :
    fencedWrite (w.op a) = some (a, w) := by
  cases w <;> rfl

/-- What happens in an execution: the claim, a write with its answer, the end
of the handler by itself or by giving in to its cancellation, the return of
`run_once`. -/
inductive Deed
  | claimed (row : Job)
  | wrote (a : Attempt) (w : FencedWrite) (outcome : Outcome)
  | finished (ending : Ending)
  | gaveIn
  | returned (a : Attempt)

/-- The deed of the runner that is seen in a turn. -/
def deedOf : Option Event → Option Deed
  | some (.database .runner (.claimJob _ _ _ _ _)
      (.ok (.claimed (some row)))) => some (.claimed row)
  | some (.database .runner op outcome) =>
      (fencedWrite op).map fun x => .wrote x.1 x.2 outcome
  | some (.note (.returned a)) => some (.returned a)
  | _ => none

def Point.handler : Point → Option HandlerTask
  | .handling e => some e.handler
  | .cancelling e => some e.handler
  | .leaving e _ => some e.handler
  | .closing e _ => some e.handler
  | _ => none

/-- The end of a handler that ran before a turn and does not after it. -/
def handlerEnd : Option HandlerTask → Option HandlerTask → Option Deed
  | some (.running _), some (.finished ending) => some (.finished ending)
  | some (.running _), some .cancelled => some .gaveIn
  | _, _ => none

/-- What happens in a turn that is seen so and takes the runner from `p` to
`q`. -/
def deeds (p : Point) (event : Option Event) (q : Point) : List Deed :=
  (deedOf event).toList ++ (handlerEnd p.handler q.handler).toList

/-- What happens in a run that begins in a state. -/
def chronicleFrom (settings : Settings) (config : Config) (s : System) :
    List Turn → List Deed
  | [] => []
  | turn :: turns =>
      let (s', event) := (process settings config).step s turn
      deeds s.runner event s'.runner ++
        chronicleFrom settings config s' turns

/-- What happens in a run of a worker that has just been started. -/
def chronicle (settings : Settings) (config : Config) (turns : List Turn) :
    List Deed :=
  chronicleFrom settings config start turns

theorem chronicleFrom_concat (settings : Settings) (config : Config)
    (s : System) (turns : List Turn) (turn : Turn) :
    chronicleFrom settings config s (turns ++ [turn]) =
      chronicleFrom settings config s turns ++
        deeds ((process settings config).run s turns).runner
          ((process settings config).step
            ((process settings config).run s turns) turn).2
          ((process settings config).run s (turns ++ [turn])).runner := by
  induction turns generalizing s with
  | nil => simp [chronicleFrom]
  | cons first turns ih =>
      simp only [List.cons_append, chronicleFrom, Machine.run_cons, ih,
        List.append_assoc]

theorem chronicle_concat (settings : Settings) (config : Config)
    (turns : List Turn) (turn : Turn) :
    chronicle settings config (turns ++ [turn]) =
      chronicle settings config turns ++
        deeds (systemAfter settings config turns).runner
          (eventOf settings config turns turn)
          (systemAfter settings config (turns ++ [turn])).runner :=
  chronicleFrom_concat settings config start turns turn

/-! ## The order of an execution -/

/-- How far an execution has come.  `rejected` says that one of its writes was
answered with the loss of the job; a handler that gave in to its cancellation
has no ending. -/
inductive Stage
  | free
  | unhandled (row : Job) (a : Attempt)
  | working (a : Attempt) (rejected : Bool)
  | ended (a : Attempt) (ending : Option Ending) (rejected : Bool)
  | recorded (a : Attempt)

def Stage.begun (row : Job) (a : Attempt) : Stage :=
  if (getHandler row.type).isSome then .working a false else .unhandled row a

/-- An ending that need not be recorded if the job is lost: a failure always
is. -/
def Dispensable (ending : Option Ending) : Prop :=
  ∀ e error, ending = some e → e.settlement ≠ some (.failure error)

theorem Dispensable.none : Dispensable none := by
  intro e error he
  cases he

theorem Dispensable.some {e : Ending}
    (h : ∀ error, e.settlement ≠ Option.some (.failure error)) :
    Dispensable (some e) := by
  intro e' error he
  obtain rfl := Option.some.inj he
  exact h error

/-- The order in which an execution does its deeds. -/
inductive Stage.Step : Stage → Deed → Stage → Prop
  | claim {row : Job} {a : Attempt} (h : Attempt.of row = .ok a) :
      Step .free (.claimed row) (.begun row a)
  | upkeep {a : Attempt} {rejected : Bool} {w : FencedWrite}
      {outcome : Outcome} (h : w.settles = false) :
      Step (.working a rejected) (.wrote a w outcome)
        (.working a (rejected || isOwnershipLost outcome))
  | finish {a : Attempt} {rejected : Bool} {ending : Ending}
      (h : ending = .ownershipLost → rejected = true) :
      Step (.working a rejected) (.finished ending)
        (.ended a (some ending) rejected)
  | giveIn {a : Attempt} :
      Step (.working a true) .gaveIn (.ended a none true)
  | beat {a : Attempt} {ending : Option Ending} {rejected : Bool}
      {now : Time} {leaseSeconds : Option Duration} {outcome : Outcome} :
      Step (.ended a ending rejected)
        (.wrote a (.extendLease now leaseSeconds) outcome)
        (.ended a ending (rejected || isOwnershipLost outcome))
  | record {a : Attempt} {ending : Ending} {rejected : Bool}
      {s : Settlement} {now : Time} {outcome : Outcome}
      (h : ending.settlement = some s) :
      Step (.ended a (some ending) rejected) (.wrote a (s.write now) outcome)
        (.recorded a)
  | recordUnhandled {row : Job} {a : Attempt} {now : Time}
      {outcome : Outcome} :
      Step (.unhandled row a) (.wrote a ((Settlement.failure
        (missingHandlerError row.type)).write now) outcome) (.recorded a)
  | return {a : Attempt} : Step (.recorded a) (.returned a) .free
  | abandon {a : Attempt} {ending : Option Ending}
      (h : Dispensable ending) :
      Step (.ended a ending true) (.returned a) .free

/-! ### Complete executions -/

/-- A beat or a progress report with an attempt. -/
def Upkeep (a : Attempt) (d : Deed) : Prop :=
  ∃ w outcome, FencedWrite.settles w = false ∧ d = .wrote a w outcome

def Beat (a : Attempt) (d : Deed) : Prop :=
  ∃ now leaseSeconds outcome,
    d = .wrote a (.extendLease now leaseSeconds) outcome

def Deed.IsRejected (d : Deed) : Prop :=
  ∃ a w outcome, d = .wrote a w outcome ∧ isOwnershipLost outcome = true

def Deed.ending : Option Ending → Deed
  | some ending => .finished ending
  | none => .gaveIn

/-- What happens between the claim of a job and the return of `run_once`.  The
runner records how the handler ended, once and last of all; it records nothing
only if it was told that the job is lost, and then there is no failure of the
handler to record.  A job without a handler fails with just that. -/
inductive Story (row : Job) (a : Attempt) : List Deed → Prop
  | recorded {working closing : List Deed} {ending : Ending} {s : Settlement}
      {now : Time} {outcome : Outcome}
      (hhandler : (getHandler row.type).isSome = true)
      (hworking : ∀ d ∈ working, Upkeep a d)
      (hclosing : ∀ d ∈ closing, Beat a d)
      (hs : ending.settlement = some s) :
      Story row a (working ++ .finished ending ::
        (closing ++ [.wrote a (s.write now) outcome]))
  | abandoned {working closing : List Deed} {ending : Option Ending}
      (hhandler : (getHandler row.type).isSome = true)
      (hworking : ∀ d ∈ working, Upkeep a d)
      (hclosing : ∀ d ∈ closing, Beat a d)
      (hending : Dispensable ending)
      (hlost : ∃ d ∈ working ++ closing, d.IsRejected) :
      Story row a (working ++ Deed.ending ending :: closing)
  | unhandled {now : Time} {outcome : Outcome}
      (hhandler : getHandler row.type = none) :
      Story row a [.wrote a ((Settlement.failure
        (missingHandlerError row.type)).write now) outcome]

/-- Complete executions, one after the other. -/
inductive Executions : List Deed → Prop
  | nil : Executions []
  | snoc {past story : List Deed} {row : Job} {a : Attempt}
      (hpast : Executions past) (ha : Attempt.of row = .ok a)
      (hstory : Story row a story) :
      Executions (past ++ .claimed row :: (story ++ [.returned a]))

/-- What an execution has done so far when it has come to a stage. -/
def Stage.Tale : Stage → List Deed → Prop
  | .free, current => current = []
  | .unhandled row a, current =>
      current = [.claimed row] ∧ Attempt.of row = .ok a ∧
        getHandler row.type = none
  | .working a rejected, current => ∃ row working,
      current = .claimed row :: working ∧ Attempt.of row = .ok a ∧
        (getHandler row.type).isSome = true ∧
        (∀ d ∈ working, Upkeep a d) ∧
        (rejected = true → ∃ d ∈ working, d.IsRejected)
  | .ended a ending rejected, current => ∃ row working closing,
      current = .claimed row :: (working ++ Deed.ending ending :: closing) ∧
        Attempt.of row = .ok a ∧ (getHandler row.type).isSome = true ∧
        (∀ d ∈ working, Upkeep a d) ∧ (∀ d ∈ closing, Beat a d) ∧
        (rejected = true → ∃ d ∈ working ++ closing, d.IsRejected) ∧
        (ending.bind Ending.settlement = none → rejected = true)
  | .recorded a, current => ∃ row story,
      current = .claimed row :: story ∧ Attempt.of row = .ok a ∧
        Story row a story

/-- The chronicle up to a stage: complete executions, then the current one. -/
def Stage.Tells (ds : List Deed) (stage : Stage) : Prop :=
  ∃ past current, ds = past ++ current ∧ Executions past ∧
    stage.Tale current

theorem Stage.Tells.extend {ds : List Deed} {d : Deed} {stage stage' : Stage}
    (h : stage.Tells ds)
    (htale : ∀ current, stage.Tale current → stage'.Tale (current ++ [d])) :
    stage'.Tells (ds ++ [d]) := by
  obtain ⟨past, current, rfl, hpast, hcurrent⟩ := h
  exact ⟨past, current ++ [d], by simp, hpast, htale current hcurrent⟩

/-- With the return the current execution is complete. -/
theorem Stage.Tells.complete {ds story : List Deed} {a : Attempt}
    {row : Job} {past : List Deed} (hds : ds = past ++ .claimed row :: story)
    (hpast : Executions past) (ha : Attempt.of row = .ok a)
    (hstory : Story row a story) :
    Stage.free.Tells (ds ++ [.returned a]) := by
  refine ⟨_, [], ?_, hpast.snoc ha hstory, rfl⟩
  rw [hds]
  simp

theorem IsRejected.mem_concat {working : List Deed} {a : Attempt}
    {w : FencedWrite} {outcome : Outcome} {rejected : Bool}
    (h : rejected = true → ∃ d ∈ working, d.IsRejected)
    (hr : (rejected || isOwnershipLost outcome) = true) :
    ∃ d ∈ working ++ [.wrote a w outcome], d.IsRejected := by
  rcases Bool.or_eq_true_iff.mp hr with hold | hnew
  · obtain ⟨d, hd, hrejected⟩ := h hold
    exact ⟨d, List.mem_append_left _ hd, hrejected⟩
  · exact ⟨_, List.mem_append_right _ List.mem_cons_self, a, w, outcome, rfl,
      hnew⟩

theorem Ending.settlement_eq_none {ending : Ending}
    (h : ending.settlement = none) : ending = .ownershipLost := by
  cases ending with
  | ownershipLost => rfl
  | _ => cases h

/-- What the order of deeds means for the chronicle. -/
theorem Stage.Step.tells {ds : List Deed} {stage stage' : Stage} {d : Deed}
    (hstep : Stage.Step stage d stage') (h : stage.Tells ds) :
    stage'.Tells (ds ++ [d]) := by
  cases hstep with
  | @claim row a ha =>
      refine h.extend ?_
      rintro current rfl
      unfold Stage.begun
      split
      · next hhandler => exact ⟨row, [], rfl, ha, hhandler, by simp, by simp⟩
      · next hhandler => exact ⟨rfl, ha, by simpa using hhandler⟩
  | @upkeep a rejected w outcome hw =>
      refine h.extend ?_
      rintro current ⟨row, working, rfl, ha, hhandler, hworking, hlost⟩
      refine ⟨row, working ++ [.wrote a w outcome], rfl, ha, hhandler, ?_,
        IsRejected.mem_concat hlost⟩
      intro d hd
      rcases List.mem_append.mp hd with hd | hd
      · exact hworking d hd
      · exact ⟨w, outcome, hw, List.mem_singleton.mp hd⟩
  | @finish a rejected ending hraised =>
      refine h.extend ?_
      rintro current ⟨row, working, rfl, ha, hhandler, hworking, hlost⟩
      refine ⟨row, working, [], rfl, ha, hhandler, hworking, by simp,
        by simpa using hlost, fun hnone => hraised ?_⟩
      exact Ending.settlement_eq_none hnone
  | @giveIn a =>
      refine h.extend ?_
      rintro current ⟨row, working, rfl, ha, hhandler, hworking, hlost⟩
      exact ⟨row, working, [], rfl, ha, hhandler, hworking, by simp,
        by simpa using hlost, fun _ => rfl⟩
  | @beat a ending rejected now leaseSeconds outcome =>
      refine h.extend ?_
      rintro current ⟨row, working, closing, rfl, ha, hhandler, hworking,
        hclosing, hlost, hnone⟩
      refine ⟨row, working,
        closing ++ [.wrote a (.extendLease now leaseSeconds) outcome],
        by simp, ha, hhandler, hworking, ?_, ?_,
        fun h => by rw [hnone h]; rfl⟩
      · intro d hd
        rcases List.mem_append.mp hd with hd | hd
        · exact hclosing d hd
        · exact ⟨now, leaseSeconds, outcome, List.mem_singleton.mp hd⟩
      · rw [← List.append_assoc]
        exact IsRejected.mem_concat hlost
  | @record a ending rejected s now outcome hs =>
      refine h.extend ?_
      rintro current
        ⟨row, working, closing, rfl, ha, hhandler, hworking, hclosing, -, -⟩
      have hstory : Story row a (working ++ .finished ending ::
          (closing ++ [.wrote a (s.write now) outcome])) :=
        .recorded hhandler hworking hclosing hs
      exact ⟨row, _, by simp [Deed.ending], ha, hstory⟩
  | @recordUnhandled row a now outcome =>
      refine h.extend ?_
      rintro current ⟨rfl, ha, hhandler⟩
      exact ⟨row, _, rfl, ha, .unhandled hhandler⟩
  | @«return» a =>
      obtain ⟨past, current, hds, hpast, row, story, rfl, ha, hstory⟩ := h
      exact .complete hds hpast ha hstory
  | @abandon a ending hending =>
      obtain ⟨past, current, hds, hpast, row, working, closing, rfl, ha,
        hhandler, hworking, hclosing, hlost, -⟩ := h
      exact .complete hds hpast ha
        (.abandoned hhandler hworking hclosing hending (hlost rfl))

/-- What a whole chronicle that follows the order tells. -/
theorem Stage.tells_of_trail {ds : List Deed} {stage : Stage}
    (h : Trail Stage.Step .free ds stage) : stage.Tells ds := by
  have hstart : Stage.free.Tells [] := ⟨[], [], rfl, .nil, rfl⟩
  exact Trail.invariant (P := fun ds stage => Stage.Tells ds stage) hstart
    (fun _ _ _ _ h hstep => hstep.tells h) h

theorem Stage.Tells.executions {ds : List Deed} (h : Stage.free.Tells ds) :
    Executions ds := by
  obtain ⟨past, current, rfl, hpast, rfl⟩ := h
  simpa using hpast

/-- Whatever stage has been reached, the current execution can still become
complete. -/
theorem Stage.Tells.exists_more {ds : List Deed} {stage : Stage}
    (h : stage.Tells ds) : ∃ more, Executions (ds ++ more) := by
  have hrecorded : ∀ {ds a}, (Stage.recorded a).Tells ds →
      Executions (ds ++ [.returned a]) :=
    fun h => (Stage.Step.return.tells h).executions
  have hended : ∀ {ds a ending rejected},
      (Stage.ended a ending rejected).Tells ds →
        ∃ more, Executions (ds ++ more) := by
    intro ds a ending rejected h
    cases hsettles : ending.bind Ending.settlement with
    | none =>
        obtain rfl : rejected = true := by
          obtain ⟨_, _, -, -, _, _, _, -, -, -, -, -, -, hnone⟩ := h
          exact hnone hsettles
        refine ⟨_, ((Stage.Step.abandon ?_).tells h).executions⟩
        cases ending with
        | none => exact .none
        | some e => exact .some (by simp_all)
    | some s =>
        obtain ⟨e, rfl, hs⟩ := Option.bind_eq_some_iff.mp hsettles
        have hstep : Stage.Step (.ended a (some e) rejected)
            (.wrote a (s.write 0) (.error a.ownershipLost)) (.recorded a) :=
          .record hs
        exact ⟨_, by simpa using hrecorded (hstep.tells h)⟩
  cases stage with
  | free => exact ⟨[], by simpa using h.executions⟩
  | unhandled row a =>
      have hstep : Stage.Step (.unhandled row a) (.wrote a
          ((Settlement.failure (missingHandlerError row.type)).write 0)
            (.error a.ownershipLost)) (.recorded a) := .recordUnhandled
      exact ⟨_, by simpa using hrecorded (hstep.tells h)⟩
  | working a rejected =>
      have hstep : Stage.Step (.working a rejected)
          (.finished (.crashed "")) (.ended a (some (.crashed "")) rejected) :=
        .finish (by simp)
      obtain ⟨more, hmore⟩ := hended (hstep.tells h)
      exact ⟨_, by simpa using hmore⟩
  | ended a ending rejected => exact hended h
  | recorded a => exact ⟨_, hrecorded h⟩

end JobQueue.Worker
