import JobQueue.Deployment.Processes
import JobQueue.Lifecycle.Invariant

/-!
# A deployment runs the service and the queue

Whatever the processes do, the table changes only by operations of the service
and Redis only by commands of the ready queue.  So the shared state of every
deployment is the one the service and the queue reach on their own when they
are given the operations and commands of the history in their order, and what
is known about their runs holds in every deployment.
-/

namespace JobQueue

open Support

def callOf : Option Event → Option (Op × Outcome)
  | some (.database op outcome) => some (op, outcome)
  | _ => none

def commandOf : Option Event → Option QueueOp
  | some (.redis _ .lostRequest _) => none
  | some (.redis op _ _) => some op
  | _ => none

def databaseOps (h : History) : List Op :=
  h.filterMap fun x => (callOf x.2).map Prod.fst

def databaseCalls (h : History) : List (Op × Outcome) :=
  h.filterMap fun x => callOf x.2

def commands (h : History) : List QueueOp :=
  h.filterMap fun x => commandOf x.2

section

variable (h : History) (x : (ℕ × Action) × Option Event)

theorem databaseOps_concat :
    databaseOps (h ++ [x]) =
      databaseOps h ++ ((callOf x.2).map Prod.fst).toList := by
  rw [databaseOps, List.filterMap_append]
  cases hx : (callOf x.2).map Prod.fst <;> simp [databaseOps, hx]

theorem databaseCalls_concat :
    databaseCalls (h ++ [x]) = databaseCalls h ++ (callOf x.2).toList := by
  rw [databaseCalls, List.filterMap_append]
  cases hx : callOf x.2 <;> simp [databaseCalls, hx]

theorem commands_concat :
    commands (h ++ [x]) = commands h ++ (commandOf x.2).toList := by
  rw [commands, List.filterMap_append]
  cases hx : commandOf x.2 <;> simp [commands, hx]

end

theorem eq_some_of_callOf {o : Option Event} {call : Op × Outcome}
    (h : callOf o = some call) : o = some (.database call.1 call.2) := by
  unfold callOf at h
  split at h
  · rw [← Option.some.inj h]
  · cases h

section

variable (settings : Settings) (pid : ℕ) (s : Store) (i : Instruction)

theorem perform_jobs :
    (s.perform settings pid i).1.jobs =
      (callOf (s.perform settings pid i).2.2).elim s.jobs
        fun call => ((service settings).step s.jobs call.1).1 := by
  cases i with
  | redis op fault next => cases fault <;> rfl
  | _ => rfl

theorem perform_redis :
    (s.perform settings pid i).1.redis =
      (commandOf (s.perform settings pid i).2.2).elim s.redis
        fun op => (queue.step s.redis op).1 := by
  cases i with
  | redis op fault next => cases fault <;> rfl
  | _ => rfl

variable {settings pid s i}

theorem perform_outcome {op : Op} {outcome : Outcome}
    (h : (s.perform settings pid i).2.2 = some (.database op outcome)) :
    outcome = ((service settings).step s.jobs op).2 := by
  cases i with
  | database op' next =>
      obtain ⟨rfl, rfl⟩ := Event.database.inj (Option.some.inj h)
      rfl
  | redis op' fault next =>
      have hevent := Option.some.inj h
      cases hevent
  | _ => cases h

end

/-- The instruction leaves a shared state, shows an event and leads to a local
state that are related by `Q`. -/
def Instruction.Ensures (settings : Settings) (pid : ℕ) (s : Store)
    (Q : Store → Option Event → Process → Prop) (i : Instruction) : Prop :=
  Q (s.perform settings pid i).1 (s.perform settings pid i).2.2
    (s.perform settings pid i).2.1

/-- The shared state is the one the service and the queue reach on the
operations and commands of the history. -/
structure Projects (settings : Settings) (h : History) (s : Store) :
    Prop where
  jobs : s.jobs = tableAfter settings (databaseOps h)
  calls : callsOf settings (databaseOps h) = databaseCalls h
  redis : s.redis = queueAfter (commands h)

theorem projects_empty (settings : Settings) :
    Projects settings [] Store.empty :=
  ⟨rfl, rfl, rfl⟩

theorem Projects.step {settings : Settings} {h : History} {s : Store}
    (hs : Projects settings h s) (pid : ℕ) (a : Action) (i : Instruction) :
    Projects settings (h ++ [((pid, a), (s.perform settings pid i).2.2)])
      (s.perform settings pid i).1 := by
  have hops := databaseOps_concat h ((pid, a), (s.perform settings pid i).2.2)
  constructor
  · rw [perform_jobs, hops, tableAfter_append, ← hs.jobs]
    cases callOf (s.perform settings pid i).2.2 <;> rfl
  · rw [hops, callsOf_append, ← hs.jobs, hs.calls, databaseCalls_concat]
    cases hcall : callOf (s.perform settings pid i).2.2 with
    | none => rfl
    | some call =>
        have houtcome := perform_outcome (eq_some_of_callOf hcall)
        obtain ⟨op, outcome⟩ := call
        simpa using houtcome.symm
  · rw [perform_redis, commands_concat, queueAfter, queue.run_append,
      ← queueAfter, ← hs.redis]
    cases commandOf (s.perform settings pid i).2.2 <;> rfl

theorem Projects.wellformed {settings : Settings} {h : History} {s : Store}
    (hs : Projects settings h s) : Jobs.Wellformed s.jobs := by
  rw [hs.jobs]
  exact tableAfter_wellformed settings _

theorem Projects.represents {settings : Settings} {h : History} {s : Store}
    (hs : Projects settings h s) (hbound : s.redis.sequence < sequenceBound) :
    Represents (queueCalls (commands h)) s.redis := by
  rw [hs.redis] at hbound ⊢
  exact represents_after hbound

/-- The invariant rule of a deployment: a property of history and shared
state, and an assertion for every process. -/
theorem deployment_invariant (settings : Settings)
    {G : History → Store → Prop} {L : History → Store → ℕ → Process → Prop}
    (hG : G [] Store.empty) (hL : ∀ pid, L [] Store.empty pid .idle)
    (hact : ∀ h s pid p a, Projects settings h s → G h s → L h s pid p →
      G (h ++ [((pid, a), ((deployment settings).act pid s p a).2.2)])
        ((deployment settings).act pid s p a).1 ∧
      L (h ++ [((pid, a), ((deployment settings).act pid s p a).2.2)])
        ((deployment settings).act pid s p a).1 pid
        ((deployment settings).act pid s p a).2.1)
    (hother : ∀ h s pid p a other q, Projects settings h s → G h s →
      L h s pid p → other ≠ pid → L h s other q →
      L (h ++ [((pid, a), ((deployment settings).act pid s p a).2.2)])
        ((deployment settings).act pid s p a).1 other q)
    (actions : List (ℕ × Action)) :
    Projects settings (historyAfter settings actions)
        (after settings actions).shared ∧
      G (historyAfter settings actions) (after settings actions).shared ∧
      ∀ pid, L (historyAfter settings actions)
        (after settings actions).shared pid
        ((after settings actions).process pid) := by
  have hrun := (deployment settings).run_invariant
    (G := fun h s => Projects settings h s ∧ G h s) (L := L) (c := initial)
    ⟨projects_empty settings, hG⟩ hL
    (fun h s pid p a hg hl =>
      ⟨⟨hg.1.step pid a _, (hact h s pid p a hg.1 hg.2 hl).1⟩,
        (hact h s pid p a hg.1 hg.2 hl).2⟩)
    (fun h s pid p a other q hg => hother h s pid p a other q hg.1 hg.2)
    actions
  exact ⟨hrun.1.1, hrun.1.2, hrun.2⟩

theorem projects_after (settings : Settings) (actions : List (ℕ × Action)) :
    Projects settings (historyAfter settings actions)
      (after settings actions).shared :=
  (deployment_invariant _ (G := fun _ _ => True) (L := fun _ _ _ _ => True)
    trivial (fun _ => trivial) (fun _ _ _ _ _ _ _ _ => ⟨trivial, trivial⟩)
    (fun _ _ _ _ _ _ _ _ _ _ _ _ => trivial) actions).1

end JobQueue
