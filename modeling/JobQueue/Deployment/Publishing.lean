import JobQueue.Deployment.Projection
import Mathlib.Algebra.Order.BigOperators.Group.Finset

/-!
# One publisher for every entry into `PENDING`

The call that moves a job into `PENDING` gets the row in its result, and issues
one enqueue for every row in its result.  Along every interleaving each process
therefore issues exactly the enqueues of the entries it made, in their order
and up to the point it has reached; a crash can only cut the list short.
-/

namespace JobQueue

open Support

/-! ## Reports and enqueues -/

/-- The rows an event reports as moved into `PENDING`. -/
def reports : Option Event → List Job
  | some (.database op outcome) => publications (op, outcome)
  | _ => []

/-- The job an event issued an enqueue for, whatever became of the call. -/
def issues : Option Event → List UUID
  | some (.redis (.enqueue jobId _) _ _) => [jobId]
  | _ => []

def reportedBy (pid : ℕ) (h : History) : List UUID :=
  (turnsOf pid h).flatMap fun x => (reports x.2).map Job.id

def issuedBy (pid : ℕ) (h : History) : List UUID :=
  (turnsOf pid h).flatMap fun x => issues x.2

def Action.call? : Action → Option Call
  | .start call => some call
  | _ => none

/-- The call a process serves: the first one it was asked to. -/
def served (pid : ℕ) (h : History) : Option Call :=
  (turnsOf pid h).findSome? fun x => x.1.2.call?

/-- The enqueues a process still has to issue. -/
def Process.remaining : Process → List Job
  | .publishing row rest => row :: rest
  | _ => []

@[simp] theorem remaining_publish (rows : List Job) :
    (Process.publish rows).remaining = rows := by
  cases rows <;> rfl

def Process.hasReported : Process → Bool
  | .publishing _ _ => true
  | .finished => true
  | .crashed => true
  | _ => false

@[simp] theorem hasReported_publish (rows : List Job) :
    (Process.publish rows).hasReported = true := by
  cases rows <;> rfl

/-- What the state of a process says about the call it serves. -/
def Process.Serves (call : Option Call) : Process → Prop
  | .idle => call = none
  | .inserting _ _ => ∃ request key, call = some (.submitJob request key)
  | .lookingUp _ _ => ∃ request key, call = some (.submitJob request key)
  | .retrying jobId => call = some (.retryJob jobId)
  | .scheduling limit => call = some (.schedulerCycle limit)
  | .locked limit _ due =>
      call = some (.schedulerCycle limit) ∧ due.length ≤ limit
  | _ => call ≠ none

/-! ## One turn -/

def QueueOp.isEnqueue : QueueOp → Bool
  | .enqueue _ _ => true
  | _ => false

/-- The instruction neither reports a row nor issues an enqueue, and leads to
a state with the property `Q`. -/
def Instruction.Silent (Q : Process → Prop) : Instruction → Prop
  | .quiet next => Q next
  | .startHandler _ next => Q next
  | .missHandler _ next => Q next
  | .unlock next => Q next
  | .lock _ next => Q next
  | .database op next => op.publishes = false ∧ ∀ outcome, Q (next outcome)
  | .redis op _ next => op.isEnqueue = false ∧ ∀ reply, Q (next reply)

theorem perform_silent {Q : Process → Prop} {i : Instruction}
    (h : i.Silent Q) (settings : Settings) (pid : ℕ) (s : Store) :
    reports (s.perform settings pid i).2.2 = [] ∧
      issues (s.perform settings pid i).2.2 = [] ∧
      Q (s.perform settings pid i).2.1 := by
  cases i with
  | database op next =>
      exact ⟨publications_eq_nil h.1 _, rfl, h.2 _⟩
  | redis op fault next =>
      refine ⟨rfl, ?_, h.2 _⟩
      cases op with
      | enqueue jobId priority => cases h.1
      | _ => rfl
  | _ => exact ⟨rfl, rfl, h⟩

theorem Instruction.Silent.mono {Q Q' : Process → Prop} {i : Instruction}
    (h : i.Silent Q) (hQ : ∀ q, Q q → Q' q) : i.Silent Q' := by
  cases i with
  | database op next => exact ⟨h.1, fun outcome => hQ _ (h.2 outcome)⟩
  | redis op fault next => exact ⟨h.1, fun reply => hQ _ (h.2 reply)⟩
  | _ => exact hQ _ h

/-- The states a runner can be in. -/
def Process.IsRunner : Process → Prop
  | .runner _ => True
  | .finished => True
  | .crashed => True
  | _ => False

theorem Runner.next_silent (r : Runner) (jobs : Jobs) (a : Action) :
    (r.next jobs a).Silent Process.IsRunner := by
  unfold Runner.next
  split
  · trivial
  · trivial
  · split
    all_goals try split
    all_goals try trivial
    all_goals refine ⟨rfl, fun reply => ?_⟩
    all_goals dsimp only
    all_goals try split
    all_goals trivial

/-- How a process goes on after a silent turn. -/
structure Process.Continues (p : Process) (a : Action) (q : Process) :
    Prop where
  crashed : p = .crashed → q = .crashed
  remaining : q = .crashed ∨ q.remaining = p.remaining
  fresh : q.hasReported = false → p.hasReported = false
  serves : ∀ call, p.Serves call → q.Serves (call.or a.call?)

theorem or_call_of_ne_none {call : Option Call} (h : call ≠ none)
    (a : Action) : call.or a.call? = call := by
  obtain ⟨c, rfl⟩ := Option.ne_none_iff_exists'.mp h
  rfl

/-- A process that serves a call is not idle. -/
theorem Process.Serves.ne_none {call : Option Call} {p : Process}
    (h : p.Serves call) (hp : p ≠ .idle) : call ≠ none := by
  cases p with
  | idle => exact absurd rfl hp
  | inserting request key =>
      obtain ⟨_, _, rfl⟩ := h
      simp
  | lookingUp request key =>
      obtain ⟨_, _, rfl⟩ := h
      simp
  | retrying jobId =>
      rw [show call = _ from h]
      simp
  | scheduling limit =>
      rw [show call = _ from h]
      simp
  | locked limit now due =>
      rw [h.1]
      simp
  | _ => exact h

theorem Process.Continues.refl {p : Process} (hp : p ≠ .idle) (a : Action) :
    p.Continues a p :=
  ⟨id, Or.inr rfl, id, fun call h => by
    rw [or_call_of_ne_none (h.ne_none hp)]
    exact h⟩

/-- An action that does not fit changes nothing. -/
theorem continues_unfit {p : Process} {a : Action}
    (h : ∀ call, p = .idle → a = .start call → False) : p.Continues a p := by
  by_cases hp : p = .idle
  · subst hp
    refine ⟨id, Or.inr rfl, id, ?_⟩
    rintro _ rfl
    cases a with
    | start call => exact (h call rfl rfl).elim
    | _ => rfl
  · exact Process.Continues.refl hp a

theorem continues_ofCall (call : Call) :
    Process.idle.Continues (.start call) (.ofCall call) := by
  refine ⟨nofun, Or.inr ?_, fun _ => rfl, ?_⟩
  · cases call with
    | submitJob request key =>
        by_cases hkey : truthyKey key = true
        · simp [Process.ofCall, hkey, Process.remaining]
        · simp [Process.ofCall, hkey, Process.remaining]
    | _ => rfl
  · rintro _ rfl
    cases call with
    | submitJob request key =>
        by_cases hkey : truthyKey key = true
        · simp [Process.ofCall, hkey, Process.Serves, Action.call?]
        · simp [Process.ofCall, hkey, Process.Serves, Action.call?]
    | _ => simp [Process.ofCall, Process.Serves, Action.call?]

/-- A turn without report of a process that has nothing to issue. -/
theorem continues_of_serves {p q : Process} {a : Action} (hp : p ≠ .idle)
    (hrest : p.remaining = []) (hfresh : p.hasReported = false)
    (hq : q = .crashed ∨ q.remaining = [])
    (hserves : ∀ call, p.Serves call → q.Serves call) : p.Continues a q := by
  refine ⟨?_, ?_, fun _ => hfresh, fun call h => ?_⟩
  · rintro rfl
    cases hfresh
  · rwa [hrest]
  · rw [or_call_of_ne_none (h.ne_none hp)]
    exact hserves call h

theorem Process.IsRunner.continues {q : Process} (h : q.IsRunner)
    (r : Runner) (a : Action) : (Process.runner r).Continues a q := by
  cases q with
  | runner r' => exact continues_of_serves nofun rfl rfl (Or.inr rfl) fun _ => id
  | finished => exact continues_of_serves nofun rfl rfl (Or.inr rfl) fun _ => id
  | crashed => exact continues_of_serves nofun rfl rfl (Or.inl rfl) fun _ => id
  | _ => exact h.elim

/-- The reporting write a process is about to make. -/
def Process.Performs (op : Op) : Process → Prop
  | .inserting request key => ∃ clock id, op = .insertJob clock id request key
  | .retrying jobId => op = .retryJob jobId
  | .locked _ now due => op = .activateSelected now due
  | _ => False

/-- A turn issues the next enqueue, or makes the reporting write, or is
silent. -/
theorem Process.next_publishing (pid : ℕ) (s : Store) (p : Process)
    (a : Action) :
    (∃ row rest fault, p = .publishing row rest ∧
      p.next pid s a = .redis (.enqueue row.id row.priority) fault
        fun _ => .publish rest) ∨
    (∃ op, p.Performs op ∧
      p.next pid s a = .database op
        fun outcome => .publish (publications (op, outcome))) ∨
    (p.next pid s a).Silent (p.Continues a) := by
  unfold Process.next
  split
  · exact Or.inr (Or.inr (continues_ofCall _))
  · refine Or.inr (Or.inr ?_)
    split
    · exact continues_of_serves nofun rfl rfl (Or.inr rfl)
        fun call h => h.ne_none nofun
    · exact continues_of_serves nofun rfl rfl (Or.inr rfl) fun call h => h
  · exact Or.inr (Or.inl ⟨_, ⟨_, _, rfl⟩, rfl⟩)
  · exact Or.inl ⟨_, _, _, rfl, rfl⟩
  · refine Or.inr (Or.inr ⟨rfl, fun outcome => ?_⟩)
    dsimp only
    split
    · split
      · exact continues_of_serves nofun rfl rfl (Or.inr rfl) fun _ h => h
      · exact continues_of_serves nofun rfl rfl (Or.inr rfl) fun _ h => h
    · exact continues_of_serves nofun rfl rfl (Or.inr rfl) fun _ h => h
  · refine Or.inr (Or.inr ⟨rfl, fun reply => ?_⟩)
    dsimp only
    split
    · split
      · exact continues_of_serves nofun rfl rfl (Or.inr rfl) fun _ h => h
      · exact continues_of_serves nofun rfl rfl (Or.inr rfl) fun _ h => h
    · exact continues_of_serves nofun rfl rfl (Or.inr rfl) fun _ h => h
  · exact Or.inr (Or.inr ⟨rfl, fun reply =>
      continues_of_serves nofun rfl rfl (Or.inr rfl) fun _ h => h⟩)
  · exact Or.inr (Or.inl ⟨_, rfl, rfl⟩)
  · refine Or.inr (Or.inr
      (continues_of_serves nofun rfl rfl (Or.inr rfl) fun call h => ⟨h, ?_⟩))
    rw [selectDue, List.length_map]
    exact KeyedTable.length_selectOrdered_le _ _ _ _
  · exact Or.inr (Or.inl ⟨_, rfl, rfl⟩)
  · exact Or.inr (Or.inr ⟨rfl, fun outcome =>
      continues_of_serves nofun rfl rfl (Or.inr rfl) fun _ h => h⟩)
  · exact Or.inr (Or.inr
      ((Runner.next_silent _ _ _).mono fun q hq => hq.continues _ _))
  · exact Or.inr (Or.inr (continues_unfit nofun))
  · exact Or.inr (Or.inr (continues_unfit nofun))
  · next hrunner hidle hfinished =>
      exact Or.inr (Or.inr
        ⟨fun _ => rfl, Or.inl rfl, nofun, fun call h => by
          rw [or_call_of_ne_none (h.ne_none hidle)]
          exact h.ne_none hidle⟩)
  · exact Or.inr (Or.inr (continues_unfit
      ‹∀ call, p = .idle → a = .start call → False›))

/-! ## Runs -/

section

variable (pid : ℕ) (h : History) (a : Action) (o : Option Event)

theorem reportedBy_concat_self :
    reportedBy pid (h ++ [((pid, a), o)]) =
      reportedBy pid h ++ (reports o).map Job.id := by
  simp [reportedBy, turnsOf_concat_self]

theorem issuedBy_concat_self :
    issuedBy pid (h ++ [((pid, a), o)]) = issuedBy pid h ++ issues o := by
  simp [issuedBy, turnsOf_concat_self]

theorem served_concat_self :
    served pid (h ++ [((pid, a), o)]) = (served pid h).or a.call? := by
  simp [served, turnsOf_concat_self, List.findSome?_append]

end

/-- What a process has reported and issued at the point it has reached. -/
structure Publisher (h : History) (pid : ℕ) (p : Process) : Prop where
  serves : p.Serves (served pid h)
  accounted : p = .crashed ∨
    reportedBy pid h = issuedBy pid h ++ p.remaining.map Job.id
  issued : issuedBy pid h <+: reportedBy pid h
  fresh : p.hasReported = false → reportedBy pid h = []
  nodup : (reportedBy pid h).Nodup
  sweep : ∀ limit, served pid h = some (.schedulerCycle limit) →
    (reportedBy pid h).length ≤ limit

theorem publisher_idle (pid : ℕ) : Publisher [] pid .idle where
  serves := rfl
  accounted := Or.inr rfl
  issued := List.prefix_rfl
  fresh _ := rfl
  nodup := List.nodup_nil
  sweep _ _ := Nat.zero_le _

theorem Publisher.other {h : History} {pid other : ℕ} {p : Process}
    (hp : Publisher h other p) (hne : other ≠ pid) (a : Action)
    (o : Option Event) : Publisher (h ++ [((pid, a), o)]) other p := by
  have hturns := turnsOf_concat_other hne h a o
  have hserved : served other (h ++ [((pid, a), o)]) = served other h := by
    rw [served, hturns, served]
  have hreported : reportedBy other (h ++ [((pid, a), o)]) =
      reportedBy other h := by
    rw [reportedBy, hturns, reportedBy]
  have hissued : issuedBy other (h ++ [((pid, a), o)]) =
      issuedBy other h := by
    rw [issuedBy, hturns, issuedBy]
  constructor
  · rw [hserved]
    exact hp.serves
  · rw [hreported, hissued]
    exact hp.accounted
  · rw [hreported, hissued]
    exact hp.issued
  · rw [hreported]
    exact hp.fresh
  · rw [hreported]
    exact hp.nodup
  · rw [hreported, hserved]
    exact hp.sweep

section

variable {h : History} {pid : ℕ} {p : Process}

theorem Publisher.served_concat (hp : Publisher h pid p) (hidle : p ≠ .idle)
    (a : Action) (o : Option Event) :
    served pid (h ++ [((pid, a), o)]) = served pid h := by
  rw [served_concat_self, or_call_of_ne_none (hp.serves.ne_none hidle)]

theorem Publisher.silent (hp : Publisher h pid p) {q : Process} {a : Action}
    {o : Option Event} (hreports : reports o = []) (hissues : issues o = [])
    (hq : p.Continues a q) : Publisher (h ++ [((pid, a), o)]) pid q := by
  have hreported : reportedBy pid (h ++ [((pid, a), o)]) =
      reportedBy pid h := by
    rw [reportedBy_concat_self, hreports, List.map_nil, List.append_nil]
  have hissued : issuedBy pid (h ++ [((pid, a), o)]) = issuedBy pid h := by
    rw [issuedBy_concat_self, hissues, List.append_nil]
  constructor
  · rw [served_concat_self]
    exact hq.serves _ hp.serves
  · rw [hreported, hissued]
    rcases hp.accounted with hcrashed | haccounted
    · exact Or.inl (hq.crashed hcrashed)
    · rcases hq.remaining with hcrashed | hsame
      · exact Or.inl hcrashed
      · rw [hsame]
        exact Or.inr haccounted
  · rw [hreported, hissued]
    exact hp.issued
  · rw [hreported]
    exact fun hfresh => hp.fresh (hq.fresh hfresh)
  · rw [hreported]
    exact hp.nodup
  · rw [hreported]
    intro limit hlimit
    by_cases hidle : p = .idle
    · rw [hp.fresh (by rw [hidle]; rfl)]
      exact Nat.zero_le _
    · rw [hp.served_concat hidle] at hlimit
      exact hp.sweep limit hlimit

theorem Publisher.issue {row : Job} {rest : List Job}
    (hp : Publisher h pid (.publishing row rest)) (a : Action)
    (fault : Fault) (reply : Option QueueReply) :
    Publisher (h ++ [((pid, a),
      some (.redis (.enqueue row.id row.priority) fault reply))]) pid
      (.publish rest) := by
  have haccounted : reportedBy pid h =
      issuedBy pid h ++ (row.id :: rest.map Job.id) :=
    hp.accounted.resolve_left nofun
  have hnext : reportedBy pid h =
      (issuedBy pid h ++ [row.id]) ++ rest.map Job.id := by
    rw [haccounted, List.append_assoc]
    rfl
  constructor
  · rw [hp.served_concat nofun]
    have hserved := hp.serves.ne_none nofun
    cases rest <;> exact hserved
  · right
    rw [reportedBy_concat_self, issuedBy_concat_self, remaining_publish]
    simpa [reports, issues] using hnext
  · rw [reportedBy_concat_self, issuedBy_concat_self]
    simp [reports, issues, hnext]
  · rw [hasReported_publish]
    exact nofun
  · rw [reportedBy_concat_self]
    simpa [reports] using hp.nodup
  · rw [hp.served_concat nofun, reportedBy_concat_self]
    simpa [reports] using hp.sweep

/-- A sweep returns no more rows than it selected. -/
theorem length_publications_le (settings : Settings) (t : Jobs) (now : Time)
    (due : List UUID) :
    (publications (.activateSelected now due,
      ((service settings).step t (.activateSelected now due)).2)).length ≤
        due.length := by
  have hnodup := nodup_publications settings t (.activateSelected now due)
  have hsubset : (publications (.activateSelected now due,
      ((service settings).step t (.activateSelected now due)).2)).map Job.id ⊆
        due := by
    cases hreply : ((service settings).step t
        (.activateSelected now due)).2 with
    | error e => simp [publications]
    | ok reply =>
        obtain ⟨rows, hrows, rfl⟩ := answer_eq_ok (execute_of_step_ok hreply)
        obtain ⟨-, rfl⟩ := executeUpdate_eq_ok hrows
        intro id hid
        obtain ⟨row, hrow, rfl⟩ := List.mem_map.mp hid
        obtain ⟨r, hr, rfl⟩ := List.mem_map.mp hrow
        have hp := (KeyedTable.mem_select.mp hr).2
        simp only [Bool.and_eq_true, List.contains_iff_mem] at hp
        rw [activate.key_set]
        exact hp.1
  have hle := (List.subperm_of_subset hnodup hsubset).length_le
  rwa [List.length_map] at hle

theorem Process.Performs.facts {op : Op} (hop : p.Performs op) :
    p.hasReported = false ∧ p ≠ .idle ∧
      ∀ settings t limit, p.Serves (some (.schedulerCycle limit)) →
        (publications (op, ((service settings).step t op).2)).length ≤
          limit := by
  cases p with
  | inserting request key =>
      refine ⟨rfl, nofun, fun settings t limit h => ?_⟩
      obtain ⟨_, _, heq⟩ := h
      cases heq
  | retrying jobId =>
      refine ⟨rfl, nofun, fun settings t limit h => ?_⟩
      cases h
  | locked limit now due =>
      refine ⟨rfl, nofun, fun settings t limit' h => ?_⟩
      rw [show op = _ from hop]
      obtain rfl := Call.schedulerCycle.inj (Option.some.inj h.1)
      exact (length_publications_le settings t now due).trans h.2
  | _ => exact hop.elim

theorem Publisher.report (hp : Publisher h pid p) {op : Op}
    (hop : p.Performs op) (settings : Settings) (t : Jobs) (a : Action) :
    Publisher (h ++ [((pid, a),
      some (.database op ((service settings).step t op).2))]) pid
      (.publish (publications (op, ((service settings).step t op).2))) := by
  obtain ⟨hfresh, hidle, hlimit⟩ := hop.facts
  have hnone := hp.fresh hfresh
  have hnoissue : issuedBy pid h = [] := by
    have hinitial := hp.issued
    rw [hnone] at hinitial
    exact List.prefix_nil.mp hinitial
  have hreported : reportedBy pid (h ++ [((pid, a),
      some (.database op ((service settings).step t op).2))]) =
      (publications (op, ((service settings).step t op).2)).map Job.id := by
    rw [reportedBy_concat_self, hnone]
    rfl
  have hissued : issuedBy pid (h ++ [((pid, a),
      some (.database op ((service settings).step t op).2))]) = [] := by
    rw [issuedBy_concat_self, hnoissue]
    rfl
  constructor
  · rw [hp.served_concat hidle]
    have hserved := hp.serves.ne_none hidle
    cases publications (op, ((service settings).step t op).2) <;>
      exact hserved
  · rw [hreported, hissued, remaining_publish]
    exact Or.inr rfl
  · rw [hissued]
    exact List.nil_prefix
  · rw [hasReported_publish]
    exact nofun
  · rw [hreported]
    exact nodup_publications settings t op
  · rw [hreported, hp.served_concat hidle, List.length_map]
    intro limit hserved
    exact hlimit settings t limit (hserved ▸ hp.serves)

theorem Publisher.act (hp : Publisher h pid p) (settings : Settings)
    (s : Store) (a : Action) :
    Publisher (h ++ [((pid, a), ((deployment settings).act pid s p a).2.2)])
      pid ((deployment settings).act pid s p a).2.1 := by
  simp only [deployment]
  rcases p.next_publishing pid s a with
    ⟨row, rest, fault, rfl, hnext⟩ | ⟨op, hop, hnext⟩ | hsilent
  · rw [hnext]
    exact hp.issue a fault _
  · rw [hnext]
    exact hp.report hop settings s.jobs a
  · obtain ⟨hreports, hissues, hq⟩ := perform_silent hsilent settings pid s
    exact hp.silent hreports hissues hq

end

theorem publisher_after (settings : Settings) (actions : List (ℕ × Action))
    (pid : ℕ) :
    Publisher (historyAfter settings actions) pid
      ((after settings actions).process pid) :=
  (deployment_invariant _ (G := fun _ _ => True)
    (L := fun h _ pid p => Publisher h pid p) trivial publisher_idle
    (fun _ s _ _ a _ _ hp => ⟨trivial, hp.act settings s a⟩)
    (fun _ _ _ _ a _ _ _ _ _ hne hq => hq.other hne a _) actions).2.2 pid

/-! ## Entries and reports -/

theorem entersPending_self (t : Jobs) (id : UUID) :
    entersPending t t id = false := by
  simp [entersPending]

theorem count_reports (settings : Settings) (pid : ℕ) (s : Store)
    (i : Instruction) (id : UUID) :
    ((reports (s.perform settings pid i).2.2).map Job.id).count id =
      (entersPending s.jobs (s.perform settings pid i).1.jobs id).toNat := by
  cases i with
  | database op next =>
      have hcount := countP_publications_step settings s.jobs op id
      rw [List.count, List.countP_map]
      simp only [Function.comp_def, beq_eq_decide]
      exact hcount
  | redis op fault next =>
      cases fault <;>
        simp [Store.perform, Store.send, reports, entersPending_self]
  | _ => simp [Store.perform, Store.unlock, reports, entersPending_self]

theorem find?_of_mem_reports {settings : Settings} {pid : ℕ} {s : Store}
    {i : Instruction} {row : Job}
    (h : row ∈ reports (s.perform settings pid i).2.2) :
    (s.perform settings pid i).1.jobs.find? row.id = some row := by
  cases i with
  | database op next => exact find?_of_mem_publications h
  | _ => simp [Store.perform, reports] at h

def nextEvent (settings : Settings) (actions : List (ℕ × Action))
    (x : ℕ × Action) : Option Event :=
  ((deployment settings).machine.step (after settings actions) x).2

theorem historyAfter_concat (settings : Settings)
    (actions : List (ℕ × Action)) (x : ℕ × Action) :
    historyAfter settings (actions ++ [x]) =
      historyAfter settings actions ++ [(x, nextEvent settings actions x)] :=
  (deployment settings).machine.trace_append initial actions [x]

theorem length_historyAfter (settings : Settings)
    (actions : List (ℕ × Action)) :
    (historyAfter settings actions).length = actions.length :=
  (deployment settings).machine.length_trace initial actions

/-- An entry of a longer history is an entry of the shorter one, or new. -/
theorem getElem?_historyAfter_concat {settings : Settings}
    {actions : List (ℕ × Action)} {x : ℕ × Action} {n : ℕ}
    {y : (ℕ × Action) × Option Event} :
    (historyAfter settings (actions ++ [x]))[n]? = some y ↔
      (historyAfter settings actions)[n]? = some y ∨
        n = actions.length ∧ y = (x, nextEvent settings actions x) := by
  have hlength := length_historyAfter settings actions
  rw [historyAfter_concat]
  by_cases hlt : n < (historyAfter settings actions).length
  · rw [List.getElem?_append_left hlt]
    constructor
    · exact Or.inl
    · rintro (hn | ⟨hn, -⟩)
      · exact hn
      · omega
  · rw [List.getElem?_append_right (not_lt.mp hlt),
      List.getElem?_eq_none (not_lt.mp hlt)]
    by_cases hn : n = actions.length
    · simp [hn, hlength, eq_comm]
    · have hne : n - (historyAfter settings actions).length ≠ 0 := by omega
      simp [hn, hne]

theorem after_concat (settings : Settings) (actions : List (ℕ × Action))
    (x : ℕ × Action) :
    after settings (actions ++ [x]) =
      ((deployment settings).machine.step (after settings actions) x).1 :=
  (deployment settings).machine.run_append initial actions [x]

theorem process_after_concat (settings : Settings)
    (actions : List (ℕ × Action)) (pid : ℕ) (a : Action) :
    (after settings (actions ++ [(pid, a)])).process pid =
      ((deployment settings).act pid (after settings actions).shared
        ((after settings actions).process pid) a).2.1 := by
  rw [after_concat]
  simp [Concurrent.machine]

theorem process_after_other (settings : Settings)
    (actions : List (ℕ × Action)) {pid other : ℕ} (hne : other ≠ pid)
    (a : Action) :
    (after settings (actions ++ [(pid, a)])).process other =
      (after settings actions).process other := by
  rw [after_concat]
  simp [Concurrent.machine, Function.update_of_ne hne]

/-- A process that never acts stays idle. -/
theorem process_of_notMem (settings : Settings)
    {actions : List (ℕ × Action)} {pid : ℕ}
    (h : pid ∉ actions.map Prod.fst) :
    (after settings actions).process pid = .idle :=
  (deployment settings).process_run_of_notMem h

/-- An action reports the jobs that enter `PENDING` by it. -/
theorem count_nextEvent (settings : Settings) (actions : List (ℕ × Action))
    (x : ℕ × Action) (id : UUID) :
    ((reports (nextEvent settings actions x)).map Job.id).count id =
      (entersPending (after settings actions).shared.jobs
        (after settings (actions ++ [x])).shared.jobs id).toNat := by
  rw [after_concat]
  exact count_reports settings x.1 _ _ id

/-- The job enters `PENDING` by the action at position `n` of the run. -/
def entersAt (settings : Settings) (actions : List (ℕ × Action)) (id : UUID)
    (n : ℕ) : Bool :=
  entersPending (after settings (actions.take n)).shared.jobs
    (after settings (actions.take (n + 1))).shared.jobs id

/-- How often a job entered `PENDING` during a run. -/
def timesEntered (settings : Settings) (actions : List (ℕ × Action))
    (id : UUID) : ℕ :=
  (List.range actions.length).countP (entersAt settings actions id)

theorem entersAt_concat_of_lt (settings : Settings)
    {actions : List (ℕ × Action)} {n : ℕ} (hn : n < actions.length)
    (x : ℕ × Action) (id : UUID) :
    entersAt settings (actions ++ [x]) id n =
      entersAt settings actions id n := by
  rw [entersAt, List.take_append_of_le_length (by omega),
    List.take_append_of_le_length (by omega), entersAt]

theorem entersAt_concat_last (settings : Settings)
    (actions : List (ℕ × Action)) (x : ℕ × Action) (id : UUID) :
    entersAt settings (actions ++ [x]) id actions.length =
      entersPending (after settings actions).shared.jobs
        (after settings (actions ++ [x])).shared.jobs id := by
  rw [entersAt, List.take_left, List.take_of_length_le (by simp)]

theorem timesEntered_concat (settings : Settings)
    (actions : List (ℕ × Action)) (x : ℕ × Action) (id : UUID) :
    timesEntered settings (actions ++ [x]) id =
      timesEntered settings actions id +
        (entersPending (after settings actions).shared.jobs
          (after settings (actions ++ [x])).shared.jobs id).toNat := by
  have hinit : ∀ n ∈ List.range actions.length,
      (entersAt settings (actions ++ [x]) id n = true ↔
        entersAt settings actions id n = true) := by
    intro n hn
    rw [entersAt_concat_of_lt settings (List.mem_range.mp hn)]
  rw [timesEntered, List.length_append, List.length_singleton,
    List.range_succ, List.countP_append, List.countP_congr hinit,
    timesEntered, List.countP_singleton, entersAt_concat_last]
  cases entersPending (after settings actions).shared.jobs
    (after settings (actions ++ [x])).shared.jobs id <;> rfl

theorem count_reports_history (settings : Settings)
    (actions : List (ℕ × Action)) (id : UUID) :
    ((historyAfter settings actions).flatMap
        fun x => (reports x.2).map Job.id).count id =
      timesEntered settings actions id := by
  induction actions using List.reverseRecOn with
  | nil => rfl
  | append_singleton actions x ih =>
      rw [historyAfter_concat, List.flatMap_append, List.count_append, ih,
        timesEntered_concat, ← count_nextEvent]
      simp

/-- The enqueues issued for a job, by any process. -/
def enqueuesIssued (id : UUID) (h : History) : ℕ :=
  (h.flatMap fun x => issues x.2).count id

theorem enqueuesIssued_le (settings : Settings)
    (actions : List (ℕ × Action)) (id : UUID) :
    enqueuesIssued id (historyAfter settings actions) ≤
      timesEntered settings actions id := by
  have hall : ∀ x ∈ historyAfter settings actions,
      x.1.1 ∈ ((historyAfter settings actions).map (·.1.1)).toFinset := by
    intro x hx
    rw [List.mem_toFinset]
    exact List.mem_map_of_mem hx
  rw [enqueuesIssued, ← count_reports_history,
    count_flatMap_turnsOf _ id _ hall, count_flatMap_turnsOf _ id _ hall]
  apply Finset.sum_le_sum
  intro pid _
  exact (publisher_after settings actions pid).issued.sublist.count_le id

/-- Outcomes that move no job into `PENDING`: errors, replays, lost races,
recoveries and cancellations. -/
def isUnpublished : Outcome → Bool
  | .error _ => true
  | .ok (.submitted s) => !s.created
  | .ok (.recovered _) => true
  | .ok (.cancelled _) => true
  | _ => false

theorem publications_of_isUnpublished {op : Op} {outcome : Outcome}
    (h : isUnpublished outcome = true) : publications (op, outcome) = [] := by
  unfold publications
  split
  · next s heq =>
      obtain ⟨-, rfl⟩ := Prod.mk.inj heq
      simp_all [isUnpublished, published]
  · next s heq =>
      obtain ⟨-, rfl⟩ := Prod.mk.inj heq
      simp_all [isUnpublished, published]
  · next heq =>
      obtain ⟨-, rfl⟩ := Prod.mk.inj heq
      cases h
  · next heq =>
      obtain ⟨-, rfl⟩ := Prod.mk.inj heq
      cases h
  · next heq =>
      obtain ⟨-, rfl⟩ := Prod.mk.inj heq
      cases h
  · rfl

theorem reportedBy_eq_nil {h : History} {pid : ℕ}
    (hcalls : ∀ x ∈ turnsOf pid h, ∀ call, callOf x.2 = some call →
      isUnpublished call.2 = true) : reportedBy pid h = [] := by
  rw [reportedBy, List.flatMap_eq_nil_iff]
  intro x hx
  unfold reports
  split
  · next op outcome hevent =>
      have hcall : callOf x.2 = some (op, outcome) := by rw [hevent]; rfl
      rw [publications_of_isUnpublished (hcalls x hx _ hcall), List.map_nil]
  · rfl

/-- Exactly one publisher for every entry into `PENDING`, along every
interleaving of submissions, scheduler sweeps, manual retries, recoveries,
cancellations and runners.  The action by which a job enters `PENDING` is a
call that reports the job, with the row it stored, and no other action reports
it.  A process reports a job at most once, a sweep at most its limit of them;
it issues enqueues for what it reported and for nothing else, one for each, in
order, and when it is done it has issued them all.  So no job is enqueued more
often than it entered `PENDING`, and calls that move nothing enqueue
nothing. -/
theorem one_publisher_per_entry (settings : Settings)
    (actions : List (ℕ × Action)) :
    (∀ x id,
      entersPending (after settings actions).shared.jobs
          (after settings (actions ++ [x])).shared.jobs id = true ↔
        id ∈ (reports (nextEvent settings actions x)).map Job.id) ∧
    (∀ x, ∀ row ∈ reports (nextEvent settings actions x),
      (after settings (actions ++ [x])).shared.jobs.find? row.id =
        some row) ∧
    (∀ pid, (reportedBy pid (historyAfter settings actions)).Nodup ∧
      issuedBy pid (historyAfter settings actions) <+:
        reportedBy pid (historyAfter settings actions) ∧
      ((after settings actions).process pid ≠ .crashed →
        reportedBy pid (historyAfter settings actions) =
          issuedBy pid (historyAfter settings actions) ++
            ((after settings actions).process pid).remaining.map Job.id) ∧
      ((after settings actions).process pid = .finished →
        issuedBy pid (historyAfter settings actions) =
          reportedBy pid (historyAfter settings actions)) ∧
      (∀ limit, served pid (historyAfter settings actions) =
          some (.schedulerCycle limit) →
        (reportedBy pid (historyAfter settings actions)).length ≤ limit) ∧
      ((∀ x ∈ turnsOf pid (historyAfter settings actions), ∀ call,
          callOf x.2 = some call → isUnpublished call.2 = true) →
        issuedBy pid (historyAfter settings actions) = [])) ∧
    ∀ id, enqueuesIssued id (historyAfter settings actions) ≤
      timesEntered settings actions id := by
  refine ⟨fun x id => ?_, fun x row hrow => ?_, fun pid => ?_,
    enqueuesIssued_le settings actions⟩
  · rw [← List.count_pos_iff, count_nextEvent]
    cases entersPending (after settings actions).shared.jobs
      (after settings (actions ++ [x])).shared.jobs id <;> simp
  · rw [after_concat]
    exact find?_of_mem_reports hrow
  · have hp := publisher_after settings actions pid
    have haccounted : (after settings actions).process pid ≠ .crashed →
        reportedBy pid (historyAfter settings actions) =
          issuedBy pid (historyAfter settings actions) ++
            ((after settings actions).process pid).remaining.map Job.id :=
      hp.accounted.resolve_left
    refine ⟨hp.nodup, hp.issued, haccounted, ?_, hp.sweep, ?_⟩
    · intro hfinished
      have hall := haccounted (by rw [hfinished]; exact nofun)
      rw [hfinished] at hall
      simpa [Process.remaining] using hall.symm
    · intro hcalls
      have hinitial := hp.issued
      rw [reportedBy_eq_nil hcalls] at hinitial
      exact List.prefix_nil.mp hinitial

end JobQueue
