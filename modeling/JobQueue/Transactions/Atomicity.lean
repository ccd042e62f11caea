import JobQueue.Transactions.Sweeps

/-!
# Transactions are atomic

The machine `transactions` takes every transaction as one step.  Under
PostgreSQL other sessions act between the statement of a transaction and its
commit, and between the statements of a recovery sweep.  The row locks make
the two agree: the transactions that commit, taken one at a time in the order
of their commits, leave the same table and give the same answers.
-/

namespace JobQueue

open Support

/-! ## Transactions one at a time -/

/-- The operation of a transaction that writes. -/
def Transaction.written : Transaction → Option Op
  | .write op => some op
  | .explain _ => none

/-- The transaction as it runs when others have locked the given rows. -/
def Transaction.relocked (locked : List UUID) : Transaction → Transaction
  | .write op => .write (op.relocked locked)
  | .explain op => .explain op

/-- Two answered transactions are the same, whatever rows others had
locked. -/
def SameTransaction (x y : Committed) : Prop :=
  (∃ locked, y.1 = x.1.relocked locked) ∧ y.2 = x.2

theorem Op.exists_relocked_self (op : Op) :
    ∃ locked, op = op.relocked locked := by
  cases op with
  | activateDueScheduledJobs now limit locked => exact ⟨locked, rfl⟩
  | recoverExpiredLeases now limit locked => exact ⟨locked, rfl⟩
  | _ => exact ⟨[], rfl⟩

theorem SameTransaction.refl (x : Committed) : SameTransaction x x := by
  obtain ⟨op | op, answer⟩ := x
  · obtain ⟨locked, hself⟩ := op.exists_relocked_self
    exact ⟨⟨locked, congrArg Transaction.write hself⟩, rfl⟩
  · exact ⟨⟨[], rfl⟩, rfl⟩

/-- Transactions change the table as their writes do. -/
theorem run_transactions (settings : Settings) (t : Jobs)
    (txs : List Transaction) :
    (transactions settings).run t txs =
      (service settings).run t (txs.filterMap Transaction.written) := by
  induction txs generalizing t with
  | nil => rfl
  | cons tx txs ih =>
      rw [Machine.run_cons, ih]
      cases tx with
      | write op => rfl
      | explain op => rfl

/-- Some run of the transactions, one at a time, leaves the table and gives
the answers. -/
def Serial (settings : Settings) (done : List Committed) (t : Jobs) : Prop :=
  ∃ txs, (transactions settings).run KeyedTable.empty txs = t ∧
    List.Forall₂ SameTransaction done
      ((transactions settings).trace KeyedTable.empty txs)

theorem Serial.snoc {settings : Settings} {done : List Committed} {t : Jobs}
    (h : Serial settings done t) {x : Committed} {tx : Transaction}
    (hsame : SameTransaction x (tx, ((transactions settings).step t tx).2)) :
    Serial settings (done ++ [x]) ((transactions settings).step t tx).1 := by
  obtain ⟨txs, rfl, hdone⟩ := h
  refine ⟨txs ++ [tx], Machine.run_append _ _ txs [tx], ?_⟩
  rw [Machine.trace_append]
  exact List.rel_append hdone (.cons hsame .nil)

theorem Serial.wellformed {settings : Settings} {done : List Committed}
    {t : Jobs} (h : Serial settings done t) : Jobs.Wellformed t := by
  obtain ⟨txs, rfl, -⟩ := h
  rw [run_transactions]
  exact tableAfter_wellformed settings _

/-! ## Locks -/

namespace Postgres

def lockedBy (d : Postgres) (pid : ℕ) : List UUID :=
  (d.locks.filter fun lock => lock.1 = pid).map Prod.snd

variable {d : Postgres} {pid other : ℕ} {rows : List UUID} {id : UUID}

theorem mem_lockedByOthers :
    id ∈ d.lockedByOthers pid ↔ ∃ other, other ≠ pid ∧
      id ∈ d.lockedBy other := by
  simp only [lockedByOthers, lockedBy, List.mem_map, List.mem_filter]
  constructor
  · rintro ⟨⟨other, row⟩, ⟨hmem, hother⟩, rfl⟩
    exact ⟨other, by simpa using hother, ⟨other, row⟩, ⟨hmem, by simp⟩, rfl⟩
  · rintro ⟨other, hother, ⟨owner, row⟩, ⟨hmem, howner⟩, rfl⟩
    obtain rfl : owner = other := by simpa using howner
    exact ⟨⟨owner, row⟩, ⟨hmem, by simpa using hother⟩, rfl⟩

@[simp] theorem jobs_lock : (d.lock pid rows).jobs = d.jobs := rfl

@[simp] theorem jobs_unlock : (d.unlock pid).jobs = d.jobs := rfl

theorem lockedBy_lock : (d.lock pid rows).lockedBy pid =
    d.lockedBy pid ++ rows := by
  simp [lockedBy, lock, List.filter_append, List.filter_map,
    Function.comp_def]

theorem lockedBy_lock_of_ne (h : other ≠ pid) :
    (d.lock pid rows).lockedBy other = d.lockedBy other := by
  simp [lockedBy, lock, List.filter_append, List.filter_map,
    Function.comp_def, h.symm]

theorem lockedBy_unlock : (d.unlock pid).lockedBy pid = [] := by
  simp [lockedBy, unlock, List.filter_filter]

theorem lockedBy_unlock_of_ne (h : other ≠ pid) :
    (d.unlock pid).lockedBy other = d.lockedBy other := by
  rw [lockedBy, lockedBy, unlock, List.filter_filter]
  congr 1
  refine List.filter_congr fun lock _ => ?_
  by_cases howner : lock.1 = other
  · simp [howner, h]
  · simp [howner]

def Exclusive (d : Postgres) : Prop :=
  ∀ pid other, pid ≠ other → ∀ id ∈ d.lockedBy pid, id ∉ d.lockedBy other

theorem Exclusive.lock (h : d.Exclusive)
    (hfree : ∀ id ∈ rows, id ∉ d.lockedByOthers pid) :
    (d.lock pid rows).Exclusive := by
  have hnot : ∀ other, other ≠ pid → ∀ id ∈ rows, id ∉ d.lockedBy other :=
    fun other hother id hid hmem =>
      hfree id hid (mem_lockedByOthers.mpr ⟨other, hother, hmem⟩)
  intro p q hne id hp hq
  by_cases hppid : p = pid
  · subst hppid
    rw [lockedBy_lock] at hp
    rw [lockedBy_lock_of_ne hne.symm] at hq
    rcases List.mem_append.mp hp with hp | hp
    · exact h p q hne id hp hq
    · exact hnot q hne.symm id hp hq
  · rw [lockedBy_lock_of_ne hppid] at hp
    by_cases hqpid : q = pid
    · subst hqpid
      rw [lockedBy_lock] at hq
      rcases List.mem_append.mp hq with hq | hq
      · exact h p q hne id hp hq
      · exact hnot p hppid id hq hp
    · rw [lockedBy_lock_of_ne hqpid] at hq
      exact h p q hne id hp hq

theorem Exclusive.unlock (h : d.Exclusive) : (d.unlock pid).Exclusive := by
  have hsub : ∀ p id, id ∈ (d.unlock pid).lockedBy p → id ∈ d.lockedBy p := by
    intro p id hid
    by_cases hp : p = pid
    · subst hp
      rw [lockedBy_unlock] at hid
      cases hid
    · rwa [lockedBy_unlock_of_ne hp] at hid
  exact fun p q hne id hp hq => h p q hne id (hsub p id hp) (hsub q id hq)

end Postgres

/-! ## The invariant -/

/-- What is true of a session between any two steps. -/
def Session.Sound (settings : Settings) (d : Postgres) (pid : ℕ) :
    Session → Prop
  | .idle => d.lockedBy pid = []
  | .explaining _ => d.lockedBy pid = []
  | .executed op written outcome =>
      d.lockedBy pid = written.map Job.id ∧ written ≠ [] ∧
        Writes settings d.jobs op written outcome
  | .sweeping s => d.lockedBy pid = s.expired.map Job.id ∧ s.Sound d.jobs
  | .raised _ => False

/-- What is true of the database, after the committed transactions. -/
structure Postgres.Sound (settings : Settings) (done : List Committed)
    (d : Postgres) : Prop where
  serial : Serial settings done d.jobs
  exclusive : d.Exclusive

/-- A session is not disturbed by a step that leaves its locked rows. -/
theorem Session.Sound.moved {settings : Settings} {d d' : Postgres} {pid : ℕ}
    {session : Session} (h : session.Sound settings d pid)
    (hlocks : d'.lockedBy pid = d.lockedBy pid)
    (hmoves : KeyedTable.MovesAround (d.lockedBy pid) d.jobs d'.jobs) :
    session.Sound settings d' pid := by
  cases session with
  | idle => exact hlocks.trans h
  | explaining op => exact hlocks.trans h
  | executed op written outcome =>
      obtain ⟨hheld, hsome, hwrites⟩ := h
      rw [hheld] at hmoves hlocks
      exact ⟨hlocks, hsome, hwrites.moved hmoves⟩
  | sweeping s =>
      obtain ⟨hheld, hsound⟩ := h
      rw [hheld] at hmoves hlocks
      exact ⟨hlocks, hsound.moved hmoves⟩
  | raised e => exact h

/-- What one step of a session does: it keeps the invariant, establishes its
own part of it anew, and leaves the rows others have locked. -/
structure StepSound (settings : Settings) (pid : ℕ) (done : List Committed)
    (d : Postgres) (x : Postgres × Session × Option Committed) : Prop where
  database : x.1.Sound settings (done ++ x.2.2.toList)
  session : x.2.1.Sound settings x.1 pid
  locks : ∀ other, other ≠ pid → x.1.lockedBy other = d.lockedBy other
  moves : ∀ other, other ≠ pid →
    KeyedTable.MovesAround (d.lockedBy other) d.jobs x.1.jobs

section Steps

variable {settings : Settings} {pid : ℕ} {done : List Committed}
  {d : Postgres}

theorem stay_sound {session : Session} (hd : d.Sound settings done)
    (hsession : session.Sound settings d pid) :
    StepSound settings pid done d (d, session, none) where
  database := by simpa using hd
  session := hsession
  locks _ _ := rfl
  moves _ _ := KeyedTable.MovesAround.refl _ _

theorem rollback_sound (hd : d.Sound settings done) :
    StepSound settings pid done d (d.unlock pid, .idle, none) where
  database := by
    refine ⟨?_, hd.exclusive.unlock⟩
    simpa using hd.serial
  session := Postgres.lockedBy_unlock
  locks _ hother := Postgres.lockedBy_unlock_of_ne hother
  moves _ _ := KeyedTable.MovesAround.refl _ _

theorem commit_sound {call : Op × Outcome} {written : List Job}
    (hd : d.Sound settings done)
    (hheld : ∀ id ∈ written.map Job.id, id ∈ d.lockedBy pid)
    (hmatched : call.1.isUnmatched d.jobs = false)
    (hcall : ∃ locked,
      (service settings).step d.jobs (call.1.relocked locked) =
        (d.jobs.overwrite written, call.2)) :
    StepSound settings pid done d
      (d.commit pid written, .idle, some (answered call)) := by
  obtain ⟨locked, hstep⟩ := hcall
  have hwrite : (transactions settings).step d.jobs
      (.write (call.1.relocked locked)) =
      (d.jobs.overwrite written, some call.2) := by
    simp [transactions, hstep, Op.isUnmatched_relocked, hmatched]
  have hsame : SameTransaction (answered call)
      (.write (call.1.relocked locked), ((transactions settings).step d.jobs
        (.write (call.1.relocked locked))).2) :=
    ⟨⟨locked, rfl⟩, by rw [hwrite]; rfl⟩
  have hserial := hd.serial.snoc hsame
  rw [hwrite] at hserial
  refine ⟨⟨hserial, hd.exclusive.unlock⟩, Postgres.lockedBy_unlock,
    fun other hother => Postgres.lockedBy_unlock_of_ne hother,
    fun other hother => ?_⟩
  exact KeyedTable.movesAround_overwrite _ fun id hid hmem =>
    hd.exclusive other pid hother id hid (hheld id hmem)

/-- An operation that still writes the rows it has written still matches. -/
theorem Writes.matched {op : Op} {written : List Job} {outcome : Outcome}
    {t : Jobs} (h : Writes settings t op written outcome)
    (hsome : written ≠ []) : op.isUnmatched t = false := by
  by_contra hne
  have hunmatched : op.isUnmatched t = true := by simpa using hne
  obtain ⟨locked, hagain⟩ := h.again t (KeyedTable.MovesAround.refl _ t)
  have hself : op.relocked locked = op := by
    cases op <;> first | rfl | cases hunmatched
  obtain ⟨outcome', hstep, -, hnone⟩ :=
    @step_of_unmatched settings _ _ hunmatched
  rw [hself, hstep] at hagain
  obtain rfl : outcome' = outcome := congrArg Prod.snd hagain
  rw [h.ids, List.map_eq_nil_iff] at hnone
  exact hsome hnone

/-- An `UPDATE` that matches nothing is a transaction that changes nothing. -/
theorem unmatched_sound {op : Op} (hd : d.Sound settings done)
    (hidle : d.lockedBy pid = []) (hunmatched : op.isUnmatched d.jobs = true) :
    StepSound settings pid done d
      (d, .explaining op, some (.write op, none)) := by
  obtain ⟨outcome, hstep, -⟩ := @step_of_unmatched settings _ _ hunmatched
  have hserial := hd.serial.snoc (SameTransaction.refl (.write op, _))
  simp only [transactions, hstep, if_pos hunmatched] at hserial
  exact ⟨⟨hserial, hd.exclusive⟩, hidle, fun _ _ => rfl,
    fun _ _ => KeyedTable.MovesAround.refl _ _⟩

/-- An operation that is answered at once leaves the rows others have
locked. -/
theorem answered_sound {op : Op} (hd : d.Sound settings done)
    (hop : (op.isUpdate || op.submits) = true) (hidle : d.lockedBy pid = [])
    (hmatched : op.isUnmatched d.jobs = false)
    (hfree : ∀ id ∈ writtenIds settings op
      ((service settings).step d.jobs op).2, id ∉ d.lockedByOthers pid) :
    StepSound settings pid done d
      ({ d with jobs := ((service settings).step d.jobs op).1 }, .idle,
        some (answered (op, ((service settings).step d.jobs op).2))) := by
  have hserial := hd.serial.snoc (SameTransaction.refl (.write op, _))
  simp only [transactions, hmatched] at hserial
  refine ⟨⟨hserial, hd.exclusive⟩, hidle, fun _ _ => rfl,
    fun other hother => ⟨?_, fun id hid => ?_⟩⟩
  · by_cases hsubmits : op.submits = true
    · exact submits_extends hsubmits
    · have hupdate : op.isUpdate = true := by simpa [hsubmits] using hop
      rcases @update_writes settings d.jobs op hupdate with
        ⟨hsame, -⟩ | ⟨written, hwritten, -⟩
      · rw [hsame]
        exact KeyedTable.Extends.refl _
      · rw [hwritten]
        exact KeyedTable.extends_of_keys (KeyedTable.keys_overwrite _ _)
  · exact find?_step_of_notWritten fun hmem => hfree id hmem
      (Postgres.mem_lockedByOthers.mpr ⟨other, hother, hid⟩)

/-- An update that has executed locks the rows it has written. -/
theorem executed_sound {op : Op} (hd : d.Sound settings done)
    (hop : op.isUpdate = true) (hidle : d.lockedBy pid = [])
    (hsome : writtenIds settings op ((service settings).step d.jobs op).2 ≠
      [])
    (hfree : ∀ id ∈ writtenIds settings op
      ((service settings).step d.jobs op).2, id ∉ d.lockedByOthers pid) :
    StepSound settings pid done d
      (d.lock pid (writtenIds settings op
          ((service settings).step d.jobs op).2),
        .executed op ((writtenIds settings op
          ((service settings).step d.jobs op).2).filterMap
          ((service settings).step d.jobs op).1.find?)
          ((service settings).step d.jobs op).2, none) := by
  rcases @update_writes settings d.jobs op hop with
    ⟨-, hnone⟩ | ⟨written, hwritten, hwrites⟩
  · exact absurd hnone hsome
  · have hversions : (writtenIds settings op
        ((service settings).step d.jobs op).2).filterMap
        ((service settings).step d.jobs op).1.find? = written := by
      rw [hwrites.ids, hwritten]
      exact KeyedTable.filterMap_find?_overwrite hwrites.nodup hwrites.rows
    rw [hversions]
    have hrows : written ≠ [] := by
      rintro rfl
      exact hsome hwrites.ids
    refine ⟨⟨?_, hd.exclusive.lock hfree⟩, ⟨?_, hrows, hwrites⟩,
      fun other hother => Postgres.lockedBy_lock_of_ne hother,
      fun _ _ => KeyedTable.MovesAround.refl _ _⟩
    · simpa using hd.serial
    · rw [Postgres.lockedBy_lock, hidle, List.nil_append, hwrites.ids]

/-- A statement waits, ends its transaction, or keeps its versions to itself
until the commit. -/
theorem execute_sound {op : Op} (hd : d.Sound settings done)
    (hop : (op.isUpdate || op.submits) = true)
    (hidle : d.lockedBy pid = []) :
    StepSound settings pid done d (Session.execute settings pid d op) := by
  unfold Session.execute
  dsimp only
  split
  · exact stay_sound hd hidle
  · next hwaits =>
      have hfree : ∀ id ∈ writtenIds settings op
          ((service settings).step d.jobs op).2,
          id ∉ d.lockedByOthers pid := by
        intro id hid hmem
        exact hwaits (List.any_eq_true.mpr
          ⟨id, hid, List.contains_iff_mem.mpr hmem⟩)
      split
      · next hunmatched => exact unmatched_sound hd hidle hunmatched
      · next hmatched =>
          split
          · exact answered_sound hd hop hidle (by simpa using hmatched) hfree
          · next hlater =>
              rw [Bool.or_eq_true, not_or] at hlater
              have hupdate : op.isUpdate = true := by
                simpa [hlater.1] using hop
              refine executed_sound hd hupdate hidle (fun hnone => ?_) hfree
              exact hlater.2 (List.isEmpty_iff.mpr hnone)

/-- A sweep selects rows that nobody has locked, and locks them. -/
theorem selectExpired_sound (hd : d.Sound settings done)
    (hidle : d.lockedBy pid = []) (now : Time) (limit : ℕ) :
    StepSound settings pid done d
      (Session.next settings pid d .idle (.selectExpired now limit)) := by
  have hfree : ∀ id ∈ (selectExpired d.jobs now limit
      (d.lockedByOthers pid)).map Job.id, id ∉ d.lockedByOthers pid := by
    intro id hid hmem
    obtain ⟨job, hjob, rfl⟩ := List.mem_map.mp hid
    have hselected := (KeyedTable.mem_selectOrdered hjob).2
    rw [List.contains_iff_mem.mpr hmem] at hselected
    simp at hselected
  refine ⟨⟨?_, hd.exclusive.lock hfree⟩, ⟨?_, Sweep.sound_of_select _ _ _ _⟩,
    fun other hother => Postgres.lockedBy_lock_of_ne hother,
    fun _ _ => KeyedTable.MovesAround.refl _ _⟩
  · simpa [Session.next] using hd.serial
  · exact Postgres.lockedBy_lock.trans (by rw [hidle]; rfl)

theorem recoveredRows_held {t : Jobs} {s : Sweep} (h : s.Sound t) :
    ∀ id ∈ s.written.map Job.id, id ∈ s.expired.map Job.id := by
  intro id hid
  obtain ⟨done, hexpired, hall⟩ := h.settled
  rw [h.written, mem_recoveredRows, recovers_ids hall] at hid
  rw [hexpired, List.map_append]
  exact List.mem_append_left _ hid

/-! ### The steps in order -/

theorem next_sound_idle (hd : d.Sound settings done)
    (hidle : d.lockedBy pid = []) (statement : Statement) :
    StepSound settings pid done d
      (Session.next settings pid d .idle statement) := by
  have hstay : StepSound settings pid done d (d, .idle, none) :=
    stay_sound hd hidle
  cases statement with
  | execute op =>
      dsimp only [Session.next]
      split
      · next hop =>
          refine execute_sound hd ?_ hidle
          cases op <;> exact hop
      · exact hstay
  | selectExpired now limit => exact selectExpired_sound hd hidle now limit
  | crash => exact rollback_sound hd
  | _ => exact hstay

theorem next_sound_explaining {op : Op} (hd : d.Sound settings done)
    (hidle : d.lockedBy pid = []) (statement : Statement) :
    StepSound settings pid done d
      (Session.next settings pid d (.explaining op) statement) := by
  have hstay : StepSound settings pid done d (d, .explaining op, none) :=
    stay_sound hd hidle
  cases statement with
  | explain =>
      have hserial := hd.serial.snoc
        (SameTransaction.refl (.explain op, op.explanation d.jobs))
      exact ⟨⟨hserial, hd.exclusive⟩, hidle, fun _ _ => rfl,
        fun _ _ => KeyedTable.MovesAround.refl _ _⟩
  | crash => exact rollback_sound hd
  | _ => exact hstay

theorem next_sound_executed {op : Op} {written : List Job}
    {outcome : Outcome} (hd : d.Sound settings done)
    (hsession : (Session.executed op written outcome).Sound settings d pid)
    (statement : Statement) :
    StepSound settings pid done d (Session.next settings pid d
      (.executed op written outcome) statement) := by
  have hstay : StepSound settings pid done d
      (d, .executed op written outcome, none) := stay_sound hd hsession
  obtain ⟨hheld, hsome, hwrites⟩ := hsession
  cases statement with
  | commit =>
      exact commit_sound hd (fun id hid => hheld ▸ hid)
        (hwrites.matched hsome)
        (hwrites.again d.jobs (KeyedTable.MovesAround.refl _ _))
  | crash => exact rollback_sound hd
  | _ => exact hstay

/-- A sweep never raises, so it gets to its commit. -/
theorem next_sound_sweeping {s : Sweep} (hd : d.Sound settings done)
    (hsession : (Session.sweeping s).Sound settings d pid)
    (statement : Statement) :
    StepSound settings pid done d
      (Session.next settings pid d (.sweeping s) statement) := by
  have hstay : StepSound settings pid done d (d, .sweeping s, none) :=
    stay_sound hd hsession
  have hwf := hd.serial.wellformed
  obtain ⟨hheld, hsound⟩ := hsession
  cases statement with
  | settle =>
      obtain ⟨s', hsettle, hsound', hexpired, -⟩ := hsound.settle hwf
      simp only [Session.next, hsettle]
      exact stay_sound hd ⟨hheld.trans (by rw [hexpired]), hsound'⟩
  | commit =>
      dsimp only [Session.next]
      split
      · next hdone =>
          refine commit_sound hd (fun id hid => ?_) rfl
            (hsound.commit hwf (List.isEmpty_iff.mp hdone))
          rw [hheld]
          exact recoveredRows_held hsound id hid
      · exact hstay
  | crash => exact rollback_sound hd
  | _ => exact hstay

/-- Every step of every session. -/
theorem next_sound {session : Session} (hd : d.Sound settings done)
    (hsession : session.Sound settings d pid) (statement : Statement) :
    StepSound settings pid done d
      (session.next settings pid d statement) := by
  cases session with
  | idle => exact next_sound_idle hd hsession statement
  | explaining op => exact next_sound_explaining hd hsession statement
  | executed op written outcome =>
      exact next_sound_executed hd hsession statement
  | sweeping s => exact next_sound_sweeping hd hsession statement
  | raised e => exact hsession.elim

end Steps

/-- After every run the database holds what the committed transactions make of
it, one at a time, and every session is sound. -/
theorem sessions_sound (settings : Settings)
    (statements : List (ℕ × Statement)) :
    (sessionsAfter settings statements).shared.Sound settings
        (committedAfter settings statements) ∧
      ∀ pid, ((sessionsAfter settings statements).process pid).Sound settings
        (sessionsAfter settings statements).shared pid := by
  have hcommitted : ∀ h i (o : Option Committed),
      committedIn (h ++ [(i, o)]) = committedIn h ++ o.toList := by
    intro h i o
    rw [committedIn, List.filterMap_append]
    cases o <;> rfl
  refine (sessions settings).run_invariant
    (G := fun h d => d.Sound settings (committedIn h))
    (L := fun _ d pid session => session.Sound settings d pid)
    ⟨⟨[], rfl, .nil⟩, fun _ _ _ id hid => ?_⟩ (fun pid => ?_)
    (fun h d pid session statement hd hsession => ?_)
    (fun h d pid session statement other _ hd hsession hne hother => ?_)
    statements
  · cases hid
  · rfl
  · have hstep := next_sound hd hsession statement
    rw [hcommitted]
    exact ⟨hstep.database, hstep.session⟩
  · have hstep := next_sound hd hsession statement
    exact hother.moved (hstep.locks other hne) (hstep.moves other hne)

/-- Any interleaving of the statements, commits and crashes of any number of
sessions leaves the table, and has given the answers, of the committed
transactions taken one at a time in the order of their commits.  The table is
one of the service. -/
theorem transactions_are_atomic (settings : Settings)
    (statements : List (ℕ × Statement)) :
    ∃ txs, (transactions settings).run KeyedTable.empty txs =
        (sessionsAfter settings statements).shared.jobs ∧
      List.Forall₂ SameTransaction (committedAfter settings statements)
        ((transactions settings).trace KeyedTable.empty txs) ∧
      tableAfter settings (txs.filterMap Transaction.written) =
        (sessionsAfter settings statements).shared.jobs := by
  obtain ⟨txs, hrun, hdone⟩ := (sessions_sound settings statements).1.serial
  exact ⟨txs, hrun, hdone, (run_transactions settings _ txs).symm.trans hrun⟩

/-- In every interleaving no sweep raises, no two open sweeps have selected
the same row, and every row that a sweep has come to is settled as it was when
the sweep selected it. -/
theorem open_sweeps_are_disjoint_and_total (settings : Settings)
    (statements : List (ℕ × Statement)) (pid : ℕ) :
    (∀ e, (sessionsAfter settings statements).process pid ≠ .raised e) ∧
    ∀ s, (sessionsAfter settings statements).process pid = .sweeping s →
      (∃ done, s.expired = done ++ s.remaining ∧
        List.Forall₂ (Recovers s.now) done s.recovered) ∧
      (∀ job ∈ s.expired,
        (sessionsAfter settings statements).shared.jobs.find? job.id =
          some job) ∧
      ∀ other s', other ≠ pid →
        (sessionsAfter settings statements).process other = .sweeping s' →
        ∀ job ∈ s.expired, ∀ job' ∈ s'.expired, job.id ≠ job'.id := by
  obtain ⟨hd, hsessions⟩ := sessions_sound settings statements
  refine ⟨fun e he => ?_, fun s hs => ?_⟩
  · have hsound := hsessions pid
    rw [he] at hsound
    exact hsound
  · have hsound := hsessions pid
    rw [hs] at hsound
    obtain ⟨hheld, hsound⟩ := hsound
    refine ⟨hsound.settled, fun job hjob => (hsound.expired job hjob).row, ?_⟩
    intro other s' hne hs' job hjob job' hjob' hid
    have hother := hsessions other
    rw [hs'] at hother
    refine hd.exclusive other pid hne job'.id ?_ ?_
    · rw [hother.1]
      exact List.mem_map_of_mem hjob'
    · rw [hheld, ← hid]
      exact List.mem_map_of_mem hjob

/-! ## No deadlock -/

theorem sessionsAfter_append (settings : Settings)
    (statements more : List (ℕ × Statement)) :
    sessionsAfter settings (statements ++ more) =
      (sessions settings).machine.run (sessionsAfter settings statements)
        more :=
  (sessions settings).machine.run_append _ statements more

/-- The statements by which transactions and calls finish. -/
def Statement.Finishes (statement : Statement) : Prop :=
  statement = .settle ∨ statement = .commit ∨ statement = .explain

/-- An open sweep can settle its remaining rows and commit. -/
theorem finish_sweep (settings : Settings) (pid : ℕ) (remaining : List Job)
    (statements : List (ℕ × Statement)) (s : Sweep)
    (hs : (sessionsAfter settings statements).process pid = .sweeping s)
    (hremaining : s.remaining = remaining) :
    ∃ more, (∀ x ∈ more, x.1 = pid ∧ x.2.Finishes) ∧
      (sessionsAfter settings (statements ++ more)).process pid = .idle := by
  induction remaining generalizing statements s with
  | nil =>
      refine ⟨[(pid, .commit)], ?_, ?_⟩
      · simp [Statement.Finishes]
      · rw [sessionsAfter_append]
        simp [sessions, Concurrent.machine, hs, Session.next, hremaining]
  | cons job rest ih =>
      obtain ⟨hd, hsessions⟩ := sessions_sound settings statements
      have hsound := hsessions pid
      rw [hs] at hsound
      obtain ⟨s', hsettle, -, -, htail⟩ :=
        hsound.2.settle hd.serial.wellformed
      have hnext : (sessionsAfter settings
          (statements ++ [(pid, .settle)])).process pid = .sweeping s' := by
        rw [sessionsAfter_append]
        simp [sessions, Concurrent.machine, hs, Session.next, hsettle]
      obtain ⟨more, hmore, hidle⟩ := ih _ s' hnext
        (by rw [htail, hremaining, List.tail_cons])
      refine ⟨(pid, .settle) :: more, fun x hx => ?_, ?_⟩
      · rcases List.mem_cons.mp hx with rfl | hx
        · exact ⟨rfl, Or.inl rfl⟩
        · exact hmore x hx
      · rw [List.append_assoc] at hidle
        exact hidle

/-- An open transaction can commit, however the others stand. -/
theorem finish_session (settings : Settings) (pid : ℕ)
    (statements : List (ℕ × Statement)) :
    ∃ more, (∀ x ∈ more, x.1 = pid ∧ x.2.Finishes) ∧
      (sessionsAfter settings (statements ++ more)).process pid = .idle := by
  cases hs : (sessionsAfter settings statements).process pid with
  | idle => exact ⟨[], by simp, by simpa using hs⟩
  | explaining op =>
      refine ⟨[(pid, .explain)], ?_, ?_⟩
      · simp [Statement.Finishes]
      · rw [sessionsAfter_append]
        simp [sessions, Concurrent.machine, hs, Session.next]
  | executed op written outcome =>
      refine ⟨[(pid, .commit)], ?_, ?_⟩
      · simp [Statement.Finishes]
      · rw [sessionsAfter_append]
        simp [sessions, Concurrent.machine, hs, Session.next]
  | sweeping s => exact finish_sweep settings pid _ statements s hs rfl
  | raised e =>
      have hsound := (sessions_sound settings statements).2 pid
      rw [hs] at hsound
      exact hsound.elim

/-- So can any number of them, one after the other. -/
theorem finish_sessions (settings : Settings) (pids : List ℕ)
    (statements : List (ℕ × Statement)) :
    ∃ more, (∀ x ∈ more, x.1 ∈ pids ∧ x.2.Finishes) ∧ ∀ pid ∈ pids,
      (sessionsAfter settings (statements ++ more)).process pid = .idle := by
  induction pids with
  | nil => exact ⟨[], by simp, by simp⟩
  | cons pid pids ih =>
      obtain ⟨first, hfirst, hidle⟩ := ih
      obtain ⟨last, hlast, hidle'⟩ :=
        finish_session settings pid (statements ++ first)
      refine ⟨first ++ last, fun x hx => ?_, fun other hother => ?_⟩
      · rcases List.mem_append.mp hx with hx | hx
        · exact ⟨List.mem_cons_of_mem _ (hfirst x hx).1, (hfirst x hx).2⟩
        · exact ⟨by simp [(hlast x hx).1], (hlast x hx).2⟩
      · rw [← List.append_assoc]
        by_cases hpid : other = pid
        · exact hpid ▸ hidle'
        · rw [sessionsAfter_append,
            (sessions settings).process_run_of_notMem]
          · exact hidle other (by simpa [hpid] using hother)
          · intro hmem
            obtain ⟨x, hx, hacts⟩ := List.mem_map.mp hmem
            exact hpid (hacts.symm.trans (hlast x hx).1)

/-- From every state the open transactions can finish by their own remaining
statements: then no row is locked, and no statement has to wait.  So no wait
is part of a deadlock. -/
theorem open_transactions_can_finish (settings : Settings)
    (statements : List (ℕ × Statement)) :
    ∃ more, (∀ x ∈ more, x.2.Finishes) ∧ ∀ pid,
      (sessionsAfter settings (statements ++ more)).process pid = .idle ∧
      (sessionsAfter settings (statements ++ more)).shared.lockedByOthers
        pid = [] := by
  obtain ⟨more, hmore, hidle⟩ :=
    finish_sessions settings (statements.map Prod.fst) statements
  have hall : ∀ pid,
      (sessionsAfter settings (statements ++ more)).process pid = .idle := by
    intro pid
    by_cases hpid : pid ∈ statements.map Prod.fst
    · exact hidle pid hpid
    · refine (sessions settings).process_run_of_notMem
        (c := emptyDatabase) fun hmem => ?_
      rw [List.map_append, List.mem_append] at hmem
      rcases hmem with hmem | hmem
      · exact hpid hmem
      · obtain ⟨x, hx, hacts⟩ := List.mem_map.mp hmem
        exact hpid (hacts ▸ (hmore x hx).1)
  refine ⟨more, fun x hx => (hmore x hx).2, fun pid => ⟨hall pid, ?_⟩⟩
  refine List.eq_nil_iff_forall_not_mem.mpr fun id hid => ?_
  obtain ⟨other, -, hheld⟩ := Postgres.mem_lockedByOthers.mp hid
  have hsound := (sessions_sound settings (statements ++ more)).2 other
  rw [hall other] at hsound
  have hnone : (sessionsAfter settings (statements ++ more)).shared.lockedBy
      other = [] := hsound
  rw [hnone] at hheld
  cases hheld

end JobQueue
