import JobQueue.Lifecycle.Transitions
import JobQueue.Support.Concurrent

/-!
# Concurrent submissions under one key

`create_job` with an idempotency key as its real steps.  A call reads the clock
and looks the key up; then, in one transaction, it detaches an expired holder,
builds its job and inserts the row; it commits, or rolls back on a conflict and
reloads the winner.  A body that no job can be built from ends the call and its
transaction.  An update waits for a transaction that has the row locked, and an
insert waits for a transaction that has inserted a row under the key or
detached its holder.  Waiting is a step that changes nothing.
-/

namespace JobQueue

open Support

/-! ## The machine -/

/-- What the calls share: the committed table, the clock all API processes
read, and the uncommitted detachments and rows of the open transactions. -/
structure Database where
  jobs : Jobs
  clock : Time
  released : List (ℕ × UUID)
  inserted : List (ℕ × Job)

/-- Where a call of `create_job` is.  A clock reading stands between the
statement that made it and the statement that uses it. -/
inductive Submission
  | idle
  | lookingUp (request : JobCreateRequest) (now : Time)
  | notFound (request : JobCreateRequest)
  | releasing (request : JobCreateRequest) (now : Time)
  | released (request : JobCreateRequest)
  | flushing (row : Job)
  | inserted (row : Job)
  | conflicted (error : ServiceError)
  | reloading (error : ServiceError) (now : Time)
  | returned (job : Job) (created : Bool)
  | raised (error : ServiceError)
deriving DecidableEq

/-- What may happen: a call begins, goes on, or builds its job with a fresh
id; time passes; or the rest of the system operates on the jobs. -/
inductive SubmitAction
  | start (request : JobCreateRequest)
  | go
  | build (id : UUID) (createdAt : Time)
  | tick (now : Time)
  | other (op : Op)

/-- The operation is not a submission under the key. -/
def Op.spares (key : String) : Op → Bool
  | .createJob _ _ _ k => k ≠ some key
  | .insertJob _ _ _ k => k ≠ some key
  | .releaseExpiredKey k _ => k ≠ key
  | _ => true

namespace Database

/-- The table as an open transaction sees it. -/
def view (d : Database) (pid : ℕ) : Jobs :=
  d.jobs.updateWhere (fun r => (pid, r.id) ∈ d.released) releaseKey

def close (d : Database) (pid : ℕ) : Database :=
  { d with
    released := d.released.filter fun x => x.1 ≠ pid
    inserted := d.inserted.filter fun x => x.1 ≠ pid }

/-- Another transaction has locked one of the rows. -/
def isLocked (d : Database) (pid : ℕ) (rows : List Job) : Bool :=
  rows.any fun r => d.released.any fun x => x.1 ≠ pid && x.2 = r.id

/-- Another transaction has touched the unique index under the key. -/
def isContended (d : Database) (pid : ℕ) : Bool :=
  d.inserted.any (·.1 ≠ pid) || d.released.any (·.1 ≠ pid)

/-- The `UPDATE` of `_release_expired_key`, uncommitted. -/
def release (d : Database) (pid : ℕ) (rows : List Job) : Database :=
  { d with released := d.released ++ rows.map fun r => (pid, r.id) }

/-- The `INSERT` of the flush: refused by the constraints, or uncommitted. -/
def flush (d : Database) (pid : ℕ) (row : Job) : Database × Submission :=
  match executeInsert (d.view pid) row with
  | .ok _ => ({ d with inserted := d.inserted ++ [(pid, row)] }, .inserted row)
  | .error e =>
      (d.close pid, if isIdempotencyConflict e then .conflicted e else .raised e)

/-- The commit makes the detachments and the row of the transaction visible.
The flush has entered the row into the indexes, so it is not refused again. -/
def commit (d : Database) (pid : ℕ) (row : Job) :
    Database × Submission × Option Job :=
  match executeInsert (d.view pid) row with
  | .ok jobs => ({ d.close pid with jobs := jobs }, .returned row true, some row)
  | .error e => (d.close pid, .raised e, none)

end Database

/-- One step of a call; the output is the row it committed. -/
def Submission.next (key : String) (pid : ℕ) (d : Database) :
    Submission → SubmitAction → Database × Submission × Option Job
  | .idle, .start request => (d, .lookingUp request d.clock, none)
  | .lookingUp request now, .go =>
      match findActiveByKey d.jobs key now with
      | some existing => (d, .returned existing false, none)
      | none => (d, .notFound request, none)
  | .notFound request, .go => (d, .releasing request d.clock, none)
  | .releasing request now, .go =>
      let rows := d.jobs.select (isExpiredHolder key now)
      if d.isLocked pid rows then (d, .releasing request now, none)
      else (d.release pid rows, .released request, none)
  | .released request, .build id createdAt =>
      match buildJob request (some key) d.clock createdAt id with
      | .ok row => (d, .flushing row, none)
      | .error e => (d.close pid, .raised e, none)
  | .flushing row, .go =>
      if d.isContended pid then (d, .flushing row, none)
      else ((d.flush pid row).1, (d.flush pid row).2, none)
  | .inserted row, .go => d.commit pid row
  | .conflicted e, .go => (d, .reloading e d.clock, none)
  | .reloading e now, .go =>
      match findActiveByKey d.jobs key now with
      | some winner => (d, .returned winner false, none)
      | none => (d, .raised e, none)
  | p, _ => (d, p, none)

/-- Any number of submissions under one key, with the clock and the rest of
the system. -/
def submissions (settings : Settings) (key : String) :
    Concurrent Database Submission SubmitAction (Option Job) where
  act pid d p a :=
    match a with
    | .tick now => ({ d with clock := max d.clock now }, p, none)
    | .other op =>
        if op.spares key then
          ({ d with jobs := ((service settings).step d.jobs op).1 }, p, none)
        else (d, p, none)
    | a => p.next key pid d a

def quiescent (t : Jobs) (now : Time) : Configuration Database Submission where
  shared := ⟨t, now, [], []⟩
  process _ := .idle

/-! ## Who holds the key -/

/-- The expiry under which a row holds the key, if it holds it. -/
def Job.heldUntil (key : String) (r : Job) : Option (Option Time) :=
  if r.idempotencyKey = some key then some r.idempotencyExpiresAt else none

def held (key : String) (t : Jobs) (id : UUID) : Option (Option Time) :=
  (t.find? id).bind (Job.heldUntil key)

theorem heldUntil_eq_some_iff {key : String} {r : Job} {x : Option Time} :
    r.heldUntil key = some x ↔
      r.idempotencyKey = some key ∧ r.idempotencyExpiresAt = x := by
  unfold Job.heldUntil
  split
  · next hkey => simp [hkey]
  · next hkey => simp [hkey]

theorem held_eq_some_iff {key : String} {t : Jobs} {id : UUID}
    {x : Option Time} :
    held key t id = some x ↔
      ∃ r, t.find? id = some r ∧ r.heldUntil key = some x :=
  Option.bind_eq_some_iff

theorem held_of_mem {key : String} {t : Jobs} {r : Job} (hr : r ∈ t.rows) :
    held key t r.id = r.heldUntil key := by
  rw [held, KeyedTable.find?_of_mem hr]
  rfl

theorem held_updateWhere (key : String) (t : Jobs) (p : Job → Bool)
    (id : UUID) :
    held key (t.updateWhere p releaseKey) id =
      if (t.find? id).any p then none else held key t id := by
  rw [held, KeyedTable.find?_updateWhere, held]
  cases t.find? id with
  | none => simp
  | some r =>
      by_cases hp : p r = true
      · simp [hp, Job.heldUntil, releaseKey]
      · simp [hp]

theorem held_insert {key : String} {t : Jobs} {row : Job}
    (hfresh : t.find? row.id = none) (id : UUID) :
    held key (t.insert row hfresh) id =
      if id = row.id then row.heldUntil key else held key t id := by
  rw [held, KeyedTable.find?_insert]
  split
  · rfl
  · rfl

theorem keyHolders_eq_nil_iff {key : String} {t : Jobs} :
    keyHolders t (some key) = [] ↔ ∀ id, held key t id = none := by
  rw [keyHolders, KeyedTable.select, List.filter_eq_nil_iff]
  constructor
  · intro h id
    cases hfind : t.find? id with
    | none => simp [held, hfind]
    | some r =>
        have hnot := h r (KeyedTable.find?_eq_some_iff.mp hfind).1
        have hkey : r.idempotencyKey ≠ some key := by simpa using hnot
        simp [held, hfind, Job.heldUntil, hkey]
  · intro h r hr
    have hnone := h r.id
    rw [held_of_mem hr] at hnone
    by_contra hkey
    have hsome : r.heldUntil key = some r.idempotencyExpiresAt :=
      heldUntil_eq_some_iff.mpr ⟨by simpa using hkey, rfl⟩
    rw [hnone] at hsome
    cases hsome

theorem findActiveByKey_eq_some {key : String} {t : Jobs} {now : Time}
    {r : Job} (h : findActiveByKey t key now = some r) :
    held key t r.id = some r.idempotencyExpiresAt ∧
      ∀ E, r.idempotencyExpiresAt = some E → now < E := by
  obtain ⟨hmem, hactive⟩ := KeyedTable.mem_select.mp (List.mem_of_head? h)
  simp only [isActiveHolder, Bool.and_eq_true, decide_eq_true_eq] at hactive
  refine ⟨?_, fun E hE => ?_⟩
  · rw [held_of_mem hmem]
    exact heldUntil_eq_some_iff.mpr ⟨hactive.1, rfl⟩
  · simpa [hE] using hactive.2

theorem findActiveByKey_eq_none {key : String} {t : Jobs} {now : Time}
    (h : findActiveByKey t key now = none) {id : UUID} {x : Option Time}
    (hx : held key t id = some x) : ∃ E, x = some E ∧ E ≤ now := by
  obtain ⟨r, hr, hheld⟩ := held_eq_some_iff.mp hx
  obtain ⟨hkey, rfl⟩ := heldUntil_eq_some_iff.mp hheld
  have hmem := (KeyedTable.find?_eq_some_iff.mp hr).1
  have hnil : t.select (isActiveHolder key now) = [] :=
    List.head?_eq_none_iff.mp h
  have hnot := List.filter_eq_nil_iff.mp hnil r hmem
  cases hE : r.idempotencyExpiresAt with
  | none => simp [isActiveHolder, hkey, hE] at hnot
  | some E => exact ⟨E, rfl, by simpa [isActiveHolder, hkey, hE] using hnot⟩

theorem mem_select_expired {key : String} {t : Jobs} {now : Time} {id : UUID} :
    (∃ r ∈ t.select (isExpiredHolder key now), r.id = id) ↔
      ∃ E, held key t id = some (some E) ∧ E ≤ now := by
  constructor
  · rintro ⟨r, hr, rfl⟩
    obtain ⟨hmem, hexpired⟩ := KeyedTable.mem_select.mp hr
    simp only [isExpiredHolder, Bool.and_eq_true, decide_eq_true_eq,
      Option.any_eq_true] at hexpired
    obtain ⟨hkey, E, hE, hle⟩ := hexpired
    refine ⟨E, ?_, hle⟩
    rw [held_of_mem hmem]
    exact heldUntil_eq_some_iff.mpr ⟨hkey, hE⟩
  · rintro ⟨E, hheld, hle⟩
    obtain ⟨r, hr, hheld⟩ := held_eq_some_iff.mp hheld
    obtain ⟨hkey, hE⟩ := heldUntil_eq_some_iff.mp hheld
    obtain ⟨hmem, hid⟩ := KeyedTable.find?_eq_some_iff.mp hr
    refine ⟨r, KeyedTable.mem_select.mpr ⟨hmem, ?_⟩, hid⟩
    simp [isExpiredHolder, hkey, hE, hle]

/-! ## The rest of the system leaves the key alone -/

def Change.keepsKey : Change → Bool
  | .created _ => false
  | .keyReleased => false
  | _ => true

@[simp] theorem failureChange_keepsKey (cause : Cause) (now : Time)
    (a : Attempt) (error : String) (outcome : AttemptOutcome) :
    (failureChange cause now a error outcome).keepsKey = true := by
  cases outcome <;> rfl

theorem RowPath.heldUntil {key : String} {r? s? : Option Job}
    {cs : List Change} (h : RowPath r? cs s?)
    (hcs : ∀ c ∈ cs, c.keepsKey = true) :
    s?.bind (Job.heldUntil key) = r?.bind (Job.heldUntil key) := by
  induction h with
  | nil => rfl
  | @snoc cs b c l _ hstep ih =>
      rw [← ih fun c hc => hcs c (by simp [hc])]
      have hlast := hcs l (by simp)
      cases hstep with
      | create hnew => cases hlast
      | change hl =>
          cases l with
          | created row => cases hlast
          | keyReleased => cases hlast
          | _ => rfl

theorem Makes.keepsKey {settings : Settings} {op : Op} {reply : Reply}
    {id : UUID} {c : Change} (h : Makes settings (op, .ok reply) id c)
    (hreply : reply.submits = false) : c.keepsKey = true := by
  cases h with
  | keyReleased op rows id hid => cases hreply
  | keyReplaced op s id hcreated hid => cases hreply
  | created op s hcreated => cases hreply
  | attemptFailed now a error result => simp
  | recovered now limit locked results x hx => simp
  | _ => rfl

theorem held_releaseExpiredKey {key k : String} {t t' : Jobs} {now : Time}
    {rows : List UUID} (h : releaseExpiredKey t k now = .ok (t', rows))
    (hne : k ≠ key) (id : UUID) : held key t' id = held key t id := by
  obtain ⟨⟨t₁, rows'⟩, hupdate, hret⟩ := bind_eq_ok.mp h
  cases hret
  obtain ⟨rfl, -⟩ := executeUpdate_eq_ok hupdate
  rw [held_updateWhere]
  split
  · next hany =>
      obtain ⟨r, hr, hexpired⟩ := (Option.any_eq_true _ _).mp hany
      simp only [isExpiredHolder, Bool.and_eq_true, decide_eq_true_eq]
        at hexpired
      simp [held, hr, Job.heldUntil, hexpired.1, hne]
  · rfl

theorem held_executeInsert {key : String} {t t' : Jobs} {row : Job}
    (h : executeInsert t row = .ok t') (id : UUID) :
    held key t' id = if id = row.id then row.heldUntil key
      else held key t id := by
  obtain ⟨-, -, hfresh, rfl⟩ := executeInsert_eq_ok h
  exact held_insert hfresh id

theorem held_insertJob {key : String} {t t' : Jobs} {clock : SubmitClock}
    {jobId : UUID} {request : JobCreateRequest} {k : Option String}
    {s : Submitted} (h : insertJob t clock jobId request k = .ok (t', s))
    (hne : k ≠ some key) (id : UUID) : held key t' id = held key t id := by
  obtain ⟨t₁, released, row, hrelease, hbuild, hcases⟩ := insertJob_eq_ok h
  have hheld : held key t₁ id = held key t id := by
    unfold releaseBeforeInsert at hrelease
    split at hrelease
    · next htruthy =>
        refine held_releaseExpiredKey hrelease ?_ id
        rintro rfl
        cases k with
        | none => simp [truthyKey] at htruthy
        | some k => exact hne rfl
    · cases hrelease
      rfl
  rcases hcases with ⟨rfl, hinsert⟩ | ⟨winner, rfl, rfl, -⟩
  · rw [held_executeInsert hinsert]
    split
    · next hid =>
        have hnone : row.heldUntil key = none := by
          rw [buildJob_eq_ok hbuild]
          exact if_neg hne
        obtain ⟨-, -, hfresh, -⟩ := executeInsert_eq_ok hinsert
        rw [hnone, ← hheld, held, hid, hfresh]
        rfl
    · exact hheld
  · rfl

/-- Operations other than submissions under the key leave its holder as it
is. -/
theorem held_step {key : String} {op : Op} (hop : op.spares key = true)
    (settings : Settings) (t : Jobs) (id : UUID) :
    held key ((service settings).step t op).1 id = held key t id := by
  simp only [service]
  cases hexec : op.execute settings t with
  | error e => rfl
  | ok result =>
      obtain ⟨t', reply⟩ := result
      simp only [settle]
      by_cases hsubmits : op.submits = true
      · cases op with
        | createJob clock jobId request k =>
            obtain ⟨s, hs, -⟩ := answer_eq_ok hexec
            rcases createJob_cases hs with ⟨-, rfl⟩ | hinsert
            · rfl
            · exact held_insertJob hinsert (of_decide_eq_true hop) id
        | insertJob clock jobId request k =>
            obtain ⟨s, hs, -⟩ := answer_eq_ok hexec
            exact held_insertJob hs (of_decide_eq_true hop) id
        | releaseExpiredKey k now =>
            obtain ⟨rows, hrows, -⟩ := answer_eq_ok hexec
            exact held_releaseExpiredKey hrows (of_decide_eq_true hop) id
        | _ => cases hsubmits
      · apply RowPath.heldUntil (execute_path hexec id)
        intro c hc
        apply (makes_of_mem (mem_changesFor.mp hc)).keepsKey
        rw [submits_reply hexec]
        simpa using hsubmits

/-! ## The invariant of the transactions -/

/-- At most one job holds the key.  Open transactions detach only expired
holders, one transaction at a time, and an uncommitted row stands alone: its
transaction has detached every holder there is. -/
structure Consistent (key : String) (d : Database) : Prop where
  unique : ∀ {i j x y}, held key d.jobs i = some x →
    held key d.jobs j = some y → i = j
  expired : ∀ {q id}, (q, id) ∈ d.released →
    ∃ E, held key d.jobs id = some (some E) ∧ E ≤ d.clock
  exclusive : ∀ {q q' id id'}, (q, id) ∈ d.released →
    (q', id') ∈ d.released → q = q'
  single : ∀ {q q' r r'}, (q, r) ∈ d.inserted → (q', r') ∈ d.inserted →
    q = q'
  covered : ∀ {q r}, (q, r) ∈ d.inserted → ∀ {id x},
    held key d.jobs id = some x → (q, id) ∈ d.released

/-- What the state of a call says about its transaction. -/
def Submission.Opens (key : String) (d : Database) (pid : ℕ) :
    Submission → Prop
  | .released _ => ∀ r, (pid, r) ∉ d.inserted
  | .flushing row =>
      (∀ r, (pid, r) ∉ d.inserted) ∧ row.idempotencyKey = some key
  | .inserted row => (pid, row) ∈ d.inserted ∧ row.idempotencyKey = some key
  | _ => (∀ r, (pid, r) ∉ d.inserted) ∧ ∀ id, (pid, id) ∉ d.released

/-- A clock reading a call has in hand is not ahead of the clock. -/
def Submission.ReadBefore (clock : Time) : Submission → Prop
  | .lookingUp _ now => now ≤ clock
  | .releasing _ now => now ≤ clock
  | .reloading _ now => now ≤ clock
  | _ => True

theorem held_view (key : String) (d : Database) (pid : ℕ) (id : UUID) :
    held key (d.view pid) id =
      if (pid, id) ∈ d.released then none else held key d.jobs id := by
  rw [Database.view, held_updateWhere]
  cases hfind : d.jobs.find? id with
  | none => simp [held, hfind]
  | some r =>
      have hid : r.id = id := KeyedTable.key_of_find?_eq_some hfind
      simp [hid]

section

variable {key : String} {d : Database}

theorem Consistent.close (h : Consistent key d) (pid : ℕ) :
    Consistent key (d.close pid) where
  unique := h.unique
  expired hq := h.expired (List.mem_filter.mp hq).1
  exclusive hq hq' :=
    h.exclusive (List.mem_filter.mp hq).1 (List.mem_filter.mp hq').1
  single hq hq' :=
    h.single (List.mem_filter.mp hq).1 (List.mem_filter.mp hq').1
  covered hq _ _ hx := by
    obtain ⟨hmem, hne⟩ := List.mem_filter.mp hq
    exact List.mem_filter.mpr ⟨h.covered hmem hx, hne⟩

theorem Consistent.of_held (h : Consistent key d) {jobs : Jobs}
    (hheld : ∀ id, held key jobs id = held key d.jobs id) :
    Consistent key { d with jobs := jobs } where
  unique hi hj := by
    rw [hheld] at hi hj
    exact h.unique hi hj
  expired hq := by
    obtain ⟨E, hE, hle⟩ := h.expired hq
    exact ⟨E, by rw [hheld, hE], hle⟩
  exclusive := h.exclusive
  single := h.single
  covered hq _ _ hx := by
    rw [hheld] at hx
    exact h.covered hq hx

theorem Consistent.tick (h : Consistent key d) {now : Time}
    (hle : d.clock ≤ now) : Consistent key { d with clock := now } where
  unique := h.unique
  expired hq := by
    obtain ⟨E, hE, hE'⟩ := h.expired hq
    exact ⟨E, hE, hE'.trans hle⟩
  exclusive := h.exclusive
  single := h.single
  covered := h.covered

theorem isLocked_eq_false {pid : ℕ} {rows : List Job}
    (h : d.isLocked pid rows = false) {q : ℕ} {r : Job} (hr : r ∈ rows)
    (hq : (q, r.id) ∈ d.released) : q = pid := by
  by_contra hne
  have hlocked : d.isLocked pid rows = true := by
    refine List.any_eq_true.mpr ⟨r, hr, List.any_eq_true.mpr ⟨_, hq, ?_⟩⟩
    simp [hne]
  rw [h] at hlocked
  cases hlocked

theorem Consistent.release (h : Consistent key d) {pid : ℕ} {now : Time}
    (hnow : now ≤ d.clock)
    (hlock : d.isLocked pid (d.jobs.select (isExpiredHolder key now)) =
      false) :
    Consistent key (d.release pid
      (d.jobs.select (isExpiredHolder key now))) := by
  have hcases : ∀ {q id}, (q, id) ∈ (d.release pid
      (d.jobs.select (isExpiredHolder key now))).released →
      (q, id) ∈ d.released ∨ q = pid ∧
        ∃ r ∈ d.jobs.select (isExpiredHolder key now), r.id = id := by
    intro q id hq
    rcases List.mem_append.mp hq with hold | hnew
    · exact Or.inl hold
    · obtain ⟨r, hr, heq⟩ := List.mem_map.mp hnew
      obtain ⟨rfl, rfl⟩ := Prod.mk.inj heq
      exact Or.inr ⟨rfl, r, hr, rfl⟩
  have hexpired : ∀ {q id}, (q, id) ∈ (d.release pid
      (d.jobs.select (isExpiredHolder key now))).released →
      ∃ E, held key d.jobs id = some (some E) ∧ E ≤ d.clock := by
    intro q id hq
    rcases hcases hq with hold | ⟨-, hrow⟩
    · exact h.expired hold
    · obtain ⟨E, hE, hle⟩ := mem_select_expired.mp hrow
      exact ⟨E, hE, hle.trans hnow⟩
  -- The holder is unique, so a lock of another call would be on the same row.
  have hmine : ∀ {q id}, (q, id) ∈ d.released →
      (∃ i, ∃ r ∈ d.jobs.select (isExpiredHolder key now), r.id = i) →
      q = pid := by
    rintro q id hq ⟨i, r, hr, rfl⟩
    obtain ⟨E, hE, -⟩ := h.expired hq
    obtain ⟨E', hE', -⟩ := mem_select_expired.mp ⟨r, hr, rfl⟩
    obtain rfl := h.unique hE hE'
    exact isLocked_eq_false hlock hr hq
  refine ⟨h.unique, hexpired, ?_, h.single, ?_⟩
  · intro q q' id id' hq hq'
    rcases hcases hq with hold | ⟨rfl, hrow⟩
    · rcases hcases hq' with hold' | ⟨rfl, hrow'⟩
      · exact h.exclusive hold hold'
      · exact hmine hold ⟨_, hrow'⟩
    · rcases hcases hq' with hold' | ⟨rfl, -⟩
      · exact (hmine hold' ⟨_, hrow⟩).symm
      · rfl
  · intro q r hq id x hx
    exact List.mem_append_left _ (h.covered hq hx)

theorem isContended_eq_false {pid : ℕ} (h : d.isContended pid = false) :
    (∀ {q r}, (q, r) ∈ d.inserted → q = pid) ∧
      ∀ {q id}, (q, id) ∈ d.released → q = pid := by
  simp only [Database.isContended, Bool.or_eq_false_iff, List.any_eq_false,
    decide_eq_true_eq, not_not] at h
  exact ⟨fun hq => h.1 _ hq, fun hq => h.2 _ hq⟩

/-- The insert goes through only if the transaction has detached every
holder. -/
theorem Consistent.insert (h : Consistent key d) {pid : ℕ} {row : Job}
    {jobs : Jobs} (hcontended : d.isContended pid = false)
    (hkey : row.idempotencyKey = some key)
    (hinsert : executeInsert (d.view pid) row = .ok jobs) :
    Consistent key { d with inserted := d.inserted ++ [(pid, row)] } := by
  have hmine : ∀ {q r}, (q, r) ∈ d.inserted ++ [(pid, row)] → q = pid := by
    intro q r hq
    rcases List.mem_append.mp hq with hold | hnew
    · exact (isContended_eq_false hcontended).1 hold
    · exact (Prod.mk.inj (List.mem_singleton.mp hnew)).1
  have hnone : ∀ id, held key (d.view pid) id = none := by
    obtain ⟨-, hempty, -⟩ := executeInsert_eq_ok hinsert
    rw [hkey] at hempty
    exact keyHolders_eq_nil_iff.mp hempty
  refine ⟨h.unique, h.expired, h.exclusive, ?_, ?_⟩
  · intro q q' r r' hq hq'
    rw [hmine hq, hmine hq']
  · intro q r hq id x hx
    have hid := hnone id
    rw [held_view] at hid
    split at hid
    · next hmem =>
        rw [hmine hq]
        exact hmem
    · rw [hx] at hid
      cases hid

end

/-! ## What one step does -/

/-- The steps of a submission, one constructor for each thing that may
happen.  Only a commit has an output. -/
inductive SubmitStep (settings : Settings) (key : String) (pid : ℕ)
    (d : Database) : Submission → SubmitAction → Database → Submission →
      Option Job → Prop
  | wait (p : Submission) (a : SubmitAction) :
      SubmitStep settings key pid d p a d p none
  | tick (p : Submission) (a : SubmitAction) (now : Time)
      (hnow : d.clock ≤ now) :
      SubmitStep settings key pid d p a { d with clock := now } p none
  | other (p : Submission) (op : Op) (hop : op.spares key = true) :
      SubmitStep settings key pid d p (.other op)
        { d with jobs := ((service settings).step d.jobs op).1 } p none
  | start (request : JobCreateRequest) :
      SubmitStep settings key pid d .idle (.start request) d
        (.lookingUp request d.clock) none
  | found (request : JobCreateRequest) (now : Time) (existing : Job)
      (h : findActiveByKey d.jobs key now = some existing) :
      SubmitStep settings key pid d (.lookingUp request now) .go d
        (.returned existing false) none
  | missed (request : JobCreateRequest) (now : Time)
      (h : findActiveByKey d.jobs key now = none) :
      SubmitStep settings key pid d (.lookingUp request now) .go d
        (.notFound request) none
  | read (request : JobCreateRequest) :
      SubmitStep settings key pid d (.notFound request) .go d
        (.releasing request d.clock) none
  | release (request : JobCreateRequest) (now : Time)
      (h : d.isLocked pid (d.jobs.select (isExpiredHolder key now)) = false) :
      SubmitStep settings key pid d (.releasing request now) .go
        (d.release pid (d.jobs.select (isExpiredHolder key now)))
        (.released request) none
  | build (request : JobCreateRequest) (id : UUID) (createdAt : Time)
      (row : Job)
      (h : buildJob request (some key) d.clock createdAt id = .ok row) :
      SubmitStep settings key pid d (.released request) (.build id createdAt)
        d (.flushing row) none
  | fail (request : JobCreateRequest) (id : UUID) (createdAt : Time)
      (e : ServiceError)
      (h : buildJob request (some key) d.clock createdAt id = .error e) :
      SubmitStep settings key pid d (.released request) (.build id createdAt)
        (d.close pid) (.raised e) none
  | insert (row : Job) (jobs : Jobs) (hcontended : d.isContended pid = false)
      (h : executeInsert (d.view pid) row = .ok jobs) :
      SubmitStep settings key pid d (.flushing row) .go
        { d with inserted := d.inserted ++ [(pid, row)] } (.inserted row) none
  | refuse (row : Job) (e : ServiceError)
      (hcontended : d.isContended pid = false)
      (h : executeInsert (d.view pid) row = .error e) :
      SubmitStep settings key pid d (.flushing row) .go (d.close pid)
        (if isIdempotencyConflict e then .conflicted e else .raised e) none
  | commit (row : Job) (jobs : Jobs)
      (h : executeInsert (d.view pid) row = .ok jobs) :
      SubmitStep settings key pid d (.inserted row) .go
        { d.close pid with jobs := jobs } (.returned row true) (some row)
  | abort (row : Job) (e : ServiceError)
      (h : executeInsert (d.view pid) row = .error e) :
      SubmitStep settings key pid d (.inserted row) .go (d.close pid)
        (.raised e) none
  | reread (e : ServiceError) :
      SubmitStep settings key pid d (.conflicted e) .go d
        (.reloading e d.clock) none
  | reloaded (e : ServiceError) (now : Time) (winner : Job)
      (h : findActiveByKey d.jobs key now = some winner) :
      SubmitStep settings key pid d (.reloading e now) .go d
        (.returned winner false) none
  | lost (e : ServiceError) (now : Time)
      (h : findActiveByKey d.jobs key now = none) :
      SubmitStep settings key pid d (.reloading e now) .go d (.raised e) none

theorem submission_step (settings : Settings) (key : String) (pid : ℕ)
    (d : Database) (p : Submission) (a : SubmitAction) :
    SubmitStep settings key pid d p a
      ((submissions settings key).act pid d p a).1
      ((submissions settings key).act pid d p a).2.1
      ((submissions settings key).act pid d p a).2.2 := by
  cases a with
  | tick now => exact .tick p _ _ (le_max_left _ _)
  | other op =>
      simp only [submissions]
      split
      · next hop => exact .other p op hop
      · exact .wait p _
  | start request =>
      cases p with
      | idle => exact .start request
      | _ => exact .wait _ _
  | build id createdAt =>
      cases p with
      | released request =>
          simp only [submissions, Submission.next]
          split
          · next row h => exact .build request id createdAt row h
          · next e h => exact .fail request id createdAt e h
      | _ => exact .wait _ _
  | go =>
      cases p with
      | lookingUp request now =>
          simp only [submissions, Submission.next]
          split
          · next existing h => exact .found request now existing h
          · next h => exact .missed request now h
      | notFound request => exact .read request
      | releasing request now =>
          simp only [submissions, Submission.next]
          split
          · exact .wait _ _
          · next h => exact .release request now (by simpa using h)
      | flushing row =>
          simp only [submissions, Submission.next, Database.flush]
          split
          · exact .wait _ _
          · next hc =>
              have hcontended : d.isContended pid = false := by simpa using hc
              split
              · next jobs h => exact .insert row jobs hcontended h
              · next e h => exact .refuse row e hcontended h
      | inserted row =>
          simp only [submissions, Submission.next, Database.commit]
          split
          · next jobs h => exact .commit row jobs h
          · next e h => exact .abort row e h
      | conflicted e => exact .reread e
      | reloading e now =>
          simp only [submissions, Submission.next]
          split
          · next winner h => exact .reloaded e now winner h
          · next h => exact .lost e now h
      | _ => exact .wait _ _

section

variable {settings : Settings} {key : String} {pid : ℕ} {d d' : Database}
  {p p' : Submission} {a : SubmitAction} {o : Option Job}

theorem mem_close_released {q : ℕ} {id : UUID} :
    (q, id) ∈ (d.close pid).released ↔ (q, id) ∈ d.released ∧ q ≠ pid := by
  simp [Database.close]

theorem mem_close_inserted {q : ℕ} {r : Job} :
    (q, r) ∈ (d.close pid).inserted ↔ (q, r) ∈ d.inserted ∧ q ≠ pid := by
  simp [Database.close]

/-- An uncommitted row and the detachments that make room for it belong to
one transaction, the only one open under the key. -/
theorem Consistent.alone (h : Consistent key d) {row : Job}
    (hrow : (pid, row) ∈ d.inserted) :
    (∀ q r, (q, r) ∉ (d.close pid).inserted) ∧
      ∀ q id, (q, id) ∉ (d.close pid).released := by
  refine ⟨fun q r hq => ?_, fun q id hq => ?_⟩
  · obtain ⟨hmem, hne⟩ := mem_close_inserted.mp hq
    exact hne (h.single hmem hrow)
  · obtain ⟨hmem, hne⟩ := mem_close_released.mp hq
    obtain ⟨E, hE, -⟩ := h.expired hmem
    exact hne (h.exclusive hmem (h.covered hrow hE))

/-- After a commit the committed row is the only holder of the key. -/
theorem Consistent.held_commit (h : Consistent key d) {row : Job}
    {jobs : Jobs} (hrow : (pid, row) ∈ d.inserted)
    (hkey : row.idempotencyKey = some key)
    (hinsert : executeInsert (d.view pid) row = .ok jobs) (id : UUID) :
    held key jobs id =
      if id = row.id then some row.idempotencyExpiresAt else none := by
  rw [held_executeInsert hinsert]
  split
  · exact heldUntil_eq_some_iff.mpr ⟨hkey, rfl⟩
  · rw [held_view]
    split
    · rfl
    · next hnot =>
        by_contra hne
        obtain ⟨x, hx⟩ := Option.ne_none_iff_exists'.mp hne
        exact hnot (h.covered hrow hx)

theorem Consistent.commit (h : Consistent key d) {row : Job} {jobs : Jobs}
    (hrow : (pid, row) ∈ d.inserted) (hkey : row.idempotencyKey = some key)
    (hinsert : executeInsert (d.view pid) row = .ok jobs) :
    Consistent key { d.close pid with jobs := jobs } := by
  obtain ⟨hinserted, hreleased⟩ := h.alone hrow
  refine ⟨?_, fun hq => absurd hq (hreleased _ _),
    fun hq => absurd hq (hreleased _ _), fun hq => absurd hq (hinserted _ _),
    fun hq => absurd hq (hinserted _ _)⟩
  have hid : ∀ {i x}, held key jobs i = some x → i = row.id := by
    intro i x hi
    rw [h.held_commit hrow hkey hinsert] at hi
    by_contra hne
    rw [if_neg hne] at hi
    cases hi
  intro i j x y hi hj
  rw [hid hi, hid hj]

/-- Every step keeps the transactions consistent. -/
theorem SubmitStep.consistent (hs : SubmitStep settings key pid d p a d' p' o)
    (h : Consistent key d) (hopen : p.Opens key d pid)
    (hread : p.ReadBefore d.clock) : Consistent key d' := by
  cases hs with
  | tick p a now hnow => exact h.tick hnow
  | other p op hop => exact h.of_held (held_step hop settings d.jobs)
  | release request now hlock => exact h.release hread hlock
  | insert row jobs hcontended hinsert =>
      exact h.insert hcontended hopen.2 hinsert
  | fail request id createdAt e => exact h.close pid
  | refuse row e => exact h.close pid
  | commit row jobs hinsert => exact h.commit hopen.1 hopen.2 hinsert
  | abort row e => exact h.close pid
  | _ => exact h

theorem SubmitStep.clock_le (hs : SubmitStep settings key pid d p a d' p' o) :
    d.clock ≤ d'.clock := by
  cases hs with
  | tick p a now hnow => exact hnow
  | _ => exact le_rfl

/-- A step touches only the transaction of the call that takes it. -/
theorem SubmitStep.entries (hs : SubmitStep settings key pid d p a d' p' o)
    {q : ℕ} (hq : q ≠ pid) :
    (∀ r, (q, r) ∈ d'.inserted ↔ (q, r) ∈ d.inserted) ∧
      ∀ id, (q, id) ∈ d'.released ↔ (q, id) ∈ d.released := by
  have hclose : (∀ r, (q, r) ∈ (d.close pid).inserted ↔ (q, r) ∈ d.inserted) ∧
      ∀ id, (q, id) ∈ (d.close pid).released ↔ (q, id) ∈ d.released := by
    simp [mem_close_inserted, mem_close_released, hq]
  cases hs with
  | release request now hlock =>
      simp [Database.release, hq.symm]
  | insert row jobs hcontended hinsert => simp [hq]
  | fail request id createdAt e => exact hclose
  | refuse row e => exact hclose
  | commit row jobs hinsert => exact hclose
  | abort row e => exact hclose
  | _ => exact ⟨fun _ => Iff.rfl, fun _ => Iff.rfl⟩

theorem Submission.Opens.of_entries {q : ℕ} (h : p.Opens key d q)
    (hentries : (∀ r, (q, r) ∈ d'.inserted ↔ (q, r) ∈ d.inserted) ∧
      ∀ id, (q, id) ∈ d'.released ↔ (q, id) ∈ d.released) :
    p.Opens key d' q := by
  obtain ⟨hinserted, hreleased⟩ := hentries
  cases p <;> simpa only [Submission.Opens, hinserted, hreleased] using h

theorem Submission.ReadBefore.mono {x y : Time} (h : p.ReadBefore x)
    (hxy : x ≤ y) : p.ReadBefore y := by
  cases p with
  | lookingUp request now => exact le_trans h hxy
  | releasing request now => exact le_trans h hxy
  | reloading e now => exact le_trans h hxy
  | _ => trivial

/-- A step leaves the call with the transaction its new state says it has. -/
theorem SubmitStep.opens (hs : SubmitStep settings key pid d p a d' p' o)
    (hopen : p.Opens key d pid) : p'.Opens key d' pid := by
  have hclosed : (∀ r, (pid, r) ∉ (d.close pid).inserted) ∧
      ∀ id, (pid, id) ∉ (d.close pid).released := by
    simp [mem_close_inserted, mem_close_released]
  cases hs with
  | wait => exact hopen
  | tick p a now hnow =>
      exact hopen.of_entries ⟨fun _ => Iff.rfl, fun _ => Iff.rfl⟩
  | other p op hop =>
      exact hopen.of_entries ⟨fun _ => Iff.rfl, fun _ => Iff.rfl⟩
  | release request now hlock => exact hopen.1
  | build request id createdAt row hbuild =>
      rw [buildJob_eq_ok hbuild]
      exact ⟨hopen, rfl⟩
  | fail request id createdAt e => exact hclosed
  | insert row jobs hcontended hinsert =>
      exact ⟨List.mem_append_right _ (List.mem_singleton_self _), hopen.2⟩
  | refuse row e =>
      split
      · exact hclosed
      · exact hclosed
  | commit row jobs hinsert => exact hclosed
  | abort row e => exact hclosed
  | _ => exact hopen

theorem SubmitStep.readBefore (hs : SubmitStep settings key pid d p a d' p' o)
    (hread : p.ReadBefore d.clock) : p'.ReadBefore d'.clock := by
  cases hs with
  | wait => exact hread
  | tick p a now hnow => exact hread.mono hnow
  | other p op hop => exact hread
  | start request => exact le_refl d.clock
  | read request => exact le_refl d.clock
  | reread e => exact le_refl d.clock
  | refuse row e =>
      split
      · trivial
      · trivial
  | _ => trivial

/-- Only a commit changes who holds the key: every former holder has expired,
and the committed row alone holds it then. -/
theorem SubmitStep.held_cases (hs : SubmitStep settings key pid d p a d' p' o)
    (h : Consistent key d) (hopen : p.Opens key d pid) :
    (o = none ∧ ∀ id, held key d'.jobs id = held key d.jobs id) ∨
      ∃ row, o = some row ∧ p = .inserted row ∧ p' = .returned row true ∧
        d'.clock = d.clock ∧
        (∀ {id x}, held key d.jobs id = some x →
          ∃ E, x = some E ∧ E ≤ d.clock) ∧
        ∀ id, held key d'.jobs id =
          if id = row.id then some row.idempotencyExpiresAt else none := by
  cases hs with
  | other p op hop => exact Or.inl ⟨rfl, held_step hop settings d.jobs⟩
  | commit row jobs hinsert =>
      refine Or.inr ⟨row, rfl, rfl, rfl, rfl, ?_,
        h.held_commit hopen.1 hopen.2 hinsert⟩
      intro id x hx
      obtain ⟨E, hE, hle⟩ := h.expired (h.covered hopen.1 hx)
      rw [hx] at hE
      exact ⟨E, Option.some.inj hE, hle⟩
  | _ => exact Or.inl ⟨rfl, fun _ => rfl⟩

end

end JobQueue
