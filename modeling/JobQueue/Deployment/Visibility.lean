import JobQueue.Deployment.Publishing

/-!
# No published job is lost

Entries of older generations of a job may be observed, claimed through,
replaced and removed late.  A process that is about to remove an entry decided
so while the job was not `PENDING`.  If the job has become `PENDING` since and
was put into the queue again, it is queued under a newer token, and the removal
misses it.
-/

namespace JobQueue

open Support

/-- How an event changes whether a job was put into the queue since its latest
entry into `PENDING`. -/
def queuedAfter (id : UUID) (queued : Bool) : Option Event → Bool
  | some (.database op outcome) =>
      if id ∈ (publications (op, outcome)).map Job.id then false else queued
  | some (.redis (.enqueue jobId _) .answered _) =>
      if jobId = id then true else queued
  | some (.redis (.enqueue jobId _) .lostReply _) =>
      if jobId = id then true else queued
  | _ => queued

/-- An enqueue of the job has taken effect since its latest entry into
`PENDING`. -/
def isQueuedSince (id : UUID) (h : History) : Bool :=
  h.foldl (fun queued x => queuedAfter id queued x.2) false

theorem isQueuedSince_concat (id : UUID) (h : History)
    (x : (ℕ × Action) × Option Event) :
    isQueuedSince id (h ++ [x]) =
      queuedAfter id (isQueuedSince id h) x.2 := by
  simp [isQueuedSince]

/-! ## What one turn does to a job -/

/-- A turn changes the table by one operation, Redis by one command, or
neither. -/
theorem perform_cases (settings : Settings) (pid : ℕ) (s : Store)
    (i : Instruction) :
    (∃ op next, i = .database op next ∧
      (s.perform settings pid i).1.redis = s.redis) ∨
    (∃ op fault next, i = .redis op fault next ∧ fault ≠ .lostRequest ∧
      (s.perform settings pid i).1.jobs = s.jobs ∧
      (s.perform settings pid i).1.redis = (queue.step s.redis op).1) ∨
    ((s.perform settings pid i).1.jobs = s.jobs ∧
      (s.perform settings pid i).1.redis = s.redis ∧
      ∀ id b, queuedAfter id b (s.perform settings pid i).2.2 = b) := by
  cases i with
  | database op next => exact Or.inl ⟨op, next, rfl, rfl⟩
  | redis op fault next =>
      cases fault with
      | lostRequest =>
          refine Or.inr (Or.inr ⟨rfl, rfl, fun id b => ?_⟩)
          cases op <;> rfl
      | answered =>
          exact Or.inr (Or.inl ⟨op, _, next, rfl, nofun, rfl, rfl⟩)
      | lostReply =>
          exact Or.inr (Or.inl ⟨op, _, next, rfl, nofun, rfl, rfl⟩)
  | _ => exact Or.inr (Or.inr ⟨rfl, rfl, fun _ _ => rfl⟩)

/-- A job that is `PENDING` and queued since its entry after a database call
was so before it. -/
theorem queued_before_database {settings : Settings} {pid : ℕ} {s : Store}
    {op : Op} {next : Outcome → Process} {id : UUID} {b : Bool}
    (hpending : isPendingAt
      (s.perform settings pid (.database op next)).1.jobs id = true)
    (hqueued : queuedAfter id b
      (s.perform settings pid (.database op next)).2.2 = true) :
    isPendingAt s.jobs id = true ∧ b = true := by
  have hiff := mem_publications_iff settings s.jobs op id
  simp only [Store.perform, queuedAfter] at hqueued
  split at hqueued
  · cases hqueued
  · next hnot =>
      refine ⟨?_, hqueued⟩
      by_contra hbefore
      apply hnot
      rw [hiff, entersPending, Bool.and_eq_true, Bool.not_eq_true']
      exact ⟨by simpa using hbefore, hpending⟩

theorem sequence_le_perform (settings : Settings) (pid : ℕ) (s : Store)
    (i : Instruction) :
    s.redis.sequence ≤ (s.perform settings pid i).1.redis.sequence := by
  rw [perform_redis]
  cases commandOf (s.perform settings pid i).2.2 with
  | none => exact le_rfl
  | some op => exact sequence_le_step s.redis op

/-! ## Observed entries -/

/-- The candidate is an entry the queue made at some time. -/
def Observed (r : Redis) (c : QueueCandidate) : Prop :=
  ∃ k ≤ r.sequence, c.member = token k c.jobId

theorem Observed.mono {r r' : Redis} {c : QueueCandidate}
    (h : Observed r c) (hle : r.sequence ≤ r'.sequence) : Observed r' c := by
  obtain ⟨k, hk, hm⟩ := h
  exact ⟨k, hk.trans hle, hm⟩

theorem observed_of_entry {calls : List (QueueOp × QueueReply)} {r : Redis}
    (h : Represents calls r) (hbound : r.sequence < sequenceBound)
    {field : Text} {c : QueueCandidate}
    (hc : r.entries field = some c.member) :
    Observed r c ∧ field = c.jobId.str := by
  obtain ⟨id, k, rfl, hk, hm⟩ := h.minted hc
  have hdecode := decodeMember_token (by omega : k + 1 < sequenceBound) id
  rw [← hm, c.decodes] at hdecode
  obtain ⟨hid, -⟩ := Prod.mk.inj (Except.ok.inj hdecode)
  rw [hid]
  exact ⟨⟨k + 1, hk, by rw [hid, hm]⟩, rfl⟩

theorem mem_of_mapM_ok {ε α β : Type} {f : α → Except ε β} {xs : List α}
    {ys : List β} (h : xs.mapM f = .ok ys) {y : β} (hy : y ∈ ys) :
    ∃ x ∈ xs, f x = .ok y := by
  induction xs generalizing ys with
  | nil =>
      obtain rfl := Except.ok.inj h
      simp at hy
  | cons x xs ih =>
      rw [List.mapM_cons] at h
      obtain ⟨z, hz, h⟩ := bind_eq_ok.mp h
      obtain ⟨zs, hzs, hret⟩ := bind_eq_ok.mp h
      obtain rfl := Except.ok.inj hret
      rcases List.mem_cons.mp hy with rfl | hmem
      · exact ⟨x, by simp, hz⟩
      · obtain ⟨x', hx', hf⟩ := ih hzs hmem
        exact ⟨x', by simp [hx'], hf⟩

/-- Every candidate read from the front is an entry the queue made. -/
theorem observed_of_peek {calls : List (QueueOp × QueueReply)} {r : Redis}
    (h : Represents calls r) (hbound : r.sequence < sequenceBound)
    {count : ℤ} {candidates : List QueueCandidate}
    (hpeek : peekMany r count = .ok candidates) {c : QueueCandidate}
    (hc : c ∈ candidates) : Observed r c := by
  obtain ⟨m, hm, hfrom⟩ := mem_of_mapM_ok hpeek hc
  have hmember : m ∈ r.ready.members :=
    List.mem_of_mem_drop (List.mem_of_mem_take hm)
  obtain ⟨field, hfield⟩ := h.mem_ready_iff.mp hmember
  rw [← QueueCandidate.member_of_fromMember hfrom] at hfield
  exact (observed_of_entry h hbound hfield).1

/-- An entry that the job is not queued under will never be its entry again. -/
theorem entries_step_ne {calls : List (QueueOp × QueueReply)} {r : Redis}
    (h : Represents calls r) {op : QueueOp}
    (hbound : (queue.step r op).1.sequence < sequenceBound)
    {c : QueueCandidate} (hc : Observed r c)
    (hne : (∀ p, op ≠ .enqueue c.jobId p) →
      r.entries c.jobId.str ≠ some c.member) :
    (queue.step r op).1.entries c.jobId.str ≠ some c.member := by
  cases op with
  | enqueue id p =>
      have hnext := lt_bound_of_enqueue hbound
      obtain ⟨-, -, hentries, -⟩ := enqueue_spec h hnext id p
      simp only [queue]
      rw [hentries]
      by_cases hid : id = c.jobId
      · subst hid
        obtain ⟨k, hk, hm⟩ := hc
        rw [Function.update_self, hm]
        intro heq
        have hsame := (token_injective hnext (by omega)
          (Option.some.inj heq)).1
        omega
      · have hdiff : c.jobId.str ≠ id.str := fun heq =>
          hid (UUID.str_injective heq).symm
        rw [Function.update_of_ne hdiff]
        apply hne
        rintro q heq
        obtain ⟨rfl, -⟩ := QueueOp.enqueue.inj heq
        exact hid rfl
  | remove c' =>
      have hlt : r.sequence < sequenceBound := by
        rwa [← sequence_remove r c']
      obtain ⟨-, hentries, -⟩ := h.remove_spec hlt c'
      simp only [queue]
      rw [hentries]
      split
      · exact (Option.some_ne_none _).symm
      · exact hne fun _ heq => by cases heq
  | currentMember id => exact hne fun _ heq => by cases heq
  | peekMany count => exact hne fun _ heq => by cases heq

/-- The entry may be removed: if its job is `PENDING` and queued since, then
under another entry. -/
def Condemned (h : History) (s : Store) (c : QueueCandidate) : Prop :=
  isPendingAt s.jobs c.jobId = true → isQueuedSince c.jobId h = true →
    s.redis.entries c.jobId.str ≠ some c.member

theorem condemned_of_not_pending {h : History} {s : Store}
    {c : QueueCandidate} (hnot : isPendingAt s.jobs c.jobId = false) :
    Condemned h s c := by
  intro hpending
  rw [hnot] at hpending
  cases hpending

theorem Condemned.step {settings : Settings} {h : History} {s : Store}
    {c : QueueCandidate} (hs : Projects settings h s) (pid : ℕ) (a : Action)
    (i : Instruction)
    (hbound : (s.perform settings pid i).1.redis.sequence < sequenceBound)
    (hobserved : Observed s.redis c) (hc : Condemned h s c) :
    Condemned (h ++ [((pid, a), (s.perform settings pid i).2.2)])
      (s.perform settings pid i).1 c := by
  have hbefore := (sequence_le_perform settings pid s i).trans_lt hbound
  have hrep := hs.represents hbefore
  intro hpending hqueued
  rw [isQueuedSince_concat] at hqueued
  rcases perform_cases settings pid s i with
    ⟨op, next, rfl, hredis⟩ | ⟨op, fault, next, rfl, hfault, hjobs, hredis⟩ |
      ⟨hjobs, hredis, hsame⟩
  · obtain ⟨hp, hq⟩ := queued_before_database hpending hqueued
    rw [hredis]
    exact hc hp hq
  · rw [hredis] at hbound ⊢
    rw [hjobs] at hpending
    refine entries_step_ne hrep hbound hobserved fun hop => hc hpending ?_
    cases op with
    | enqueue id p =>
        have hid : id ≠ c.jobId := fun heq => hop p (heq ▸ rfl)
        cases fault with
        | lostRequest => exact absurd rfl hfault
        | answered => simpa [Store.perform, Store.send, queuedAfter, hid]
            using hqueued
        | lostReply => simpa [Store.perform, Store.send, queuedAfter, hid]
            using hqueued
    | _ => exact hqueued
  · rw [hredis]
    rw [hjobs] at hpending
    rw [hsame] at hqueued
    exact hc hpending hqueued

theorem isCancelledAt_perform {settings : Settings} {s : Store} {id : UUID}
    (h : isCancelledAt s.jobs id = true) (pid : ℕ) (i : Instruction) :
    isCancelledAt (s.perform settings pid i).1.jobs id = true := by
  rw [perform_jobs]
  cases callOf (s.perform settings pid i).2.2 with
  | none => exact h
  | some call => exact isCancelledAt_step h call.1

/-! ## Assertions of the processes -/

/-- What holds of the entry a runner has in hand. -/
def RunnerPoint.Asserts (h : History) (s : Store) : RunnerPoint → Prop
  | .peeked _ c => Observed s.redis c
  | .claiming _ c => Observed s.redis c
  | .inspecting _ c => Observed s.redis c
  | .discarding _ c => Observed s.redis c ∧ Condemned h s c
  | .dropping c _ => Observed s.redis c ∧ Condemned h s c
  | _ => True

/-- What holds of the job or the entry a process is cleaning up. -/
def Process.Asserts (h : History) (s : Store) : Process → Prop
  | .cleaning jobId => isCancelledAt s.jobs jobId = true
  | .erasing c => Observed s.redis c ∧ Condemned h s c
  | .runner r => r.point.Asserts h s
  | _ => True

/-- No turn of any process disturbs an assertion. -/
theorem Process.Asserts.step {settings : Settings} {h : History} {s : Store}
    {p : Process} (hs : Projects settings h s) (pid : ℕ) (a : Action)
    (i : Instruction)
    (hbound : (s.perform settings pid i).1.redis.sequence < sequenceBound)
    (hp : p.Asserts h s) :
    p.Asserts (h ++ [((pid, a), (s.perform settings pid i).2.2)])
      (s.perform settings pid i).1 := by
  have hmono : ∀ {c : QueueCandidate}, Observed s.redis c →
      Observed (s.perform settings pid i).1.redis c :=
    fun hc => hc.mono (sequence_le_perform settings pid s i)
  cases p with
  | cleaning jobId => exact isCancelledAt_perform hp pid i
  | erasing c => exact ⟨hmono hp.1, hp.2.step hs pid a i hbound hp.1⟩
  | runner r =>
      obtain ⟨workerId, leaseSeconds, stop, point⟩ := r
      cases point with
      | peeked left c => exact hmono hp
      | claiming left c => exact hmono hp
      | inspecting left c => exact hmono hp
      | discarding left c =>
          exact ⟨hmono hp.1, hp.2.step hs pid a i hbound hp.1⟩
      | dropping c row =>
          exact ⟨hmono hp.1, hp.2.step hs pid a i hbound hp.1⟩
      | _ => trivial
  | _ => trivial

def Reasserts (h : History) (pid : ℕ) (a : Action) (s : Store)
    (o : Option Event) (p : Process) : Prop :=
  s.redis.sequence < sequenceBound → p.Asserts (h ++ [((pid, a), o)]) s

section

variable {settings : Settings} {h : History} {s : Store}

theorem reasserts_claim {now : Time} {workerId : String} {token : UUID}
    {leaseSeconds : Option Duration} {r : Runner} {left : ℕ}
    {c : QueueCandidate} (hc : Observed s.redis c) (pid : ℕ) (a : Action) :
    (Instruction.database
        (.claimJob now c.jobId workerId token leaseSeconds) fun
          | .ok (.claimed none) => r.at (.inspecting left c)
          | .ok (.claimed (some row)) => r.at (.dropping c row)
          | _ => r.raise).Ensures settings pid s (Reasserts h pid a) := by
  intro hbound
  simp only [Store.perform]
  split
  · exact hc
  · next row hreply =>
      obtain ⟨row?, hrow, hsome⟩ := answer_eq_ok (execute_of_step_ok hreply)
      obtain rfl := Reply.claimed.inj hsome
      rcases claimJob_cases hrow with ⟨hnone, -⟩ | ⟨r', -, -, hrw⟩
      · cases hnone
      · refine ⟨hc, condemned_of_not_pending ?_⟩
        have hfind := hrw.after
        simp [isPendingAt, hfind, claim]
  · trivial

theorem reasserts_cancel {jobId : UUID} (pid : ℕ) (a : Action) :
    (Instruction.database (.cancelJob jobId) fun
        | .ok (.cancelled c) => if c.changed then .cleaning jobId else .finished
        | _ => .finished).Ensures settings pid s (Reasserts h pid a) := by
  intro hbound
  simp only [Store.perform]
  split
  · next c hreply =>
      split
      · next hchanged =>
          obtain ⟨c', hcancel, hsame⟩ :=
            answer_eq_ok (execute_of_step_ok hreply)
          obtain rfl := Reply.cancelled.inj hsame
          rcases cancelJob_cases hcancel with ⟨hnot, -⟩ | ⟨-, r, -, -, hrw⟩
          · rw [hnot] at hchanged
            cases hchanged
          · exact isCancelledAt_iff.mpr ⟨_, hrw.after, rfl⟩
      · trivial
  · trivial

variable (hs : Projects settings h s)

include hs

theorem reasserts_quiet {p : Process} (hp : p.Asserts h s) (pid : ℕ)
    (a : Action) :
    (Instruction.quiet p).Ensures settings pid s (Reasserts h pid a) :=
  fun hbound => Process.Asserts.step hs pid a _ hbound hp

theorem reasserts_redis {op : QueueOp} {fault : Fault}
    {next : Option QueueReply → Process} {pid : ℕ} {a : Action}
    (hnext : s.redis.sequence < sequenceBound → ∀ reply,
      (∀ x, reply = some x → x = (queue.step s.redis op).2) →
      (next reply).Asserts h s) :
    (Instruction.redis op fault next).Ensures settings pid s
      (Reasserts h pid a) := by
  intro hbound
  have hbefore := (sequence_le_perform settings pid s _).trans_lt hbound
  refine Process.Asserts.step hs pid a _ hbound (hnext hbefore _ ?_)
  intro x hx
  cases fault with
  | answered => exact (Option.some.inj hx).symm
  | lostRequest => cases hx
  | lostReply => cases hx

/-- A job that cannot be claimed is not `PENDING`, since attempts are left as
long as it is. -/
theorem Projects.not_pending {id : UUID}
    (hnot : ¬ (getJob s.jobs id).any Job.isClaimable = true) :
    isPendingAt s.jobs id = false := by
  by_contra hne
  obtain ⟨r, hr, hstatus⟩ := isPendingAt_iff.mp (by simpa using hne)
  have hleft := (hs.wellformed id r hr).counters.waiting (Or.inl hstatus)
  apply hnot
  simp [getJob, hr, Job.isClaimable, hstatus, hleft]

theorem Runner.reasserts {r : Runner} (hr : r.point.Asserts h s) (pid : ℕ)
    (a : Action) :
    (r.next s.jobs a).Ensures settings pid s (Reasserts h pid a) := by
  unfold Runner.next
  split
  · exact reasserts_quiet hs (p := .runner { r with stop := true }) hr pid _
  · exact fun _ => trivial
  · split
    all_goals try (split <;> exact fun _ => trivial)
    all_goals try exact fun _ => trivial
    · next left fault hpoint _ _ =>
        refine reasserts_redis hs fun hbound reply hreply => ?_
        split
        · next c cs hsome =>
            have hpeek := QueueReply.candidates.inj (hreply _ rfl)
            exact observed_of_peek (hs.represents hbound) hbound hpeek.symm
              List.mem_cons_self
        · trivial
        · trivial
    · next left c hpoint _ _ =>
        rw [hpoint] at hr
        split
        · exact fun _ => trivial
        · exact reasserts_quiet hs (p := r.at (.claiming left c)) hr pid _
    · next left c now token hpoint _ _ =>
        rw [hpoint] at hr
        exact reasserts_claim hr pid _
    · next left c now hpoint _ _ =>
        rw [hpoint] at hr
        split
        · exact fun _ => trivial
        · next hnot =>
            exact reasserts_quiet hs (p := r.at (.discarding left c))
              ⟨hr, condemned_of_not_pending (hs.not_pending hnot)⟩ pid _
    · refine reasserts_redis hs fun hbound reply hreply => ?_
      split <;> trivial
    · refine reasserts_redis hs fun hbound reply hreply => ?_
      split
      · split <;> trivial
      · trivial
    · intro _
      simp only [Store.perform]
      split <;> trivial
    · intro _
      simp only [Store.perform]
      split <;> trivial
    · exact reasserts_quiet hs (p := .runner r) hr pid _

/-- Every turn leaves its process with a valid assertion. -/
theorem Process.reasserts {p : Process} (hp : p.Asserts h s) (pid : ℕ)
    (a : Action) :
    (p.next pid s a).Ensures settings pid s (Reasserts h pid a) := by
  unfold Process.next
  split
  · next call =>
      intro _
      cases call with
      | submitJob request key =>
          by_cases hkey : truthyKey key = true
          · simp [Store.perform, Process.ofCall, hkey, Process.Asserts]
          · simp [Store.perform, Process.ofCall, hkey, Process.Asserts]
      | _ => trivial
  · split <;> exact fun _ => trivial
  · intro _
    simp only [Store.perform]
    cases publications _ <;> trivial
  · next row rest fault =>
      intro _
      cases rest <;> trivial
  · exact reasserts_cancel pid _
  · next jobId fault =>
      refine reasserts_redis hs fun hbound reply hreply => ?_
      split
      · next m hsome =>
          split
          · next c hc =>
              have hmember := QueueReply.member.inj (hreply _ rfl)
              have hentry : s.redis.entries jobId.str = some c.member := by
                rw [QueueCandidate.member_of_fromMember hc]
                exact hmember.symm
              obtain ⟨hobserved, hid⟩ :=
                observed_of_entry (hs.represents hbound) hbound hentry
              obtain rfl := UUID.str_injective hid
              exact ⟨hobserved,
                condemned_of_not_pending (not_pending_of_cancelled hp)⟩
          · trivial
      · trivial
  · exact fun _ => trivial
  · intro _
    simp only [Store.perform]
    cases publications _ <;> trivial
  · exact fun _ => trivial
  · intro _
    simp only [Store.perform]
    cases publications _ <;> trivial
  · exact fun _ => trivial
  · exact Runner.reasserts hs hp pid _
  · exact fun _ => trivial
  · exact fun _ => trivial
  · exact fun _ => trivial
  · exact reasserts_quiet hs hp pid _

end

/-- A process removes only entries it may remove. -/
theorem Runner.condemned_of_remove {h : History} {s : Store} {r : Runner}
    {a : Action} {c : QueueCandidate} {fault : Fault}
    {next : Option QueueReply → Process} (hr : r.point.Asserts h s)
    (hnext : r.next s.jobs a = .redis (.remove c) fault next) :
    Condemned h s c := by
  unfold Runner.next at hnext
  split at hnext
  · cases hnext
  · cases hnext
  · split at hnext
    all_goals try cases hnext
    all_goals try (split at hnext <;> cases hnext)
    · next left hpoint _ _ =>
        rw [hpoint] at hr
        exact hr.2
    · next row hpoint _ _ =>
        rw [hpoint] at hr
        exact hr.2

theorem Process.condemned_of_remove {h : History} {s : Store} {p : Process}
    {pid : ℕ} {a : Action} {c : QueueCandidate} {fault : Fault}
    {next : Option QueueReply → Process} (hp : p.Asserts h s)
    (hnext : p.next pid s a = .redis (.remove c) fault next) :
    Condemned h s c := by
  unfold Process.next at hnext
  split at hnext
  all_goals try split at hnext
  all_goals try cases hnext
  · exact hp.2
  · exact Runner.condemned_of_remove hp hnext

/-- Every `PENDING` job that was put into the queue since it became so has an
entry. -/
def Kept (h : History) (s : Store) : Prop :=
  ∀ id, isPendingAt s.jobs id = true → isQueuedSince id h = true →
    (s.redis.entries id.str).isSome = true

/-- A command takes no entry from a job, except a removal of that entry. -/
theorem isSome_entries_step {calls : List (QueueOp × QueueReply)} {r : Redis}
    (h : Represents calls r) {op : QueueOp}
    (hbound : (queue.step r op).1.sequence < sequenceBound) {id : UUID}
    (hsome : (∃ p, op = .enqueue id p) ∨ (r.entries id.str).isSome = true)
    (hkeep : ∀ c, op = .remove c → r.entries id.str ≠ some c.member) :
    ((queue.step r op).1.entries id.str).isSome = true := by
  cases op with
  | enqueue id' p =>
      have hnext := lt_bound_of_enqueue hbound
      obtain ⟨-, -, hentries, -⟩ := enqueue_spec h hnext id' p
      simp only [queue]
      rw [hentries]
      by_cases hid : id = id'
      · rw [hid, Function.update_self]
        rfl
      · rw [Function.update_of_ne fun heq => hid (UUID.str_injective heq)]
        rcases hsome with ⟨q, heq⟩ | hsome
        · exact absurd (QueueOp.enqueue.inj heq).1.symm hid
        · exact hsome
  | remove c =>
      have hlt : r.sequence < sequenceBound := by
        rwa [← sequence_remove r c]
      obtain ⟨-, hentries, -⟩ := h.remove_spec hlt c
      simp only [queue]
      rw [hentries, if_neg (hkeep c rfl)]
      exact hsome.resolve_left (by rintro ⟨_, heq⟩; cases heq)
  | currentMember id' =>
      exact hsome.resolve_left (by rintro ⟨_, heq⟩; cases heq)
  | peekMany count =>
      exact hsome.resolve_left (by rintro ⟨_, heq⟩; cases heq)

theorem Kept.act {settings : Settings} {h : History} {s : Store}
    {p : Process} (hs : Projects settings h s) (hkept : Kept h s)
    (hp : p.Asserts h s) (pid : ℕ) (a : Action)
    (hbound : (s.perform settings pid (p.next pid s a)).1.redis.sequence <
      sequenceBound) :
    Kept (h ++ [((pid, a), (s.perform settings pid (p.next pid s a)).2.2)])
      (s.perform settings pid (p.next pid s a)).1 := by
  have hbefore := (sequence_le_perform settings pid s _).trans_lt hbound
  have hrep := hs.represents hbefore
  intro id hpending hqueued
  rw [isQueuedSince_concat] at hqueued
  generalize hi : p.next pid s a = i at *
  rcases perform_cases settings pid s i with
    ⟨op, next, rfl, hredis⟩ | ⟨op, fault, next, rfl, hfault, hjobs, hredis⟩ |
      ⟨hjobs, hredis, hsame⟩
  · obtain ⟨hb, hq⟩ := queued_before_database hpending hqueued
    rw [hredis]
    exact hkept id hb hq
  · rw [hredis] at hbound ⊢
    rw [hjobs] at hpending
    have hsome : (∃ q, op = .enqueue id q) ∨ isQueuedSince id h = true := by
      cases op with
      | enqueue jobId q =>
          by_cases hid : jobId = id
          · exact Or.inl ⟨q, by rw [hid]⟩
          · right
            cases fault with
            | lostRequest => exact absurd rfl hfault
            | answered => simpa [Store.perform, Store.send, queuedAfter, hid]
                using hqueued
            | lostReply => simpa [Store.perform, Store.send, queuedAfter, hid]
                using hqueued
      | _ => exact Or.inr hqueued
    refine isSome_entries_step hrep hbound
      (hsome.imp_right (hkept id hpending)) ?_
    rintro c rfl hentry
    obtain ⟨-, hid⟩ := observed_of_entry hrep hbefore hentry
    obtain rfl := UUID.str_injective hid
    exact Process.condemned_of_remove hp hi hpending hqueued hentry
  · rw [hredis]
    rw [hjobs] at hpending
    rw [hsame] at hqueued
    exact hkept id hpending hqueued

theorem kept_after (settings : Settings) (actions : List (ℕ × Action))
    (hbound : (after settings actions).shared.redis.sequence <
      sequenceBound) :
    Kept (historyAfter settings actions) (after settings actions).shared := by
  have hrun := deployment_invariant settings
    (G := fun h s => s.redis.sequence < sequenceBound → Kept h s)
    (L := fun h s _ p => s.redis.sequence < sequenceBound → p.Asserts h s)
    (fun _ id hpending => by cases hpending) (fun _ _ => trivial) ?_ ?_
    actions
  · exact hrun.2.1 hbound
  · intro h s pid p a hs hkept hp
    have hle := sequence_le_perform settings pid s (p.next pid s a)
    exact ⟨fun hb => (hkept (hle.trans_lt hb)).act hs (hp (hle.trans_lt hb))
        pid a hb,
      fun hb => Process.reasserts hs (hp (hle.trans_lt hb)) pid a hb⟩
  · intro h s pid p a other q hs hkept hp hne hq hb
    have hle := sequence_le_perform settings pid s (p.next pid s a)
    exact Process.Asserts.step hs pid a _ hb (hq (hle.trans_lt hb))

/-! ## What became of the latest publication -/

/-- The latest entry of the job into `PENDING` was at position `n`. -/
structure LatestEntry (settings : Settings) (actions : List (ℕ × Action))
    (id : UUID) (n : ℕ) : Prop where
  enters : entersAt settings actions id n = true
  last : ∀ m, n < m → m < actions.length →
    entersAt settings actions id m = false

/-- The enqueue that a process owes to a job it reported is in flight, raised,
or was cut off by a crash. -/
def Undelivered (settings : Settings) (actions : List (ℕ × Action))
    (id : UUID) (pid : ℕ) : Prop :=
  id ∈ ((after settings actions).process pid).remaining.map Job.id ∨
  (∃ a priority fault, fault ≠ .answered ∧
    ((pid, a), some (.redis (.enqueue id priority) fault none)) ∈
      historyAfter settings actions) ∨
  ((after settings actions).process pid = .crashed ∧
    id ∉ issuedBy pid (historyAfter settings actions))

theorem LatestEntry.concat {settings : Settings}
    {actions : List (ℕ × Action)} {id : UUID} {n : ℕ}
    (h : LatestEntry settings actions id n) (hn : n < actions.length)
    {x : ℕ × Action}
    (hx : entersPending (after settings actions).shared.jobs
      (after settings (actions ++ [x])).shared.jobs id = false) :
    LatestEntry settings (actions ++ [x]) id n := by
  constructor
  · rw [entersAt_concat_of_lt settings hn]
    exact h.enters
  · intro m hnm hm
    rw [List.length_append, List.length_singleton] at hm
    rcases Nat.lt_or_eq_of_le (Nat.le_of_lt_succ hm) with hlt | rfl
    · rw [entersAt_concat_of_lt settings hlt]
      exact h.last m hnm hlt
    · rw [entersAt_concat_last]
      exact hx

theorem LatestEntry.here {settings : Settings}
    {actions : List (ℕ × Action)} {id : UUID} {x : ℕ × Action}
    (hx : entersPending (after settings actions).shared.jobs
      (after settings (actions ++ [x])).shared.jobs id = true) :
    LatestEntry settings (actions ++ [x]) id actions.length := by
  constructor
  · rw [entersAt_concat_last]
    exact hx
  · intro m hlt hm
    rw [List.length_append, List.length_singleton] at hm
    omega

section

variable (settings : Settings) (pid : ℕ) (s : Store) {p : Process}
  (a : Action) {id : UUID}

/-- A process that reports a job still owes its enqueue. -/
theorem mem_remaining_of_reports
    (h : id ∈ (reports ((deployment settings).act pid s p a).2.2).map
      Job.id) :
    id ∈ ((deployment settings).act pid s p a).2.1.remaining.map Job.id := by
  simp only [deployment] at h ⊢
  rcases p.next_publishing pid s a with
    ⟨row, rest, fault, rfl, hnext⟩ | ⟨op, -, hnext⟩ | hsilent
  · rw [hnext] at h
    simp [Store.perform, reports] at h
  · rw [hnext] at h ⊢
    simpa [Store.perform, reports] using h
  · rw [(perform_silent hsilent settings pid s).1] at h
    simp at h

/-- What a turn of the publisher makes of an enqueue it owes. -/
theorem remaining_act (h : id ∈ p.remaining.map Job.id) :
    id ∈ ((deployment settings).act pid s p a).2.1.remaining.map Job.id ∨
    (((deployment settings).act pid s p a).2.1 = .crashed ∧
      issues ((deployment settings).act pid s p a).2.2 = []) ∨
    (∃ priority reply, ((deployment settings).act pid s p a).2.2 =
      some (.redis (.enqueue id priority) .answered reply)) ∨
    ∃ priority fault, fault ≠ .answered ∧
      ((deployment settings).act pid s p a).2.2 =
        some (.redis (.enqueue id priority) fault none) := by
  simp only [deployment]
  rcases p.next_publishing pid s a with
    ⟨row, rest, fault, rfl, hnext⟩ | ⟨op, hop, hnext⟩ | hsilent
  · rw [hnext]
    rcases List.mem_cons.mp h with rfl | hrest
    · cases fault with
      | answered => exact Or.inr (Or.inr (Or.inl ⟨row.priority, _, rfl⟩))
      | lostRequest =>
          exact Or.inr (Or.inr (Or.inr
            ⟨row.priority, .lostRequest, by decide, rfl⟩))
      | lostReply =>
          exact Or.inr (Or.inr (Or.inr
            ⟨row.priority, .lostReply, by decide, rfl⟩))
    · exact Or.inl (by simpa [Store.perform] using hrest)
  · cases p <;> first | exact hop.elim | simp [Process.remaining] at h
  · obtain ⟨-, hissues, hq⟩ := perform_silent hsilent settings pid s
    rcases hq.remaining with hcrashed | hsame
    · exact Or.inr (Or.inl ⟨hcrashed, hissues⟩)
    · rw [hsame]
      exact Or.inl h

theorem crashed_act :
    ((deployment settings).act pid s .crashed a).2.1 = .crashed ∧
      issues ((deployment settings).act pid s .crashed a).2.2 = [] := by
  simp only [deployment]
  rcases Process.crashed.next_publishing pid s a with
    ⟨row, rest, fault, hp, -⟩ | ⟨op, hop, -⟩ | hsilent
  · cases hp
  · exact hop.elim
  · obtain ⟨-, hissues, hq⟩ := perform_silent hsilent settings pid s
    exact ⟨hq.crashed rfl, hissues⟩

end

theorem queuedAfter_true {id : UUID} {o : Option Event}
    (h : id ∉ (reports o).map Job.id) : queuedAfter id true o = true := by
  unfold queuedAfter
  split
  · exact if_neg h
  · simp
  · simp
  · rfl

theorem notMem_issuedBy (settings : Settings) (actions : List (ℕ × Action))
    {id : UUID} {pid : ℕ}
    (h : id ∈ ((after settings actions).process pid).remaining.map Job.id) :
    id ∉ issuedBy pid (historyAfter settings actions) := by
  have hp := publisher_after settings actions pid
  have haccounted := hp.accounted.resolve_left (by
    intro hcrashed
    rw [hcrashed] at h
    simp [Process.remaining] at h)
  have hnodup := hp.nodup
  rw [haccounted, List.nodup_append] at hnodup
  exact fun hissued => hnodup.2.2 id hissued id h rfl

/-- The publication stays undelivered, or the job is put into the queue. -/
theorem Undelivered.concat {settings : Settings}
    {actions : List (ℕ × Action)} {id : UUID} {pid : ℕ}
    (h : Undelivered settings actions id pid) (x : ℕ × Action) :
    Undelivered settings (actions ++ [x]) id pid ∨
      isQueuedSince id (historyAfter settings (actions ++ [x])) = true := by
  obtain ⟨n, a⟩ := x
  have hhistory := historyAfter_concat settings actions (n, a)
  rcases h with hflight | ⟨a', priority, fault, hfault, hevent⟩ |
    ⟨hcrashed, hissued⟩
  · by_cases hn : pid = n
    · subst hn
      rcases remaining_act settings pid (after settings actions).shared a
        hflight with hstill | ⟨hcrash, hissues⟩ |
          ⟨priority, reply, hanswer⟩ | ⟨priority, fault, hfault, hraise⟩
      · left
        left
        rw [process_after_concat]
        exact hstill
      · left
        right
        right
        have hnow : issues (nextEvent settings actions (pid, a)) = [] :=
          hissues
        rw [process_after_concat, hhistory, issuedBy_concat_self, hnow,
          List.append_nil]
        exact ⟨hcrash, notMem_issuedBy settings actions hflight⟩
      · right
        rw [hhistory, isQueuedSince_concat]
        have hnow : nextEvent settings actions (pid, a) =
            some (.redis (.enqueue id priority) .answered reply) := hanswer
        rw [hnow]
        exact if_pos rfl
      · left
        right
        left
        refine ⟨a, priority, fault, hfault, ?_⟩
        rw [hhistory, List.mem_append, List.mem_singleton]
        exact Or.inr (Prod.ext rfl hraise.symm)
    · left
      left
      rw [process_after_other settings actions hn]
      exact hflight
  · left
    right
    left
    refine ⟨a', priority, fault, hfault, ?_⟩
    rw [hhistory, List.mem_append]
    exact Or.inl hevent
  · left
    right
    right
    by_cases hn : pid = n
    · subst hn
      have hact := crashed_act settings pid (after settings actions).shared a
      rw [← hcrashed] at hact
      rw [process_after_concat, hhistory, issuedBy_concat_self]
      refine ⟨hact.1.trans hcrashed, ?_⟩
      have hnow : issues (nextEvent settings actions (pid, a)) = [] := hact.2
      rw [hnow, List.append_nil]
      exact hissued
    · rw [process_after_other settings actions hn, hhistory, issuedBy,
        turnsOf_concat_other hn]
      exact ⟨hcrashed, hissued⟩

/-- A `PENDING` job was put into the queue since it became so, or the enqueue
of its latest entry is undelivered. -/
theorem queued_or_undelivered (settings : Settings)
    (actions : List (ℕ × Action)) {id : UUID}
    (h : isPendingAt (after settings actions).shared.jobs id = true) :
    isQueuedSince id (historyAfter settings actions) = true ∨
      ∃ n pid a, actions[n]? = some (pid, a) ∧
        LatestEntry settings actions id n ∧
        Undelivered settings actions id pid := by
  induction actions using List.reverseRecOn with
  | nil => cases h
  | append_singleton actions x ih =>
      by_cases henters : entersPending (after settings actions).shared.jobs
          (after settings (actions ++ [x])).shared.jobs id = true
      · -- The acting process has just reported the job.
        obtain ⟨pid, a⟩ := x
        refine Or.inr ⟨actions.length, pid, a, by simp,
          LatestEntry.here henters, Or.inl ?_⟩
        have hreports : id ∈ (reports
            (nextEvent settings actions (pid, a))).map Job.id := by
          rw [← List.count_pos_iff, count_nextEvent, henters]
          exact Nat.one_pos
        rw [process_after_concat]
        exact mem_remaining_of_reports settings pid _ a hreports
      · rw [Bool.not_eq_true] at henters
        have hbefore : isPendingAt (after settings actions).shared.jobs id =
            true := by
          simpa [entersPending, h] using henters
        rcases ih hbefore with hqueued | ⟨n, pid, a, hn, hlatest, hstate⟩
        · left
          rw [historyAfter_concat, isQueuedSince_concat, hqueued]
          apply queuedAfter_true
          rw [← List.count_eq_zero, count_nextEvent, henters]
          rfl
        · have hlt : n < actions.length :=
            (List.getElem?_eq_some_iff.mp hn).1
          rcases hstate.concat x with hstate | hqueued
          · refine Or.inr ⟨n, pid, a, ?_, hlatest.concat hlt henters, hstate⟩
            rw [List.getElem?_append_left hlt]
            exact hn
          · exact Or.inl hqueued

/-- No published job is lost.  Take any run from an empty table and an empty
Redis in which the counter stays below `2 ^ 53`: any interleaving of API calls,
scheduler and recovery cycles and runners, with crashes between any two steps
and Redis calls that raise with or without having taken effect.  Then every
`PENDING` job has an entry in the ready set to which the hash points, or the
enqueue that belongs to its latest entry into `PENDING` is in flight, raised,
or was cut off by a crash of its publisher. -/
theorem no_published_job_lost (settings : Settings)
    (actions : List (ℕ × Action))
    (hbound : (after settings actions).shared.redis.sequence < sequenceBound)
    (row : Job) (hrow : row ∈ (after settings actions).shared.jobs.rows)
    (hpending : row.status = .pending) :
    (∃ m, (after settings actions).shared.redis.entries row.id.str = some m ∧
      m ∈ (after settings actions).shared.redis.ready.members) ∨
    ∃ n pid a, actions[n]? = some (pid, a) ∧
      LatestEntry settings actions row.id n ∧
      Undelivered settings actions row.id pid := by
  have hready : isPendingAt (after settings actions).shared.jobs row.id =
      true :=
    isPendingAt_iff.mpr ⟨row, KeyedTable.find?_of_mem hrow, hpending⟩
  rcases queued_or_undelivered settings actions hready with hqueued | hstate
  · left
    have hkept := kept_after settings actions hbound row.id hready hqueued
    obtain ⟨m, hm⟩ := Option.isSome_iff_exists.mp hkept
    have hrep := (projects_after settings actions).represents hbound
    exact ⟨m, hm, hrep.mem_ready_iff.mpr ⟨_, hm⟩⟩
  · exact Or.inr hstate

/-- A runner claims job 1 and stalls before it removes the entry.  The lease
runs out, the job is recovered, activated and enqueued again, and only then the
runner removes the entry it observed. -/
def lateRemove : List (ℕ × Action) :=
  [(0, .start (.submitJob sampleRequest none)),
   (0, .insert (SubmitClock.at 0) 1), (0, .redis .answered),
   (1, .start (.runForever "worker" (seconds 60))), (1, .go), (1, .go),
   (1, .redis .answered), (1, .go), (1, .claim 0 77),
   (2, .start (.recoveryCycle 10)), (2, .write (seconds 61) []),
   (3, .start (.schedulerCycle 10)), (3, .read (seconds 100)),
   (3, .write (seconds 100) []), (3, .redis .answered),
   (1, .redis .answered)]

theorem no_published_job_lost_late_remove :
    ∃ row ∈ (after sampleSettings lateRemove).shared.jobs.rows,
      row.status = .pending ∧
      ((∃ m, (after sampleSettings lateRemove).shared.redis.entries
          row.id.str = some m ∧
        m ∈ (after sampleSettings lateRemove).shared.redis.ready.members) ∨
      ∃ n pid a, lateRemove[n]? = some (pid, a) ∧
        LatestEntry sampleSettings lateRemove row.id n ∧
        Undelivered sampleSettings lateRemove row.id pid) := by
  have hrow : ∃ row ∈ (after sampleSettings lateRemove).shared.jobs.rows,
      row.status = .pending := by decide +kernel
  obtain ⟨row, hmem, hpending⟩ := hrow
  exact ⟨row, hmem, hpending, no_published_job_lost sampleSettings lateRemove
    (by decide +kernel) row hmem hpending⟩

end JobQueue
