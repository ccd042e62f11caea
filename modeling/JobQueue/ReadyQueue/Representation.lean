import JobQueue.ReadyQueue.Member
import JobQueue.Support.Execution

/-!
# Representation of the ready queue

The queue as a machine, and the invariant its two structures keep along every
run: the hash maps exactly the waiting jobs, each to the token of its latest
enqueue, and the sorted set holds exactly those tokens.  Removals may name any
candidate that was ever observed, however long ago.
-/

namespace JobQueue

open Support

/-! ## The machine -/

/-- One command that reaches Redis.  `remove_current` is two of them: the
`HGET` of `current_member`, and a later `remove` of the decoded member. -/
inductive QueueOp
  | enqueue (jobId : UUID) (priority : ℤ)
  | remove (c : QueueCandidate)
  | currentMember (jobId : UUID)
  | peekMany (count : ℤ)

inductive QueueReply
  | enqueued (candidate : Except QueueError QueueCandidate)
  | removed (removed : Bool)
  | member (member : Option Text)
  | candidates (candidates : Except QueueError (List QueueCandidate))

def queue : Machine Redis QueueOp QueueReply where
  step r op :=
    match op with
    | .enqueue jobId priority =>
        let (r', candidate) := enqueue r jobId priority
        (r', .enqueued candidate)
    | .remove c =>
        let (r', removed) := remove r c
        (r', .removed removed)
    | .currentMember jobId => (r, .member (currentMember r jobId))
    | .peekMany count => (r, .candidates (peekMany r count))

/-- Redis after a run from the empty state. -/
def queueAfter (ops : List QueueOp) : Redis := queue.run Redis.empty ops

/-- The answered commands of a run from the empty state. -/
def queueCalls (ops : List QueueOp) : List (QueueOp × QueueReply) :=
  queue.trace Redis.empty ops

/-! ## What a run says about a job -/

def enqueues (calls : List (QueueOp × QueueReply)) : List (UUID × ℤ) :=
  calls.filterMap fun call =>
    match call.1 with
    | .enqueue jobId priority => some (jobId, priority)
    | _ => none

/-- The position of the latest enqueue of a job among all enqueues, and its
priority. -/
def latestEnqueue (jobId : UUID) (calls : List (QueueOp × QueueReply)) :
    Option (ℕ × ℤ) :=
  ((enqueues calls).zipIdx.filter fun x => x.1.1 = jobId).getLast?.map
    fun x => (x.2, x.1.2)

/-- How a call changes whether the job is waiting. -/
def waitingAfter (jobId : UUID) (waiting : Bool) :
    QueueOp × QueueReply → Bool
  | (.enqueue id _, _) => if id = jobId then true else waiting
  | (.remove c, .removed true) => if c.jobId = jobId then false else waiting
  | _ => waiting

/-- The job was enqueued, and not removed since its latest enqueue. -/
def waiting (jobId : UUID) (calls : List (QueueOp × QueueReply)) : Bool :=
  calls.foldl (waitingAfter jobId) false

def removesToken (m : Text) : QueueOp × QueueReply → Bool
  | (.remove c, .removed true) => c.member = m
  | _ => false

theorem getElem?_latestEnqueue {jobId : UUID} {calls : List (QueueOp × QueueReply)}
    {k : ℕ} {p : ℤ} (h : latestEnqueue jobId calls = some (k, p)) :
    (enqueues calls)[k]? = some (jobId, p) := by
  obtain ⟨x, hx, hkp⟩ := Option.map_eq_some_iff.mp h
  have hmem := List.mem_of_getLast? hx
  obtain ⟨hzip, hid⟩ := List.mem_filter.mp hmem
  have hget := List.mem_zipIdx_iff_getElem?.mp hzip
  obtain ⟨rfl, rfl⟩ := Prod.mk.inj hkp
  have hid' : x.1.1 = jobId := of_decide_eq_true hid
  rw [hget, ← hid']

theorem enqueues_concat (calls : List (QueueOp × QueueReply))
    (call : QueueOp × QueueReply) :
    enqueues (calls ++ [call]) = enqueues calls ++ enqueues [call] := by
  simp [enqueues, List.filterMap_append]

theorem latestEnqueue_concat_enqueue (jobId id : UUID) (priority : ℤ)
    (reply : QueueReply) (calls : List (QueueOp × QueueReply)) :
    latestEnqueue jobId (calls ++ [(.enqueue id priority, reply)]) =
      if id = jobId then some ((enqueues calls).length, priority)
      else latestEnqueue jobId calls := by
  have hlist : (enqueues (calls ++ [(.enqueue id priority, reply)])).zipIdx =
      (enqueues calls).zipIdx ++
        [((id, priority), (enqueues calls).length)] := by
    rw [enqueues_concat, List.zipIdx_append, Nat.zero_add]
    rfl
  rw [latestEnqueue, hlist, List.filter_append]
  by_cases hid : id = jobId
  · rw [if_pos hid, List.filter_cons_of_pos (by simpa using hid),
      List.filter_nil, List.getLast?_concat]
    rfl
  · rw [if_neg hid, List.filter_cons_of_neg (by simpa using hid),
      List.filter_nil, List.append_nil]
    rfl

theorem latestEnqueue_concat_other {jobId : UUID}
    {calls : List (QueueOp × QueueReply)} {call : QueueOp × QueueReply}
    (h : enqueues [call] = []) :
    latestEnqueue jobId (calls ++ [call]) = latestEnqueue jobId calls := by
  simp [latestEnqueue, enqueues_concat, h]

theorem waiting_concat (jobId : UUID) (calls : List (QueueOp × QueueReply))
    (call : QueueOp × QueueReply) :
    waiting jobId (calls ++ [call]) =
      waitingAfter jobId (waiting jobId calls) call := by
  simp [waiting]

/-! ## The invariant -/

/-- The two structures represent the waiting jobs of the run, each by the
token of its latest enqueue. -/
structure Represents (calls : List (QueueOp × QueueReply)) (r : Redis) :
    Prop where
  sequence : r.sequence = (enqueues calls).length
  hash : ∀ field m, r.entries field = some m → ∃ id k p,
    field = id.str ∧ latestEnqueue id calls = some (k, p) ∧
      m = token (k + 1) id ∧ (entryScore p, m) ∈ r.ready.entries
  ready : ∀ x ∈ r.ready.entries, ∃ field, r.entries field = some x.2
  waiting : ∀ id : UUID,
    (r.entries id.str).isSome = JobQueue.waiting id calls

theorem represents_empty : Represents [] Redis.empty where
  sequence := rfl
  hash := by
    intro field m h
    cases h
  ready := by
    intro x hx
    cases hx
  waiting _ := rfl

section

variable {calls : List (QueueOp × QueueReply)} {r : Redis}

theorem Represents.minted (h : Represents calls r) {field m : Text}
    (hm : r.entries field = some m) :
    ∃ id k, field = id.str ∧ k < r.sequence ∧ m = token (k + 1) id := by
  obtain ⟨id, k, p, hfield, hlatest, htoken, -⟩ := h.hash field m hm
  have hget := getElem?_latestEnqueue hlatest
  obtain ⟨hlt, -⟩ := List.getElem?_eq_some_iff.mp hget
  rw [h.sequence]
  exact ⟨id, k, hfield, hlt, htoken⟩

theorem Represents.mem_ready_iff (h : Represents calls r) {m : Text} :
    m ∈ r.ready.members ↔ ∃ field, r.entries field = some m := by
  rw [SortedSet.mem_members]
  constructor
  · rintro ⟨s, hs⟩
    exact h.ready (s, m) hs
  · rintro ⟨field, hfield⟩
    obtain ⟨id, k, p, -, -, -, hready⟩ := h.hash field m hfield
    exact ⟨entryScore p, hready⟩

variable (hbound : r.sequence < sequenceBound)

include hbound

theorem Represents.decode (h : Represents calls r) {field m : Text}
    (hm : r.entries field = some m) :
    ∃ c, QueueCandidate.fromMember m = .ok c ∧ c.jobId.str = field := by
  obtain ⟨id, k, rfl, hlt, rfl⟩ := h.minted hm
  have hk : k + 1 < sequenceBound := by omega
  exact ⟨_, fromMember_token hk id, rfl⟩

theorem Represents.field_unique (h : Represents calls r)
    {field field' m : Text} (hm : r.entries field = some m)
    (hm' : r.entries field' = some m) : field = field' := by
  obtain ⟨c, hc, rfl⟩ := h.decode hbound hm
  obtain ⟨c', hc', rfl⟩ := h.decode hbound hm'
  rw [Except.ok.inj (hc.symm.trans hc')]

/-- A remove takes out the token it names and the one mapping that points at
it, and nothing else. -/
theorem Represents.remove_spec (h : Represents calls r) (c : QueueCandidate) :
    (∀ x, x ∈ (remove r c).1.ready.entries ↔
      x ∈ r.ready.entries ∧ x.2 ≠ c.member) ∧
    (∀ field, (remove r c).1.entries field =
      if r.entries field = some c.member then none
      else r.entries field) ∧
    (remove r c).1.sequence = r.sequence ∧
    ((remove r c).2 = true ↔ c.member ∈ r.ready.members) := by
  have hremoved : (remove r c).2 = true ↔ c.member ∈ r.ready.members := by
    by_cases hmem : c.member ∈ r.ready.members
    · simp [remove, removeScript, Redis.zrem, hmem, apply_ite]
    · simp [remove, removeScript, Redis.zrem, hmem, apply_ite]
  by_cases hhash : r.entries c.jobId.str = some c.member
  · have hstate : (remove r c).1 =
        { r with
          ready := r.ready.remove c.member
          entries := Function.update r.entries c.jobId.str none } := by
      simp [remove, removeScript, Redis.zrem, Redis.hget, Redis.hdel, hhash]
    refine ⟨?_, ?_, ?_, hremoved⟩
    · intro x
      rw [hstate]
      exact SortedSet.mem_remove
    · intro field
      rw [hstate]
      by_cases hfield : field = c.jobId.str
      · subst hfield
        simp [hhash]
      · have hne : r.entries field ≠ some c.member := fun heq =>
          hfield (h.field_unique hbound heq hhash)
        simp [Function.update, hfield, hne]
    · rw [hstate]
  · have hstate : (remove r c).1 =
        { r with ready := r.ready.remove c.member } := by
      simp [remove, removeScript, Redis.zrem, Redis.hget, hhash]
    refine ⟨?_, ?_, ?_, hremoved⟩
    · intro x
      rw [hstate]
      exact SortedSet.mem_remove
    · intro field
      rw [hstate]
      have hne : r.entries field ≠ some c.member := by
        intro heq
        obtain ⟨d, hd, hfield⟩ := h.decode hbound heq
        have hsame := Except.ok.inj (hd.symm.trans c.fromMember_member)
        rw [hsame] at hfield
        exact hhash (hfield ▸ heq)
      simp [hne]
    · rw [hstate]

end

/-! ## Steps -/

/-- The enqueue script, as long as the counter does not overflow. -/
theorem enqueueScript_eq {r : Redis} (h : r.sequence + 1 < 2 ^ 63)
    (score : ℤ) (jobId : Text) (width : ℕ) :
    enqueueScript r score jobId width =
      .ok ({ ready := ((r.entries jobId).elim r.ready r.ready.remove).add
              score (entryMember width (r.sequence + 1) jobId)
             entries := Function.update r.entries jobId
              (some (entryMember width (r.sequence + 1) jobId))
             sequence := r.sequence + 1 },
        entryMember width (r.sequence + 1) jobId) := by
  have hincr : r.incr =
      .ok ({ r with sequence := r.sequence + 1 }, r.sequence + 1) := if_pos h
  rw [enqueueScript, hincr]
  cases hprev : r.entries jobId with
  | none =>
      simp only [bind, Except.bind, Redis.hget, hprev]
      rfl
  | some previous =>
      simp only [bind, Except.bind, Redis.hget, hprev]
      rfl

/-- An enqueue mints the next token, and replaces the job's mapping and its
entry in the sorted set. -/
theorem enqueue_spec {calls : List (QueueOp × QueueReply)} {r : Redis}
    (h : Represents calls r) (hbound : r.sequence + 1 < sequenceBound)
    (id : UUID) (p : ℤ) :
    (enqueue r id p).2 = .ok (tokenCandidate hbound id) ∧
    (enqueue r id p).1.sequence = r.sequence + 1 ∧
    (enqueue r id p).1.entries =
      Function.update r.entries id.str (some (token (r.sequence + 1) id)) ∧
    ∀ x, x ∈ (enqueue r id p).1.ready.entries ↔
      x = (entryScore p, token (r.sequence + 1) id) ∨
        x ∈ r.ready.entries ∧ r.entries id.str ≠ some x.2 := by
  have hlt : r.sequence + 1 < 2 ^ 63 := hbound.trans (by decide)
  have hfresh : ∀ x ∈ r.ready.entries, x.2 ≠ token (r.sequence + 1) id := by
    intro x hx heq
    obtain ⟨field, hfield⟩ := h.ready x hx
    obtain ⟨id', k, -, hk, htoken⟩ := h.minted hfield
    have hsame := (token_injective (by omega) hbound
      (htoken.symm.trans heq)).1
    omega
  have henqueue : enqueue r id p =
      ({ ready := ((r.entries id.str).elim r.ready r.ready.remove).add
          (entryScore p) (token (r.sequence + 1) id)
         entries := Function.update r.entries id.str
          (some (token (r.sequence + 1) id))
         sequence := r.sequence + 1 },
        .ok (tokenCandidate hbound id)) := by
    rw [enqueue, enqueueScript_eq hlt]
    exact Prod.ext rfl (fromMember_token hbound id)
  rw [henqueue]
  refine ⟨rfl, rfl, rfl, fun x => ?_⟩
  have hprev : x ∈ ((r.entries id.str).elim r.ready r.ready.remove).entries ↔
      x ∈ r.ready.entries ∧ r.entries id.str ≠ some x.2 := by
    cases r.entries id.str with
    | none => simp
    | some previous => simp [SortedSet.mem_remove, eq_comm]
  rw [SortedSet.mem_add, hprev]
  constructor
  · rintro (hx | ⟨hx, -⟩)
    · exact Or.inl hx
    · exact Or.inr hx
  · rintro (hx | hx)
    · exact Or.inl hx
    · exact Or.inr ⟨hx, hfresh x hx.1⟩

theorem Represents.enqueue {calls : List (QueueOp × QueueReply)} {r : Redis}
    (h : Represents calls r) (hbound : r.sequence + 1 < sequenceBound)
    (id : UUID) (p : ℤ) (reply : QueueReply) :
    Represents (calls ++ [(.enqueue id p, reply)])
      (JobQueue.enqueue r id p).1 := by
  obtain ⟨-, hsequence, hentries, hready⟩ := enqueue_spec h hbound id p
  have hother : ∀ {field m : Text}, field ≠ id.str →
      r.entries field = some m → r.entries id.str ≠ some m := by
    intro field m hne hm heq
    exact hne (h.field_unique (by omega) hm heq)
  constructor
  · rw [hsequence, h.sequence, enqueues_concat]
    simp [enqueues]
  · intro field m hm
    rw [hentries] at hm
    by_cases hfield : field = id.str
    · subst hfield
      rw [Function.update_self] at hm
      obtain rfl := Option.some.inj hm
      refine ⟨id, r.sequence, p, rfl, ?_, rfl, ?_⟩
      · rw [latestEnqueue_concat_enqueue, if_pos rfl, h.sequence]
      · exact (hready _).mpr (Or.inl rfl)
    · rw [Function.update_of_ne hfield] at hm
      obtain ⟨id', k, q, rfl, hlatest, htoken, hmem⟩ := h.hash field m hm
      refine ⟨id', k, q, rfl, ?_, htoken, ?_⟩
      · rw [latestEnqueue_concat_enqueue, if_neg, hlatest]
        rintro rfl
        exact hfield rfl
      · exact (hready _).mpr (Or.inr ⟨hmem, hother hfield hm⟩)
  · intro x hx
    rw [hentries]
    rcases (hready x).mp hx with rfl | ⟨hx, hne⟩
    · exact ⟨id.str, Function.update_self _ _ _⟩
    · obtain ⟨field, hfield⟩ := h.ready x hx
      have hdiff : field ≠ id.str := by
        rintro rfl
        exact hne hfield
      exact ⟨field, by rw [Function.update_of_ne hdiff, hfield]⟩
  · intro id'
    rw [hentries, waiting_concat]
    by_cases hid : id = id'
    · subst hid
      simp [waitingAfter]
    · have hne : id'.str ≠ id.str := fun heq =>
        hid (UUID.str_injective heq).symm
      rw [Function.update_of_ne hne, h.waiting]
      simp [waitingAfter, hid]

theorem Represents.remove {calls : List (QueueOp × QueueReply)} {r : Redis}
    (h : Represents calls r) (hbound : r.sequence < sequenceBound)
    (c : QueueCandidate) :
    Represents (calls ++ [(.remove c, .removed (JobQueue.remove r c).2)])
      (JobQueue.remove r c).1 := by
  obtain ⟨hready, hentries, hsequence, hremoved⟩ := h.remove_spec hbound c
  have hkeep : ∀ {field m : Text},
      (JobQueue.remove r c).1.entries field = some m →
      r.entries field = some m ∧ m ≠ c.member := by
    intro field m hm
    rw [hentries] at hm
    split at hm
    · cases hm
    · next hne => exact ⟨hm, fun heq => hne (by rw [hm, heq])⟩
  constructor
  · rw [hsequence, h.sequence, enqueues_concat]
    simp [enqueues]
  · intro field m hm
    obtain ⟨hm, hne⟩ := hkeep hm
    obtain ⟨id, k, p, hfield, hlatest, htoken, hmem⟩ := h.hash field m hm
    exact ⟨id, k, p, hfield, by rw [latestEnqueue_concat_other rfl, hlatest],
      htoken, (hready _).mpr ⟨hmem, hne⟩⟩
  · intro x hx
    obtain ⟨hx, hne⟩ := (hready x).mp hx
    obtain ⟨field, hfield⟩ := h.ready x hx
    refine ⟨field, ?_⟩
    rw [hentries, if_neg, hfield]
    rw [hfield]
    exact fun heq => hne (Option.some.inj heq)
  · intro id
    rw [hentries, waiting_concat]
    by_cases hmem : r.entries id.str = some c.member
    · have htrue : (JobQueue.remove r c).2 = true :=
        hremoved.mpr (h.mem_ready_iff.mpr ⟨id.str, hmem⟩)
      obtain ⟨d, hd, hid⟩ := h.decode hbound hmem
      obtain rfl := Except.ok.inj (hd.symm.trans c.fromMember_member)
      simp [hmem, htrue, waitingAfter, UUID.str_injective hid]
    · have hsame : waitingAfter id (JobQueue.waiting id calls)
          (.remove c, .removed (JobQueue.remove r c).2) =
          JobQueue.waiting id calls := by
        cases hb : (JobQueue.remove r c).2 with
        | false => rfl
        | true =>
            have hne : c.jobId ≠ id := by
              rintro rfl
              obtain ⟨field, hfield⟩ := h.mem_ready_iff.mp (hremoved.mp hb)
              obtain ⟨d, hd, rfl⟩ := h.decode hbound hfield
              obtain rfl := Except.ok.inj (hd.symm.trans c.fromMember_member)
              exact hmem hfield
            simp [waitingAfter, hne]
      rw [if_neg hmem, hsame, h.waiting]

/-! ## Runs -/

theorem sequence_enqueue (r : Redis) (id : UUID) (p : ℤ) :
    (enqueue r id p).1.sequence = r.sequence + 1 ∨
      2 ^ 63 ≤ r.sequence + 1 ∧ (enqueue r id p).1 = r := by
  by_cases h : r.sequence + 1 < 2 ^ 63
  · left
    rw [enqueue, enqueueScript_eq h]
  · right
    have hincr : r.incr = .error .incrementOverflow := if_neg h
    have hscript : enqueueScript r (entryScore p) id.str sequenceWidth =
        .error .incrementOverflow := by
      rw [enqueueScript, hincr]
      rfl
    refine ⟨not_lt.mp h, ?_⟩
    rw [enqueue, hscript]

theorem sequence_remove (r : Redis) (c : QueueCandidate) :
    (remove r c).1.sequence = r.sequence := by
  by_cases hhash : r.entries c.jobId.str = some c.member
  · simp [remove, removeScript, Redis.zrem, Redis.hget, Redis.hdel, hhash]
  · simp [remove, removeScript, Redis.zrem, Redis.hget, hhash]

theorem sequence_le_step (r : Redis) (op : QueueOp) :
    r.sequence ≤ (queue.step r op).1.sequence := by
  cases op with
  | enqueue id p =>
      rcases sequence_enqueue r id p with hnext | ⟨-, hsame⟩
      · exact (Nat.le_succ _).trans hnext.ge
      · exact (congrArg Redis.sequence hsame).ge
  | remove c => exact (sequence_remove r c).ge
  | currentMember id => exact le_rfl
  | peekMany count => exact le_rfl

theorem lt_bound_of_enqueue {r : Redis} {id : UUID} {p : ℤ}
    (h : (enqueue r id p).1.sequence < sequenceBound) :
    r.sequence + 1 < sequenceBound := by
  rcases sequence_enqueue r id p with hnext | ⟨hlarge, hsame⟩
  · rwa [← hnext]
  · rw [hsame] at h
    have hbound : sequenceBound < 2 ^ 63 := by decide
    omega

theorem Represents.read {calls : List (QueueOp × QueueReply)} {r : Redis}
    (h : Represents calls r) {call : QueueOp × QueueReply}
    (henqueues : enqueues [call] = [])
    (hwaiting : ∀ id b, waitingAfter id b call = b) :
    Represents (calls ++ [call]) r := by
  refine ⟨?_, ?_, h.ready, ?_⟩
  · rw [enqueues_concat, henqueues, List.append_nil, h.sequence]
  · intro field m hm
    obtain ⟨id, k, p, hfield, hlatest, hrest⟩ := h.hash field m hm
    rw [← latestEnqueue_concat_other henqueues] at hlatest
    exact ⟨id, k, p, hfield, hlatest, hrest⟩
  · intro id
    rw [waiting_concat, hwaiting, h.waiting]

/-- Every command keeps the representation. -/
theorem Represents.step {calls : List (QueueOp × QueueReply)} {r : Redis}
    (h : Represents calls r) (op : QueueOp)
    (hbound : (queue.step r op).1.sequence < sequenceBound) :
    Represents (calls ++ [(op, (queue.step r op).2)])
      (queue.step r op).1 := by
  cases op with
  | enqueue id p => exact h.enqueue (lt_bound_of_enqueue hbound) id p _
  | remove c => exact h.remove (by rwa [← sequence_remove r c]) c
  | currentMember id => exact h.read rfl fun _ _ => rfl
  | peekMany count => exact h.read rfl fun _ _ => rfl

/-- Along every run in which the counter stays exact, the two structures
represent the waiting jobs. -/
theorem represents_after {ops : List QueueOp}
    (h : (queueAfter ops).sequence < sequenceBound) :
    Represents (queueCalls ops) (queueAfter ops) := by
  have hrun := queue.trace_invariant
    (P := fun calls r => r.sequence < sequenceBound → Represents calls r)
    (fun _ => represents_empty)
    (fun calls r op ih hbound =>
      (ih ((sequence_le_step r op).trans_lt hbound)).step op hbound) ops
  exact hrun h

/-- The token was queued and has been taken out. -/
def Spent (r : Redis) (m : Text) : Prop :=
  m ∉ r.ready.members ∧ ∃ id k, k < r.sequence ∧ m = token (k + 1) id

theorem Spent.step {calls : List (QueueOp × QueueReply)} {r : Redis}
    {m : Text} (hspent : Spent r m) (h : Represents calls r) (op : QueueOp)
    (hbound : (queue.step r op).1.sequence < sequenceBound) :
    Spent (queue.step r op).1 m := by
  obtain ⟨hout, id, k, hk, hm⟩ := hspent
  refine ⟨?_, id, k, hk.trans_le (sequence_le_step r op), hm⟩
  cases op with
  | enqueue id' p =>
      have hnext := lt_bound_of_enqueue hbound
      obtain ⟨-, -, -, hready⟩ := enqueue_spec h hnext id' p
      rw [SortedSet.mem_members]
      rintro ⟨s, hs⟩
      rcases (hready _).mp hs with hnew | ⟨hold, -⟩
      · have heq := (congrArg Prod.snd hnew).symm.trans hm
        have hsame := (token_injective hnext (by omega) heq).1
        omega
      · exact hout (SortedSet.mem_members.mpr ⟨s, hold⟩)
  | remove c =>
      have hlt : r.sequence < sequenceBound := by
        rwa [← sequence_remove r c]
      obtain ⟨hready, -⟩ := h.remove_spec hlt c
      rw [SortedSet.mem_members]
      rintro ⟨s, hs⟩
      exact hout (SortedSet.mem_members.mpr ⟨s, ((hready _).mp hs).1⟩)
  | currentMember id' => exact hout
  | peekMany count => exact hout

/-- A call that removes a token finds it queued, and leaves it spent. -/
theorem spent_of_removesToken {calls : List (QueueOp × QueueReply)}
    {r : Redis} {m : Text} (h : Represents calls r) {op : QueueOp}
    (hbound : (queue.step r op).1.sequence < sequenceBound)
    (hremoves : removesToken m (op, (queue.step r op).2) = true) :
    m ∈ r.ready.members ∧ Spent (queue.step r op).1 m := by
  cases op with
  | remove c =>
      have hlt : r.sequence < sequenceBound := by
        rwa [← sequence_remove r c]
      obtain ⟨hready, -, hsequence, hremoved⟩ := h.remove_spec hlt c
      have htrue : (remove r c).2 = true ∧ c.member = m := by
        simp only [queue, removesToken] at hremoves
        cases hb : (remove r c).2 with
        | true => simpa [hb] using hremoves
        | false => simp [hb] at hremoves
      obtain ⟨hb, rfl⟩ := htrue
      have hmem := hremoved.mp hb
      obtain ⟨field, hfield⟩ := h.mem_ready_iff.mp hmem
      obtain ⟨id, k, -, hk, hm⟩ := h.minted hfield
      refine ⟨hmem, ?_, id, k, hk.trans_eq hsequence.symm, hm⟩
      rw [SortedSet.mem_members]
      rintro ⟨s, hs⟩
      exact ((hready _).mp hs).2 rfl
  | enqueue id p => cases hremoves
  | currentMember id => cases hremoves
  | peekMany count => cases hremoves

/-- Over a whole run, at most one call removes a given token. -/
theorem removesToken_le_one {ops : List QueueOp} (m : Text)
    (h : (queueAfter ops).sequence < sequenceBound) :
    (queueCalls ops).countP (removesToken m) ≤ 1 := by
  have hrun := queue.trace_invariant
    (P := fun calls r => r.sequence < sequenceBound →
      Represents calls r ∧ calls.countP (removesToken m) ≤ 1 ∧
        (0 < calls.countP (removesToken m) → Spent r m))
    (fun _ => ⟨represents_empty, by simp⟩) ?_ ops
  · exact (hrun h).2.1
  · intro calls r op ih hbound
    obtain ⟨hrep, hle, hspent⟩ :=
      ih ((sequence_le_step r op).trans_lt hbound)
    refine ⟨hrep.step op hbound, ?_⟩
    rw [List.countP_append, List.countP_singleton]
    by_cases hremoves : removesToken m (op, (queue.step r op).2) = true
    · obtain ⟨hmem, hnow⟩ := spent_of_removesToken hrep hbound hremoves
      have hzero : calls.countP (removesToken m) = 0 := by
        by_contra hne
        exact (hspent (Nat.pos_of_ne_zero hne)).1 hmem
      rw [hzero, if_pos hremoves]
      exact ⟨le_rfl, fun _ => hnow⟩
    · rw [if_neg hremoves, Nat.add_zero]
      exact ⟨hle, fun hpos => (hspent hpos).step hrep op hbound⟩

/-- Representation invariant and token-exact removal, for every run of the
ready queue from an empty Redis in which the counter stays below `2 ^ 53`.
The hash maps job ids to members that decode to them; the members of the
sorted set are exactly the values of the hash, so a job is queued at most
once; a remove takes out exactly the member it names, together with the one
mapping that points at it; and at most one remove per token returns true. -/
theorem ready_queue_representation (ops : List QueueOp)
    (h : (queueAfter ops).sequence < sequenceBound) :
    (∀ field m, (queueAfter ops).entries field = some m →
      ∃ c, QueueCandidate.fromMember m = .ok c ∧ c.jobId.str = field) ∧
    (∀ m, m ∈ (queueAfter ops).ready.members ↔
      ∃ field, (queueAfter ops).entries field = some m) ∧
    (∀ m ∈ (queueAfter ops).ready.members,
      ∀ m' ∈ (queueAfter ops).ready.members, ∀ c c',
      QueueCandidate.fromMember m = .ok c →
      QueueCandidate.fromMember m' = .ok c' → c.jobId = c'.jobId → m = m') ∧
    (∀ c : QueueCandidate,
      (∀ x, x ∈ (remove (queueAfter ops) c).1.ready.entries ↔
        x ∈ (queueAfter ops).ready.entries ∧ x.2 ≠ c.member) ∧
      (∀ field, (remove (queueAfter ops) c).1.entries field =
        if (queueAfter ops).entries field = some c.member then none
        else (queueAfter ops).entries field) ∧
      (∀ field field', (queueAfter ops).entries field = some c.member →
        (queueAfter ops).entries field' = some c.member →
        field = field') ∧
      ((remove (queueAfter ops) c).2 = true ↔
        c.member ∈ (queueAfter ops).ready.members)) ∧
    ∀ m, (queueCalls ops).countP (removesToken m) ≤ 1 := by
  have hrep := represents_after h
  refine ⟨fun field m hm => hrep.decode h hm, fun m => hrep.mem_ready_iff, ?_,
    ?_, fun m => removesToken_le_one m h⟩
  · intro m hm m' hm' c c' hc hc' hid
    obtain ⟨field, hfield⟩ := hrep.mem_ready_iff.mp hm
    obtain ⟨field', hfield'⟩ := hrep.mem_ready_iff.mp hm'
    obtain ⟨d, hd, rfl⟩ := hrep.decode h hfield
    obtain ⟨d', hd', rfl⟩ := hrep.decode h hfield'
    obtain rfl := Except.ok.inj (hc.symm.trans hd)
    obtain rfl := Except.ok.inj (hc'.symm.trans hd')
    rw [hid, hfield'] at hfield
    exact (Option.some.inj hfield).symm
  · intro c
    obtain ⟨hready, hentries, -, hremoved⟩ := hrep.remove_spec h c
    exact ⟨hready, hentries,
      fun field field' => hrep.field_unique h, hremoved⟩

/-- A late remove of the first token of a job, after the job was enqueued
again, returns false and leaves the second token where it is. -/
theorem ready_queue_representation_stale :
    ∃ c : QueueCandidate, c.member = token 1 1 ∧
      (remove (queueAfter [.enqueue 1 50, .enqueue 1 60]) c).2 = false ∧
      (remove (queueAfter [.enqueue 1 50, .enqueue 1 60]) c).1.entries
        (1 : UUID).str = some (token 2 1) ∧
      token 2 1 ∈ (remove (queueAfter [.enqueue 1 50, .enqueue 1 60])
        c).1.ready.members := by
  have hne : token 2 1 ≠ token 1 1 := fun heq => by
    have hsame := token_injective (by decide) (by decide) heq
    cases hsame.1
  have hready : (queueAfter [.enqueue 1 50, .enqueue 1 60]).ready.entries =
      [(40, token 2 1)] := by decide +kernel
  have hcurrent : (queueAfter [.enqueue 1 50, .enqueue 1 60]).entries
      (1 : UUID).str = some (token 2 1) := by decide +kernel
  obtain ⟨-, hmembers, -, hremove, -⟩ := ready_queue_representation
    [.enqueue 1 50, .enqueue 1 60] (by decide)
  obtain ⟨hleft, hentries, -, hremoved⟩ :=
    hremove (tokenCandidate (by decide : 1 < sequenceBound) 1)
  refine ⟨tokenCandidate (by decide) 1, rfl, ?_, ?_, ?_⟩
  · rw [Bool.eq_false_iff, ne_eq, hremoved, SortedSet.members, hready]
    exact fun hmem => hne (List.mem_singleton.mp hmem).symm
  · rw [hentries, hcurrent, if_neg]
    exact fun heq => hne (Option.some.inj heq)
  · refine List.mem_map.mpr ⟨(40, token 2 1), (hleft _).mpr ⟨?_, hne⟩, rfl⟩
    rw [hready]
    exact List.mem_singleton_self _

end JobQueue
