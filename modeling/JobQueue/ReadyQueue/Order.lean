import JobQueue.ReadyQueue.Representation

/-!
# Service order

Reading the front of the ready queue yields the waiting jobs by decreasing
clamped priority and, at equal priority, in the order of their latest
enqueues.  The order is stated over the history of the run; the sorted set
encodes it in scores and in the bytes of its members.
-/

namespace JobQueue

open Support

/-- The job `x` is to be served before the job `y`. -/
def ServedBefore (calls : List (QueueOp × QueueReply)) (x y : UUID) : Prop :=
  ∃ i p j q, latestEnqueue x calls = some (i, p) ∧
    latestEnqueue y calls = some (j, q) ∧
    (clampPriority q < clampPriority p ∨
      clampPriority p = clampPriority q ∧ i < j)

/-- The job of a member, with a default for texts that are not members. -/
def jobOf (m : Text) : UUID :=
  match decodeMember m with
  | .ok (jobId, _) => jobId
  | .error _ => 0

theorem jobOf_member (c : QueueCandidate) : jobOf c.member = c.jobId := by
  rw [jobOf, c.decodes]

def serviceOrder (r : Redis) : List UUID :=
  r.ready.members.map jobOf

theorem mapM_ok {ε α β γ : Type} {f : α → Except ε β} {g : α → γ}
    {q : β → γ} {xs : List α} (h : ∀ x ∈ xs, ∃ y, f x = .ok y ∧ q y = g x) :
    ∃ ys, xs.mapM f = .ok ys ∧ ys.map q = xs.map g := by
  induction xs with
  | nil => exact ⟨[], rfl, rfl⟩
  | cons x xs ih =>
      obtain ⟨y, hy, hq⟩ := h x (by simp)
      obtain ⟨ys, hys, hqs⟩ := ih fun z hz => h z (by simp [hz])
      refine ⟨y :: ys, ?_, by simp [hq, hqs]⟩
      rw [List.mapM_cons, hy, hys]
      rfl

section

variable {calls : List (QueueOp × QueueReply)} {r : Redis}
  (h : Represents calls r) (hbound : r.sequence < sequenceBound)

include h hbound

/-- Every entry of the sorted set encodes the latest enqueue of its job. -/
theorem Represents.entry {x : ℤ × Text} (hx : x ∈ r.ready.entries) :
    ∃ id k p, latestEnqueue id calls = some (k, p) ∧ k < r.sequence ∧
      x = (entryScore p, token (k + 1) id) ∧
      jobOf x.2 = id ∧ r.entries id.str = some x.2 := by
  obtain ⟨field, hfield⟩ := h.ready x hx
  obtain ⟨id, k, p, rfl, hlatest, htoken, hmem⟩ := h.hash field x.2 hfield
  have hk : k < r.sequence := by
    rw [h.sequence]
    exact (List.getElem?_eq_some_iff.mp (getElem?_latestEnqueue hlatest)).1
  have hscore : x.1 = entryScore p := SortedSet.score_unique hx hmem
  refine ⟨id, k, p, hlatest, hk, Prod.ext hscore htoken, ?_, hfield⟩
  rw [htoken]
  exact jobOf_member (tokenCandidate (by omega) id)

theorem Represents.fromMember_ok {m : Text} (hm : m ∈ r.ready.members) :
    ∃ c, QueueCandidate.fromMember m = .ok c ∧ c.jobId = jobOf m := by
  obtain ⟨field, hfield⟩ := h.mem_ready_iff.mp hm
  obtain ⟨id, k, -, hk, rfl⟩ := h.minted hfield
  have hlt : k + 1 < sequenceBound := by omega
  exact ⟨tokenCandidate hlt id, fromMember_token hlt id,
    (jobOf_member (tokenCandidate hlt id)).symm⟩

/-- A job is in the service order exactly when it is waiting. -/
theorem Represents.mem_serviceOrder (id : UUID) :
    id ∈ serviceOrder r ↔ JobQueue.waiting id calls = true := by
  rw [← h.waiting id, Option.isSome_iff_exists]
  constructor
  · intro hid
    obtain ⟨m, hm, rfl⟩ := List.mem_map.mp hid
    obtain ⟨s, hs⟩ := SortedSet.mem_members.mp hm
    obtain ⟨id, k, p, -, -, -, hjob, hentry⟩ := h.entry hbound hs
    rw [hjob]
    exact ⟨m, hentry⟩
  · rintro ⟨m, hm⟩
    refine List.mem_map.mpr ⟨m, h.mem_ready_iff.mpr ⟨id.str, hm⟩, ?_⟩
    obtain ⟨id', k, hid, hk, rfl⟩ := h.minted hm
    obtain rfl := UUID.str_injective hid
    exact jobOf_member (tokenCandidate (by omega) id)

/-- The encoding of the sorted set is the service order. -/
theorem Represents.pairwise_serviceOrder :
    (serviceOrder r).Pairwise (ServedBefore calls) := by
  rw [serviceOrder, SortedSet.members, List.map_map, List.pairwise_map]
  refine r.ready.pairwise_lt.imp_of_mem ?_
  intro x y hx hy hlt
  obtain ⟨u, i, p, hu, hi, rfl, hjx, -⟩ := h.entry hbound hx
  obtain ⟨v, j, q, hv, hj, rfl, hjy, -⟩ := h.entry hbound hy
  simp only [Function.comp_apply, hjx, hjy]
  refine ⟨i, p, j, q, hu, hv, ?_⟩
  rcases hlt with hscore | ⟨hscore, hmember⟩
  · left
    simp only [entryScore] at hscore
    omega
  · right
    simp only [entryScore] at hscore hmember
    refine ⟨by omega, ?_⟩
    by_contra hge
    rcases Nat.lt_or_eq_of_le (not_lt.mp hge) with hji | rfl
    · exact lt_asymm hmember (token_lt (by omega) (by omega) v u)
    · have hsame := (getElem?_latestEnqueue hu).symm.trans
        (getElem?_latestEnqueue hv)
      obtain ⟨rfl, -⟩ := Prod.mk.inj (Option.some.inj hsame)
      exact lt_irrefl _ hmember

theorem Represents.peekMany_ok {n : ℕ} (hn : 1 ≤ n) :
    ∃ candidates, peekMany r n = .ok candidates ∧
      candidates.map QueueCandidate.jobId = (serviceOrder r).take n := by
  rw [peekMany, SortedSet.range_zero _ hn, serviceOrder, ← List.map_take]
  exact mapM_ok fun m hm => h.fromMember_ok hbound (List.mem_of_mem_take hm)

theorem Represents.peek_ok :
    ∃ candidate, peek r = .ok candidate ∧
      candidate.map QueueCandidate.jobId = (serviceOrder r).head? := by
  obtain ⟨candidates, hpeek, hjobs⟩ := h.peekMany_ok hbound (n := 1) le_rfl
  refine ⟨candidates.head?, ?_, ?_⟩
  · rw [peek]
    simp only [Nat.cast_one] at hpeek
    rw [hpeek]
    rfl
  · rw [← List.head?_map, hjobs, List.head?_take]
    rfl

end

/-- Absolute priority with first-in first-out, for every run of the ready
queue from an empty Redis in which the counter stays below `2 ^ 53`.  There is
an order of the waiting jobs, by decreasing clamped priority and then by latest
enqueue, such that reading `n` candidates returns the first `n` jobs of it,
and reading one returns its head, or nothing exactly when the queue is
empty. -/
theorem absolute_priority_fifo (ops : List QueueOp)
    (h : (queueAfter ops).sequence < sequenceBound) :
    ∃ order : List UUID,
      (∀ id, id ∈ order ↔ waiting id (queueCalls ops) = true) ∧
      order.Pairwise (ServedBefore (queueCalls ops)) ∧
      order.length = size (queueAfter ops) ∧
      (∀ n : ℕ, 1 ≤ n → ∃ candidates,
        peekMany (queueAfter ops) n = .ok candidates ∧
        candidates.map QueueCandidate.jobId = order.take n) ∧
      (∃ candidate, peek (queueAfter ops) = .ok candidate ∧
        candidate.map QueueCandidate.jobId = order.head?) ∧
      (peek (queueAfter ops) = .ok none ↔ size (queueAfter ops) = 0) := by
  have hrep := represents_after h
  have hsize : (serviceOrder (queueAfter ops)).length =
      size (queueAfter ops) := by
    simp [serviceOrder, SortedSet.members, size, SortedSet.card]
  refine ⟨serviceOrder (queueAfter ops), hrep.mem_serviceOrder h,
    hrep.pairwise_serviceOrder h, hsize, fun n hn => hrep.peekMany_ok h hn,
    hrep.peek_ok h, ?_⟩
  obtain ⟨candidate, hpeek, hjob⟩ := hrep.peek_ok h
  rw [hpeek, ← hsize, List.length_eq_zero_iff]
  cases candidate with
  | none => simpa [eq_comm] using hjob
  | some c =>
      have hne : serviceOrder (queueAfter ops) ≠ [] := by
        intro hnil
        rw [hnil] at hjob
        cases hjob
      simp [hne]

/-- Three jobs, one of them enqueued again at a higher priority: the queue
serves the waiting jobs in their order. -/
theorem absolute_priority_fifo_sample :
    ∃ order : List UUID,
      (∀ id, id ∈ order ↔ waiting id (queueCalls
        [.enqueue 1 5, .enqueue 2 5, .enqueue 3 500, .enqueue 2 100]) =
          true) ∧
      ∃ candidate, peek (queueAfter
          [.enqueue 1 5, .enqueue 2 5, .enqueue 3 500, .enqueue 2 100]) =
        .ok candidate ∧
        candidate.map QueueCandidate.jobId = order.head? := by
  obtain ⟨order, hmem, -, -, -, hpeek, -⟩ := absolute_priority_fifo
    [.enqueue 1 5, .enqueue 2 5, .enqueue 3 500, .enqueue 2 100] (by decide)
  exact ⟨order, hmem, hpeek⟩

end JobQueue
