import JobQueue.Core.Text
import JobQueue.Support.SortedSet

/-!
# The ready queue in Redis

The three keys of the ready queue, the two Lua scripts that change them, and
the operations of `ReadyQueue`.  Members are entry tokens: a zero-padded
sequence number, a colon and a job id.  Each script runs without interleaving,
so a script is one function on the state.
-/

namespace JobQueue

open Support

/-- Priorities are clamped to at most this. -/
def maxPriority : ℤ := 100

/-- Width of the zero-padded sequence in a member. -/
def sequenceWidth : ℕ := 19

/-! ## Candidates -/

/-- What an operation of the ready queue may raise on its own account. -/
inductive QueueError
  | malformedMember (member : Text)
  | badUuid (text : Text)
  | badInteger (text : Text)
  | incrementOverflow
deriving DecidableEq

/-- Take a member apart into job id and sequence. -/
def decodeMember (member : Text) : Except QueueError (UUID × ℤ) :=
  match partitionColon member with
  | none => .error (.malformedMember member)
  | some (sequenceText, jobIdText) =>
      match UUID.parse jobIdText with
      | none => .error (.badUuid jobIdText)
      | some jobId =>
          match pyInt 10 sequenceText with
          | none => .error (.badInteger sequenceText)
          | some sequence => .ok (jobId, sequence)

/-- A specific queue entry, as observed by a worker.  Candidates are only ever
made from members, so they carry what their member decodes to. -/
structure QueueCandidate where
  jobId : UUID
  member : Text
  sequence : ℤ
  decodes : decodeMember member = .ok (jobId, sequence)

def QueueCandidate.fromMember (member : Text) :
    Except QueueError QueueCandidate :=
  match h : decodeMember member with
  | .ok (jobId, sequence) => .ok ⟨jobId, member, sequence, h⟩
  | .error e => .error e

def clampPriority (priority : ℤ) : ℤ := max 0 (min maxPriority priority)

/-- Score for a priority.  Higher priority yields a lower score. -/
def entryScore (priority : ℤ) : ℤ := maxPriority - clampPriority priority

/-! ## Redis and Lua -/

/-- The keys of the ready queue: the sorted set of members, the hash from job
id to current member, and the sequence counter. -/
structure Redis where
  ready : SortedSet ℤ Text
  entries : Text → Option Text
  sequence : ℕ

namespace Redis

/-- No key exists; a missing counter counts as zero. -/
def empty : Redis where
  ready := SortedSet.empty
  entries _ := none
  sequence := 0

/-- `INCR`, which refuses to leave the range of a signed 64-bit integer. -/
def incr (r : Redis) : Except QueueError (Redis × ℕ) :=
  if r.sequence + 1 < 2 ^ 63 then
    .ok ({ r with sequence := r.sequence + 1 }, r.sequence + 1)
  else .error .incrementOverflow

def hget (r : Redis) (field : Text) : Option Text := r.entries field

def hset (r : Redis) (field value : Text) : Redis :=
  { r with entries := Function.update r.entries field (some value) }

def hdel (r : Redis) (field : Text) : Redis :=
  { r with entries := Function.update r.entries field none }

def zadd (r : Redis) (score : ℤ) (member : Text) : Redis :=
  { r with ready := r.ready.add score member }

/-- `ZREM` of one member, with the number of members removed. -/
def zrem (r : Redis) (member : Text) : Redis × ℕ :=
  ({ r with ready := r.ready.remove member },
    if member ∈ r.ready.members then 1 else 0)

end Redis

/-- An integer reply as a Lua number: the nearest double, ties to even. -/
def luaNumber (n : ℕ) : ℕ :=
  if n < 2 ^ 53 then n
  else
    let unit := 2 ^ (Nat.log2 n - 52)
    let low := n / unit
    if n % unit * 2 < unit ∨ n % unit * 2 = unit ∧ low % 2 = 0 then
      low * unit
    else (low + 1) * unit

/-- `string.format('%0' .. width .. 'd', x)`.  A number outside the range of a
64-bit integer is converted to the least one, as x86-64 does. -/
def luaFormat (width x : ℕ) : Text :=
  if x < 2 ^ 63 then zeroPadded 10 width x
  else '-' :: zeroPadded 10 (width - 1) (2 ^ 63)

/-- The member the enqueue script builds for a counter value. -/
def entryMember (width sequence : ℕ) (jobId : Text) : Text :=
  luaFormat width (luaNumber sequence) ++ ':' :: jobId

/-- `_ENQUEUE_SCRIPT`: replaces any existing entry for the job. -/
def enqueueScript (r : Redis) (score : ℤ) (jobId : Text) (width : ℕ) :
    Except QueueError (Redis × Text) := do
  let (r, sequence) ← r.incr
  let member := entryMember width sequence jobId
  let r :=
    match r.hget jobId with
    | some previous => (r.zrem previous).1
    | none => r
  return ((r.zadd score member).hset jobId member, member)

/-- `_REMOVE_SCRIPT`: drops the exact member, and the mapping of the job only
when it still points at that member. -/
def removeScript (r : Redis) (member jobId : Text) : Redis × ℕ :=
  let (r, removed) := r.zrem member
  if r.hget jobId = some member then (r.hdel jobId, removed)
  else (r, removed)

/-! ## Operations of `ReadyQueue` -/

/-- Add a ready job, replacing any entry it already had.  The state is the one
the script leaves, also when decoding its reply raises. -/
def enqueue (r : Redis) (jobId : UUID) (priority : ℤ) :
    Redis × Except QueueError QueueCandidate :=
  match enqueueScript r (entryScore priority) jobId.str sequenceWidth with
  | .error e => (r, .error e)
  | .ok (r', member) => (r', QueueCandidate.fromMember member)

def peekMany (r : Redis) (count : ℤ) :
    Except QueueError (List QueueCandidate) :=
  (r.ready.range 0 (count - 1)).mapM QueueCandidate.fromMember

/-- Read the next candidate without removing it. -/
def peek (r : Redis) : Except QueueError (Option QueueCandidate) := do
  let candidates ← peekMany r 1
  return candidates.head?

/-- Remove exactly the observed entry; true when this call removed it. -/
def remove (r : Redis) (candidate : QueueCandidate) : Redis × Bool :=
  let (r', removed) := removeScript r candidate.member candidate.jobId.str
  (r', removed ≠ 0)

/-- The token a job is currently queued under, if any. -/
def currentMember (r : Redis) (jobId : UUID) : Option Text :=
  r.hget jobId.str

def size (r : Redis) : ℕ := r.ready.card

def score (r : Redis) (candidate : QueueCandidate) : Option ℤ :=
  r.ready.score? candidate.member

end JobQueue
