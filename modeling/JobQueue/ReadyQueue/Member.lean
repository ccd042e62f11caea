import JobQueue.ReadyQueue.Scripts

/-!
# Entry tokens

What the enqueue script writes and what the workers read back.  Below `2 ^ 53`
a counter value survives its way through a Lua number, so a member decodes to
the job id and the counter value it was built from, different counter values
give different members, and members compare bytewise as the counter values do.
-/

namespace JobQueue

open Support

/-- Counter values a Lua number holds exactly. -/
def sequenceBound : ℕ := 2 ^ 53

theorem luaNumber_of_lt {n : ℕ} (h : n < sequenceBound) : luaNumber n = n :=
  if_pos h

/-- The member of a job for a counter value. -/
def token (sequence : ℕ) (jobId : UUID) : Text :=
  entryMember sequenceWidth sequence jobId.str

theorem token_eq {sequence : ℕ} (h : sequence < sequenceBound)
    (jobId : UUID) :
    token sequence jobId =
      zeroPadded 10 sequenceWidth sequence ++ ':' :: jobId.str := by
  have hlt : sequence < 2 ^ 63 := h.trans (by decide)
  rw [token, entryMember, luaNumber_of_lt h, luaFormat, if_pos hlt]

theorem sequence_lt_pow {sequence : ℕ} (h : sequence < sequenceBound) :
    sequence < 10 ^ sequenceWidth :=
  h.trans (by decide)

/-- A padded numeral, a colon and a job id decode to the number and the
job. -/
theorem decodeMember_zeroPadded {n : ℕ} (h : n < 10 ^ sequenceWidth)
    (jobId : UUID) :
    decodeMember (zeroPadded 10 sequenceWidth n ++ ':' :: jobId.str) =
      .ok (jobId, (n : ℤ)) := by
  have hdigits : DigitText (zeroPadded 10 sequenceWidth n) :=
    digitText_zeroPadded (by decide) (by decide) (by decide) h
  have hpartition : partitionColon
      (zeroPadded 10 sequenceWidth n ++ ':' :: jobId.str) =
        some (zeroPadded 10 sequenceWidth n, jobId.str) :=
    partitionColon_of_notMem (hdigits.notMem rfl)
  have hne : zeroPadded 10 sequenceWidth n ≠ [] := by
    intro hnil
    have hlen := length_zeroPadded (by decide) (by decide) h
    rw [hnil] at hlen
    cases hlen
  have hint : pyInt 10 (zeroPadded 10 sequenceWidth n) = some (n : ℤ) := by
    rw [pyInt_of_digitText hdigits hne,
      readDigits_zeroPadded (by decide) (by decide) (by decide) h]
    rfl
  rw [decodeMember, hpartition]
  simp only [UUID.parse_str, hint]

/-- A member decodes to what it was built from. -/
theorem decodeMember_token {sequence : ℕ} (h : sequence < sequenceBound)
    (jobId : UUID) :
    decodeMember (token sequence jobId) = .ok (jobId, (sequence : ℤ)) := by
  rw [token_eq h, decodeMember_zeroPadded (sequence_lt_pow h)]

theorem fromMember_eq {m : Text} {jobId : UUID} {sequence : ℤ}
    (h : decodeMember m = .ok (jobId, sequence)) :
    QueueCandidate.fromMember m = .ok ⟨jobId, m, sequence, h⟩ := by
  unfold QueueCandidate.fromMember
  split
  · next jobId' sequence' hok =>
      obtain ⟨rfl, rfl⟩ := Prod.mk.inj (Except.ok.inj (hok.symm.trans h))
      rfl
  · next e herror =>
      rw [herror] at h
      cases h

def tokenCandidate {sequence : ℕ} (h : sequence < sequenceBound)
    (jobId : UUID) : QueueCandidate :=
  ⟨jobId, token sequence jobId, sequence, decodeMember_token h jobId⟩

theorem fromMember_token {sequence : ℕ} (h : sequence < sequenceBound)
    (jobId : UUID) :
    QueueCandidate.fromMember (token sequence jobId) =
      .ok (tokenCandidate h jobId) :=
  fromMember_eq _

theorem QueueCandidate.fromMember_member (c : QueueCandidate) :
    QueueCandidate.fromMember c.member = .ok c :=
  fromMember_eq c.decodes

theorem QueueCandidate.member_of_fromMember {m : Text} {c : QueueCandidate}
    (h : QueueCandidate.fromMember m = .ok c) : c.member = m := by
  unfold QueueCandidate.fromMember at h
  split at h
  · rw [← Except.ok.inj h]
  · cases h

theorem token_injective {m n : ℕ} (hm : m < sequenceBound)
    (hn : n < sequenceBound) {u v : UUID} (h : token m u = token n v) :
    m = n ∧ u = v := by
  have hdecode := congrArg decodeMember h
  rw [decodeMember_token hm, decodeMember_token hn] at hdecode
  obtain ⟨hjob, hsequence⟩ := Prod.mk.inj (Except.ok.inj hdecode)
  exact ⟨Int.ofNat.inj hsequence, hjob⟩

/-- Padded numerals compare as the numbers do, whatever follows them. -/
theorem zeroPadded_append_lt {m n : ℕ} (hmn : m < n)
    (hn : n < 10 ^ sequenceWidth) (xs ys : Text) :
    zeroPadded 10 sequenceWidth m ++ xs <
      zeroPadded 10 sequenceWidth n ++ ys := by
  apply append_lt_append_of_lt
  · rw [length_zeroPadded (by decide) (by decide) (hmn.trans hn),
      length_zeroPadded (by decide) (by decide) hn]
  · exact zeroPadded_lt_zeroPadded (by decide) (by decide) (by decide) hn hmn

/-- Members compare as the counter values do, whatever the jobs. -/
theorem token_lt {m n : ℕ} (hmn : m < n) (hn : n < sequenceBound)
    (u v : UUID) : token m u < token n v := by
  rw [token_eq (hmn.trans hn), token_eq hn]
  exact zeroPadded_append_lt hmn (sequence_lt_pow hn) _ _

end JobQueue
