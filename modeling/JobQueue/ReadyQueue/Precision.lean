import JobQueue.ReadyQueue.Member
import JobQueue.Support.Rounding

/-!
# Members over the whole counter range

`INCR` counts up to `2 ^ 63 - 1`, but the script sees its reply as a Lua
number, which has 53 significant binary digits.  This module says what a member
holds for every counter value, and from that for which counter values members
are faithful: they decode to the counter value, they differ when the counter
values do, and they sort as the counter values do.
-/

namespace JobQueue

open Support

/-- A value `INCR` can return. -/
structure Counter where
  value : ℕ
  pos : 1 ≤ value
  lt : value < 2 ^ 63

/-! ## What a member holds -/

/-- A Lua number keeps 53 significant binary digits. -/
theorem luaNumber_eq (n : ℕ) : luaNumber n = roundToPrecision 53 n := by
  unfold luaNumber
  split
  · next h => exact (roundToPrecision_of_lt h).symm
  · have hexponent : Nat.log2 n + 1 - 53 = Nat.log2 n - 52 := by omega
    rw [roundToPrecision, roundToMultiple, hexponent]

theorem luaNumber_mono {m n : ℕ} (h : m ≤ n) : luaNumber m ≤ luaNumber n := by
  rw [luaNumber_eq, luaNumber_eq]
  exact roundToPrecision_mono (by decide) h

theorem luaNumber_eq_self_iff {n : ℕ} :
    luaNumber n = n ↔ 2 ^ (Nat.log2 n - 52) ∣ n := by
  have hexponent : Nat.log2 n + 1 - 53 = Nat.log2 n - 52 := by omega
  rw [luaNumber_eq, roundToPrecision_eq_self_iff, hexponent]

theorem luaNumber_le {n : ℕ} (h : n < 2 ^ 63) : luaNumber n ≤ 2 ^ 63 := by
  rw [luaNumber_eq]
  exact roundToPrecision_le_two_pow 53 h

/-- The integer `%d` prints for a number. -/
def printedInteger (x : ℕ) : ℤ := if x < 2 ^ 63 then x else -2 ^ 63

theorem printedInteger_inj {x y : ℕ} (hx : x ≤ 2 ^ 63) (hy : y ≤ 2 ^ 63)
    (h : printedInteger x = printedInteger y) : x = y := by
  unfold printedInteger at h
  split at h <;> split at h <;> omega

theorem printedInteger_eq_iff {x n : ℕ} (hn : n < 2 ^ 63) :
    printedInteger x = n ↔ x = n := by
  unfold printedInteger
  split <;> omega

theorem token_of_lt {sequence : ℕ} (h : luaNumber sequence < 2 ^ 63)
    (jobId : UUID) :
    token sequence jobId =
      zeroPadded 10 sequenceWidth (luaNumber sequence) ++
        ':' :: jobId.str := by
  rw [token, entryMember, luaFormat, if_pos h]

theorem token_of_le {sequence : ℕ} (h : 2 ^ 63 ≤ luaNumber sequence)
    (jobId : UUID) :
    token sequence jobId =
      '-' :: zeroPadded 10 18 (2 ^ 63) ++ ':' :: jobId.str := by
  rw [token, entryMember, luaFormat, if_neg h.not_gt]
  rfl

/-- Every member decodes to its job and to the integer that was printed. -/
theorem decodeMember_token_printed (sequence : ℕ) (jobId : UUID) :
    decodeMember (token sequence jobId) =
      .ok (jobId, printedInteger (luaNumber sequence)) := by
  rcases Nat.lt_or_ge (luaNumber sequence) (2 ^ 63) with hlt | hge
  · rw [token_of_lt hlt, printedInteger, if_pos hlt]
    exact decodeMember_zeroPadded (hlt.trans (by decide)) jobId
  · have hpartition : partitionColon (token sequence jobId) =
        some ('-' :: zeroPadded 10 18 (2 ^ 63), jobId.str) := by
      rw [token_of_le hge]
      exact partitionColon_of_notMem (by decide +kernel)
    have hint : pyInt 10 ('-' :: zeroPadded 10 18 (2 ^ 63)) =
        some (-2 ^ 63) := by decide +kernel
    rw [decodeMember, hpartition, printedInteger, if_neg hge.not_gt]
    simp only [UUID.parse_str, hint]

/-! ## When members are faithful -/

/-- A member decodes to its counter value exactly when a Lua number holds that
value. -/
theorem fromMember_token_iff (s : Counter) (u : UUID) :
    (∃ c, QueueCandidate.fromMember (token s.value u) = .ok c ∧
        c.jobId = u ∧ c.sequence = s.value) ↔
      2 ^ (Nat.log2 s.value - 52) ∣ s.value := by
  rw [← luaNumber_eq_self_iff, fromMember_eq
    (decodeMember_token_printed s.value u)]
  constructor
  · rintro ⟨c, hc, -, hsequence⟩
    cases hc
    exact (printedInteger_eq_iff s.lt).mp hsequence
  · intro hself
    exact ⟨_, rfl, rfl, (printedInteger_eq_iff s.lt).mpr hself⟩

/-- The members of a job for two counter values are the same exactly when the
values round to the same number. -/
theorem token_eq_iff (s t : Counter) (u : UUID) :
    token s.value u = token t.value u ↔ luaNumber s.value = luaNumber t.value := by
  constructor
  · intro h
    have hdecode := congrArg decodeMember h
    rw [decodeMember_token_printed, decodeMember_token_printed] at hdecode
    obtain ⟨-, hprinted⟩ := Prod.mk.inj (Except.ok.inj hdecode)
    exact printedInteger_inj (luaNumber_le s.lt) (luaNumber_le t.lt) hprinted
  · intro h
    rw [token, token, entryMember, entryMember, h]

/-- A member for a number that is too large sorts before every other one. -/
theorem overflow_token_lt {m n : ℕ} (hm : 2 ^ 63 ≤ luaNumber m)
    (hn : luaNumber n < 2 ^ 63) (u v : UUID) : token m u < token n v := by
  rw [token_of_le hm, token_of_lt hn]
  have hpow : luaNumber n < 10 ^ sequenceWidth := hn.trans (by decide)
  have hdigits := digitText_zeroPadded (by decide) (by decide) (by decide) hpow
  have hlen := length_zeroPadded (by decide) (by decide) hpow
  cases htext : zeroPadded 10 sequenceWidth (luaNumber n) with
  | nil =>
      rw [htext] at hlen
      cases hlen
  | cons c cs =>
      obtain ⟨d, hd, rfl⟩ := hdigits c (by simp [htext])
      rw [List.cons_append, List.cons_append, List.cons_lt_cons_iff]
      refine Or.inl ?_
      interval_cases d <;> decide

/-- Members sort as two counter values do, whatever the jobs, exactly when the
values round to different numbers that `%d` can print. -/
theorem token_lt_iff (s t : Counter) (h : s.value < t.value) :
    (∀ u v, token s.value u < token t.value v) ↔
      luaNumber s.value < luaNumber t.value ∧ luaNumber t.value < 2 ^ 63 := by
  constructor
  · intro hlt
    have hne : luaNumber s.value ≠ luaNumber t.value := by
      intro heq
      have hsame := (token_eq_iff s t 0).mpr heq
      have hself := hlt 0 0
      rw [hsame] at hself
      exact lt_irrefl _ hself
    have hrounded := lt_of_le_of_ne (luaNumber_mono h.le) hne
    refine ⟨hrounded, ?_⟩
    by_contra hge
    have hsmall := hrounded.trans_le (luaNumber_le t.lt)
    exact lt_asymm (hlt 0 0) (overflow_token_lt (not_lt.mp hge) hsmall 0 0)
  · rintro ⟨hrounded, hsmall⟩ u v
    rw [token_of_lt (hrounded.trans hsmall), token_of_lt hsmall]
    exact zeroPadded_append_lt hrounded (hsmall.trans (by decide)) _ _

/-- Members are faithful for all counter values up to a bound. -/
structure FaithfulUpTo (bound : ℕ) : Prop where
  decodes : ∀ (s : Counter) (u : UUID), s.value ≤ bound →
    ∃ c, QueueCandidate.fromMember (token s.value u) = .ok c ∧
      c.jobId = u ∧ c.sequence = s.value
  fresh : ∀ (s t : Counter) (u : UUID), s.value ≤ bound → t.value ≤ bound →
    s.value ≠ t.value → token s.value u ≠ token t.value u
  ordered : ∀ (s t : Counter) (u v : UUID), s.value < t.value →
    t.value ≤ bound → token s.value u < token t.value v

theorem luaNumber_of_le {n : ℕ} (h : n ≤ 2 ^ 53) : luaNumber n = n := by
  rcases lt_or_eq_of_le h with hlt | rfl
  · exact luaNumber_of_lt hlt
  · decide +kernel

/-- Two neighbouring counter values that share their members. -/
theorem luaNumber_collision : luaNumber (2 ^ 53 + 1) = luaNumber (2 ^ 53) := by
  decide +kernel

theorem faithfulUpTo_iff {bound : ℕ} (hbound : bound < 2 ^ 63) :
    FaithfulUpTo bound ↔ bound ≤ 2 ^ 53 := by
  constructor
  · intro h
    by_contra hlarge
    have hlt : 2 ^ 53 + 1 ≤ bound := by omega
    let s : Counter := ⟨2 ^ 53 + 1, by decide, by decide⟩
    let t : Counter := ⟨2 ^ 53, by decide, by decide⟩
    exact h.fresh s t 0 hlt (Nat.le_of_succ_le hlt) (by decide)
      ((token_eq_iff s t 0).mpr luaNumber_collision)
  · intro hle
    constructor
    · intro s u hs
      rw [fromMember_token_iff, ← luaNumber_eq_self_iff]
      exact luaNumber_of_le (hs.trans hle)
    · intro s t u hs ht hne heq
      rw [token_eq_iff, luaNumber_of_le (hs.trans hle),
        luaNumber_of_le (ht.trans hle)] at heq
      exact hne heq
    · intro s t u v hst ht
      refine (token_lt_iff s t hst).mpr ?_ u v
      rw [luaNumber_of_le (hst.le.trans (ht.trans hle)),
        luaNumber_of_le (ht.trans hle)]
      exact ⟨hst, t.lt⟩

/-- Members are faithful exactly as far as Lua numbers are.  A member decodes
to its counter value when that value has at most 53 significant binary digits;
the members of one job differ when the counter values round to different
numbers; members sort as the counter values do when these round to different
numbers below `2 ^ 63`.  All three hold up to a bound when the bound is at most
`2 ^ 53`. -/
theorem members_faithful_iff (s t : Counter) (u : UUID) (bound : ℕ) :
    ((∃ c, QueueCandidate.fromMember (token s.value u) = .ok c ∧
        c.jobId = u ∧ c.sequence = s.value) ↔
      2 ^ (Nat.log2 s.value - 52) ∣ s.value) ∧
    (s.value ≠ t.value →
      (token s.value u ≠ token t.value u ↔
        luaNumber s.value ≠ luaNumber t.value)) ∧
    (s.value < t.value →
      ((∀ u v, token s.value u < token t.value v) ↔
        luaNumber s.value < luaNumber t.value ∧
          luaNumber t.value < 2 ^ 63)) ∧
    (bound < 2 ^ 63 → (FaithfulUpTo bound ↔ bound ≤ 2 ^ 53)) :=
  ⟨fromMember_token_iff s u, fun _ => (token_eq_iff s t u).not,
    token_lt_iff s t, faithfulUpTo_iff⟩

/-- Past `2 ^ 53` a member holds its neighbour's counter value, a re-enqueue
may mint the token it replaces, and the last counter values sort first. -/
theorem members_unfaithful :
    token (2 ^ 53 + 1) 0 = token (2 ^ 53) 0 ∧
      decodeMember (token (2 ^ 53 + 1) 0) = .ok (0, 2 ^ 53) ∧
      decodeMember (token (2 ^ 63 - 1) 0) = .ok (0, -2 ^ 63) ∧
      token (2 ^ 63 - 1) 0 < token 1 0 := by
  refine ⟨?_, ?_, ?_, ?_⟩
  · rw [token, token, entryMember, entryMember, luaNumber_collision]
  · rw [decodeMember_token_printed, luaNumber_collision]
    decide +kernel
  · rw [decodeMember_token_printed]
    decide +kernel
  · exact overflow_token_lt (by decide +kernel) (by decide +kernel) 0 0

end JobQueue
