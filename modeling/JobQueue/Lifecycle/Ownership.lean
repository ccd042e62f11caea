import JobQueue.Lifecycle.Invariant

/-!
# Ownership of a row

A claim writes a fresh token into the row.  As long as no change ends that
claim the row keeps the token, the worker and the counters the claim left
behind; the change that ends it erases the token, and the token cannot come
back unless a claim mints it again.
-/

namespace JobQueue

open Support

/-- The row is `PROCESSING` under the attempt `a`. -/
def Job.Holds (r : Job) (a : Attempt) : Prop :=
  r.status = .processing ∧ Attempt.of r = .ok a

theorem Job.holds_iff {r : Job} {a : Attempt} :
    r.Holds a ↔ ownedBy a r = true ∧ r.attemptCount = a.attemptCount ∧
      r.maxAttempts = a.maxAttempts := by
  rw [Job.Holds, Attempt.of_eq_ok_iff, ownedBy_iff]
  tauto

theorem Job.Holds.token {r : Job} {a : Attempt} (h : r.Holds a) :
    r.executionToken = some a.executionToken :=
  (Attempt.of_eq_ok_iff.mp h.2).2.2.1

theorem Job.Holds.ownedBy {r : Job} {a : Attempt} (h : r.Holds a) :
    ownedBy a r = true :=
  (Job.holds_iff.mp h).1

/-- The attempt a fenced write is made with carries the token of the row. -/
theorem Job.Holds.token_eq {r : Job} {a b : Attempt} (h : r.Holds a)
    (hb : JobQueue.ownedBy b r = true) :
    b.executionToken = a.executionToken := by
  have htoken := (ownedBy_iff.mp hb).2.2.2
  rw [h.token] at htoken
  exact (Option.some.inj htoken).symm

/-! ## One change -/

/-- While the claim lasts, its row sees heartbeats, progress reports and the
release of its key, and nothing else. -/
theorem Change.of_held {r : Job} {a : Attempt} {c : Change}
    (hc : c.Enabled r) (h : r.Holds a) (hlive : ¬ c.Ends a.executionToken) :
    c = .keyReleased ∨
      (∃ now b deadline, c = .leaseExtended now b deadline) ∨
      ∃ b progress, c = .progressed b progress := by
  have hstatus := h.1
  cases c with
  | created row => exact hc.elim
  | keyReleased => exact Or.inl rfl
  | leaseExtended now b deadline =>
      exact Or.inr (Or.inl ⟨now, b, deadline, rfl⟩)
  | progressed b progress => exact Or.inr (Or.inr ⟨b, progress, rfl⟩)
  | claimed now workerId token deadline =>
      have hpending := (Job.isClaimable_iff.mp hc).1
      simp [hstatus] at hpending
  | completed now b result =>
      exact absurd ⟨b, rfl, h.token_eq hc⟩ hlive
  | retryScheduled cause now b delay error =>
      exact absurd ⟨b, rfl, h.token_eq hc.1⟩ hlive
  | permanentlyFailed cause now b error =>
      exact absurd ⟨b, rfl, h.token_eq hc.1⟩ hlive
  | activated now =>
      have hscheduled := (Job.isDue_iff.mp hc).1
      simp [hstatus] at hscheduled
  | cancelled =>
      have hwaiting := cancellable_iff.mp hc
      simp [hstatus] at hwaiting
  | retried =>
      have hfailed : r.status = .failed := hc
      simp [hstatus] at hfailed

/-- A change of an owned row either ends the claim or keeps the attempt. -/
theorem Change.holds_or_ends {r : Job} {a : Attempt} {c : Change}
    (hc : c.Enabled r) (h : r.Holds a) :
    (c.apply r).Holds a ∨ c.Ends a.executionToken := by
  by_cases hend : c.Ends a.executionToken
  · exact Or.inr hend
  · refine Or.inl ?_
    rcases Change.of_held hc h hend with
      rfl | ⟨now, b, deadline, rfl⟩ | ⟨b, progress, rfl⟩
    · exact h
    · exact h
    · exact h

theorem Change.Ends.erases {c : Change} {token : UUID} (h : c.Ends token)
    (r : Job) : (c.apply r).executionToken = none := by
  obtain ⟨a, ha, -⟩ := h
  cases c with
  | completed now b result => rfl
  | retryScheduled cause now b delay error => rfl
  | permanentlyFailed cause now b error => rfl
  | _ => simp [Change.endedAttempt] at ha

/-- A token found after a change was there before, or the change is the claim
that minted it. -/
theorem Change.token_origin {r : Job} {c : Change} {token : UUID}
    (hc : c.Enabled r) (h : (c.apply r).executionToken = some token) :
    r.executionToken = some token ∨ c.claimedToken = some token := by
  cases c with
  | created row => exact hc.elim
  | keyReleased => exact Or.inl h
  | claimed now workerId token' deadline => exact Or.inr h
  | leaseExtended now b deadline => exact Or.inl h
  | progressed b progress => exact Or.inl h
  | activated now => exact Or.inl h
  | _ => cases h

/-! ## Paths -/

theorem RowPath.exists_some {r : Job} {cs : List Change} {s? : Option Job}
    (h : RowPath (some r) cs s?) : ∃ s, s? = some s := by
  cases h with
  | nil => exact ⟨r, rfl⟩
  | snoc _ hstep => exact hstep.some_of_right

/-- As long as nothing ends the claim, the row holds the attempt. -/
theorem RowPath.holds {r s : Job} {a : Attempt} {cs : List Change}
    (h : RowPath (some r) cs (some s)) (hr : r.Holds a)
    (hlive : ∀ c ∈ cs, ¬ c.Ends a.executionToken) : s.Holds a := by
  generalize hs : some s = s? at h
  induction h generalizing s with
  | nil =>
      obtain rfl := Option.some.inj hs
      exact hr
  | snoc hpath hstep ih =>
      obtain ⟨b, rfl⟩ := RowPath.exists_some hpath
      cases hstep with
      | change hc =>
          obtain rfl := Option.some.inj hs
          have hb := ih (fun c hmem => hlive c (by simp [hmem])) rfl
          rcases Change.holds_or_ends hc hb with hkeep | hend
          · exact hkeep
          · exact absurd hend (hlive _ (by simp))

/-- A column of a held row that no change on the way moves. -/
theorem RowPath.column_eq {α : Type} (column : Job → α) {r s : Job}
    {a : Attempt} {cs : List Change} (h : RowPath (some r) cs (some s))
    (hr : r.Holds a) (hlive : ∀ c ∈ cs, ¬ c.Ends a.executionToken)
    (hkeep : ∀ c ∈ cs, ∀ b : Job, c.Enabled b → b.Holds a →
      column (c.apply b) = column b) : column s = column r := by
  generalize hs : some s = s? at h
  induction h generalizing s with
  | nil =>
      obtain rfl := Option.some.inj hs
      rfl
  | snoc hpath hstep ih =>
      obtain ⟨b, rfl⟩ := RowPath.exists_some hpath
      have hb := RowPath.holds hpath hr
        fun c hmem => hlive c (by simp [hmem])
      cases hstep with
      | change hc =>
          obtain rfl := Option.some.inj hs
          rw [hkeep _ (by simp) b hc hb]
          exact ih (fun c hmem => hlive c (by simp [hmem]))
            (fun c hmem => hkeep c (by simp [hmem])) rfl

/-- A token that is not on the row stays away while no claim mints it. -/
theorem RowPath.token_ne {r s : Job} {token : UUID} {cs : List Change}
    (h : RowPath (some r) cs (some s)) (hr : r.executionToken ≠ some token)
    (hfresh : ∀ c ∈ cs, c.claimedToken ≠ some token) :
    s.executionToken ≠ some token := by
  generalize hs : some s = s? at h
  induction h generalizing s with
  | nil =>
      obtain rfl := Option.some.inj hs
      exact hr
  | snoc hpath hstep ih =>
      obtain ⟨b, rfl⟩ := RowPath.exists_some hpath
      cases hstep with
      | change hc =>
          obtain rfl := Option.some.inj hs
          have hb := ih (fun c hmem => hfresh c (by simp [hmem])) rfl
          intro htoken
          rcases Change.token_origin hc htoken with hold | hmint
          · exact hb hold
          · exact hfresh _ (by simp) hmint

/-- Once a change has ended the claim, its token is gone for good. -/
theorem RowPath.token_ne_of_ended {r s : Job} {token : UUID}
    {cs : List Change} (h : RowPath (some r) cs (some s))
    (hended : ∃ c ∈ cs, c.Ends token)
    (hfresh : ∀ c ∈ cs, c.claimedToken ≠ some token) :
    s.executionToken ≠ some token := by
  obtain ⟨c, hmem, hend⟩ := hended
  obtain ⟨before, after, rfl⟩ := List.append_of_mem hmem
  obtain ⟨b?, hbefore, hrest⟩ := h.split
  obtain ⟨b, rfl⟩ := RowPath.exists_some hbefore
  obtain ⟨d?, hstep, hafter⟩ := hrest.cons_inv
  cases hstep with
  | change hc =>
      refine RowPath.token_ne hafter ?_ fun c' hc' => hfresh c' (by simp [hc'])
      simp [hend.erases b]

end JobQueue
