import JobQueue.Worker.Handlers

/-!
# Batches under way

A batch reports each of its items while other processes go on, and while its
own heartbeat goes on.  As long as its claim is live all its reports are
stored, so the row shows the percentage of the items processed so far.
-/

namespace JobQueue

open Support

/-! ## Reports of the live claim -/

/-- The percentage that the operation reports for the attempt. -/
def percentageReported (a : Attempt) : Op → Option ℤ
  | .updateProgress b progress => if b = a then some progress else none
  | _ => none

/-- Nobody else reports under the token of the attempt. -/
def ReportsAlone (a : Attempt) (ops : List Op) : Prop :=
  ∀ b progress, .updateProgress b progress ∈ ops → a.SameClaim b → b = a

section Live

variable {settings : Settings} (k : Claim settings)

/-- While a claim is live, all its reports are stored. -/
theorem stored_reports {after : List Op} (hlive : k.LiveAfter after)
    (halone : ReportsAlone k.attempt after) :
    (k.callsAfter after).filterMap (reportOf k.attempt) =
      (after.filterMap (percentageReported k.attempt)).map clampProgress := by
  induction after using List.reverseRecOn with
  | nil => rfl
  | append_singleton after op ih =>
      have hlive' := hlive.of_append
      have hrest := ih hlive' fun b p hb => halone b p (by simp [hb])
      obtain ⟨q, hq, -⟩ := k.found
      obtain ⟨r, hr, hholds, -⟩ := k.shows hlive' hq
      rw [k.callsAfter_cons, List.filterMap_append, hrest,
        List.filterMap_append, List.map_append]
      congr 1
      cases op with
      | updateProgress b progress =>
          by_cases hsame : k.attempt.SameClaim b
          · obtain rfl := halone b progress (by simp) hsame
            have hwf := tableAfter_wellformed settings _ _ _ hr
            obtain ⟨t', reply, r', hstep, -⟩ := Live.takesEffect
              ⟨hr, hholds, hwf⟩ settings (.updateProgress progress)
            have hreply : reply = .progressed := by
              obtain ⟨_, -, hreply⟩ := answer_eq_ok
                (execute_of_step_ok (congrArg Prod.snd hstep))
              exact hreply
            have hstored : ((service settings).step (k.tableAfter after)
                (.updateProgress k.attempt progress)).2 =
                  .ok .progressed := by
              rw [← hreply]
              exact congrArg Prod.snd hstep
            simp [reportOf, percentageReported, hstored, hsame]
          · have hne : b ≠ k.attempt := by
              rintro rfl
              exact hsame ⟨rfl, rfl⟩
            have hnone : ∀ outcome, reportOf k.attempt
                (.updateProgress b progress, outcome) = none := by
              intro outcome
              unfold reportOf
              split
              · next hcall =>
                  obtain ⟨hop, -⟩ := Prod.mk.inj hcall
                  obtain ⟨rfl, rfl⟩ := Op.updateProgress.inj hop
                  exact if_neg hsame
              · rfl
            simp [hnone, percentageReported, hne]
      | _ => rfl

theorem map_clampProgress_batchPercentages {total n : ℕ} (hn : n ≤ total) :
    (batchPercentages total n).map clampProgress =
      batchPercentages total n := by
  rw [batchPercentages, List.map_map]
  refine List.map_congr_left fun i hi => ?_
  rw [List.mem_range] at hi
  exact clampProgress_progressPercentage (by omega) (by omega) (by omega)

/-- After the reports of `n` items the row shows their percentage. -/
theorem batch_shown {after : List Op} (hlive : k.LiveAfter after)
    (halone : ReportsAlone k.attempt after) {total n : ℕ} (hpos : 0 < n)
    (hn : n ≤ total)
    (hreports : after.filterMap (percentageReported k.attempt) =
      batchPercentages total n) :
    Shows (k.tableAfter after) k.attempt (progressPercentage n total) := by
  obtain ⟨q, hq, -⟩ := k.found
  have hshows := k.shows hlive hq
  rw [lastReport, stored_reports k hlive halone, hreports,
    map_clampProgress_batchPercentages hn, List.getLastD_eq_getLast?,
    batchPercentages_getLast? hpos] at hshows
  exact hshows

/-- Whatever else goes on while a batch is under way: once the reports of its
first `m` items, and later of its first `n`, have been made, the row shows
their percentages.  It does not go back, and it shows one hundred per cent
only when all items are processed. -/
theorem batch_progress_is_shown {first second : List Op}
    (hlive : k.LiveAfter (first ++ second))
    (halone : ReportsAlone k.attempt (first ++ second)) {total m n : ℕ}
    (hm : 0 < m) (hn : n ≤ total)
    (hfirst : first.filterMap (percentageReported k.attempt) =
      batchPercentages total m)
    (hall : (first ++ second).filterMap (percentageReported k.attempt) =
      batchPercentages total n) :
    ∃ r s, (k.tableAfter first).find? k.attempt.jobId = some r ∧
      (k.tableAfter (first ++ second)).find? k.attempt.jobId = some s ∧
      r.progress = progressPercentage m total ∧
      s.progress = progressPercentage n total ∧ r.progress ≤ s.progress ∧
      (total ≤ 2 ^ 45 → (s.progress = 100 ↔ n = total)) := by
  have hmn : m ≤ n := by
    have hlength := congrArg List.length hall
    rw [List.filterMap_append, hfirst, List.length_append, batchPercentages,
      batchPercentages, List.length_map, List.length_map, List.length_range,
      List.length_range] at hlength
    omega
  obtain ⟨r, hr, -, hrshown⟩ := batch_shown k hlive.of_append
    (fun b p hb => halone b p (List.mem_append_left _ hb)) hm
    (hmn.trans hn) hfirst
  obtain ⟨s, hs, -, hsshown⟩ := batch_shown k hlive halone (hm.trans_le hmn)
    hn hall
  refine ⟨r, s, hr, hs, hrshown, hsshown, ?_, fun hbound => ?_⟩
  · rw [hrshown, hsshown]
    exact progressPercentage_mono (by omega) (by omega) (by omega)
  · rw [hsshown, progressPercentage_eq_hundred_iff (by omega) (by omega)
      (by omega) (by omega)]
    omega

end Live

/-- The first claim of the sample batch. -/
def sampleBatchClaim : Claim sampleSettings where
  before := [.createJob (SubmitClock.at 0) 1 sampleBatch none]
  now := 0
  jobId := 1
  workerId := "worker"
  token := 7
  leaseSeconds := none
  attempt := ⟨1, "worker", 7, 1, 3⟩
  obtained := ⟨0, 1, "worker", 7, none, _, rfl, rfl, rfl⟩

/-- Two of its five items, with a heartbeat in between. -/
theorem sample_batch_is_shown : ∃ s,
    (sampleBatchClaim.tableAfter
      ([.updateProgress sampleBatchClaim.attempt 20] ++
        [.extendLease 1 sampleBatchClaim.attempt none,
          .updateProgress sampleBatchClaim.attempt 40])).find? 1 = some s ∧
      s.progress = progressPercentage 2 5 := by
  have hlive : sampleBatchClaim.LiveAfter
      ([.updateProgress sampleBatchClaim.attempt 20] ++
        [.extendLease 1 sampleBatchClaim.attempt none,
          .updateProgress sampleBatchClaim.attempt 40]) := by
    unfold Claim.LiveAfter
    decide +kernel
  have halone : ReportsAlone sampleBatchClaim.attempt
      ([.updateProgress sampleBatchClaim.attempt 20] ++
        [.extendLease 1 sampleBatchClaim.attempt none,
          .updateProgress sampleBatchClaim.attempt 40]) := by
    intro b progress hb _
    simp only [List.singleton_append, List.mem_cons, Op.updateProgress.injEq,
      reduceCtorEq, List.not_mem_nil, or_false, false_or] at hb
    exact hb.elim And.left And.left
  have hfirst : [Op.updateProgress sampleBatchClaim.attempt 20].filterMap
      (percentageReported sampleBatchClaim.attempt) = batchPercentages 5 1 := by
    decide +kernel
  obtain ⟨r, s, -, hs, -, hshown, -⟩ := batch_progress_is_shown
    sampleBatchClaim hlive halone Nat.one_pos (show 2 ≤ 5 by decide) hfirst
    (by decide +kernel)
  exact ⟨s, hs, hshown⟩

end JobQueue
