import JobQueue.Service.Listing
import Mathlib.Data.List.AList
import Mathlib.Data.List.Dedup

/-!
# Counting jobs

`count_jobs_by_status` groups the table by status in one statement and reports
every status under its name, also those no job has.
-/

namespace JobQueue

open Support

/-- A dictionary whose keys are names. -/
abbrev Dict (α : Type) := AList fun _ : String => α

def Dict.map {α β : Type} (f : α → β) (d : Dict α) : Dict β where
  entries := d.entries.map (.map id fun _ => f)
  nodupKeys := d.nodupKeys.map₂ (fun _ => f) d.entries

theorem Dict.lookup_map {α β : Type} (f : α → β) (d : Dict α)
    (name : String) :
    AList.lookup name (d.map f) = (AList.lookup name d).map f :=
  List.dlookup_map₂ name

def JobStatus.members : List JobStatus :=
  [.scheduled, .pending, .processing, .completed, .failed, .cancelled]

theorem JobStatus.mem_members (s : JobStatus) : s ∈ JobStatus.members := by
  cases s <;> decide

theorem JobStatus.value_injective : Function.Injective JobStatus.value := by
  intro s s' h
  cases s <;> cases s' <;> first | rfl | (revert h; decide)

def countWith (t : Jobs) (s : JobStatus) : ℕ :=
  (t.select fun r => r.status = s).length

/-- `SELECT status, count(*) FROM jobs GROUP BY status`: one row for each
status that some job has. -/
def groupByStatus (t : Jobs) : List (JobStatus × ℕ) :=
  (t.rows.map Job.status).dedup.map fun s => (s, countWith t s)

/-- Enter the rows of the statement into the dictionary of counts. -/
def enterCounts (counts : Dict ℕ) (rows : List (JobStatus × ℕ)) : Dict ℕ :=
  rows.foldl (fun counts row => counts.insert row.1.value row.2) counts

def countJobsByStatus (t : Jobs) : Dict ℕ :=
  enterCounts
    (JobStatus.members.foldl (fun counts s => counts.insert s.value 0) ∅)
    (groupByStatus t)

/-- Entering counts for a list of statuses sets these and no others. -/
theorem lookup_enterCounts (n : JobStatus → ℕ) (ss : List JobStatus)
    (counts : Dict ℕ) (s : JobStatus) :
    (enterCounts counts (ss.map fun s => (s, n s))).lookup s.value =
      if s ∈ ss then some (n s) else counts.lookup s.value := by
  induction ss generalizing counts with
  | nil => rfl
  | cons s' ss ih =>
      rw [List.map_cons, enterCounts, List.foldl_cons, ← enterCounts, ih]
      by_cases hmem : s ∈ ss
      · rw [if_pos hmem, if_pos (List.mem_cons_of_mem s' hmem)]
      · rw [if_neg hmem]
        by_cases hs : s = s'
        · subst hs
          rw [if_pos List.mem_cons_self, AList.lookup_insert]
        · rw [if_neg (by simp [hs, hmem]), AList.lookup_insert_ne]
          exact fun heq => hs (JobStatus.value_injective heq)

theorem lookup_countJobsByStatus (t : Jobs) (s : JobStatus) :
    (countJobsByStatus t).lookup s.value = some (countWith t s) := by
  have hzero : (JobStatus.members.foldl
      (fun counts s => counts.insert s.value 0) (∅ : Dict ℕ)).lookup
        s.value = some 0 := by
    have hset := lookup_enterCounts (fun _ => 0) JobStatus.members ∅ s
    rw [if_pos s.mem_members, enterCounts, List.foldl_map] at hset
    exact hset
  rw [countJobsByStatus, groupByStatus, lookup_enterCounts, hzero]
  split
  · rfl
  · next hnone =>
      rw [List.mem_dedup] at hnone
      have hempty : t.select (fun r => r.status = s) = [] := by
        apply List.filter_eq_nil_iff.mpr
        intro r hr
        rw [decide_eq_true_eq]
        rintro rfl
        exact hnone (List.mem_map_of_mem hr)
      rw [countWith, hempty, List.length_nil]

/-- A status is counted as it is listed. -/
theorem countWith_eq_total (t : Jobs) (s : JobStatus) (limit offset : ℕ) :
    countWith t s = (listJobs t t (some s) none limit offset).2 := by
  have hfilter : applyFilters (some s) none = fun r : Job => r.status = s := by
    funext r
    simp [applyFilters]
  rw [countWith, listJobs, hfilter]

end JobQueue
