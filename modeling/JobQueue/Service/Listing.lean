import JobQueue.Service.Operations
import JobQueue.Support.Paging
import Mathlib.Data.Prod.Lex

/-!
# Listing jobs

`list_jobs` counts the matching jobs and then reads one page of them.  These
are two statements, and each sees the table as it is committed when the
statement runs.
-/

namespace JobQueue

open Support

/-- `_apply_filters`: an absent filter lets every job pass. -/
def applyFilters (status : Option JobStatus) (jobType : Option JobType)
    (r : Job) : Bool :=
  status.all (fun s => r.status = s) && jobType.all fun k => r.type = k.value

/-- The columns the list is ordered by; identifiers compare like the numbers
their bytes spell. -/
def Job.listKey (r : Job) : ℤ ×ₗ ℕ := toLex (r.createdAt, r.id.toNat)

/-- A page of jobs, newest first, plus the total matching count. -/
def listJobs (counted t : Jobs) (status : Option JobStatus)
    (jobType : Option JobType) (limit offset : ℕ) : List Job × ℕ :=
  let total := (counted.select (applyFilters status jobType)).length
  let rows := t.page (applyFilters status jobType) Job.listKey limit offset
  (rows, total)

/-- The order is total on jobs: `id` breaks the ties of `created_at`. -/
theorem Job.id_of_listKey {r s : Job} (h : r.listKey = s.listKey) :
    r.id = s.id := by
  have hpair := toLex.injective h
  exact BitVec.eq_of_toNat_eq (Prod.mk.inj hpair).2

/-- A later job is listed first, and of two jobs of the same time the one with
the larger identifier. -/
theorem Job.listKey_lt_iff {r s : Job} :
    s.listKey < r.listKey ↔ s.createdAt < r.createdAt ∨
      s.createdAt = r.createdAt ∧ s.id.toNat < r.id.toNat := by
  rw [Job.listKey, Job.listKey, Prod.Lex.toLex_lt_toLex]

theorem applyFilters_none {jobType : Option JobType} {r s : Job}
    (h : s.type = r.type) :
    applyFilters none jobType s = applyFilters none jobType r := by
  rw [applyFilters, applyFilters, h]
  rfl

end JobQueue
