import JobQueue.Lifecycle.Transitions
import JobQueue.Service.Listing

/-!
# Paging through the job list

No operation removes a job or changes the columns the list is ordered and
filtered by, so between two page reads a job can only be pushed further down
the list, by new jobs above it.  A client that reads the list page by page
misses no job that was there when it began.
-/

namespace JobQueue

open Support

/-! ## What other operations do to the list -/

/-- The jobs in the list stay, at the same place. -/
theorem keeps_run (settings : Settings) (t : Jobs) (ops : List Op)
    (jobType : Option JobType) :
    KeyedTable.Keeps (applyFilters none jobType) Job.listKey t
      ((service settings).run t ops) := by
  intro r hr
  obtain ⟨hmem, hmatches⟩ := KeyedTable.mem_select.mp hr
  have hpath := service_path_from settings t ops r.id
  rw [KeyedTable.find?_of_mem hmem] at hpath
  obtain ⟨s, hs, hcontinues⟩ := RowPath.continues hpath
  have hsame := hcontinues.submission
  refine ⟨s, KeyedTable.mem_select.mpr
    ⟨(KeyedTable.find?_eq_some_iff.mp hs).1, ?_⟩, hsame.id, ?_⟩
  · rw [applyFilters_none hsame.type]
    exact hmatches
  · rw [Job.listKey, Job.listKey, hsame.createdAt, hsame.id]

/-- The submission that created a new row. -/
theorem exists_submission_of_new {settings : Settings} {t : Jobs}
    {ops : List Op} {id : UUID} {s : Job} (hnew : t.find? id = none)
    (hs : ((service settings).run t ops).find? id = some s) :
    ∃ call ∈ (service settings).trace t ops, ∃ sub : Submitted,
      call.2 = .ok (.submitted sub) ∧ sub.created = true ∧
        sub.job.SameSubmission s := by
  have hpath := service_path_from settings t ops id
  rw [hnew, hs] at hpath
  obtain ⟨row, hrow, hsame⟩ := hpath.created
  simp only [historyFrom, List.mem_flatMap, mem_changesFor] at hrow
  obtain ⟨call, hcall, hmem⟩ := hrow
  obtain ⟨op, sub, rfl, hcreated, rfl, -⟩ := (makes_of_mem hmem).created_inv
  exact ⟨_, hcall, sub, rfl, hcreated, hsame⟩

/-! ## A client that reads the list -/

/-- The table at page read number `k` of a walk that starts in the table after
`ops`, where `between i` is what others do after page read number `i`. -/
def walkTable (settings : Settings) (ops : List Op) (between : ℕ → List Op)
    (k : ℕ) : Jobs :=
  tableAfter settings (ops ++ (List.range k).flatMap between)

/-- The page that read number `k` returns, of `limit` jobs of the given type;
the statement that counted the jobs has seen the table `counted k`. -/
def walkPage (settings : Settings) (ops : List Op) (between : ℕ → List Op)
    (counted : ℕ → Jobs) (jobType : Option JobType) (limit k : ℕ) :
    List Job :=
  (listJobs (counted k) (walkTable settings ops between k) none jobType limit
    (k * limit)).1

theorem walkTable_eq (settings : Settings) (ops : List Op)
    (between : ℕ → List Op) (k : ℕ) :
    walkTable settings ops between k =
      (service settings).run (tableAfter settings ops)
        ((List.range k).flatMap between) :=
  tableAfter_append settings ops _

theorem walkTable_zero (settings : Settings) (ops : List Op)
    (between : ℕ → List Op) :
    walkTable settings ops between 0 = tableAfter settings ops :=
  walkTable_eq settings ops between 0

theorem walkTable_keeps (settings : Settings) (ops : List Op)
    (between : ℕ → List Op) (jobType : Option JobType) (k : ℕ) :
    KeyedTable.Keeps (applyFilters none jobType) Job.listKey
      (walkTable settings ops between k)
      (walkTable settings ops between (k + 1)) := by
  have hnext : walkTable settings ops between (k + 1) =
      (service settings).run (walkTable settings ops between k)
        (between k) := by
    rw [walkTable, walkTable, ← tableAfter_append, List.range_succ,
      List.flatMap_append, List.flatMap_singleton, List.append_assoc]
  rw [hnext]
  exact keeps_run settings _ _ jobType

/-- Unless a matching job was submitted during the walk, the matching jobs of
the last table were there from the start. -/
theorem old_of_none_created {settings : Settings} {ops : List Op}
    {between : ℕ → List Op} {jobType : Option JobType} {m : ℕ}
    (hnone : ∀ call ∈ (service settings).trace (tableAfter settings ops)
        ((List.range m).flatMap between), ∀ sub,
      call.2 = .ok (.submitted sub) → sub.created = true →
        applyFilters none jobType sub.job = false) :
    ∀ s ∈ (walkTable settings ops between m).select
        (applyFilters none jobType),
      ∃ r ∈ (walkTable settings ops between 0).select
        (applyFilters none jobType), r.id = s.id := by
  intro s hs
  obtain ⟨hmem, hmatches⟩ := KeyedTable.mem_select.mp hs
  have hfind := KeyedTable.find?_of_mem hmem
  rw [walkTable_eq] at hfind
  rw [walkTable_zero]
  cases hr : (tableAfter settings ops).find? s.id with
  | none =>
      obtain ⟨call, hcall, sub, hreply, hcreated, hsame⟩ :=
        exists_submission_of_new hr hfind
      have hfalse := hnone call hcall sub hreply hcreated
      rw [← applyFilters_none hsame.type, hmatches] at hfalse
      cases hfalse
  | some r =>
      have hpath := service_path_from settings (tableAfter settings ops)
        ((List.range m).flatMap between) s.id
      rw [hr] at hpath
      obtain ⟨s', hs', hcontinues⟩ := RowPath.continues hpath
      obtain rfl := Option.some.inj (hfind.symm.trans hs')
      obtain ⟨hrmem, hkey⟩ := KeyedTable.find?_eq_some_iff.mp hr
      refine ⟨r, KeyedTable.mem_select.mpr ⟨hrmem, ?_⟩, hkey⟩
      rw [← applyFilters_none hcontinues.submission.type]
      exact hmatches

/-- Paging through the job list never skips a job.  For every walk that starts
in a reachable table and reads pages of `limit` jobs, of any type or of one,
whatever other processes do between the reads: when a page comes back short,
every matching job that was there at the first read has been received; while
the number of matching jobs stays within bounds a page does come back short,
after full ones; and if no matching job was created meanwhile, each matching
job was received exactly once, the newest first. -/
theorem paging_never_skips (settings : Settings) (ops : List Op)
    (between : ℕ → List Op) (counted : ℕ → Jobs)
    (jobType : Option JobType) {limit : ℕ} (hlimit : 1 ≤ limit) :
    (∀ m, (walkPage settings ops between counted jobType limit m).length <
        limit →
      ∀ r ∈ (tableAfter settings ops).rows,
        applyFilters none jobType r = true →
        ∃ k ≤ m, ∃ s ∈ walkPage settings ops between counted jobType limit k,
          s.id = r.id) ∧
    (∀ n, (∀ k, ((walkTable settings ops between k).select
        (applyFilters none jobType)).length ≤ n) →
      ∃ m, m * limit ≤ n ∧
        (walkPage settings ops between counted jobType limit m).length <
          limit ∧
        ∀ k < m, (walkPage settings ops between counted jobType limit
          k).length = limit) ∧
    ∀ m, (walkPage settings ops between counted jobType limit m).length <
        limit →
      (∀ call ∈ (service settings).trace (tableAfter settings ops)
          ((List.range m).flatMap between), ∀ sub,
        call.2 = .ok (.submitted sub) → sub.created = true →
          applyFilters none jobType sub.job = false) →
      ((List.range (m + 1)).flatMap
          (walkPage settings ops between counted jobType limit)).Pairwise
        (fun r s => s.createdAt < r.createdAt ∨
          s.createdAt = r.createdAt ∧ s.id.toNat < r.id.toNat) ∧
      ∀ id, id ∈ ((List.range (m + 1)).flatMap (walkPage settings ops between
          counted jobType limit)).map Job.id ↔
        ∃ r ∈ (tableAfter settings ops).rows,
          applyFilters none jobType r = true ∧ r.id = id := by
  have hkeeps := walkTable_keeps settings ops between jobType
  have hkey : ∀ r s : Job, r.listKey = s.listKey → r.id = s.id :=
    fun _ _ => Job.id_of_listKey
  refine ⟨fun m hshort r hr hmatches => ?_,
    fun n hbound => KeyedTable.exists_short hkeeps hlimit hbound,
    fun m hshort hnone => ⟨?_, fun id => ?_⟩⟩
  · refine KeyedTable.seen_of_short hkeeps hkey hshort ?_
    rw [walkTable_zero]
    exact KeyedTable.mem_select.mpr ⟨hr, hmatches⟩
  · exact (KeyedTable.pairwise_pages hkeeps hkey limit
      (old_of_none_created hnone)).imp Job.listKey_lt_iff.mp
  · have hmem := KeyedTable.mem_pages_iff hkeeps hkey hshort
      (old_of_none_created hnone) id
    rw [walkTable_zero] at hmem
    simp only [KeyedTable.mem_select, and_assoc] at hmem
    exact hmem

/-- After the first page, of two jobs, another job is created. -/
def sampleArrival : ℕ → List Op
  | 0 => [.createJob (SubmitClock.at (seconds 5)) 4 sampleRequest none]
  | _ => []

/-- Three jobs of the same time, read two at a time: the arrival pushes one of
them from the second place of the list to the third, and it is received
twice; the oldest is received all the same, before the third page comes back
short. -/
theorem paging_never_skips_arrival :
    (walkPage sampleSettings [sampleSubmit 1, sampleSubmit 2, sampleSubmit 3]
      sampleArrival (fun _ => KeyedTable.empty) none 2 2).length < 2 ∧
    ∃ k ≤ 2, ∃ s ∈ walkPage sampleSettings
      [sampleSubmit 1, sampleSubmit 2, sampleSubmit 3] sampleArrival
      (fun _ => KeyedTable.empty) none 2 k, s.id = 1 := by
  have hshort : (walkPage sampleSettings
      [sampleSubmit 1, sampleSubmit 2, sampleSubmit 3] sampleArrival
      (fun _ => KeyedTable.empty) none 2 2).length < 2 := by decide +kernel
  refine ⟨hshort, ?_⟩
  obtain ⟨hseen, -⟩ := paging_never_skips sampleSettings
    [sampleSubmit 1, sampleSubmit 2, sampleSubmit 3] sampleArrival
    (fun _ => KeyedTable.empty) none (show 1 ≤ 2 by decide)
  exact hseen 2 hshort
    (newJob sampleRequest none none 0 0 1) (by decide +kernel) rfl

end JobQueue
