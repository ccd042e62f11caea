import JobQueue.Service.Operations

/-!
# What a single statement does

Inversion and execution rules for the statements of `Operations`.  An update
aimed at one row either matches nothing and leaves the table as it is, or
rewrites exactly that row; the operations of the service are analysed through
these rules and never unfold a statement again.
-/

namespace JobQueue

open Support

theorem bind_eq_ok {ε α β : Type} {x : Except ε α} {f : α → Except ε β}
    {b : β} : (x >>= f) = .ok b ↔ ∃ a, x = .ok a ∧ f a = .ok b := by
  cases x with
  | error e =>
      constructor
      · intro h
        cases h
      · rintro ⟨a, ha, -⟩
        cases ha
  | ok a =>
      constructor
      · intro h
        exact ⟨a, rfl, h⟩
      · rintro ⟨a', ha, h⟩
        cases ha
        exact h

theorem bind_eq_error {ε α β : Type} {x : Except ε α} {f : α → Except ε β}
    {e : ε} :
    (x >>= f) = .error e ↔ x = .error e ∨ ∃ a, x = .ok a ∧ f a = .error e := by
  cases x with
  | error e' => simp [bind, Except.bind]
  | ok a => simp [bind, Except.bind]

/-- `t'` is `t` with the row `r` under `k` rewritten to `s`. -/
structure Rewrites (t t' : Jobs) (k : UUID) (r s : Job) : Prop where
  before : t.find? k = some r
  after : t'.find? k = some s
  others : ∀ k', k' ≠ k → t'.find? k' = t.find? k'

theorem Rewrites.checked {t t' : Jobs} {k : UUID} {r s : Job}
    (h : Rewrites t t' k r s) (ht : ∀ x ∈ t.rows, x.violatedCheck = none)
    (hs : s.violatedCheck = none) : ∀ x ∈ t'.rows, x.violatedCheck = none := by
  intro x hx
  have hfind := KeyedTable.find?_of_mem hx
  by_cases hk : x.id = k
  · rw [hk, h.after] at hfind
    rw [← Option.some.inj hfind]
    exact hs
  · rw [h.others _ hk] at hfind
    exact ht x (KeyedTable.find?_eq_some_iff.mp hfind).1

theorem executeUpdate_eq_ok {t t' : Jobs} {p : Job → Bool}
    {a : Assignment Job.id} {rows : List Job}
    (h : executeUpdate t p a = .ok (t', rows)) :
    t' = t.updateWhere p a ∧ rows = t.returning p a := by
  unfold executeUpdate at h
  split at h
  · cases h
  · cases h
    exact ⟨rfl, rfl⟩

/-- An update whose rewritten rows pass the check constraints goes through. -/
theorem executeUpdate_checked {t : Jobs} {p : Job → Bool}
    {a : Assignment Job.id}
    (h : ∀ r ∈ t.rows, p r = true → (a.set r).violatedCheck = none) :
    executeUpdate t p a = .ok (t.updateWhere p a, t.returning p a) := by
  have hnone : (t.returning p a).findSome? Job.violatedCheck = none := by
    rw [List.findSome?_eq_none_iff]
    intro s hs
    obtain ⟨r, hr, rfl⟩ := List.mem_map.mp hs
    obtain ⟨hmem, hp⟩ := KeyedTable.mem_select.mp hr
    exact h r hmem hp
  rw [executeUpdate, hnone]

theorem updateWhere_rewrites {t : Jobs} {p : Job → Bool}
    (a : Assignment Job.id) {k : UUID} {r : Job}
    (hp : ∀ r, p r = true → r.id = k) (hr : t.find? k = some r)
    (hpr : p r = true) : Rewrites t (t.updateWhere p a) k r (a.set r) := by
  refine ⟨hr, ?_, ?_⟩
  · rw [KeyedTable.find?_updateWhere, hr]
    simp [hpr]
  · intro k' hk'
    rw [KeyedTable.find?_updateWhere]
    cases hs : t.find? k' with
    | none => rfl
    | some s =>
        have hid := KeyedTable.key_of_find?_eq_some hs
        have hps : p s = false := by
          by_contra hne
          exact hk' (hid.symm.trans (hp s (by simpa using hne)))
        simp [hps]

theorem forall_rows_of_key {t : Jobs} {p : Job → Bool} {k : UUID}
    (hp : ∀ r, p r = true → r.id = k)
    (hnone : ∀ r, t.find? k = some r → p r = false) :
    ∀ r ∈ t.rows, p r = false := by
  intro r hr
  by_contra hne
  have hpr : p r = true := by simpa using hne
  have hfind := KeyedTable.find?_of_mem hr
  rw [hp r hpr] at hfind
  exact hne (hnone r hfind)

/-- An update aimed at one row either matches nothing and has no effect, or
rewrites that row alone. -/
theorem executeUpdate_of_key {t t' : Jobs} {p : Job → Bool}
    {a : Assignment Job.id} {rows : List Job} {k : UUID}
    (hp : ∀ r, p r = true → r.id = k)
    (h : executeUpdate t p a = .ok (t', rows)) :
    (rows = [] ∧ t' = t ∧ ∀ r, t.find? k = some r → p r = false) ∨
      ∃ r, p r = true ∧ rows = [a.set r] ∧ Rewrites t t' k r (a.set r) := by
  obtain ⟨rfl, rfl⟩ := executeUpdate_eq_ok h
  rw [KeyedTable.returning_of_key t hp]
  by_cases hmatch : ∃ r, t.find? k = some r ∧ p r = true
  · obtain ⟨r, hr, hpr⟩ := hmatch
    refine Or.inr ⟨r, hpr, ?_, updateWhere_rewrites a hp hr hpr⟩
    simp [hr, Option.filter, hpr]
  · have hnone : ∀ r, t.find? k = some r → p r = false := by
      intro r hr
      by_contra hne
      exact hmatch ⟨r, hr, by simpa using hne⟩
    refine Or.inl ⟨?_, ?_, hnone⟩
    · cases hr : t.find? k with
      | none => rfl
      | some r => simp [Option.filter, hnone r hr]
    · exact KeyedTable.updateWhere_eq_self (forall_rows_of_key hp hnone) a

theorem executeFirst_of_key {t t' : Jobs} {p : Job → Bool}
    {a : Assignment Job.id} {row : Option Job} {k : UUID}
    (hp : ∀ r, p r = true → r.id = k)
    (h : executeFirst t p a = .ok (t', row)) :
    (row = none ∧ t' = t ∧ ∀ r, t.find? k = some r → p r = false) ∨
      ∃ r, p r = true ∧ row = some (a.set r) ∧
        Rewrites t t' k r (a.set r) := by
  obtain ⟨⟨t₁, rows⟩, hupdate, hret⟩ := bind_eq_ok.mp h
  cases hret
  rcases executeUpdate_of_key hp hupdate with
    ⟨rfl, rfl, hnone⟩ | ⟨r, hpr, rfl, hrw⟩
  · exact Or.inl ⟨rfl, rfl, hnone⟩
  · exact Or.inr ⟨r, hpr, rfl, hrw⟩

theorem id_of_at {q : Job → Bool} {k : UUID} (r : Job)
    (h : (decide (r.id = k) && q r) = true) : r.id = k := by
  simp only [Bool.and_eq_true, decide_eq_true_eq] at h
  exact h.1

theorem executeFirst_at {t t' : Jobs} {q : Job → Bool}
    {a : Assignment Job.id} {row : Option Job} {k : UUID}
    (h : executeFirst t (fun r => r.id = k && q r) a = .ok (t', row)) :
    (row = none ∧ t' = t ∧ ∀ r, t.find? k = some r → q r = false) ∨
      ∃ r, q r = true ∧ row = some (a.set r) ∧
        Rewrites t t' k r (a.set r) := by
  rcases executeFirst_of_key id_of_at h with
    ⟨rfl, rfl, hnone⟩ | ⟨r, hpr, rfl, hrw⟩
  · refine Or.inl ⟨rfl, rfl, ?_⟩
    intro r hr
    have hid : r.id = k := KeyedTable.key_of_find?_eq_some hr
    simpa [hid] using hnone r hr
  · simp only [Bool.and_eq_true, decide_eq_true_eq] at hpr
    exact Or.inr ⟨r, hpr.2, rfl, hrw⟩

theorem executeUpdate_unmatched {t : Jobs} {p : Job → Bool}
    (a : Assignment Job.id) {k : UUID} (hp : ∀ r, p r = true → r.id = k)
    (hnone : ∀ r, t.find? k = some r → p r = false) :
    executeUpdate t p a = .ok (t, []) := by
  have hrows := forall_rows_of_key hp hnone
  have hselect : t.select p = [] := by
    apply List.filter_eq_nil_iff.mpr
    intro r hr
    simp [hrows r hr]
  rw [executeUpdate, KeyedTable.returning, hselect]
  simp [KeyedTable.updateWhere_eq_self hrows]

/-- An update whose predicate the row satisfies, and whose rewriting keeps
the check constraints, takes effect. -/
theorem executeUpdate_matched {t : Jobs} {p : Job → Bool}
    (a : Assignment Job.id) {k : UUID} {r : Job}
    (hp : ∀ r, p r = true → r.id = k) (hr : t.find? k = some r)
    (hpr : p r = true) (hcheck : (a.set r).violatedCheck = none) :
    executeUpdate t p a = .ok (t.updateWhere p a, [a.set r]) := by
  have hrows : t.returning p a = [a.set r] := by
    rw [KeyedTable.returning_of_key t hp, hr]
    simp [Option.filter, hpr]
  rw [executeUpdate, hrows]
  simp [hcheck]

theorem executeFirst_unmatched {t : Jobs} {p : Job → Bool}
    (a : Assignment Job.id) {k : UUID} (hp : ∀ r, p r = true → r.id = k)
    (hnone : ∀ r, t.find? k = some r → p r = false) :
    executeFirst t p a = .ok (t, none) := by
  rw [executeFirst, executeUpdate_unmatched a hp hnone]
  rfl

theorem executeFirst_matched {t : Jobs} {p : Job → Bool}
    (a : Assignment Job.id) {k : UUID} {r : Job}
    (hp : ∀ r, p r = true → r.id = k) (hr : t.find? k = some r)
    (hpr : p r = true) (hcheck : (a.set r).violatedCheck = none) :
    executeFirst t p a = .ok (t.updateWhere p a, some (a.set r)) := by
  rw [executeFirst, executeUpdate_matched a hp hr hpr hcheck]
  rfl

theorem executeFirst_at_matched {t : Jobs} {q : Job → Bool}
    (a : Assignment Job.id) {k : UUID} {r : Job} (hr : t.find? k = some r)
    (hq : q r = true) (hcheck : (a.set r).violatedCheck = none) :
    ∃ t', executeFirst t (fun r => r.id = k && q r) a =
        .ok (t', some (a.set r)) ∧ Rewrites t t' k r (a.set r) := by
  have hid : r.id = k := KeyedTable.key_of_find?_eq_some hr
  have hpr : (decide (r.id = k) && q r) = true := by simp [hid, hq]
  exact ⟨_, executeFirst_matched a id_of_at hr hpr hcheck,
    updateWhere_rewrites a id_of_at hr hpr⟩

theorem executeFirst_at_unmatched {t : Jobs} {q : Job → Bool}
    (a : Assignment Job.id) {k : UUID}
    (hq : ∀ r, t.find? k = some r → q r = false) :
    executeFirst t (fun r => r.id = k && q r) a = .ok (t, none) := by
  refine executeFirst_unmatched a id_of_at ?_
  intro r hr
  simp [hq r hr]

theorem executeFirst_eq_error {t : Jobs} {p : Job → Bool}
    {a : Assignment Job.id} {e : ServiceError}
    (h : executeFirst t p a = .error e) :
    ∃ name, e = .integrity (.check name) := by
  rcases bind_eq_error.mp h with hupdate | ⟨_, -, hret⟩
  · unfold executeUpdate at hupdate
    split at hupdate
    · cases hupdate
      exact ⟨_, rfl⟩
    · cases hupdate
  · cases hret

theorem executeInsert_eq_ok {t t' : Jobs} {job : Job}
    (h : executeInsert t job = .ok t') :
    job.violatedCheck = none ∧ keyHolders t job.idempotencyKey = [] ∧
      ∃ hfresh : t.find? job.id = none, t' = t.insert job hfresh := by
  unfold executeInsert at h
  split at h
  · cases h
  · next hcheck =>
      split at h
      · next hfresh =>
          split at h
          · next hempty =>
              cases h
              exact ⟨hcheck, by simpa using hempty, hfresh, rfl⟩
          · cases h
      · cases h

theorem executeInsert_eq_error {t : Jobs} {job : Job} {e : ServiceError}
    (h : executeInsert t job = .error e) : ∃ error, e = .integrity error := by
  unfold executeInsert at h
  split at h
  · cases h
    exact ⟨_, rfl⟩
  · split at h
    · split at h
      · cases h
      · cases h
        exact ⟨_, rfl⟩
    · cases h
      exact ⟨_, rfl⟩

/-! ## Building and inserting a job -/

theorem toUtc_eq_ok {value utc : Time} (h : toUtc value = .ok utc) :
    utc = value := by
  unfold toUtc at h
  split at h
  · cases h
    rfl
  · cases h

section

variable {request : JobCreateRequest} {key : Option String}
  {now createdAt : Time} {id : UUID}

theorem buildJob_eq_ok {row : Job}
    (h : buildJob request key now createdAt id = .ok row) :
    row = newJob request request.scheduledAt key now createdAt id := by
  obtain ⟨scheduledAt, hutc, hret⟩ := bind_eq_ok.mp h
  cases hret
  cases hat : request.scheduledAt with
  | none =>
      rw [hat] at hutc
      cases hutc
      rfl
  | some value =>
      rw [hat] at hutc
      cases hvalue : toUtc value with
      | error e => simp [hvalue] at hutc
      | ok utc =>
          obtain rfl := toUtc_eq_ok hvalue
          obtain rfl : some utc = scheduledAt := by simpa [hvalue] using hutc
          rfl

/-- A job is built exactly from the bodies whose time has a date in UTC. -/
theorem buildJob_of_inUtcRange (h : request.inUtcRange = true) :
    buildJob request key now createdAt id =
      .ok (newJob request request.scheduledAt key now createdAt id) := by
  unfold buildJob
  cases hat : request.scheduledAt with
  | none => rfl
  | some value =>
      have hvalue : inUtcRange value = true := by
        simpa [JobCreateRequest.inUtcRange, hat] using h
      simp [toUtc, hvalue]

theorem buildJob_of_outOfRange (h : request.inUtcRange = false) :
    buildJob request key now createdAt id = .error dateOutOfRange := by
  unfold buildJob
  cases hat : request.scheduledAt with
  | none => simp [JobCreateRequest.inUtcRange, hat] at h
  | some value =>
      have hvalue : inUtcRange value = false := by
        simpa [JobCreateRequest.inUtcRange, hat] using h
      simp [toUtc, hvalue]

theorem buildJob_eq_error {e : ServiceError}
    (h : buildJob request key now createdAt id = .error e) :
    request.inUtcRange = false ∧ e = dateOutOfRange := by
  cases hrange : request.inUtcRange with
  | true =>
      rw [buildJob_of_inUtcRange hrange] at h
      cases h
  | false =>
      rw [buildJob_of_outOfRange hrange] at h
      exact ⟨rfl, (Except.error.inj h).symm⟩

/-- A submission that returns has built its row and inserted it, or has lost
the race for the key and returns the winner. -/
theorem insertJob_eq_ok {t t' : Jobs} {clock : SubmitClock} {s : Submitted}
    (h : insertJob t clock id request key = .ok (t', s)) :
    ∃ t₁ released row,
      releaseBeforeInsert t key clock.release = .ok (t₁, released) ∧
      buildJob request key clock.build clock.database id = .ok row ∧
      ((s = ⟨row, true, released⟩ ∧ executeInsert t₁ row = .ok t') ∨
        ∃ winner, s = ⟨winner, false, []⟩ ∧ t' = t ∧
          findActiveByKey t (key.getD "") clock.reload = some winner) := by
  obtain ⟨⟨t₁, released⟩, hrelease, h⟩ := bind_eq_ok.mp h
  obtain ⟨row, hbuild, h⟩ := bind_eq_ok.mp h
  refine ⟨t₁, released, row, hrelease, hbuild, ?_⟩
  split at h
  · next hinsert =>
      cases h
      exact Or.inl ⟨rfl, hinsert⟩
  · split at h
    · split at h
      · next winner hwinner =>
          cases h
          exact Or.inr ⟨winner, rfl, rfl, hwinner⟩
      · cases h
    · cases h

end

end JobQueue
