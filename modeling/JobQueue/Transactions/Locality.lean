import JobQueue.Transactions.Sessions

/-!
# Locality

An operation depends on the rows it writes and on nothing else.  Executed
again on a table that has moved on, but in which these rows are as they were,
it writes the same versions and gives the same answer.  This is what a session
relies on between its statement and its commit.
-/

namespace JobQueue

open Support

/-! ## Statements -/

theorem executeUpdate_checks {t t' : Jobs} {p : Job → Bool}
    {a : Assignment Job.id} {rows : List Job}
    (h : executeUpdate t p a = .ok (t', rows)) :
    ∀ s ∈ rows, s.violatedCheck = none := by
  unfold executeUpdate at h
  split at h
  · cases h
  · next hnone =>
      cases h
      exact List.findSome?_eq_none_iff.mp hnone

/-- The rows an update returns are the versions it writes. -/
theorem executeUpdate_overwrite {t t' : Jobs} {p : Job → Bool}
    {a : Assignment Job.id} {rows : List Job}
    (h : executeUpdate t p a = .ok (t', rows)) : t' = t.overwrite rows := by
  obtain ⟨rfl, rfl⟩ := executeUpdate_eq_ok h
  have hids : (t.returning p a).map Job.id = (t.select p).map Job.id := by
    rw [KeyedTable.returning, List.map_map]
    exact List.map_congr_left fun r _ => a.key_set r
  have hnodup : ((t.returning p a).map Job.id).Nodup := by
    rw [hids]
    exact t.nodup_select p
  apply KeyedTable.ext_find?
  · rw [KeyedTable.keys_overwrite, KeyedTable.keys_updateWhere]
  · intro id
    rw [KeyedTable.find?_updateWhere]
    cases hr : t.find? id with
    | none =>
        rw [KeyedTable.find?_overwrite, hr]
        rfl
    | some r =>
        obtain ⟨hmem, rfl⟩ := KeyedTable.find?_eq_some_iff.mp hr
        by_cases hp : p r = true
        · have hs : a.set r ∈ t.returning p a :=
            List.mem_map_of_mem (KeyedTable.mem_select.mpr ⟨hmem, hp⟩)
          have hrow : (t.find? (a.set r).id).isSome = true := by
            rw [a.key_set, hr]
            rfl
          have hfind := KeyedTable.find?_overwrite_of_mem hnodup hs hrow
          rw [a.key_set] at hfind
          rw [hfind, Option.map_some, if_pos hp]
        · rw [KeyedTable.find?_overwrite_of_notMem, hr, Option.map_some,
            if_neg hp]
          rw [hids]
          intro hid
          obtain ⟨s, hs, hkey⟩ := List.mem_map.mp hid
          obtain ⟨hs, hps⟩ := KeyedTable.mem_select.mp hs
          have hsame := KeyedTable.find?_of_mem hs
          rw [hkey, hr] at hsame
          obtain rfl := Option.some.inj hsame
          exact hp hps

/-- An update that matches the same rows does the same. -/
theorem executeUpdate_agree {t t₁ t' : Jobs} {p q : Job → Bool}
    {a : Assignment Job.id} {rows : List Job}
    (h : executeUpdate t p a = .ok (t₁, rows))
    (hselect : t'.select q = t.select p) :
    executeUpdate t' q a = .ok (t'.overwrite rows, rows) := by
  have hreturning : t'.returning q a = rows := by
    rw [(executeUpdate_eq_ok h).2, KeyedTable.returning, hselect]
    rfl
  have hok : executeUpdate t' q a = .ok (t'.updateWhere q a, rows) := by
    rw [← hreturning]
    refine executeUpdate_checked fun r hr hq => ?_
    refine executeUpdate_checks h _ ?_
    rw [← hreturning]
    exact List.mem_map_of_mem (KeyedTable.mem_select.mpr ⟨hr, hq⟩)
  rw [hok, executeUpdate_overwrite hok]

theorem select_agree {t t' : Jobs} {p : Job → Bool} {k : UUID}
    (hp : ∀ r, p r = true → r.id = k) (hk : t'.find? k = t.find? k) :
    t'.select p = t.select p := by
  have hselect : ∀ t : Jobs, t.select p = ((t.find? k).filter p).toList := by
    intro t
    have hreturning := t.returning_of_key hp ⟨id, fun _ => rfl⟩
    simpa [KeyedTable.returning] using hreturning
  rw [hselect, hselect, hk]

/-- The function writes one version of the row `k`, which it would write to
any table with the same row. -/
def WritesAt {β : Type} (k : UUID)
    (f : Jobs → Except ServiceError (Jobs × β)) (t t₁ : Jobs) (y : β) :
    Prop :=
  ∃ row, row.id = k ∧ t₁ = t.overwrite [row] ∧
    ∀ t' : Jobs, t'.find? k = t.find? k → f t' = .ok (t'.overwrite [row], y)

/-- What follows an update aimed at one row, if it finds the row, depends on
the version written. -/
theorem update_local {β : Type} {t t₁ : Jobs} {p : Job → Bool}
    {a : Assignment Job.id} {k : UUID} {y : β}
    {answer : Jobs × List Job → Except ServiceError (Jobs × β)}
    (finish : Job → Except ServiceError β)
    (hp : ∀ r, p r = true → r.id = k)
    (hanswer : ∀ t row, answer (t, [row]) = (finish row).map (Prod.mk t))
    (h : executeUpdate t p a >>= answer = .ok (t₁, y)) :
    answer (t, []) = .ok (t₁, y) ∨ (∃ row, finish row = .ok y) ∧
      WritesAt k (fun t => executeUpdate t p a >>= answer) t t₁ y := by
  obtain ⟨⟨t₂, rows⟩, hupdate, hret⟩ := bind_eq_ok.mp h
  rcases executeUpdate_of_key hp hupdate with
    ⟨rfl, rfl, -⟩ | ⟨r, hpr, rfl, hrw⟩
  · exact Or.inl hret
  · rw [hanswer] at hret
    obtain ⟨y', hfinish, hpair⟩ : ∃ y', finish (a.set r) = .ok y' ∧
        (t₂, y') = (t₁, y) := by
      cases hfinish : finish (a.set r) with
      | error e =>
          rw [hfinish] at hret
          cases hret
      | ok y' =>
          rw [hfinish] at hret
          exact ⟨y', rfl, Except.ok.inj hret⟩
    obtain ⟨rfl, rfl⟩ := Prod.mk.inj hpair
    refine Or.inr ⟨⟨_, hfinish⟩, a.set r, (a.key_set r).trans (hp r hpr),
      executeUpdate_overwrite hupdate, fun t' hk => ?_⟩
    dsimp only
    rw [executeUpdate_agree hupdate (select_agree hp hk)]
    exact (hanswer _ _).trans (by rw [hfinish]; rfl)

theorem first_local {β : Type} {t t₁ : Jobs} {p : Job → Bool}
    {a : Assignment Job.id} {k : UUID} {y : β}
    {answer : Jobs × Option Job → Except ServiceError (Jobs × β)}
    (finish : Job → Except ServiceError β)
    (hp : ∀ r, p r = true → r.id = k)
    (hanswer : ∀ t row, answer (t, some row) =
      (finish row).map (Prod.mk t))
    (h : executeFirst t p a >>= answer = .ok (t₁, y)) :
    answer (t, none) = .ok (t₁, y) ∨ (∃ row, finish row = .ok y) ∧
      WritesAt k (fun t => executeFirst t p a >>= answer) t t₁ y := by
  have hassoc : ∀ t, executeFirst t p a >>= answer =
      executeUpdate t p a >>= fun x => answer (x.1, x.2.head?) := by
    intro t
    rw [executeFirst]
    cases executeUpdate t p a <;> rfl
  simp only [hassoc] at h ⊢
  exact update_local finish hp hanswer h

theorem WritesAt.answer {β : Type} {k : UUID}
    {f : Jobs → Except ServiceError (Jobs × β)} {t t₁ : Jobs} {y : β}
    (h : WritesAt k f t t₁ y) (wrap : β → Reply) :
    WritesAt k (fun t => JobQueue.answer wrap (f t)) t t₁ (wrap y) := by
  obtain ⟨row, hid, hwrites, hagain⟩ := h
  refine ⟨row, hid, hwrites, fun t' hk => ?_⟩
  dsimp only
  rw [hagain t' hk]
  rfl

/-! ## Operations aimed at one job -/

section Aimed

variable {settings : Settings} {t t₁ : Jobs}

theorem claimJob_local {now : Time} {jobId : UUID} {workerId : String}
    {token : UUID} {leaseSeconds : Option Duration} {row : Option Job}
    (h : claimJob settings t now jobId workerId token leaseSeconds =
      .ok (t₁, row)) :
    (row = none ∧ t₁ = t) ∨ (∃ s, row = some s) ∧
      WritesAt jobId (fun t => claimJob settings t now jobId workerId token
        leaseSeconds) t t₁ row := by
  have hbind : ∀ t, claimJob settings t now jobId workerId token
      leaseSeconds = executeFirst t
        (fun r => r.id = jobId && r.isClaimable)
        (claim now workerId token
          (leaseDeadline settings now leaseSeconds)) >>= .ok := by
    intro t
    rw [claimJob]
    cases executeFirst t _ _ <;> rfl
  simp only [hbind] at h ⊢
  rcases first_local (fun s => .ok (some s)) id_of_at
    (fun _ _ => rfl) h with hnone | ⟨⟨s, hs⟩, hwrites⟩
  · cases hnone
    exact Or.inl ⟨rfl, rfl⟩
  · exact Or.inr ⟨⟨s, (Except.ok.inj hs).symm⟩, hwrites⟩

theorem extendLease_local {now : Time} {a : Attempt}
    {leaseSeconds : Option Duration} {deadline : Time}
    (h : extendLease settings t now a leaseSeconds = .ok (t₁, deadline)) :
    WritesAt a.jobId (fun t => extendLease settings t now a leaseSeconds) t
      t₁ deadline := by
  rcases first_local
    (fun s => s.leaseExpiresAt.elim (.error a.ownershipLost) .ok)
    (fun _ => ownedBy_id) (fun _ s => by
      cases hlease : s.leaseExpiresAt with
      | none => simp [hlease]; rfl
      | some extended => simp [hlease]; rfl) h with hnone | ⟨-, hwrites⟩
  · cases hnone
  · exact hwrites

theorem updateProgress_local {a : Attempt} {progress : ℤ} {u : Unit}
    (h : updateProgress t a progress = .ok (t₁, u)) :
    WritesAt a.jobId (fun t => updateProgress t a progress) t t₁ u := by
  rcases update_local (fun _ => .ok ()) (fun _ => ownedBy_id)
    (fun _ _ => rfl) h with hnone | ⟨-, hwrites⟩
  · cases hnone
  · exact hwrites

theorem completeJob_local {now : Time} {a : Attempt} {result : Jsonb}
    {row : Job} (h : completeJob t now a result = .ok (t₁, row)) :
    WritesAt a.jobId (fun t => completeJob t now a result) t t₁ row := by
  rcases first_local .ok (fun _ => ownedBy_id)
    (fun _ _ => rfl) h with hnone | ⟨-, hwrites⟩
  · cases hnone
  · exact hwrites

/-- The write of a failed attempt, which the attempt chooses. -/
theorem applyFailedAttempt_eq {now : Time} {a : Attempt} {error : String}
    {guarded : Bool} {x : Jobs × Option AttemptResult}
    (h : applyFailedAttempt t now a error guarded = .ok x) :
    ∃ p s outcome, (∀ r, p r = true → r.id = a.jobId) ∧
      ∀ t, applyFailedAttempt t now a error guarded =
        executeFirst t p s >>= fun x =>
          .ok (x.1, x.2.map (AttemptResult.mk outcome)) := by
  have hid : ∀ (q : Job → Bool) (r : Job),
      (ownedBy a r && q r && (!guarded || r.leaseExpired now)) = true →
      r.id = a.jobId := by
    intro q r hr
    simp only [Bool.and_eq_true] at hr
    exact ownedBy_id hr.1.1
  by_cases hleft : a.hasAttemptsLeft = true
  · rw [applyFailedAttempt, if_pos hleft] at h
    obtain ⟨delay, hdelay, -⟩ := bind_eq_ok.mp h
    refine ⟨_, scheduleRetry now delay error, .retryScheduled,
      hid fun r => r.attemptCount < r.maxAttempts, fun t => ?_⟩
    rw [applyFailedAttempt, if_pos hleft, hdelay]
    rfl
  · refine ⟨_, failPermanently now error, .permanentlyFailed,
      hid fun r => r.attemptCount ≥ r.maxAttempts, fun t => ?_⟩
    rw [applyFailedAttempt, if_neg hleft]
    rfl

theorem failAttempt_local {now : Time} {a : Attempt} {error : String}
    {result : AttemptResult}
    (h : failAttempt t now a error = .ok (t₁, result)) :
    WritesAt a.jobId (fun t => failAttempt t now a error) t t₁ result := by
  obtain ⟨x, happly, -⟩ := bind_eq_ok.mp h
  obtain ⟨p, s, outcome, hp, heq⟩ := applyFailedAttempt_eq happly
  have hbind : ∀ t, failAttempt t now a error = executeFirst t p s >>=
      fun x => (x.2.elim (.error a.ownershipLost) fun row =>
        .ok (x.1, ⟨outcome, row⟩)) := by
    intro t
    rw [failAttempt, heq]
    cases executeFirst t p s with
    | error e => rfl
    | ok x =>
        obtain ⟨t₂, row⟩ := x
        cases row <;> rfl
  simp only [hbind] at h ⊢
  rcases first_local (fun row => .ok ⟨outcome, row⟩) hp
    (fun _ _ => rfl) h with hnone | ⟨-, hwrites⟩
  · cases hnone
  · exact hwrites

theorem cancelJob_local {jobId : UUID} {c : Cancelled}
    (h : cancelJob t jobId = .ok (t₁, c)) :
    (c.changed = false ∧ t₁ = t) ∨ c.changed = true ∧
      WritesAt jobId (fun t => cancelJob t jobId) t t₁ c := by
  rcases first_local (fun s => .ok ⟨s, true⟩) id_of_at
    (fun _ _ => rfl) h with hnone | ⟨⟨s, hs⟩, hwrites⟩
  · obtain ⟨existing, -, hret⟩ := bind_eq_ok.mp hnone
    cases hret
    exact Or.inl ⟨rfl, rfl⟩
  · cases hs
    exact Or.inr ⟨rfl, hwrites⟩

theorem retryJob_local {jobId : UUID} {row : Job}
    (h : retryJob t jobId = .ok (t₁, row)) :
    WritesAt jobId (fun t => retryJob t jobId) t t₁ row := by
  rcases first_local .ok id_of_at
    (fun _ _ => rfl) h with hnone | ⟨-, hwrites⟩
  · cases hnone
  · exact hwrites

/-- An operation aimed at one job writes nothing, or one version of its
row. -/
theorem execute_local {op : Op} {k : UUID} (haim : op.aim = some k)
    {reply : Reply} (h : op.execute settings t = .ok (t₁, reply)) :
    (writtenIds settings op (.ok reply) = [] ∧ t₁ = t) ∨
      writtenIds settings op (.ok reply) = [k] ∧
        WritesAt k (op.execute settings) t t₁ reply := by
  cases op with
  | claimJob now jobId workerId token leaseSeconds =>
      obtain rfl := Option.some.inj haim
      obtain ⟨row, hrow, rfl⟩ := answer_eq_ok h
      rcases claimJob_local hrow with ⟨rfl, rfl⟩ | ⟨⟨s, rfl⟩, hwrites⟩
      · exact Or.inl ⟨rfl, rfl⟩
      · exact Or.inr ⟨rfl, hwrites.answer _⟩
  | extendLease now a leaseSeconds =>
      obtain rfl := Option.some.inj haim
      obtain ⟨deadline, hdeadline, rfl⟩ := answer_eq_ok h
      exact Or.inr ⟨rfl, (extendLease_local hdeadline).answer _⟩
  | updateProgress a progress =>
      obtain rfl := Option.some.inj haim
      obtain ⟨u, hu, rfl⟩ := answer_eq_ok h
      exact Or.inr ⟨rfl, (updateProgress_local hu).answer _⟩
  | completeJob now a result =>
      obtain rfl := Option.some.inj haim
      obtain ⟨row, hrow, rfl⟩ := answer_eq_ok h
      exact Or.inr ⟨rfl, (completeJob_local hrow).answer _⟩
  | failAttempt now a error =>
      obtain rfl := Option.some.inj haim
      obtain ⟨result, hresult, rfl⟩ := answer_eq_ok h
      exact Or.inr ⟨rfl, (failAttempt_local hresult).answer _⟩
  | cancelJob jobId =>
      obtain rfl := Option.some.inj haim
      obtain ⟨c, hc, rfl⟩ := answer_eq_ok h
      rcases cancelJob_local hc with ⟨hchanged, rfl⟩ | ⟨hchanged, hwrites⟩
      · exact Or.inl ⟨by simp [writtenIds, changesOf, hchanged], rfl⟩
      · exact Or.inr ⟨by simp [writtenIds, changesOf, hchanged],
          hwrites.answer _⟩
  | retryJob jobId =>
      obtain rfl := Option.some.inj haim
      obtain ⟨row, hrow, rfl⟩ := answer_eq_ok h
      exact Or.inr ⟨rfl, (retryJob_local hrow).answer _⟩
  | _ => cases haim

end Aimed

/-! ## Sweeps -/

/-- The rows that a sweep may find when all but the given ones are locked. -/
def allBut (t : Jobs) (ids : List UUID) : List UUID :=
  (t.rows.map Job.id).filter fun id => !ids.contains id

theorem contains_allBut {t : Jobs} {ids : List UUID} {r : Job}
    (hr : r ∈ t.rows) :
    (allBut t ids).contains r.id = !decide (r.id ∈ ids) := by
  have hmem : r.id ∈ t.rows.map Job.id := List.mem_map_of_mem hr
  by_cases hid : r.id ∈ ids
  · simp [allBut, hid]
  · have hin : r.id ∈ allBut t ids := by
      rw [allBut, List.mem_filter]
      exact ⟨hmem, by simpa using hid⟩
    simp [hid, hin]

/-- The rows an update matches are the rows under their keys. -/
theorem select_of_returned {t t₁ : Jobs} {p : Job → Bool}
    {a : Assignment Job.id} {rows : List Job}
    (h : executeUpdate t p a = .ok (t₁, rows)) {r : Job} (hr : r ∈ t.rows) :
    p r = decide (r.id ∈ rows.map Job.id) := by
  have hids : rows.map Job.id = (t.select p).map Job.id := by
    rw [(executeUpdate_eq_ok h).2, KeyedTable.returning, List.map_map]
    exact List.map_congr_left fun r _ => a.key_set r
  rw [hids, Bool.eq_iff_iff, decide_eq_true_eq, List.mem_map]
  constructor
  · intro hp
    exact ⟨r, KeyedTable.mem_select.mpr ⟨hr, hp⟩, rfl⟩
  · rintro ⟨s, hs, hid⟩
    obtain ⟨hs, hp⟩ := KeyedTable.mem_select.mp hs
    have hsame := KeyedTable.find?_of_mem hs
    rw [hid, KeyedTable.find?_of_mem hr] at hsame
    rw [Option.some.inj hsame]
    exact hp

/-- An activation would activate the same rows of a table in which they are
due as before, if nothing else is to be found there. -/
theorem activate_local {t t₁ t' : Jobs} {now : Time} {limit : ℕ}
    {locked : List UUID} {rows : List Job}
    (h : activateDueScheduledJobs t now limit locked = .ok (t₁, rows))
    (hmoves : KeyedTable.MovesAround (rows.map Job.id) t t') :
    ∃ locked',
      activateDueScheduledJobs t' now limit locked' =
        .ok (t'.overwrite rows, rows) := by
  have hupdate : executeUpdate t (fun r =>
      (selectDue t now limit locked).contains r.id && r.isDue now) activate =
      .ok (t₁, rows) := h
  refine ⟨allBut t' (rows.map Job.id), executeUpdate_agree hupdate ?_⟩
  have hreturned := fun r hr => select_of_returned hupdate (r := r) hr
  have hrow : ∀ id ∈ rows.map Job.id, ∃ r, t.find? id = some r ∧
      id ∈ selectDue t now limit locked ∧ r.isDue now = true := by
    intro id hid
    obtain ⟨s, hs, rfl⟩ := List.mem_map.mp hid
    rw [(executeUpdate_eq_ok hupdate).2] at hs
    obtain ⟨r, hr, rfl⟩ := List.mem_map.mp hs
    obtain ⟨hmem, hp⟩ := KeyedTable.mem_select.mp hr
    simp only [Bool.and_eq_true, List.contains_iff_mem] at hp
    exact ⟨r, KeyedTable.find?_of_mem hmem, hp.1, hp.2⟩
  have hlimit : (rows.map Job.id).length ≤ limit := by
    have hnodup : (rows.map Job.id).Nodup := by
      rw [(executeUpdate_eq_ok hupdate).2, KeyedTable.returning,
        List.map_map]
      exact t.nodup_select _
    have hsub : rows.map Job.id ⊆ selectDue t now limit locked :=
      fun id hid => (hrow id hid).choose_spec.2.1
    refine (List.subperm_of_subset hnodup hsub).length_le.trans ?_
    rw [selectDue, List.length_map]
    exact KeyedTable.length_selectOrdered_le _ _ _ _
  have hfound : ∀ r ∈ t'.rows,
      (r.isDue now && !(allBut t' (rows.map Job.id)).contains r.id) =
        (r.isDue now && decide (r.id ∈ rows.map Job.id)) := by
    intro r hr
    rw [contains_allBut hr, Bool.not_not]
  have hselect : ∀ r ∈ t'.rows,
      ((selectDue t' now limit (allBut t' (rows.map Job.id))).contains r.id &&
        r.isDue now) = decide (r.id ∈ rows.map Job.id) := by
    intro r hr
    rw [Bool.eq_iff_iff, Bool.and_eq_true, List.contains_iff_mem,
      decide_eq_true_eq, selectDue, List.mem_map]
    constructor
    · rintro ⟨⟨s, hs, hid⟩, -⟩
      obtain ⟨hs, hp⟩ := KeyedTable.mem_selectOrdered hs
      rw [hfound s hs, Bool.and_eq_true, decide_eq_true_eq] at hp
      rw [← hid]
      exact hp.2
    · intro hid
      obtain ⟨s, hs, -, hdue⟩ := hrow r.id hid
      have hsame := hmoves.same r.id hid
      rw [KeyedTable.find?_of_mem hr, hs] at hsame
      obtain rfl := Option.some.inj hsame
      refine ⟨⟨r, KeyedTable.mem_selectOrdered_of_keys (fun s hs hp => ?_)
        hlimit hr ?_, rfl⟩, hdue⟩
      · rw [hfound s hs, Bool.and_eq_true, decide_eq_true_eq] at hp
        exact hp.2
      · rw [hfound r hr, hdue, decide_eq_true hid]
        rfl
  calc t'.select _
    _ = t'.select (fun r => r.id ∈ rows.map Job.id) :=
        List.filter_congr hselect
    _ = t.select (fun r => r.id ∈ rows.map Job.id) := by
        refine hmoves.select_keys fun id hid => ?_
        obtain ⟨r, hr, -⟩ := hrow id hid
        rw [hr]
        rfl
    _ = t.select _ := (List.filter_congr hreturned).symm

/-- A recovery would select the same rows again, in the same order, if they
are as they were and nothing else is to be found. -/
theorem selectExpired_local {t t' : Jobs} {now : Time} {limit : ℕ}
    {locked : List UUID} (hmoves : KeyedTable.MovesAround
      ((selectExpired t now limit locked).map Job.id) t t') :
    ∃ locked', selectExpired t' now limit locked' =
      selectExpired t now limit locked := by
  refine ⟨allBut t' ((selectExpired t now limit locked).map Job.id), ?_⟩
  have hselect : t'.selectOrdered (fun r : Job =>
      r.status = .processing && r.leaseExpired now &&
        !locked.contains r.id && decide (r.id ∈
          (selectExpired t now limit locked).map Job.id)) leaseOrder limit =
      selectExpired t now limit locked := hmoves.selectOrdered rfl
  refine Eq.trans ?_ hselect
  have hp : ∀ r ∈ t'.rows,
      (r.status = .processing && r.leaseExpired now &&
        !(allBut t' ((selectExpired t now limit locked).map Job.id)).contains
          r.id) =
      (r.status = .processing && r.leaseExpired now &&
        !locked.contains r.id &&
        decide (r.id ∈ (selectExpired t now limit locked).map Job.id)) := by
    intro r hr
    rw [contains_allBut hr, Bool.not_not]
    by_cases hid : r.id ∈ (selectExpired t now limit locked).map Job.id
    · obtain ⟨s, hs, hsame⟩ := List.mem_map.mp hid
      have hfree := (KeyedTable.mem_selectOrdered hs).2
      rw [Bool.and_eq_true, hsame] at hfree
      rw [hfree.2, Bool.and_true]
    · rw [decide_eq_false hid, Bool.and_false, Bool.and_false]
  rw [selectExpired, KeyedTable.selectOrdered, KeyedTable.selectOrdered,
    KeyedTable.select, KeyedTable.select, List.filter_congr hp]
  rfl

/-! ## Steps of the service -/

/-- What a session knows about the versions it has written: whatever the rest
of the table has become, the operation would write them again. -/
structure Writes (settings : Settings) (t : Jobs) (op : Op)
    (written : List Job) (outcome : Outcome) : Prop where
  ids : writtenIds settings op outcome = written.map Job.id
  nodup : (written.map Job.id).Nodup
  rows : ∀ s ∈ written, (t.find? s.id).isSome = true
  again : ∀ t', KeyedTable.MovesAround (written.map Job.id) t t' →
    ∃ locked, (service settings).step t' (op.relocked locked) =
      (t'.overwrite written, outcome)

section Steps

variable {settings : Settings} {t : Jobs} {op : Op}

theorem Writes.moved {t' : Jobs} {written : List Job} {outcome : Outcome}
    (h : Writes settings t op written outcome)
    (hmoves : KeyedTable.MovesAround (written.map Job.id) t t') :
    Writes settings t' op written outcome := by
  refine ⟨h.ids, h.nodup, fun s hs => ?_, fun t'' hmoves' => ?_⟩
  · rw [hmoves.same s.id (List.mem_map_of_mem hs)]
    exact h.rows s hs
  · exact h.again t'' (hmoves.trans hmoves')

theorem find?_step_of_notWritten {id : UUID} (h : id ∉ writtenIds settings op
      ((service settings).step t op).2) :
    ((service settings).step t op).1.find? id = t.find? id :=
  find?_step_eq fun c hc =>
    h (List.mem_map.mpr ⟨(id, c), mem_changesFor.mp hc, rfl⟩)

theorem isSome_of_written {id : UUID} (h : id ∈ writtenIds settings op
      ((service settings).step t op).2) :
    (((service settings).step t op).1.find? id).isSome = true := by
  obtain ⟨⟨k, c⟩, hmem, rfl⟩ := List.mem_map.mp h
  obtain ⟨s, hs⟩ := RowPath.exists_some_of_mem
    (service_step_path settings t op k) (mem_changesFor.mpr hmem)
  rw [hs]
  rfl

theorem step_of_execute {t' : Jobs} {reply : Reply}
    (h : op.execute settings t = .ok (t', reply)) :
    (service settings).step t op = (t', .ok reply) := by
  simp only [service, h, settle]

theorem step_of_error {e : ServiceError}
    (h : op.execute settings t = .error e) :
    (service settings).step t op = (t, .error e) := by
  simp only [service, h, settle]

theorem relocked_of_aim {k : UUID} (h : op.aim = some k)
    (locked : List UUID) : op.relocked locked = op := by
  cases op <;> first | rfl | cases h

theorem Op.isUpdate_cases (h : op.isUpdate = true) :
    (∃ k, op.aim = some k) ∨
      ∃ now limit locked, op = .activateDueScheduledJobs now limit locked := by
  cases op <;>
    first
    | exact Or.inl ⟨_, rfl⟩
    | exact Or.inr ⟨_, _, _, rfl⟩
    | cases h

theorem isSome_of_overwrite {versions : List Job} {id : UUID}
    (h : ((t.overwrite versions).find? id).isSome = true) :
    (t.find? id).isSome = true := by
  rw [KeyedTable.find?_overwrite, Option.isSome_map] at h
  exact h

theorem aimed_writes {k : UUID} (haim : op.aim = some k) :
    (((service settings).step t op).1 = t ∧
      writtenIds settings op ((service settings).step t op).2 = []) ∨
    ∃ written, ((service settings).step t op).1 = t.overwrite written ∧
      Writes settings t op written ((service settings).step t op).2 := by
  cases hexec : op.execute settings t with
  | error e =>
      rw [step_of_error hexec]
      exact Or.inl ⟨rfl, by rw [writtenIds, changesOf_error]; rfl⟩
  | ok result =>
      obtain ⟨t₁, reply⟩ := result
      have hsome := fun id => @isSome_of_written settings t op id
      rw [step_of_execute hexec] at hsome ⊢
      rcases execute_local haim hexec with
        ⟨hnone, rfl⟩ | ⟨hids, row, rfl, rfl, hagain⟩
      · exact Or.inl ⟨rfl, hnone⟩
      · refine Or.inr ⟨[row], rfl, hids, by simp, ?_, fun t' hmoves => ?_⟩
        · intro s hs
          obtain rfl := List.mem_singleton.mp hs
          exact isSome_of_overwrite (hsome s.id (by simp [hids]))
        · refine ⟨[], ?_⟩
          rw [relocked_of_aim haim]
          exact step_of_execute (hagain t' (hmoves.same row.id (by simp)))

theorem activation_writes {now : Time} {limit : ℕ} {locked : List UUID}
    (hop : op = .activateDueScheduledJobs now limit locked) :
    (((service settings).step t op).1 = t ∧
      writtenIds settings op ((service settings).step t op).2 = []) ∨
    ∃ written, ((service settings).step t op).1 = t.overwrite written ∧
      Writes settings t op written ((service settings).step t op).2 := by
  subst hop
  cases hexec : Op.execute settings t
      (.activateDueScheduledJobs now limit locked) with
  | error e =>
      rw [step_of_error hexec]
      exact Or.inl ⟨rfl, by rw [writtenIds, changesOf_error]; rfl⟩
  | ok result =>
      obtain ⟨t₁, reply⟩ := result
      have hsome := fun id => @isSome_of_written settings t
        (.activateDueScheduledJobs now limit locked) id
      rw [step_of_execute hexec] at hsome ⊢
      obtain ⟨rows, hrows, rfl⟩ := answer_eq_ok hexec
      have hids : writtenIds settings
          (.activateDueScheduledJobs now limit locked)
          (.ok (.activated rows)) = rows.map Job.id := by
        simp [writtenIds, changesOf]
      have hwrites : t₁ = t.overwrite rows := executeUpdate_overwrite hrows
      subst hwrites
      refine Or.inr ⟨rows, rfl, hids, ?_, fun s hs => ?_, fun t' hmoves => ?_⟩
      · rw [(executeUpdate_eq_ok hrows).2, KeyedTable.returning,
          List.map_map]
        exact t.nodup_select _
      · refine isSome_of_overwrite (hsome s.id ?_)
        rw [hids]
        exact List.mem_map_of_mem hs
      · obtain ⟨locked', hagain⟩ := activate_local hrows hmoves
        refine ⟨locked', step_of_execute ?_⟩
        rw [Op.relocked, Op.execute, hagain]
        rfl

/-- An update that has been executed writes nothing, or versions that it can
write again. -/
theorem update_writes (hop : op.isUpdate = true) :
    (((service settings).step t op).1 = t ∧
      writtenIds settings op ((service settings).step t op).2 = []) ∨
    ∃ written, ((service settings).step t op).1 = t.overwrite written ∧
      Writes settings t op written ((service settings).step t op).2 := by
  rcases Op.isUpdate_cases hop with ⟨k, haim⟩ | ⟨now, limit, locked, heq⟩
  · exact aimed_writes haim
  · exact activation_writes heq

/-- A cancellation or retry that matches nothing, and reads the job at once, is
the operation as one step.  It writes nothing. -/
theorem step_of_unmatched (h : op.isUnmatched t = true) :
    ∃ outcome, (service settings).step t op = (t, outcome) ∧
      op.explanation t = some outcome ∧
      writtenIds settings op outcome = [] := by
  cases op with
  | cancelJob jobId =>
      simp only [Op.isUnmatched] at h
      split at h
      · next t₁ hcancel =>
          obtain ⟨-, rfl, -⟩ | ⟨r, -, hsome, -⟩ := cancelRow_cases hcancel
          · have hjob : ∀ t, cancelRow t jobId = .ok (t, none) →
                cancelJob t jobId =
                  (cancelUnmatched jobId (getJob t jobId)).map
                    fun existing => (t, ⟨existing, false⟩) := by
              intro t hcancel
              rw [cancelJob, hcancel]
              rfl
            refine ⟨_, ?_, rfl, ?_⟩
            · simp only [service, Op.execute, hjob _ hcancel]
              cases cancelUnmatched jobId (getJob _ jobId) <;> rfl
            · cases cancelUnmatched jobId (getJob _ jobId) <;> rfl
          · cases hsome
      · cases h
  | retryJob jobId =>
      simp only [Op.isUnmatched] at h
      split at h
      · next t₁ hretry =>
          obtain ⟨-, rfl, -⟩ | ⟨r, -, hsome, -⟩ := retryRow_cases hretry
          · refine ⟨_, ?_, rfl, rfl⟩
            simp only [service, Op.execute, retryJob, hretry]
            rfl
          · cases hsome
      · cases h
  | _ => cases h

theorem Op.isUnmatched_relocked (locked : List UUID) :
    (op.relocked locked).isUnmatched t = op.isUnmatched t := by
  cases op <;> rfl

end Steps

/-! ## Submissions -/

theorem releaseExpiredKey_extends {t t' : Jobs} {key : String} {now : Time}
    {rows : List UUID} (h : releaseExpiredKey t key now = .ok (t', rows)) :
    KeyedTable.Extends t t' := by
  obtain ⟨x, hupdate, hret⟩ := bind_eq_ok.mp h
  cases hret
  obtain ⟨htable, -⟩ := executeUpdate_eq_ok hupdate
  rw [htable]
  exact KeyedTable.extends_of_keys (KeyedTable.keys_updateWhere _ _ _)

theorem releaseBeforeInsert_extends {t t' : Jobs} {key : Option String}
    {now : Time} {rows : List UUID}
    (h : releaseBeforeInsert t key now = .ok (t', rows)) :
    KeyedTable.Extends t t' := by
  unfold releaseBeforeInsert at h
  split at h
  · exact releaseExpiredKey_extends h
  · cases h
    exact KeyedTable.Extends.refl t

theorem insertJob_extends {t t' : Jobs} {clock : SubmitClock} {id : UUID}
    {request : JobCreateRequest} {key : Option String} {s : Submitted}
    (h : insertJob t clock id request key = .ok (t', s)) :
    KeyedTable.Extends t t' := by
  obtain ⟨t₁, released, row, hrelease, -, hcases⟩ := insertJob_eq_ok h
  rcases hcases with ⟨-, hinsert⟩ | ⟨winner, -, rfl, -⟩
  · obtain ⟨-, -, hfresh, rfl⟩ := executeInsert_eq_ok hinsert
    exact (releaseBeforeInsert_extends hrelease).trans
      (KeyedTable.extends_insert _ _ hfresh)
  · exact KeyedTable.Extends.refl _

theorem submits_extends {settings : Settings} {t : Jobs} {op : Op}
    (hop : op.submits = true) :
    KeyedTable.Extends t ((service settings).step t op).1 := by
  cases hexec : op.execute settings t with
  | error e =>
      rw [step_of_error hexec]
      exact KeyedTable.Extends.refl t
  | ok result =>
      obtain ⟨t₁, reply⟩ := result
      rw [step_of_execute hexec]
      cases op with
      | createJob clock id request key =>
          obtain ⟨s, hcreate, -⟩ := answer_eq_ok hexec
          unfold createJob at hcreate
          split at hcreate
          · split at hcreate
            · cases hcreate
              exact KeyedTable.Extends.refl t
            · exact insertJob_extends hcreate
          · exact insertJob_extends hcreate
      | insertJob clock id request key =>
          obtain ⟨s, hinsert, -⟩ := answer_eq_ok hexec
          exact insertJob_extends hinsert
      | releaseExpiredKey key now =>
          obtain ⟨rows, hrelease, -⟩ := answer_eq_ok hexec
          exact releaseExpiredKey_extends hrelease
      | _ => cases hop

end JobQueue
