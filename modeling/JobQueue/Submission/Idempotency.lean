import JobQueue.Lifecycle.Accounting
import JobQueue.Submission.Transactions

/-!
# Idempotent submission

Any number of calls of `create_job` share one key.  The holder of the key is
unique at all times and keeps the key until its expiry; a race that starts
while no live job holds the key has exactly one winner, and every other call
returns the winner's job, unless a call gets to building its job from a body
whose `scheduled_at` has no date in UTC.  Such a call raises.
-/

namespace JobQueue

open Support

abbrev SubmitHistory := List ((ℕ × SubmitAction) × Option Job)

/-- The system after a run of submissions over the table `t`. -/
def submissionsAfter (settings : Settings) (key : String) (t : Jobs)
    (now : Time) (actions : List (ℕ × SubmitAction)) :
    Configuration Database Submission :=
  (submissions settings key).machine.run (quiescent t now) actions

def submitHistory (settings : Settings) (key : String) (t : Jobs)
    (now : Time) (actions : List (ℕ × SubmitAction)) : SubmitHistory :=
  (submissions settings key).machine.trace (quiescent t now) actions

/-- The rows committed along a history, each with the call it belongs to. -/
def commits (h : SubmitHistory) : List (ℕ × Job) :=
  h.filterMap fun x => x.2.map (x.1.1, ·)

theorem commits_concat (h : SubmitHistory) (pid : ℕ) (a : SubmitAction)
    (o : Option Job) :
    commits (h ++ [((pid, a), o)]) =
      commits h ++ (o.map (pid, ·)).toList := by
  cases o <;> simp [commits, List.filterMap_append]

def AtMostOneHolder (key : String) (t : Jobs) : Prop :=
  (keyHolders t (some key)).length ≤ 1

instance (key : String) (t : Jobs) : Decidable (AtMostOneHolder key t) :=
  inferInstanceAs (Decidable (_ ≤ _))

theorem mem_keyHolders {key : String} {t : Jobs} {r : Job} :
    r ∈ keyHolders t (some key) ↔
      r ∈ t.rows ∧ r.idempotencyKey = some key := by
  simp [keyHolders, KeyedTable.mem_select]

theorem held_of_mem_keyHolders {key : String} {t : Jobs} {r : Job}
    (h : r ∈ keyHolders t (some key)) :
    held key t r.id = some r.idempotencyExpiresAt := by
  obtain ⟨hmem, hkey⟩ := mem_keyHolders.mp h
  rw [held_of_mem hmem]
  exact heldUntil_eq_some_iff.mpr ⟨hkey, rfl⟩

theorem exists_mem_keyHolders {key : String} {t : Jobs} {id : UUID}
    {x : Option Time} (h : held key t id = some x) :
    ∃ r ∈ keyHolders t (some key), r.id = id := by
  obtain ⟨r, hr, hheld⟩ := held_eq_some_iff.mp h
  obtain ⟨hmem, hid⟩ := KeyedTable.find?_eq_some_iff.mp hr
  exact ⟨r, mem_keyHolders.mpr ⟨hmem, (heldUntil_eq_some_iff.mp hheld).1⟩, hid⟩

theorem nodup_keyHolders (key : String) (t : Jobs) :
    ((keyHolders t (some key)).map Job.id).Nodup :=
  t.nodup.sublist (List.filter_sublist.map Job.id)

theorem atMostOneHolder_iff {key : String} {t : Jobs} :
    AtMostOneHolder key t ↔
      ∀ {i j x y}, held key t i = some x → held key t j = some y → i = j := by
  constructor
  · intro h i j x y hi hj
    obtain ⟨r, hr, rfl⟩ := exists_mem_keyHolders hi
    obtain ⟨s, hs, rfl⟩ := exists_mem_keyHolders hj
    obtain ⟨u, hu⟩ := List.length_eq_one_iff.mp
      (le_antisymm h (List.length_pos_of_mem hr))
    rw [hu, List.mem_singleton] at hr hs
    rw [hr, hs]
  · intro h
    have hnodup := nodup_keyHolders key t
    unfold AtMostOneHolder
    rcases hrows : keyHolders t (some key) with _ | ⟨r, _ | ⟨s, rest⟩⟩
    · simp
    · simp
    · rw [hrows] at hnodup
      have hr : r ∈ keyHolders t (some key) := by simp [hrows]
      have hs : s ∈ keyHolders t (some key) := by simp [hrows]
      have heq := h (held_of_mem_keyHolders hr) (held_of_mem_keyHolders hs)
      simp [heq] at hnodup

section

variable {settings : Settings} {key : String}

/-- What the calls rely on at all times. -/
def Submission.Sound (key : String) (d : Database) (pid : ℕ)
    (p : Submission) : Prop :=
  p.Opens key d pid ∧ p.ReadBefore d.clock

theorem SubmitStep.sound {pid : ℕ} {d d' : Database} {p p' : Submission}
    {a : SubmitAction} {o : Option Job}
    (hs : SubmitStep settings key pid d p a d' p' o)
    (h : p.Sound key d pid) : p'.Sound key d' pid :=
  ⟨hs.opens h.1, hs.readBefore h.2⟩

theorem SubmitStep.sound_other {pid q : ℕ} {d d' : Database}
    {p p' p₂ : Submission} {a : SubmitAction} {o : Option Job}
    (hs : SubmitStep settings key pid d p a d' p' o) (hq : q ≠ pid)
    (h : p₂.Sound key d q) : p₂.Sound key d' q :=
  ⟨h.1.of_entries (hs.entries hq), h.2.mono hs.clock_le⟩

/-- Rule for runs of submissions: a property that the steps keep, over
consistent transactions, holds after every run. -/
theorem submissions_invariant (settings : Settings)
    {c : Configuration Database Submission}
    (hc : Consistent key c.shared)
    (hsound : ∀ pid, (c.process pid).Sound key c.shared pid)
    {G : SubmitHistory → Database → Prop}
    {L : SubmitHistory → Database → ℕ → Submission → Prop}
    (hG : G [] c.shared) (hL : ∀ pid, L [] c.shared pid (c.process pid))
    (hstep : ∀ {h d pid p a d' p' o}, Consistent key d →
      p.Sound key d pid → SubmitStep settings key pid d p a d' p' o →
      G h d → L h d pid p →
      G (h ++ [((pid, a), o)]) d' ∧ L (h ++ [((pid, a), o)]) d' pid p')
    (hother : ∀ {h d pid p a d' p' o q p₂}, Consistent key d →
      p.Sound key d pid → SubmitStep settings key pid d p a d' p' o →
      G h d → L h d pid p → q ≠ pid → L h d q p₂ →
      L (h ++ [((pid, a), o)]) d' q p₂)
    (actions : List (ℕ × SubmitAction)) :
    (Consistent key ((submissions settings key).machine.run c actions).shared ∧
      G ((submissions settings key).machine.trace c actions)
        ((submissions settings key).machine.run c actions).shared) ∧
    ∀ pid,
      (((submissions settings key).machine.run c actions).process pid).Sound
        key ((submissions settings key).machine.run c actions).shared pid ∧
      L ((submissions settings key).machine.trace c actions)
        ((submissions settings key).machine.run c actions).shared pid
        (((submissions settings key).machine.run c actions).process pid) := by
  refine (submissions settings key).run_invariant
    (G := fun h d => Consistent key d ∧ G h d)
    (L := fun h d pid p => p.Sound key d pid ∧ L h d pid p)
    ⟨hc, hG⟩ (fun pid => ⟨hsound pid, hL pid⟩) ?_ ?_ actions
  · rintro h d pid p a ⟨hcons, hg⟩ ⟨hs, hl⟩
    have hst := submission_step settings key pid d p a
    obtain ⟨hg', hl'⟩ := hstep hcons hs hst hg hl
    exact ⟨⟨hst.consistent hcons hs.1 hs.2, hg'⟩, hst.sound hs, hl'⟩
  · rintro h d pid p a q p₂ ⟨hcons, hg⟩ ⟨hs, hl⟩ hq ⟨hs₂, hl₂⟩
    have hst := submission_step settings key pid d p a
    exact ⟨hst.sound_other hq hs₂, hother hcons hs hst hg hl hq hl₂⟩

theorem quiescent_consistent {t : Jobs} {now : Time}
    (h : AtMostOneHolder key t) :
    Consistent key (quiescent t now).shared where
  unique := atMostOneHolder_iff.mp h
  expired hq := nomatch hq
  exclusive hq := nomatch hq
  single hq := nomatch hq
  covered hq := nomatch hq

theorem quiescent_sound (t : Jobs) (now : Time) (pid : ℕ) :
    ((quiescent t now).process pid).Sound key (quiescent t now).shared pid :=
  ⟨⟨fun _ h => (nomatch h), fun _ h => (nomatch h)⟩, trivial⟩

/-- After every run the transactions are consistent and every call knows the
state of its own. -/
theorem submissionsAfter_sound (settings : Settings) {t : Jobs} {now : Time}
    (h : AtMostOneHolder key t) (actions : List (ℕ × SubmitAction)) :
    Consistent key (submissionsAfter settings key t now actions).shared ∧
      ∀ pid, ((submissionsAfter settings key t now actions).process pid).Sound
        key (submissionsAfter settings key t now actions).shared pid := by
  obtain ⟨⟨hc, -⟩, hl⟩ := submissions_invariant settings
    (G := fun _ _ => True) (L := fun _ _ _ _ => True)
    (quiescent_consistent h) (quiescent_sound t now) trivial
    (fun _ => trivial) (fun _ _ _ _ _ => ⟨trivial, trivial⟩)
    (fun _ _ _ _ _ _ _ => trivial) actions
  exact ⟨hc, fun pid => (hl pid).1⟩

/-- A holder keeps the key, and nothing is committed under it, until its
expiry. -/
theorem holder_kept {c : Configuration Database Submission}
    (hc : Consistent key c.shared)
    (hsound : ∀ pid, (c.process pid).Sound key c.shared pid)
    {id : UUID} {E : Time} (hheld : held key c.shared.jobs id = some (some E))
    (later : List (ℕ × SubmitAction))
    (hclock :
      ((submissions settings key).machine.run c later).shared.clock < E) :
    held key ((submissions settings key).machine.run c later).shared.jobs id =
        some (some E) ∧
      commits ((submissions settings key).machine.trace c later) = [] := by
  refine (submissions_invariant settings
    (G := fun h d => d.clock < E →
      held key d.jobs id = some (some E) ∧ commits h = [])
    (L := fun _ _ _ _ => True) hc hsound (fun _ => ⟨hheld, rfl⟩)
    (fun _ => trivial) ?_ (fun _ _ _ _ _ _ _ => trivial) later).1.2 hclock
  intro h d pid p a d' p' o hcons hs hst hg _
  refine ⟨fun hlt => ?_, trivial⟩
  have hbefore : d.clock < E := hst.clock_le.trans_lt hlt
  obtain ⟨hid, hnone⟩ := hg hbefore
  rcases hst.held_cases hcons hs.1 with
    ⟨rfl, hsame⟩ | ⟨row, -, -, -, -, hexpired, -⟩
  · exact ⟨by rw [hsame, hid], by simp [commits_concat, hnone]⟩
  · obtain ⟨E', heq, hle⟩ := hexpired hid
    cases heq
    exact absurd hbefore (not_lt.mpr hle)

end

/-! ## Identifiers -/

def Op.drawnIds : Op → List UUID
  | .createJob _ id _ _ => [id]
  | .insertJob _ id _ _ => [id]
  | _ => []

def SubmitAction.drawnIds : SubmitAction → List UUID
  | .build id _ => [id]
  | .other op => op.drawnIds
  | _ => []

def drawn (actions : List (ℕ × SubmitAction)) : List (ℕ × UUID) :=
  actions.flatMap fun x => x.2.drawnIds.map (x.1, ·)

/-- The ids of the table followed by the ids drawn since. -/
def knownIds (t : Jobs) (actions : List (ℕ × SubmitAction)) : List UUID :=
  t.rows.map Job.id ++ (drawn actions).map Prod.snd

theorem drawn_concat (actions : List (ℕ × SubmitAction)) (pid : ℕ)
    (a : SubmitAction) :
    drawn (actions ++ [(pid, a)]) =
      drawn actions ++ a.drawnIds.map (pid, ·) := by
  simp [drawn]

theorem knownIds_concat (t : Jobs) (actions : List (ℕ × SubmitAction))
    (pid : ℕ) (a : SubmitAction) :
    knownIds t (actions ++ [(pid, a)]) =
      knownIds t actions ++ a.drawnIds := by
  simp [knownIds, drawn_concat, Function.comp_def]

theorem insertJob_id {t t' : Jobs} {clock : SubmitClock} {id : UUID}
    {request : JobCreateRequest} {key : Option String} {s : Submitted}
    (h : insertJob t clock id request key = .ok (t', s))
    (hcreated : s.created = true) : s.job.id = id := by
  obtain ⟨t₁, released, row, -, hbuild, hcases⟩ := insertJob_eq_ok h
  rcases hcases with ⟨rfl, -⟩ | ⟨winner, rfl, -, -⟩
  · rw [buildJob_eq_ok hbuild]
    rfl
  · cases hcreated

/-- A submission that creates a job creates it under the id it drew. -/
theorem created_id_mem_drawnIds {settings : Settings} {t t' : Jobs} {op : Op}
    {s : Submitted} (h : op.execute settings t = .ok (t', .submitted s))
    (hcreated : s.created = true) : s.job.id ∈ op.drawnIds := by
  have hinsert : ∀ clock id request key s',
      insertJob t clock id request key = .ok (t', s') →
      Reply.submitted s = .submitted s' → s.job.id ∈ [id] := by
    intro clock id request key s' hs heq
    cases heq
    exact List.mem_singleton.mpr (insertJob_id hs hcreated)
  cases op with
  | createJob clock id request key =>
      obtain ⟨s', hs, heq⟩ := answer_eq_ok h
      rcases createJob_cases hs with ⟨hno, -⟩ | hs
      · cases heq
        rw [hcreated] at hno
        cases hno
      · exact hinsert _ _ _ _ _ hs heq
  | insertJob clock id request key =>
      obtain ⟨s', hs, heq⟩ := answer_eq_ok h
      exact hinsert _ _ _ _ _ hs heq
  | _ =>
      obtain ⟨s', -, heq⟩ := answer_eq_ok h
      cases heq

theorem RowPath.created_of_none {s? : Option Job} {c : Change}
    {cs : List Change} (h : RowPath none (c :: cs) s?) :
    ∃ row, c = .created row := by
  obtain ⟨b, hstep, -⟩ := Trail.cons_inv h
  cases hstep with
  | create _ => exact ⟨_, rfl⟩

theorem find?_step_of_none {settings : Settings} {t : Jobs} {op : Op}
    {id : UUID} (hnone : t.find? id = none) (hid : id ∉ op.drawnIds) :
    ((service settings).step t op).1.find? id = none := by
  have hpath := service_step_path settings t op id
  rw [hnone] at hpath
  rcases hchanges : changesFor id
      (changesOf settings (op, ((service settings).step t op).2)) with
    _ | ⟨c, cs⟩
  · rw [hchanges] at hpath
    exact (Trail.eq_of_nil hpath).symm
  · have hmem : c ∈ changesFor id
        (changesOf settings (op, ((service settings).step t op).2)) := by
      simp [hchanges]
    rw [hchanges] at hpath
    obtain ⟨row, rfl⟩ := RowPath.created_of_none hpath
    obtain ⟨op', s, hcall, hcreated, -, hjob⟩ :=
      (makes_of_mem (mem_changesFor.mp hmem)).created_inv
    obtain ⟨rfl, hreply⟩ := Prod.mk.inj hcall
    have hdrawn := created_id_mem_drawnIds (execute_of_step_ok hreply) hcreated
    rw [hjob] at hdrawn
    exact absurd hdrawn hid

/-! ## The race -/

section

variable {settings : Settings} {key : String} {t : Jobs} {begun : Time}
  {h : SubmitHistory} {d d' : Database} {pid : ℕ} {p p' : Submission}
  {a : SubmitAction} {o : Option Job}

/-- What the calls of a race may count on: `uuid4` does not repeat itself,
and no committed row has expired yet. -/
structure Undisturbed (t : Jobs) (h : SubmitHistory) (d : Database) :
    Prop where
  distinct : (knownIds t (h.map Prod.fst)).Nodup
  inTime : ∀ {q row E}, (q, row) ∈ commits h →
    row.idempotencyExpiresAt = some E → d.clock < E

/-- Before the first commit every holder had expired when the race began; the
first committed row is the only holder ever after. -/
structure Race (key : String) (t : Jobs) (begun : Time) (h : SubmitHistory)
    (d : Database) : Prop where
  known : ∀ {id r}, d.jobs.find? id = some r →
    id ∈ knownIds t (h.map Prod.fst)
  holders : (commits h = [] ∧ ∀ {id x}, held key d.jobs id = some x →
      ∃ E, x = some E ∧ E ≤ begun) ∨
    ∃ q row E, commits h = [(q, row)] ∧ row.idempotencyExpiresAt = some E ∧
      ∀ id, held key d.jobs id = if id = row.id then some (some E) else none

/-- The call has detached every holder, unless it has lost the race. -/
def Detached (key : String) (h : SubmitHistory) (d : Database)
    (pid : ℕ) : Prop :=
  commits h = [] → ∀ {id x}, held key d.jobs id = some x →
    (pid, id) ∈ d.released

/-- A row that a call has built and not yet committed. -/
structure NewRow (h : SubmitHistory) (d : Database) (pid : ℕ) (row : Job) :
    Prop where
  fresh : d.jobs.find? row.id = none
  drawn : (pid, row.id) ∈ drawn (h.map Prod.fst)
  checked : row.violatedCheck = none
  expires : ∃ E, row.idempotencyExpiresAt = some E

/-- What the state of a call says about the race.  A call raises only over the
time its body asks for. -/
def Submission.Progress (key : String) (begun : Time) (h : SubmitHistory)
    (d : Database) (pid : ℕ) : Submission → Prop
  | .lookingUp _ now => begun ≤ now
  | .releasing _ now => begun ≤ now
  | .released _ => Detached key h d pid
  | .flushing row => Detached key h d pid ∧ NewRow h d pid row
  | .inserted row => NewRow h d pid row
  | .conflicted _ => commits h ≠ []
  | .reloading _ _ => commits h ≠ []
  | .returned job false => ∃ x ∈ commits h, job.id = x.2.id
  | .raised e => e = dateOutOfRange
  | _ => True

theorem Undisturbed.of_concat
    (hu : Undisturbed t (h ++ [((pid, a), o)]) d') (hle : d.clock ≤ d'.clock) :
    Undisturbed t h d where
  distinct := by
    have hdistinct := hu.distinct
    rw [List.map_append, List.map_singleton, knownIds_concat] at hdistinct
    exact hdistinct.of_append_left
  inTime hq hE := by
    have hmem := List.mem_append_left (o.map (pid, ·)).toList hq
    rw [← commits_concat h pid a o] at hmem
    exact hle.trans_lt (hu.inTime hmem hE)

theorem Undisturbed.drawn_fresh
    (hu : Undisturbed t (h ++ [((pid, a), o)]) d') {id : UUID}
    (hid : id ∈ a.drawnIds) : id ∉ knownIds t (h.map Prod.fst) := by
  have hdistinct := hu.distinct
  rw [List.map_append, List.map_singleton, knownIds_concat] at hdistinct
  exact fun hknown => List.disjoint_of_nodup_append hdistinct hknown hid

theorem Undisturbed.owner (hu : Undisturbed t h d) {q q' : ℕ} {id : UUID}
    (hq : (q, id) ∈ drawn (h.map Prod.fst))
    (hq' : (q', id) ∈ drawn (h.map Prod.fst)) : q = q' := by
  have hnodup : ((drawn (h.map Prod.fst)).map Prod.snd).Nodup :=
    hu.distinct.of_append_right
  have heq := List.inj_on_of_nodup_map hnodup hq hq' rfl
  exact (Prod.mk.inj heq).1

theorem NewRow.known {row : Job} (hrow : NewRow h d pid row) :
    row.id ∈ knownIds t (h.map Prod.fst) :=
  List.mem_append_right _ (List.mem_map.mpr ⟨_, hrow.drawn, rfl⟩)

theorem find?_view (d : Database) (pid : ℕ) {id : UUID} :
    (d.view pid).find? id = none ↔ d.jobs.find? id = none := by
  rw [Database.view, KeyedTable.find?_updateWhere, Option.map_eq_none_iff]

/-- The insert of a new row fails only on a holder of the key. -/
theorem executeInsert_new {u : Jobs} {row : Job} {e : ServiceError}
    (hchecked : row.violatedCheck = none) (hfresh : u.find? row.id = none)
    (h : executeInsert u row = .error e) :
    isIdempotencyConflict e = true ∧
      keyHolders u row.idempotencyKey ≠ [] := by
  unfold executeInsert at h
  rw [hchecked] at h
  simp only [hfresh, dif_pos] at h
  split at h
  · cases h
  · next hne =>
      cases h
      exact ⟨by simp [isIdempotencyConflict], by simpa using hne⟩

/-- Holders the transaction has detached do not stand in its way. -/
theorem keyHolders_view_eq_nil
    (hall : ∀ {id x}, held key d.jobs id = some x → (pid, id) ∈ d.released) :
    keyHolders (d.view pid) (some key) = [] := by
  apply keyHolders_eq_nil_iff.mpr
  intro id
  rw [held_view]
  split
  · rfl
  · next hnot =>
      by_contra hne
      obtain ⟨x, hx⟩ := Option.ne_none_iff_exists'.mp hne
      exact hnot (hall hx)

theorem SubmitStep.find?_of_none
    (hs : SubmitStep settings key pid d p a d' p' o) {id : UUID}
    (hnone : d.jobs.find? id = none) (hdrawn : id ∉ a.drawnIds)
    (hcommit : ∀ row, p = .inserted row → id ≠ row.id) :
    d'.jobs.find? id = none := by
  cases hs with
  | other p op hop => exact find?_step_of_none hnone hdrawn
  | commit row jobs hinsert =>
      obtain ⟨-, -, hfresh, rfl⟩ := executeInsert_eq_ok hinsert
      rw [KeyedTable.find?_insert, if_neg (hcommit row rfl)]
      exact (find?_view d pid).mpr hnone
  | _ => exact hnone

theorem NewRow.concat {q : ℕ} {row : Job} (hrow : NewRow h d q row)
    (hfresh : d'.jobs.find? row.id = none) :
    NewRow (h ++ [((pid, a), o)]) d' q row where
  fresh := hfresh
  drawn := by
    rw [List.map_append, List.map_singleton, drawn_concat]
    exact List.mem_append_left _ hrow.drawn
  checked := hrow.checked
  expires := hrow.expires

theorem NewRow.step_other {q : ℕ} {row : Job} (hrow : NewRow h d q row)
    (hs : SubmitStep settings key pid d p a d' p' o)
    (hp : p.Progress key begun h d pid)
    (hu : Undisturbed t (h ++ [((pid, a), o)]) d') (hq : q ≠ pid) :
    NewRow (h ++ [((pid, a), o)]) d' q row := by
  apply hrow.concat
  apply hs.find?_of_none hrow.fresh
  · exact fun hdrawn => hu.drawn_fresh hdrawn hrow.known
  · rintro row' rfl hid
    have hmine := hrow.drawn
    rw [hid] at hmine
    exact hq ((hu.of_concat hs.clock_le).owner hmine hp.drawn)

/-- A call's view of the race survives when commits are not forgotten. -/
theorem Submission.Progress.mono {h' : SubmitHistory}
    (hp : p.Progress key begun h d pid) (hcommits : commits h <+: commits h')
    (hdetached : Detached key h d pid → Detached key h' d' pid)
    (hnew : ∀ row, NewRow h d pid row → NewRow h' d' pid row) :
    p.Progress key begun h' d' pid := by
  have hne : commits h ≠ [] → commits h' ≠ [] := by
    intro hne hnil
    rw [hnil] at hcommits
    exact hne (List.prefix_nil.mp hcommits)
  cases p with
  | released request => exact hdetached hp
  | flushing row => exact ⟨hdetached hp.1, hnew row hp.2⟩
  | inserted row => exact hnew row hp
  | conflicted e => exact hne hp
  | reloading e now => exact hne hp
  | returned job created =>
      cases created with
      | false =>
          obtain ⟨x, hx, hid⟩ := hp
          exact ⟨x, hcommits.subset hx, hid⟩
      | true => trivial
  | _ => exact hp

theorem commits_grow (h : SubmitHistory) (pid : ℕ) (a : SubmitAction)
    (o : Option Job) : commits h <+: commits (h ++ [((pid, a), o)]) := by
  rw [commits_concat]
  exact List.prefix_append _ _

theorem Detached.step {q : ℕ} (hdetached : Detached key h d q)
    (hs : SubmitStep settings key pid d p a d' p' o)
    (hc : Consistent key d) (hp : p.Sound key d pid)
    (hreleased : ∀ id, (q, id) ∈ d.released → (q, id) ∈ d'.released) :
    Detached key (h ++ [((pid, a), o)]) d' q := by
  intro hnil id x hx
  rw [commits_concat, List.append_eq_nil_iff] at hnil
  rcases hs.held_cases hc hp.1 with ⟨-, hsame⟩ | ⟨row, rfl, -⟩
  · rw [hsame] at hx
    exact hreleased id (hdetached hnil.1 hx)
  · simp at hnil

/-- The other calls see the race go on. -/
theorem SubmitStep.progress_other {q : ℕ} {p₂ : Submission}
    (hs : SubmitStep settings key pid d p a d' p' o)
    (hc : Consistent key d) (hsound : p.Sound key d pid)
    (hp : p.Progress key begun h d pid)
    (hu : Undisturbed t (h ++ [((pid, a), o)]) d') (hq : q ≠ pid)
    (hp₂ : p₂.Progress key begun h d q) :
    p₂.Progress key begun (h ++ [((pid, a), o)]) d' q := by
  apply hp₂.mono (commits_grow h pid a o)
  · intro hdetached
    exact hdetached.step hs hc hsound fun id => ((hs.entries hq).2 id).mpr
  · exact fun row hrow => hrow.step_other hs hp hu hq

/-- A live holder is the winner of the race. -/
theorem Race.winner (hr : Race key t begun h d) {job : Job} {now : Time}
    (hfound : findActiveByKey d.jobs key now = some job)
    (hlate : commits h = [] → begun ≤ now) :
    ∃ x ∈ commits h, job.id = x.2.id := by
  obtain ⟨hheld, hactive⟩ := findActiveByKey_eq_some hfound
  rcases hr.holders with ⟨hnil, hexpired⟩ | ⟨q, row, E, hone, -, hheld'⟩
  · obtain ⟨E, hE, hle⟩ := hexpired hheld
    exact absurd (hactive E hE) (not_lt.mpr (hle.trans (hlate hnil)))
  · refine ⟨(q, row), by simp [hone], ?_⟩
    rw [hheld'] at hheld
    by_contra hne
    rw [if_neg hne] at hheld
    cases hheld

/-- Until its expiry the winner is found. -/
theorem Race.found (hr : Race key t begun h d) (hu : Undisturbed t h d)
    (hne : commits h ≠ []) {now : Time} (hnow : now ≤ d.clock) :
    findActiveByKey d.jobs key now ≠ none := by
  intro hnone
  rcases hr.holders with ⟨hnil, -⟩ | ⟨q, row, E, hone, hE, hheld⟩
  · exact hne hnil
  · have hrow := hheld row.id
    rw [if_pos rfl] at hrow
    obtain ⟨E', heq, hle⟩ := findActiveByKey_eq_none hnone hrow
    cases heq
    have hmem : (q, row) ∈ commits h := by simp [hone]
    exact absurd (hu.inTime hmem hE) (not_lt.mpr (hle.trans hnow))

theorem NewRow.refused {row : Job} (hrow : NewRow h d pid row)
    (hkey : row.idempotencyKey = some key) {e : ServiceError}
    (hinsert : executeInsert (d.view pid) row = .error e) :
    isIdempotencyConflict e = true ∧
      ¬ ∀ {id x}, held key d.jobs id = some x → (pid, id) ∈ d.released := by
  obtain ⟨hconflict, hholders⟩ := executeInsert_new hrow.checked
    ((find?_view d pid).mpr hrow.fresh) hinsert
  rw [hkey] at hholders
  exact ⟨hconflict, fun hall => hholders (keyHolders_view_eq_nil hall)⟩

theorem buildJob_newRow {id : UUID} {createdAt now : Time}
    {request : JobCreateRequest} {row : Job}
    (hu : Undisturbed t (h ++ [((pid, .build id createdAt), o)]) d)
    (hr : Race key t begun h d) (hkey : key ≠ "")
    (hbuild : buildJob request (some key) now createdAt id = .ok row) :
    NewRow (h ++ [((pid, .build id createdAt), o)]) d pid row where
  fresh := by
    have hnew : id ∉ knownIds t (h.map Prod.fst) :=
      hu.drawn_fresh (List.mem_singleton_self id)
    rw [buildJob_eq_ok hbuild]
    by_contra hne
    obtain ⟨r, hfind⟩ := Option.ne_none_iff_exists'.mp hne
    exact hnew (hr.known hfind)
  drawn := by
    rw [List.map_append, List.map_singleton, drawn_concat,
      buildJob_eq_ok hbuild]
    exact List.mem_append_right _ (List.mem_singleton_self _)
  checked := by
    have hnew : row.IsNew := ⟨_, _, _, _, _, hbuild⟩
    exact hnew.wellformed.violatedCheck
  expires := by
    rw [buildJob_eq_ok hbuild]
    exact ⟨now + idempotencyTtl, by simp [newJob, truthyKey, hkey]⟩

/-- A step of a call leaves it where it says it is in the race. -/
theorem SubmitStep.progress (hs : SubmitStep settings key pid d p a d' p' o)
    (hkey : key ≠ "") (hc : Consistent key d) (hsound : p.Sound key d pid)
    (hbegun : begun ≤ d.clock) (hr : Race key t begun h d)
    (hp : p.Progress key begun h d pid)
    (hu : Undisturbed t (h ++ [((pid, a), o)]) d') :
    p'.Progress key begun (h ++ [((pid, a), o)]) d' pid := by
  have hbefore := hu.of_concat hs.clock_le
  have hinitial := commits_grow h pid a o
  -- Steps of which the call itself takes no notice.
  have hstay : p' = p → d'.released = d.released →
      (∀ row, NewRow h d pid row → d'.jobs.find? row.id = none) →
      p'.Progress key begun (h ++ [((pid, a), o)]) d' pid := by
    rintro rfl hreleased hfresh
    apply hp.mono hinitial
    · intro hdetached
      exact hdetached.step hs hc hsound fun id hid => by rwa [hreleased]
    · exact fun row hrow => hrow.concat (hfresh row hrow)
  cases hs with
  | wait => exact hstay rfl rfl fun row hrow => hrow.fresh
  | tick p a now hnow => exact hstay rfl rfl fun row hrow => hrow.fresh
  | other p op hop =>
      refine hstay rfl rfl fun row hrow => ?_
      exact find?_step_of_none hrow.fresh fun hdrawn =>
        hu.drawn_fresh hdrawn hrow.known
  | start request => exact hbegun
  | found request now existing hfound =>
      obtain ⟨x, hx, hid⟩ := hr.winner hfound fun _ => hp
      exact ⟨x, hinitial.subset hx, hid⟩
  | missed request now hnone => trivial
  | read request => exact hbegun
  | release request now hlock =>
      intro hnil id x hx
      have hold : commits h = [] := List.prefix_nil.mp (hnil ▸ hinitial)
      rcases hr.holders with ⟨-, hexpired⟩ | ⟨q, row, E, hone, -⟩
      · obtain ⟨E, rfl, hle⟩ := hexpired hx
        obtain ⟨r, hrow, rfl⟩ := mem_select_expired.mpr
          ⟨E, hx, hle.trans hp⟩
        exact List.mem_append_right _ (List.mem_map.mpr ⟨r, hrow, rfl⟩)
      · simp [hold] at hone
  | build request id createdAt row hbuild =>
      refine ⟨fun hnil => ?_, buildJob_newRow hu hr hkey hbuild⟩
      exact hp (List.prefix_nil.mp (hnil ▸ hinitial))
  | fail request id createdAt e hbuild => exact (buildJob_eq_error hbuild).2
  | insert row jobs hcontended hinsert => exact hp.2.concat hp.2.fresh
  | refuse row e hcontended hinsert =>
      obtain ⟨hconflict, hholders⟩ := hp.2.refused hsound.1.2 hinsert
      rw [if_pos hconflict]
      exact fun hnil =>
        hholders fun hx => hp.1 (List.prefix_nil.mp (hnil ▸ hinitial)) hx
  | commit row jobs hinsert => trivial
  | abort row e hinsert =>
      obtain ⟨-, hholders⟩ := hp.refused hsound.1.2 hinsert
      exact (hholders fun hx => hc.covered hsound.1.1 hx).elim
  | reread e =>
      exact fun hnil => hp (List.prefix_nil.mp (hnil ▸ hinitial))
  | reloaded e now winner hfound =>
      obtain ⟨x, hx, hid⟩ := hr.winner hfound fun hnil => absurd hnil hp
      exact ⟨x, hinitial.subset hx, hid⟩
  | lost e now hnone => exact absurd hnone (hr.found hbefore hp hsound.2)

/-- A step of any call keeps the race. -/
theorem SubmitStep.race (hs : SubmitStep settings key pid d p a d' p' o)
    (hc : Consistent key d) (hsound : p.Sound key d pid)
    (hr : Race key t begun h d) (hp : p.Progress key begun h d pid)
    (hu : Undisturbed t (h ++ [((pid, a), o)]) d') :
    Race key t begun (h ++ [((pid, a), o)]) d' where
  known := by
    intro id r hfind
    rw [List.map_append, List.map_singleton, knownIds_concat]
    by_contra hnot
    obtain ⟨hold, hnew⟩ := not_or.mp (mt List.mem_append.mpr hnot)
    have hnone : d.jobs.find? id = none := by
      by_contra hne
      obtain ⟨r, hr'⟩ := Option.ne_none_iff_exists'.mp hne
      exact hold (hr.known hr')
    have habsent := hs.find?_of_none hnone hnew (by
      rintro row rfl rfl
      exact hold hp.known)
    rw [hfind] at habsent
    cases habsent
  holders := by
    have hbefore := hu.of_concat hs.clock_le
    rcases hs.held_cases hc hsound.1 with
      ⟨rfl, hsame⟩ | ⟨row, rfl, rfl, rfl, hclock, hexpired, hheld⟩
    · simpa [commits_concat, hsame] using hr.holders
    · obtain ⟨E, hE⟩ := hp.expires
      rcases hr.holders with ⟨hnil, -⟩ | ⟨q, winner, F, hone, hF, hwins⟩
      · refine Or.inr ⟨pid, row, E, by simp [commits_concat, hnil], hE, ?_⟩
        simpa [hE] using hheld
      · have hwinner := hwins winner.id
        rw [if_pos rfl] at hwinner
        obtain ⟨F', heq, hle⟩ := hexpired hwinner
        cases heq
        have hmem : (q, winner) ∈ commits h := by simp [hone]
        exact absurd (hbefore.inTime hmem hF) (not_lt.mpr hle)

/-- The call has committed a row exactly if it returns it as created. -/
def Submission.Reported (h : SubmitHistory) (pid : ℕ)
    (p : Submission) : Prop :=
  ∀ row, (pid, row) ∈ commits h ↔ p = .returned row true

theorem SubmitStep.reported (hs : SubmitStep settings key pid d p a d' p' o)
    (hp : p.Reported h pid) : p'.Reported (h ++ [((pid, a), o)]) pid := by
  have hquiet : o = none → (∀ row, p' = .returned row true ↔
      p = .returned row true) →
      p'.Reported (h ++ [((pid, a), o)]) pid := by
    rintro rfl hsame row
    rw [hsame, ← hp row]
    simp [commits_concat]
  cases hs with
  | commit row jobs hinsert =>
      intro row'
      have hnot : (pid, row') ∉ commits h := by
        rw [hp row']
        exact fun heq => nomatch heq
      simp [commits_concat, hnot, eq_comm]
  | refuse row e hcontended hinsert =>
      refine hquiet rfl fun row => ?_
      split
      · simp
      · simp
  | wait => exact hquiet rfl fun _ => Iff.rfl
  | tick p a now hnow => exact hquiet rfl fun _ => Iff.rfl
  | other p op hop => exact hquiet rfl fun _ => Iff.rfl
  | _ => exact hquiet rfl fun _ => by simp

theorem Submission.Reported.other {q : ℕ} {p₂ : Submission}
    (hp : p₂.Reported h q) (hq : q ≠ pid) :
    p₂.Reported (h ++ [((pid, a), o)]) q := by
  intro row
  rw [← hp row, commits_concat]
  cases o with
  | none => simp
  | some row' => simp [hq]

/-- The race as it stands after any run from a table all of whose holders
have expired. -/
theorem race_after (settings : Settings) (hkey : key ≠ "") {begun : Time}
    (hunique : AtMostOneHolder key t)
    (hexpired : ∀ {id x}, held key t id = some x → ∃ E, x = some E ∧ E ≤ begun)
    (actions : List (ℕ × SubmitAction))
    (hu : Undisturbed t (submitHistory settings key t begun actions)
      (submissionsAfter settings key t begun actions).shared) :
    Race key t begun (submitHistory settings key t begun actions)
        (submissionsAfter settings key t begun actions).shared ∧
      ∀ pid, ((submissionsAfter settings key t begun actions).process
          pid).Progress key begun (submitHistory settings key t begun actions)
          (submissionsAfter settings key t begun actions).shared pid := by
  have hinv := submissions_invariant settings
    (G := fun h d => begun ≤ d.clock ∧
      (Undisturbed t h d → Race key t begun h d))
    (L := fun h d pid p => Undisturbed t h d → p.Progress key begun h d pid)
    (quiescent_consistent hunique) (quiescent_sound t begun)
    ⟨le_rfl, fun _ => ⟨fun hfind => ?_, Or.inl ⟨rfl, hexpired⟩⟩⟩
    (fun _ _ => trivial) ?_ ?_ actions
  · exact ⟨hinv.1.2.2 hu, fun pid => (hinv.2 pid).2 hu⟩
  · obtain ⟨hmem, hid⟩ := KeyedTable.find?_eq_some_iff.mp hfind
    exact List.mem_append_left _ (List.mem_map.mpr ⟨_, hmem, hid⟩)
  · rintro h d pid p a d' p' o hc hsound hs ⟨hbegun, hr⟩ hp
    refine ⟨⟨hbegun.trans hs.clock_le, fun hu' => ?_⟩, fun hu' => ?_⟩
    · have hbefore := hu'.of_concat hs.clock_le
      exact hs.race hc hsound (hr hbefore) (hp hbefore) hu'
    · have hbefore := hu'.of_concat hs.clock_le
      exact hs.progress hkey hc hsound hbegun (hr hbefore) (hp hbefore) hu'
  · rintro h d pid p a d' p' o q p₂ hc hsound hs - hp hq hp₂ hu'
    have hbefore := hu'.of_concat hs.clock_le
    exact hs.progress_other hc hsound (hp hbefore) hu' hq (hp₂ hbefore)

theorem reported_after (settings : Settings) (begun : Time)
    (hunique : AtMostOneHolder key t) (actions : List (ℕ × SubmitAction))
    (pid : ℕ) :
    ((submissionsAfter settings key t begun actions).process pid).Reported
      (submitHistory settings key t begun actions) pid := by
  refine ((submissions_invariant settings (G := fun _ _ => True)
    (L := fun h _ pid p => p.Reported h pid)
    (quiescent_consistent hunique) (quiescent_sound t begun) trivial ?_
    (fun _ _ hs _ hp => ⟨trivial, hs.reported hp⟩)
    (fun _ _ _ _ _ hq hp => hp.other hq) actions).2 pid).2
  intro pid row
  exact ⟨fun hmem => (nomatch hmem), fun heq => (nomatch heq)⟩

end

/-! ## Bodies without a date in UTC -/

/-- The body of a call that has not built its job yet. -/
def Submission.request? : Submission → Option JobCreateRequest
  | .lookingUp request _ => some request
  | .notFound request => some request
  | .releasing request _ => some request
  | .released request => some request
  | _ => none

/-- What a call reloads the winner over is a conflict on the key. -/
def Submission.Conflicts : Submission → Prop
  | .conflicted e => isIdempotencyConflict e = true
  | .reloading e _ => isIdempotencyConflict e = true
  | _ => True

/-- No call gets to building its job from a body whose time has no date in
UTC. -/
def BuildsInUtcRange (settings : Settings) (key : String) (t : Jobs)
    (begun : Time) (actions : List (ℕ × SubmitAction)) : Prop :=
  ∀ before, before <+: actions → ∀ pid request,
    (submissionsAfter settings key t begun before).process pid =
      .released request → request.inUtcRange = true

section

variable {settings : Settings} {key : String} {t : Jobs} {begun : Time}
  {d d' : Database} {pid : ℕ} {p p' : Submission} {a : SubmitAction}
  {o : Option Job} {request : JobCreateRequest}

theorem SubmitStep.body (hs : SubmitStep settings key pid d p a d' p' o)
    (hrequest : p'.request? = some request) :
    p.request? = some request ∨ a = .start request := by
  cases hs with
  | start request' =>
      obtain rfl := Option.some.inj hrequest
      exact Or.inr rfl
  | refuse row e =>
      split at hrequest
      · cases hrequest
      · cases hrequest
  | _ => first | exact Or.inl hrequest | cases hrequest

theorem SubmitStep.conflicts (hs : SubmitStep settings key pid d p a d' p' o)
    (hp : p.Conflicts) : p'.Conflicts := by
  cases hs with
  | refuse row e =>
      split
      · next hconflict => exact hconflict
      · trivial
  | wait => exact hp
  | tick => exact hp
  | other => exact hp
  | reread e => exact hp
  | _ => trivial

theorem isIdempotencyConflict_dateOutOfRange :
    isIdempotencyConflict dateOutOfRange = false := rfl

/-- A call raises over a date only when it builds its job. -/
theorem SubmitStep.raises (hs : SubmitStep settings key pid d p a d' p' o)
    (hp : p.Conflicts) (hraised : p' = .raised dateOutOfRange) :
    p = .raised dateOutOfRange ∨
      ∃ request, p = .released request ∧ request.inUtcRange = false := by
  have hinsert : ∀ {u row e}, executeInsert u row = .error e →
      Submission.raised e ≠ .raised dateOutOfRange := by
    intro u row e h heq
    obtain ⟨error, rfl⟩ := executeInsert_eq_error h
    cases heq
  cases hs with
  | wait => exact Or.inl hraised
  | tick => exact Or.inl hraised
  | other => exact Or.inl hraised
  | fail request id createdAt e h =>
      exact Or.inr ⟨request, rfl, (buildJob_eq_error h).1⟩
  | refuse row e hcontended h =>
      split at hraised
      · cases hraised
      · exact absurd hraised (hinsert h)
  | abort row e h => exact absurd hraised (hinsert h)
  | lost e now h =>
      cases hraised
      rw [Submission.Conflicts, isIdempotencyConflict_dateOutOfRange] at hp
      cases hp
  | _ => cases hraised

/-- A call that is about to build its job from such a body only waits or
raises. -/
theorem SubmitStep.outOfRange (hs : SubmitStep settings key pid d p a d' p' o)
    (hrange : request.inUtcRange = false)
    (hp : p = .released request ∨ p = .raised dateOutOfRange) :
    p' = .released request ∨ p' = .raised dateOutOfRange := by
  rcases hp with rfl | rfl
  · cases hs with
    | wait => exact Or.inl rfl
    | tick => exact Or.inl rfl
    | other => exact Or.inl rfl
    | build request id createdAt row h =>
        rw [buildJob_of_outOfRange hrange] at h
        cases h
    | fail request id createdAt e h =>
        exact Or.inr (congrArg _ (buildJob_eq_error h).2)
  · cases hs with
    | wait => exact Or.inr rfl
    | tick => exact Or.inr rfl
    | other => exact Or.inr rfl

theorem step_after (settings : Settings) (key : String) (t : Jobs)
    (begun : Time) (actions : List (ℕ × SubmitAction)) (pid : ℕ)
    (a : SubmitAction) :
    (∃ o, SubmitStep settings key pid
      (submissionsAfter settings key t begun actions).shared
      ((submissionsAfter settings key t begun actions).process pid) a
      (submissionsAfter settings key t begun (actions ++ [(pid, a)])).shared
      ((submissionsAfter settings key t begun
        (actions ++ [(pid, a)])).process pid) o) ∧
    ∀ q, q ≠ pid →
      (submissionsAfter settings key t begun
        (actions ++ [(pid, a)])).process q =
        (submissionsAfter settings key t begun actions).process q := by
  have hrun : submissionsAfter settings key t begun (actions ++ [(pid, a)]) =
      ((submissions settings key).machine.step
        (submissionsAfter settings key t begun actions) (pid, a)).1 :=
    Machine.run_append _ _ actions [(pid, a)]
  rw [hrun]
  constructor
  · have hself : ((submissions settings key).machine.step
        (submissionsAfter settings key t begun actions) (pid, a)).1.process
          pid = ((submissions settings key).act pid
            (submissionsAfter settings key t begun actions).shared
            ((submissionsAfter settings key t begun actions).process pid)
            a).2.1 := Function.update_self _ _ _
    rw [hself]
    exact ⟨_, submission_step settings key pid _ _ a⟩
  · exact fun q hq => Function.update_of_ne hq _ _

theorem started_of_request (actions : List (ℕ × SubmitAction))
    (hrequest : ((submissionsAfter settings key t begun actions).process
      pid).request? = some request) : (pid, .start request) ∈ actions := by
  induction actions using List.reverseRecOn with
  | nil => cases hrequest
  | append_singleton actions x ih =>
      obtain ⟨q, a⟩ := x
      obtain ⟨⟨o, hs⟩, hothers⟩ := step_after settings key t begun actions q a
      by_cases hq : pid = q
      · subst hq
        rcases hs.body hrequest with hold | rfl
        · exact List.mem_append_left _ (ih hold)
        · exact List.mem_append_right _ (List.mem_singleton_self _)
      · rw [hothers pid hq] at hrequest
        exact List.mem_append_left _ (ih hrequest)

theorem buildsInUtcRange_of_bodies {actions : List (ℕ × SubmitAction)}
    (h : ∀ pid request, (pid, .start request) ∈ actions →
      request.inUtcRange = true) :
    BuildsInUtcRange settings key t begun actions := by
  intro before hbefore pid request hreleased
  have hbody : ((submissionsAfter settings key t begun before).process
      pid).request? = some request := by
    rw [hreleased]
    rfl
  exact h pid request (hbefore.subset (started_of_request before hbody))

theorem conflicts_after (actions : List (ℕ × SubmitAction)) (pid : ℕ) :
    ((submissionsAfter settings key t begun actions).process
      pid).Conflicts := by
  induction actions using List.reverseRecOn with
  | nil => trivial
  | append_singleton actions x ih =>
      obtain ⟨q, a⟩ := x
      obtain ⟨⟨o, hs⟩, hothers⟩ := step_after settings key t begun actions q a
      by_cases hq : pid = q
      · subst hq
        exact hs.conflicts ih
      · rw [hothers pid hq]
        exact ih

/-- A call that has raised over a date had a body without one. -/
theorem released_of_raised {actions : List (ℕ × SubmitAction)}
    (hraised : (submissionsAfter settings key t begun actions).process pid =
      .raised dateOutOfRange) :
    ∃ before request, before <+: actions ∧
      (submissionsAfter settings key t begun before).process pid =
        .released request ∧ request.inUtcRange = false := by
  induction actions using List.reverseRecOn with
  | nil => cases hraised
  | append_singleton actions x ih =>
      obtain ⟨q, a⟩ := x
      obtain ⟨⟨o, hs⟩, hothers⟩ := step_after settings key t begun actions q a
      have hprefix : actions <+: actions ++ [(q, a)] := List.prefix_append _ _
      have hearlier : (submissionsAfter settings key t begun actions).process
          pid = .raised dateOutOfRange → ∃ before request,
          before <+: actions ++ [(q, a)] ∧
            (submissionsAfter settings key t begun before).process pid =
              .released request ∧ request.inUtcRange = false := by
        intro hold
        obtain ⟨before, request, hbefore, hreleased⟩ := ih hold
        exact ⟨before, request, hbefore.trans hprefix, hreleased⟩
      by_cases hq : pid = q
      · subst hq
        rcases hs.raises (conflicts_after actions pid) hraised with
          hold | ⟨request, hreleased, hrange⟩
        · exact hearlier hold
        · exact ⟨actions, request, hprefix, hreleased, hrange⟩
      · rw [hothers pid hq] at hraised
        exact hearlier hraised

/-- A call that gets to building its job from such a body never returns. -/
theorem outOfRange_after {before actions : List (ℕ × SubmitAction)}
    (hbefore : before <+: actions)
    (hreleased : (submissionsAfter settings key t begun before).process pid =
      .released request) (hrange : request.inUtcRange = false) :
    (submissionsAfter settings key t begun actions).process pid =
        .released request ∨
      (submissionsAfter settings key t begun actions).process pid =
        .raised dateOutOfRange := by
  obtain ⟨later, rfl⟩ := hbefore
  induction later using List.reverseRecOn with
  | nil =>
      rw [List.append_nil]
      exact Or.inl hreleased
  | append_singleton later x ih =>
      obtain ⟨q, a⟩ := x
      rw [← List.append_assoc]
      obtain ⟨⟨o, hs⟩, hothers⟩ :=
        step_after settings key t begun (before ++ later) q a
      by_cases hq : pid = q
      · subst hq
        exact hs.outOfRange hrange ih
      · rw [hothers pid hq]
        exact ih

end

/-! ## The outcome of the race -/

def Submission.isEnded : Submission → Bool
  | .returned _ _ => true
  | .raised _ => true
  | _ => false

/-- Calls have begun, and all that have begun have ended before a row they
committed expires. -/
structure Complete (c : Configuration Database Submission) : Prop where
  begun : ∃ pid, c.process pid ≠ .idle
  ended : ∀ pid, c.process pid ≠ .idle → (c.process pid).isEnded
  inTime : ∀ pid row E, c.process pid = .returned row true →
    row.idempotencyExpiresAt = some E → c.shared.clock < E

/-- One call returns a new job, and all others that have begun return that
job. -/
def OneCreates (c : Configuration Database Submission) : Prop :=
  ∃ pid row, c.process pid = .returned row true ∧
    ∀ q, q ≠ pid → c.process q ≠ .idle →
      ∃ job, c.process q = .returned job false ∧ job.id = row.id

/-- A call that has ended returns a committed row, its own or another's, or
raises over a date. -/
theorem Submission.Progress.ended {key : String} {begun : Time}
    {h : SubmitHistory} {d : Database} {pid : ℕ} {p : Submission}
    (hp : p.Progress key begun h d pid) (hreported : p.Reported h pid)
    (hended : p.isEnded = true) :
    p = .raised dateOutOfRange ∨
      ∃ x ∈ commits h, (x.1 = pid ∧ p = .returned x.2 true) ∨
        ∃ job, p = .returned job false ∧ job.id = x.2.id := by
  cases p with
  | returned job created =>
      cases created with
      | true =>
          exact Or.inr ⟨(pid, job), (hreported job).mpr rfl, Or.inl ⟨rfl, rfl⟩⟩
      | false =>
          obtain ⟨x, hx, hid⟩ := hp
          exact Or.inr ⟨x, hx, Or.inr ⟨job, rfl, hid⟩⟩
  | raised e =>
      obtain rfl : e = dateOutOfRange := hp
      exact Or.inl rfl
  | _ => cases hended

/-- If all calls return, they return the one row that was committed. -/
theorem Race.oneCreates {key : String} {t : Jobs} {begun : Time}
    {h : SubmitHistory} {c : Configuration Database Submission}
    (hr : Race key t begun h c.shared)
    (hreported : ∀ pid, (c.process pid).Reported h pid)
    (hbegun : ∃ pid, c.process pid ≠ .idle)
    (hreturns : ∀ pid, c.process pid ≠ .idle → ∃ x ∈ commits h,
      (x.1 = pid ∧ c.process pid = .returned x.2 true) ∨
        ∃ job, c.process pid = .returned job false ∧ job.id = x.2.id) :
    OneCreates c := by
  rcases hr.holders with ⟨hnil, -⟩ | ⟨pid, row, E, hone, -⟩
  · obtain ⟨q, hq⟩ := hbegun
    obtain ⟨x, hx, -⟩ := hreturns q hq
    rw [hnil] at hx
    cases hx
  · refine ⟨pid, row, (hreported pid row).mp (by simp [hone]), ?_⟩
    intro q hq hidle
    obtain ⟨x, hx, hcase⟩ := hreturns q hidle
    rw [hone, List.mem_singleton] at hx
    subst hx
    rcases hcase with ⟨heq, -⟩ | hother
    · exact absurd heq.symm hq
    · exact hother

section

variable {settings : Settings} {key : String} {t : Jobs} {begun : Time}
  {actions : List (ℕ × SubmitAction)}

/-- If all calls return, none has got stuck on building its job. -/
theorem OneCreates.buildsInUtcRange
    (hone : OneCreates (submissionsAfter settings key t begun actions)) :
    BuildsInUtcRange settings key t begun actions := by
  intro before hbefore pid request hreleased
  cases hrange : request.inUtcRange with
  | true => rfl
  | false =>
      have hstuck := outOfRange_after hbefore hreleased hrange
      obtain ⟨winner, row, hwinner, hothers⟩ := hone
      have hreturned : ∃ job created, (submissionsAfter settings key t
          begun actions).process pid = .returned job created := by
        by_cases hpid : pid = winner
        · exact ⟨row, true, hpid ▸ hwinner⟩
        · have hidle : (submissionsAfter settings key t begun
              actions).process pid ≠ .idle := by
            rcases hstuck with h | h
            · simp [h]
            · simp [h]
          obtain ⟨job, hjob, -⟩ := hothers pid hpid hidle
          exact ⟨job, false, hjob⟩
      obtain ⟨job, created, hjob⟩ := hreturned
      rcases hstuck with h | h
      · simp [hjob] at h
      · simp [hjob] at h

theorem Complete.undisturbed
    (h : Complete (submissionsAfter settings key t begun actions))
    (hunique : AtMostOneHolder key t) (hids : (knownIds t actions).Nodup) :
    Undisturbed t (submitHistory settings key t begun actions)
      (submissionsAfter settings key t begun actions).shared := by
  have hreported := reported_after settings begun hunique actions
  refine ⟨?_, fun hq hE => h.inTime _ _ _ ((hreported _ _).mp hq) hE⟩
  rw [submitHistory, Machine.map_fst_trace]
  exact hids

theorem expired_of_keyHolders
    (h : ∀ r ∈ keyHolders t (some key), r.idempotencyExpiresAt.any (· ≤ begun))
    {id : UUID} {x : Option Time} (hx : held key t id = some x) :
    ∃ E, x = some E ∧ E ≤ begun := by
  obtain ⟨r, hr, rfl⟩ := exists_mem_keyHolders hx
  rw [held_of_mem_keyHolders hr] at hx
  obtain ⟨E, hE, hle⟩ := (Option.any_eq_true _ _).mp (h r hr)
  exact ⟨E, (Option.some.inj hx).symm.trans hE, of_decide_eq_true hle⟩

end

/-- Submissions under one key, in every interleaving with each other, with
the clock and with the rest of the system.  At most one committed row holds
the key.  A holder keeps the key, and nothing is committed under it, while the
clock is before its expiry.  If only expired rows hold the key when the calls
begin, and they all end before any row they commit expires, no call raises
over a constraint, and one of them returns a new job and all others return
that job exactly if no call gets to building its job from a body whose time
has no date in UTC. -/
theorem idempotent_submission (settings : Settings) {key : String}
    (hkey : key ≠ "") {t : Jobs} (begun : Time)
    (hunique : AtMostOneHolder key t) :
    (∀ actions, AtMostOneHolder key
      (submissionsAfter settings key t begun actions).shared.jobs) ∧
    (∀ before later id E,
      held key (submissionsAfter settings key t begun before).shared.jobs id =
        some (some E) →
      (submissionsAfter settings key t begun
        (before ++ later)).shared.clock < E →
      held key (submissionsAfter settings key t begun
          (before ++ later)).shared.jobs id = some (some E) ∧
        commits (submitHistory settings key t begun (before ++ later)) =
          commits (submitHistory settings key t begun before)) ∧
    (∀ actions, (knownIds t actions).Nodup →
      (∀ r ∈ keyHolders t (some key), r.idempotencyExpiresAt.any (· ≤ begun)) →
      Complete (submissionsAfter settings key t begun actions) →
      (∀ pid e, (submissionsAfter settings key t begun actions).process pid =
        .raised e → e = dateOutOfRange) ∧
      (OneCreates (submissionsAfter settings key t begun actions) ↔
        BuildsInUtcRange settings key t begun actions)) := by
  refine ⟨fun actions => ?_, fun before later id E hheld hclock => ?_, ?_⟩
  · exact atMostOneHolder_iff.mpr
      (submissionsAfter_sound settings hunique actions).1.unique
  · obtain ⟨hc, hsound⟩ := submissionsAfter_sound settings hunique before
    unfold submissionsAfter at hclock ⊢
    unfold submitHistory
    rw [Machine.run_append] at hclock ⊢
    rw [Machine.trace_append]
    obtain ⟨hkept, hnone⟩ := holder_kept hc hsound hheld later hclock
    refine ⟨hkept, ?_⟩
    have hsplit : ∀ xs ys, commits (xs ++ ys) = commits xs ++ commits ys :=
      fun _ _ => List.filterMap_append
    rw [hsplit]
    exact List.append_right_eq_self.mpr hnone
  · intro actions hids hholders hcomplete
    have hreported := reported_after settings begun hunique actions
    obtain ⟨hrace, hprogress⟩ := race_after settings hkey hunique
      (expired_of_keyHolders hholders) actions
      (hcomplete.undisturbed hunique hids)
    refine ⟨fun pid e hraised => ?_, OneCreates.buildsInUtcRange,
      fun hbuilds => ?_⟩
    · have hp := hprogress pid
      rw [hraised] at hp
      exact hp
    · refine hrace.oneCreates hreported hcomplete.begun fun pid hpid => ?_
      rcases (hprogress pid).ended (hreported pid)
          (hcomplete.ended pid hpid) with hraised | hreturned
      · obtain ⟨before, request, hbefore, hreleased, hrange⟩ :=
          released_of_raised hraised
        rw [hbuilds before hbefore pid request hreleased] at hrange
        cases hrange
      · exact hreturned

/-- Two calls find no holder; both insert, and one of them waits for the
commit of the other. -/
def doubleSubmit : List (ℕ × SubmitAction) :=
  [(0, .start sampleRequest), (1, .start sampleRequest), (0, .go), (1, .go),
   (0, .go), (1, .go), (0, .go), (1, .go), (0, .build 1 0), (1, .build 2 0),
   (0, .go), (1, .go), (0, .go), (1, .go), (1, .go), (1, .go)]

/-- The job both calls return. -/
def doubleSubmitted : Job := newJob sampleRequest none (some "k") 0 0 1

theorem idempotent_submission_doubleSubmit :
    OneCreates (submissionsAfter sampleSettings "k" KeyedTable.empty 0
      doubleSubmit) := by
  have hwinner : (submissionsAfter sampleSettings "k" KeyedTable.empty 0
      doubleSubmit).process 0 = .returned doubleSubmitted true := by
    decide +kernel
  have hloser : (submissionsAfter sampleSettings "k" KeyedTable.empty 0
      doubleSubmit).process 1 = .returned doubleSubmitted false := by
    decide +kernel
  have hcases : ∀ pid, pid = 0 ∨ pid = 1 ∨
      (submissionsAfter sampleSettings "k" KeyedTable.empty 0
        doubleSubmit).process pid = .idle := by
    intro pid
    by_cases h0 : pid = 0
    · exact Or.inl h0
    · by_cases h1 : pid = 1
      · exact Or.inr (Or.inl h1)
      · refine Or.inr (Or.inr (Concurrent.process_run_of_notMem _ ?_))
        simp [doubleSubmit, h0, h1]
  have hbodies : ∀ pid request, (pid, .start request) ∈ doubleSubmit →
      request.inUtcRange = true := by
    intro pid request hmem
    obtain rfl : request = sampleRequest := by
      simp [doubleSubmit] at hmem
      rcases hmem with ⟨-, h⟩ | ⟨-, h⟩
      · exact h
      · exact h
    rfl
  refine ((idempotent_submission sampleSettings (by decide) 0
    (by decide)).2.2 doubleSubmit (by decide) (by decide)
      ⟨⟨0, ?_⟩, ?_, ?_⟩).2.mpr (buildsInUtcRange_of_bodies hbodies)
  · simp [hwinner]
  · intro pid hpid
    rcases hcases pid with rfl | rfl | hidle
    · simp [hwinner, Submission.isEnded]
    · simp [hloser, Submission.isEnded]
    · exact absurd hidle hpid
  · intro pid row E hrow hE
    have hclock : (submissionsAfter sampleSettings "k" KeyedTable.empty 0
        doubleSubmit).shared.clock = 0 := by
      decide +kernel
    rw [hclock]
    rcases hcases pid with rfl | rfl | hidle
    · rw [hwinner] at hrow
      cases hrow
      cases hE
      decide
    · rw [hloser] at hrow
      cases hrow
    · rw [hidle] at hrow
      cases hrow

/-- A body that asks for the last second of 9999, one hour west of UTC. -/
def latestRequest : JobCreateRequest :=
  { sampleRequest with scheduledAt := some (seconds 253402304399) }

/-- One call with that body, and no other. -/
def latestSubmit : List (ℕ × SubmitAction) :=
  [(0, .start latestRequest), (0, .go), (0, .go), (0, .go), (0, .build 1 0)]

theorem submission_can_raise :
    AtMostOneHolder "k" KeyedTable.empty ∧
    keyHolders KeyedTable.empty (some "k") = [] ∧
    (knownIds KeyedTable.empty latestSubmit).Nodup ∧
    Complete (submissionsAfter sampleSettings "k" KeyedTable.empty 0
      latestSubmit) ∧
    (submissionsAfter sampleSettings "k" KeyedTable.empty 0
      latestSubmit).process 0 = .raised dateOutOfRange ∧
    ¬ OneCreates (submissionsAfter sampleSettings "k" KeyedTable.empty 0
      latestSubmit) := by
  have hraised : (submissionsAfter sampleSettings "k" KeyedTable.empty 0
      latestSubmit).process 0 = .raised dateOutOfRange := by
    decide +kernel
  have hcases : ∀ pid, pid = 0 ∨
      (submissionsAfter sampleSettings "k" KeyedTable.empty 0
        latestSubmit).process pid = .idle := by
    intro pid
    by_cases h0 : pid = 0
    · exact Or.inl h0
    · refine Or.inr (Concurrent.process_run_of_notMem _ ?_)
      simp [latestSubmit, h0]
  have hnot : ∀ pid row, (submissionsAfter sampleSettings "k" KeyedTable.empty
      0 latestSubmit).process pid ≠ .returned row true := by
    intro pid row hreturned
    rcases hcases pid with rfl | hidle
    · simp [hraised] at hreturned
    · simp [hidle] at hreturned
  refine ⟨by decide, rfl, by decide, ⟨⟨0, by simp [hraised]⟩, ?_, ?_⟩,
    hraised, ?_⟩
  · intro pid hpid
    rcases hcases pid with rfl | hidle
    · simp [hraised, Submission.isEnded]
    · exact absurd hidle hpid
  · exact fun pid row E hreturned => absurd hreturned (hnot pid row)
  · rintro ⟨pid, row, hreturned, -⟩
    exact hnot pid row hreturned

end JobQueue
