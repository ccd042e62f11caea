import JobQueue.Lifecycle.Recovery

/-!
# Attempts that are over

What a worker can know about the attempt it was handed out.  An attempt is
live until a call ends it, and over from then on: a fenced write that raises
tells its caller that the attempt is over, a settling write that returns ends
it, and the token of an attempt that is over is on no row at all.
-/

namespace JobQueue

open Support

/-- `a` was handed out by a claim of the run, and this claim was ended. -/
def IsOver (settings : Settings) (ops : List Op) (a : Attempt) : Prop :=
  ∃ before op after, ops = before ++ op :: after ∧
    Obtained settings before op a ∧ Ended settings before op after a

variable {settings : Settings} {ops : List Op} {a : Attempt}

theorem HandedOut.append (h : HandedOut settings ops a) (later : List Op) :
    HandedOut settings (ops ++ later) a := by
  obtain ⟨before, op, after, rfl, hobtained⟩ := h
  exact ⟨before, op, after ++ later, by simp, hobtained⟩

theorem IsOver.append (h : IsOver settings ops a) (later : List Op) :
    IsOver settings (ops ++ later) a := by
  obtain ⟨before, op, after, rfl, hobtained, hended⟩ := h
  exact ⟨before, op, after ++ later, by simp, hobtained, hended.append later⟩

theorem IsOver.handedOut (h : IsOver settings ops a) :
    HandedOut settings ops a := by
  obtain ⟨before, op, after, hops, hobtained, -⟩ := h
  exact ⟨before, op, after, hops, hobtained⟩

/-- An attempt is live or over. -/
theorem HandedOut.live_or_isOver (h : HandedOut settings ops a) :
    (∃ r, Live (tableAfter settings ops) a r) ∨ IsOver settings ops a := by
  obtain ⟨before, op, after, rfl, hobtained⟩ := h
  by_cases hended : Ended settings before op after a
  · exact Or.inr ⟨before, op, after, rfl, hobtained, hended⟩
  · exact Or.inl (hobtained.live_of_not_ended hended)

/-! ## Fenced writes -/

/-- Every write of an attempt that is over is rejected. -/
theorem IsOver.rejected (h : IsOver settings ops a)
    (htokens : (mintedTokens ops).Nodup) (w : FencedWrite) :
    Rejected settings (tableAfter settings ops) a w := by
  obtain ⟨before, op, after, rfl, hobtained, hended⟩ := h
  exact hobtained.rejected_of_ended htokens hended w

/-- A fenced write either returns, and then the attempt is live, or is
rejected, and then the attempt is over. -/
theorem HandedOut.write_cases (h : HandedOut settings ops a)
    (htokens : (mintedTokens ops).Nodup) (w : FencedWrite) :
    (∃ reply, ((service settings).step (tableAfter settings ops)
        (w.op a)).2 = .ok reply ∧ ¬ IsOver settings ops a) ∨
      (IsOver settings ops a ∧
        Rejected settings (tableAfter settings ops) a w) := by
  by_cases hover : IsOver settings ops a
  · exact Or.inr ⟨hover, hover.rejected htokens w⟩
  · obtain ⟨r, hr⟩ := h.live_or_isOver.resolve_right hover
    obtain ⟨t', reply, -, hstep, -⟩ := hr.takesEffect settings w
    exact Or.inl ⟨reply, congrArg Prod.snd hstep, hover⟩

/-- A call that ends the claim makes the attempt over. -/
theorem HandedOut.isOver_of_endsClaim (h : HandedOut settings ops a) {op : Op}
    (hends : endsClaim a
      (op, ((service settings).step (tableAfter settings ops) op).2) = true) :
    IsOver settings (ops ++ [op]) a := by
  obtain ⟨before, claim, after, rfl, hobtained⟩ := h
  refine ⟨before, claim, after ++ [op], by simp, hobtained, _, ?_, hends⟩
  rw [Machine.trace_append, ← tableAfter_claim]
  exact List.mem_append_right _ List.mem_cons_self

def FencedWrite.settles : FencedWrite → Bool
  | .completeJob _ _ => true
  | .failAttempt _ _ => true
  | _ => false

theorem HandedOut.isOver_of_settled (h : HandedOut settings ops a)
    {w : FencedWrite} (hw : w.settles = true) {reply : Reply}
    (hreply : ((service settings).step (tableAfter settings ops)
      (w.op a)).2 = .ok reply) : IsOver settings (ops ++ [w.op a]) a := by
  refine h.isOver_of_endsClaim ?_
  rw [hreply]
  have hexec := execute_of_step_ok hreply
  cases w with
  | extendLease now leaseSeconds => cases hw
  | updateProgress progress => cases hw
  | completeJob now result =>
      obtain ⟨row, -, rfl⟩ := answer_eq_ok hexec
      exact decide_eq_true ⟨rfl, rfl⟩
  | failAttempt now error =>
      obtain ⟨result, -, rfl⟩ := answer_eq_ok hexec
      exact decide_eq_true ⟨rfl, rfl⟩

/-! ## Tokens on rows -/

/-- A token found at the end of a path was there at its start, or a claim on
the way minted it. -/
theorem RowPath.token_origin {r? : Option Job} {s : Job} {token : UUID}
    {cs : List Change} (h : RowPath r? cs (some s))
    (hs : s.executionToken = some token) :
    (∃ r, r? = some r ∧ r.executionToken = some token) ∨
      ∃ c ∈ cs, c.claimedToken = some token := by
  generalize hlast : some s = s? at h
  induction h generalizing s with
  | nil => exact Or.inl ⟨s, hlast.symm, hs⟩
  | snoc hpath hstep ih =>
      cases hstep with
      | create hnew =>
          obtain rfl := Option.some.inj hlast
          obtain ⟨request, scheduledAt, key, now, createdAt, id, rfl⟩ :=
            hnew.eq_newJob
          cases hs
      | change hc =>
          obtain rfl := Option.some.inj hlast
          rcases Change.token_origin hc hs with hold | hmint
          · rcases ih hold rfl with hstart | ⟨c, hmem, hmint⟩
            · exact Or.inl hstart
            · exact Or.inr ⟨c, by simp [hmem], hmint⟩
          · exact Or.inr ⟨_, by simp, hmint⟩

/-- A token on a row was put there by a claim of this job. -/
theorem claim_of_token {id token : UUID} {s : Job}
    (hs : (tableAfter settings ops).find? id = some s)
    (htoken : s.executionToken = some token) :
    ∃ now workerId leaseSeconds row,
      (.claimJob now id workerId token leaseSeconds,
        .ok (.claimed (some row))) ∈ callsOf settings ops := by
  have hpath := service_run_path settings ops id
  rw [hs] at hpath
  rcases RowPath.token_origin hpath htoken with ⟨r, hr, -⟩ | ⟨c, hc, hmint⟩
  · cases hr
  · simp only [historyOf, historyFrom, List.mem_flatMap, mem_changesFor] at hc
    obtain ⟨call, hcall, hmem⟩ := hc
    obtain ⟨now, workerId, leaseSeconds, row, rfl⟩ :=
      (makes_of_mem hmem).claim hmint
    exact ⟨now, workerId, leaseSeconds, row, hcall⟩

/-- Different calls of a run mint different tokens. -/
theorem eq_of_mintedToken (htokens : (mintedTokens ops).Nodup)
    {x y : Op × Outcome} (hx : x ∈ callsOf settings ops)
    (hy : y ∈ callsOf settings ops) {token : UUID}
    (hxtoken : x.1.mintedToken = some token)
    (hytoken : y.1.mintedToken = some token) : x = y := by
  have hcalls : mintedTokens ops =
      (callsOf settings ops).filterMap fun call => call.1.mintedToken := by
    conv_lhs => rw [← (service settings).map_fst_trace KeyedTable.empty ops]
    rw [mintedTokens, List.filterMap_map]
    rfl
  rw [hcalls] at htokens
  obtain ⟨before, after, heq⟩ := List.append_of_mem hx
  rw [heq] at htokens hy
  simp only [List.filterMap_append, List.filterMap_cons, hxtoken] at htokens
  rw [List.nodup_middle, List.nodup_cons, List.mem_append] at htokens
  by_contra hne
  rcases List.mem_append.mp hy with hbefore | hafter
  · exact htokens.1 (Or.inl (List.mem_filterMap.mpr ⟨y, hbefore, hytoken⟩))
  · rcases List.mem_cons.mp hafter with hsame | hafter
    · exact hne hsame.symm
    · exact htokens.1 (Or.inr (List.mem_filterMap.mpr ⟨y, hafter, hytoken⟩))

theorem Obtained.jobId {before : List Op} {now : Time} {jobId : UUID}
    {workerId : String} {token : UUID} {leaseSeconds : Option Duration}
    (h : Obtained settings before
      (.claimJob now jobId workerId token leaseSeconds) a) :
    a.jobId = jobId := by
  obtain ⟨-, r, s, -, -, -, -, -, hjob⟩ := h.row
  exact hjob

/-- The row of a successful claim names the attempt it hands out. -/
theorem attempt_of_claimed {t : Jobs} {now : Time} {jobId : UUID}
    {workerId : String} {token : UUID} {leaseSeconds : Option Duration}
    {row : Job}
    (h : ((service settings).step t
      (.claimJob now jobId workerId token leaseSeconds)).2 =
        .ok (.claimed (some row))) :
    ∃ a, Attempt.of row = .ok a ∧ a.executionToken = token := by
  obtain ⟨row', hclaim, hrow'⟩ := answer_eq_ok (execute_of_step_ok h)
  obtain rfl := Reply.claimed.inj hrow'
  rcases claimJob_cases hclaim with ⟨hnone, -⟩ | ⟨r, -, hset, -⟩
  · cases hnone
  · obtain rfl := Option.some.inj hset
    exact ⟨_, rfl, rfl⟩

theorem IsOver.token_ne (h : IsOver settings ops a)
    (htokens : (mintedTokens ops).Nodup) {s : Job}
    (hs : s ∈ (tableAfter settings ops).rows) :
    s.executionToken ≠ some a.executionToken := by
  intro htoken
  have hfind := KeyedTable.find?_eq_some_iff.mpr ⟨hs, rfl⟩
  obtain ⟨now, workerId, leaseSeconds, row, hcall⟩ :=
    claim_of_token hfind htoken
  obtain ⟨before, op, after, rfl, hobtained, hended⟩ := h
  have hmem : (op, ((service settings).step (tableAfter settings before)
      op).2) ∈ callsOf settings (before ++ op :: after) := by
    rw [callsOf_append]
    exact List.mem_append_right _ List.mem_cons_self
  have heq := eq_of_mintedToken htokens hcall hmem rfl hobtained.live.1
  obtain ⟨rfl, -⟩ := Prod.mk.inj heq
  have hjob := hobtained.jobId
  exact hobtained.token_ne_of_ended htokens hended (hjob ▸ hfind) htoken

end JobQueue
