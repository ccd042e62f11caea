import JobQueue.Api.Payloads
import JobQueue.Deployment.Processes
import JobQueue.Worker.Reports

/-!
# Handlers

A handler is what it does next: report its progress and go on once the report
is stored, or end with a result or an exception.  The four handlers read the
payload of their job, draw random numbers, and sleep; what they are given has
passed the payload model of their type, which is why none of them ever fails
on its payload.
-/

namespace JobQueue

open Support

/-! ## What a handler may use and do -/

/-- What the handlers use of their context, with the values that `random` and
`uuid4` return. -/
structure JobContext where
  jobId : UUID
  payload : Payload
  random : ℕ → ℚ
  messageId : UUID

/-- How a handler ends: with its result, with a `JobExecutionError`, or with
another exception, known by its `repr`. -/
inductive HandlerEnding
  | returned (result : Payload)
  | executionError (message : String)
  | crashed (repr : String)

/-- A handler between two points at which it waits for its caller. -/
inductive Script
  | report (processed total : ℤ) (next : Script)
  | finish (ending : HandlerEnding)

namespace Script

/-- The reports of a handler that is not interrupted. -/
def reports : Script → List (ℤ × ℤ)
  | .report processed total next => (processed, total) :: next.reports
  | .finish _ => []

/-- How a handler ends that is not interrupted. -/
def ending : Script → HandlerEnding
  | .report _ _ next => next.ending
  | .finish ending => ending

/-- The percentages that the reporter of the runner computes. -/
def percentages (s : Script) : List ℤ :=
  s.reports.map fun x => progressPercentage x.1 x.2

end Script

/-- `payload[key]`. -/
def subscript (payload : Payload) (key : String) : Except String Json :=
  match payload.get? key with
  | some value => .ok value
  | none => .error ("KeyError('" ++ key ++ "')")

/-! ## The handlers -/

def webhookSuccessRate : ℚ := float (8 / 10)

def reportBaseUrl : String := "https://example.local/reports"

def handleEmail (context : JobContext) : Script :=
  .finish (.returned
    ⟨[("message_id", .text ("msg_" ++ String.ofList context.messageId.hex)),
      ("status", .text "sent")], by simp⟩)

/-- `handle_webhook`; its first random number is the duration. -/
def handleWebhook (py : Python) (context : JobContext) : Script :=
  if webhookSuccessRate ≤ context.random 1 then
    match subscript context.payload "url" with
    | .ok url => .finish (.executionError
        ("webhook delivery to " ++ py.str url ++ " failed with status 503"))
    | .error e => .finish (.crashed e)
  else
    .finish (.returned
      ⟨[("status_code", .number "200"), ("delivered", .bool true)], by simp⟩)

def handleReport (py : Python) (context : JobContext) : Script :=
  match subscript context.payload "format" with
  | .ok format => .finish (.returned
      ⟨[("file_url", .text (reportBaseUrl ++ "/" ++ UUID.show context.jobId ++
        "." ++ py.str format))], by simp⟩)
  | .error e => .finish (.crashed e)

def batchResult (processed total : ℕ) : Payload where
  rows :=
    [("processed", .number (toString processed)), ("failed", .number "0"),
      ("total", .number (toString total))]
  nodup := by simp

/-- The loop of `handle_batch`, with so many items to go. -/
def batchLoop (total : ℕ) : ℕ → ℕ → Script
  | 0, processed => .finish (.returned (batchResult processed total))
  | left + 1, processed =>
      .report (processed + 1 : ℕ) total (batchLoop total left (processed + 1))

def handleBatch (py : Python) (context : JobContext) : Script :=
  match subscript context.payload "items" with
  | .ok items =>
      match py.len items with
      | .ok total => batchLoop total total 0
      | .error e => .finish (.crashed e)
  | .error e => .finish (.crashed e)

def handlers (py : Python) : JobType → JobContext → Script
  | .email => handleEmail
  | .webhook => handleWebhook py
  | .report => handleReport py
  | .batch => handleBatch py

/-- What the worker runs for a claimed row: the handler of its type, on the
payload as the column returns it. -/
def handlerOf (py : Python) (decode : Jsonb → Payload) (row : Job)
    (random : ℕ → ℚ) (messageId : UUID) : Option Script :=
  (getHandler row.type).map fun type =>
    handlers py type ⟨row.id, decode row.payload, random, messageId⟩

/-! ## Batches -/

def batchPercentages (total n : ℕ) : List ℤ :=
  (List.range n).map fun i => progressPercentage (i + 1 : ℕ) total

theorem batchLoop_reports (total left processed : ℕ) :
    (batchLoop total left processed).reports =
      (List.range left).map fun i =>
        (((processed + i + 1 : ℕ) : ℤ), (total : ℤ)) := by
  induction left generalizing processed with
  | zero => rfl
  | succ left ih =>
      rw [batchLoop, Script.reports, ih, List.range_succ_eq_map,
        List.map_cons, List.map_map]
      congr 1
      refine List.map_congr_left fun i _ => ?_
      simp only [Function.comp_apply]
      congr 2
      omega

theorem batchLoop_ending (total left processed : ℕ) :
    (batchLoop total left processed).ending =
      .returned (batchResult (processed + left) total) := by
  induction left generalizing processed with
  | zero => rfl
  | succ left ih =>
      rw [batchLoop, Script.ending, ih]
      congr 2
      omega

theorem batchLoop_percentages (total : ℕ) :
    (batchLoop total total 0).percentages = batchPercentages total total := by
  rw [Script.percentages, batchLoop_reports, List.map_map, batchPercentages]
  refine List.map_congr_left fun i _ => ?_
  simp [Function.comp_apply]

theorem batchPercentages_sorted {total n : ℕ} (htotal : 0 < total) :
    (batchPercentages total n).Pairwise (· ≤ ·) := by
  rw [batchPercentages, List.pairwise_map]
  refine List.pairwise_lt_range.imp fun {i j} hlt => ?_
  exact progressPercentage_mono (by omega) (by omega) (by omega)

theorem batchPercentages_bounds {total n : ℕ} (hn : n ≤ total) {p : ℤ}
    (hp : p ∈ batchPercentages total n) : 0 ≤ p ∧ p ≤ 100 := by
  obtain ⟨i, hi, rfl⟩ := List.mem_map.mp hp
  rw [List.mem_range] at hi
  exact ⟨progressPercentage_nonneg (by omega) (by omega),
    progressPercentage_le (by omega) (by omega) (by omega)⟩

theorem batchPercentages_getLast? {total n : ℕ} (hn : 0 < n) :
    (batchPercentages total n).getLast? =
      some (progressPercentage n total) := by
  obtain ⟨m, rfl⟩ := Nat.exists_eq_succ_of_ne_zero hn.ne'
  rw [batchPercentages, List.range_succ, List.map_append]
  simp

/-! ## Handlers on accepted payloads -/

section Accepted

variable {v : Validators} {type : JobType} {payload canonical : Payload}

theorem subscript_text {stored : Payload} (hkeeps : canonical.Keeps stored)
    {key s : String} (hget : canonical.get? key = some (.text s)) :
    subscript stored key = .ok (.text s) := by
  rw [subscript, hkeeps.text hget]

/-- What the worker relies on: the handler does not crash, and its
percentages rise from 0 to 100. -/
structure Script.Sound (s : Script) : Prop where
  ends : ∀ repr, s.ending ≠ .crashed repr
  sorted : s.percentages.Pairwise (· ≤ ·)
  bounds : ∀ p ∈ s.percentages, 0 ≤ p ∧ p ≤ 100

theorem Script.sound_of_finish {ending : HandlerEnding}
    (h : ∀ repr, ending ≠ .crashed repr) : (Script.finish ending).Sound :=
  ⟨h, .nil, fun _ hp => by cases hp⟩

theorem batchLoop_sound (total : ℕ) (htotal : 0 < total) :
    (batchLoop total total 0).Sound := by
  refine ⟨fun repr => ?_, ?_, ?_⟩
  · rw [batchLoop_ending]
    exact HandlerEnding.noConfusion
  · rw [batchLoop_percentages]
    exact batchPercentages_sorted htotal
  · rw [batchLoop_percentages]
    exact fun p hp => batchPercentages_bounds le_rfl hp

/-- The script of a batch is the loop over the items it was submitted with. -/
theorem handleBatch_of_accepted
    (h : validatePayloadForType v .batch payload = .ok canonical)
    (py : Python) {context : JobContext}
    (hkeeps : canonical.Keeps context.payload) :
    ∃ items, canonical.get? "items" = some (.array items) ∧
      0 < items.length ∧ handleBatch py context =
        batchLoop items.length items.length 0 := by
  obtain ⟨_, w, hw, hget⟩ := exists_check_of_accepted h
    (f := ⟨"items", none, checkItems⟩) (by simp [payloadModels, batchPayload])
    rfl
  obtain ⟨-, items, rfl, hne⟩ := checkItems_eq_ok hw
  obtain ⟨items', hget', hlength⟩ := hkeeps.array hget
  refine ⟨items, hget, List.length_pos_iff.mpr hne, ?_⟩
  have hitems : subscript context.payload "items" = .ok (.array items') := by
    rw [subscript, hget']
  rw [handleBatch, hitems]
  simp only [py.len_array, hlength]

/-- A handler that is given an accepted payload of its type. -/
theorem handlers_sound
    (h : validatePayloadForType v type payload = .ok canonical)
    (py : Python) {context : JobContext}
    (hkeeps : canonical.Keeps context.payload) :
    (handlers py type context).Sound := by
  cases type with
  | email => exact Script.sound_of_finish fun _ => HandlerEnding.noConfusion
  | webhook =>
      obtain ⟨_, w, hw, hget⟩ := exists_check_of_accepted h
        (f := ⟨"url", none, checkUrl v.url⟩)
        (by simp [payloadModels, webhookPayload]) rfl
      obtain ⟨url, rfl⟩ := checkUrl_eq_ok hw
      have hurl : subscript context.payload "url" = .ok (.text url) :=
        subscript_text hkeeps hget
      dsimp only [handlers]
      rw [handleWebhook, hurl]
      dsimp only
      split
      · exact Script.sound_of_finish fun _ => HandlerEnding.noConfusion
      · exact Script.sound_of_finish fun _ => HandlerEnding.noConfusion
  | report =>
      obtain ⟨_, w, hw, hget⟩ := exists_check_of_accepted h
        (f := ⟨"format", none, checkFormat⟩)
        (by simp [payloadModels, reportPayload]) rfl
      obtain ⟨-, hformat⟩ := checkFormat_eq_ok hw
      have htext : ∃ format, subscript context.payload "format" =
          .ok (.text format) := by
        rcases hformat with rfl | rfl
        · exact ⟨_, subscript_text hkeeps hget⟩
        · exact ⟨_, subscript_text hkeeps hget⟩
      obtain ⟨format, hformat⟩ := htext
      dsimp only [handlers]
      rw [handleReport, hformat]
      exact Script.sound_of_finish fun _ => HandlerEnding.noConfusion
  | batch =>
      obtain ⟨items, -, hpos, hloop⟩ :=
        handleBatch_of_accepted h py hkeeps
      dsimp only [handlers]
      rw [hloop]
      exact batchLoop_sound _ hpos

end Accepted

/-! ## Handlers of stored jobs -/

def Op.request? : Op → Option JobCreateRequest
  | .createJob _ _ request _ => some request
  | .insertJob _ _ request _ => some request
  | _ => none

/-- The request carries, as the column will return it, the canonical form of
an accepted payload. -/
def JobCreateRequest.Validated (v : Validators) (decode : Jsonb → Payload)
    (request : JobCreateRequest) : Prop :=
  ∃ payload canonical,
    validatePayloadForType v request.type payload = .ok canonical ∧
      canonical.Keeps (decode request.payload)

theorem insertJob_request {t t' : Jobs} {clock : SubmitClock} {id : UUID}
    {request : JobCreateRequest} {key : Option String} {s : Submitted}
    (h : insertJob t clock id request key = .ok (t', s))
    (hcreated : s.created = true) :
    s.job.type = request.type.value ∧ s.job.payload = request.payload := by
  obtain ⟨t₁, released, row, -, hbuild, hcases⟩ := insertJob_eq_ok h
  rcases hcases with ⟨rfl, -⟩ | ⟨winner, rfl, -, -⟩
  · rw [buildJob_eq_ok hbuild]
    exact ⟨rfl, rfl⟩
  · cases hcreated

/-- A job that was created is what was submitted. -/
theorem request_of_submitted {settings : Settings} {t t' : Jobs} {op : Op}
    {s : Submitted} (h : op.execute settings t = .ok (t', .submitted s))
    (hcreated : s.created = true) :
    ∃ request, op.request? = some request ∧
      s.job.type = request.type.value ∧ s.job.payload = request.payload := by
  cases op with
  | createJob clock id request key =>
      obtain ⟨s', hcreate, hreply⟩ := answer_eq_ok h
      obtain rfl := Reply.submitted.inj hreply
      refine ⟨request, rfl, ?_⟩
      unfold createJob at hcreate
      split at hcreate
      · split at hcreate
        · cases hcreate
          cases hcreated
        · exact insertJob_request hcreate hcreated
      · exact insertJob_request hcreate hcreated
  | insertJob clock id request key =>
      obtain ⟨s', hinsert, hreply⟩ := answer_eq_ok h
      obtain rfl := Reply.submitted.inj hreply
      exact ⟨request, rfl, insertJob_request hinsert hcreated⟩
  | _ =>
      obtain ⟨_, -, hreply⟩ := answer_eq_ok h
      cases hreply

/-- Every row holds the type and the payload of a submission of the run. -/
theorem request_of_row {settings : Settings} {ops : List Op} {id : UUID}
    {r : Job} (hr : (tableAfter settings ops).find? id = some r) :
    ∃ op ∈ ops, ∃ request, op.request? = some request ∧
      r.type = request.type.value ∧ r.payload = request.payload := by
  have hpath := service_run_path settings ops id
  rw [hr] at hpath
  obtain ⟨row, hrow, hsame⟩ := RowPath.created hpath
  obtain ⟨call, hcall, hchange⟩ := List.mem_flatMap.mp hrow
  obtain ⟨op, s, rfl, hcreated, rfl, -⟩ :=
    (makes_of_mem (mem_changesFor.mp hchange)).created_inv
  obtain ⟨before, after, hops, hreply⟩ :=
    (service settings).exists_of_mem_trace hcall
  obtain ⟨request, hrequest, htype, hpayload⟩ :=
    request_of_submitted (execute_of_step_ok hreply.symm) hcreated
  refine ⟨op, by simp [hops], request, hrequest, ?_, ?_⟩
  · rw [hsame.type, htype]
  · rw [hsame.payload, hpayload]

theorem getHandler_value (type : JobType) :
    getHandler type.value = some type := by
  cases type <;> rfl

/-- In every run whose submissions carry accepted payloads, the worker finds a
handler for every row; whatever it draws, the handler does not fail on the
payload, its percentages stay in the range of the column and do not fall, and
the handler of a batch reports every item it was submitted with, the last one
as one hundred per cent, before it returns their number. -/
theorem stored_jobs_can_be_handled {settings : Settings} {v : Validators}
    {decode : Jsonb → Payload} {ops : List Op}
    (hvalid : ∀ op ∈ ops, ∀ request, op.request? = some request →
      request.Validated v decode) (py : Python) {id : UUID} {r : Job}
    (hr : (tableAfter settings ops).find? id = some r) (random : ℕ → ℚ)
    (messageId : UUID) :
    ∃ script, handlerOf py decode r random messageId = some script ∧
      script.Sound ∧
      (r.type = JobType.batch.value → ∃ payload canonical items,
        validatePayloadForType v .batch payload = .ok canonical ∧
          canonical.Keeps (decode r.payload) ∧
          canonical.get? "items" = some (.array items) ∧
          script.reports = (List.range items.length).map
            (fun i => (((i + 1 : ℕ) : ℤ), (items.length : ℤ))) ∧
          script.percentages.getLast? = some 100 ∧
          script.ending =
            .returned (batchResult items.length items.length)) := by
  obtain ⟨op, hop, request, hrequest, htype, hpayload⟩ := request_of_row hr
  obtain ⟨payload, canonical, haccepted, hkeeps⟩ :=
    hvalid op hop request hrequest
  rw [← hpayload] at hkeeps
  have hhandler : handlerOf py decode r random messageId =
      some (handlers py request.type
        ⟨r.id, decode r.payload, random, messageId⟩) := by
    rw [handlerOf, htype, getHandler_value]
    rfl
  refine ⟨_, hhandler, handlers_sound haccepted py hkeeps, fun hbatch => ?_⟩
  have hsame : request.type = .batch := by
    have hvalue := (getHandler_value request.type).symm.trans
      ((congrArg getHandler (htype.symm.trans hbatch)).trans
        (getHandler_value .batch))
    exact Option.some.inj hvalue
  rw [hsame] at haccepted ⊢
  have hcontext : canonical.Keeps
      (JobContext.mk r.id (decode r.payload) random messageId).payload := hkeeps
  obtain ⟨items, hitems, hpos, hloop⟩ :=
    handleBatch_of_accepted haccepted py hcontext
  refine ⟨payload, canonical, items, haccepted, hkeeps, hitems, ?_⟩
  dsimp only [handlers]
  rw [hloop, batchLoop_reports, batchLoop_percentages, batchLoop_ending,
    batchPercentages_getLast? hpos, progressPercentage_self (by omega)]
  simp

/-- Validators that accept every text as it is. -/
def sampleValidators : Validators where
  email := .ok
  url := .ok

/-- `str` and `len` on the values of the sample. -/
def samplePython : Python where
  str
  | .text s => s
  | _ => ""
  str_text _ := rfl
  len
  | .array items => .ok items.length
  | _ => .error "TypeError"
  len_array _ := rfl

/-- The payload of the sample batch. -/
def samplePayload : Payload where
  rows := [("items", .array [.number "1", .number "2", .number "3",
    .number "4", .number "5"])]
  nodup := by simp

theorem sampleBatch_validated :
    sampleBatch.Validated sampleValidators fun _ => samplePayload :=
  ⟨samplePayload, samplePayload, rfl, id, fun h => ⟨_, h, rfl⟩⟩

/-- The sample batch, submitted and not yet claimed. -/
theorem sample_batch_can_be_handled : ∃ script,
    handlerOf samplePython (fun _ => samplePayload)
      (newJob sampleBatch none none 0 0 1) (fun _ => 0) 0 = some script ∧
    script.Sound := by
  have hrow : (tableAfter sampleSettings
      [.createJob (SubmitClock.at 0) 1 sampleBatch none]).find? 1 =
        some (newJob sampleBatch none none 0 0 1) := rfl
  obtain ⟨script, hscript, hsound, -⟩ := stored_jobs_can_be_handled
    (fun op hop request hrequest => by
      obtain rfl := List.mem_singleton.mp hop
      obtain rfl := Option.some.inj hrequest
      exact sampleBatch_validated)
    samplePython hrow (fun _ => 0) 0
  exact ⟨script, hscript, hsound⟩

end JobQueue
