import JobQueue.Core.Json

/-!
# Payload validation

Each job type has a payload model.  A submission is checked against the model
of its type before anything is stored, and what is stored is the canonical
form: every field of the model, in its order, with defaults filled in.
-/

namespace JobQueue

open Support

/-! ## Field checks -/

/-- `str`. -/
def checkText : Json → Except String Json
  | .text s => .ok (.text s)
  | _ => .error "Input should be a valid string"

/-- `str` with `Field(min_length=1, max_length=255)`. -/
def checkBoundedText : Json → Except String Json
  | .text s =>
      if s.length < 1 then .error "String should have at least 1 character"
      else if 255 < s.length then
        .error "String should have at most 255 characters"
      else .ok (.text s)
  | _ => .error "Input should be a valid string"

/-- `.. | None`. -/
def checkOptional (check : Json → Except String Json) :
    Json → Except String Json
  | .null => .ok .null
  | v => check v

/-- `EmailStr`. -/
def checkEmail (email : Normalizer) : Json → Except String Json
  | .text s => (email s).map .text
  | _ => .error "Input should be a valid string"

/-- `HttpUrl`. -/
def checkUrl (url : Normalizer) : Json → Except String Json
  | .text s => (url s).map .text
  | _ => .error "URL input should be a string or URL"

/-- `ReportFormat`. -/
def checkFormat : Json → Except String Json
  | .text s =>
      if s = "pdf" ∨ s = "csv" then .ok (.text s)
      else .error "Input should be 'pdf' or 'csv'"
  | _ => .error "Input should be 'pdf' or 'csv'"

/-- `list[Any]` with `Field(min_length=1)`. -/
def checkItems : Json → Except String Json
  | .array [] =>
      .error "List should have at least 1 item after validation, not 0"
  | .array items => .ok (.array items)
  | _ => .error "Input should be a valid list"

/-! ## Models -/

abbrev PayloadField := SchemaField String Json String

/-- A payload model; unknown keys are rejected. -/
abbrev PayloadModel := Schema String Json String

/-- The libraries that validate email addresses and URLs. -/
structure Validators where
  email : Normalizer
  url : Normalizer

def emailPayload (v : Validators) : PayloadModel where
  rows :=
    [⟨"to", none, checkEmail v.email⟩, ⟨"subject", none, checkBoundedText⟩,
      ⟨"body", some .null, checkOptional checkText⟩]
  nodup := by simp

def webhookPayload (v : Validators) : PayloadModel where
  rows :=
    [⟨"url", none, checkUrl v.url⟩,
      ⟨"event", some .null, checkOptional checkBoundedText⟩]
  nodup := by simp

def reportPayload : PayloadModel where
  rows :=
    [⟨"report_type", none, checkBoundedText⟩, ⟨"format", none, checkFormat⟩]
  nodup := by simp

def batchPayload : PayloadModel where
  rows := [⟨"items", none, checkItems⟩]
  nodup := by simp

def payloadModels (v : Validators) : JobType → PayloadModel
  | .email => emailPayload v
  | .webhook => webhookPayload v
  | .report => reportPayload
  | .batch => batchPayload

def fieldRequired : String := "Field required"

def extraForbidden : String := "Extra inputs are not permitted"

def formatPayloadErrors (errors : List (String × String)) : String :=
  "; ".intercalate (errors.map fun (location, message) =>
    (if location = "" then "payload" else location) ++ ": " ++ message)

/-- `validate_payload_for_type`: the canonical payload, or the text of the
`ValueError`. -/
def validatePayloadForType (v : Validators) (type : JobType)
    (payload : Payload) : Except String Payload :=
  match (payloadModels v type).validate fieldRequired extraForbidden payload
    with
  | .ok canonical => .ok canonical
  | .error errors => .error ("invalid payload for job type '" ++ type.value ++
      "': " ++ formatPayloadErrors errors)

/-! ## Checks accept what they produce -/

section Checks

variable {v w : Json}

theorem checkText_eq_ok (h : checkText v = .ok w) : w = v := by
  cases v <;> cases h
  rfl

theorem checkBoundedText_eq_ok (h : checkBoundedText v = .ok w) :
    w = v ∧ ∃ s, v = .text s := by
  cases v with
  | text s =>
      dsimp only [checkBoundedText] at h
      split at h
      · cases h
      · split at h
        · cases h
        · cases h
          exact ⟨rfl, s, rfl⟩
  | _ => cases h

theorem checkOptional_stable {check : Json → Except String Json}
    (hcheck : ∀ {v w}, check v = .ok w → check w = .ok w)
    (h : checkOptional check v = .ok w) : checkOptional check w = .ok w := by
  have hrest : check v = .ok w → checkOptional check w = .ok w := by
    intro hv
    cases w with
    | null => rfl
    | _ => exact hcheck hv
  cases v with
  | null =>
      cases h
      rfl
  | _ => exact hrest h

theorem map_text_eq_ok {n : Normalizer} {s : String}
    (h : (n s).map Json.text = .ok w) : ∃ t, w = .text t := by
  cases hs : n s with
  | error e =>
      rw [hs] at h
      cases h
  | ok t =>
      rw [hs] at h
      cases h
      exact ⟨t, rfl⟩

theorem map_text_eq_text_iff {n : Normalizer} {s : String} :
    (n s).map Json.text = .ok (.text s) ↔ n s = .ok s := by
  cases n s with
  | error e => simp [Except.map]
  | ok t => simp [Except.map]

theorem checkEmail_eq_ok {email : Normalizer}
    (h : checkEmail email v = .ok w) : ∃ t, w = .text t := by
  cases v with
  | text s => exact map_text_eq_ok h
  | _ => cases h

theorem checkUrl_eq_ok {url : Normalizer} (h : checkUrl url v = .ok w) :
    ∃ t, w = .text t := by
  cases v with
  | text s => exact map_text_eq_ok h
  | _ => cases h

theorem checkFormat_eq_ok (h : checkFormat v = .ok w) :
    w = v ∧ (w = .text "pdf" ∨ w = .text "csv") := by
  cases v with
  | text s =>
      dsimp only [checkFormat] at h
      split at h
      · next hformat =>
          cases h
          rcases hformat with rfl | rfl
          · exact ⟨rfl, Or.inl rfl⟩
          · exact ⟨rfl, Or.inr rfl⟩
      · cases h
  | _ => cases h

theorem checkItems_eq_ok (h : checkItems v = .ok w) :
    w = v ∧ ∃ items, w = .array items ∧ items ≠ [] := by
  cases v with
  | array items =>
      cases items with
      | nil => cases h
      | cons item items =>
          cases h
          exact ⟨rfl, _, rfl, List.cons_ne_nil _ _⟩
  | _ => cases h

end Checks

theorem stable_of_same {f : PayloadField} (hrequired : f.default = none)
    (hsame : ∀ {v w}, f.check v = .ok w → w = v) : f.Stable :=
  .of_required hrequired fun h => (hsame h) ▸ h

/-- The key of the field whose check is left to a library. -/
def validatedKey : JobType → Option String
  | .email => some "to"
  | .webhook => some "url"
  | .report => none
  | .batch => none

/-- The default of every field passes its check, and every check accepts what
it has produced, unless it is left to a library. -/
theorem payloadModels_stable (v : Validators) (type : JobType) :
    ∀ f ∈ (payloadModels v type).rows, ¬ validatedKey type = some f.key →
      f.Stable := by
  have hbounded : ∀ {v w}, checkBoundedText v = .ok w →
      checkBoundedText w = .ok w :=
    fun h => (checkBoundedText_eq_ok h).1 ▸ h
  have htext : ∀ {v w}, checkText v = .ok w → checkText w = .ok w :=
    fun h => (checkText_eq_ok h) ▸ h
  have hnull : ∀ {f : PayloadField} {check}, f.default = some .null →
      f.check = checkOptional check →
      (∀ {v w}, check v = .ok w → check w = .ok w) → f.Stable := by
    intro f check hdefault hcheck hstable
    refine ⟨fun h => ?_, fun h => ?_⟩
    · rw [hcheck] at h ⊢
      exact checkOptional_stable hstable h
    · rw [hdefault] at h
      cases h
      rw [hcheck]
      rfl
  intro f hf hkey
  cases type with
  | email =>
      simp only [payloadModels, emailPayload, List.mem_cons,
        List.not_mem_nil, or_false] at hf
      rcases hf with rfl | rfl | rfl
      · exact absurd rfl hkey
      · exact .of_required rfl hbounded
      · exact hnull rfl rfl htext
  | webhook =>
      simp only [payloadModels, webhookPayload, List.mem_cons,
        List.not_mem_nil, or_false] at hf
      rcases hf with rfl | rfl
      · exact absurd rfl hkey
      · exact hnull rfl rfl hbounded
  | report =>
      simp only [payloadModels, reportPayload, List.mem_cons,
        List.not_mem_nil, or_false] at hf
      rcases hf with rfl | rfl
      · exact .of_required rfl hbounded
      · exact stable_of_same rfl fun h => (checkFormat_eq_ok h).1
  | batch =>
      simp only [payloadModels, batchPayload, List.mem_cons,
        List.not_mem_nil, or_false] at hf
      subst hf
      exact stable_of_same rfl fun h => (checkItems_eq_ok h).1

/-! ## Accepted payloads -/

section Accepted

variable {v : Validators} {type : JobType} {payload canonical : Payload}

theorem validate_of_accepted
    (h : validatePayloadForType v type payload = .ok canonical) :
    (payloadModels v type).validate fieldRequired extraForbidden payload =
      .ok canonical := by
  unfold validatePayloadForType at h
  split at h
  · next hvalidate =>
      cases h
      exact hvalidate
  · cases h

def payloadKeys (v : Validators) (type : JobType) : List String :=
  (payloadModels v type).rows.map SchemaField.key

theorem keys_of_accepted
    (h : validatePayloadForType v type payload = .ok canonical) :
    canonical.rows.map Prod.fst = payloadKeys v type :=
  Schema.keys_of_validate (validate_of_accepted h)

/-- Every model has a key that no other model knows. -/
theorem exists_own_key (v : Validators) {type other : JobType}
    (h : other ≠ type) : ∃ k ∈ payloadKeys v type,
      (payloadModels v other).find? k = none := by
  cases type with
  | email =>
      refine ⟨"to", by simp [payloadKeys, payloadModels, emailPayload], ?_⟩
      cases other <;> first | rfl | exact absurd rfl h
  | webhook =>
      refine ⟨"url", by simp [payloadKeys, payloadModels, webhookPayload], ?_⟩
      cases other <;> first | rfl | exact absurd rfl h
  | report =>
      refine ⟨"format", by simp [payloadKeys, payloadModels, reportPayload],
        ?_⟩
      cases other <;> first | rfl | exact absurd rfl h
  | batch =>
      refine ⟨"items", by simp [payloadKeys, payloadModels, batchPayload], ?_⟩
      cases other <;> first | rfl | exact absurd rfl h

/-- The libraries accept the text of a canonical payload as it is. -/
def Validators.IsNormal (v : Validators) (canonical : Payload) :
    JobType → Prop
  | .email => ∀ s, canonical.get? "to" = some (.text s) → v.email s = .ok s
  | .webhook => ∀ s, canonical.get? "url" = some (.text s) → v.url s = .ok s
  | .report => True
  | .batch => True

/-- A value of a canonical payload has passed the check of its field. -/
theorem exists_check_of_accepted
    (h : validatePayloadForType v type payload = .ok canonical)
    {f : PayloadField} (hf : f ∈ (payloadModels v type).rows)
    (hrequired : f.default = none) :
    ∃ u w, f.check u = .ok w ∧ canonical.get? f.key = some w := by
  obtain ⟨w, hread, hget⟩ := Schema.get?_of_validate (validate_of_accepted h) hf
  obtain ⟨u, hu⟩ := f.check_of_required hrequired hread
  exact ⟨u, w, hu, hget⟩

/-- A field left to a library holds a text, which the check passes as it is
exactly if the library does. -/
theorem library_field_iff
    (h : validatePayloadForType v type payload = .ok canonical) {key : String}
    {check : Json → Except String Json} {n : Normalizer}
    (hf : ⟨key, none, check⟩ ∈ (payloadModels v type).rows)
    (htext : ∀ s, check (.text s) = (n s).map .text)
    (hok : ∀ {u w}, check u = .ok w → ∃ s, w = .text s) :
    (∀ w, canonical.get? key = some w → check w = .ok w) ↔
      ∀ s, canonical.get? key = some (.text s) → n s = .ok s := by
  constructor
  · intro haccepts s hs
    have hcheck := haccepts _ hs
    rw [htext] at hcheck
    exact map_text_eq_text_iff.mp hcheck
  · intro hnormal w hw
    obtain ⟨u, w', hu, hw'⟩ := exists_check_of_accepted h hf rfl
    obtain rfl := Option.some.inj (hw.symm.trans hw')
    obtain ⟨s, rfl⟩ := hok hu
    rw [htext]
    exact map_text_eq_text_iff.mpr (hnormal s hw)

theorem accepted_again_iff
    (h : validatePayloadForType v type payload = .ok canonical) :
    validatePayloadForType v type canonical = .ok canonical ↔
      v.IsNormal canonical type := by
  have hvalidate : validatePayloadForType v type canonical = .ok canonical ↔
      (payloadModels v type).validate fieldRequired extraForbidden canonical =
        .ok canonical := by
    refine ⟨validate_of_accepted, fun hagain => ?_⟩
    rw [validatePayloadForType, hagain]
  rw [hvalidate, Schema.validate_canonical_iff (payloadModels_stable v type)
    (validate_of_accepted h)]
  cases type with
  | email =>
      have hto : ⟨"to", none, checkEmail v.email⟩ ∈
          (payloadModels v .email).rows := by simp [payloadModels, emailPayload]
      rw [Validators.IsNormal, ← library_field_iff h hto (fun _ => rfl)
        checkEmail_eq_ok]
      refine ⟨fun haccepts => haccepts _ hto rfl, fun htext f hf hkey => ?_⟩
      simp only [payloadModels, emailPayload, List.mem_cons,
        List.not_mem_nil, or_false] at hf
      rcases hf with rfl | rfl | rfl
      · exact htext
      · simp [validatedKey] at hkey
      · simp [validatedKey] at hkey
  | webhook =>
      have hurl : ⟨"url", none, checkUrl v.url⟩ ∈
          (payloadModels v .webhook).rows := by
        simp [payloadModels, webhookPayload]
      rw [Validators.IsNormal, ← library_field_iff h hurl (fun _ => rfl)
        checkUrl_eq_ok]
      refine ⟨fun haccepts => haccepts _ hurl rfl, fun htext f hf hkey => ?_⟩
      simp only [payloadModels, webhookPayload, List.mem_cons,
        List.not_mem_nil, or_false] at hf
      rcases hf with rfl | rfl
      · exact htext
      · simp [validatedKey] at hkey
  | report => exact ⟨fun _ => trivial, fun _ f _ hkey => by cases hkey⟩
  | batch => exact ⟨fun _ => trivial, fun _ f _ hkey => by cases hkey⟩

theorem type_of_accepted {other : JobType} {canonical' : Payload}
    (h : validatePayloadForType v type payload = .ok canonical)
    (h' : validatePayloadForType v other canonical = .ok canonical') :
    other = type := by
  by_contra hne
  obtain ⟨k, hk, hunknown⟩ := exists_own_key v hne
  rw [← keys_of_accepted h] at hk
  obtain ⟨⟨_, value⟩, hmem, rfl⟩ := List.mem_map.mp hk
  have hsome := (Schema.validate_eq_ok_iff.mp (validate_of_accepted h')).2.1 _
    value (Record.get?_eq_some_iff.mpr hmem)
  rw [hunknown] at hsome
  cases hsome

end Accepted

/-- A payload that is accepted has a canonical form with all fields of its
model, which is accepted under no other type, and under its own as it is
exactly if the libraries accept the normal form they have returned.  One that
is rejected is rejected with a text that complains about no key twice: about
fields that are missing or fail their check, and about keys that the model
does not know. -/
theorem payload_validation (v : Validators) (type : JobType)
    (payload : Payload) :
    (∀ canonical, validatePayloadForType v type payload = .ok canonical →
      canonical.rows.map Prod.fst = payloadKeys v type ∧
      (∀ other canonical',
        validatePayloadForType v other canonical = .ok canonical' →
          other = type) ∧
      (validatePayloadForType v type canonical = .ok canonical ↔
        v.IsNormal canonical type)) ∧
    ∀ message, validatePayloadForType v type payload = .error message →
      ∃ complaints : List (String × String), complaints ≠ [] ∧
        (complaints.map Prod.fst).Nodup ∧
        message = "invalid payload for job type '" ++ type.value ++ "': " ++
          formatPayloadErrors complaints ∧
        ∀ key text, (key, text) ∈ complaints ↔
          (∃ f ∈ (payloadModels v type).rows, f.key = key ∧
            f.read fieldRequired payload = .error text) ∨
          text = extraForbidden ∧ key ∉ payloadKeys v type ∧
            ∃ value, payload.get? key = some value := by
  refine ⟨fun canonical h => ⟨keys_of_accepted h, fun other canonical' h' =>
    type_of_accepted h h', accepted_again_iff h⟩, fun message h => ?_⟩
  · have hunknown : ∀ key, (payloadModels v type).find? key = none ↔
        key ∉ payloadKeys v type := by
      intro key
      rw [KeyedTable.find?, List.find?_eq_none, payloadKeys]
      simp
    unfold validatePayloadForType at h
    split at h
    · cases h
    · next errors hvalidate =>
        cases h
        unfold Schema.validate at hvalidate
        split at hvalidate
        · cases hvalidate
        · next hne =>
            cases hvalidate
            refine ⟨_, fun hnil => hne (by rw [hnil]; rfl),
              Schema.nodup_complaints _ _ _ _, rfl, fun key text => ?_⟩
            rw [Schema.mem_complaints_iff, hunknown]

/-- The key that is empty is called by the name of the whole. -/
example (v : Validators) :
    validatePayloadForType v .batch
      ⟨[("items", .array [.null]), ("", .null)], by simp⟩ =
    .error ("invalid payload for job type 'batch': " ++
      "payload: Extra inputs are not permitted") := by
  rfl

end JobQueue
