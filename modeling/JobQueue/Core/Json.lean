import JobQueue.Core.Job
import JobQueue.Support.Schema

/-!
# JSON documents

Payloads and results as the service sees them before they are stored, and the
libraries it leaves their details to: the validators of email addresses and of
URLs, Python's `str` and `len`, and the JSONB columns.  What the service relies
on is a field of the structure.
-/

namespace JobQueue

open Support

/-- A value of `json.loads`; a number is kept as it was written. -/
inductive Json
  | null
  | bool (value : Bool)
  | number (literal : String)
  | text (value : String)
  | array (items : List Json)
  | object (fields : List (String × Json))

/-- `dict[str, Any]`. -/
abbrev Payload := Record String Json

/-- A validator that returns a normal form, or the text of its complaint.  A
normal form need not be accepted again: `HttpUrl` measures a URL before it
escapes it. -/
abbrev Normalizer := String → Except String String

/-- `str` of a value, and its `len` or the `repr` of the `TypeError`. -/
structure Python where
  str : Json → String
  str_text : ∀ s, str (.text s) = s
  len : Json → Except String ℕ
  len_array : ∀ items, len (.array items) = .ok items.length

/-- What a JSONB column may return for a document: it may reorder keys and
rewrite numbers, but a text stays the text and a list keeps its length. -/
structure Payload.Keeps (payload stored : Payload) : Prop where
  text : ∀ {k s}, payload.get? k = some (.text s) →
    stored.get? k = some (.text s)
  array : ∀ {k items}, payload.get? k = some (.array items) →
    ∃ items', stored.get? k = some (.array items') ∧
      items'.length = items.length

end JobQueue
