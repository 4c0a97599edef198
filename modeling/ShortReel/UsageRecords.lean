import ShortReel.GenerationTables
import ShortReel.KeysetPages
import ShortReel.UrlSafeBase64
import ShortReel.UtcInstants

/-!
# Usage records

The read side of `usage_repo.py`: the filters of the record list, its cursor and `list_records`.
-/

namespace ShortReel.UsageRecords

open GenerationTables JsonText KeysetPages UtcInstants

def statusText : CallStatus → String
  | .pending => "pending"
  | .success => "success"
  | .failed => "failed"
  | .cancelled => "cancelled"

def callTypeText : CallType → String
  | .image => "image"
  | .video => "video"
  | .text => "text"
  | .audio => "audio"

/-- Empty lists and absent values do not filter; `[since, until)` is half-open. -/
structure UsageFilters where
  projectName : Option String := none
  providers : List String := []
  models : List String := []
  mediaTypes : List String := []
  since : Option ℤ := none
  «until» : Option ℤ := none

/-- `column IN (values)`, unless there are none. -/
def isAmong (values : List String) (column : Option String) : Bool :=
  values = [] ∨ ∃ value ∈ values, column = some value

def usageFilterClauses (filters : UsageFilters) (row : ApiCall) : Bool :=
  (∀ name ∈ filters.projectName, row.projectName = name) ∧
  isAmong filters.providers row.provider ∧
  isAmong filters.models row.model ∧
  isAmong filters.mediaTypes (callTypeText row.callType) ∧
  (∀ since ∈ filters.since, since ≤ row.startedAt) ∧
  (∀ bound ∈ filters.«until», (row.startedAt : ℤ) < bound)

def recordsBaseClauses (filters : UsageFilters) (statuses segmentIds : List String) (row : ApiCall) :
    Bool :=
  usageFilterClauses filters row ∧
  isAmong statuses (statusText row.status) ∧
  isAmong segmentIds row.segmentId ∧
  (row.status ≠ .pending ∨ row.taskId = none)

structure UsageCursor where
  startedAt : ℤ
  id : ℕ
  deriving DecidableEq, Repr

structure UsageCursorError where
  raw : Text
  deriving DecidableEq

def payloadFloats : Floats Unit where
  ofNumeral := fun _ => ()
  nan := ()
  infinity := ()
  negInfinity := ()
  toText := fun _ => text "NaN"

def payloadDepth : ℕ := 1000

/-- The largest value of the column `id`. -/
def maxCursorId : ℕ := 2 ^ 31 - 1

def UsageCursor.payload (self : UsageCursor) : Json Unit :=
  .object [(text "started_at", .string (isoformat self.startedAt)), (text "id", .int self.id)]

def UsageCursor.encode (self : UsageCursor) : Text :=
  UrlSafeBase64.encode (dumps payloadFloats.toText self.payload)

def cursorOfPayload : Json Unit → Option UsageCursor
  | .object fields =>
      match InsertionDict.get fields (text "started_at"), InsertionDict.get fields (text "id") with
      | some (.string startedAt), some (.int id) =>
          if 1 ≤ id ∧ id ≤ maxCursorId then
            (fromisoformat startedAt).map fun instant => ⟨instant, id.toNat⟩
          else none
      | _, _ => none
  | _ => none

/-- `UsageCursor.decode`; a payload beyond ASCII is not read. -/
def UsageCursor.decode (raw : Text) : Except UsageCursorError UsageCursor :=
  match UrlSafeBase64.decode raw with
  | none => .error ⟨raw⟩
  | some bytes =>
      if ∀ byte ∈ bytes, byte < 128 then
        match (loads payloadFloats payloadDepth bytes).bind cursorOfPayload with
        | some cursor => .ok cursor
        | none => .error ⟨raw⟩
      else .error ⟨raw⟩

structure RecordsQuery where
  filters : UsageFilters := {}
  statuses : List String := []
  segmentIds : List String := []
  limit : ℕ := 20
  /-- The route takes no smaller page. -/
  one_le_limit : 1 ≤ limit := by decide

def RecordsQuery.Matches (query : RecordsQuery) (row : ApiCall) : Prop :=
  recordsBaseClauses query.filters query.statuses query.segmentIds row = true

instance (query : RecordsQuery) : DecidablePred query.Matches :=
  fun row => inferInstanceAs (Decidable (recordsBaseClauses _ _ _ row = true))

/-- What the list is ordered by: the instant a call was started, and its id among calls of the same
instant. -/
abbrev Position := ℤ ×ₗ ℕ

def position (row : ApiCall) : Position :=
  toLex ((row.startedAt : ℤ), row.id)

def UsageCursor.position (self : UsageCursor) : Position :=
  toLex (self.startedAt, self.id)

def cursorAt (place : Position) : UsageCursor where
  startedAt := (ofLex place).1
  id := (ofLex place).2

structure UsageRecord where
  id : ℕ
  projectName : String
  purpose : Option CallPurpose
  taskId : Option String
  taskType : Option String
  mediaType : CallType
  provider : String
  model : String
  status : CallStatus
  errorCode : Option CallErrorCode
  errorParams : Option String
  errorMessage : Option String
  segmentId : Option String
  outputPath : Option String
  startedAt : Text
  finishedAt : Option Text
  durationMs : Option ℤ
  costAmount : ℚ
  currency : String
  inputTokens : Option ℤ
  outputTokens : Option ℤ
  usageTokens : Option ℤ
  imageInputTokens : Option ℤ
  imageOutputTokens : Option ℤ
  textInputTokens : Option ℤ
  textOutputTokens : Option ℤ
  resolution : Option String
  durationSeconds : Option ℤ
  aspectRatio : Option String
  sessionId : Option String

def recordIso (value : Time) : Text :=
  isoformat value

def recordToDict (row : ApiCall) (taskType : Option String) : UsageRecord where
  id := row.id
  projectName := row.projectName
  purpose := row.purpose
  taskId := row.taskId
  taskType
  mediaType := row.callType
  provider := row.provider
  model := row.model
  status := row.status
  errorCode := row.errorCode
  errorParams := row.errorParams
  errorMessage := row.errorMessage
  segmentId := row.segmentId
  outputPath := row.outputPath
  startedAt := recordIso row.startedAt
  finishedAt := row.finishedAt.map recordIso
  durationMs := row.durationMs
  costAmount := row.costAmount
  currency := row.currency
  inputTokens := row.inputTokens
  outputTokens := row.outputTokens
  usageTokens := row.usageTokens
  imageInputTokens := row.imageInputTokens
  imageOutputTokens := row.imageOutputTokens
  textInputTokens := row.textInputTokens
  textOutputTokens := row.textOutputTokens
  resolution := row.resolution
  durationSeconds := row.durationSeconds
  aspectRatio := row.aspectRatio
  sessionId := row.sessionId

structure RecordsPage where
  rows : List ApiCall
  items : List UsageRecord
  nextCursor : Option Text
  total : ℕ

/-- The outer join with `tasks`, whose key is `task_id`. -/
def taskTypeOf (store : Store) (row : ApiCall) : Option String :=
  (row.taskId.bind store.task?).map (·.taskType)

def listRecords (store : Store) (query : RecordsQuery) (cursor : Option UsageCursor) : RecordsPage :=
  let found := store.apiCalls.filter query.Matches
  let page := KeysetPages.page position query.limit (cursor.map UsageCursor.position) found
  { rows := page.items
    items := page.items.map fun row => recordToDict row (taskTypeOf store row)
    nextCursor := page.next.map fun place => (cursorAt place).encode
    total := found.length }

def listUsageRecords (store : Store) (query : RecordsQuery) (cursor : Option Text) :
    Except UsageCursorError RecordsPage :=
  match cursor.filter (· ≠ []) with
  | none => .ok (listRecords store query none)
  | some raw => (UsageCursor.decode raw).map fun cursor => listRecords store query (some cursor)

theorem lawful_payloadFloats : payloadFloats.Lawful :=
  ⟨fun _ => .inl ⟨rfl, rfl⟩⟩

theorem escapeChar_lt {c : ℕ} (h : c < 128) : ∀ d ∈ escapeChar c, d < 128 := by
  have hall : ∀ c < 128, ∀ d ∈ escapeChar c, d < 128 := by decide
  exact hall c h

theorem quote_lt {t : Text} (h : ∀ c ∈ t, c < 128) : ∀ c ∈ quote t, c < 128 := by
  intro c hc
  simp only [quote, escape, List.cons_append, List.mem_cons, List.mem_append, List.mem_flatMap,
    List.not_mem_nil, or_false] at hc
  rcases hc with rfl | ⟨d, hd, hc⟩ | rfl
  · decide
  · exact escapeChar_lt (h d hd) c hc
  · decide

theorem isDigit_lt {c : ℕ} (h : isDigit c = true) : c < 128 := by
  unfold isDigit at h
  rw [Bool.and_eq_true, decide_eq_true_eq, decide_eq_true_eq] at h
  omega

theorem padded_lt (width value : ℕ) : ∀ c ∈ padded width value, c < 128 :=
  fun _ hc => isDigit_lt (isDigit_padded hc)

theorem isoformat_lt (instant : ℤ) : ∀ c ∈ isoformat instant, c < 128 := by
  have hfraction : ∀ microsecond, ∀ c ∈ fractionText microsecond, c < 128 := by
    intro microsecond
    unfold fractionText
    split
    · exact List.forall_mem_nil _
    · exact List.forall_mem_append.mpr ⟨by decide, padded_lt _ _⟩
  simp only [isoformat, written, List.forall_mem_append]
  exact ⟨padded_lt _ _, by decide, padded_lt _ _, by decide, padded_lt _ _, by decide,
    padded_lt _ _, by decide, padded_lt _ _, by decide, padded_lt _ _, hfraction _, by decide⟩

theorem payload_lt (self : UsageCursor) :
    ∀ byte ∈ dumps payloadFloats.toText self.payload, byte < 128 := by
  have hstarted := quote_lt (isoformat_lt self.startedAt)
  have hid : ∀ c ∈ intText (self.id : ℤ), c < 128 :=
    fun _ hc => isDigit_lt (isDigit_of_mem_decimal hc)
  have hfirst : ∀ c ∈ quote (text "started_at"), c < 128 := quote_lt (by decide)
  have hsecond : ∀ c ∈ quote (text "id"), c < 128 := quote_lt (by decide)
  simp only [UsageCursor.payload, dumps, dumpsFields, commas, List.forall_mem_append,
    List.forall_mem_cons, List.cons_append]
  exact ⟨by decide, ⟨⟨hfirst, by decide, by decide, hstarted⟩, by decide, by decide,
    hsecond, by decide, by decide, hid⟩, by decide, List.forall_mem_nil _⟩

theorem UsageCursor.nodup_payload (self : UsageCursor) :
    (InsertionDict.keys [(text "started_at", Json.string (F := Unit) (isoformat self.startedAt)),
      (text "id", .int self.id)]).Nodup := by
  change [text "started_at", text "id"].Nodup
  decide

/-- A `datetime` can hold the instant, and an integer column the id. -/
structure UsageCursor.Storable (cursor : UsageCursor) : Prop where
  startOfTime_le : startOfTime ≤ cursor.startedAt
  lt_endOfTime : cursor.startedAt < endOfTime
  one_le : 1 ≤ cursor.id
  lt : cursor.id < 2 ^ 63

theorem loads_payload {self : UsageCursor} (h : self.Storable) :
    loads payloadFloats payloadDepth (dumps payloadFloats.toText self.payload) =
      some self.payload := by
  refine loads_dumps lawful_payloadFloats (.object self.nodup_payload ?_)
  have hsmall : (self.id : ℤ).natAbs < 10 ^ maxStrDigits :=
    Nat.lt_of_lt_of_le h.lt
      (Nat.le_trans (by decide : 2 ^ 63 ≤ 10 ^ 19) (Nat.pow_le_pow_right (by decide) (by decide)))
  intro field hfield
  simp only [List.mem_cons, List.not_mem_nil, or_false] at hfield
  rcases hfield with rfl | rfl
  · exact .string _ _
  · exact .int _ hsmall

theorem cursorOfPayload_payload {self : UsageCursor} (h : self.Storable) :
    cursorOfPayload self.payload = if self.id ≤ maxCursorId then some self else none := by
  have hstartedAt : InsertionDict.get
      [(text "started_at", Json.string (F := Unit) (isoformat self.startedAt)),
        (text "id", .int self.id)] (text "started_at") = some (.string (isoformat self.startedAt)) :=
    InsertionDict.get_eq_some_of_mem self.nodup_payload (by simp)
  have hid : InsertionDict.get
      [(text "started_at", Json.string (F := Unit) (isoformat self.startedAt)),
        (text "id", .int self.id)] (text "id") = some (.int self.id) :=
    InsertionDict.get_eq_some_of_mem self.nodup_payload (by simp)
  simp only [cursorOfPayload, UsageCursor.payload, hstartedAt, hid,
    fromisoformat_isoformat h.startOfTime_le h.lt_endOfTime]
  have hone := h.one_le
  split
  · rw [if_pos (by omega)]
    rfl
  · rw [if_neg (by omega)]

theorem decode_encode {self : UsageCursor} (h : self.Storable) :
    UsageCursor.decode self.encode =
      if self.id ≤ maxCursorId then .ok self else .error ⟨self.encode⟩ := by
  have hbytes : UrlSafeBase64.decode self.encode = some (dumps payloadFloats.toText self.payload) :=
    UrlSafeBase64.decode_encode fun byte hbyte =>
      Nat.lt_trans (payload_lt self byte hbyte) (by decide : 128 < 256)
  simp only [UsageCursor.decode, hbytes]
  rw [if_pos (payload_lt self), loads_payload h, Option.bind_some, cursorOfPayload_payload h]
  by_cases hid : self.id ≤ maxCursorId
  · rw [if_pos hid, if_pos hid]
  · rw [if_neg hid, if_neg hid]

theorem encode_ne_nil (self : UsageCursor) : self.encode ≠ [] := by
  have hpayload : dumps payloadFloats.toText self.payload ≠ [] := by
    simp [UsageCursor.payload, dumps]
  unfold UsageCursor.encode
  generalize dumps payloadFloats.toText self.payload = bytes at hpayload
  fun_cases UrlSafeBase64.encode bytes
  · exact absurd rfl hpayload
  all_goals exact List.cons_ne_nil _ _

theorem listUsageRecords_encode {self : UsageCursor} (h : self.Storable) (store : Store)
    (query : RecordsQuery) :
    listUsageRecords store query (some self.encode) =
      if self.id ≤ maxCursorId then .ok (listRecords store query (some self))
      else .error ⟨self.encode⟩ := by
  have hfilter : (some self.encode).filter (· ≠ []) = some self.encode :=
    Option.filter_some_pos (by simpa using encode_ne_nil self)
  simp only [listUsageRecords, hfilter, decode_encode h]
  split
  · rfl
  · rfl

end ShortReel.UsageRecords
