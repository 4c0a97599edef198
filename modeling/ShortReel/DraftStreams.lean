import ShortReel.EntryProjection
import ShortReel.InsertionDict
import ShortReel.LedgerFile
import ShortReel.TextSpaces

/-!
# Drafts of messages that are streamed

`DraftAccumulator` of `entry_pipeline.py` keeps the blocks of the message that is streamed and sends each
change as a delta; `applyDraftDelta` of `entry-projection.ts` builds the same blocks from the deltas, and
a client that comes back starts from a snapshot.
-/

namespace ShortReel.DraftStreams

open EntryProjection (truthy)
open InsertionDict LedgerFile TextSpaces

variable {ι ν : Type}

/-- What `json.loads`, `JSON.parse` and `str.isdigit` make of a text. An object is an `ι`. -/
structure Host (ι : Type) where
  /-- `{}` -/
  empty : ι
  /-- The object that is read, if one is; some texts raise. -/
  loads : String → Except Unit (Option ι)
  parse : String → Option ι
  isDigit : Char → Bool

inductive Value (ι ν : Type) where
  | dict (object : ι)
  | other (value : ν)

inductive Item where
  | dict (text : String)
  | other (text : String)

/-- The content of a result. What is neither a text nor a list is given by its `str`. -/
inductive Content where
  | str (text : String)
  | list (items : List Item)
  | null
  | other (text : String)

structure Block (ι ν : Type) where
  type : Option String
  text : Option String
  thinking : Option String
  id : Option String
  name : Option String
  input : Option (Value ι ν)
  toolUseId : Option String
  content : Option Content
  isError : Option Bool
  rest : Option ν

def Block.empty : Block ι ν where
  type := none
  text := none
  thinking := none
  id := none
  name := none
  input := none
  toolUseId := none
  content := none
  isError := none
  rest := none

/-- `{"type": "text", "text": ""}` -/
def freshText : Block ι ν :=
  { Block.empty with type := some "text", text := some "" }

/-- `{"type": "thinking", "thinking": ""}` -/
def freshThinking : Block ι ν :=
  { Block.empty with type := some "thinking", thinking := some "" }

/-- `{"type": "tool_use", "id": None, "name": "", "input": {}}` -/
def freshToolUse (host : Host ι) : Block ι ν :=
  { (Block.empty : Block ι ν) with
      type := some "tool_use", name := some "", input := some (.dict host.empty) }

def itemText : Item → String
  | .dict text => text
  | .other text => text

def stringifyContent : Option Content → String
  | some (.str text) => text
  | some (.list items) => "\n".intercalate (items.map itemText)
  | some .null => ""
  | some (.other text) => text
  | none => ""

def inferBlockType (block : Block ι ν) : String :=
  match truthy block.type with
  | some explicit => explicit
  | none =>
      if (truthy block.toolUseId).isSome ∧ (block.content.isSome ∨ block.isError.isSome) then "tool_result"
      else if (truthy block.id).isSome ∧ (truthy block.name).isSome ∧ block.input.isSome then "tool_use"
      else if block.thinking.isSome then "thinking"
      else if block.text.isSome then "text"
      else ""

def objectOf (host : Host ι) : Option (Value ι ν) → ι
  | some (.dict object) => object
  | _ => host.empty

def withDefaults (host : Host ι) (block : Block ι ν) (type : String) : Block ι ν :=
  if type = "text" then { block with text := some (block.text.getD "") }
  else if type = "thinking" then { block with thinking := some (block.thinking.getD "") }
  else if type = "tool_use" then { block with input := some (.dict (objectOf host block.input)) }
  else if type = "tool_result" then { block with content := some (.str (stringifyContent block.content)) }
  else block

/-- `normalize_block`, of a block that is an object. -/
def normalizeBlock (host : Host ι) (block : Block ι ν) : Block ι ν :=
  let inferred := inferBlockType block
  let type := if inferred ≠ "" then inferred else block.type.getD "text"
  withDefaults host { block with type := some type } type

/-- The `index` of an event. -/
inductive RawIndex where
  | bool (value : Bool)
  | int (value : ℤ)
  | text (text : String)
  | other

/-- The `delta` of an event; what is not a text is left out. -/
inductive Delta where
  | text (text : Option String)
  | thinking (thinking : Option String)
  | inputJson (partialJson : Option String)
  | other

inductive Event (ι ν : Type) where
  | messageStart (id : Option String)
  | contentBlockStart (index : RawIndex) (contentBlock : Option (Block ι ν))
  | contentBlockDelta (index : RawIndex) (delta : Option Delta)
  | other

structure StreamMessage (ι ν : Type) where
  event : Option (Event ι ν)
  parentToolUseId : Option String

def coerceIndex (host : Host ι) : RawIndex → Except Unit (Option ℤ)
  | .bool _ => .ok none
  | .int value => .ok (some value)
  | .text text =>
      let stripped := strip (fun c : Char => isSpace c.toNat) text.toList
      if stripped ≠ [] ∧ stripped.all host.isDigit then
        match parseDigits (String.ofList stripped) with
        | some value => .ok (some value)
        | none => .error ()
      else .ok none
  | .other => .ok none

structure DraftAccumulator (ι ν : Type) where
  messageId : Option String
  parentToolUseId : Option String
  blocks : Dict ℤ (Block ι ν)
  toolInputJson : Dict ℤ String
  rev : ℕ

def DraftAccumulator.init : DraftAccumulator ι ν where
  messageId := none
  parentToolUseId := none
  blocks := []
  toolInputJson := []
  rev := 0

inductive Change (ι ν : Type) where
  | blockStart (block : Block ι ν)
  | text (chunk : String)
  | thinking (chunk : String)
  | inputJson (chunk : String)

structure Payload (ι ν : Type) where
  messageId : String
  parentToolUseId : Option String
  blockIndex : ℤ
  rev : ℕ
  change : Change ι ν

namespace DraftAccumulator

variable (host : Host ι) (draft : DraftAccumulator ι ν)

def resolveIndex (index : RawIndex) : Except Unit ℤ :=
  match coerceIndex host index with
  | .error e => .error e
  | .ok (some value) => .ok value
  | .ok none => .ok ((keys draft.blocks).max?.getD 0)

/-- The change that an event brings, and the index of its block. A chunk that is empty brings none, nor
does an index that raises. -/
def readChange : Event ι ν → Option (ℤ × Change ι ν)
  | .contentBlockStart index contentBlock =>
      (draft.resolveIndex host index).toOption.map fun i =>
        (i, .blockStart (normalizeBlock host (contentBlock.getD freshText)))
  | .contentBlockDelta index (some (.text text)) =>
      (truthy text).bind fun chunk =>
        (draft.resolveIndex host index).toOption.map fun i => (i, .text chunk)
  | .contentBlockDelta index (some (.thinking thinking)) =>
      (truthy thinking).bind fun chunk =>
        (draft.resolveIndex host index).toOption.map fun i => (i, .thinking chunk)
  | .contentBlockDelta index (some (.inputJson partialJson)) =>
      (truthy partialJson).bind fun chunk =>
        (draft.resolveIndex host index).toOption.map fun i => (i, .inputJson chunk)
  | _ => none

def deltaPayload (messageId : String) (index : ℤ) (change : Change ι ν) :
    DraftAccumulator ι ν × Option (Payload ι ν) :=
  ({ draft with rev := draft.rev + 1 },
    some { messageId, parentToolUseId := draft.parentToolUseId, blockIndex := index
           rev := draft.rev + 1, change })

def ensureBlock (index : ℤ) (fresh : Block ι ν) : Block ι ν :=
  (get draft.blocks index).getD fresh

def putBlock (index : ℤ) (block : Block ι ν) : DraftAccumulator ι ν :=
  { draft with blocks := put draft.blocks index block }

def updatedJson (index : ℤ) (chunk : String) : String :=
  (get draft.toolInputJson index).getD "" ++ chunk

/-- What a change does to the blocks. When the text of an input raises, the delta is not sent. -/
def applyChange (messageId : String) (index : ℤ) (change : Change ι ν) :
    DraftAccumulator ι ν × Option (Payload ι ν) :=
  match change with
  | .blockStart block => (draft.putBlock index block).deltaPayload messageId index change
  | .text chunk =>
      let block := draft.ensureBlock index freshText
      let block := { block with type := some "text", text := some (block.text.getD "" ++ chunk) }
      (draft.putBlock index block).deltaPayload messageId index change
  | .thinking chunk =>
      let block := draft.ensureBlock index freshThinking
      let block :=
        { block with type := some "thinking", thinking := some (block.thinking.getD "" ++ chunk) }
      (draft.putBlock index block).deltaPayload messageId index change
  | .inputJson chunk =>
      let block := draft.ensureBlock index (freshToolUse host)
      let updated := draft.updatedJson index chunk
      let input := match host.loads updated with
        | .ok (some object) => object
        | _ => objectOf host block.input
      let block := { block with type := some "tool_use", input := some (.dict input) }
      let draft := { draft.putBlock index block with
        toolInputJson := put draft.toolInputJson index updated }
      match host.loads updated with
      | .error _ => (draft, none)
      | .ok _ => draft.deltaPayload messageId index change

def applyEvent (parentToolUseId : Option String) (event : Event ι ν) :
    DraftAccumulator ι ν × Option (Payload ι ν) :=
  match draft.messageId with
  | none => (draft, none)
  | some messageId =>
      if truthy parentToolUseId ≠ draft.parentToolUseId then (draft, none)
      else
        match draft.readChange host event with
        | some (index, change) => draft.applyChange host messageId index change
        | none => (draft, none)

/-- `apply_stream_event`. The caller logs what raises, and nothing is sent. -/
def applyStreamEvent (message : StreamMessage ι ν) : DraftAccumulator ι ν × Option (Payload ι ν) :=
  match message.event with
  | none => (draft, none)
  | some (.messageStart id) =>
      ({ draft with
          messageId := truthy id, parentToolUseId := truthy message.parentToolUseId
          blocks := [], toolInputJson := [] }, none)
  | some event => draft.applyEvent host message.parentToolUseId event

def clear : DraftAccumulator ι ν :=
  { draft with blocks := [], toolInputJson := [], messageId := none, parentToolUseId := none }

def clearForMessage (messageId : Option String) : DraftAccumulator ι ν :=
  match truthy messageId with
  | some id => if draft.messageId = some id then draft.clear else draft
  | none => draft

end DraftAccumulator

structure Snapshot (ι ν : Type) where
  messageId : String
  parentToolUseId : Option String
  content : List (Block ι ν)
  rev : ℕ
  toolJson : Dict ℤ String

def sortedBlocks (blocks : Dict ℤ (Block ι ν)) : Dict ℤ (Block ι ν) :=
  blocks.insertionSort fun a b => a.1 ≤ b.1

def DraftAccumulator.snapshot (draft : DraftAccumulator ι ν) : Option (Snapshot ι ν) :=
  match draft.messageId with
  | none => none
  | some messageId =>
      if draft.blocks = [] then none
      else some {
        messageId, parentToolUseId := draft.parentToolUseId
        content := (sortedBlocks draft.blocks).map Prod.snd
        rev := draft.rev, toolJson := draft.toolInputJson }

/-- What an array keeps when it is spread: the elements, and no other property. -/
def IsArrayIndex (index : ℤ) : Prop :=
  0 ≤ index ∧ index < 4294967295

instance (index : ℤ) : Decidable (IsArrayIndex index) :=
  inferInstanceAs (Decidable (0 ≤ index ∧ index < 4294967295))

/-- An array with holes: what is written at an index that no array has is a property of it. -/
structure DraftMirror (ι ν : Type) where
  messageId : String
  parentToolUseId : Option String
  content : Dict ℤ (Block ι ν)
  toolJson : Dict ℤ String

def spread (content : Dict ℤ (Block ι ν)) : Dict ℤ (Block ι ν) :=
  content.filter fun item => IsArrayIndex item.1

def mirrorBase (draft : Option (DraftMirror ι ν)) (payload : Payload ι ν) : DraftMirror ι ν :=
  match draft.filter (·.messageId = payload.messageId) with
  | some draft => { draft with content := spread draft.content }
  | none =>
      { messageId := payload.messageId, parentToolUseId := payload.parentToolUseId
        content := [], toolJson := [] }

def DraftMirror.blockOf (draft : DraftMirror ι ν) (index : ℤ) (type : String) (fresh : Block ι ν) :
    Block ι ν :=
  ((get draft.content index).filter (·.type = some type)).getD fresh

def applyDraftDelta (host : Host ι) (draft : Option (DraftMirror ι ν)) (payload : Payload ι ν) :
    DraftMirror ι ν :=
  let base := mirrorBase draft payload
  let index := payload.blockIndex
  match payload.change with
  | .blockStart block => { base with content := put base.content index block }
  | .text chunk =>
      let block := base.blockOf index "text" freshText
      let block := { block with text := some (block.text.getD "" ++ chunk) }
      { base with content := put base.content index block }
  | .thinking chunk =>
      let block := base.blockOf index "thinking" freshThinking
      let block := { block with thinking := some (block.thinking.getD "" ++ chunk) }
      { base with content := put base.content index block }
  | .inputJson chunk =>
      let block := base.blockOf index "tool_use" (freshToolUse host)
      let updated := (get base.toolJson index).getD "" ++ chunk
      let block := match host.parse updated with
        | some object => { block with input := some (.dict object) }
        | none => block
      { base with content := put base.content index block, toolJson := put base.toolJson index updated }

/-- `setDraftSnapshot`: the blocks are at their places in the list. -/
def mirrorOf (snapshot : Snapshot ι ν) : DraftMirror ι ν where
  messageId := snapshot.messageId
  parentToolUseId := snapshot.parentToolUseId
  content := snapshot.content.zipIdx.map fun item => ((item.2 : ℤ), item.1)
  toolJson := snapshot.toolJson

end ShortReel.DraftStreams
