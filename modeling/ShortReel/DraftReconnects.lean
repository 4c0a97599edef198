import ShortReel.DraftStreams

/-!
# Clients of a draft

A client that is there from the start of a message and one that comes back in the middle of it see what
the server has, as long as the blocks change as both sides expect.
-/

namespace ShortReel.DraftStreams

open EntryProjection (truthy)
open InsertionDict

variable {ι ν : Type}

inductive Action (ι ν : Type) where
  | stream (message : StreamMessage ι ν)
  | clear
  | clearForMessage (messageId : Option String)

def DraftAccumulator.act (host : Host ι) (draft : DraftAccumulator ι ν) :
    Action ι ν → DraftAccumulator ι ν × Option (Payload ι ν)
  | .stream message => draft.applyStreamEvent host message
  | .clear => (draft.clear, none)
  | .clearForMessage messageId => (draft.clearForMessage messageId, none)

def run (host : Host ι) (actions : List (Action ι ν)) :
    DraftAccumulator ι ν × List (Payload ι ν) :=
  actions.foldl (fun state action =>
    ((state.1.act host action).1, state.2 ++ (state.1.act host action).2.toList))
    (DraftAccumulator.init, [])

def Action.started : Action ι ν → Option String
  | .stream { event := some (.messageStart id), .. } => truthy id
  | _ => none

def connected (host : Host ι) (messageId : String) (actions : List (Action ι ν)) :
    Option (DraftMirror ι ν) :=
  ((run host actions).2.filter (·.messageId = messageId)).foldl
    (fun draft payload => some (applyDraftDelta host draft payload)) none

/-- A client that comes back behind the first actions, and has the later deltas of the message that is
current then. -/
def reconnected (host : Host ι) (before after : List (Action ι ν)) : Option (DraftMirror ι ν) :=
  let draft := (run host before).1
  ((run host (before ++ after)).2.filter fun payload =>
      some payload.messageId = draft.messageId ∧ draft.rev < payload.rev).foldl
    (fun draft payload => some (applyDraftDelta host draft payload)) (draft.snapshot.map mirrorOf)

inductive Shown (ι ν : Type) where
  | text (text : String)
  | thinking (thinking : String)
  | input (input : Option (Value ι ν))
  | other (type : Option String)

def Block.shown (block : Block ι ν) : Shown ι ν :=
  if block.type = some "text" then .text (block.text.getD "")
  else if block.type = some "thinking" then .thinking (block.thinking.getD "")
  else if block.type = some "tool_use" then .input block.input
  else .other block.type

def Agrees (draft : DraftAccumulator ι ν) (mirror : Option (DraftMirror ι ν)) : Prop :=
  ∀ index, (get draft.blocks index).map Block.shown =
    (mirror.bind fun mirror => get mirror.content index).map Block.shown

/-- At each later delta of the message, both clients see what the server has. -/
def Following (host : Host ι) (before after : List (Action ι ν)) : Prop :=
  ∀ front action payload, front ++ [action] <+: after →
    ((run host (before ++ front)).1.act host action).2 = some payload →
    some payload.messageId = (run host before).1.messageId →
      Agrees (run host (before ++ (front ++ [action]))).1 (reconnected host before (front ++ [action])) ∧
        Agrees (run host (before ++ (front ++ [action]))).1
          (connected host payload.messageId (before ++ (front ++ [action])))

/-- A change that both sides make alike: at an index of an array, and of a block that has another type
only when nothing of its new type is left in it. -/
def DraftAccumulator.Fits (host : Host ι) (draft : DraftAccumulator ι ν) (index : ℤ) :
    Change ι ν → Prop
  | .blockStart _ => IsArrayIndex index
  | .text _ => IsArrayIndex index ∧ ∀ block, get draft.blocks index = some block →
      block.type ≠ some "text" → block.text.getD "" = ""
  | .thinking _ => IsArrayIndex index ∧ ∀ block, get draft.blocks index = some block →
      block.type ≠ some "thinking" → block.thinking.getD "" = ""
  | .inputJson chunk => IsArrayIndex index ∧
      host.loads (draft.updatedJson index chunk) = .ok (host.parse (draft.updatedJson index chunk)) ∧
      ∀ block, get draft.blocks index = some block → block.type ≠ some "tool_use" →
        host.parse (draft.updatedJson index chunk) = none → objectOf host block.input = host.empty

/-- An action whose change, if it is one of the current message, both sides make alike. -/
def Action.Fits (host : Host ι) (draft : DraftAccumulator ι ν) : Action ι ν → Prop
  | .stream message => draft.messageId.isSome →
      truthy message.parentToolUseId = draft.parentToolUseId → ∀ event, message.event = some event →
        ∀ index change, draft.readChange host event = some (index, change) → draft.Fits host index change
  | _ => True

def Fitting (host : Host ι) (actions : List (Action ι ν)) : Prop :=
  ∀ front action, front ++ [action] <+: actions → action.Fits host (run host front).1

def DraftAccumulator.Filled (draft : DraftAccumulator ι ν) : Prop :=
  ∀ index, index ∈ keys draft.blocks ↔ 0 ≤ index ∧ index < draft.blocks.length

section Blocks

variable {block block' : Block ι ν}

def Shown.type : Shown ι ν → Option String
  | .text _ => some "text"
  | .thinking _ => some "thinking"
  | .input _ => some "tool_use"
  | .other type => type

theorem shown_type (block : Block ι ν) : block.shown.type = block.type := by
  unfold Block.shown
  split_ifs with htext hthinking htool
  · exact htext.symm
  · exact hthinking.symm
  · exact htool.symm
  · rfl

theorem type_eq (h : block.shown = block'.shown) : block.type = block'.type := by
  rw [← shown_type, h, shown_type]

theorem shown_text (h : block.type = some "text") : block.shown = .text (block.text.getD "") :=
  if_pos h

theorem shown_thinking (h : block.type = some "thinking") :
    block.shown = .thinking (block.thinking.getD "") := by
  unfold Block.shown
  rw [h]
  rfl

theorem shown_input (h : block.type = some "tool_use") : block.shown = .input block.input := by
  unfold Block.shown
  rw [h]
  rfl

theorem text_eq (h : block.shown = block'.shown) (htype : block.type = some "text") :
    block.text.getD "" = block'.text.getD "" := by
  have htype' := (type_eq h).symm.trans htype
  rw [shown_text htype, shown_text htype'] at h
  exact Shown.text.inj h

theorem thinking_eq (h : block.shown = block'.shown) (htype : block.type = some "thinking") :
    block.thinking.getD "" = block'.thinking.getD "" := by
  have htype' := (type_eq h).symm.trans htype
  rw [shown_thinking htype, shown_thinking htype'] at h
  exact Shown.thinking.inj h

theorem input_eq (h : block.shown = block'.shown) (htype : block.type = some "tool_use") :
    block.input = block'.input := by
  have htype' := (type_eq h).symm.trans htype
  rw [shown_input htype, shown_input htype'] at h
  exact Shown.input.inj h

end Blocks

/-- The input of a tool use is an object, and no text of an input is kept without its block. -/
structure DraftAccumulator.Sound (draft : DraftAccumulator ι ν) : Prop where
  nodup : (keys draft.blocks).Nodup
  array : ∀ item ∈ draft.blocks, IsArrayIndex item.1
  input : ∀ index block, get draft.blocks index = some block → block.type = some "tool_use" →
    ∃ object, block.input = some (.dict object)
  json : draft.blocks = [] → draft.toolInputJson = []

theorem sound_of_empty {draft : DraftAccumulator ι ν} (hblocks : draft.blocks = [])
    (hjson : draft.toolInputJson = []) : draft.Sound := by
  refine ⟨?_, ?_, ?_, fun _ => hjson⟩
  · rw [hblocks]
    exact List.nodup_nil
  · rw [hblocks]
    intro item hitem
    cases hitem
  · intro index block hblock
    rw [hblocks] at hblock
    cases hblock

section Changes

variable {host : Host ι} {draft : DraftAccumulator ι ν} {messageId : String} {index : ℤ}
  {change : Change ι ν}

def nextInput (host : Host ι) (updated : String) (block : Block ι ν) : ι :=
  (host.parse updated).getD (objectOf host block.input)

def DraftAccumulator.written (host : Host ι) (draft : DraftAccumulator ι ν) (index : ℤ) :
    Change ι ν → Block ι ν
  | .blockStart block => block
  | .text chunk =>
      let block := draft.ensureBlock index freshText
      { block with type := some "text", text := some (block.text.getD "" ++ chunk) }
  | .thinking chunk =>
      let block := draft.ensureBlock index freshThinking
      { block with type := some "thinking", thinking := some (block.thinking.getD "" ++ chunk) }
  | .inputJson chunk =>
      let block := draft.ensureBlock index (freshToolUse host)
      { block with
        type := some "tool_use"
        input := some (.dict (nextInput host (draft.updatedJson index chunk) block)) }

def DraftAccumulator.writtenJson (draft : DraftAccumulator ι ν) (index : ℤ) :
    Change ι ν → Dict ℤ String
  | .inputJson chunk => put draft.toolInputJson index (draft.updatedJson index chunk)
  | _ => draft.toolInputJson

theorem applyChange_eq (hfits : draft.Fits host index change) :
    draft.applyChange host messageId index change =
      ({ draft with
          blocks := put draft.blocks index (draft.written host index change)
          toolInputJson := draft.writtenJson index change, rev := draft.rev + 1 },
        some { messageId, parentToolUseId := draft.parentToolUseId, blockIndex := index
               rev := draft.rev + 1, change }) := by
  cases change with
  | blockStart block => rfl
  | text chunk => rfl
  | thinking chunk => rfl
  | inputJson chunk =>
      obtain ⟨-, hloads, -⟩ := hfits
      unfold DraftAccumulator.applyChange DraftAccumulator.written nextInput
      dsimp only
      rw [hloads]
      cases host.parse (draft.updatedJson index chunk) <;> rfl

theorem fits_array (hfits : draft.Fits host index change) : IsArrayIndex index := by
  cases change with
  | blockStart block => exact hfits
  | text chunk => exact hfits.1
  | thinking chunk => exact hfits.1
  | inputJson chunk => exact hfits.1

/-- A block that is started has an input that is an object, when it is a tool use. -/
def Change.Normal : Change ι ν → Prop
  | .blockStart block => block.type = some "tool_use" → ∃ object, block.input = some (.dict object)
  | _ => True

theorem withDefaults_input {block : Block ι ν} {type : String} (hblock : block.type = some type)
    (htype : (withDefaults host block type).type = some "tool_use") :
    ∃ object, (withDefaults host block type).input = some (.dict object) := by
  have hkept : (withDefaults host block type).type = block.type := by
    unfold withDefaults
    split_ifs <;> rfl
  obtain rfl := Option.some.inj ((hblock.symm.trans hkept.symm).trans htype)
  exact ⟨_, rfl⟩

theorem normalizeBlock_input {block : Block ι ν}
    (htype : (normalizeBlock host block).type = some "tool_use") :
    ∃ object, (normalizeBlock host block).input = some (.dict object) :=
  withDefaults_input rfl htype

theorem readChange_normal {event : Event ι ν} (hread : draft.readChange host event = some (index, change)) :
    change.Normal := by
  cases change with
  | blockStart block =>
      intro htype
      cases event with
      | contentBlockStart i contentBlock =>
          obtain ⟨_, -, hsame⟩ := Option.map_eq_some_iff.mp hread
          obtain ⟨-, hblock⟩ := Prod.mk.inj hsame
          cases hblock
          exact normalizeBlock_input htype
      | contentBlockDelta i delta =>
          -- a delta starts no block
          have hother : ∀ (text : Option String) (f : String → Change ι ν),
              (∀ chunk, f chunk ≠ .blockStart block) →
              ((truthy text).bind fun chunk => (draft.resolveIndex host i).toOption.map fun i =>
                (i, f chunk)) ≠ some (index, .blockStart block) := by
            intro text f hf hsome
            obtain ⟨chunk, -, hmap⟩ := Option.bind_eq_some_iff.mp hsome
            obtain ⟨_, -, hsame⟩ := Option.map_eq_some_iff.mp hmap
            exact hf chunk (Prod.mk.inj hsame).2
          cases delta with
          | none => cases hread
          | some delta =>
              cases delta with
              | text text => exact absurd hread (hother text .text fun _ h => by cases h)
              | thinking text => exact absurd hread (hother text .thinking fun _ h => by cases h)
              | inputJson text => exact absurd hread (hother text .inputJson fun _ h => by cases h)
              | other => cases hread
      | messageStart id => cases hread
      | other => cases hread
  | text chunk => trivial
  | thinking chunk => trivial
  | inputJson chunk => trivial

theorem written_input (hnormal : change.Normal)
    (htype : (draft.written host index change).type = some "tool_use") :
    ∃ object, (draft.written host index change).input = some (.dict object) := by
  cases change with
  | blockStart block => exact hnormal htype
  | text chunk => exact absurd (Option.some.inj htype) (by decide)
  | thinking chunk => exact absurd (Option.some.inj htype) (by decide)
  | inputJson chunk => exact ⟨_, rfl⟩

theorem put_ne_nil {κ α : Type} [DecidableEq κ] (dict : Dict κ α) (key : κ) (value : α) :
    put dict key value ≠ [] := by
  intro hempty
  have hmem : key ∈ keys (put dict key value) := mem_keys_put.mpr (Or.inr rfl)
  rw [hempty] at hmem
  cases hmem

theorem applyChange_sound (hsound : draft.Sound) (hnormal : change.Normal)
    (hfits : draft.Fits host index change) :
    (draft.applyChange host messageId index change).1.Sound := by
  rw [applyChange_eq hfits]
  refine ⟨nodup_put hsound.nodup, ?_, ?_, fun hempty => absurd hempty (put_ne_nil _ _ _)⟩
  · intro item hitem
    rcases mem_put hitem with rfl | hold
    · exact fits_array hfits
    · exact hsound.array item hold
  · intro i block hblock htype
    dsimp only at hblock
    rw [get_put] at hblock
    split_ifs at hblock
    · obtain rfl := Option.some.inj hblock
      exact written_input hnormal htype
    · exact hsound.input i block hblock htype

end Changes

/-- A client that has the blocks of the server, as they are shown, and the texts of their inputs. -/
structure Tracks (draft : DraftAccumulator ι ν) (messageId : String)
    (mirror : Option (DraftMirror ι ν)) : Prop where
  id : ∀ m, mirror = some m → m.messageId = messageId
  array : ∀ m, mirror = some m → ∀ item ∈ m.content, IsArrayIndex item.1
  blocks : Agrees draft mirror
  json : ∀ index, get draft.toolInputJson index = mirror.bind fun m => get m.toolJson index

section Tracking

variable {host : Host ι} {draft : DraftAccumulator ι ν} {messageId : String} {index : ℤ}
  {change : Change ι ν} {mirror : Option (DraftMirror ι ν)}

theorem tracks_none (hblocks : draft.blocks = []) (hjson : draft.toolInputJson = []) :
    Tracks draft messageId none := by
  refine ⟨?_, ?_, fun i => ?_, fun i => ?_⟩
  · intro m hm
    cases hm
  · intro m hm
    cases hm
  · rw [hblocks]
    rfl
  · rw [hjson]
    rfl

theorem mirrorBase_tracks (h : Tracks draft messageId mirror) (payload : Payload ι ν)
    (hid : payload.messageId = messageId) : Tracks draft messageId (some (mirrorBase mirror payload)) := by
  cases mirror with
  | none =>
      refine ⟨?_, ?_, fun i => ?_, fun i => ?_⟩
      · rintro _ ⟨⟩
        exact hid
      · rintro _ ⟨⟩ item hitem
        cases hitem
      · exact h.blocks i
      · exact h.json i
  | some m =>
      have hsame : mirrorBase (some m) payload = { m with content := spread m.content } := by
        unfold mirrorBase
        rw [Option.filter_some, if_pos (decide_eq_true ((h.id m rfl).trans hid.symm))]
      have hspread : spread m.content = m.content :=
        List.filter_eq_self.mpr fun item hitem => decide_eq_true (h.array m rfl item hitem)
      rw [hsame, hspread]
      exact h

def DraftMirror.written (host : Host ι) (base : DraftMirror ι ν) (index : ℤ) :
    Change ι ν → Block ι ν
  | .blockStart block => block
  | .text chunk =>
      let block := base.blockOf index "text" freshText
      { block with text := some (block.text.getD "" ++ chunk) }
  | .thinking chunk =>
      let block := base.blockOf index "thinking" freshThinking
      { block with thinking := some (block.thinking.getD "" ++ chunk) }
  | .inputJson chunk =>
      let block := base.blockOf index "tool_use" (freshToolUse host)
      match host.parse ((get base.toolJson index).getD "" ++ chunk) with
      | some object => { block with input := some (.dict object) }
      | none => block

def DraftMirror.writtenJson (base : DraftMirror ι ν) (index : ℤ) : Change ι ν → Dict ℤ String
  | .inputJson chunk => put base.toolJson index ((get base.toolJson index).getD "" ++ chunk)
  | _ => base.toolJson

theorem applyDraftDelta_eq (payload : Payload ι ν) :
    applyDraftDelta host mirror payload = { mirrorBase mirror payload with
      content := put (mirrorBase mirror payload).content payload.blockIndex
        ((mirrorBase mirror payload).written host payload.blockIndex payload.change)
      toolJson := (mirrorBase mirror payload).writtenJson payload.blockIndex payload.change } := by
  unfold applyDraftDelta
  cases payload.change <;> rfl

theorem blockOf_cases {base : DraftMirror ι ν} (h : Agrees draft (some base)) (type : String)
    (fresh : Block ι ν) :
    (get draft.blocks index = none ∧ base.blockOf index type fresh = fresh) ∨
      ∃ block, get draft.blocks index = some block ∧
        (block.type ≠ some type ∧ base.blockOf index type fresh = fresh ∨
          block.type = some type ∧ (base.blockOf index type fresh).shown = block.shown) := by
  have hat : (get draft.blocks index).map Block.shown = (get base.content index).map Block.shown :=
    h index
  unfold DraftMirror.blockOf
  cases hserver : get draft.blocks index with
  | none =>
      rw [hserver] at hat
      rw [Option.map_eq_none_iff.mp hat.symm]
      exact Or.inl ⟨rfl, rfl⟩
  | some block =>
      rw [hserver] at hat
      obtain ⟨block', hclient, hshown⟩ := Option.map_eq_some_iff.mp hat.symm
      refine Or.inr ⟨block, rfl, ?_⟩
      rw [hclient, Option.filter_some]
      by_cases htype : block.type = some type
      · refine Or.inr ⟨htype, ?_⟩
        rw [if_pos (decide_eq_true ((type_eq hshown).trans htype))]
        exact hshown
      · refine Or.inl ⟨htype, ?_⟩
        rw [if_neg fun hsame => htype ((type_eq hshown).symm.trans (of_decide_eq_true hsame))]
        rfl

theorem written_shown {base : DraftMirror ι ν} (h : Tracks draft messageId (some base))
    (hsound : draft.Sound) (hfits : draft.Fits host index change) :
    (base.written host index change).shown = (draft.written host index change).shown := by
  cases change with
  | blockStart block => rfl
  | text chunk =>
      have hsame : (base.blockOf index "text" freshText).type = some "text" ∧
          (base.blockOf index "text" freshText).text.getD "" =
            (draft.ensureBlock index freshText).text.getD "" := by
        unfold DraftAccumulator.ensureBlock
        rcases blockOf_cases h.blocks "text" freshText with
          ⟨hnone, hfresh⟩ | ⟨block, hsome, ⟨htype, hfresh⟩ | ⟨htype, hshown⟩⟩
        · rw [hnone, hfresh]
          exact ⟨rfl, rfl⟩
        · rw [hsome, hfresh, Option.getD_some, hfits.2 block hsome htype]
          exact ⟨rfl, rfl⟩
        · rw [hsome, Option.getD_some]
          exact ⟨(type_eq hshown).trans htype, text_eq hshown ((type_eq hshown).trans htype)⟩
      have hclient : (base.written host index (.text chunk)).shown =
          .text ((base.blockOf index "text" freshText).text.getD "" ++ chunk) := shown_text hsame.1
      have hserver : (draft.written host index (.text chunk)).shown =
          .text ((draft.ensureBlock index freshText).text.getD "" ++ chunk) := shown_text rfl
      rw [hclient, hserver, hsame.2]
  | thinking chunk =>
      have hsame : (base.blockOf index "thinking" freshThinking).type = some "thinking" ∧
          (base.blockOf index "thinking" freshThinking).thinking.getD "" =
            (draft.ensureBlock index freshThinking).thinking.getD "" := by
        unfold DraftAccumulator.ensureBlock
        rcases blockOf_cases h.blocks "thinking" freshThinking with
          ⟨hnone, hfresh⟩ | ⟨block, hsome, ⟨htype, hfresh⟩ | ⟨htype, hshown⟩⟩
        · rw [hnone, hfresh]
          exact ⟨rfl, rfl⟩
        · rw [hsome, hfresh, Option.getD_some, hfits.2 block hsome htype]
          exact ⟨rfl, rfl⟩
        · rw [hsome, Option.getD_some]
          exact ⟨(type_eq hshown).trans htype, thinking_eq hshown ((type_eq hshown).trans htype)⟩
      have hclient : (base.written host index (.thinking chunk)).shown =
          .thinking ((base.blockOf index "thinking" freshThinking).thinking.getD "" ++ chunk) :=
            shown_thinking hsame.1
      have hserver : (draft.written host index (.thinking chunk)).shown =
          .thinking ((draft.ensureBlock index freshThinking).thinking.getD "" ++ chunk) := shown_thinking rfl
      rw [hclient, hserver, hsame.2]
  | inputJson chunk =>
      have hjson : (get base.toolJson index).getD "" ++ chunk = draft.updatedJson index chunk := by
        unfold DraftAccumulator.updatedJson
        rw [h.json index]
        rfl
      have htype' : (base.blockOf index "tool_use" (freshToolUse host)).type = some "tool_use" := by
        rcases blockOf_cases h.blocks "tool_use" (freshToolUse host) with
          ⟨-, hfresh⟩ | ⟨block, -, ⟨-, hfresh⟩ | ⟨htype, hshown⟩⟩
        · rw [hfresh]
          rfl
        · rw [hfresh]
          rfl
        · exact (type_eq hshown).trans htype
      have hinput : host.parse (draft.updatedJson index chunk) = none →
          (base.blockOf index "tool_use" (freshToolUse host)).input =
            some (.dict (objectOf host (draft.ensureBlock index (freshToolUse host)).input)) := by
        intro hparse
        unfold DraftAccumulator.ensureBlock
        rcases blockOf_cases h.blocks "tool_use" (freshToolUse host) with
          ⟨hnone, hfresh⟩ | ⟨block, hsome, ⟨htype, hfresh⟩ | ⟨htype, hshown⟩⟩
        · rw [hnone, hfresh]
          rfl
        · rw [hsome, hfresh, Option.getD_some, hfits.2.2 block hsome htype hparse]
          rfl
        · obtain ⟨object, hobject⟩ := hsound.input index block hsome htype
          rw [hsome, Option.getD_some, input_eq hshown ((type_eq hshown).trans htype), hobject]
          rfl
      have hserver : (draft.written host index (.inputJson chunk)).shown =
          .input (some (.dict (nextInput host (draft.updatedJson index chunk)
            (draft.ensureBlock index (freshToolUse host))))) := shown_input rfl
      rw [hserver]
      unfold DraftMirror.written nextInput
      dsimp only
      rw [hjson]
      cases hparse : host.parse (draft.updatedJson index chunk) with
      | none => exact (shown_input htype').trans (congrArg Shown.input (hinput hparse))
      | some object => exact shown_input htype'

theorem applyDraftDelta_tracks {payload : Payload ι ν} (h : Tracks draft messageId mirror)
    (hsound : draft.Sound) (hfits : draft.Fits host index change) (hid : payload.messageId = messageId)
    (hindex : payload.blockIndex = index) (hchange : payload.change = change) :
    Tracks (draft.applyChange host messageId index change).1 messageId
      (some (applyDraftDelta host mirror payload)) := by
  subst hindex
  subst hchange
  have hbase := mirrorBase_tracks h payload hid
  rw [applyChange_eq hfits, applyDraftDelta_eq]
  refine ⟨?_, ?_, fun i => ?_, fun i => ?_⟩
  · rintro _ ⟨⟩
    change (mirrorBase mirror payload).messageId = messageId
    exact hbase.id _ rfl
  · rintro _ ⟨⟩ item hitem
    rcases mem_put hitem with rfl | hold
    · exact fits_array hfits
    · exact hbase.array _ rfl item hold
  · change (get (put _ _ _) i).map _ = (get (put _ _ _) i).map _
    rw [get_put, get_put]
    split_ifs
    · rw [Option.map_some, Option.map_some, written_shown hbase hsound hfits]
    · exact hbase.blocks i
  · have hjson : ∀ j, get draft.toolInputJson j = get (mirrorBase mirror payload).toolJson j := hbase.json
    change get (draft.writtenJson _ _) i = get ((mirrorBase mirror payload).writtenJson _ _) i
    cases payload.change with
    | inputJson chunk =>
        unfold DraftAccumulator.writtenJson DraftMirror.writtenJson DraftAccumulator.updatedJson
        dsimp only
        rw [get_put, get_put, hjson, hjson]
    | blockStart block => exact hjson i
    | text chunk => exact hjson i
    | thinking chunk => exact hjson i

end Tracking

section Actions

variable {host : Host ι} {draft : DraftAccumulator ι ν} {action : Action ι ν} {messageId : String}

theorem clearForMessage_cases (messageId : Option String) :
    draft.clearForMessage messageId = draft ∨ draft.clearForMessage messageId = draft.clear := by
  unfold DraftAccumulator.clearForMessage
  cases truthy messageId with
  | none => exact Or.inl rfl
  | some id =>
      dsimp only
      split_ifs
      · exact Or.inr rfl
      · exact Or.inl rfl

theorem applyEvent_cases {parentToolUseId : Option String} {event : Event ι ν}
    (hfits : draft.messageId.isSome → truthy parentToolUseId = draft.parentToolUseId →
      ∀ index change, draft.readChange host event = some (index, change) → draft.Fits host index change) :
    draft.applyEvent host parentToolUseId event = (draft, none) ∨
      ∃ id index change, draft.messageId = some id ∧ Change.Normal change ∧
        draft.Fits host index change ∧
        draft.applyEvent host parentToolUseId event = draft.applyChange host id index change := by
  unfold DraftAccumulator.applyEvent
  cases hid : draft.messageId with
  | none => exact Or.inl rfl
  | some id =>
      dsimp only
      split_ifs with hparent
      · exact Or.inl rfl
      · cases hread : draft.readChange host event with
        | none => exact Or.inl rfl
        | some pair =>
            obtain ⟨index, change⟩ := pair
            refine Or.inr ⟨id, index, change, rfl, readChange_normal hread, ?_, rfl⟩
            exact hfits (hid ▸ rfl) (not_not.mp hparent) index change hread

theorem act_cases (hfits : action.Fits host draft) :
    draft.act host action = (draft, none) ∨
      (∃ draft', draft.act host action = (draft', none) ∧ draft'.blocks = [] ∧
        draft'.toolInputJson = [] ∧ draft'.rev = draft.rev ∧ draft'.messageId = action.started) ∨
      ∃ id index change, draft.messageId = some id ∧ Change.Normal change ∧
        draft.Fits host index change ∧
        draft.act host action = draft.applyChange host id index change := by
  cases action with
  | clear => exact Or.inr (Or.inl ⟨draft.clear, rfl, rfl, rfl, rfl, rfl⟩)
  | clearForMessage messageId =>
      change (draft.clearForMessage messageId, none) = (draft, none) ∨ _
      rcases @clearForMessage_cases ι ν draft messageId with hsame | hclear
      · exact Or.inl (congrArg (·, none) hsame)
      · exact Or.inr (Or.inl ⟨draft.clear, congrArg (·, none) hclear, rfl, rfl, rfl, rfl⟩)
  | stream message =>
      obtain ⟨event, parentToolUseId⟩ := message
      have hother : ∀ event', event = some event' →
          draft.applyEvent host parentToolUseId event' = (draft, none) ∨
            ∃ id index change, draft.messageId = some id ∧ Change.Normal change ∧
              draft.Fits host index change ∧
              draft.applyEvent host parentToolUseId event' = draft.applyChange host id index change :=
        fun event' hevent => applyEvent_cases fun hid hparent => hfits hid hparent event' hevent
      cases event with
      | none => exact Or.inl rfl
      | some event =>
          cases event with
          | messageStart id => exact Or.inr (Or.inl ⟨_, rfl, rfl, rfl, rfl, rfl⟩)
          | contentBlockStart index block => exact (hother _ rfl).imp_right Or.inr
          | contentBlockDelta index delta => exact (hother _ rfl).imp_right Or.inr
          | other => exact (hother _ rfl).imp_right Or.inr

def receive (host : Host ι) (mirror : Option (DraftMirror ι ν)) (payload : Option (Payload ι ν)) :
    Option (DraftMirror ι ν) :=
  payload.toList.foldl (fun mirror payload => some (applyDraftDelta host mirror payload)) mirror

structure Continues (host : Host ι) (draft : DraftAccumulator ι ν) (action : Action ι ν)
    (messageId : String) : Prop where
  current : draft.messageId = some messageId
  tracks : ∀ mirror, Tracks draft messageId mirror →
    Tracks (draft.act host action).1 messageId (receive host mirror (draft.act host action).2)
  sent : ∀ payload, (draft.act host action).2 = some payload →
    payload.messageId = messageId ∧ payload.rev = draft.rev + 1

theorem act_continues (hsound : draft.Sound) (hfits : action.Fits host draft)
    (hcurrent : (draft.act host action).1.messageId = some messageId)
    (hstarted : action.started ≠ some messageId) : Continues host draft action messageId := by
  rcases act_cases hfits with hsame | ⟨draft', hempty, -, -, -, hid⟩ |
    ⟨id, index, change, hid, -, hchange, happly⟩
  · rw [hsame] at hcurrent
    refine ⟨hcurrent, fun mirror h => ?_, fun payload hpayload => ?_⟩
    · rw [hsame]
      exact h
    · rw [hsame] at hpayload
      cases hpayload
  · rw [hempty] at hcurrent
    exact absurd (hid.symm.trans hcurrent) hstarted
  · have hmessage : id = messageId := by
      rw [happly, applyChange_eq hchange] at hcurrent
      exact Option.some.inj (hid.symm.trans hcurrent)
    subst hmessage
    refine ⟨hid, fun mirror h => ?_, fun payload hpayload => ?_⟩
    · have htracks := @applyDraftDelta_tracks ι ν host draft id index change mirror
        { messageId := id, parentToolUseId := draft.parentToolUseId, blockIndex := index
          rev := draft.rev + 1, change } h hsound hchange rfl rfl rfl
      rw [happly]
      rw [applyChange_eq hchange] at htracks ⊢
      exact htracks
    · rw [happly, applyChange_eq hchange] at hpayload
      obtain rfl := Option.some.inj hpayload
      exact ⟨rfl, rfl⟩

theorem act_sound (hsound : draft.Sound) (hfits : action.Fits host draft) :
    (draft.act host action).1.Sound := by
  rcases act_cases hfits with hsame | ⟨draft', hempty, hblocks, hjson, -⟩ |
    ⟨id, index, change, -, hnormal, hchange, happly⟩
  · rw [hsame]
    exact hsound
  · rw [hempty]
    exact sound_of_empty hblocks hjson
  · rw [happly]
    exact applyChange_sound hsound hnormal hchange

end Actions

def startedIds (actions : List (Action ι ν)) : List String :=
  actions.filterMap Action.started

section Runs

variable {host : Host ι} {actions before after : List (Action ι ν)} {action : Action ι ν}

theorem run_concat (host : Host ι) (actions : List (Action ι ν)) (action : Action ι ν) :
    run host (actions ++ [action]) =
      (((run host actions).1.act host action).1,
        (run host actions).2 ++ ((run host actions).1.act host action).2.toList) :=
  List.foldl_concat _ _ _ _

theorem startedIds_concat (actions : List (Action ι ν)) (action : Action ι ν) :
    startedIds (actions ++ [action]) = startedIds actions ++ action.started.toList := by
  unfold startedIds
  rw [List.filterMap_append]
  cases hstarted : action.started with
  | none => rw [List.filterMap_cons_none hstarted]; rfl
  | some id => rw [List.filterMap_cons_some hstarted]; rfl

theorem Fitting.front (h : Fitting host (before ++ after)) : Fitting host before :=
  fun front a hfront => h front a (hfront.trans (List.prefix_append _ _))

theorem Fitting.last (h : Fitting host (actions ++ [action])) :
    action.Fits host (run host actions).1 :=
  h actions action (List.prefix_refl _)

/-- What a run leaves: its message was started in it, and so were the messages of its deltas. -/
structure Kept (host : Host ι) (actions : List (Action ι ν)) : Prop where
  sound : (run host actions).1.Sound
  current : ∀ id, (run host actions).1.messageId = some id → id ∈ startedIds actions
  sent : ∀ payload ∈ (run host actions).2,
    payload.messageId ∈ startedIds actions ∧ payload.rev ≤ (run host actions).1.rev

theorem act_kept (h : Kept host actions) (hfits : action.Fits host (run host actions).1) :
    Kept host (actions ++ [action]) := by
  have hmore : ∀ id ∈ startedIds actions, id ∈ startedIds (actions ++ [action]) := by
    intro id hid
    rw [startedIds_concat]
    exact List.mem_append_left _ hid
  refine ⟨?_, ?_, ?_⟩
  · rw [run_concat]
    exact act_sound h.sound hfits
  · rw [run_concat]
    intro id hid
    by_cases hstarted : action.started = some id
    · rw [startedIds_concat, hstarted]
      exact List.mem_append_right _ List.mem_cons_self
    · exact hmore id (h.current id (act_continues h.sound hfits hid hstarted).current)
  · rw [run_concat]
    intro payload hpayload
    rcases act_cases hfits with hsame | ⟨draft', hempty, -, -, hrev, -⟩ |
      ⟨id, index, change, hid, -, hchange, happly⟩
    · rw [hsame] at hpayload ⊢
      obtain ⟨hstarted, hrev⟩ := h.sent payload (List.mem_append.mp hpayload |>.resolve_right
        List.not_mem_nil)
      exact ⟨hmore _ hstarted, hrev⟩
    · rw [hempty] at hpayload ⊢
      obtain ⟨hstarted, hold⟩ := h.sent payload (List.mem_append.mp hpayload |>.resolve_right
        List.not_mem_nil)
      exact ⟨hmore _ hstarted, hold.trans hrev.ge⟩
    · rw [happly, applyChange_eq hchange] at hpayload ⊢
      rcases List.mem_append.mp hpayload with hold | hnew
      · obtain ⟨hstarted, hrev⟩ := h.sent payload hold
        exact ⟨hmore _ hstarted, hrev.trans (Nat.le_succ _)⟩
      · obtain rfl := List.mem_singleton.mp hnew
        exact ⟨hmore _ (h.current id hid), Nat.le_refl _⟩

theorem run_kept (hfits : Fitting host actions) : Kept host actions := by
  induction actions using List.reverseRecOn with
  | nil =>
      refine ⟨sound_of_empty rfl rfl, fun id hid => ?_, fun payload hpayload => ?_⟩
      · cases hid
      · cases hpayload
  | append_singleton actions action ih => exact act_kept (ih hfits.front) hfits.last

theorem foldl_filter_concat (accepts : Payload ι ν → Bool) (mirror : Option (DraftMirror ι ν))
    (sent : List (Payload ι ν)) {payload : Option (Payload ι ν)}
    (haccepts : ∀ p, payload = some p → accepts p = true) :
    ((sent ++ payload.toList).filter accepts).foldl
        (fun mirror payload => some (applyDraftDelta host mirror payload)) mirror =
      receive host ((sent.filter accepts).foldl
        (fun mirror payload => some (applyDraftDelta host mirror payload)) mirror) payload := by
  have hall : payload.toList.filter accepts = payload.toList :=
    List.filter_eq_self.mpr fun p hp => haccepts p (Option.mem_toList.mp hp)
  rw [List.filter_append, hall, List.foldl_append]
  rfl

theorem connected_tracks {id : String} (hfits : Fitting host actions)
    (hdistinct : (startedIds actions).Nodup) (hid : (run host actions).1.messageId = some id) :
    Tracks (run host actions).1 id (connected host id actions) := by
  induction actions using List.reverseRecOn with
  | nil => cases hid
  | append_singleton actions action ih =>
      have hkept := run_kept hfits.front
      rw [startedIds_concat, List.nodup_append] at hdistinct
      obtain ⟨hfront, -, hfresh⟩ := hdistinct
      rw [run_concat] at hid ⊢
      unfold connected
      rw [run_concat]
      by_cases hstarted : action.started = some id
      · have hnew : id ∉ startedIds actions := by
          intro hmem
          rw [hstarted] at hfresh
          exact hfresh id hmem id List.mem_cons_self rfl
        have hnone : (run host actions).2.filter (·.messageId = id) = [] := by
          rw [List.filter_eq_nil_iff]
          intro payload hpayload hsame
          exact hnew (of_decide_eq_true hsame ▸ (hkept.sent payload hpayload).1)
        rcases act_cases hfits.last with hsame | ⟨draft', hempty, hblocks, hjson, -⟩ |
          ⟨id', index, change, hid', -, hchange, happly⟩
        · rw [hsame] at hid
          exact absurd (hkept.current id hid) hnew
        · rw [hempty, Option.toList_none, List.append_nil, hnone]
          exact tracks_none hblocks hjson
        · rw [happly, applyChange_eq hchange] at hid
          exact absurd (hkept.current id hid) hnew
      · have hgoes := act_continues hkept.sound hfits.last hid hstarted
        rw [foldl_filter_concat]
        · exact hgoes.tracks _ (ih hfits.front hfront hgoes.current)
        · exact fun p hp => decide_eq_true (hgoes.sent p hp).1

theorem sortedBlocks_keys {draft : DraftAccumulator ι ν} (hsound : draft.Sound)
    (hfilled : draft.Filled) : keys (sortedBlocks draft.blocks) =
      (List.range draft.blocks.length).map fun i : ℕ => (i : ℤ) := by
  have hperm : (sortedBlocks draft.blocks).Perm draft.blocks := List.perm_insertionSort _ _
  have htotal : Std.Total fun a b : ℤ × Block ι ν => a.1 ≤ b.1 := ⟨fun a b => le_total a.1 b.1⟩
  have htrans : IsTrans (ℤ × Block ι ν) fun a b => a.1 ≤ b.1 := ⟨fun _ _ _ hab hbc => le_trans hab hbc⟩
  have hsorted : (sortedBlocks draft.blocks).Pairwise fun a b => a.1 ≤ b.1 :=
    List.pairwise_insertionSort _ _
  have hrange : ((List.range draft.blocks.length).map fun i : ℕ => (i : ℤ)).Nodup :=
    List.nodup_range.map fun i j hij => Int.ofNat_inj.mp hij
  refine List.Perm.eq_of_pairwise (fun a b _ _ (hab : a ≤ b) hba => le_antisymm hab hba)
    (List.pairwise_map.mpr hsorted) ?_ ?_
  · refine List.pairwise_map.mpr (List.pairwise_lt_range.imp fun hij => ?_)
    exact Int.ofNat_le.mpr hij.le
  · refine (hperm.map Prod.fst).trans ((List.perm_ext_iff_of_nodup hsound.nodup hrange).mpr fun i => ?_)
    rw [hfilled i, List.mem_map]
    constructor
    · rintro ⟨hpos, hlt⟩
      exact ⟨i.toNat, List.mem_range.mpr (by omega), Int.toNat_of_nonneg hpos⟩
    · rintro ⟨n, hn, rfl⟩
      have hlt := List.mem_range.mp hn
      omega

theorem mirrorOf_content {draft : DraftAccumulator ι ν} (hsound : draft.Sound)
    (hfilled : draft.Filled) :
    (((sortedBlocks draft.blocks).map Prod.snd).zipIdx.map fun item => ((item.2 : ℤ), item.1)) =
      sortedBlocks draft.blocks := by
  have hkeys := sortedBlocks_keys hsound hfilled
  have hlength : (sortedBlocks draft.blocks).length = draft.blocks.length :=
    (List.perm_insertionSort _ _).length_eq
  refine List.ext_getElem (by simp) fun i hi hi' => ?_
  have hkey : (sortedBlocks draft.blocks)[i].1 = (i : ℤ) := by
    have hat : (keys (sortedBlocks draft.blocks))[i]? = some (i : ℤ) := by
      rw [hkeys, List.getElem?_map, List.getElem?_range (hlength ▸ hi'), Option.map_some]
    unfold keys at hat
    rw [List.getElem?_map, List.getElem?_eq_getElem hi', Option.map_some] at hat
    exact Option.some.inj hat
  rw [List.getElem_map, List.getElem_zipIdx, List.getElem_map, Nat.zero_add, ← hkey]

theorem snapshot_tracks {draft : DraftAccumulator ι ν} {id : String} (hsound : draft.Sound)
    (hfilled : draft.Filled) (hid : draft.messageId = some id) :
    Tracks draft id (draft.snapshot.map mirrorOf) := by
  unfold DraftAccumulator.snapshot
  rw [hid]
  dsimp only
  split_ifs with hempty
  · exact tracks_none hempty (hsound.json hempty)
  · have hperm : (sortedBlocks draft.blocks).Perm draft.blocks := List.perm_insertionSort _ _
    refine ⟨?_, ?_, fun i => ?_, fun i => rfl⟩
    · rintro _ ⟨⟩
      rfl
    · rintro _ ⟨⟩ item hitem
      unfold mirrorOf at hitem
      dsimp only at hitem
      rw [mirrorOf_content hsound hfilled] at hitem
      exact hsound.array item (hperm.mem_iff.mp hitem)
    · rw [Option.map_some, Option.bind_some]
      unfold mirrorOf
      dsimp only
      rw [mirrorOf_content hsound hfilled, get_perm hsound.nodup hperm.symm]

theorem rev_concat (hfits : action.Fits host (run host actions).1) :
    (run host actions).1.rev ≤ (run host (actions ++ [action])).1.rev := by
  rw [run_concat]
  rcases act_cases hfits with hsame | ⟨draft', hempty, -, -, hrev, -⟩ |
    ⟨id, index, change, -, -, hchange, happly⟩
  · rw [hsame]
  · rw [hempty, hrev]
  · rw [happly, applyChange_eq hchange]
    exact Nat.le_succ _

theorem reconnected_tracks {id : String} (hfits : Fitting host (before ++ after))
    (hdistinct : (startedIds (before ++ after)).Nodup) (hfilled : (run host before).1.Filled)
    (hid : (run host before).1.messageId = some id)
    (hcurrent : (run host (before ++ after)).1.messageId = some id) :
    Tracks (run host (before ++ after)).1 id (reconnected host before after) ∧
      (run host before).1.rev ≤ (run host (before ++ after)).1.rev := by
  induction after using List.reverseRecOn with
  | nil =>
      rw [List.append_nil] at hfits ⊢
      have hkept := run_kept hfits
      have hnone : (run host before).2.filter (fun payload =>
          decide (some payload.messageId = (run host before).1.messageId ∧
            (run host before).1.rev < payload.rev)) = [] := by
        rw [List.filter_eq_nil_iff]
        intro payload hpayload hlater
        have hrev := (hkept.sent payload hpayload).2
        have hlt := (of_decide_eq_true hlater).2
        omega
      unfold reconnected
      dsimp only
      rw [List.append_nil, hnone]
      exact ⟨snapshot_tracks hkept.sound hfilled hid, Nat.le_refl _⟩
  | append_singleton after action ih =>
      rw [← List.append_assoc] at hfits hdistinct hcurrent ⊢
      rw [startedIds_concat, List.nodup_append] at hdistinct
      obtain ⟨hfront, -, hfresh⟩ := hdistinct
      have hkept := run_kept hfits.front
      have hstarted : action.started ≠ some id := by
        intro hstarted
        have hmem : id ∈ startedIds before := (run_kept hfits.front.front).current id hid
        rw [hstarted] at hfresh
        refine hfresh id ?_ id List.mem_cons_self rfl
        unfold startedIds
        rw [List.filterMap_append]
        exact List.mem_append_left _ hmem
      have hafter := hcurrent
      rw [run_concat] at hafter
      have hgoes := act_continues hkept.sound hfits.last hafter hstarted
      obtain ⟨htracks, hrev⟩ := ih hfits.front hfront hgoes.current
      refine ⟨?_, hrev.trans (rev_concat hfits.last)⟩
      unfold reconnected
      dsimp only
      rw [← List.append_assoc, run_concat, foldl_filter_concat]
      · exact hgoes.tracks _ htracks
      · intro p hp
        obtain ⟨hsame, hnext⟩ := hgoes.sent p hp
        refine decide_eq_true ⟨?_, ?_⟩
        · rw [hsame, hid]
        · omega

end Runs

theorem current_of_sent {host : Host ι} {draft : DraftAccumulator ι ν} {action : Action ι ν}
    {payload : Payload ι ν} (hfits : action.Fits host draft)
    (hsent : (draft.act host action).2 = some payload) :
    (draft.act host action).1.messageId = some payload.messageId := by
  rcases act_cases hfits with hsame | ⟨draft', hempty, -⟩ | ⟨id, index, change, hid, -, hchange, happly⟩
  · rw [hsame] at hsent
    cases hsent
  · rw [hempty] at hsent
    cases hsent
  · rw [happly, applyChange_eq hchange] at hsent ⊢
    obtain rfl := Option.some.inj hsent
    exact hid

def plainHost : Host Unit where
  empty := ()
  loads _ := .ok none
  parse _ := none
  isDigit c := c.isDigit

def streamOf (index : ℤ) (chunk : String) : List (Action Unit Unit) :=
  [.stream { event := some (.messageStart (some "msg_01")), parentToolUseId := none },
    .stream { event := some (.contentBlockStart (.int index) (some freshText)), parentToolUseId := none },
    .stream
      { event := some (.contentBlockDelta (.int index) (some (.text (some chunk))))
        parentToolUseId := none }]

theorem Fitting.concat {host : Host ι} {actions : List (Action ι ν)} {action : Action ι ν}
    (h : Fitting host actions) (hfits : action.Fits host (run host actions).1) :
    Fitting host (actions ++ [action]) := by
  intro front a hfront
  rcases List.prefix_concat_iff.mp hfront with hall | hbefore
  · obtain ⟨rfl, hlast⟩ := List.append_inj' hall rfl
    obtain rfl := List.singleton_inj.mp hlast
    exact hfits
  · exact h front a hbefore

theorem streamOf_fits : Fitting plainHost (streamOf 0 "x") := by
  have hnil : Fitting plainHost ([] : List (Action Unit Unit)) := by
    intro front a hfront
    cases List.append_eq_nil_iff.mp (List.prefix_nil.mp hfront) |>.2
  refine ((hnil.concat ?_).concat ?_).concat ?_
  · intro hcurrent
    cases hcurrent
  · intro _ _ event hevent index change hread
    obtain rfl := Option.some.inj hevent
    obtain ⟨rfl, rfl⟩ := Prod.mk.inj (Option.some.inj hread)
    change IsArrayIndex 0
    decide
  · intro _ _ event hevent index change hread
    obtain rfl := Option.some.inj hevent
    have hchange : (0, Change.text "x") = (index, change) := Option.some.inj hread
    obtain ⟨rfl, rfl⟩ := Prod.mk.inj hchange
    refine ⟨by decide, fun block hblock htype => absurd ?_ htype⟩
    obtain rfl := Option.some.inj hblock
    rfl

end ShortReel.DraftStreams
