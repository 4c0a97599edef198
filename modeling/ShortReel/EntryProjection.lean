import ShortReel.FallibleStates
import ShortReel.ParentForests

/-!
# Projection of the event log

`entry-projection.ts`: the entries of a session are folded into turns, on the main timeline and on one
for each sub-agent, and shown from caches that are kept by version. A turn is known by its place on its
timeline, a block by its place in its turn; the cursor of a timeline is its last turn.
-/

namespace ShortReel.EntryProjection

open ParentForests

variable {ν : Type}

inductive BlockType where
  | text
  | thinking
  | toolUse
  | toolResult
  | skillInvocation
  | taskProgress
  | interruptNotice
  | questionAnswer
  | agentFailure
  | compactSummary
  | image
  deriving DecidableEq, Repr

/-- A block of content. What the projection does not read is `rest`. -/
structure Block (ν : Type) where
  type : BlockType
  text : Option String
  id : Option String
  name : Option String
  result : Option String
  isError : Option Bool
  toolUseId : Option String
  content : Option String
  skillName : Option String
  skillArgs : Option String
  taskId : Option String
  status : Option String
  description : Option String
  summary : Option String
  taskStatus : Option String
  usage : Option ν
  answers : Option ν
  failure : Option ν
  rest : Option ν

def Block.empty (type : BlockType) : Block ν where
  type
  text := none
  id := none
  name := none
  result := none
  isError := none
  toolUseId := none
  content := none
  skillName := none
  skillArgs := none
  taskId := none
  status := none
  description := none
  summary := none
  taskStatus := none
  usage := none
  answers := none
  failure := none
  rest := none

inductive TurnType where
  | user
  | assistant
  | system
  deriving DecidableEq, Repr

inductive EntryType where
  | user
  | assistant
  | toolResult
  | system
  deriving DecidableEq, Repr

inductive EntryContent (ν : Type) where
  | absent
  | text (text : String)
  | blocks (blocks : List (Block ν))

structure TimelineEntry (ν : Type) where
  seq : ℤ
  type : EntryType
  content : EntryContent ν
  uuid : Option String
  timestamp : Option String
  parentToolUseId : Option String
  toolUseId : Option String
  isError : Bool
  subtype : Option String
  taskId : Option String
  description : Option String
  summary : Option String
  taskStatus : Option String
  usage : Option ν
  skillName : Option String
  skillArgs : Option String
  answers : Option ν
  failure : Option ν

def truthy (text : Option String) : Option String :=
  text.filter (· ≠ "")

def entryBlocks (entry : TimelineEntry ν) : List (Block ν) :=
  match entry.content with
  | .blocks blocks => blocks
  | .text text => if text = "" then [] else [{ Block.empty .text with text := some text }]
  | .absent => []

def blocksText (blocks : List (Block ν)) : String :=
  "\n".intercalate ((blocks.filter (·.type = .text)).map (·.text.getD ""))

def resultText (entry : TimelineEntry ν) : String :=
  match entry.content with
  | .text text => text
  | _ => blocksText (entryBlocks entry)

abbrev FoldKey := Option String

structure InternalTurn (ν : Type) where
  type : TurnType
  content : List (Block ν)
  uuid : Option String
  timestamp : Option String
  version : ℕ

structure ToolUseSite where
  fold : FoldKey
  turn : ℕ
  block : ℕ
  deriving DecidableEq, Repr

structure Fold (ν : Type) where
  turns : List (InternalTurn ν)
  version : ℕ

def newFold : Fold ν where
  turns := []
  version := 0

/-- The timelines, the sub-agents in the order in which they appear, and where they are anchored. -/
structure Core (ν : Type) where
  counter : ℕ
  folds : FoldKey → Fold ν
  groups : List String
  anchors : String → Option ToolUseSite
  pending : List String
  outcomes : String → Option (Block ν)
  sites : String → Option ToolUseSite
  dirty : Bool

def Core.empty : Core ν where
  counter := 0
  folds _ := newFold
  groups := []
  anchors _ := none
  pending := []
  outcomes _ := none
  sites _ := none
  dirty := true

namespace Core

variable (core : Core ν)

def keys : List FoldKey :=
  none :: core.groups.map some

def parentSite (k : FoldKey) : Option ToolUseSite :=
  k.bind core.anchors

def parent (k : FoldKey) : Option FoldKey :=
  (core.parentSite k).map (·.fold)

def anchorCreatesCycle (anchorFold targetFold : FoldKey) : Bool :=
  targetFold ∈ ancestors core.parent core.keys anchorFold

def setFold (k : FoldKey) (fold : Fold ν) : Core ν :=
  { core with folds := Function.update core.folds k fold }

def modifyTurn (k : FoldKey) (i : ℕ) (f : InternalTurn ν → InternalTurn ν) : Core ν :=
  core.setFold k { core.folds k with turns := (core.folds k).turns.modify i f }

def bumpTurn (k : FoldKey) (i : ℕ) : Core ν :=
  { core.modifyTurn k i fun turn => { turn with version := core.counter + 1 } with
    counter := core.counter + 1 }

def bumpFold (k : FoldKey) : Core ν :=
  { core.setFold k { core.folds k with version := core.counter + 1 } with
    counter := core.counter + 1 }

/-- One step of `touch`: a timeline, and the turn that it is anchored in. -/
def touchFold (k : FoldKey) : Core ν :=
  match core.parentSite k with
  | none => core.bumpFold k
  | some site => (core.bumpFold k).bumpTurn site.fold site.turn

/-- `touch`: the turn, its timeline and what they are shown in have new versions. -/
def touch (k : FoldKey) (i : ℕ) : Core ν :=
  (ancestors core.parent core.keys k).foldl touchFold ({ core with dirty := true }.bumpTurn k i)

def startTurn (k : FoldKey) (type : TurnType) (content : List (Block ν)) (entry : TimelineEntry ν) :
    Core ν :=
  let fold := core.folds k
  let turn : InternalTurn ν :=
    { type, content, uuid := entry.uuid, timestamp := entry.timestamp, version := 0 }
  (core.setFold k { fold with turns := fold.turns ++ [turn] }).touch k fold.turns.length

def assistantCursor (k : FoldKey) : Option ℕ :=
  match (core.folds k).turns.getLast? with
  | some turn => if turn.type = .assistant then some ((core.folds k).turns.length - 1) else none
  | none => none

def pushBlocks (k : FoldKey) (i : ℕ) (blocks : List (Block ν)) : Core ν :=
  (core.modifyTurn k i fun turn => { turn with content := turn.content ++ blocks }).touch k i

def attachSystemBlock (k : FoldKey) (entry : TimelineEntry ν) (block : Block ν) : Core ν :=
  match core.assistantCursor k with
  | some i => core.pushBlocks k i [block]
  | none => core.startTurn k .system [block] entry

def modifyBlock (k : FoldKey) (i j : ℕ) (f : Block ν → Block ν) : Core ν :=
  (core.modifyTurn k i fun turn => { turn with content := turn.content.modify j f }).touch k i

def findTaskBlock (content : List (Block ν)) (taskId : String) : Option ℕ :=
  content.findIdx? fun block => block.type = .taskProgress ∧ block.taskId = some taskId

/-- `findTaskSite`: the newest turn that has the block of a task. -/
def findTaskSite (k : FoldKey) (taskId : String) : Option (ℕ × ℕ) :=
  (core.folds k).turns.zipIdx.reverse.findSome? fun (turn, i) =>
    (findTaskBlock turn.content taskId).map (i, ·)

def updateTask (taskBlock existing : Block ν) : Block ν :=
  { existing with
    status := taskBlock.status
    summary := (truthy taskBlock.summary).or existing.summary
    taskStatus := (truthy taskBlock.taskStatus).or existing.taskStatus
    usage := taskBlock.usage.or existing.usage }

def applyTaskBlock (k : FoldKey) (entry : TimelineEntry ν) (taskBlock : Block ν)
    (updateOnly : Bool) : Core ν :=
  match (if updateOnly then truthy taskBlock.taskId else none).bind (core.findTaskSite k) with
  | some (i, j) => core.modifyBlock k i j (updateTask taskBlock)
  | none => core.attachSystemBlock k entry taskBlock

def registerSite (id : String) (site : ToolUseSite) : Core ν :=
  match core.sites id with
  | some _ => core
  | none => { core with sites := Function.update core.sites id (some site) }

def anchorGroup (id : String) (site : ToolUseSite) : Core ν :=
  { core with
    anchors := Function.update core.anchors id (some site)
    pending := core.pending.filter (· ≠ id) }.touch site.fold site.turn

/-- A sub-agent that waits for its anchor gets it, when it does not come to stand below itself. -/
def anchorWaiting (id : String) : Core ν :=
  match core.sites id with
  | some site =>
      if id ∈ core.groups ∧ core.anchors id = none ∧
          !core.anchorCreatesCycle site.fold (some id) then
        core.anchorGroup id site
      else core
  | none => core

def registerToolUse (site : ToolUseSite) (block : Block ν) : Core ν :=
  match truthy block.id with
  | some id => (core.registerSite id site).anchorWaiting id
  | none => core

def addGroup (id : String) : Core ν :=
  { core.setFold (some id) newFold with
    groups := core.groups ++ [id]
    pending := core.pending ++ [id]
    dirty := true }

/-- `groupFoldFor`, of a sub-agent that is not there yet. -/
def groupFoldFor (id : String) : Core ν :=
  if id ∈ core.groups then core else (core.addGroup id).anchorWaiting id

def registerBlocks (k : FoldKey) (i : ℕ) : ℕ → List (Block ν) → Core ν → Core ν
  | _, [], core => core
  | j, block :: blocks, core =>
      let core := if block.type = .toolUse then core.registerToolUse ⟨k, i, j⟩ block else core
      registerBlocks k i (j + 1) blocks core

def siteOn (k : FoldKey) (toolUseId : Option String) : Option ToolUseSite :=
  ((truthy toolUseId).bind core.sites).filter (·.fold = k)

def resultBlock (entry : TimelineEntry ν) (isError : Bool) : Block ν :=
  { Block.empty .toolResult with
    toolUseId := entry.toolUseId, content := some (resultText entry), isError := some isError }

def appendAssistant (k : FoldKey) (entry : TimelineEntry ν) : Core ν :=
  let blocks := entryBlocks entry
  match core.assistantCursor k with
  | some i =>
      let start := ((core.folds k).turns[i]?.map (·.content.length)).getD 0
      registerBlocks k i start blocks (core.pushBlocks k i blocks)
  | none =>
      registerBlocks k (core.folds k).turns.length 0 blocks (core.startTurn k .assistant blocks entry)

def appendResult (k : FoldKey) (entry : TimelineEntry ν) : Core ν :=
  match core.siteOn k entry.toolUseId with
  | some site => core.modifyBlock site.fold site.turn site.block fun block =>
      { block with result := some (resultText entry), isError := some entry.isError }
  | none => core.attachSystemBlock k entry (resultBlock entry entry.isError)

def taskBlock (entry : TimelineEntry ν) : Block ν :=
  { Block.empty .taskProgress with
    taskId := entry.taskId, status := entry.subtype, description := some (entry.description.getD "")
    summary := entry.summary, taskStatus := entry.taskStatus, usage := entry.usage
    toolUseId := entry.toolUseId }

def noteOutcome (entry : TimelineEntry ν) : Core ν :=
  match truthy entry.toolUseId with
  | some id =>
      { core with
        outcomes := Function.update core.outcomes id (some { Block.empty .taskProgress with
          status := some "task_notification", description := some (entry.description.getD "")
          summary := entry.summary, taskStatus := entry.taskStatus, toolUseId := some id })
        dirty := true }
  | none => core

def appendSystem (k : FoldKey) (entry : TimelineEntry ν) : Core ν :=
  if entry.subtype = some "agent_turn_failure" ∧ entry.failure.isSome then
    core.startTurn k .system [{ Block.empty .agentFailure with failure := entry.failure }] entry
  else if entry.subtype = some "skill_invocation" then
    match (entry.toolUseId.bind core.sites).filter (·.fold = k) with
    | some _ => core
    | none => core.attachSystemBlock k entry { Block.empty .skillInvocation with
        skillName := entry.skillName, skillArgs := entry.skillArgs, toolUseId := entry.toolUseId }
  else if entry.subtype = some "interrupt" then
    core.startTurn k .system [Block.empty .interruptNotice] entry
  else if entry.subtype = some "subagent_outcome" then core.noteOutcome entry
  else if entry.subtype = some "task_started" ∨ entry.subtype = some "task_progress" ∨
      entry.subtype = some "task_notification" then
    core.applyTaskBlock k entry (taskBlock entry) (entry.subtype ≠ some "task_started")
  else core

def appendAnswer (k : FoldKey) (entry : TimelineEntry ν) : Core ν :=
  match core.siteOn k entry.toolUseId with
  | some site =>
      let core := core.modifyBlock site.fold site.turn site.block fun block =>
        { block with
          result := some (resultText entry), isError := some entry.isError
          answers := entry.answers.or block.answers }
      if entry.isError then core
      else core.startTurn k .user [{ Block.empty .questionAnswer with
        answers := entry.answers, text := some (resultText entry) }] entry
  | none =>
      if entry.isError then core.attachSystemBlock k entry (resultBlock entry true)
      else core.startTurn k .user [{ Block.empty .questionAnswer with
        answers := entry.answers, text := some (resultText entry) }] entry

def appendUser (k : FoldKey) (entry : TimelineEntry ν) : Core ν :=
  if entry.subtype = some "compact_summary" then
    core.startTurn k .system [{ Block.empty .compactSummary with
      text := some (blocksText (entryBlocks entry)) }] entry
  else if entry.subtype = some "question_answer" then core.appendAnswer k entry
  else core.startTurn k .user (entryBlocks entry) entry

def appendTo (k : FoldKey) (entry : TimelineEntry ν) : Core ν :=
  match entry.type with
  | .assistant => core.appendAssistant k entry
  | .toolResult => core.appendResult k entry
  | .system => core.appendSystem k entry
  | .user => core.appendUser k entry

def appendOne (entry : TimelineEntry ν) : Core ν :=
  match truthy entry.parentToolUseId with
  | some id => (core.groupFoldFor id).appendTo (some id) entry
  | none => core.appendTo none entry

end Core

mutual

inductive TurnView (ν : Type) where
  | mk (type : TurnType) (content : List (BlockView ν)) (uuid timestamp : Option String)

inductive BlockView (ν : Type) where
  | mk (block : Block ν) (subTurns : Option (List (TurnView ν))) (taskInfo : Option (Block ν))

end

def BlockView.block : BlockView ν → Block ν
  | .mk block _ _ => block

def BlockView.withTask (task : Option (Block ν)) : BlockView ν → BlockView ν
  | .mk block subTurns taskInfo => .mk block subTurns (task.or taskInfo)

def completedAgentIds (content : List (BlockView ν)) : List String :=
  content.filterMap fun view =>
    if view.block.type = .toolUse ∧ view.block.name = some "Agent" ∧ view.block.result.isSome then
      truthy view.block.id
    else none

def settleTask (completed : List String) : BlockView ν → BlockView ν
  | .mk block subTurns taskInfo =>
      if block.type = .taskProgress ∧ block.status = some "task_started" ∧
          (truthy block.toolUseId).any (· ∈ completed) then
        .mk { block with status := some "task_notification", taskStatus := some "completed" }
          subTurns taskInfo
      else .mk block subTurns taskInfo

def toolUseId (view : BlockView ν) : Option String :=
  if view.block.type = .toolUse then truthy view.block.id else none

def taskAnchor (view : BlockView ν) : Option String :=
  if view.block.type = .taskProgress then truthy view.block.toolUseId else none

def foldTasks (content : List (BlockView ν)) : List (BlockView ν) → List (BlockView ν)
  | [] => []
  | view :: views =>
      let rest := foldTasks content views
      match toolUseId view with
      | some id =>
          if id ∈ views.filterMap toolUseId then view :: rest
          else
            view.withTask (((content.filter fun task => taskAnchor task = some id).getLast?).map
              (·.block)) :: rest
      | none =>
          if (taskAnchor view).any (· ∈ content.filterMap toolUseId) then rest else view :: rest

/-- What `buildTurnView` makes of the blocks. -/
def finishContent (content : List (BlockView ν)) : List (BlockView ν) :=
  let content := content.map (settleTask (completedAgentIds content))
  foldTasks content content

def finishTurn (turn : InternalTurn ν) (content : List (BlockView ν)) : TurnView ν :=
  .mk turn.type (finishContent content) turn.uuid turn.timestamp

def Core.anchoredAt (core : Core ν) (site : ToolUseSite) (block : Block ν) : Option String :=
  if block.type = .toolUse then
    (truthy block.id).filter fun id => id ∈ core.groups ∧ core.anchors id = some site
  else none

def card (core : Core ν) (id : String) (subTurns : List (TurnView ν)) : TurnView ν :=
  .mk .system
    [.mk { Block.empty .toolUse with id := some id, name := some "Agent" } (some subTurns)
      (core.outcomes id)]
    (some ("subagent-" ++ id)) none

structure Caches (ν : Type) where
  turnView : FoldKey → ℕ → Option (ℕ × TurnView ν)
  display : FoldKey → Option (ℕ × List (TurnView ν))
  composed : List (TurnView ν)

def Caches.empty : Caches ν where
  turnView _ _ := none
  display _ := none
  composed := []

section Display

variable (core : Core ν)

abbrev Display (ν α : Type) := EStateM Unit (Caches ν) α

def blockView (display : FoldKey → Display ν (List (TurnView ν))) (k : FoldKey) (i : ℕ)
    (block : Block ν × ℕ) : Display ν (BlockView ν) :=
  match core.anchoredAt ⟨k, i, block.2⟩ block.1 with
  | some id => do
      let subTurns ← display (some id)
      return .mk block.1 (some subTurns) none
  | none => pure (.mk block.1 none none)

def buildTurnView (display : FoldKey → Display ν (List (TurnView ν))) (k : FoldKey)
    (turn : InternalTurn ν × ℕ) : Display ν (TurnView ν) := do
  let content ← turn.1.content.zipIdx.mapM (blockView core display k turn.2)
  return finishTurn turn.1 content

def cachedAt {α : Type} (version : ℕ) (cached : Option (ℕ × α)) : Option α :=
  (cached.filter (·.1 = version)).map Prod.snd

def turnView (display : FoldKey → Display ν (List (TurnView ν))) (k : FoldKey)
    (turn : InternalTurn ν × ℕ) : Display ν (TurnView ν) := do
  let caches ← MonadState.get
  match cachedAt turn.1.version (caches.turnView k turn.2) with
  | some view => pure view
  | none => do
      let view ← buildTurnView core display k turn
      modify fun caches => { caches with
        turnView := Function.update caches.turnView k
          (Function.update (caches.turnView k) turn.2 (some (turn.1.version, view))) }
      return view

/-- `foldDisplay`, as deep as there is fuel for. -/
def foldDisplay : ℕ → FoldKey → Display ν (List (TurnView ν))
  | 0, _ => throw ()
  | n + 1, k => do
      let caches ← MonadState.get
      match cachedAt (core.folds k).version (caches.display k) with
      | some turns => pure turns
      | none => do
          let turns ← (core.folds k).turns.zipIdx.mapM (turnView core (foldDisplay n) k)
          modify fun caches => { caches with
            display := Function.update caches.display k (some ((core.folds k).version, turns)) }
          return turns

def displayFuel : ℕ :=
  core.keys.length + 1

def compose : Display ν (List (TurnView ν)) := do
  if !core.dirty then
    let caches ← MonadState.get
    return caches.composed
  else
    let turns ← foldDisplay core (displayFuel core) none
    let cards ← core.pending.mapM fun id => do
      let subTurns ← foldDisplay core (displayFuel core) (some id)
      return card core id subTurns
    modify fun caches => { caches with composed := turns ++ cards }
    return turns ++ cards

end Display

abbrev EntryObject (ν : Type) := ℕ × TimelineEntry ν

structure Projector (ν : Type) where
  core : Core ν
  caches : Caches ν
  source : List (EntryObject ν)

/-- `createTimelineProjector`. -/
def Projector.create : Projector ν where
  core := Core.empty
  caches := Caches.empty
  source := []

/-- The entries go on from those of the last call, as far as the references at both ends tell. -/
def extendsPrefix (source entries : List (EntryObject ν)) : Bool :=
  source.length ≤ entries.length &&
    (source.isEmpty ||
      ((entries[0]?.map Prod.fst = source[0]?.map Prod.fst) &&
        (entries[source.length - 1]?.map Prod.fst = source[source.length - 1]?.map Prod.fst)))

def Projector.project (projector : Projector ν) (entries : List (EntryObject ν)) :
    Option (List (TurnView ν) × Projector ν) :=
  let base := if extendsPrefix projector.source entries then projector else Projector.create
  let core := ((entries.drop base.source.length).map Prod.snd).foldl Core.appendOne base.core
  match compose core base.caches with
  | .ok turns caches => some (turns, { core := { core with dirty := false }, caches, source := entries })
  | .error _ _ => none

def projectEntriesToTurns (entries : List (EntryObject ν)) : Option (List (TurnView ν)) :=
  (Projector.create.project entries).map Prod.fst

def Projector.projectAll : Projector ν → List (List (EntryObject ν)) →
    Option (List (List (TurnView ν)))
  | _, [] => some []
  | projector, entries :: rest => do
      let (turns, projector) ← projector.project entries
      let others ← projector.projectAll rest
      return turns :: others

end ShortReel.EntryProjection
