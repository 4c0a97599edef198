import ShortReel.EpisodeLedger

/-!
# Replanning

`episode_replan.py`: a candidate plan from an episode on, and its adoption. The cut episodes from the
start on are replaced by those of the candidate; the episodes of other origins behind the first of them
are placed by the cut episode that they follow.
-/

namespace ShortReel.EpisodeReplan

open EditScripts SourceAlignment SourceRemap SourcePlaces CutPlacements EpisodeLedger

inductive ReplanError where
  | candidateNotFound
  | candidateInvalid
  | candidateEmpty
  | ledgerChanged
  | sourceChanged
  | ledgerInvalid
  | conflict
  deriving DecidableEq, Repr

structure Draft where
  title : Text
  sourceRange : RangeField
  deriving DecidableEq, Repr

structure ReplanCandidate where
  id : String
  episode : ℕ
  start : Option (String × ℕ)
  fromBeginning : Bool
  sourceReplaced : Bool
  ledgerRevision : String
  sourceFingerprints : List (String × String)
  episodes : List Draft
  complete : Bool
  deriving DecidableEq, Repr

inductive Slot where
  | old (episode : ℕ)
  | new (index : ℕ)
  deriving DecidableEq, Repr

structure Adoption where
  replaced : List ℕ
  retired : List ℕ
  removed : List ℕ
  needsReview : List ℕ
  uncovered : List ℕ
  moved : List (ℕ × ℕ × ℕ)
  order : List Slot
  deriving DecidableEq, Repr

structure ReplanAdoptionImpact where
  candidate : String
  episode : ℕ
  oldCount : ℕ
  newCount : ℕ
  retired : List ℕ
  removed : List ℕ
  needsReview : List ℕ
  uncovered : List ℕ
  moved : List (ℕ × ℕ × ℕ)
  losses : List (ℕ × String)
  deriving DecidableEq, Repr

structure Stored where
  project : Project
  candidate : Option ReplanCandidate

inductive ReplanOutcome where
  | confirmationRequired (impact : ReplanAdoptionImpact)
  | adopted (impact : ReplanAdoptionImpact) (episodes : List ℕ) (stored : Stored)

def orThrow {α : Type} (error : ReplanError) : Option α → Except ReplanError α
  | some a => pure a
  | none => throw error

/-- What the code takes from elsewhere: the fingerprint of a text, those of a ledger and of an impact,
and what is lost with an episode, whatever the recorded mark of the ids is. -/
structure Fingerprints where
  digest : Text → String
  layout : List (ℕ × SourceOrigin × RangeField) → String
  impact : ReplanAdoptionImpact → String
  loss : Project → ℕ → String
  loss_raise : ∀ project episode, loss project.raiseEpisodeIdHighWater episode = loss project episode

def replacedIds (placements : List CutPlacement) (episode : ℕ) (start : ℕ × ℕ)
    (fromBeginning : Bool) : Bool → List LedgerEntry → List ℕ
  | _, [] => []
  | seenFrom, entry :: entries =>
      if isCutEpisode entry then
        let seen := seenFrom || entry.episode = episode
        let rest := replacedIds placements episode start fromBeginning seen entries
        let behind :=
          match placements.find? (·.episode = entry.episode) with
          | some item => !earlier item.position start
          | none => seen
        if fromBeginning || behind then entry.episode :: rest else rest
      else replacedIds placements episode start fromBeginning seenFrom entries

section Positions

variable (docs : List SourceDoc)

/-- `_source_position`. An episode of a candidate stays in one file. -/
def sourcePosition (range : SourceSpan) : Option (ℕ × ℕ × ℕ) := do
  let i ← index docs range.sourceFile
  if range.endFile = range.sourceFile then return (i, range.start, range.stop) else none

def Draft.span (draft : Draft) : Option SourceSpan :=
  match draft.sourceRange with
  | .span range => some range
  | _ => none

def candidatePositions (candidate : ReplanCandidate) : Option (List (ℕ × ℕ × ℕ)) :=
  candidate.episodes.mapM fun draft => draft.span.bind (sourcePosition docs)

def candidateCursor (candidate : ReplanCandidate) : Option (String × ℕ) :=
  match candidate.episodes.getLast? with
  | some draft => draft.span.map fun range => (range.endFile, range.stop)
  | none => candidate.start

end Positions

section Plan

variable (prints : Fingerprints)

def ledgerLayout (project : Project) : List (ℕ × SourceOrigin × RangeField) :=
  project.entries.map fun entry => (entry.episode, episodeSourceOrigin entry, entry.sourceRange)

/-- `compute_source_fingerprints`. -/
def sourceFingerprints (docs : List SourceDoc) : List (String × String) :=
  docs.map fun doc => (doc.relPath, prints.digest doc.text)

/-- `==` of two dictionaries. -/
def sameFields (a b : List (String × String)) : Bool :=
  (∀ field ∈ a, field ∈ b) ∧ ∀ field ∈ b, field ∈ a

def candidateStaleness (project : Project) (candidate : ReplanCandidate) : Option ReplanError :=
  if candidate.ledgerRevision ≠ prints.layout (ledgerLayout project) then some .ledgerChanged
  else if sameFields candidate.sourceFingerprints (sourceFingerprints prints project.docs) then none
  else some .sourceChanged

/-- Where an episode of another origin goes: ahead of the candidate, behind one of its episodes, or
behind all of them. -/
inductive Anchor where
  | before
  | behind (index : ℕ)
  | unanchored
  deriving DecidableEq, Repr

/-- The first episode of the candidate that does not end ahead of the anchor, or the last. -/
def slotOf (positions : List (ℕ × ℕ × ℕ)) (anchor : ℕ × ℕ) : ℕ :=
  (positions.findIdx? fun (i, _, stop) => !earlier (i, stop) anchor).getD (positions.length - 1)

def anchorOf (placements : List CutPlacement) (positions : List (ℕ × ℕ × ℕ)) (start : ℕ × ℕ)
    (anchorsValid : Bool) : Option ℕ → Anchor
  | none => .before
  | some previousCut =>
      match placements.find? (·.episode = previousCut) with
      | none => .unanchored
      | some item =>
          if !anchorsValid then .unanchored
          else if !earlier start item.endPosition then .before
          else .behind (slotOf positions item.endPosition)

/-- The loop over the ledger: the episodes from `first` on that are not replaced, with their anchors. -/
def anchored (anchor : Option ℕ → Anchor) (first : ℕ) (replaced : List ℕ) :
    Option ℕ → ℕ → List LedgerEntry → List (ℕ × Anchor)
  | _, _, [] => []
  | previousCut, i, entry :: entries =>
      let previous := if isCutEpisode entry then some entry.episode else previousCut
      let rest := anchored anchor first replaced previous (i + 1) entries
      if i < first ∨ entry.episode ∈ replaced then rest
      else (entry.episode, anchor previous) :: rest

def groupOf (anchor : Anchor) (others : List (ℕ × Anchor)) : List ℕ :=
  (others.filter (·.2 = anchor)).map Prod.fst

def newOrder (front : List ℕ) (others : List (ℕ × Anchor)) (count : ℕ) (retired : List ℕ) :
    List Slot :=
  front.map .old ++ (groupOf .before others).map .old ++
    (List.range count).flatMap (fun i => .new i :: (groupOf (.behind i) others).map .old) ++
    (groupOf .unanchored others).map .old ++ retired.map .old

/-- The episodes that stand at another position than before: with both positions. -/
def movedOf (ids replaced : List ℕ) (order : List Slot) : List (ℕ × ℕ × ℕ) :=
  order.zipIdx.filterMap fun (slot, i) =>
    match slot with
    | .old episode =>
        if episode ∉ replaced ∧ ids.idxOf episode ≠ i then
          some (episode, ids.idxOf episode + 1, i + 1)
        else none
    | .new _ => none

def firstReplaced (ids replaced : List ℕ) : ℕ :=
  ids.findIdx (· ∈ replaced)

/-- `_plan_adoption`, behind its checks. -/
def adoptionOf (project : Project) (candidate : ReplanCandidate) (positions : List (ℕ × ℕ × ℕ))
    (start cursor : ℕ × ℕ) : Adoption :=
  let placements := project.placements
  let replaced := replacedIds placements candidate.episode start candidate.fromBeginning false
    project.entries
  let hasProducts episode :=
    project.entries.any fun entry => entry.episode = episode ∧ project.hasProducts entry
  let retired := replaced.filter hasProducts
  let placementOf episode := placements.find? fun item => item.episode = episode
  let first := firstReplaced project.ids replaced
  let anchor := anchorOf placements positions start (!candidate.sourceReplaced)
  let order := newOrder (project.ids.take first)
    (anchored anchor first replaced none 0 project.entries) positions.length retired
  { replaced
    retired
    removed := replaced.filter (!hasProducts ·)
    needsReview := retired.filter fun episode =>
      candidate.sourceReplaced || (placementOf episode).all fun item =>
        item.place.first ≠ item.place.last ∨
          (item.place.first, item.place.start, item.place.stop) ∉ positions
    uncovered :=
      if candidate.complete then []
      else replaced.filter fun episode => (placementOf episode).all fun item =>
        earlier cursor item.endPosition
    moved := movedOf project.ids replaced order
    order }

def requireFresh (project : Project) (candidate : ReplanCandidate) : Except ReplanError Unit :=
  match candidateStaleness prints project candidate with
  | some stale => throw stale
  | none => pure ()

def coverage (candidate : ReplanCandidate) (start : String × ℕ) : Option (String × ℕ) :=
  if candidate.complete then some start else candidateCursor candidate

def planAdoption (project : Project) (candidate : ReplanCandidate) :
    Except ReplanError Adoption := do
  requireFresh prints project candidate
  let positions ← orThrow .candidateInvalid (candidatePositions project.docs candidate)
  let _ ← orThrow .candidateEmpty positions.head?
  let _ ← orThrow .ledgerInvalid project.wellFormedLedgerEntries
  let start ← orThrow .candidateInvalid candidate.start
  let i ← orThrow .sourceChanged (index project.docs start.1)
  let cursor ← orThrow .candidateInvalid (coverage candidate start)
  return adoptionOf project candidate positions (i, start.2)
    ((index project.docs cursor.1).getD project.docs.length, cursor.2)

def adoptionImpact (project : Project) (candidate : ReplanCandidate) :
    Except ReplanError (Adoption × ReplanAdoptionImpact) := do
  let adoption ← planAdoption prints project candidate
  return (adoption,
    { candidate := candidate.id
      episode := candidate.episode
      oldCount := adoption.replaced.length
      newCount := candidate.episodes.length
      retired := adoption.retired
      removed := adoption.removed
      needsReview := adoption.needsReview
      uncovered := adoption.uncovered
      moved := adoption.moved
      losses := adoption.retired.map fun episode => (episode, prints.loss project episode) })

/-- The entry of a candidate episode. An id with products on disk is stale from the start. -/
def newEntry (project : Project) (draft : Draft) (episode : ℕ) : LedgerEntry :=
  let entry : LedgerEntry :=
    { episode
      title := draft.title
      scriptFile := "scripts/episode_" ++ toString episode ++ ".json"
      sourceOrigin := some .wholeSource
      sourceRange := draft.sourceRange
      ledgerStatus := .planned }
  if episode ∈ project.products then markLedgerStale entry else entry

def draftText (docs : List SourceDoc) (draft : Draft) : Option Text :=
  draft.span.bind fun range => (index docs range.sourceFile).map fun i =>
    slice (textAt docs i) range.start range.stop

def slotEntry (project : Project) (retired : List ℕ) (newEntries : List LedgerEntry) :
    Slot → Option LedgerEntry
  | .old episode =>
      let entry := project.entries.find? fun entry => entry.episode = episode
      if episode ∈ retired then entry.map retire else entry
  | .new i => newEntries[i]?

/-- `_apply_adoption`: the ids of the candidate episodes, and the project. -/
def applyAdoption (project : Project) (candidate : ReplanCandidate) (adoption : Adoption) :
    List ℕ × Project :=
  let newIds := List.range' (project.episodeIdHighWater + 1) candidate.episodes.length
  let newEntries := List.zipWith (newEntry project) candidate.episodes newIds
  let entries := adoption.order.filterMap (slotEntry project adoption.retired newEntries)
  let cleared := adoption.replaced.foldl (fun files episode => Function.update files episode none)
    project.files
  let written := (candidate.episodes.zip newIds).foldl
    (fun files (draft, episode) => Function.update files episode (draftText project.docs draft)) cleared
  let refreshed := candidate.episodes.filterMap fun draft => draft.span.map (·.sourceFile)
  (newIds, { project with
    entries
    highWater := newIds.getLast?.getD project.highWater
    fingerprints := candidate.sourceFingerprints
    files := written } |>.syncSourceSnapshots prints.digest refreshed)

def requireCandidate (stored : Stored) (candidateId : String) : Except ReplanError ReplanCandidate :=
  orThrow .candidateNotFound (stored.candidate.filter (·.id = candidateId))

/-- `_commit` of the adoption. An impact that has not been confirmed is `inl`. -/
def commitAdoption (candidateId : String) (revision : Option String) (plannedFirst : ℕ)
    (candidate : Option ReplanCandidate) (project : Project) :
    Except (ReplanAdoptionImpact ⊕ ReplanError) ((ReplanAdoptionImpact × List ℕ) × Project) := do
  let locked ← (requireCandidate ⟨project, candidate⟩ candidateId).mapError .inr
  let (adoption, impact) ← (adoptionImpact prints project locked).mapError .inr
  if some (prints.impact impact) ≠ revision then throw (.inl impact)
  else if project.episodeIdHighWater + 1 ≠ plannedFirst then throw (.inr .conflict)
  else
    let (episodes, adopted) := applyAdoption prints project locked adoption
    return ((impact, episodes), adopted)

/-- `adopt_replan_candidate`, without the deletion of the episodes that retire. `seen` is the project in
front of the lock. -/
def adoptReplanCandidate (candidateId : String) (revision : Option String) (seen stored : Stored) :
    Except ReplanError ReplanOutcome := do
  let candidate ← requireCandidate seen candidateId
  let (_, impact) ← adoptionImpact prints seen.project candidate
  if revision ≠ some (prints.impact impact) then return .confirmationRequired impact
  else
    match stored.project.applyMutation prints.digest
        (commitAdoption prints candidateId revision (seen.project.episodeIdHighWater + 1)
          stored.candidate) with
    | .ok ((impact, episodes), adopted) => return .adopted impact episodes ⟨adopted, none⟩
    | .error (.inl impact) => return .confirmationRequired impact
    | .error (.inr error) => throw error

end Plan

end ShortReel.EpisodeReplan
