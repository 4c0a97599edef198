import ShortReel.SessionStoreLookups

/-!
# Steps of a branch

What a step of one call of `branch` keeps: of the new session what the phase of the call says, and of
every other session all but the pointer of the one that is branched.
-/

namespace ShortReel.SessionBranchSteps

open InsertionDict PrefixFork SessionBranch SessionStoreLookups

section Frames

variable {session : SessionId} {call : Call} {stores before after : Stores}

/-- The writes of a call of `branch`. -/
inductive Write (session : SessionId) (call : Call) (stores : Stores) : Stores → Prop where
  | same : Write session call stores stores
  | append (subpath : Subpath) (entries : List Entry) : Write session call stores
      { stores with transcripts := stores.transcripts.append call.newSessionId subpath entries }
  | create (projectName anchorUuid : String) :
      Write session call stores (stores.create projectName call.newSessionId session anchorUuid)
  | mark : Write session call stores (stores.markSuperseded session call.newSessionId).1
  | clear : Write session call stores (stores.clearSuperseded session call.newSessionId)
  | delete : Write session call stores
      { stores with transcripts := stores.transcripts.delete call.newSessionId }
  | purge : Write session call stores (stores.deleteSession call.newSessionId)

theorem Write.written {outcome : Outcome} (h : Write session call stores after) :
    Write session call stores (outcome.written stores after) := by
  unfold Outcome.written
  split
  · exact h
  · exact h
  · exact .same

theorem branchStep_write (outcome : Outcome) (phase : Phase) :
    Write session call stores (branchStep session call stores outcome phase).1 := by
  cases phase with
  | checking =>
      simp only [branchStep]
      split
      · exact .same
      · exact .same
  | loading plan =>
      simp only [branchStep]
      split
      · exact .same
      · split
        · exact .same
        · split_ifs
          · exact .same
          · exact .same
  | appending plan front => exact (Write.append _ _).written
  | listing plan front => exact .same
  | carrying plan front copied subpaths =>
      cases subpaths with
      | nil => exact .same
      | cons subpath subpaths =>
          simp only [branchStep]
          split
          · exact .same
          · exact .same
  | carried plan front copied subpath entries subpaths => exact (Write.append _ _).written
  | creating plan copied => exact (Write.create _ _).written
  | marking copied => exact Write.mark.written
  | clearing => exact Write.clear.written
  | deleting => exact Write.delete.written
  | purging => exact Write.purge.written
  | succeeded copied => exact .same
  | refused => exact .same
  | failed => exact .same

structure Frame (session new : SessionId) (before after : Stores) : Prop where
  load : ∀ id, id ≠ new → ∀ subpath,
    after.transcripts.load id subpath = before.transcripts.load id subpath
  summaries : ∀ id, id ≠ new → (id ∈ after.transcripts.summaries ↔ id ∈ before.transcripts.summaries)
  subkeys : ∀ id, id ≠ new → after.transcripts.listSubkeys id = before.transcripts.listSubkeys id
  row : ∀ id, id ≠ new → id ≠ session → get after.sessions id = get before.sessions id
  origin : (get after.sessions session).map AgentSession.projectName =
    (get before.sessions session).map AgentSession.projectName
  pointer : after.pointer session = before.pointer session ∨
    (before.pointer session = none ∧ after.pointer session = some new) ∨
    (before.pointer session = some new ∧ after.pointer session = none)

theorem frame_transcripts {new : SessionId} {transcripts : TranscriptStore}
    (hload : ∀ id, id ≠ new → ∀ subpath,
      transcripts.load id subpath = before.transcripts.load id subpath)
    (hsummaries : ∀ id, id ≠ new → (id ∈ transcripts.summaries ↔ id ∈ before.transcripts.summaries))
    (hsubkeys : ∀ id, id ≠ new → transcripts.listSubkeys id = before.transcripts.listSubkeys id) :
    Frame session new before { before with transcripts } :=
  ⟨hload, hsummaries, hsubkeys, fun _ _ _ => rfl, rfl, .inl rfl⟩

theorem map_projectName_repoint (guard : SessionId → AgentSession → Bool)
    (value : Option SessionId) (id : SessionId) :
    (get (before.repoint guard value).sessions id).map AgentSession.projectName =
      (get before.sessions id).map AgentSession.projectName := by
  rw [get_repoint, Option.map_map]
  congr 1
  funext row
  rw [Function.comp_apply]
  split_ifs <;> rfl

theorem row_repoint {guard : SessionId → AgentSession → Bool} {value : Option SessionId}
    {id : SessionId} (h : ∀ row, get before.sessions id = some row → guard id row = false) :
    get (before.repoint guard value).sessions id = get before.sessions id := by
  rw [get_repoint]
  cases hrow : get before.sessions id with
  | none => rfl
  | some row =>
      rw [Option.map_some, h row hrow]
      rfl

theorem pointer_repoint_cases (guard : SessionId → AgentSession → Bool) (value : Option SessionId) :
    (before.repoint guard value).pointer session = before.pointer session ∨
      ∃ row, get before.sessions session = some row ∧ guard session row = true ∧
        before.pointer session = row.supersededBy ∧
        (before.repoint guard value).pointer session = value := by
  cases hrow : get before.sessions session with
  | none =>
      refine .inl ?_
      unfold Stores.pointer
      rw [get_repoint, hrow]
      rfl
  | some row =>
      have hpointer := pointer_repoint guard value hrow
      by_cases hguard : guard session row = true
      · rw [if_pos hguard] at hpointer
        refine .inr ⟨row, rfl, hguard, ?_, hpointer⟩
        unfold Stores.pointer
        rw [hrow, Option.bind_some]
      · rw [if_neg hguard] at hpointer
        exact .inl hpointer

theorem Write.frame (h : Write session call before after) (hne : call.newSessionId ≠ session)
    (hothers : ∀ id row, id ≠ session → get before.sessions id = some row →
      row.supersededBy ≠ some call.newSessionId)
    (hnew : before.pointer call.newSessionId = none) :
    Frame session call.newSessionId before after := by
  cases h with
  | same =>
      exact ⟨fun _ _ _ => rfl, fun _ _ => Iff.rfl, fun _ _ => rfl, fun _ _ _ => rfl, rfl, .inl rfl⟩
  | append subpath entries =>
      exact frame_transcripts (fun _ hid => load_append_ne hid) (fun _ hid => mem_summaries_append hid)
        fun _ hid => listSubkeys_append hid
  | create projectName anchorUuid =>
      have hget := fun id => @get_create before call.newSessionId id projectName session anchorUuid
      have horigin := hget session
      rw [if_neg hne.symm] at horigin
      refine ⟨fun _ _ _ => rfl, fun _ _ => Iff.rfl, fun _ _ => rfl, fun id hid _ => ?_,
        congrArg (Option.map AgentSession.projectName) horigin, .inl ?_⟩
      · exact (hget id).trans (if_neg hid)
      · unfold Stores.pointer
        rw [horigin]
  | mark =>
      refine ⟨fun _ _ _ => rfl, fun _ _ => Iff.rfl, fun _ _ => rfl, fun id _ hid => ?_,
        map_projectName_repoint _ _ _, ?_⟩
      · exact row_repoint fun row _ => decide_eq_false fun hboth => hid hboth.1
      · rcases @pointer_repoint_cases session before
          (fun id row => decide (id = session ∧ row.supersededBy = none)) _ with
          hsame | ⟨row, -, hguard, hold, hpointer⟩
        · exact .inl hsame
        · exact .inr (.inl ⟨hold.trans (of_decide_eq_true hguard).2, hpointer⟩)
  | clear =>
      refine ⟨fun _ _ _ => rfl, fun _ _ => Iff.rfl, fun _ _ => rfl, fun id _ hid => ?_,
        map_projectName_repoint _ _ _, ?_⟩
      · exact row_repoint fun row _ => decide_eq_false fun hboth => hid hboth.1
      · rcases @pointer_repoint_cases session before (fun id row =>
          decide (id = session ∧ row.supersededBy = some call.newSessionId)) none with
          hsame | ⟨row, -, hguard, hold, hpointer⟩
        · exact .inl hsame
        · exact .inr (.inr ⟨hold.trans (of_decide_eq_true hguard).2, hpointer⟩)
  | delete =>
      refine frame_transcripts (fun id hid subpath => ?_) (fun id hid => ?_) fun _ hid =>
        listSubkeys_delete hid
      · rw [load_delete, if_neg hid]
      · rw [mem_summaries_delete, and_iff_left hid]
  | purge =>
      have hget := fun id => @get_deleteSession before call.newSessionId id
      have hrepoint : ∀ id, id ≠ call.newSessionId →
          get (before.deleteSession call.newSessionId).sessions id = get (before.repoint
            (fun _ row => decide (row.supersededBy = some call.newSessionId)) none).sessions id := by
        intro id hid
        rw [hget, if_neg hid, get_repoint, hnew]
        simp only [decide_eq_true_eq]
      refine ⟨fun _ _ _ => rfl, fun _ _ => Iff.rfl, fun _ _ => rfl, fun id hid hsession => ?_, ?_, ?_⟩
      · rw [hrepoint id hid]
        exact row_repoint fun row hrow => decide_eq_false (hothers id row hsession hrow)
      · rw [hrepoint session hne.symm]
        exact map_projectName_repoint _ _ _
      · have hpointer : (before.deleteSession call.newSessionId).pointer session =
            (before.repoint (fun _ row => decide (row.supersededBy = some call.newSessionId))
              none).pointer session := by
          unfold Stores.pointer
          rw [hrepoint session hne.symm]
        rw [hpointer]
        rcases @pointer_repoint_cases session before
          (fun _ row => decide (row.supersededBy = some call.newSessionId)) none with
          hsame | ⟨row, -, hguard, hold, hnone⟩
        · exact .inl hsame
        · exact .inr (.inr ⟨hold.trans (of_decide_eq_true hguard), hnone⟩)

theorem Write.unpointed (h : Write session call before after) (hne : call.newSessionId ≠ session)
    (hnone : before.pointer call.newSessionId = none) :
    after.pointer call.newSessionId = none := by
  cases h with
  | same => exact hnone
  | append subpath entries => exact hnone
  | create projectName anchorUuid =>
      unfold Stores.pointer
      rw [get_create, if_pos rfl]
      rfl
  | mark =>
      rw [← hnone, Stores.pointer, Stores.pointer]
      congr 1
      exact row_repoint fun row _ => decide_eq_false fun hboth => hne hboth.1
  | clear =>
      rw [← hnone, Stores.pointer, Stores.pointer]
      congr 1
      exact row_repoint fun row _ => decide_eq_false fun hboth => hne hboth.1
  | delete => exact hnone
  | purge =>
      unfold Stores.pointer
      rw [get_deleteSession, if_pos rfl]
      rfl

end Frames

end ShortReel.SessionBranchSteps
