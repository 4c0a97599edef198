import ShortReel.SessionBranchStages

/-!
# Concurrent branches

Any calls of `branch` on one session, in any order of their steps.
-/

namespace ShortReel.SessionBranchRuns

open InsertionDict PrefixFork SessionBranch SessionStoreLookups SessionBranchSteps
open SessionBranchStages

section Pointers

variable {session : SessionId} {call : Call} {stores before after : Stores}

theorem pointer_clearSuperseded :
    (stores.clearSuperseded session call.newSessionId).pointer session ≠ some call.newSessionId := by
  intro h
  rcases @pointer_repoint_cases session stores
      (fun id row => decide (id = session ∧ row.supersededBy = some call.newSessionId)) none with
    hsame | ⟨row, -, -, -, hnone⟩
  · cases hrow : get stores.sessions session with
    | none =>
        have hold : stores.pointer session = none := by
          rw [Stores.pointer, hrow]
          rfl
        cases hold.symm.trans (hsame.symm.trans h)
    | some row =>
        have hold : row.supersededBy = some call.newSessionId := by
          have hpointer := hsame.symm.trans h
          rwa [Stores.pointer, hrow] at hpointer
        have hnew := pointer_repoint
          (fun id row => decide (id = session ∧ row.supersededBy = some call.newSessionId)) none hrow
        rw [if_pos (decide_eq_true ⟨rfl, hold⟩)] at hnew
        cases hnew.symm.trans h
  · cases hnone.symm.trans h

theorem pointer_deleteSession (hnew : stores.pointer call.newSessionId = none) (id : SessionId) :
    (stores.deleteSession call.newSessionId).pointer id ≠ some call.newSessionId := by
  unfold Stores.pointer
  rw [get_deleteSession, hnew]
  split_ifs
  · exact Option.some_ne_none _ ∘ Eq.symm
  · cases get stores.sessions id with
    | none => exact Option.some_ne_none _ ∘ Eq.symm
    | some row =>
        rw [Option.map_some, Option.bind_some]
        split_ifs with hpoints
        · exact Option.some_ne_none _ ∘ Eq.symm
        · exact hpoints

theorem pointer_markSuperseded
    (hwon : (stores.markSuperseded session call.newSessionId).2 = true) :
    (stores.markSuperseded session call.newSessionId).1.pointer session = some call.newSessionId := by
  obtain ⟨row, hrow, hnone⟩ := (Option.any_eq_true _ _).mp hwon
  have hpointer := pointer_repoint
    (fun id row => decide (id = session ∧ row.supersededBy = none)) (some call.newSessionId) hrow
  rwa [if_pos (decide_eq_true ⟨rfl, of_decide_eq_true hnone⟩)] at hpointer

theorem pointer_create (hne : call.newSessionId ≠ session) (projectName anchorUuid : String) :
    (stores.create projectName call.newSessionId session anchorUuid).pointer session =
      stores.pointer session := by
  unfold Stores.pointer
  rw [get_create, if_neg hne.symm]

theorem pointer_written {outcome : Outcome} (h : after.pointer session = before.pointer session) :
    (outcome.written before after).pointer session = before.pointer session := by
  unfold Outcome.written
  split
  · exact h
  · exact h
  · rfl

end Pointers

section Claims

variable {session : SessionId} {call : Call} {stores : Stores} {outcome : Outcome} {phase : Phase}

/-- A call whose new session the pointer names has won or is about to clear it. -/
def Claims (session : SessionId) (call : Call) (stores : Stores) (phase : Phase) : Prop :=
  stores.pointer session = some call.newSessionId →
    phase = .clearing ∨ ∃ copied, phase = .succeeded copied

def Wins (session : SessionId) (call : Call) (stores : Stores) (phase : Phase) : Prop :=
  ∀ copied, phase = .succeeded copied → stores.pointer session = some call.newSessionId

theorem succeeded_cases {copied : ℕ}
    (h : (branchStep session call stores outcome phase).2 = .succeeded copied) :
    phase = .succeeded copied ∨ (phase = .marking copied ∧ outcome = .ok ∧
      (stores.markSuperseded session call.newSessionId).2 = true) := by
  cases phase with
  | checking =>
      simp only [branchStep] at h
      split at h <;> cases h
  | loading plan =>
      cases outcome with
      | raised applied => cases h
      | ok =>
          simp only [branchStep] at h
          split at h
          · cases h
          · split_ifs at h
  | appending plan front =>
      cases outcome with
      | raised applied => cases h
      | ok =>
          simp only [branchStep, Outcome.next] at h
          split_ifs at h
  | carrying plan front copied subpaths =>
      cases outcome with
      | raised applied =>
          cases subpaths with
          | nil => cases h
          | cons subpath subpaths =>
              simp only [branchStep] at h
              split at h <;> cases h
      | ok =>
          cases subpaths with
          | nil => cases h
          | cons subpath subpaths =>
              simp only [branchStep, Outcome.next] at h
              split at h
              · cases h
              · split_ifs at h
  | listing plan front => cases outcome <;> cases h
  | carried plan front copied subpath entries subpaths => cases outcome <;> cases h
  | creating plan copied => cases outcome <;> cases h
  | marking copied =>
      cases outcome with
      | raised applied => cases h
      | ok =>
          rw [branchStep_marking] at h
          by_cases hwon : (stores.markSuperseded session call.newSessionId).2 = true
          · dsimp only at h
            rw [if_pos hwon] at h
            cases h
            exact .inr ⟨rfl, rfl, hwon⟩
          · dsimp only at h
            rw [if_neg hwon] at h
            cases h
  | clearing => cases h
  | deleting => cases h
  | purging => cases h
  | succeeded copied => exact .inl h
  | refused => cases h
  | failed => cases h

theorem pointer_branchStep (hne : call.newSessionId ≠ session) :
    (branchStep session call stores outcome phase).1.pointer session = stores.pointer session ∨
      (∃ copied, phase = .marking copied) ∨ phase = .clearing ∨ phase = .purging := by
  cases phase with
  | checking =>
      refine .inl ?_
      simp only [branchStep]
      split
      · rfl
      · rfl
  | loading plan =>
      refine .inl ?_
      simp only [branchStep]
      split
      · rfl
      · split
        · rfl
        · split_ifs
          · rfl
          · rfl
  | appending plan front => exact .inl (pointer_written rfl)
  | listing plan front => exact .inl rfl
  | carrying plan front copied subpaths =>
      refine .inl ?_
      cases subpaths with
      | nil => rfl
      | cons subpath subpaths =>
          simp only [branchStep]
          split
          · rfl
          · rfl
  | carried plan front copied subpath entries subpaths => exact .inl (pointer_written rfl)
  | creating plan copied => exact .inl (pointer_written (pointer_create hne _ _))
  | marking copied => exact .inr (.inl ⟨copied, rfl⟩)
  | clearing => exact .inr (.inr (.inl rfl))
  | deleting => exact .inl (pointer_written rfl)
  | purging => exact .inr (.inr (.inr rfl))
  | succeeded copied => exact .inl rfl
  | refused => exact .inl rfl
  | failed => exact .inl rfl

theorem Claims.step (h : Claims session call stores phase) (hwins : Wins session call stores phase)
    (hne : call.newSessionId ≠ session) (hnew : stores.pointer call.newSessionId = none)
    (hclean : phase.cleansUp → outcome = .ok) :
    Claims session call (branchStep session call stores outcome phase).1
      (branchStep session call stores outcome phase).2 := by
  intro hpointer
  rcases @pointer_branchStep session call stores outcome phase hne with
    hsame | ⟨copied, rfl⟩ | rfl | rfl
  · rcases h (hsame.symm.trans hpointer) with rfl | ⟨copied, rfl⟩
    · rw [hclean rfl] at hpointer
      exact absurd hpointer pointer_clearSuperseded
    · exact .inr ⟨copied, rfl⟩
  · cases outcome with
    | raised applied => exact .inl rfl
    | ok =>
        rw [branchStep_marking]
        by_cases hwon : (stores.markSuperseded session call.newSessionId).2 = true
        · rw [if_pos hwon]
          exact .inr ⟨copied, rfl⟩
        · rw [if_neg hwon]
          exact .inl rfl
  · rw [hclean rfl] at hpointer
    exact absurd hpointer pointer_clearSuperseded
  · rw [hclean rfl] at hpointer
    exact absurd hpointer (pointer_deleteSession hnew session)

theorem Wins.step (h : Wins session call stores phase) :
    Wins session call (branchStep session call stores outcome phase).1
      (branchStep session call stores outcome phase).2 := by
  intro copied hphase
  rcases succeeded_cases hphase with rfl | ⟨rfl, rfl, hwon⟩
  · exact h copied rfl
  · exact pointer_markSuperseded hwon

end Claims

section Runs

variable {ι : Type} [DecidableEq ι] {session : SessionId} {calls : ι → Call} {start : Stores}
  {state later : State ι}

/-- What the calls rely on: the ids of their new sessions are new and differ. -/
structure Setting (session : SessionId) (calls : ι → Call) (start : Stores) : Prop where
  injective : Function.Injective fun i => (calls i).newSessionId
  ne : ∀ i, (calls i).newSessionId ≠ session
  fresh : ∀ i, Fresh start (calls i).newSessionId
  kept : Kept start.transcripts

structure Invariant (session : SessionId) (calls : ι → Call) (start : Stores) (state : State ι) :
    Prop where
  reads : Reads session start state.stores
  rows : ∀ id, id ≠ session → (∀ i, id ≠ (calls i).newSessionId) →
    get state.stores.sessions id = get start.sessions id
  unpointed : ∀ i, state.stores.pointer (calls i).newSessionId = none
  stage : ∀ i, Stage session (calls i) start (view state.stores (calls i).newSessionId)
    (state.phase i)
  claims : ∀ i, Claims session (calls i) state.stores (state.phase i)
  wins : ∀ i, Wins session (calls i) state.stores (state.phase i)

omit [DecidableEq ι] in
theorem invariant_start (h : Setting session calls start) :
    Invariant session calls start { stores := start, phase := fun _ => .checking } := by
  refine ⟨⟨fun _ => rfl, rfl, rfl⟩, fun _ _ _ => rfl, fun i => ?_, fun i => (h.fresh i).absent,
    fun i hpointer => absurd hpointer ((h.fresh i).unpointed session), fun i copied hphase => ?_⟩
  · have hrow := (h.fresh i).absent.row
    unfold Stores.pointer
    rw [show get start.sessions (calls i).newSessionId = none from hrow]
    rfl
  · cases hphase

omit [DecidableEq ι] in
theorem Invariant.others (h : Invariant session calls start state) (hsetting : Setting session calls start)
    (i : ι) (id : SessionId) (row : AgentSession) (hid : id ≠ session)
    (hrow : get state.stores.sessions id = some row) :
    row.supersededBy ≠ some (calls i).newSessionId := by
  by_cases hnew : ∃ j, id = (calls j).newSessionId
  · obtain ⟨j, rfl⟩ := hnew
    have hnone := h.unpointed j
    rw [Stores.pointer, hrow, Option.bind_some] at hnone
    rw [hnone]
    exact Option.some_ne_none _ ∘ Eq.symm
  · have hstart := (h.rows id hid fun j heq => hnew ⟨j, heq⟩).symm.trans hrow
    exact ((hsetting.fresh i).session _ (mem_of_get hstart)).2

theorem Invariant.frame (h : Invariant session calls start state)
    (hsetting : Setting session calls start) (step : ι × Outcome) :
    Frame session (calls step.1).newSessionId state.stores (run session calls state step).stores :=
  (branchStep_write step.2 (state.phase step.1)).frame (hsetting.ne step.1)
    (h.others hsetting step.1) (h.unpointed step.1)

theorem view_frame {new id : SessionId} {before after : Stores} (h : Frame session new before after)
    (hid : id ≠ new) (hsession : id ≠ session) : view after id = view before id := by
  unfold view
  rw [funext (h.load id hid), propext (h.summaries id hid), h.row id hid hsession]

theorem Invariant.step (h : Invariant session calls start state)
    (hsetting : Setting session calls start) {step : ι × Outcome} (hclean : CleansUp state step) :
    Invariant session calls start (run session calls state step) := by
  have hframe := h.frame hsetting step
  have hother : ∀ i, i ≠ step.1 → (calls i).newSessionId ≠ (calls step.1).newSessionId :=
    fun i hne heq => hne (hsetting.injective heq)
  have hself : (run session calls state step).phase step.1 =
      (branchStep session (calls step.1) state.stores step.2 (state.phase step.1)).2 :=
    Function.update_self _ _ _
  have hphase : ∀ i, i ≠ step.1 → (run session calls state step).phase i = state.phase i :=
    fun i hne => Function.update_of_ne hne _ _
  refine ⟨⟨fun subpath => ?_, ?_, ?_⟩, fun id hid hnew => ?_, fun i => ?_, fun i => ?_, fun i => ?_,
    fun i => ?_⟩
  · exact (hframe.load session (hsetting.ne step.1).symm subpath).trans (h.reads.load subpath)
  · exact (hframe.subkeys session (hsetting.ne step.1).symm).trans h.reads.subkeys
  · exact hframe.origin.trans h.reads.project
  · exact (hframe.row id (hnew step.1) hid).trans (h.rows id hid hnew)
  · by_cases hsame : i = step.1
    · rw [hsame]
      exact (branchStep_write step.2 (state.phase step.1)).unpointed (hsetting.ne step.1) (h.unpointed step.1)
    · unfold Stores.pointer
      rw [hframe.row _ (hother i hsame) (hsetting.ne i)]
      exact h.unpointed i
  · by_cases hsame : i = step.1
    · rw [hsame, hself]
      exact (h.stage step.1).after h.reads hsetting.kept (hsetting.ne step.1) hclean
    · rw [hphase i hsame, view_frame hframe (hother i hsame) (hsetting.ne i)]
      exact h.stage i
  · by_cases hsame : i = step.1
    · rw [hsame, hself]
      exact (h.claims step.1).step (h.wins step.1) (hsetting.ne step.1) (h.unpointed step.1) hclean
    · rw [hphase i hsame]
      intro hpointer
      rcases hframe.pointer with hkept | ⟨-, hnew⟩ | ⟨-, hnone⟩
      · exact h.claims i (hkept.symm.trans hpointer)
      · exact absurd (Option.some.inj (hpointer.symm.trans hnew)) (hother i hsame)
      · cases hnone.symm.trans hpointer
  · by_cases hsame : i = step.1
    · rw [hsame, hself]
      exact (h.wins step.1).step
    · rw [hphase i hsame]
      intro copied hwon
      have hpointer := h.wins i copied hwon
      rcases hframe.pointer with hkept | ⟨hnone, -⟩ | ⟨hold, -⟩
      · exact hkept.trans hpointer
      · cases hnone.symm.trans hpointer
      · exact absurd (Option.some.inj (hpointer.symm.trans hold)) (hother i hsame)

theorem reachable_invariant (hsetting : Setting session calls start)
    (hreach : (branches session calls start).ReachableWhen CleansUp state) :
    Invariant session calls start state := by
  refine hreach.invariant _ (fun state hinitial => ?_) fun state step later _ hkept hclean hstep => ?_
  · rw [hinitial]
    exact invariant_start hsetting
  · rw [hstep]
    exact hkept.step hsetting hclean

theorem succeeded_stays {i : ι} {copied : ℕ} (hsucceeded : state.phase i = .succeeded copied)
    (hleads : (branches session calls start).LeadsWhen CleansUp state later) :
    later.phase i = .succeeded copied := by
  induction hleads with
  | refl => exact hsucceeded
  | tail _ hlast ih =>
      obtain ⟨step, -, rfl⟩ := hlast
      by_cases hsame : i = step.1
      · subst hsame
        refine (Function.update_self _ _ _).trans ?_
        rw [ih]
        rfl
      · exact (Function.update_of_ne hsame _ _).trans ih

/-- A call that succeeds leaves a whole copy that the pointer names, one that ends otherwise leaves
nothing, and no call moves the pointer but between nothing and its own session. -/
theorem branches_all_or_nothing (hsetting : Setting session calls start)
    (hreach : (branches session calls start).ReachableWhen CleansUp state) :
    (∀ i copied, state.phase i = .succeeded copied →
      (∃ plan front, Built session (calls i) start plan front copied
        (view state.stores (calls i).newSessionId)) ∧
        ∀ later, (branches session calls start).LeadsWhen CleansUp state later →
          later.stores.pointer session = some (calls i).newSessionId) ∧
    (∀ i, state.phase i = .refused ∨ state.phase i = .failed →
      (view state.stores (calls i).newSessionId).Absent ∧
        state.stores.pointer session ≠ some (calls i).newSessionId) ∧
    (∀ i j copied count, state.phase i = .succeeded copied → state.phase j = .succeeded count →
      i = j) ∧
    ∀ step, CleansUp state step →
      let pointer := state.stores.pointer session
      let new := (calls step.1).newSessionId
      let after := (run session calls state step).stores.pointer session
      after = pointer ∨ (pointer = none ∧ after = some new) ∨ (pointer = some new ∧ after = none) := by
  have hinvariant := reachable_invariant hsetting hreach
  refine ⟨fun i copied hphase => ⟨?_, fun later hleads => ?_⟩, fun i hphase => ⟨?_, fun hpointer => ?_⟩,
    fun i j copied count hi hj => ?_, fun step _ => (hinvariant.frame hsetting step).pointer⟩
  · have hstage := hinvariant.stage i
    rw [hphase] at hstage
    exact hstage
  · exact (reachable_invariant hsetting (hreach.leads hleads)).wins i copied
      (succeeded_stays hphase hleads)
  · have hstage := hinvariant.stage i
    rcases hphase with hrefused | hfailed
    · rw [hrefused] at hstage
      exact hstage
    · rw [hfailed] at hstage
      exact hstage
  · rcases hinvariant.claims i hpointer with hclearing | ⟨copied, hsucceeded⟩
    · rw [hclearing] at hphase
      rcases hphase with h | h <;> cases h
    · rw [hsucceeded] at hphase
      rcases hphase with h | h <;> cases h
  · have hpointers := (hinvariant.wins i copied hi).symm.trans (hinvariant.wins j count hj)
    exact hsetting.injective (Option.some.inj hpointers)

end Runs

def entryOf (uuid type : String) (agentId : Option String) : Entry where
  uuid := some uuid
  type := some type
  sessionId := some "old"
  forkedFrom := none
  timestamp := some "t0"
  blocks := none
  agentId := agentId
  rest := ""

def talkStores : Stores where
  transcripts :=
    { rows := [(("old", []), [entryOf "s" "file-history-snapshot" none, entryOf "u" "user" none,
          entryOf "a" "assistant" (some "7"), entryOf "v" "user" none]),
        (("old", "subagents/agent-7".toList), [entryOf "w" "assistant" none])]
      summaries := ["old"] }
  sessions := [("old", ⟨"film", none, none, none⟩)]

def talkCall (newSessionId anchorUuid : String) : Call where
  projectCwd := some "/films/film"
  anchorUuid := some anchorUuid
  newSessionId := newSessionId
  now := "t1"

def talkCalls : Bool → Call
  | false => talkCall "one" "v"
  | true => talkCall "two" "u"

def talkSteps : List (Bool × Outcome) :=
  [(false, .ok), (true, .ok), (false, .ok), (true, .ok), (false, .ok), (true, .ok), (false, .ok),
    (false, .ok), (false, .ok), (false, .ok), (false, .ok), (false, .ok), (true, .ok), (true, .ok),
    (true, .ok), (true, .ok), (true, .ok)]

def talkRun (steps : List (Bool × Outcome)) : State Bool :=
  steps.foldl (run "old" talkCalls) { stores := talkStores, phase := fun _ => .checking }

theorem talk_setting : Setting "old" talkCalls talkStores := by
  refine ⟨fun first second => ?_, fun i => ?_, fun i => ?_, by decide, by decide⟩
  · cases first <;> cases second <;> decide
  · cases i <;> decide
  · cases i <;> exact ⟨by decide, by decide, by decide⟩

theorem along_ok {state : State Bool} {steps : List (Bool × Outcome)}
    (h : ∀ step ∈ steps, step.2 = .ok) :
    TransitionSystem.Along (run "old" talkCalls) CleansUp state steps := by
  induction steps generalizing state with
  | nil => trivial
  | cons step steps ih =>
      exact ⟨fun _ => h step List.mem_cons_self, ih fun other hmem =>
        h other (List.mem_cons_of_mem _ hmem)⟩

theorem talk_reachable {steps : List (Bool × Outcome)} (h : ∀ step ∈ steps, step.2 = .ok) :
    (branches "old" talkCalls talkStores).ReachableWhen CleansUp (talkRun steps) :=
  TransitionSystem.reachable_foldl (.start rfl) (along_ok h)

theorem branches_all_or_nothing_two :
    (talkRun talkSteps).phase false = .succeeded 4 ∧ (talkRun talkSteps).phase true = .failed ∧
      (∃ plan front, Built "old" (talkCalls false) talkStores plan front 4
        (view (talkRun talkSteps).stores "one")) ∧
      (view (talkRun talkSteps).stores "two").Absent := by
  have hok : ∀ step ∈ talkSteps, step.2 = .ok := by decide
  have hresult := branches_all_or_nothing talk_setting (talk_reachable hok)
  have hwon : (talkRun talkSteps).phase false = .succeeded 4 := by decide
  have hlost : (talkRun talkSteps).phase true = .failed := by decide
  exact ⟨hwon, hlost, (hresult.1 false 4 hwon).1, (hresult.2.1 true (.inr hlost)).1⟩

/-- A prefix of nothing but a snapshot is not copied. -/
theorem snapshot_prefix_left_out :
    ∃ state, (branches "old" talkCalls talkStores).ReachableWhen CleansUp state ∧
      state.phase true = .succeeded 0 ∧
      prefixBeforeAnchor "u" ((talkStores.transcripts.load "old" []).getD []) =
        .ok [entryOf "s" "file-history-snapshot" none] ∧
      state.stores.transcripts.load "two" [] = none :=
  ⟨talkRun (List.replicate 4 (true, .ok)), talk_reachable (by decide), by decide, by decide, by decide⟩

end ShortReel.SessionBranchRuns
