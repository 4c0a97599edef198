import ShortReel.SessionBranchSteps

/-!
# Stages of a branch

What is there of the new session in each phase of a call of `branch`.
-/

namespace ShortReel.SessionBranchStages

open InsertionDict PrefixFork SessionBranch SessionStoreLookups SessionBranchSteps

structure View where
  load : Subpath → Option (List Entry)
  summary : Prop
  row : Option AgentSession

def view (stores : Stores) (id : SessionId) : View where
  load := stores.transcripts.load id
  summary := id ∈ stores.transcripts.summaries
  row := get stores.sessions id

structure View.Absent (view : View) : Prop where
  load : ∀ subpath, view.load subpath = none
  summary : ¬ view.summary
  row : view.row = none

/-- The stores as they keep themselves: the uuids of a timeline are distinct. -/
structure Kept (store : TranscriptStore) : Prop where
  keys : (keys store.rows).Nodup
  distinct : ∀ item ∈ store.rows, Distinct item.2

structure Fresh (stores : Stores) (id : SessionId) : Prop where
  rows : ∀ item ∈ stores.transcripts.rows, item.1.1 ≠ id
  summary : id ∉ stores.transcripts.summaries
  session : ∀ item ∈ stores.sessions, item.1 ≠ id ∧ item.2.supersededBy ≠ some id

theorem Fresh.absent {stores : Stores} {id : SessionId} (h : Fresh stores id) :
    (view stores id).Absent := by
  refine ⟨fun subpath => ?_, h.summary, ?_⟩
  · refine get_eq_none_iff.mpr fun hmem => ?_
    obtain ⟨item, hitem, hkey⟩ := List.mem_map.mp hmem
    exact h.rows item hitem (congrArg Prod.fst hkey)
  · refine get_eq_none_iff.mpr fun hmem => ?_
    obtain ⟨item, hitem, hkey⟩ := List.mem_map.mp hmem
    exact (h.session item hitem).1 hkey

theorem Fresh.unpointed {stores : Stores} {id : SessionId} (h : Fresh stores id) (other : SessionId) :
    stores.pointer other ≠ some id := by
  intro hpointer
  obtain ⟨row, hrow, hpoints⟩ := Option.bind_eq_some_iff.mp hpointer
  exact (h.session _ (mem_of_get hrow)).2 hpoints

section Stages

variable {session : SessionId} {call : Call} {start stores : Stores} {plan : Plan}
  {front entries : List Entry} {subpath : Subpath} {subpaths : List Subpath}

structure Chosen (session : SessionId) (call : Call) (start : Stores) (plan : Plan)
    (front : List Entry) : Prop where
  project : (get start.sessions session).map AgentSession.projectName = some plan.projectName
  anchor : call.anchorUuid = some plan.anchorUuid
  front : prefixBeforeAnchor plan.anchorUuid ((start.transcripts.load session []).getD []) = .ok front

/-- The timelines of the new session: the prefix at the main one, and the subagents of the prefix. -/
def copyOf (session : SessionId) (call : Call) (start : Stores) (plan : Plan) (front : List Entry)
    (subpath : Subpath) : Option (List Entry) :=
  if ¬ hasConversation front then none
  else if subpath = [] then
    some (rebound call.newSessionId (Call.origin session plan) call.now front)
  else if matchesSubagent subpath (wantedLeaves front) then
    ((start.transcripts.load session subpath).filter (· ≠ [])).map
      (List.map (Entry.rebind call.newSessionId (Call.origin session plan)))
  else none

structure Copied (session : SessionId) (call : Call) (start : Stores) (plan : Plan)
    (front : List Entry) (remaining : List Subpath) (view : View) : Prop where
  chosen : Chosen session call start plan front
  load : ∀ subpath, view.load subpath =
    if subpath ∈ remaining then none else copyOf session call start plan front subpath
  summary : view.summary ↔ hasConversation front

def rowOf (session : SessionId) (plan : Plan) : AgentSession where
  projectName := plan.projectName
  supersededBy := none
  forkParentSessionId := some session
  forkAnchorUuid := some plan.anchorUuid

structure Built (session : SessionId) (call : Call) (start : Stores) (plan : Plan)
    (front : List Entry) (copied : ℕ) (view : View) : Prop where
  copies : Copied session call start plan front [] view
  count : 0 < copied ↔ hasConversation front
  row : view.row = some (rowOf session plan)

/-- The timelines are copied but for those of some subagents. -/
structure Carrying (session : SessionId) (call : Call) (start : Stores) (plan : Plan)
    (front : List Entry) (copied : ℕ) (subpaths : List Subpath) (view : View) : Prop where
  copies : Copied session call start plan front subpaths view
  conversation : hasConversation front
  row : view.row = none
  count : 0 < copied
  nodup : subpaths.Nodup
  main : [] ∉ subpaths
  wanted : ∀ subpath ∈ subpaths, matchesSubagent subpath (wantedLeaves front)

def Stage (session : SessionId) (call : Call) (start : Stores) (view : View) : Phase → Prop
  | .checking | .refused | .failed => view.Absent
  | .loading plan =>
      (get start.sessions session).map AgentSession.projectName = some plan.projectName ∧
        call.anchorUuid = some plan.anchorUuid ∧ view.Absent
  | .appending plan front =>
      Chosen session call start plan front ∧ hasConversation front ∧ view.Absent
  | .listing plan front =>
      Copied session call start plan front (start.transcripts.listSubkeys session) view ∧
        hasConversation front ∧ view.row = none
  | .carrying plan front copied subpaths =>
      Carrying session call start plan front copied subpaths view
  | .carried plan front copied subpath entries subpaths =>
      Carrying session call start plan front copied (subpath :: subpaths) view ∧
        start.transcripts.load session subpath = some entries ∧ entries ≠ []
  | .creating plan copied => ∃ front,
      Copied session call start plan front [] view ∧ view.row = none ∧
        (0 < copied ↔ hasConversation front)
  | .marking copied | .succeeded copied => ∃ plan front,
      Built session call start plan front copied view
  | .clearing | .deleting => True
  | .purging => (∀ subpath, view.load subpath = none) ∧ ¬ view.summary

theorem map_entryUuid_stampLast (now : String) (entries : List Entry) :
    (stampLast now entries).map Entry.entryUuid = entries.map Entry.entryUuid := by
  fun_induction stampLast now entries with
  | case1 => rfl
  | case2 entry => rfl
  | case3 entry next entries ih =>
      rw [List.map_cons, ih]
      rfl

theorem length_stampLast (now : String) (entries : List Entry) :
    (stampLast now entries).length = entries.length := by
  have h := congrArg List.length (map_entryUuid_stampLast now entries)
  rwa [List.length_map, List.length_map] at h

theorem length_rebound (id : SessionId) (origin : Origin) (now : String) (front : List Entry) :
    (rebound id origin now front).length = front.length := by
  rw [rebound, length_stampLast, List.length_map]

theorem distinct_iff : Distinct entries ↔
    (entries.map Entry.entryUuid).Pairwise fun first second => first.isSome → first ≠ second := by
  rw [List.pairwise_map]
  rfl

theorem distinct_map_rebind {id : SessionId} {origin : Origin} (h : Distinct entries) :
    Distinct (entries.map (Entry.rebind id origin)) := by
  rw [distinct_iff, List.map_map] at *
  exact h

theorem distinct_rebound {id : SessionId} {origin : Origin} {now : String} (h : Distinct front) :
    Distinct (rebound id origin now front) := by
  rw [rebound, distinct_iff, map_entryUuid_stampLast, ← distinct_iff]
  exact distinct_map_rebind h

theorem front_isPrefix {anchorUuid : String} {front : List Entry}
    (h : prefixBeforeAnchor anchorUuid entries = .ok front) : front <+: entries := by
  induction entries generalizing front with
  | nil => cases h
  | cons entry entries ih =>
      unfold prefixBeforeAnchor at h
      split_ifs at h
      · cases h
        exact List.nil_prefix
      · cases hrest : prefixBeforeAnchor anchorUuid entries with
        | error _ =>
            rw [hrest] at h
            cases h
        | ok rest =>
            rw [hrest] at h
            cases h
            exact List.cons_prefix_cons.mpr ⟨rfl, ih hrest⟩

theorem ne_nil_of_hasConversation (h : hasConversation front = true) : front ≠ [] := by
  rintro rfl
  cases h

theorem Kept.load {store : TranscriptStore} (h : Kept store) {id : SessionId} {rows : List Entry}
    (hload : store.load id subpath = some rows) : Distinct rows :=
  h.distinct _ (mem_of_get hload)

theorem Chosen.distinct (h : Chosen session call start plan front) (hkept : Kept start.transcripts) :
    Distinct front := by
  have hprefix := (front_isPrefix h.front).sublist
  cases hload : start.transcripts.load session [] with
  | none =>
      rw [hload] at hprefix
      rw [List.sublist_nil.mp hprefix]
      exact List.Pairwise.nil
  | some rows =>
      rw [hload] at hprefix
      exact (hkept.load hload).sublist hprefix

theorem copyOf_subpath (hconversation : hasConversation front) (hne : subpath ≠ []) :
    copyOf session call start plan front subpath =
      if matchesSubagent subpath (wantedLeaves front) then
        ((start.transcripts.load session subpath).filter (· ≠ [])).map
          (List.map (Entry.rebind call.newSessionId (Call.origin session plan)))
      else none := by
  unfold copyOf
  rw [if_neg (not_not_intro hconversation), if_neg hne]

theorem Copied.skip {view : View}
    (h : Copied session call start plan front (subpath :: subpaths) view)
    (hnone : copyOf session call start plan front subpath = none) :
    Copied session call start plan front subpaths view := by
  refine ⟨h.chosen, fun other => ?_, h.summary⟩
  rw [h.load other]
  by_cases hsame : other = subpath
  · rw [hsame, hnone, if_pos List.mem_cons_self, ite_self]
  · have hiff : other ∈ subpath :: subpaths ↔ other ∈ subpaths := by
      rw [List.mem_cons, or_iff_right hsame]
    simp only [hiff]

theorem Copied.filter {view : View} (h : Copied session call start plan front subpaths view)
    (hconversation : hasConversation front) (hmain : [] ∉ subpaths) :
    Copied session call start plan front
      (subpaths.filter (matchesSubagent · (wantedLeaves front))) view := by
  refine ⟨h.chosen, fun other => ?_, h.summary⟩
  rw [h.load other]
  by_cases hmem : other ∈ subpaths
  · have hne : other ≠ [] := fun heq => hmain (heq ▸ hmem)
    rw [if_pos hmem, copyOf_subpath hconversation hne]
    by_cases hmatches : matchesSubagent other (wantedLeaves front) = true
    · rw [if_pos (List.mem_filter.mpr ⟨hmem, hmatches⟩)]
    · rw [if_neg hmatches, ite_self]
  · rw [if_neg hmem, if_neg fun hfilter => hmem (List.mem_filter.mp hfilter).1]

theorem mem_summaries_append_self {store : TranscriptStore} {id : SessionId} :
    id ∈ (store.append id subpath entries).summaries ↔
      id ∈ store.summaries ∨ (subpath = [] ∧ entries ≠ []) := by
  unfold TranscriptStore.append
  by_cases hempty : entries = []
  · rw [if_pos hempty]
    exact (or_iff_left fun h => h.2 hempty).symm
  · rw [if_neg hempty]
    dsimp only
    by_cases hmain : subpath = [] ∧ id ∉ store.summaries
    · rw [if_pos hmain]
      refine iff_of_true (List.mem_append_right _ (List.mem_singleton.mpr rfl)) ?_
      exact .inr ⟨hmain.1, hempty⟩
    · rw [if_neg hmain]
      exact (or_iff_left_of_imp fun h => not_not.mp fun hnot => hmain ⟨h.1, hnot⟩).symm

end Stages

section Steps

variable {session : SessionId} {call : Call} {start stores : Stores} {outcome : Outcome} {plan : Plan}
  {front entries : List Entry} {copied : ℕ} {subpath : Subpath} {subpaths : List Subpath}

structure Reads (session : SessionId) (start stores : Stores) : Prop where
  load : ∀ subpath,
    stores.transcripts.load session subpath = start.transcripts.load session subpath
  subkeys : stores.transcripts.listSubkeys session = start.transcripts.listSubkeys session
  project : (get stores.sessions session).map AgentSession.projectName =
    (get start.sessions session).map AgentSession.projectName

def After (session : SessionId) (call : Call) (start : Stores) (result : Stores × Phase) : Prop :=
  Stage session call start (view result.1 call.newSessionId) result.2

theorem nil_not_mem_listSubkeys : [] ∉ start.transcripts.listSubkeys session :=
  fun hmem => (mem_listSubkeys.mp hmem).1 rfl

theorem after_checking (hreads : Reads session start stores)
    (h : (view stores call.newSessionId).Absent) :
    After session call start (branchStep session call stores outcome .checking) := by
  simp only [branchStep]
  split
  case h_1 row cwd anchorUuid hrow hcwd hanchor =>
      refine ⟨?_, hanchor, h⟩
      rw [← hreads.project, hrow]
      rfl
  case h_2 => exact h

theorem after_loading (hreads : Reads session start stores)
    (hproject : (get start.sessions session).map AgentSession.projectName = some plan.projectName)
    (hanchor : call.anchorUuid = some plan.anchorUuid)
    (h : (view stores call.newSessionId).Absent) :
    After session call start (branchStep session call stores outcome (.loading plan)) := by
  simp only [branchStep]
  cases outcome with
  | raised applied => trivial
  | ok =>
      dsimp only
      rw [hreads.load]
      cases hfront : prefixBeforeAnchor plan.anchorUuid
          ((start.transcripts.load session []).getD []) with
      | error _ => exact h
      | ok front =>
          have hchosen : Chosen session call start plan front := ⟨hproject, hanchor, hfront⟩
          by_cases hconversation : hasConversation front = true
          · dsimp only
            rw [if_pos hconversation]
            exact ⟨hchosen, hconversation, h⟩
          · dsimp only
            rw [if_neg hconversation]
            refine ⟨front, ⟨hchosen, fun subpath => ?_, iff_of_false h.summary hconversation⟩, h.row,
              iff_of_false (Nat.lt_irrefl 0) hconversation⟩
            rw [if_neg List.not_mem_nil, copyOf, if_pos hconversation]
            exact h.load subpath

theorem after_appending (hkept : Kept start.transcripts) (hchosen : Chosen session call start plan front)
    (hconversation : hasConversation front) (h : (view stores call.newSessionId).Absent) :
    After session call start (branchStep session call stores outcome (.appending plan front)) := by
  cases outcome with
  | raised applied => trivial
  | ok =>
      have hfront := ne_nil_of_hasConversation hconversation
      have hlength := length_rebound call.newSessionId (Call.origin session plan) call.now front
      have hrebound : rebound call.newSessionId (Call.origin session plan) call.now front ≠ [] := by
        rw [← List.length_pos_iff, hlength]
        exact List.length_pos_iff.mpr hfront
      have hcopied : Copied session call start plan front (start.transcripts.listSubkeys session)
          (view { stores with
              transcripts := stores.transcripts.append call.newSessionId []
                (rebound call.newSessionId (Call.origin session plan) call.now front) }
            call.newSessionId) := by
        refine ⟨hchosen, fun subpath => ?_, ?_⟩
        · have hload := @load_append stores.transcripts call.newSessionId call.newSessionId [] _ hrebound
            (h.load []) (distinct_rebound (hchosen.distinct hkept)) subpath
          refine hload.trans ?_
          by_cases hmain : subpath = []
          · rw [if_pos ⟨rfl, hmain⟩, hmain, if_neg nil_not_mem_listSubkeys, copyOf,
              if_neg (not_not_intro hconversation), if_pos rfl]
          · rw [if_neg fun hboth => hmain hboth.2, copyOf_subpath hconversation hmain]
            refine (h.load subpath).trans ?_
            by_cases hmem : subpath ∈ start.transcripts.listSubkeys session
            · rw [if_pos hmem]
            · rw [if_neg hmem]
              have hnone : start.transcripts.load session subpath = none := by
                by_contra hload
                exact hmem (mem_listSubkeys.mpr ⟨hmain, hload⟩)
              rw [hnone]
              exact (ite_self _).symm
        · exact iff_of_true (mem_summaries_append_self.mpr (.inr ⟨rfl, hrebound⟩)) hconversation
      by_cases hwanted : wantedLeaves front = []
      · have hfilter := hcopied.filter hconversation nil_not_mem_listSubkeys
        have hempty : (start.transcripts.listSubkeys session).filter
            (matchesSubagent · (wantedLeaves front)) = [] := by
          refine List.filter_eq_nil_iff.mpr fun subpath _ => ?_
          unfold matchesSubagent
          rw [hwanted, List.any_nil, Bool.and_false]
          exact Bool.false_ne_true
        rw [hempty] at hfilter
        simp only [branchStep, Outcome.next, if_pos hwanted]
        refine ⟨front, hfilter, h.row, iff_of_true ?_ hconversation⟩
        rw [hlength]
        exact List.length_pos_iff.mpr hfront
      · simp only [branchStep, Outcome.next, if_neg hwanted]
        exact ⟨hcopied, hconversation, h.row⟩

theorem after_listing (hreads : Reads session start stores) (hkept : Kept start.transcripts)
    (hcopied : Copied session call start plan front (start.transcripts.listSubkeys session)
      (view stores call.newSessionId))
    (hconversation : hasConversation front) (hrow : (view stores call.newSessionId).row = none) :
    After session call start (branchStep session call stores outcome (.listing plan front)) := by
  cases outcome with
  | raised applied => trivial
  | ok =>
      simp only [branchStep, Outcome.next, hreads.subkeys]
      exact ⟨hcopied.filter hconversation nil_not_mem_listSubkeys, hconversation, hrow,
        List.length_pos_iff.mpr (ne_nil_of_hasConversation hconversation),
        (nodup_listSubkeys hkept.keys).filter _,
        fun hmem => nil_not_mem_listSubkeys (List.mem_filter.mp hmem).1,
        fun subpath hmem => (List.mem_filter.mp hmem).2⟩

theorem Carrying.skip {view : View}
    (h : Carrying session call start plan front copied (subpath :: subpaths) view)
    (hload : (start.transcripts.load session subpath).filter (· ≠ []) = none) :
    Carrying session call start plan front copied subpaths view := by
  have hmain : subpath ≠ [] := fun heq => h.main (heq ▸ List.mem_cons_self)
  refine { h with
    copies := h.copies.skip ?_
    nodup := (List.nodup_cons.mp h.nodup).2
    main := fun hmem => h.main (List.mem_cons_of_mem _ hmem)
    wanted := fun other hmem => h.wanted other (List.mem_cons_of_mem _ hmem) }
  rw [copyOf_subpath h.conversation hmain, hload]
  exact ite_self _

theorem after_carrying (hreads : Reads session start stores)
    (h : Carrying session call start plan front copied subpaths (view stores call.newSessionId)) :
    After session call start
      (branchStep session call stores outcome (.carrying plan front copied subpaths)) := by
  cases outcome with
  | raised applied =>
      cases subpaths with
      | nil => trivial
      | cons subpath subpaths =>
          simp only [branchStep]
          split
          · trivial
          · trivial
  | ok =>
      cases subpaths with
      | nil => exact ⟨front, h.copies, h.row, iff_of_true h.count h.conversation⟩
      | cons subpath subpaths =>
          simp only [branchStep, Outcome.next, hreads.load]
          cases hload : start.transcripts.load session subpath with
          | none => exact h.skip (by rw [hload]; rfl)
          | some entries =>
              by_cases hempty : entries = []
              · dsimp only
                rw [if_pos hempty]
                exact h.skip (by rw [hload, hempty]; rfl)
              · dsimp only
                rw [if_neg hempty]
                exact ⟨h, hload, hempty⟩

theorem after_carried (hkept : Kept start.transcripts)
    (h : Carrying session call start plan front copied (subpath :: subpaths)
      (view stores call.newSessionId))
    (hload : start.transcripts.load session subpath = some entries) (hentries : entries ≠ []) :
    After session call start (branchStep session call stores outcome
      (.carried plan front copied subpath entries subpaths)) := by
  cases outcome with
  | raised applied => trivial
  | ok =>
      have hmain : subpath ≠ [] := fun heq => h.main (heq ▸ List.mem_cons_self)
      have hnodup := List.nodup_cons.mp h.nodup
      have hcopy : copyOf session call start plan front subpath =
          some (entries.map (Entry.rebind call.newSessionId (Call.origin session plan))) := by
        rw [copyOf_subpath h.conversation hmain, if_pos (h.wanted subpath List.mem_cons_self), hload,
          Option.filter_some, if_pos (decide_eq_true hentries)]
        rfl
      have hfresh : stores.transcripts.load call.newSessionId subpath = none :=
        (h.copies.load subpath).trans (if_pos List.mem_cons_self)
      have hrebound : entries.map (Entry.rebind call.newSessionId (Call.origin session plan)) ≠ [] :=
        fun heq => hentries (List.map_eq_nil_iff.mp heq)
      simp only [branchStep, Outcome.next, Outcome.written]
      refine ⟨⟨h.copies.chosen, fun other => ?_, ?_⟩, h.conversation, h.row,
        Nat.lt_add_right _ h.count, hnodup.2, fun hmem => h.main (List.mem_cons_of_mem _ hmem),
        fun other hmem => h.wanted other (List.mem_cons_of_mem _ hmem)⟩
      · refine (load_append hrebound hfresh (distinct_map_rebind (hkept.load hload)) other).trans ?_
        by_cases hsame : other = subpath
        · rw [if_pos ⟨rfl, hsame⟩, hsame, if_neg hnodup.1, hcopy]
        · rw [if_neg fun hboth => hsame hboth.2]
          refine (h.copies.load other).trans ?_
          have hiff : other ∈ subpath :: subpaths ↔ other ∈ subpaths := by
            rw [List.mem_cons, or_iff_right hsame]
          simp only [hiff]
      · refine mem_summaries_append_self.trans (Iff.trans ?_ h.copies.summary)
        exact or_iff_left fun hboth => hmain hboth.1

theorem after_creating
    (hcopied : Copied session call start plan front [] (view stores call.newSessionId))
    (hcount : 0 < copied ↔ hasConversation front) :
    After session call start (branchStep session call stores outcome (.creating plan copied)) := by
  cases outcome with
  | raised applied => trivial
  | ok =>
      refine ⟨plan, front, ⟨hcopied.chosen, hcopied.load, hcopied.summary⟩, hcount, ?_⟩
      exact get_create _ _ _ |>.trans (if_pos rfl)

theorem branchStep_marking :
    branchStep session call stores .ok (.marking copied) =
      ((stores.markSuperseded session call.newSessionId).1,
        if (stores.markSuperseded session call.newSessionId).2 then .succeeded copied
        else .clearing) := rfl

theorem after_marking (hne : call.newSessionId ≠ session)
    (h : Built session call start plan front copied (view stores call.newSessionId)) :
    After session call start (branchStep session call stores outcome (.marking copied)) := by
  cases outcome with
  | raised applied => trivial
  | ok =>
      rw [branchStep_marking]
      by_cases hwon : (stores.markSuperseded session call.newSessionId).2 = true
      · rw [if_pos hwon]
        refine ⟨plan, front, ⟨h.copies.chosen, h.copies.load, h.copies.summary⟩, h.count, ?_⟩
        refine Eq.trans ?_ h.row
        exact row_repoint fun row _ => decide_eq_false fun hboth => hne hboth.1
      · rw [if_neg hwon]
        trivial

theorem after_deleting :
    After session call start (branchStep session call stores .ok .deleting) := by
  refine ⟨fun subpath => ?_, fun hmem => ?_⟩
  · exact (load_delete subpath).trans (if_pos rfl)
  · exact (mem_summaries_delete.mp hmem).2 rfl

theorem after_purging (h : (∀ subpath, (view stores call.newSessionId).load subpath = none) ∧
      ¬ (view stores call.newSessionId).summary) :
    After session call start (branchStep session call stores .ok .purging) :=
  ⟨h.1, h.2, get_deleteSession.trans (if_pos rfl)⟩

theorem Stage.after {phase : Phase}
    (h : Stage session call start (view stores call.newSessionId) phase)
    (hreads : Reads session start stores) (hkept : Kept start.transcripts)
    (hne : call.newSessionId ≠ session) (hclean : phase.cleansUp → outcome = .ok) :
    After session call start (branchStep session call stores outcome phase) := by
  cases phase with
  | checking => exact after_checking hreads h
  | loading plan => exact after_loading hreads h.1 h.2.1 h.2.2
  | appending plan front => exact after_appending hkept h.1 h.2.1 h.2.2
  | listing plan front => exact after_listing hreads hkept h.1 h.2.1 h.2.2
  | carrying plan front copied subpaths => exact after_carrying hreads h
  | carried plan front copied subpath entries subpaths =>
      exact after_carried hkept h.1 h.2.1 h.2.2
  | creating plan copied =>
      obtain ⟨front, hcopied, -, hcount⟩ := h
      exact after_creating hcopied hcount
  | marking copied =>
      obtain ⟨plan, front, hbuilt⟩ := h
      exact after_marking hne hbuilt
  | clearing => trivial
  | deleting =>
      rw [hclean rfl]
      exact after_deleting
  | purging =>
      rw [hclean rfl]
      exact after_purging h
  | succeeded copied => exact h
  | refused => exact h
  | failed => exact h

end Steps

end ShortReel.SessionBranchStages
