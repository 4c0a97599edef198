import ShortReel.SessionAppends

/-!
# Logs of concurrent appends

Whatever the order of their steps, calls of `append` keep the numbers and the uuids of a log distinct, store
their entries in the order given, and have every entry stored when they have returned.
-/

namespace ShortReel.SessionAppendLogs

open InsertionDict PrefixFork SessionAppends

variable {D : Type} {sdk : SessionSdk D} {s later : State D} {id : ℕ} {call : Call D}

def Apart (first second : Row) : Prop :=
  first.key = second.key →
    first.seq ≠ second.seq ∧ (first.uuid.isSome = true → first.uuid ≠ second.uuid)

def handled (call : Call D) : ℕ :=
  match call.stage with
  | .reading | .raised => 0
  | .inserting _ index => index
  | .folded _ _ _ | .committed _ => call.entries.length

def StartsAt (start : ℕ) : Stage D → Prop
  | .inserting number _ | .folded number _ _ => number = start
  | _ => True

def rowsOf (id : ℕ) (call : Call D) (start index : ℕ) : List Row :=
  (call.entries.take index).mapIdx fun i entry => State.rowOf id call entry (start + i)

def ownRows (s : State D) (id : ℕ) : List Row :=
  s.rows.filter fun row => row.owner = id

def Covered (s : State D) (id : ℕ) (key : LogKey) (entry : Entry) : Prop :=
  ∃ row ∈ s.rows, row.key = key ∧ s.isVisible id row = true ∧
    (row.payload = entry ∨ entry.entryUuid.isSome = true ∧ row.uuid = entry.entryUuid)

structure Progress (s : State D) (id : ℕ) (call : Call D) (start index : ℕ) : Prop where
  own : (ownRows s id).Sublist (rowsOf id call start index)
  covered : ∀ entry ∈ call.entries.take index, Covered s id call.key entry

structure Sound (s : State D) : Prop where
  apart : s.rows.Pairwise Apart
  owned : ∀ row ∈ s.rows, row.owner < s.calls.length
  progress : ∀ id call, s.calls[id]? = some call →
    ∃ start, StartsAt start call.stage ∧ Progress s id call start (handled call)

theorem rowsOf_succ {start index : ℕ} {entry : Entry} (h : call.entries[index]? = some entry) :
    rowsOf id call start (index + 1) =
      rowsOf id call start index ++ [State.rowOf id call entry (start + index)] := by
  obtain ⟨hlt, -⟩ := List.getElem?_eq_some_iff.mp h
  unfold rowsOf
  rw [List.take_add_one, h, Option.toList_some, List.mapIdx_concat, List.length_take_of_le (Nat.le_of_lt hlt)]

theorem pairwise_rowsOf (id : ℕ) (call : Call D) (start index : ℕ) :
    (rowsOf id call start index).Pairwise fun first second => first.seq < second.seq := by
  unfold rowsOf
  rw [List.pairwise_iff_getElem]
  intro i j hi hj hlt
  rw [List.getElem_mapIdx, List.getElem_mapIdx]
  exact Nat.add_lt_add_left hlt start

theorem payload_rowsOf (id : ℕ) (call : Call D) (start index : ℕ) :
    (rowsOf id call start index).map Row.payload = call.entries.take index := by
  unfold rowsOf
  rw [List.mapIdx_eq_zipIdx_map, List.map_map]
  exact List.zipIdx_map_fst 0 _

theorem key_of_own {start index : ℕ} (h : Progress s id call start index) {row : Row}
    (hrow : row ∈ ownRows s id) :
    row.key = call.key := by
  obtain ⟨i, hi, rfl⟩ := List.mem_mapIdx.mp (h.own.subset hrow)
  rfl

structure Keeps (s later : State D) (id : ℕ) : Prop where
  own : ∀ other, other ≠ id → ownRows later other = ownRows s other
  visible : ∀ other, other ≠ id → ∀ row ∈ s.rows, s.isVisible other row = true →
    row ∈ later.rows ∧ later.isVisible other row = true

theorem isVisible_iff {row : Row} : s.isVisible id row = true ↔
    row.owner = id ∨ s.isCommitted row = true := by
  unfold State.isVisible
  rw [Bool.or_eq_true, decide_eq_true_eq]

theorem Covered.keep {key : LogKey} {entry : Entry} (h : Covered s id key entry)
    (hkeep : ∀ row ∈ s.rows, s.isVisible id row = true → row ∈ later.rows ∧ later.isVisible id row = true) :
    Covered later id key entry := by
  obtain ⟨row, hrow, hkey, hvisible, hsame⟩ := h
  obtain ⟨hrow, hvisible⟩ := hkeep row hrow hvisible
  exact ⟨row, hrow, hkey, hvisible, hsame⟩

theorem Progress.keep {other start index : ℕ} (h : Progress s other call start index)
    (hkeeps : Keeps s later id)
    (hother : other ≠ id) : Progress later other call start index where
  own := by
    rw [hkeeps.own other hother]
    exact h.own
  covered entry hentry := (h.covered entry hentry).keep (hkeeps.visible other hother)

theorem isCommitted_set {after : Call D} (hcall : s.calls[id]? = some call)
    (hopen : call.stage.isCommitted = false) (hcalls : later.calls = s.calls.set id after) {row : Row}
    (h : s.isCommitted row = true) : row.owner ≠ id ∧ later.isCommitted row = true := by
  have hne : row.owner ≠ id := by
    intro hsame
    unfold State.isCommitted at h
    rw [hsame, hcall, Option.any_some, hopen] at h
    cases h
  refine ⟨hne, ?_⟩
  unfold State.isCommitted
  rw [hcalls, List.getElem?_set_ne hne.symm]
  exact h

theorem keeps_of_set {after : Call D} (hcall : s.calls[id]? = some call)
    (hopen : call.stage.isCommitted = false)
    (hcalls : later.calls = s.calls.set id after)
    (hrows : (later.rows.filter fun row => row.owner ≠ id) = s.rows.filter fun row => row.owner ≠ id) :
    Keeps s later id := by
  constructor
  · intro other hother
    have hsplit : ∀ rows : List Row, (rows.filter fun row => row.owner = other) =
        (rows.filter fun row => row.owner ≠ id).filter fun row => row.owner = other := by
      intro rows
      rw [List.filter_filter]
      apply List.filter_congr
      intro row _
      by_cases howner : row.owner = other
      · simp [howner, hother]
      · simp [howner]
    unfold ownRows
    rw [hsplit, hrows, ← hsplit]
  · intro other hother row hrow hvisible
    have hstays : row.owner ≠ id ∧ later.isVisible other row = true := by
      rcases isVisible_iff.mp hvisible with howner | hcommitted
      · exact ⟨howner ▸ hother, isVisible_iff.mpr (Or.inl howner)⟩
      · obtain ⟨hne, hlater⟩ := isCommitted_set hcall hopen hcalls hcommitted
        exact ⟨hne, isVisible_iff.mpr (Or.inr hlater)⟩
    refine ⟨?_, hstays.2⟩
    have hmem : row ∈ later.rows.filter fun row => row.owner ≠ id := by
      rw [hrows]
      exact List.mem_filter.mpr ⟨hrow, decide_eq_true hstays.1⟩
    exact (List.mem_filter.mp hmem).1

structure Advances (s later : State D) (id : ℕ) (after : Call D) : Prop where
  calls : later.calls = s.calls.set id after
  rows : (later.rows.filter fun row => row.owner ≠ id) = s.rows.filter fun row => row.owner ≠ id
  apart : later.rows.Pairwise Apart
  progress : ∃ start, StartsAt start after.stage ∧ Progress later id after start (handled after)

theorem Sound.advance {after : Call D} (h : Sound s) (hcall : s.calls[id]? = some call)
    (hopen : call.stage.isCommitted = false) (hadvances : Advances s later id after) : Sound later := by
  have hlt : id < s.calls.length := (List.getElem?_eq_some_iff.mp hcall).1
  constructor
  · exact hadvances.apart
  · intro row hrow
    rw [hadvances.calls, List.length_set]
    by_cases howner : row.owner = id
    · rw [howner]
      exact hlt
    · have hmem : row ∈ s.rows.filter fun row => row.owner ≠ id := by
        rw [← hadvances.rows]
        exact List.mem_filter.mpr ⟨hrow, decide_eq_true howner⟩
      exact h.owned row (List.mem_filter.mp hmem).1
  · intro other otherCall hother
    rw [hadvances.calls] at hother
    by_cases hsame : other = id
    · subst hsame
      rw [List.getElem?_set_self hlt] at hother
      obtain rfl := Option.some.inj hother
      exact hadvances.progress
    · rw [List.getElem?_set_ne (Ne.symm hsame)] at hother
      obtain ⟨start, hstarts, hprogress⟩ := h.progress other otherCall hother
      exact ⟨start, hstarts, hprogress.keep (keeps_of_set hcall hopen hadvances.calls hadvances.rows) hsame⟩

theorem visible_setStage (hcall : s.calls[id]? = some call) (hopen : call.stage.isCommitted = false)
    (after : Call D) (stage : Stage D) {row : Row} (h : s.isVisible id row = true) :
    (s.setStage id after stage).isVisible id row = true := by
  rcases isVisible_iff.mp h with howner | hcommitted
  · exact isVisible_iff.mpr (Or.inl howner)
  · exact isVisible_iff.mpr (Or.inr (isCommitted_set hcall hopen rfl hcommitted).2)

theorem advances_setStage (h : Sound s) (hcall : s.calls[id]? = some call)
    (hopen : call.stage.isCommitted = false) {stage : Stage D} {start : ℕ} (hstart : StartsAt start stage)
    (hprogress : Progress s id call start (handled { call with stage })) :
    Advances s (s.setStage id call stage) id { call with stage } where
  calls := rfl
  rows := rfl
  apart := h.apart
  progress := by
    refine ⟨start, hstart, hprogress.own, ?_⟩
    intro entry hentry
    apply (hprogress.covered entry hentry).keep
    intro row hrow hvisible
    exact ⟨hrow, visible_setStage hcall hopen call stage hvisible⟩

theorem advances_rollback (h : Sound s) (after : Call D) {stage : Stage D}
    (hstage : stage = .reading ∨ stage = .raised) :
    Advances s ((s.rollback id).setStage id after stage) id { after with stage } where
  calls := rfl
  rows := by
    change ((s.rows.filter fun row => row.owner ≠ id).filter fun row => row.owner ≠ id) = _
    rw [List.filter_filter]
    simp
  apart := h.apart.filter _
  progress := by
    have hown : ownRows ((s.rollback id).setStage id after stage) id = [] := by
      apply List.filter_eq_nil_iff.mpr
      intro row hrow howner
      exact of_decide_eq_true (List.mem_filter.mp hrow).2 (of_decide_eq_true howner)
    refine ⟨0, ?_, ?_, ?_⟩
    · rcases hstage with rfl | rfl <;> trivial
    · rw [hown]
      exact List.nil_sublist _
    · intro entry hentry
      rcases hstage with rfl | rfl <;> cases hentry

theorem handled_inserting {start index : ℕ} (hstage : call.stage = .inserting start index) :
    handled call = index := by
  unfold handled
  rw [hstage]

theorem Sound.inserting {start index : ℕ} (h : Sound s) (hcall : s.calls[id]? = some call)
    (hstage : call.stage = .inserting start index) : Progress s id call start index := by
  obtain ⟨number, hstarts, hprogress⟩ := h.progress id call hcall
  rw [hstage] at hstarts
  obtain rfl : start = number := hstarts
  rw [handled_inserting hstage] at hprogress
  exact hprogress

theorem apart_rowOf {entry : Entry} {seq : ℕ}
    (huuid : s.rows.find? (State.sameUuid call.key entry.entryUuid) = none)
    (hseq : s.rows.find? (State.sameSeq call.key seq) = none) {row : Row} (hrow : row ∈ s.rows) :
    Apart row (State.rowOf id call entry seq) := by
  intro hkey
  have hkey : row.key = call.key := hkey
  have hnot := List.find?_eq_none.mp huuid row hrow
  have hfresh := List.find?_eq_none.mp hseq row hrow
  unfold State.sameUuid at hnot
  unfold State.sameSeq at hfresh
  simp only [hkey, decide_true, Bool.true_and, Bool.and_eq_true, decide_eq_true_eq, not_and] at hnot hfresh
  refine ⟨hfresh, ?_⟩
  intro hsome hsame
  have hsame : row.uuid = entry.entryUuid := hsame
  rw [hsame] at hsome
  exact hnot hsome hsame

theorem advances_insert {start index : ℕ} {entry : Entry} (h : Sound s) (hcall : s.calls[id]? = some call)
    (hopen : call.stage.isCommitted = false) (hprogress : Progress s id call start index)
    (hentry : call.entries[index]? = some entry)
    (huuid : s.rows.find? (State.sameUuid call.key entry.entryUuid) = none)
    (hseq : s.rows.find? (State.sameSeq call.key (start + index)) = none) :
    Advances s ({ s with rows := s.rows ++ [State.rowOf id call entry (start + index)] }.setStage id call
      (.inserting start (index + 1))) id { call with stage := .inserting start (index + 1) } where
  calls := rfl
  rows := by
    change ((s.rows ++ [State.rowOf id call entry (start + index)]).filter fun row => row.owner ≠ id) = _
    rw [List.filter_append, List.filter_singleton]
    simp [State.rowOf]
  apart := by
    apply List.pairwise_append.mpr
    refine ⟨h.apart, List.pairwise_singleton _ _, ?_⟩
    intro row hrow new hnew
    rw [List.mem_singleton.mp hnew]
    exact apart_rowOf huuid hseq hrow
  progress := by
    refine ⟨start, rfl, ?_, ?_⟩
    · have hown : ownRows ({ s with rows := s.rows ++ [State.rowOf id call entry (start + index)] }.setStage id
          call (.inserting start (index + 1))) id =
            ownRows s id ++ [State.rowOf id call entry (start + index)] := by
        change ((s.rows ++ [State.rowOf id call entry (start + index)]).filter fun row => row.owner = id) = _
        rw [List.filter_append, List.filter_singleton]
        simp [State.rowOf, ownRows]
      rw [hown]
      change List.Sublist _ (rowsOf id call start (index + 1))
      rw [rowsOf_succ hentry]
      exact hprogress.own.append (List.Sublist.refl _)
    · intro other hother
      change other ∈ call.entries.take (index + 1) at hother
      rw [List.take_add_one, hentry, Option.toList_some] at hother
      rcases List.mem_append.mp hother with hearlier | hlast
      · apply (hprogress.covered other hearlier).keep
        intro row hrow hvisible
        refine ⟨List.mem_append_left _ hrow, ?_⟩
        rcases isVisible_iff.mp hvisible with howner | hcommitted
        · exact isVisible_iff.mpr (Or.inl howner)
        · exact isVisible_iff.mpr (Or.inr (isCommitted_set hcall hopen rfl hcommitted).2)
      · rw [List.mem_singleton.mp hlast]
        exact ⟨State.rowOf id call entry (start + index),
          List.mem_append_right _ (List.mem_singleton.mpr rfl),
          rfl, isVisible_iff.mpr (Or.inl rfl), Or.inl rfl⟩

inductive Effect (sdk : SessionSdk D) (s later : State D) (call after : Call D) : Step → Prop
  | plain {step : Step} (hentries : after.entries = call.entries)
      (hstage : after.stage = .raised ∨ after.stage = .reading ∨
        ∃ start index, after.stage = .inserting start index)
      (hsummaries : later.summaries = s.summaries) : Effect sdk s later call after step
  | folded (id start : ℕ) (hmain : call.key.subpath = "")
      (hfree : ¬ ((get s.summaries call.key.session).isSome = true ∧
        s.calls.any (State.locks call.key.session) = true))
      (hafter : after = { call with stage := s.foldedStage sdk call start })
      (hsummaries : later.summaries = s.summaries) : Effect sdk s later call after (.fold id)
  | summarized (id : ℕ) (reported : Bool) {start : ℕ} {prev : Option (Summary D)} {data : D}
      (hstage : call.stage = .folded start prev data)
      (hfirst : ¬ (prev.isNone = true ∧ (get s.summaries call.key.session).isSome = true))
      (hafter : after = { call with stage := .committed reported })
      (hrows : later.rows = s.rows)
      (hsummaries : later.summaries = put s.summaries call.key.session { mtimeMs := call.nowMs, data }) :
      Effect sdk s later call after (.commit id reported)
  | finished (id : ℕ) (reported : Bool) (hsub : call.key.subpath ≠ "")
      (hafter : after = { call with stage := .committed reported })
      (hsummaries : later.summaries = s.summaries) : Effect sdk s later call after (.commit id reported)

theorem insertEntry_effect {start index : ℕ} {entry : Entry} {step : Step} (h : Sound s)
    (hcall : s.calls[id]? = some call) (hstage : call.stage = .inserting start index)
    (hentry : call.entries[index]? = some entry)
    (hinsert : s.insertEntry id call start index entry = some later) :
    ∃ after, Advances s later id after ∧ Effect sdk s later call after step := by
  have hopen : call.stage.isCommitted = false := by
    rw [hstage]
    rfl
  have hprogress := h.inserting hcall hstage
  unfold State.insertEntry at hinsert
  cases huuid : s.rows.find? (State.sameUuid call.key entry.entryUuid) with
  | some row =>
      rw [huuid] at hinsert
      dsimp only at hinsert
      split_ifs at hinsert with hvisible
      obtain rfl := Option.some.inj hinsert
      refine ⟨{ call with stage := .inserting start (index + 1) }, ?_,
        .plain rfl (Or.inr (Or.inr ⟨start, index + 1, rfl⟩)) rfl⟩
      apply @advances_setStage D s id call h hcall hopen (.inserting start (index + 1)) start rfl
      constructor
      · change (ownRows s id).Sublist (rowsOf id call start (index + 1))
        rw [rowsOf_succ hentry]
        exact hprogress.own.trans (List.sublist_append_left _ _)
      · intro other hother
        change other ∈ call.entries.take (index + 1) at hother
        rw [List.take_add_one, hentry, Option.toList_some] at hother
        rcases List.mem_append.mp hother with hearlier | hlast
        · exact hprogress.covered other hearlier
        · rw [List.mem_singleton.mp hlast]
          have hsame := List.find?_some huuid
          unfold State.sameUuid at hsame
          simp only [Bool.and_eq_true, decide_eq_true_eq] at hsame
          exact ⟨row, List.mem_of_find?_eq_some huuid, hsame.1.1, hvisible, Or.inr ⟨hsame.1.2, hsame.2⟩⟩
  | none =>
      rw [huuid] at hinsert
      dsimp only at hinsert
      cases hseq : s.rows.find? (State.sameSeq call.key (start + index)) with
      | some row =>
          rw [hseq] at hinsert
          dsimp only at hinsert
          split_ifs at hinsert with hvisible
          obtain rfl := Option.some.inj hinsert
          have hagain : ∀ attempts : Prop, [Decidable attempts] →
              (if attempts then (.reading : Stage D) else .raised) = .reading ∨
                (if attempts then (.reading : Stage D) else .raised) = .raised := by
            intro attempts _
            split_ifs
            · exact Or.inl rfl
            · exact Or.inr rfl
          refine ⟨_, advances_rollback h _ (hagain _), .plain rfl ?_ rfl⟩
          rcases hagain (call.attempt + 1 < maxAppendRetry) with hreading | hraised
          · exact Or.inr (Or.inl hreading)
          · exact Or.inl hraised
      | none =>
          rw [hseq] at hinsert
          obtain rfl := Option.some.inj hinsert
          exact ⟨_, advances_insert h hcall hopen hprogress hentry huuid hseq,
            .plain rfl (Or.inr (Or.inr ⟨start, index + 1, rfl⟩)) rfl⟩

theorem Advances.of_summaries {after : Call D} {summaries : Dict (String × SessionId) (Summary D)}
    (h : Advances s later id after) : Advances s { later with summaries } id after where
  calls := h.calls
  rows := h.rows
  apart := h.apart
  progress := by
    obtain ⟨start, hstarts, hprogress⟩ := h.progress
    exact ⟨start, hstarts, hprogress.own, hprogress.covered⟩

theorem advances_whole {stage : Stage D} {start : ℕ} (h : Sound s) (hcall : s.calls[id]? = some call)
    (hopen : call.stage.isCommitted = false) (hstart : StartsAt start stage)
    (hprogress : Progress s id call start call.entries.length)
    (hstage : handled { call with stage } = call.entries.length) :
    Advances s (s.setStage id call stage) id { call with stage } := by
  apply advances_setStage h hcall hopen hstart
  rw [hstage]
  exact hprogress

inductive Takes (sdk : SessionSdk D) (s : State D) (id : ℕ) (call : Call D) : Step → State D → Prop where
  | read (caller : ℕ) (hstage : call.stage = .reading) :
      Takes sdk s id call (.read caller) (s.setStage id call (.inserting (s.nextSeq call.key) 0))
  | insert (caller : ℕ) {start index : ℕ} {entry : Entry} {later : State D}
      (hstage : call.stage = .inserting start index) (hentry : call.entries[index]? = some entry)
      (hinsert : s.insertEntry id call start index entry = some later) :
      Takes sdk s id call (.insert caller) later
  | fold (caller : ℕ) {start : ℕ} {later : State D}
      (hstage : call.stage = .inserting start call.entries.length) (hmain : call.key.subpath = "")
      (hfold : s.foldSummary sdk id call start = some later) : Takes sdk s id call (.fold caller) later
  | summary (caller : ℕ) (reported : Bool) {start : ℕ} {prev : Option (Summary D)} {data : D}
      (hstage : call.stage = .folded start prev data) :
      Takes sdk s id call (.commit caller reported) (s.commitSummary id call prev data reported)
  | commit (caller : ℕ) (reported : Bool) {start : ℕ}
      (hstage : call.stage = .inserting start call.entries.length) (hsub : call.key.subpath ≠ "") :
      Takes sdk s id call (.commit caller reported) (s.setStage id call (.committed reported))
  | fail (caller : ℕ) (hopen : call.stage.isCommitted = false) :
      Takes sdk s id call (.fail caller) ((s.rollback id).setStage id call .raised)

theorem takes_of_advance {step : Step} (h : advance sdk s id call step = some later) :
    Takes sdk s id call step later := by
  unfold advance at h
  cases step with
  | append key entries nowMs => cases h
  | read caller =>
      dsimp only at h
      split at h
      · obtain rfl := Option.some.inj h
        exact .read caller ‹_›
      · cases h
  | insert caller =>
      dsimp only at h
      split at h
      · obtain ⟨entry, hentry, hinsert⟩ := Option.bind_eq_some_iff.mp h
        exact .insert caller ‹_› hentry hinsert
      · cases h
  | fold caller =>
      dsimp only at h
      split at h
      · rename_i start index hstage
        split_ifs at h with hall
        rw [hall.1] at hstage
        exact .fold caller hstage hall.2 h
      · cases h
  | commit caller reported =>
      dsimp only at h
      split at h
      · obtain rfl := Option.some.inj h
        exact .summary caller reported ‹_›
      · rename_i start index hstage
        split_ifs at h with hall
        obtain rfl := Option.some.inj h
        rw [hall.1] at hstage
        exact .commit caller reported hstage hall.2
      · cases h
  | fail caller =>
      dsimp only at h
      split at h
      · cases h
      · cases h
      · rename_i hcommitted _
        obtain rfl := Option.some.inj h
        refine .fail caller ?_
        cases hstage : call.stage with
        | committed reported => exact absurd hstage (hcommitted reported)
        | _ => rfl

theorem Takes.isOpen {step : Step} (h : Takes sdk s id call step later) :
    call.stage.isCommitted = false := by
  cases h with
  | fail _ hopen => exact hopen
  | insert _ hstage _ _ =>
      rw [hstage]
      rfl
  | fold _ hstage _ _ =>
      rw [hstage]
      rfl
  | commit _ _ hstage _ =>
      rw [hstage]
      rfl
  | read _ hstage =>
      rw [hstage]
      rfl
  | summary _ _ hstage =>
      rw [hstage]
      rfl

theorem advance_effect {step : Step} (h : Sound s) (hcall : s.calls[id]? = some call)
    (hstep : advance sdk s id call step = some later) :
    call.stage.isCommitted = false ∧ ∃ after, Advances s later id after ∧
      Effect sdk s later call after step := by
  obtain ⟨number, hstarts, hprogress⟩ := h.progress id call hcall
  have htakes := takes_of_advance hstep
  have hopen := htakes.isOpen
  refine ⟨hopen, ?_⟩
  cases htakes with
  | read caller hstage =>
      unfold handled at hprogress
      rw [hstage] at hprogress
      refine ⟨{ call with stage := .inserting (s.nextSeq call.key) 0 }, ?_,
        .plain rfl (Or.inr (Or.inr ⟨_, 0, rfl⟩)) rfl⟩
      apply @advances_setStage D s id call h hcall hopen (.inserting (s.nextSeq call.key) 0) _ rfl
      exact ⟨hprogress.own, hprogress.covered⟩
  | insert caller hstage hentry hinsert =>
      exact insertEntry_effect h hcall hstage hentry hinsert
  | @fold caller start _ hstage hmain hfold =>
      unfold State.foldSummary at hfold
      split_ifs at hfold with hfree
      obtain rfl := Option.some.inj hfold
      refine ⟨_, ?_, .folded caller start hmain hfree rfl rfl⟩
      exact @advances_whole D s id call (s.foldedStage sdk call start) start h hcall hopen rfl
        (h.inserting hcall hstage) rfl
  | @summary caller reported start prev data hstage =>
      unfold handled at hprogress
      rw [hstage] at hprogress
      unfold State.commitSummary
      split_ifs with hfirst
      · exact ⟨_, advances_rollback h call (Or.inr rfl), .plain rfl (Or.inl rfl) rfl⟩
      · refine ⟨_, ?_, .summarized caller reported hstage hfirst rfl rfl rfl⟩
        exact (@advances_whole D s id call (.committed reported) number h hcall hopen trivial
          hprogress rfl).of_summaries
  | @commit caller reported start hstage hsub =>
      refine ⟨_, ?_, .finished caller reported hsub rfl rfl⟩
      exact @advances_whole D s id call (.committed reported) start h hcall hopen trivial
        (h.inserting hcall hstage) rfl
  | fail caller _ =>
      exact ⟨_, advances_rollback h call (Or.inr rfl), .plain rfl (Or.inl rfl) rfl⟩

theorem isCommitted_append (calls : List (Call D)) {row : Row} (howned : row.owner < s.calls.length) :
    ({ s with calls := s.calls ++ calls } : State D).isCommitted row = s.isCommitted row := by
  unfold State.isCommitted
  rw [List.getElem?_append_left howned]

theorem sound_append (h : Sound s) {new : Call D} (hnew : handled new = 0)
    (hstart : StartsAt 0 new.stage) : Sound { s with calls := s.calls ++ [new] } := by
  constructor
  · exact h.apart
  · intro row hrow
    rw [List.length_append]
    exact Nat.lt_of_lt_of_le (h.owned row hrow) (Nat.le_add_right _ _)
  · intro id call hcall
    rcases Nat.lt_or_ge id s.calls.length with hlt | hge
    · rw [List.getElem?_append_left hlt] at hcall
      obtain ⟨start, hstarts, hprogress⟩ := h.progress id call hcall
      refine ⟨start, hstarts, hprogress.own, ?_⟩
      intro entry hentry
      apply (hprogress.covered entry hentry).keep
      intro row hrow hvisible
      refine ⟨hrow, ?_⟩
      rw [isVisible_iff] at hvisible ⊢
      rw [isCommitted_append _ (h.owned row hrow)]
      exact hvisible
    · rw [List.getElem?_append_right hge, List.getElem?_singleton] at hcall
      split_ifs at hcall
      obtain rfl := Option.some.inj hcall
      have hown : ownRows s id = [] := by
        apply List.filter_eq_nil_iff.mpr
        intro row hrow howner
        have hlt := h.owned row hrow
        rw [of_decide_eq_true howner] at hlt
        exact Nat.not_lt_of_le hge hlt
      refine ⟨0, hstart, ?_, ?_⟩
      · change (ownRows s id).Sublist _
        rw [hown]
        exact List.nil_sublist _
      · rw [hnew]
        intro entry hentry
        cases hentry

theorem sound_next {step : Step} (h : Sound s) (hstep : next sdk s step = some later) : Sound later := by
  cases step with
  | append key entries nowMs =>
      obtain rfl := Option.some.inj hstep
      apply sound_append h
      · unfold handled
        dsimp only
        split_ifs with hentries
        · rw [hentries]
          rfl
        · rfl
      · dsimp only
        split_ifs
        · trivial
        · trivial
  | _ =>
      obtain ⟨call, hcall, hstep⟩ := Option.bind_eq_some_iff.mp hstep
      obtain ⟨hopen, after, hadvances, -⟩ := advance_effect h hcall hstep
      exact h.advance hcall hopen hadvances

theorem sound_of_reachable {guard : State D → Step → Prop} (hreach : (appends sdk).ReachableWhen guard s) :
    Sound s := by
  apply hreach.invariant Sound
  · intro state hinitial
    rw [hinitial]
    refine ⟨List.Pairwise.nil, ?_, ?_⟩
    · intro row hrow
      cases hrow
    · intro id call hcall
      cases hcall
  · intro state step later _ hsound _ hstep
    exact sound_next hsound hstep

/-- The log of a key, as `load` reads it. -/
def stored (s : State D) (key : LogKey) : List Row :=
  (s.rows.filter fun row => row.key = key && s.isCommitted row).insertionSort
    fun first second => first.seq ≤ second.seq

theorem mem_stored {key : LogKey} {row : Row} :
    row ∈ stored s key ↔ row ∈ s.rows ∧ row.key = key ∧ s.isCommitted row = true := by
  unfold stored
  rw [List.mem_insertionSort, List.mem_filter, Bool.and_eq_true, decide_eq_true_eq]

theorem apart_symm {first second : Row} (h : Apart first second) : Apart second first := by
  intro hkey
  obtain ⟨hseq, huuid⟩ := h hkey.symm
  refine ⟨hseq.symm, ?_⟩
  intro hsome hsame
  rw [hsame] at hsome
  exact huuid hsome hsame.symm

theorem apart_stored (h : Sound s) (key : LogKey) : (stored s key).Pairwise Apart := by
  have hperm := List.perm_insertionSort (fun first second : Row => first.seq ≤ second.seq)
    (s.rows.filter fun row => row.key = key && s.isCommitted row)
  exact (hperm.pairwise_iff apart_symm).mpr (h.apart.filter _)

theorem pairwise_stored (h : Sound s) (key : LogKey) :
    (stored s key).Pairwise fun first second => first.seq < second.seq := by
  have hsorted : (stored s key).Pairwise fun first second => first.seq ≤ second.seq :=
    List.pairwise_insertionSort _ _
  apply (hsorted.and (apart_stored h key)).imp_of_mem
  intro first second hfirst hsecond hboth
  have hkey : first.key = second.key := (mem_stored.mp hfirst).2.1.trans (mem_stored.mp hsecond).2.1.symm
  exact Nat.lt_of_le_of_ne hboth.1 (hboth.2 hkey).1

theorem stored_eq (h : Sound s) {key : LogKey} {log : List Row}
    (hsorted : log.Pairwise fun first second => first.seq < second.seq)
    (hmem : ∀ row, row ∈ log ↔ row ∈ s.rows ∧ row.key = key ∧ s.isCommitted row = true) :
    stored s key = log := by
  apply @List.Pairwise.eq_of_mem_iff Row (fun first second => first.seq < second.seq) _ _
  · exact pairwise_stored h key
  · exact hsorted
  · intro row
    rw [mem_stored, hmem]

theorem mem_ownRows {row : Row} : row ∈ ownRows s id ↔ row ∈ s.rows ∧ row.owner = id := by
  unfold ownRows
  rw [List.mem_filter, decide_eq_true_eq]

theorem isCommitted_own (hcall : s.calls[id]? = some call) (hcommitted : call.stage.isCommitted = true)
    {row : Row}
    (howner : row.owner = id) : s.isCommitted row = true := by
  unfold State.isCommitted
  rw [howner, hcall]
  exact hcommitted

structure LogsSound (s : State D) : Prop where
  numbers : ∀ key, (stored s key).Pairwise fun first second => first.seq < second.seq
  uuids : ∀ key, (stored s key).Pairwise fun first second =>
    first.payload.entryUuid.isSome = true → first.payload.entryUuid ≠ second.payload.entryUuid
  ordered : ∀ (id : ℕ) (call : Call D), s.calls[id]? = some call → call.stage.isCommitted = true →
    (((stored s call.key).filter fun row => row.owner = id).map Row.payload).Sublist call.entries
  complete : ∀ (id : ℕ) (call : Call D), s.calls[id]? = some call → call.stage.isCommitted = true →
    ∀ entry ∈ call.entries, ∃ row ∈ stored s call.key, row.payload = entry ∨
      entry.entryUuid.isSome = true ∧ row.payload.entryUuid = entry.entryUuid

theorem Sound.committed (h : Sound s) (hcall : s.calls[id]? = some call)
    (hcommitted : call.stage.isCommitted = true) : ∃ start, Progress s id call start call.entries.length := by
  obtain ⟨start, -, hprogress⟩ := h.progress id call hcall
  have hhandled : handled call = call.entries.length := by
    unfold handled
    cases hstage : call.stage with
    | committed reported => rfl
    | folded start prev data => rfl
    | _ =>
        rw [hstage] at hcommitted
        cases hcommitted
  rw [hhandled] at hprogress
  exact ⟨start, hprogress⟩

theorem filter_stored (h : Sound s) (hcall : s.calls[id]? = some call)
    (hcommitted : call.stage.isCommitted = true) :
    ((stored s call.key).filter fun row => row.owner = id) = ownRows s id := by
  obtain ⟨start, hprogress⟩ := h.committed hcall hcommitted
  apply @List.Pairwise.eq_of_mem_iff Row (fun first second => first.seq < second.seq) _ _
  · exact (pairwise_stored h call.key).filter _
  · exact (pairwise_rowsOf id call start _).sublist hprogress.own
  · intro row
    rw [List.mem_filter, mem_stored, mem_ownRows, decide_eq_true_eq]
    constructor
    · rintro ⟨⟨hrow, -, -⟩, howner⟩
      exact ⟨hrow, howner⟩
    · rintro ⟨hrow, howner⟩
      have hkey := key_of_own hprogress (mem_ownRows.mpr ⟨hrow, howner⟩)
      exact ⟨⟨hrow, hkey, isCommitted_own hcall hcommitted howner⟩, howner⟩

theorem logsSound_of_sound (h : Sound s) : LogsSound s where
  numbers := pairwise_stored h
  uuids key := by
    apply (apart_stored h key).imp_of_mem
    intro first second hfirst hsecond hapart
    have hkey : first.key = second.key := (mem_stored.mp hfirst).2.1.trans (mem_stored.mp hsecond).2.1.symm
    rw [← first.uuid_eq, ← second.uuid_eq]
    exact (hapart hkey).2
  ordered id call hcall hcommitted := by
    obtain ⟨start, hprogress⟩ := h.committed hcall hcommitted
    rw [filter_stored h hcall hcommitted]
    have hpayloads := hprogress.own.map Row.payload
    rw [payload_rowsOf, List.take_length] at hpayloads
    exact hpayloads
  complete id call hcall hcommitted entry hentry := by
    obtain ⟨start, hprogress⟩ := h.committed hcall hcommitted
    rw [← List.take_length (l := call.entries)] at hentry
    obtain ⟨row, hrow, hkey, hvisible, hsame⟩ := hprogress.covered entry hentry
    rw [row.uuid_eq] at hsame
    refine ⟨row, mem_stored.mpr ⟨hrow, hkey, ?_⟩, hsame⟩
    rcases isVisible_iff.mp hvisible with howner | hstays
    · exact isCommitted_own hcall hcommitted howner
    · exact hstays

end ShortReel.SessionAppendLogs
