import ShortReel.CallSettlements
import ShortReel.UsageRecords

/-!
# Following the cursor

A client asks for pages one after the other, each with the cursor of the page before, while calls
are started and settled in between.
-/

namespace ShortReel.UsagePages

open TableUpdates GenerationTables JsonText KeysetPages UsageRepository CallSettlements UsageRecords
open UtcInstants

structure Visit where
  store : Store
  page : RecordsPage

/-- No cursor came with the last page, or one that was not followed yet, or one that was refused. -/
inductive Ending where
  | finished
  | waiting (cursor : Text)
  | refused (error : UsageCursorError)
  deriving DecidableEq

structure Walk where
  visits : List Visit
  ending : Ending

def Walk.rows (walk : Walk) : List ApiCall :=
  walk.visits.flatMap (·.page.rows)

def Walk.items (walk : Walk) : List UsageRecord :=
  walk.visits.flatMap (·.page.items)

variable (pricing : Pricing) (query : RecordsQuery)

/-- The pages a client gets. Before each further request some commands run. -/
def followPages : List (List UsageCommand) → Store → Option Text → Walk
  | writes, store, cursor =>
      match listUsageRecords store query cursor with
      | .error error => ⟨[], .refused error⟩
      | .ok page =>
          match page.nextCursor, writes with
          | none, _ => ⟨[⟨store, page⟩], .finished⟩
          | some cursor, [] => ⟨[⟨store, page⟩], .waiting cursor⟩
          | some cursor, commands :: later =>
              let rest := followPages later (commands.foldl (run pricing) store) (some cursor)
              ⟨⟨store, page⟩ :: rest.visits, rest.ending⟩

def Walk.Matching (walk : Walk) (call : ApiCall) : Prop :=
  ∀ visit ∈ walk.visits, ∃ row ∈ visit.store.apiCalls, row.id = call.id ∧ query.Matches row

/-- A new call fits its columns: a `datetime` can hold the instant, and an integer the id. -/
def Fits (store : Store) : UsageCommand → Prop
  | .startCall _ now => (now : ℤ) < endOfTime ∧ nextCallId store < 2 ^ 63
  | _ => True

def OnlyStarts : UsageCommand → Prop
  | .startCall _ _ => True
  | _ => False

def positions (store : Store) : List Position :=
  store.apiCalls.map position

def startedPositions (store : Store) : UsageCommand → List Position
  | .startCall _ now => [toLex ((now : ℤ), nextCallId store)]
  | _ => []

variable {pricing query} {store later : Store}

theorem positions_of_update {guard : ApiCall → Prop} [DecidablePred guard]
    {values : ApiCall → ApiCall} (hcalls : later.apiCalls = updateWhere guard values store.apiCalls)
    (hvalues : ∀ call, position (values call) = position call) : positions later = positions store := by
  have hsame : List.Forall₂ (fun old new : ApiCall => position old = position new) store.apiCalls
      (updateWhere guard values store.apiCalls) :=
    forall₂_updateWhere (fun _ _ _ => rfl) fun call _ _ => (hvalues call).symm
  rw [positions, hcalls, positions, forall₂_map_eq (fun _ _ h => h) hsame]

theorem positions_run (store : Store) (command : UsageCommand) :
    positions (run pricing store command) = positions store ++ startedPositions store command := by
  cases command with
  | startCall request now =>
      simp only [positions, run, startCall, List.map_append, List.map_cons, List.map_nil,
        startedPositions]
      rfl
  | finishCall callId status settlement outputPath failure now =>
      refine Eq.trans ?_ (List.append_nil _).symm
      simp only [run, finishCall]
      split
      · rfl
      · exact positions_of_update rfl fun _ => rfl
  | finalizePendingByCallId callId settlement status failure now =>
      refine Eq.trans ?_ (List.append_nil _).symm
      simp only [run, finalizePendingByCallId]
      split
      · rfl
      · exact positions_of_update rfl fun _ => rfl
  | settleInterruptedPendingCalls tasklessStartedBefore now =>
      refine Eq.trans ?_ (List.append_nil _).symm
      refine settleInterruptedPendingCalls_induction
        (motive := fun current => positions current = positions store) rfl ?_
      intro current row status errorCode hcurrent
      have hsame : positions (settleInterrupted current pricing row status errorCode now) =
          positions current := positions_of_update rfl fun _ => rfl
      exact hsame.trans hcurrent
  | writeTasks tasks => exact (List.append_nil _).symm

/-- Calls are told apart by their ids, and their positions fit the columns. -/
structure Sound (store : Store) : Prop where
  unique : UniqueCallIds store
  storable : ∀ place ∈ positions store, (cursorAt place).Storable

theorem Sound.run (h : Sound store) {command : UsageCommand} (hfits : Fits store command) :
    Sound (run pricing store command) := by
  refine ⟨uniqueCallIds_run h.unique command, ?_⟩
  rw [positions_run]
  intro place hplace
  rcases List.mem_append.mp hplace with hold | hnew
  · exact h.storable place hold
  · cases command with
    | startCall request now =>
        rw [List.mem_singleton.mp hnew]
        have hstart : startOfTime ≤ (now : ℤ) := by
          unfold startOfTime
          omega
        exact ⟨hstart, hfits.1, Nat.le_add_left 1 _, hfits.2⟩
    | finishCall => cases hnew
    | finalizePendingByCallId => cases hnew
    | settleInterruptedPendingCalls => cases hnew
    | writeTasks => cases hnew

theorem sound_of_reachable (hreach : (ledger pricing).ReachableWhen Fits store) : Sound store := by
  refine hreach.invariant Sound ?_ ?_
  · intro store hempty
    have hempty : store.apiCalls = [] := hempty
    refine ⟨?_, ?_⟩
    · rw [UniqueCallIds, hempty]
      exact List.nodup_nil
    · rw [positions, hempty]
      exact List.forall_mem_nil _
  · rintro store command _ - hsound hfits rfl
    exact hsound.run hfits

theorem foldl_run (commands : List UsageCommand) (store : Store) :
    positions store <+: positions (commands.foldl (run pricing) store) ∧
      ((∀ command ∈ commands, OnlyStarts command) →
        store.apiCalls ⊆ (commands.foldl (run pricing) store).apiCalls) := by
  induction commands generalizing store with
  | nil => exact ⟨List.prefix_refl _, fun _ => List.Subset.refl _⟩
  | cons command commands ih =>
      obtain ⟨hpositions, hcalls⟩ := ih (UsageRepository.run pricing store command)
      rw [positions_run] at hpositions
      refine ⟨( List.prefix_append _ _).trans hpositions, fun hstarts => ?_⟩
      obtain ⟨hstart, hstarts⟩ := List.forall_mem_cons.mp hstarts
      refine List.Subset.trans ?_ (hcalls hstarts)
      cases command with
      | startCall request now => exact List.subset_append_left _ _
      | finishCall => cases hstart
      | finalizePendingByCallId => cases hstart
      | settleInterruptedPendingCalls => cases hstart
      | writeTasks => cases hstart

def pageAt (query : RecordsQuery) (store : Store) (bound : Option Position) :
    Page ApiCall Position :=
  page position query.limit bound (store.apiCalls.filter query.Matches)

def visitAt (query : RecordsQuery) (store : Store) (bound : Option Position) : Visit :=
  ⟨store, listRecords store query (bound.map cursorAt)⟩

theorem rows_visitAt (query : RecordsQuery) (store : Store) (bound : Option Position) :
    (visitAt query store bound).page.rows = (pageAt query store bound).items := by
  have hbound : (bound.map cursorAt).map UsageCursor.position = bound := by
    cases bound <;> rfl
  rw [visitAt, listRecords, hbound]
  rfl

theorem nextCursor_visitAt (query : RecordsQuery) (store : Store) (bound : Option Position) :
    (visitAt query store bound).page.nextCursor =
      (pageAt query store bound).next.map fun place => (cursorAt place).encode := by
  have hbound : (bound.map cursorAt).map UsageCursor.position = bound := by
    cases bound <;> rfl
  rw [visitAt, listRecords, hbound]
  rfl

/-- What the walk from a page on can be: it ends here, or goes on behind the last row. -/
inductive Follows (pricing : Pricing) (query : RecordsQuery) :
    List (List UsageCommand) → Store → Option Position → Walk → Prop where
  | last {writes : List (List UsageCommand)} {store : Store} {bound : Option Position}
      (hnext : (pageAt query store bound).next = none) :
      Follows pricing query writes store bound ⟨[visitAt query store bound], .finished⟩
  | wait {store : Store} {bound : Option Position} {place : Position}
      (hnext : (pageAt query store bound).next = some place) :
      Follows pricing query [] store bound
        ⟨[visitAt query store bound], .waiting (cursorAt place).encode⟩
  | refuse {commands : List UsageCommand} {writes : List (List UsageCommand)} {store : Store}
      {bound : Option Position} {place : Position} {error : UsageCursorError}
      (hnext : (pageAt query store bound).next = some place)
      (hid : maxCursorId < (cursorAt place).id) :
      Follows pricing query (commands :: writes) store bound
        ⟨[visitAt query store bound], .refused error⟩
  | next {commands : List UsageCommand} {writes : List (List UsageCommand)} {store : Store}
      {bound : Option Position} {place : Position} {rest : Walk}
      (hnext : (pageAt query store bound).next = some place)
      (hrest : Follows pricing query writes (commands.foldl (run pricing) store) (some place) rest) :
      Follows pricing query (commands :: writes) store bound
        ⟨visitAt query store bound :: rest.visits, rest.ending⟩

theorem Sound.foldl (h : Sound store) {commands : List UsageCommand}
    (hfits : TransitionSystem.Along (UsageRepository.run pricing) Fits store commands) :
    Sound (commands.foldl (UsageRepository.run pricing) store) := by
  induction commands generalizing store with
  | nil => exact h
  | cons command commands ih => exact ih (h.run hfits.1) hfits.2

theorem Sound.nodup (h : Sound store) (query : RecordsQuery) :
    ((store.apiCalls.filter query.Matches).map position).Nodup := by
  have hids : ((store.apiCalls.filter query.Matches).map (·.id)).Nodup :=
    h.unique.sublist (List.filter_sublist.map _)
  refine List.Nodup.of_map (fun place : Position => (ofLex place).2) ?_
  rw [List.map_map]
  exact hids

theorem next_mem_positions {bound : Option Position} {place : Position}
    (hnext : (pageAt query store bound).next = some place) : place ∈ positions store := by
  obtain ⟨-, rest, last, hitems, rfl⟩ := page_next hnext
  have hlast : last ∈ (pageAt query store bound).items := by
    rw [pageAt, hitems]
    exact List.mem_append_right _ (List.mem_singleton_self last)
  exact List.mem_map_of_mem (List.mem_of_mem_filter (mem_page hlast).1)

theorem follows_followPages {writes : List (List UsageCommand)} {cursor : Option Text}
    {bound : Option Position} (hsound : Sound store)
    (hfits : TransitionSystem.Along (UsageRepository.run pricing) Fits store writes.flatten)
    (hasked : ∀ store, listUsageRecords store query cursor = .ok (visitAt query store bound).page) :
    Follows pricing query writes store bound (followPages pricing query writes store cursor) := by
  induction writes generalizing store cursor bound with
  | nil =>
      rw [followPages, hasked]
      dsimp only
      rw [nextCursor_visitAt]
      cases hnext : (pageAt query store bound).next with
      | none => exact .last hnext
      | some place => exact .wait hnext
  | cons commands later ih =>
      rw [List.flatten_cons] at hfits
      rw [followPages, hasked]
      dsimp only
      rw [nextCursor_visitAt]
      cases hnext : (pageAt query store bound).next with
      | none => exact .last hnext
      | some place =>
          have hlist := listUsageRecords_encode (hsound.storable place (next_mem_positions hnext))
          by_cases hid : (cursorAt place).id ≤ maxCursorId
          · simp only [if_pos hid] at hlist
            obtain ⟨hfirst, hlater⟩ := TransitionSystem.along_append.mp hfits
            exact .next hnext (ih (hsound.foldl hfirst) hlater fun store => hlist store query)
          · simp only [if_neg hid] at hlist
            have hrefused : followPages pricing query later
                (commands.foldl (UsageRepository.run pricing) store)
                (some (cursorAt place).encode) = ⟨[], .refused ⟨(cursorAt place).encode⟩⟩ := by
              rw [followPages, hlist]
            simp only [Option.map_some, hrefused]
            exact .refuse hnext (not_le.mp hid)

section Rules

variable {writes : List (List UsageCommand)} {bound : Option Position} {walk : Walk}

theorem rows_cons (visit : Visit) (rest : Walk) :
    Walk.rows ⟨visit :: rest.visits, rest.ending⟩ = visit.page.rows ++ rest.rows :=
  List.flatMap_cons

theorem rows_singleton (visit : Visit) (ending : Ending) :
    Walk.rows ⟨[visit], ending⟩ = visit.page.rows :=
  List.flatMap_singleton _ _

theorem Follows.descending (h : Follows pricing query writes store bound walk) (hsound : Sound store)
    (hfits : TransitionSystem.Along (UsageRepository.run pricing) Fits store writes.flatten) :
    walk.rows.Pairwise (Before position) ∧ ∀ row ∈ walk.rows, InReach position bound row := by
  have hone : ∀ {store : Store} {bound : Option Position} (ending : Ending), Sound store →
      (Walk.rows ⟨[visitAt query store bound], ending⟩).Pairwise (Before position) ∧
        ∀ row ∈ Walk.rows ⟨[visitAt query store bound], ending⟩, InReach position bound row := by
    intro store bound ending hsound
    rw [rows_singleton, rows_visitAt]
    exact ⟨pairwise_page (hsound.nodup query), fun row hrow => (mem_page hrow).2⟩
  induction h with
  | last hnext => exact hone _ hsound
  | wait hnext => exact hone _ hsound
  | refuse hnext hid => exact hone _ hsound
  | next hnext hrest ih =>
      rw [List.flatten_cons] at hfits
      obtain ⟨hfirst, hlater⟩ := TransitionSystem.along_append.mp hfits
      obtain ⟨hordered, hreach⟩ := ih (hsound.foldl hfirst) hlater
      rw [rows_cons, rows_visitAt]
      refine ⟨pairwise_append_later (hsound.nodup query) hnext hordered hreach, ?_⟩
      intro row hrow
      rcases List.mem_append.mp hrow with hhere | hlater
      · exact (mem_page hhere).2
      · exact (hreach row hlater).later hnext

theorem Follows.each_visit {P : Visit → Prop} (hone : ∀ store bound, P (visitAt query store bound))
    (h : Follows pricing query writes store bound walk) : ∀ visit ∈ walk.visits, P visit := by
  induction h with
  | last hnext => exact List.forall_mem_singleton.mpr (hone _ _)
  | wait hnext => exact List.forall_mem_singleton.mpr (hone _ _)
  | refuse hnext hid => exact List.forall_mem_singleton.mpr (hone _ _)
  | next hnext hrest ih => exact List.forall_mem_cons.mpr ⟨hone _ _, ih⟩

theorem Follows.matches (h : Follows pricing query writes store bound walk) :
    ∀ visit ∈ walk.visits, ∀ row ∈ visit.page.rows,
      row ∈ visit.store.apiCalls ∧ query.Matches row := by
  refine h.each_visit fun store bound row hrow => ?_
  rw [rows_visitAt] at hrow
  change row ∈ store.apiCalls ∧ query.Matches row
  simpa using List.mem_filter.mp (mem_page hrow).1

theorem Follows.complete (h : Follows pricing query writes store bound walk) (hsound : Sound store)
    (hfits : TransitionSystem.Along (UsageRepository.run pricing) Fits store writes.flatten)
    (hfinished : walk.ending = .finished) {place : Position} (hreach : ∀ limit ∈ bound, place < limit)
    (hstays : ∀ visit ∈ walk.visits, ∃ row ∈ visit.store.apiCalls,
      position row = place ∧ query.Matches row) :
    ∃ row ∈ walk.rows, position row = place := by
  induction h with
  | last hnext =>
      obtain ⟨row, hrow, rfl, hmatches⟩ := hstays _ (List.mem_singleton_self _)
      refine ⟨row, ?_, rfl⟩
      rw [rows_singleton, rows_visitAt]
      exact mem_last_page hnext query.one_le_limit (List.mem_filter.mpr ⟨hrow, by simpa using hmatches⟩)
        hreach
  | wait hnext => cases hfinished
  | refuse hnext hid => cases hfinished
  | next hnext hrest ih =>
      rw [List.flatten_cons] at hfits
      obtain ⟨hfirst, hlater⟩ := TransitionSystem.along_append.mp hfits
      obtain ⟨hhere, hstays⟩ := List.forall_mem_cons.mp hstays
      obtain ⟨row, hrow, rfl, hmatches⟩ := hhere
      rw [rows_cons, rows_visitAt]
      have hfound : row ∈ List.filter (fun row => query.Matches row) _ :=
        List.mem_filter.mpr ⟨hrow, decide_eq_true hmatches⟩
      rcases mem_page_or_later (hsound.nodup query) hnext hfound hreach with hpage | hbehind
      · exact ⟨row, List.mem_append_left _ hpage, rfl⟩
      · have hbehind : ∀ limit ∈ some _, position row < limit :=
          fun limit hlimit => Option.some.inj hlimit ▸ hbehind
        obtain ⟨found, hfound, hplace⟩ := ih (hsound.foldl hfirst) hlater hfinished hbehind hstays
        exact ⟨found, List.mem_append_right _ hfound, hplace⟩

theorem Follows.length (h : Follows pricing query writes store bound walk) {cursor : Text}
    (hwaiting : walk.ending = .waiting cursor) :
    walk.rows.length = query.limit * (writes.length + 1) := by
  induction h with
  | last hnext => cases hwaiting
  | wait hnext =>
      rw [rows_singleton, rows_visitAt, pageAt, (page_next hnext).1, List.length_nil, Nat.zero_add,
        Nat.mul_one]
  | refuse hnext hid => cases hwaiting
  | next hnext hrest ih =>
      rw [rows_cons, List.length_append, ih hwaiting, rows_visitAt, pageAt, (page_next hnext).1,
        List.length_cons]
      ring

theorem Follows.refused (h : Follows pricing query writes store bound walk)
    {error : UsageCursorError} (hrefused : walk.ending = .refused error) :
    ∃ row ∈ walk.rows, maxCursorId < row.id := by
  induction h with
  | last hnext => cases hrefused
  | wait hnext => cases hrefused
  | refuse hnext hid =>
      obtain ⟨-, rest, last, hitems, rfl⟩ := page_next hnext
      refine ⟨last, ?_, hid⟩
      rw [rows_singleton, rows_visitAt, pageAt, hitems]
      exact List.mem_append_right _ (List.mem_singleton_self last)
  | next hnext hrest ih =>
      obtain ⟨row, hrow, hid⟩ := ih hrefused
      exact ⟨row, by rw [rows_cons]; exact List.mem_append_right _ hrow, hid⟩

theorem Follows.visited (h : Follows pricing query writes store bound walk) (hsound : Sound store)
    (hfits : TransitionSystem.Along (UsageRepository.run pricing) Fits store writes.flatten) :
    ∀ visit ∈ walk.visits, Sound visit.store ∧ positions store <+: positions visit.store ∧
      positions visit.store <+: positions (writes.flatten.foldl (UsageRepository.run pricing) store) ∧
      ((∀ commands ∈ writes, ∀ command ∈ commands, OnlyStarts command) →
        store.apiCalls ⊆ visit.store.apiCalls) := by
  induction h with
  | last hnext =>
      exact List.forall_mem_singleton.mpr
        ⟨hsound, List.prefix_refl _, (foldl_run _ _).1, fun _ => List.Subset.refl _⟩
  | wait hnext =>
      exact List.forall_mem_singleton.mpr
        ⟨hsound, List.prefix_refl _, (foldl_run _ _).1, fun _ => List.Subset.refl _⟩
  | refuse hnext hid =>
      exact List.forall_mem_singleton.mpr
        ⟨hsound, List.prefix_refl _, (foldl_run _ _).1, fun _ => List.Subset.refl _⟩
  | next hnext hrest ih =>
      have hflat := hfits
      rw [List.flatten_cons] at hflat
      obtain ⟨hfirst, hlater⟩ := TransitionSystem.along_append.mp hflat
      refine List.forall_mem_cons.mpr
        ⟨⟨hsound, List.prefix_refl _, (foldl_run _ _).1, fun _ => List.Subset.refl _⟩, ?_⟩
      intro visit hvisit
      obtain ⟨hsound', hpositions, hfinal, hcalls⟩ := ih (hsound.foldl hfirst) hlater visit hvisit
      rw [List.flatten_cons, List.foldl_append]
      refine ⟨hsound', (foldl_run _ _).1.trans hpositions, hfinal, fun hstarts => ?_⟩
      obtain ⟨hstart, hstarts⟩ := List.forall_mem_cons.mp hstarts
      exact List.Subset.trans ((foldl_run _ _).2 hstart) (hcalls hstarts)

theorem Follows.ids (h : Follows pricing query writes store bound walk) :
    walk.items.map (·.id) = walk.rows.map (·.id) := by
  have hvisits : ∀ visit ∈ walk.visits, visit.page.items.map (·.id) = visit.page.rows.map (·.id) :=
    h.each_visit fun store bound => List.map_map
  rw [Walk.items, Walk.rows, List.map_flatMap, List.map_flatMap, List.flatMap_congr hvisits]

theorem Follows.nodup (h : Follows pricing query writes store bound walk) (hsound : Sound store)
    (hfits : TransitionSystem.Along (UsageRepository.run pricing) Fits store writes.flatten) :
    (walk.rows.map (·.id)).Nodup ∧
      walk.rows.length ≤
        (writes.flatten.foldl (UsageRepository.run pricing) store).apiCalls.length := by
  have hfinal := hsound.foldl hfits
  have hdistinct : (walk.rows.map position).Nodup := by
    rw [List.nodup_iff_pairwise_ne, List.pairwise_map]
    exact (h.descending hsound hfits).1.imp fun hbefore => hbefore.ne'
  have hsubset : walk.rows.map position ⊆
      positions (writes.flatten.foldl (UsageRepository.run pricing) store) := by
    intro place hplace
    obtain ⟨row, hrow, rfl⟩ := List.mem_map.mp hplace
    obtain ⟨visit, hvisit, hrow⟩ := List.mem_flatMap.mp hrow
    obtain ⟨-, -, hkept, -⟩ := h.visited hsound hfits visit hvisit
    exact hkept.subset (List.mem_map_of_mem (h.matches visit hvisit row hrow).1)
  have hids : ((positions (writes.flatten.foldl (UsageRepository.run pricing) store)).map
      fun place => (ofLex place).2).Nodup := by
    rw [positions, List.map_map]
    exact hfinal.unique
  refine ⟨?_, ?_⟩
  · have hrows : walk.rows.map (·.id) = (walk.rows.map position).map fun place => (ofLex place).2 := by
      rw [List.map_map]
      rfl
    rw [hrows]
    exact hdistinct.map_on fun first hfirst second hsecond hsame =>
      List.inj_on_of_nodup_map hids (hsubset hfirst) (hsubset hsecond) hsame
  · have hlength := (hdistinct.subperm hsubset).length_le
    simpa [positions] using hlength

end Rules

/-- Followed from the first page on, the cursor yields rows in descending order of `(started_at, id)`
and no call twice, whatever is written in between. A walk that ends yields every call of the first
store that matched whenever a page was read, which a call that matched at first does while calls are
only started. Once nothing more is written a walk ends, and a cursor is refused only for the id of a
call beyond the integers of the column. -/
theorem followPages_spec (hreach : (ledger pricing).ReachableWhen Fits store)
    (writes : List (List UsageCommand))
    (hfits : TransitionSystem.Along (UsageRepository.run pricing) Fits store writes.flatten) :
    let walk := followPages pricing query writes store none
    walk.rows.Pairwise (Before position) ∧
    walk.items.map (·.id) = walk.rows.map (·.id) ∧
    (walk.items.map (·.id)).Nodup ∧
    (∀ visit ∈ walk.visits, ∀ row ∈ visit.page.rows,
      row ∈ visit.store.apiCalls ∧ query.Matches row) ∧
    (walk.ending = .finished → ∀ call ∈ store.apiCalls,
      walk.Matching query call ∨
        query.Matches call ∧ (∀ commands ∈ writes, ∀ command ∈ commands, OnlyStarts command) →
      (walk.items.map (·.id)).count call.id = 1) ∧
    (∀ rounds > (writes.flatten.foldl (UsageRepository.run pricing) store).apiCalls.length,
      ∀ cursor, (followPages pricing query (writes ++ List.replicate rounds []) store none).ending ≠
        .waiting cursor) ∧
    ∀ error, walk.ending = .refused error → ∃ row ∈ walk.rows, maxCursorId < row.id := by
  have hsound := sound_of_reachable hreach
  have hwalk : Follows pricing query writes store none
      (followPages pricing query writes store none) :=
    follows_followPages hsound hfits fun _ => rfl
  have hnodup := (hwalk.nodup hsound hfits).1
  dsimp only
  generalize followPages pricing query writes store none = walk at hwalk hnodup
  refine ⟨(hwalk.descending hsound hfits).1, hwalk.ids, hwalk.ids ▸ hnodup, hwalk.matches, ?_, ?_,
    fun _ => hwalk.refused⟩
  · intro hfinished call hcall hmatching
    have hstays : ∀ visit ∈ walk.visits, ∃ row ∈ visit.store.apiCalls,
        position row = position call ∧ query.Matches row := by
      intro visit hvisit
      obtain ⟨hlater, hpositions, -, hcalls⟩ := hwalk.visited hsound hfits visit hvisit
      rcases hmatching with hstays | ⟨hmatches, hstarts⟩
      · obtain ⟨row, hrow, hid, hmatches⟩ := hstays visit hvisit
        obtain ⟨same, hsame, hplace⟩ :=
          List.mem_map.mp (hpositions.subset (List.mem_map_of_mem hcall))
        have hsameId : same.id = call.id := congrArg (fun place => (ofLex place).2) hplace
        have heq : row = same :=
          List.inj_on_of_nodup_map hlater.unique hrow hsame (hid.trans hsameId.symm)
        exact ⟨row, hrow, heq ▸ hplace, hmatches⟩
      · exact ⟨call, hcalls hstarts hcall, rfl, hmatches⟩
    obtain ⟨row, hrow, hplace⟩ :=
      hwalk.complete hsound hfits hfinished (fun _ hlimit => by cases hlimit) hstays
    have hid : row.id = call.id := congrArg (fun place => (ofLex place).2) hplace
    rw [hwalk.ids, List.count_eq_one_of_mem hnodup (hid ▸ List.mem_map_of_mem hrow)]
  · intro rounds hrounds cursor hwaiting
    have hflat : (writes ++ List.replicate rounds []).flatten = writes.flatten := by
      simp
    have hlonger : Follows pricing query (writes ++ List.replicate rounds []) store none
        (followPages pricing query (writes ++ List.replicate rounds []) store none) :=
      follows_followPages hsound (hflat ▸ hfits) fun _ => rfl
    have hlength := hlonger.length hwaiting
    have hbound := (hlonger.nodup hsound (hflat ▸ hfits)).2
    rw [hflat, hlength, List.length_append, List.length_replicate] at hbound
    have hpage := query.one_le_limit
    have hgrows : 1 * (writes.length + rounds + 1) ≤ query.limit * (writes.length + rounds + 1) :=
      Nat.mul_le_mul_right _ hpage
    omega

def twinStore : Store :=
  [.startCall sampleCall 5, .startCall sampleCall 5].foldl (run samplePricing) {}

def singleQuery : RecordsQuery where
  limit := 1

/-- A third call of that instant is started between the pages, ahead of the cursor. -/
theorem followPages_spec_twin :
    let walk := followPages samplePricing singleQuery [[.startCall sampleCall 5]] twinStore none
    walk.items.map (·.id) = [2, 1] ∧
      ∀ call ∈ twinStore.apiCalls, (walk.items.map (·.id)).count call.id = 1 := by
  have hreach : (ledger samplePricing).ReachableWhen Fits twinStore :=
    TransitionSystem.reachable_foldl (.start rfl)
      ⟨⟨by decide, by decide⟩, ⟨by decide, by decide⟩, trivial⟩
  have hfits : TransitionSystem.Along (run samplePricing) Fits twinStore
      [[.startCall sampleCall 5]].flatten := ⟨⟨by decide, by decide⟩, trivial⟩
  have hspec := @followPages_spec _ singleQuery _ hreach [[.startCall sampleCall 5]] hfits
  refine ⟨by decide +kernel, fun call hcall => hspec.2.2.2.2.1 (by decide +kernel) call hcall ?_⟩
  have hmatches : ∀ call ∈ twinStore.apiCalls, singleQuery.Matches call := by decide +kernel
  refine .inr ⟨hmatches call hcall, ?_⟩
  simp [OnlyStarts]

end ShortReel.UsagePages
