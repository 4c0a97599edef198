import ShortReel.SessionAppendLogs

/-!
# Summaries of concurrent appends

The summary of a session is the fold of its main log as long as each append stores its rows behind those that
are stored, and those of its entries that are skipped make no difference to the fold.
-/

namespace ShortReel.SessionAppendSummaries

open InsertionDict PrefixFork SessionAppends SessionAppendLogs

variable {D : Type} {sdk : SessionSdk D} {s later : State D} {id : ℕ} {call after : Call D}

/-- A summary stays as it is while a call that has folded into it has not ended. -/
structure Folds (sdk : SessionSdk D) (s : State D) : Prop where
  entries : ∀ (id : ℕ) (call : Call D), s.calls[id]? = some call →
    call.stage.isCommitted = false → call.entries ≠ []
  folded : ∀ (id : ℕ) (call : Call D) (start : ℕ) (prev : Option (Summary D)) (data : D),
    s.calls[id]? = some call → call.stage = .folded start prev data →
      call.key.subpath = "" ∧ data = sdk.fold call.key (prev.map Summary.data) call.entries ∧
        (prev.isSome = true → get s.summaries call.key.session = prev)
  lock : ∀ (i j : ℕ) (first second : Call D) (session : String × SessionId), s.calls[i]? = some first →
    s.calls[j]? = some second → State.locks session first = true → State.locks session second = true → i = j

theorem locks_iff {session : String × SessionId} : State.locks session call = true ↔
    call.key.session = session ∧ ∃ start prev data, call.stage = .folded start (some prev) data := by
  unfold State.locks
  rw [Bool.and_eq_true, decide_eq_true_eq]
  constructor
  · rintro ⟨hsession, hstage⟩
    refine ⟨hsession, ?_⟩
    split at hstage
    · exact ⟨_, _, _, by assumption⟩
    · cases hstage
  · rintro ⟨hsession, start, prev, data, hstage⟩
    rw [hstage]
    exact ⟨hsession, rfl⟩

theorem calls_set (hcalls : later.calls = s.calls.set id after) {other : ℕ} {otherCall : Call D}
    (h : later.calls[other]? = some otherCall) :
    (other = id ∧ otherCall = after) ∨ (other ≠ id ∧ s.calls[other]? = some otherCall) := by
  have hlt := (List.getElem?_eq_some_iff.mp h).1
  rw [hcalls] at h hlt
  rw [List.length_set] at hlt
  by_cases hsame : other = id
  · left
    rw [hsame] at h hlt
    rw [List.getElem?_set_self hlt] at h
    exact ⟨hsame, (Option.some.inj h).symm⟩
  · right
    rw [List.getElem?_set_ne (Ne.symm hsame)] at h
    exact ⟨hsame, h⟩

theorem Folds.of_set (h : Folds sdk s) (hcalls : later.calls = s.calls.set id after)
    (hentries : after.stage.isCommitted = false → after.entries ≠ [])
    (hfolded : ∀ start prev data, after.stage = .folded start prev data → after.key.subpath = "" ∧
      data = sdk.fold after.key (prev.map Summary.data) after.entries ∧
        (prev.isSome = true → get later.summaries after.key.session = prev))
    (hlock : ∀ (other : ℕ) (otherCall : Call D) (session : String × SessionId), other ≠ id →
      s.calls[other]? = some otherCall → State.locks session otherCall = true →
        State.locks session after = false)
    (hsummaries : ∀ (other : ℕ) (otherCall : Call D) (session : String × SessionId), other ≠ id →
      s.calls[other]? = some otherCall → State.locks session otherCall = true →
        get later.summaries session = get s.summaries session) : Folds sdk later := by
  constructor
  · intro other otherCall hother hopen
    rcases calls_set hcalls hother with ⟨-, rfl⟩ | ⟨-, hother⟩
    · exact hentries hopen
    · exact h.entries other otherCall hother hopen
  · intro other otherCall start prev data hother hstage
    rcases calls_set hcalls hother with ⟨-, rfl⟩ | ⟨hne, hother⟩
    · exact hfolded start prev data hstage
    · obtain ⟨hmain, hdata, hprev⟩ := h.folded other otherCall start prev data hother hstage
      refine ⟨hmain, hdata, ?_⟩
      intro hsome
      obtain ⟨summary, rfl⟩ := Option.isSome_iff_exists.mp hsome
      rw [hsummaries other otherCall _ hne hother (locks_iff.mpr ⟨rfl, start, summary, data, hstage⟩)]
      exact hprev hsome
  · intro i j first second session hi hj hfirst hsecond
    rcases calls_set hcalls hi with ⟨rfl, rfl⟩ | ⟨hine, hi⟩
    · rcases calls_set hcalls hj with ⟨rfl, -⟩ | ⟨hjne, hj⟩
      · rfl
      · rw [hlock j second session hjne hj hsecond] at hfirst
        cases hfirst
    · rcases calls_set hcalls hj with ⟨rfl, rfl⟩ | ⟨hjne, hj⟩
      · rw [hlock i first session hine hi hfirst] at hsecond
        cases hsecond
      · exact h.lock i j first second session hi hj hfirst hsecond

theorem locks_false {session : String × SessionId}
    (hstage : ∀ start prev data, call.stage ≠ .folded start prev data) :
    State.locks session call = false := by
  cases hlocks : State.locks session call with
  | false => rfl
  | true =>
      obtain ⟨-, start, prev, data, hfolded⟩ := locks_iff.mp hlocks
      exact absurd hfolded (hstage start (some prev) data)

/-- A summary is made only while no other call of its session holds one. -/
theorem locks_foldedStage {start other : ℕ} {otherCall : Call D} {session : String × SessionId}
    (hfree : ¬ ((get s.summaries call.key.session).isSome = true ∧
      s.calls.any (State.locks call.key.session) = true))
    (hother : s.calls[other]? = some otherCall) (hlocks : State.locks session otherCall = true) :
    State.locks session { call with stage := s.foldedStage sdk call start } = false := by
  cases hafter : State.locks session { call with stage := s.foldedStage sdk call start } with
  | false => rfl
  | true =>
      obtain ⟨rfl, number, prev, data, hfolded⟩ := locks_iff.mp hafter
      have hprev := (Stage.folded.inj hfolded).2.1
      exfalso
      apply hfree
      refine ⟨?_, ?_⟩
      · rw [hprev]
        rfl
      · exact List.any_eq_true.mpr ⟨otherCall, List.mem_of_getElem? hother, hlocks⟩

theorem Folds.session_ne {start other : ℕ} {prev : Option (Summary D)} {data : D} {otherCall : Call D}
    {session : String × SessionId} (h : Folds sdk s) (hcall : s.calls[id]? = some call)
    (hstage : call.stage = .folded start prev data)
    (hfirst : ¬ (prev.isNone ∧ (get s.summaries call.key.session).isSome)) (hne : other ≠ id)
    (hother : s.calls[other]? = some otherCall) (hlocks : State.locks session otherCall = true) :
    session ≠ call.key.session := by
  rintro rfl
  obtain ⟨hsession, number, summary, summaryData, hfolded⟩ := locks_iff.mp hlocks
  have hkept := (h.folded other otherCall number (some summary) summaryData hother hfolded).2.2 rfl
  rw [hsession] at hkept
  cases prev with
  | none =>
      apply hfirst
      rw [hkept]
      exact ⟨rfl, rfl⟩
  | some prev =>
      apply hne
      exact h.lock other id otherCall call _ hother hcall hlocks
        (locks_iff.mpr ⟨rfl, start, prev, data, hstage⟩)

theorem Folds.effect {step : Step} (h : Folds sdk s) (hcall : s.calls[id]? = some call)
    (hopen : call.stage.isCommitted = false) (hcalls : later.calls = s.calls.set id after)
    (heffect : Effect sdk s later call after step) : Folds sdk later := by
  have hentries := h.entries id call hcall hopen
  cases heffect with
  | plain hsame hstage hsummaries =>
      have hnot : ∀ start prev data, after.stage ≠ .folded start prev data := by
        intro start prev data hfolded
        rw [hfolded] at hstage
        rcases hstage with hstage | hstage | ⟨_, _, hstage⟩ <;> cases hstage
      apply h.of_set hcalls
      · intro _
        rw [hsame]
        exact hentries
      · intro start prev data hfolded
        exact absurd hfolded (hnot start prev data)
      · intro _ _ _ _ _ _
        exact locks_false hnot
      · intro _ _ _ _ _ _
        rw [hsummaries]
  | folded caller start hmain hfree hafter hsummaries =>
      subst hafter
      apply h.of_set hcalls
      · intro _
        exact hentries
      · intro number prev data hfolded
        obtain ⟨-, rfl, rfl⟩ := Stage.folded.inj hfolded
        refine ⟨hmain, rfl, ?_⟩
        intro _
        rw [hsummaries]
      · intro other otherCall session _ hother hlocks
        exact locks_foldedStage hfree hother hlocks
      · intro _ _ _ _ _ _
        rw [hsummaries]
  | @summarized caller reported start prev data hstage hfirst hafter hrows hsummaries =>
      subst hafter
      apply h.of_set hcalls
      · intro hcommitted
        cases hcommitted
      · intro start prev data hfolded
        cases hfolded
      · intro _ _ _ _ _ _
        exact locks_false (fun _ _ _ hfolded => by cases hfolded)
      · intro other otherCall session hne hother hlocks
        rw [hsummaries, get_put_ne]
        exact h.session_ne hcall hstage hfirst hne hother hlocks
  | finished caller reported hsub hafter hsummaries =>
      subst hafter
      apply h.of_set hcalls
      · intro hcommitted
        cases hcommitted
      · intro start prev data hfolded
        cases hfolded
      · intro _ _ _ _ _ _
        exact locks_false (fun _ _ _ hfolded => by cases hfolded)
      · intro _ _ _ _ _ _
        rw [hsummaries]

theorem isCommitted_owner (hcall : s.calls[id]? = some call) {row : Row} (howner : row.owner = id) :
    s.isCommitted row = call.stage.isCommitted := by
  unfold State.isCommitted
  rw [howner, hcall]
  rfl

theorem calls_self (hcall : s.calls[id]? = some call) (hcalls : later.calls = s.calls.set id after) :
    later.calls[id]? = some after := by
  rw [hcalls, List.getElem?_set_self (List.getElem?_eq_some_iff.mp hcall).1]

theorem committed_other (hadvances : Advances s later id after) {row : Row} (howner : row.owner ≠ id) :
    row ∈ later.rows ∧ later.isCommitted row = true ↔ row ∈ s.rows ∧ s.isCommitted row = true := by
  have hmem : row ∈ later.rows ↔ row ∈ s.rows := by
    have hfilter : ∀ rows : List Row, row ∈ rows ↔ row ∈ rows.filter fun row => row.owner ≠ id := by
      intro rows
      rw [List.mem_filter]
      exact ⟨fun hrow => ⟨hrow, decide_eq_true howner⟩, And.left⟩
    rw [hfilter later.rows, hadvances.rows, ← hfilter]
  have hcommitted : later.isCommitted row = s.isCommitted row := by
    unfold State.isCommitted
    rw [hadvances.calls, List.getElem?_set_ne (Ne.symm howner)]
  rw [hmem, hcommitted]

theorem stored_keeps (h : Sound s) (hcall : s.calls[id]? = some call) (hopen : call.stage.isCommitted = false)
    (hadvances : Advances s later id after) {key : LogKey}
    (hother : after.stage.isCommitted = false ∨ key ≠ after.key) : stored later key = stored s key := by
  have hlater := h.advance hcall hopen hadvances
  apply stored_eq hlater (pairwise_stored h key)
  intro row
  rw [mem_stored]
  by_cases howner : row.owner = id
  · rw [isCommitted_owner hcall howner, hopen,
      isCommitted_owner (calls_self hcall hadvances.calls) howner]
    constructor
    · rintro ⟨-, -, hcommitted⟩
      cases hcommitted
    · rintro ⟨hrow, hkey, hcommitted⟩
      obtain ⟨start, -, hprogress⟩ := hadvances.progress
      have hown := key_of_own hprogress (mem_ownRows.mpr ⟨hrow, howner⟩)
      rcases hother with hafter | hother
      · rw [hafter] at hcommitted
        cases hcommitted
      · exact absurd (hkey.symm.trans hown) hother
  · have hsame := committed_other hadvances howner
    constructor
    · rintro ⟨hrow, hkey, hcommitted⟩
      obtain ⟨hrow, hcommitted⟩ := hsame.mpr ⟨hrow, hcommitted⟩
      exact ⟨hrow, hkey, hcommitted⟩
    · rintro ⟨hrow, hkey, hcommitted⟩
      obtain ⟨hrow, hcommitted⟩ := hsame.mp ⟨hrow, hcommitted⟩
      exact ⟨hrow, hkey, hcommitted⟩

theorem stored_commit {start : ℕ} (h : Sound s) (hcall : s.calls[id]? = some call)
    (hopen : call.stage.isCommitted = false) (hadvances : Advances s later id after)
    (hafter : after.stage.isCommitted = true) (hrows : later.rows = s.rows)
    (hprogress : Progress s id call start call.entries.length)
    (hbehind : ∀ row ∈ s.rows, row.key = call.key → s.isCommitted row = true → row.seq < start) :
    stored later call.key = stored s call.key ++ ownRows s id := by
  have hlater := h.advance hcall hopen hadvances
  apply stored_eq hlater
  · apply List.pairwise_append.mpr
    refine ⟨pairwise_stored h _, (pairwise_rowsOf id call start _).sublist hprogress.own, ?_⟩
    intro row hrow own hown
    obtain ⟨hrow, hrowKey, hcommitted⟩ := mem_stored.mp hrow
    obtain ⟨i, hi, rfl⟩ := List.mem_mapIdx.mp (hprogress.own.subset hown)
    exact Nat.lt_of_lt_of_le (hbehind row hrow hrowKey hcommitted) (Nat.le_add_right start i)
  · intro row
    rw [List.mem_append, mem_stored, mem_ownRows, hrows]
    by_cases howner : row.owner = id
    · rw [isCommitted_owner hcall howner, hopen,
        isCommitted_owner (calls_self hcall hadvances.calls) howner, hafter]
      constructor
      · rintro (⟨-, -, hcommitted⟩ | ⟨hrow, -⟩)
        · cases hcommitted
        · exact ⟨hrow, key_of_own hprogress (mem_ownRows.mpr ⟨hrow, howner⟩), rfl⟩
      · rintro ⟨hrow, -, -⟩
        exact Or.inr ⟨hrow, howner⟩
    · have hsame := committed_other hadvances howner
      rw [hrows] at hsame
      constructor
      · rintro (⟨hrow, hrowKey, hcommitted⟩ | ⟨-, hown⟩)
        · obtain ⟨hrow, hcommitted⟩ := hsame.mpr ⟨hrow, hcommitted⟩
          exact ⟨hrow, hrowKey, hcommitted⟩
        · exact absurd hown howner
      · rintro ⟨hrow, hrowKey, hcommitted⟩
        obtain ⟨hrow, hcommitted⟩ := hsame.mp ⟨hrow, hcommitted⟩
        exact Or.inl ⟨hrow, hrowKey, hcommitted⟩

def foldLog (sdk : SessionSdk D) (key : LogKey) : List Entry → Option D
  | [] => none
  | entry :: entries => some (sdk.fold key none (entry :: entries))

theorem foldLog_append (key : LogKey) (log own : List Entry) (hsome : log ++ own ≠ []) :
    foldLog sdk key (log ++ own) = some (sdk.fold key (foldLog sdk key log) own) := by
  cases log with
  | nil =>
      cases own with
      | nil => exact absurd rfl hsome
      | cons entry own => rfl
  | cons entry log => exact congrArg some (sdk.fold_append key none (entry :: log) own)

def Summarized (sdk : SessionSdk D) (s : State D) : Prop :=
  ∀ key : LogKey, key.subpath = "" →
    (get s.summaries key.session).map Summary.data = foldLog sdk key ((stored s key).map Row.payload)

/-- A step does not commit a summary other than behind what is stored and, in effect, of what it stores. -/
def FoldsStored (sdk : SessionSdk D) (s : State D) : Step → Prop
  | .commit id _ => ∀ (call : Call D) (start : ℕ) (prev : Option (Summary D)) (data : D),
      s.calls[id]? = some call → call.stage = .folded start prev data →
        (∀ row ∈ s.rows, row.key = call.key → s.isCommitted row = true → row.seq < start) ∧
        sdk.fold call.key (prev.map Summary.data) call.entries =
          sdk.fold call.key (prev.map Summary.data) ((ownRows s id).map Row.payload)
  | _ => True

theorem Summarized.keep (h : Summarized sdk s) (hsummaries : later.summaries = s.summaries)
    (hstored : ∀ key : LogKey, key.subpath = "" → stored later key = stored s key) :
    Summarized sdk later := by
  intro key hmain
  rw [hsummaries, hstored key hmain]
  exact h key hmain

theorem key_ext {key other : LogKey} (hkey : key.subpath = "") (hother : other.subpath = "")
    (hsession : key.session = other.session) : key = other := by
  obtain ⟨projectKey, sessionId, subpath⟩ := key
  obtain ⟨otherProjectKey, otherSessionId, otherSubpath⟩ := other
  obtain ⟨rfl, rfl⟩ := Prod.mk.inj hsession
  obtain rfl : subpath = "" := hkey
  obtain rfl : otherSubpath = "" := hother
  rfl

theorem summarized_commit {reported : Bool} {start : ℕ} {prev : Option (Summary D)} {data : D} (h : Sound s)
    (hfolds : Folds sdk s) (hsummarized : Summarized sdk s) (hcall : s.calls[id]? = some call)
    (hopen : call.stage.isCommitted = false)
    (hadvances : Advances s later id { call with stage := .committed reported })
    (hstage : call.stage = .folded start prev data)
    (hfirst : ¬ (prev.isNone = true ∧ (get s.summaries call.key.session).isSome = true))
    (hrows : later.rows = s.rows)
    (hsummaries : later.summaries = put s.summaries call.key.session { mtimeMs := call.nowMs, data })
    (hguard : FoldsStored sdk s (.commit id reported)) : Summarized sdk later := by
  obtain ⟨hmain, hdata, hkept⟩ := hfolds.folded id call start prev data hcall hstage
  obtain ⟨hbehind, hskipped⟩ := hguard call start prev data hcall hstage
  have hprev : get s.summaries call.key.session = prev := by
    cases prev with
    | some prev => exact hkept rfl
    | none =>
        cases hget : get s.summaries call.key.session with
        | none => rfl
        | some summary =>
            exfalso
            apply hfirst
            rw [hget]
            exact ⟨rfl, rfl⟩
  obtain ⟨number, hstarts, hprogress⟩ := h.progress id call hcall
  unfold handled at hprogress
  rw [hstage] at hstarts hprogress
  obtain rfl : start = number := hstarts
  have hlog := stored_commit h hcall hopen hadvances rfl hrows hprogress hbehind
  intro key hkey
  by_cases hsame : key = call.key
  · subst hsame
    rw [hsummaries, get_put_self, hlog, List.map_append, foldLog_append, ← hsummarized _ hmain, hprev,
      Option.map_some,
      hdata, hskipped]
    -- the first entry is stored, so that the log is not empty
    intro hempty
    rw [← List.map_append, ← hlog, List.map_eq_nil_iff] at hempty
    cases hentries : call.entries with
    | nil => exact hfolds.entries id call hcall hopen hentries
    | cons entry entries =>
        have hlater := h.advance hcall hopen hadvances
        obtain ⟨row, hrow, -⟩ := (logsSound_of_sound hlater).complete id _
            (calls_self hcall hadvances.calls) rfl entry
          (by rw [hentries]; exact List.mem_cons_self)
        rw [hempty] at hrow
        cases hrow
  · rw [hsummaries, get_put_ne (fun hsession => hsame (key_ext hkey hmain hsession)),
      stored_keeps h hcall hopen hadvances (Or.inr hsame)]
    exact hsummarized key hkey

/-- Sound logs, with summaries in progress that will stay true. -/
structure Consistent (sdk : SessionSdk D) (s : State D) : Prop where
  sound : Sound s
  folds : Folds sdk s
  summarized : Summarized sdk s

theorem calls_append {new : Call D} {other : ℕ} {otherCall : Call D}
    (h : (s.calls ++ [new])[other]? = some otherCall) :
    s.calls[other]? = some otherCall ∨ otherCall = new := by
  rcases Nat.lt_or_ge other s.calls.length with hlt | hge
  · rw [List.getElem?_append_left hlt] at h
    exact Or.inl h
  · rw [List.getElem?_append_right hge, List.getElem?_singleton] at h
    split_ifs at h
    exact Or.inr (Option.some.inj h).symm

theorem folds_append (h : Folds sdk s) {new : Call D}
    (hentries : new.stage.isCommitted = false → new.entries ≠ [])
    (hnew : ∀ start prev data, new.stage ≠ .folded start prev data) :
    Folds sdk { s with calls := s.calls ++ [new] } := by
  have hunlocked : ∀ session, State.locks session new = false := fun _ => locks_false hnew
  constructor
  · intro other otherCall hother hopen
    rcases calls_append hother with hother | rfl
    · exact h.entries other otherCall hother hopen
    · exact hentries hopen
  · intro other otherCall start prev data hother hstage
    rcases calls_append hother with hother | rfl
    · exact h.folded other otherCall start prev data hother hstage
    · exact absurd hstage (hnew start prev data)
  · intro i j first second session hi hj hfirst hsecond
    rcases calls_append hi with hi | rfl
    · rcases calls_append hj with hj | rfl
      · exact h.lock i j first second session hi hj hfirst hsecond
      · rw [hunlocked] at hsecond
        cases hsecond
    · rw [hunlocked] at hfirst
      cases hfirst

theorem stored_append (h : Sound s) (calls : List (Call D)) (key : LogKey) :
    stored { s with calls := s.calls ++ calls } key = stored s key := by
  unfold stored
  congr 1
  apply List.filter_congr
  intro row hrow
  rw [isCommitted_append calls (h.owned row hrow)]

theorem consistent_append (h : Consistent sdk s) (key : SessionKey) (entries : List Entry) (nowMs : ℤ)
    (hstep : next sdk s (.append key entries nowMs) = some later) : Consistent sdk later := by
  have hsound := sound_next h.sound hstep
  obtain rfl := Option.some.inj hstep
  refine ⟨hsound, ?_, ?_⟩
  · apply folds_append h.folds
    · intro hopen hempty
      have hempty : entries = [] := hempty
      rw [if_pos hempty] at hopen
      cases hopen
    · intro start prev data hstage
      dsimp only at hstage
      split_ifs at hstage
  · exact h.summarized.keep rfl (fun log _ => stored_append h.sound _ log)

theorem summarized_plain (h : Consistent sdk s) (hcall : s.calls[id]? = some call)
    (hopen : call.stage.isCommitted = false) (hadvances : Advances s later id after)
    (hstage : after.stage = .raised ∨ after.stage = .reading ∨
      ∃ start index, after.stage = .inserting start index)
    (hsummaries : later.summaries = s.summaries) : Summarized sdk later := by
  have hafter : after.stage.isCommitted = false := by
    rcases hstage with hstage | hstage | ⟨start, index, hstage⟩ <;> rw [hstage] <;> rfl
  exact h.summarized.keep hsummaries fun key _ => stored_keeps h.sound hcall hopen hadvances (Or.inl hafter)

theorem summarized_effect {step : Step} (h : Consistent sdk s) (hcall : s.calls[id]? = some call)
    (hopen : call.stage.isCommitted = false) (hadvances : Advances s later id after)
    (heffect : Effect sdk s later call after step) (hstep : ∀ reported, step ≠ .commit id reported)
    (hcaller : step.caller = some id) : Summarized sdk later := by
  cases heffect with
  | plain hentries hstage hsummaries => exact summarized_plain h hcall hopen hadvances hstage hsummaries
  | folded _ start hmain hfree hafter hsummaries =>
      subst hafter
      exact h.summarized.keep hsummaries fun key _ => stored_keeps h.sound hcall hopen hadvances (Or.inl rfl)
  | summarized caller reported =>
      obtain rfl : caller = id := Option.some.inj hcaller
      exact absurd rfl (hstep reported)
  | finished caller reported =>
      obtain rfl : caller = id := Option.some.inj hcaller
      exact absurd rfl (hstep reported)

theorem consistent_next {step : Step} (h : Consistent sdk s) (hguard : FoldsStored sdk s step)
    (hstep : next sdk s step = some later) : Consistent sdk later := by
  have hsound := sound_next h.sound hstep
  cases step with
  | append key entries nowMs => exact consistent_append h key entries nowMs hstep
  | commit id reported =>
      obtain ⟨call, hcall, hstep⟩ := Option.bind_eq_some_iff.mp hstep
      obtain ⟨hopen, after, hadvances, heffect⟩ := advance_effect h.sound hcall hstep
      refine ⟨hsound, h.folds.effect hcall hopen hadvances.calls heffect, ?_⟩
      cases heffect with
      | plain hentries hstage hsummaries => exact summarized_plain h hcall hopen hadvances hstage hsummaries
      | summarized _ _ hfolded hfirst hafter hrows hsummaries =>
          subst hafter
          exact summarized_commit h.sound h.folds h.summarized hcall hopen
            hadvances hfolded hfirst hrows hsummaries
            hguard
      | finished _ _ hsub hafter hsummaries =>
          subst hafter
          apply h.summarized.keep hsummaries
          intro key hmain
          apply stored_keeps h.sound hcall hopen hadvances
          right
          rintro rfl
          exact hsub hmain
  | _ =>
      obtain ⟨call, hcall, hstep⟩ := Option.bind_eq_some_iff.mp hstep
      obtain ⟨hopen, after, hadvances, heffect⟩ := advance_effect h.sound hcall hstep
      refine ⟨hsound, h.folds.effect hcall hopen hadvances.calls heffect, ?_⟩
      exact summarized_effect h hcall hopen hadvances heffect (fun _ hcommit => by cases hcommit) rfl

theorem consistent_initial : Consistent sdk ({} : State D) := by
  refine ⟨?_, ?_, ?_⟩
  · exact sound_of_reachable (TransitionSystem.ReachableWhen.start rfl : (appends sdk).Reachable {})
  · constructor
    · intro id call hcall
      cases hcall
    · intro id call start prev data hcall
      cases hcall
    · intro i j first second session hi
      cases hi
  · intro key _
    rfl

def branchSdk : SessionSdk String where
  fold _ prev entries :=
    entries.foldl (fun branch entry => if entry.rest = "" then branch else entry.rest) (prev.getD "")
  fold_append _ _ _ _ := List.foldl_append

def prompt (uuid branch : String) : Entry where
  uuid := some uuid
  type := some "user"
  sessionId := none
  forkedFrom := none
  timestamp := none
  blocks := none
  agentId := none
  rest := branch

def talk : SessionKey where
  projectKey := "p"
  sessionId := "s"
  subpath := none

end ShortReel.SessionAppendSummaries
