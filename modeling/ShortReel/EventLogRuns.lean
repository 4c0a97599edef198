import Mathlib.Data.List.Range
import ShortReel.EventLog

/-!
# What the event log keeps in every run

A call numbers its rows from a maximum that it has read before, so the number is never above the
length of its session; the primary key refuses one that is below it.
-/

namespace ShortReel.EventLog

variable {Payload : Type}

section Batches

variable (call : Call Payload) (writer : ℕ)

theorem rowsOf_payloads (seqStart : ℕ) (entries : List Payload) :
    (call.rowsOf writer seqStart entries).map (·.payload) = entries := by
  induction entries generalizing seqStart with
  | nil => rfl
  | cons payload rest ih => rw [Call.rowsOf, List.map_cons, ih]

theorem rowsOf_seqs (seqStart : ℕ) (entries : List Payload) :
    (call.rowsOf writer seqStart entries).map (·.seq) = List.range' seqStart entries.length := by
  induction entries generalizing seqStart with
  | nil => rfl
  | cons payload rest ih => rw [Call.rowsOf, List.map_cons, ih, List.length_cons, List.range'_succ]

theorem of_mem_rowsOf {seqStart : ℕ} {entries : List Payload} {row : Row Payload}
    (hrow : row ∈ call.rowsOf writer seqStart entries) :
    row.session = call.session ∧ row.clientKey = call.storedKey ∧ row.writer = writer := by
  induction entries generalizing seqStart with
  | nil => cases hrow
  | cons payload rest ih =>
      rcases List.mem_cons.mp hrow with rfl | hrow
      · exact ⟨rfl, rfl, rfl⟩
      · exact ih hrow

variable {call writer} {seqStart : ℕ}

theorem length_batch : (call.batch writer seqStart).length = call.entries.length := by
  rw [← List.length_map (·.payload), Call.batch, rowsOf_payloads]

theorem filter_batch {keeps : Row Payload → Bool}
    (hkeeps : ∀ row, row.session = call.session → row.writer = writer → keeps row = true) :
    (call.batch writer seqStart).filter keeps = call.batch writer seqStart := by
  rw [List.filter_eq_self]
  intro row hrow
  obtain ⟨hsession, -, hwriter⟩ := of_mem_rowsOf call writer hrow
  exact hkeeps row hsession hwriter

theorem filter_batch_eq_nil {keeps : Row Payload → Bool}
    (hdrops : ∀ row, row.session = call.session → row.writer = writer → keeps row = false) :
    (call.batch writer seqStart).filter keeps = [] := by
  rw [List.filter_eq_nil_iff]
  intro row hrow
  obtain ⟨hsession, -, hwriter⟩ := of_mem_rowsOf call writer hrow
  rw [hdrops row hsession hwriter]
  exact Bool.false_ne_true

theorem batch_of_storedKey {clientKey : String} (hlength : call.entries.length = 1)
    (hkey : call.clientKey = some clientKey) :
    ∃ payload, call.batch writer seqStart =
      [⟨call.session, seqStart, payload, some clientKey, writer⟩] := by
  obtain ⟨payload, hentries⟩ := List.length_eq_one_iff.mp hlength
  refine ⟨payload, ?_⟩
  rw [Call.batch, hentries, Call.rowsOf, Call.rowsOf, Call.storedKey, if_pos hlength, hkey]

end Batches

def Explained (world : World Payload) (id : ℕ) : Option (Call Payload × Point Payload) → Prop
  | none => world.writtenBy id = []
  | some (call, .returned result) =>
      (∃ seqStart, world.writtenBy id = call.batch id seqStart ∧
        result = (call.batch id seqStart).map Row.authoritative) ∨
      (world.writtenBy id = [] ∧ call.entries.length = 1 ∧
        ∃ row ∈ world.ofSession call.session, row.clientKey ≠ none ∧
          row.clientKey = call.clientKey ∧ result = [row.authoritative])
  | some (call, .raised) =>
      world.writtenBy id = [] ∨ ∃ seqStart, world.writtenBy id = call.batch id seqStart
  | some (call, .committing _ seqStart) =>
      world.writtenBy id = [] ∧ seqStart ≤ (world.ofSession call.session).length
  | some (call, .lookingUp) | some (call, .resolving) =>
      world.writtenBy id = [] ∧ call.entries.length = 1
  | some (_, .reading _) => world.writtenBy id = []

/-- The numbers of each session have no gap, a key is on one row of its session, and each call has
stored what its point says. -/
structure Sound (world : World Payload) : Prop where
  dense : ∀ session, (world.ofSession session).map (·.seq) =
    List.range (world.ofSession session).length
  keys : world.rows.Pairwise fun old new => ¬ Constraint.clientKeyIndex.refuses old new
  written : ∀ id, Explained world id (world.calls id)

variable {world : World Payload} {id : ℕ} {call : Call Payload} {point : Point Payload}

theorem Explained.store {other : ℕ} (hother : other ≠ id) {seqStart : ℕ}
    {entry : Option (Call Payload × Point Payload)} (hexplained : Explained world other entry) :
    Explained (world.store id call seqStart point) other entry := by
  have hwritten : (world.store id call seqStart point).writtenBy other = world.writtenBy other := by
    rw [World.writtenBy, World.store, List.filter_append, filter_batch_eq_nil, List.append_nil]
    · rfl
    · rintro row - rfl
      exact decide_eq_false hother.symm
  have hsession : ∀ session, world.ofSession session <+:
      (world.store id call seqStart point).ofSession session := by
    intro session
    rw [World.ofSession, World.ofSession, World.store, List.filter_append]
    exact List.prefix_append _ _
  match entry, hexplained with
  | none, hnone => exact hwritten.trans hnone
  | some (_, .returned _), hreturned =>
      rw [Explained, hwritten]
      refine hreturned.imp_right ?_
      rintro ⟨hnothing, hlength, row, hrow, hkey⟩
      exact ⟨hnothing, hlength, row, (hsession _).subset hrow, hkey⟩
  | some (_, .raised), hraised =>
      rw [Explained, hwritten]
      exact hraised
  | some (call', .committing _ _), ⟨hnothing, hstart⟩ =>
      exact ⟨hwritten.trans hnothing, hstart.trans (hsession call'.session).length_le⟩
  | some (_, .lookingUp), ⟨hnothing, hlength⟩ => exact ⟨hwritten.trans hnothing, hlength⟩
  | some (_, .resolving), ⟨hnothing, hlength⟩ => exact ⟨hwritten.trans hnothing, hlength⟩
  | some (_, .reading _), hnothing => exact hwritten.trans hnothing

theorem Sound.goTo (hsound : Sound world) (hexplained : Explained world id (some (call, point))) :
    Sound (world.goTo id call point) where
  dense := hsound.dense
  keys := hsound.keys
  written other := by
    by_cases hother : other = id
    · subst hother
      have hat : (world.goTo other call point).calls other = some (call, point) :=
        Function.update_self _ _ _
      rw [hat]
      exact hexplained
    · have hat : (world.goTo id call point).calls other = world.calls other :=
        Function.update_of_ne hother _ _
      rw [hat]
      exact hsound.written other

theorem Sound.seqStart_eq (hsound : Sound world) {seqStart : ℕ}
    (hstart : seqStart ≤ (world.ofSession call.session).length) (hentries : call.entries ≠ [])
    (hfree : ¬ Constraint.primaryKey.Violated world.rows (call.batch id seqStart)) :
    seqStart = (world.ofSession call.session).length := by
  refine hstart.antisymm (not_lt.mp fun hlt => hfree ?_)
  have htaken : seqStart ∈ (world.ofSession call.session).map (·.seq) := by
    rw [hsound.dense]
    exact List.mem_range.mpr hlt
  obtain ⟨old, hold, hseq⟩ := List.mem_map.mp htaken
  obtain ⟨hold, hsession⟩ := List.mem_filter.mp hold
  obtain ⟨payload, rest, hcons⟩ := List.exists_cons_of_ne_nil hentries
  refine ⟨old, hold, ⟨call.session, seqStart, payload, call.storedKey, id⟩, ?_, ?_, hseq⟩
  · rw [Call.batch, hcons, Call.rowsOf]
    exact List.mem_cons_self
  · exact of_decide_eq_true hsession

theorem Sound.dense_store (hsound : Sound world) {seqStart : ℕ}
    (hstart : seqStart ≤ (world.ofSession call.session).length)
    (hfree : ¬ Constraint.primaryKey.Violated world.rows (call.batch id seqStart))
    (session : String) :
    ((world.store id call seqStart point).ofSession session).map (·.seq) =
      List.range ((world.store id call seqStart point).ofSession session).length := by
  have hrows : (world.store id call seqStart point).ofSession session =
      world.ofSession session ++ (call.batch id seqStart).filter (·.session = session) := by
    rw [World.ofSession, World.store, List.filter_append]
    rfl
  rw [hrows]
  by_cases hsession : call.session = session
  · subst hsession
    rw [filter_batch fun row hrow _ => decide_eq_true hrow, List.map_append, hsound.dense,
      List.length_append, length_batch, Call.batch, rowsOf_seqs]
    by_cases hentries : call.entries = []
    · rw [hentries]
      exact List.append_nil _
    · rw [hsound.seqStart_eq hstart hentries hfree, List.range_eq_range', List.range_eq_range',
        ← List.range'_append_1, Nat.zero_add]
  · rw [filter_batch_eq_nil, List.append_nil, hsound.dense]
    intro row hrow _
    exact decide_eq_false fun hsame => hsession (hrow.symm.trans hsame)

theorem Sound.keys_store (hsound : Sound world) {seqStart : ℕ}
    (hfree : ¬ Constraint.clientKeyIndex.Violated world.rows (call.batch id seqStart)) :
    (world.store id call seqStart point).rows.Pairwise
      fun old new => ¬ Constraint.clientKeyIndex.refuses old new := by
  rw [World.store, List.pairwise_append]
  refine ⟨hsound.keys, ?_, fun old hold new hnew hrefuses => hfree ⟨old, hold, new, hnew, hrefuses⟩⟩
  by_cases hlength : call.entries.length = 1
  · obtain ⟨row, hrow⟩ := List.length_eq_one_iff.mp (length_batch.trans hlength)
    rw [hrow]
    exact List.pairwise_singleton _ _
  · refine List.pairwise_of_forall_mem_list ?_
    rintro old - new hnew ⟨-, hkey, -⟩
    rw [(of_mem_rowsOf call id hnew).2.1, Call.storedKey, if_neg hlength] at hkey
    exact hkey rfl

theorem Sound.store (hsound : Sound world) {seqStart : ℕ} (hnothing : world.writtenBy id = [])
    (hstart : seqStart ≤ (world.ofSession call.session).length)
    (haccepted : Accepted world.rows (call.batch id seqStart))
    (hpoint : point = .raised ∨
      point = .returned ((call.batch id seqStart).map Row.authoritative)) :
    Sound (world.store id call seqStart point) where
  dense := hsound.dense_store hstart haccepted.1
  keys := hsound.keys_store haccepted.2
  written other := by
    by_cases hother : other = id
    · subst hother
      have hwritten : (world.store other call seqStart point).writtenBy other =
          call.batch other seqStart := by
        rw [World.writtenBy, World.store, List.filter_append,
          filter_batch fun row _ hrow => decide_eq_true hrow]
        exact (congrArg (· ++ _) hnothing).trans (List.nil_append _)
      have hat : (world.store other call seqStart point).calls other = some (call, point) :=
        Function.update_self _ _ _
      rw [hat]
      rcases hpoint with rfl | rfl
      · exact Or.inr ⟨seqStart, hwritten⟩
      · exact Or.inl ⟨seqStart, hwritten, rfl⟩
    · have hat : (world.store id call seqStart point).calls other = world.calls other :=
        Function.update_of_ne hother _ _
      rw [hat]
      exact (hsound.written other).store hother

theorem findByClientKey_eq_some {session clientKey : String} {row : Row Payload}
    (hfound : world.findByClientKey session clientKey = some row) :
    row ∈ world.ofSession session ∧ row.clientKey = some clientKey := by
  unfold World.findByClientKey at hfound
  have hsame := List.find?_some hfound
  rw [decide_eq_true_eq] at hsame
  exact ⟨List.mem_filter.mpr ⟨List.mem_of_find?_eq_some hfound, decide_eq_true hsame.1⟩, hsame.2⟩

theorem Sound.nextSeq_eq (hsound : Sound world) (session : String) :
    world.nextSeq session = (world.ofSession session).length := by
  have hfold : ∀ rows : List (Row Payload), ∀ next,
      rows.map (·.seq) = List.range' next rows.length →
        rows.foldl (fun next row => max next (row.seq + 1)) next = next + rows.length := by
    intro rows
    induction rows with
    | nil => exact fun _ _ => rfl
    | cons row rest ih =>
        intro next hseqs
        rw [List.map_cons, List.length_cons, List.range'_succ, List.cons.injEq] at hseqs
        rw [List.foldl_cons, hseqs.1, max_eq_right (Nat.le_succ next), ih _ hseqs.2,
          List.length_cons]
        omega
  have hall := hfold _ 0 ((hsound.dense session).trans (List.range_eq_range' ..))
  rw [World.nextSeq, hall, Nat.zero_add]

theorem Sound.lookUp (hsound : Sound world) {missing : Point Payload}
    (hnothing : world.writtenBy id = []) (hlength : call.entries.length = 1)
    (hmissing : Explained world id (some (call, missing))) :
    Sound (lookUp world id call missing) := by
  unfold EventLog.lookUp
  split
  · rename_i row hfound
    obtain ⟨clientKey, hkey, hfound⟩ := Option.bind_eq_some_iff.mp hfound
    obtain ⟨hrow, hnamed⟩ := findByClientKey_eq_some hfound
    refine hsound.goTo (Or.inr ⟨hnothing, hlength, row, hrow, ?_, hnamed.trans hkey.symm, rfl⟩)
    rw [hnamed]
    exact Option.some_ne_none _
  · exact hsound.goTo hmissing

theorem explained_start (hnothing : world.writtenBy id = []) :
    Explained world id (some (call, call.start)) := by
  cases call with
  | append session entries clientKey =>
      rw [Call.start]
      split
      · rename_i hempty
        refine Or.inl ⟨0, ?_, ?_⟩
        · rw [hnothing, Call.batch, Call.entries, List.length_eq_zero_iff.mp hempty, Call.rowsOf]
        · rw [Call.batch, Call.entries, List.length_eq_zero_iff.mp hempty, Call.rowsOf, List.map_nil]
      · exact hnothing
  | appendUserEntry session entry clientKey =>
      cases clientKey with
      | none => exact hnothing
      | some clientKey =>
          rw [Call.start]
          split
          · exact hnothing
          · exact ⟨hnothing, rfl⟩

theorem explained_afterViolation (hnothing : world.writtenBy id = []) {attempt seqStart : ℕ}
    {violated : Constraint} (hviolated : violated.Violated world.rows (call.batch id seqStart)) :
    Explained world id (some (call, afterViolation call attempt violated)) := by
  unfold afterViolation
  split
  · rename_i hkey
    obtain ⟨rfl, -⟩ := hkey
    obtain ⟨old, -, new, hnew, -, hnamed, -⟩ := hviolated
    refine ⟨hnothing, by_contra fun hlength => hnamed ?_⟩
    rw [(of_mem_rowsOf call id hnew).2.1, Call.storedKey, if_neg hlength]
  · split
    · exact Or.inl hnothing
    · exact hnothing

theorem Sound.commit (hsound : Sound world) {attempt seqStart : ℕ} {answer : Answer}
    (hat : Explained world id (some (call, .committing attempt seqStart)))
    {later : World Payload} (hstep : commit world id call attempt seqStart answer = some later) :
    Sound later := by
  obtain ⟨hnothing, hstart⟩ := hat
  cases answer with
  | violates violated =>
      rw [EventLog.commit] at hstep
      split at hstep
      · rename_i hviolated
        cases hstep
        exact hsound.goTo (explained_afterViolation hnothing hviolated)
      · cases hstep
  | stored =>
      rw [EventLog.commit] at hstep
      split at hstep
      · rename_i haccepted
        cases hstep
        exact hsound.store hnothing hstart haccepted (Or.inr rfl)
      · cases hstep
  | storedUnheard =>
      rw [EventLog.commit] at hstep
      split at hstep
      · rename_i haccepted
        cases hstep
        exact hsound.store hnothing hstart haccepted (Or.inl rfl)
      · cases hstep

theorem Sound.run (hsound : Sound world) {step : Step Payload} {later : World Payload}
    (hstep : run world step = some later) : Sound later := by
  cases step with
  | begin id call =>
      rw [EventLog.run] at hstep
      split at hstep
      · rename_i hnew
        cases hstep
        have hnothing := hsound.written id
        rw [hnew] at hnothing
        exact hsound.goTo (explained_start hnothing)
      · cases hstep
  | lookUp id =>
      rw [EventLog.run] at hstep
      split at hstep
      · rename_i hat
        cases hstep
        have hwritten := hsound.written id
        rw [hat] at hwritten
        exact hsound.lookUp hwritten.1 hwritten.2 hwritten.1
      · cases hstep
  | read id =>
      rw [EventLog.run] at hstep
      split at hstep
      · rename_i hat
        cases hstep
        have hwritten := hsound.written id
        rw [hat] at hwritten
        exact hsound.goTo ⟨hwritten, (hsound.nextSeq_eq _).le⟩
      · cases hstep
  | commit id answer =>
      rw [EventLog.run] at hstep
      split at hstep
      · rename_i hat
        have hwritten := hsound.written id
        rw [hat] at hwritten
        exact hsound.commit hwritten hstep
      · cases hstep
  | resolve id =>
      rw [EventLog.run] at hstep
      split at hstep
      · rename_i hat
        cases hstep
        have hwritten := hsound.written id
        rw [hat] at hwritten
        exact hsound.lookUp hwritten.1 hwritten.2 (Or.inl hwritten.1)
      · cases hstep
  | fail id =>
      rw [EventLog.run] at hstep
      have hwritten := hsound.written id
      split at hstep
      · cases hstep
      · cases hstep
      · cases hstep
      · rename_i call point hreturned hraised hat
        cases hstep
        rw [hat] at hwritten
        refine hsound.goTo (Or.inl ?_)
        cases point with
        | lookingUp => exact hwritten.1
        | reading => exact hwritten
        | committing => exact hwritten.1
        | resolving => exact hwritten.1
        | returned result => exact (hreturned _ rfl).elim
        | raised => exact (hraised rfl).elim

theorem sound_of_reachable (hreach : (appending Payload).Reachable world) : Sound world := by
  refine hreach.invariant Sound ?_ fun _ _ _ _ hsound _ hstep => hsound.run hstep
  rintro ⟨rows, calls⟩ ⟨rfl, rfl⟩
  exact ⟨fun _ => rfl, List.Pairwise.nil, fun _ => rfl⟩

/-- The rows that a call has stored are all of its entries, side by side and in the order given. -/
structure Whole (world : World Payload) (id : ℕ) (call : Call Payload) : Prop where
  session : ∀ row ∈ world.writtenBy id, row.session = call.session
  payloads : (world.writtenBy id).map (·.payload) = call.entries
  adjacent : ∃ seqStart,
    (world.writtenBy id).map (·.seq) = List.range' seqStart call.entries.length

/-- A call of one entry that has stored nothing: another one has stored the entry of its key. -/
structure Repeated (world : World Payload) (id : ℕ) (call : Call Payload)
    (result : List (Authoritative Payload)) : Prop where
  nothing : world.writtenBy id = []
  single : call.entries.length = 1
  named : ∃ row ∈ world.ofSession call.session, row.clientKey ≠ none ∧
    row.clientKey = call.clientKey ∧ result = [row.authoritative]

theorem whole_of_batch {seqStart : ℕ} (hbatch : world.writtenBy id = call.batch id seqStart) :
    Whole world id call where
  session row hrow := (of_mem_rowsOf call id (hbatch ▸ hrow)).1
  payloads := by rw [hbatch, Call.batch, rowsOf_payloads]
  adjacent := ⟨seqStart, by rw [hbatch, Call.batch, rowsOf_seqs]⟩

theorem Sound.whole_or_nothing (hsound : Sound world) (hat : world.calls id = some (call, point)) :
    world.writtenBy id = [] ∨ Whole world id call := by
  have hwritten := hsound.written id
  rw [hat] at hwritten
  cases point with
  | lookingUp => exact Or.inl hwritten.1
  | reading => exact Or.inl hwritten
  | committing => exact Or.inl hwritten.1
  | resolving => exact Or.inl hwritten.1
  | raised => exact hwritten.imp_right fun ⟨_, hbatch⟩ => whole_of_batch hbatch
  | returned result =>
      rcases hwritten with ⟨seqStart, hbatch, -⟩ | ⟨hnothing, -⟩
      · exact Or.inr (whole_of_batch hbatch)
      · exact Or.inl hnothing

theorem Sound.returned (hsound : Sound world) {result : List (Authoritative Payload)}
    (hat : world.calls id = some (call, .returned result)) :
    (Whole world id call ∧ result = (world.writtenBy id).map Row.authoritative) ∨
      Repeated world id call result := by
  have hwritten := hsound.written id
  rw [hat] at hwritten
  rcases hwritten with ⟨seqStart, hbatch, hresult⟩ | ⟨hnothing, hsingle, hnamed⟩
  · exact Or.inl ⟨whole_of_batch hbatch, hresult.trans (hbatch ▸ rfl)⟩
  · exact Or.inr ⟨hnothing, hsingle, hnamed⟩

theorem Sound.key_unique (hsound : Sound world) {old new : Row Payload} (hold : old ∈ world.rows)
    (hnew : new ∈ world.rows) (hsession : old.session = new.session)
    (hkey : old.clientKey ≠ none) (hsame : old.clientKey = new.clientKey) : old = new := by
  by_contra hne
  have hsymm : Std.Symm fun old new : Row Payload =>
      ¬ Constraint.clientKeyIndex.refuses old new := by
    refine ⟨fun first second hfirst hsecond => hfirst ?_⟩
    obtain ⟨hsession, hkey, hsame⟩ := hsecond
    exact ⟨hsession.symm, hsame ▸ hkey, hsame.symm⟩
  exact hsound.keys.forall hold hnew hne ⟨hsession, hsame ▸ hkey, hsame⟩

theorem Sound.returned_named (hsound : Sound world) {result : List (Authoritative Payload)}
    (hat : world.calls id = some (call, .returned result)) (hlength : call.entries.length = 1)
    {clientKey : String} (hkey : call.clientKey = some clientKey) :
    ∃ row ∈ world.ofSession call.session,
      row.clientKey = some clientKey ∧ result = [row.authoritative] := by
  have hwritten := hsound.written id
  rw [hat] at hwritten
  rcases hwritten with ⟨seqStart, hbatch, hresult⟩ | ⟨-, -, row, hrow, -, hnamed, hresult⟩
  · obtain ⟨payload, hone⟩ := batch_of_storedKey hlength hkey
    rw [hone] at hbatch hresult
    refine ⟨_, ?_, rfl, hresult⟩
    have hmem := List.mem_filter.mp (hbatch ▸ List.mem_cons_self)
    exact List.mem_filter.mpr ⟨hmem.1, decide_eq_true rfl⟩
  · exact ⟨row, hrow, hnamed.trans hkey, hresult⟩

/-- In every interleaving the numbers of a session run from zero on without a gap; a call that returns
has stored its entries once, side by side and in order, unless its key was taken; a key is on one row
of its session, and the calls of one entry with that key all return it. -/
theorem appended_once (world : World Payload) (hreach : (appending Payload).Reachable world) :
    (∀ session, (world.ofSession session).map (·.seq) =
      List.range (world.ofSession session).length) ∧
    (∀ id call result, world.calls id = some (call, .returned result) →
      (Whole world id call ∧ result = (world.writtenBy id).map Row.authoritative) ∨
        Repeated world id call result) ∧
    (∀ id call point, world.calls id = some (call, point) →
      world.writtenBy id = [] ∨ Whole world id call) ∧
    (∀ old ∈ world.rows, ∀ new ∈ world.rows, old.session = new.session → old.clientKey ≠ none →
      old.clientKey = new.clientKey → old = new) ∧
    ∀ session clientKey, ∀ first second : List (Authoritative Payload),
      (∃ id call, world.calls id = some (call, .returned first) ∧ call.session = session ∧
        call.entries.length = 1 ∧ call.clientKey = some clientKey) →
      (∃ id call, world.calls id = some (call, .returned second) ∧ call.session = session ∧
        call.entries.length = 1 ∧ call.clientKey = some clientKey) →
      first = second := by
  have hsound := sound_of_reachable hreach
  refine ⟨hsound.dense, fun _ _ _ => hsound.returned, fun _ _ _ => hsound.whole_or_nothing,
    fun old hold new hnew => hsound.key_unique hold hnew, ?_⟩
  rintro session clientKey first second ⟨id, call, hat, rfl, hlength, hkey⟩
    ⟨id', call', hat', hsession, hlength', hkey'⟩
  obtain ⟨row, hrow, hnamed, rfl⟩ := hsound.returned_named hat hlength hkey
  obtain ⟨row', hrow', hnamed', rfl⟩ := hsound.returned_named hat' hlength' hkey'
  obtain ⟨hrow, hof⟩ := List.mem_filter.mp hrow
  obtain ⟨hrow', hof'⟩ := List.mem_filter.mp hrow'
  have hsame : row = row' := by
    refine hsound.key_unique hrow hrow' ?_ ?_ (hnamed.trans hnamed'.symm)
    · rw [of_decide_eq_true hof, of_decide_eq_true hof', hsession]
    · rw [hnamed]
      exact Option.some_ne_none _
  rw [hsame]

def World.runAll (world : World Payload) : List (Step Payload) → Option (World Payload)
  | [] => some world
  | step :: rest => (run world step).bind fun later => later.runAll rest

theorem reachable_runAll {later : World Payload} {steps : List (Step Payload)}
    (hreach : (appending Payload).Reachable world) (hrun : world.runAll steps = some later) :
    (appending Payload).Reachable later := by
  induction steps generalizing world with
  | nil =>
      cases hrun
      exact hreach
  | cons step rest ih =>
      obtain ⟨next, hstep, hrest⟩ := Option.bind_eq_some_iff.mp hrun
      exact ih (.next step hreach trivial hstep) hrest

def keyedCalls : List (Step String) :=
  [.begin 0 (.append "one" ["first"] (some "key")), .begin 1 (.append "one" ["second"] (some "key")),
    .read 0, .read 1, .commit 0 .stored, .commit 1 (.violates .primaryKey), .read 1,
    .commit 1 (.violates .clientKeyIndex), .resolve 1,
    .begin 2 (.appendUserEntry "two" "third" (some "key")), .lookUp 2, .read 2, .commit 2 .stored]

theorem reachable_keyedCalls {world : World String}
    (hrun : (World.mk [] fun _ => none).runAll keyedCalls = some world) :
    (appending String).Reachable world :=
  reachable_runAll (.start ⟨rfl, rfl⟩) hrun

/-- The second call stores nothing, and the third stores another entry under the key. -/
theorem key_taken_stores_nothing :
    ∃ world, (appending String).Reachable world ∧
      ¬ (∀ id call result, world.calls id = some (call, .returned result) → Whole world id call) ∧
      ¬ ∀ old ∈ world.rows, ∀ new ∈ world.rows, old.clientKey ≠ none →
        old.clientKey = new.clientKey → old = new := by
  obtain ⟨world, hrun⟩ := Option.isSome_iff_exists.mp
    (by decide : ((World.mk [] fun _ => none).runAll keyedCalls).isSome)
  have hrows : (some world).map (·.rows) = some [⟨"one", 0, "first", some "key", 0⟩,
      ⟨"two", 0, "third", some "key", 2⟩] := by
    rw [← hrun]
    decide
  have hcall : (some world).map (fun world => world.calls 1) =
      some (some (.append "one" ["second"] (some "key"), .returned [⟨0, "first"⟩])) := by
    rw [← hrun]
    decide
  rw [Option.map_some, Option.some_inj] at hrows hcall
  refine ⟨world, reachable_keyedCalls hrun, fun hwhole => ?_, fun hnamed => ?_⟩
  · have hpayloads := (hwhole 1 _ _ hcall).payloads
    rw [World.writtenBy, hrows] at hpayloads
    exact absurd hpayloads (by decide)
  · have hsame := hnamed ⟨"one", 0, "first", some "key", 0⟩ (by rw [hrows]; decide)
      ⟨"two", 0, "third", some "key", 2⟩ (by rw [hrows]; decide) (by decide) rfl
    exact absurd hsame (by decide)

/-- There the two calls of session one with the key have returned one entry. -/
theorem appended_once_keyed :
    ∃ world, (World.mk [] fun _ => none).runAll keyedCalls = some world ∧
      ∀ old ∈ world.rows, ∀ new ∈ world.rows, old.session = new.session → old.clientKey ≠ none →
        old.clientKey = new.clientKey → old = new := by
  obtain ⟨world, hrun⟩ := Option.isSome_iff_exists.mp
    (by decide : ((World.mk [] fun _ => none).runAll keyedCalls).isSome)
  exact ⟨world, hrun, (appended_once world (reachable_keyedCalls hrun)).2.2.2.1⟩

end ShortReel.EventLog
