import ShortReel.SessionActors
import Mathlib.Data.List.Nodup

/-!
# Released commands

Every command that has been passed to an actor is at one place: handled, in flight in the client, taken by the
task that gets commands, or in the queue. Each way the actor ends releases these places, so that no caller
waits for a command after its end. Two ways out are missing: a task cancelled before it has run at all leaves
its queue, and a command without what its type needs is dropped by an assertion.
-/

namespace ShortReel.ActorReleases

open SessionActors

variable {M E : Type} {listens : Bool} {s : State M E}

def inFlight (s : State M E) : List (SessionCommand M) :=
  match s.phase with
  | .awaiting command => [command]
  | _ => []

def taken (s : State M E) : List (SessionCommand M) :=
  match s.cmdTask with
  | some (.took command) => [command]
  | _ => []

/-- The enqueued commands are those handled, in flight, taken and queued, in this order. -/
structure Accounts (s : State M E) (handled flight hand : List (SessionCommand M)) : Prop where
  whole : s.enqueued = handled ++ (flight ++ (hand ++ s.cmdQueue))
  sent : s.sent.Sublist (handled ++ flight)
  done : ∀ command ∈ handled, s.isDone command = true

variable {handled flight hand : List (SessionCommand M)} {command : SessionCommand M}

theorem isDone_iff : s.isDone command = true ↔ command.number ∈ s.completed.map Prod.fst := by
  unfold State.isDone
  exact decide_eq_true_iff

theorem isDone_complete (error : Option (Raised E)) (other : SessionCommand M) :
    (s.complete command error).isDone other = true ↔
      s.isDone other = true ∨ other.number = command.number := by
  rw [isDone_iff, isDone_iff]
  simp [State.complete]

theorem Accounts.complete (h : Accounts s handled flight hand) (error : Option (Raised E)) :
    Accounts (s.complete command error) handled flight hand where
  whole := h.whole
  sent := h.sent
  done other hother := (isDone_complete error other).mpr (Or.inl (h.done other hother))

theorem Accounts.handle (h : Accounts s handled [command] []) (hdone : s.isDone command = true) :
    Accounts s (handled ++ [command]) [] [] where
  whole := by
    rw [h.whole, List.append_assoc]
    rfl
  sent := by
    rw [List.append_nil]
    exact h.sent
  done other hother := by
    rcases List.mem_append.mp hother with hother | hsame
    · exact h.done other hother
    · rw [List.mem_singleton.mp hsame]
      exact hdone

theorem Accounts.fly (h : Accounts s handled [] [command]) : Accounts s handled [command] [] where
  whole := h.whole
  sent := by
    have hsent := h.sent
    rw [List.append_nil] at hsent
    exact hsent.trans (List.sublist_append_left handled [command])
  done := h.done

theorem Accounts.land (h : Accounts s handled [command] []) (error : Option (Raised E)) :
    Accounts (s.complete command error) (handled ++ [command]) [] [] :=
  (h.complete error).handle ((isDone_complete error command).mpr (Or.inr rfl))

def isWaiting : Phase M E → Bool
  | .waiting => true
  | _ => false

def isFinished : Phase M E → Bool
  | .finished => true
  | _ => false

def isActive : GetTask M → Bool
  | .cancelling | .cancelled => false
  | _ => true

structure Sound (s : State M E) : Prop where
  numbered : s.enqueued.map SessionCommand.number = List.range s.enqueued.length
  accounts : ∃ handled, Accounts s handled (inFlight s) (taken s)
  active : ∀ task, s.cmdTask = some task → isActive task = true → isWaiting s.phase = true
  closed : isFinished s.phase = true → s.cmdQueue = []

structure Landed (s : State M E) : Prop where
  numbered : s.enqueued.map SessionCommand.number = List.range s.enqueued.length
  accounts : ∃ handled, Accounts s handled [] (taken s)

theorem Sound.landed (h : Sound s) (hflight : inFlight s = []) : Landed s :=
  ⟨h.numbered, hflight ▸ h.accounts⟩

theorem Sound.taken_nil (h : Sound s) (hphase : isWaiting s.phase = false) : taken s = [] := by
  unfold taken
  cases htask : s.cmdTask with
  | none => rfl
  | some task =>
      cases task with
      | took command =>
          have hwaiting := h.active _ htask rfl
          rw [hphase] at hwaiting
          cases hwaiting
      | _ => rfl

theorem Sound.land (h : Sound s) (hphase : s.phase = .awaiting command) (error : Option (Raised E)) :
    Landed (s.complete command error) := by
  obtain ⟨handled, haccounts⟩ := h.accounts
  have htaken : taken s = [] := h.taken_nil (by rw [hphase]; rfl)
  have hflight : inFlight s = [command] := by
    unfold inFlight
    rw [hphase]
  rw [htaken, hflight] at haccounts
  refine ⟨h.numbered, handled ++ [command], ?_⟩
  have hcomplete : taken (s.complete command error) = [] := htaken
  rw [hcomplete]
  exact haccounts.land error

theorem Landed.arm (h : Landed s) : Sound s.arm := by
  obtain ⟨handled, haccounts⟩ := h.accounts
  have htaken : taken s.arm = taken s := by
    unfold taken State.arm
    cases s.cmdTask with
    | none => rfl
    | some task => rfl
  constructor
  · exact h.numbered
  · refine ⟨handled, ?_⟩
    rw [htaken]
    exact ⟨haccounts.whole, haccounts.sent, haccounts.done⟩
  · intro task _ _
    rfl
  · intro hfinished
    cases hfinished

theorem sound_of_quiet (hnumbered : s.enqueued.map SessionCommand.number = List.range s.enqueued.length)
    (haccounts : ∃ handled, Accounts s handled [] []) (hflight : inFlight s = [])
    (hquiet : ∀ task, s.cmdTask = some task → isActive task = false)
    (hclosed : isFinished s.phase = true → s.cmdQueue = []) : Sound s := by
  have htaken : taken s = [] := by
    unfold taken
    cases htask : s.cmdTask with
    | none => rfl
    | some task =>
        cases task with
        | took command => cases hquiet _ htask
        | _ => rfl
  constructor
  · exact hnumbered
  · rw [hflight, htaken]
    exact haccounts
  · intro task htask hactive
    rw [hquiet task htask] at hactive
    cases hactive
  · exact hclosed

theorem Landed.leaveLoop (h : Landed s) (raised : Option (Raised E)) : Sound (s.leaveLoop raised) := by
  obtain ⟨handled, haccounts⟩ := h.accounts
  have hquiet : ∀ cmdTask : Option (GetTask M), (∀ task, cmdTask = some task → isActive task = false) →
      Accounts s handled [] [] → Sound { s with msgTask := none, phase := .exiting raised, cmdTask } := by
    intro cmdTask hcmdTask haccounts
    apply sound_of_quiet
    · exact h.numbered
    · exact ⟨handled, haccounts.whole, haccounts.sent, haccounts.done⟩
    · rfl
    · exact hcmdTask
    · intro hfinished
      cases hfinished
  unfold taken at haccounts
  obtain ⟨phase, cmdQueue, cmdTask, msgTask, fatal, enqueued, sent, completed, cancelled⟩ := s
  cases cmdTask with
  | none => exact hquiet none (by simp) haccounts
  | some task =>
      cases task with
      | ready => exact hquiet (some .cancelling) (by simp [isActive]) haccounts
      | blocked => exact hquiet (some .cancelling) (by simp [isActive]) haccounts
      | cancelling => exact hquiet (some .cancelling) (by simp [isActive]) haccounts
      | cancelled => exact hquiet (some .cancelled) (by simp [isActive]) haccounts
      | took command =>
          have hreleased := haccounts.fly.land (some .actorClosed)
          apply sound_of_quiet
          · exact h.numbered
          · exact ⟨handled ++ [command], hreleased.whole, hreleased.sent, hreleased.done⟩
          · rfl
          · intro task htask
            cases htask
          · intro hfinished
            cases hfinished

def HasParts (command : SessionCommand M) : Prop :=
  match command.type with
  | .query message _ => message.isSome = true
  | .cancel messageUuid => messageUuid.isSome = true
  | _ => True

theorem sound_dispatch (hnumbered : s.enqueued.map SessionCommand.number = List.range s.enqueued.length)
    (haccounts : Accounts s handled [] [command]) (htask : s.cmdTask = none) (hparts : HasParts command) :
    Sound (s.dispatch command) := by
  have hawaiting : ∀ sent : List (SessionCommand M), sent.Sublist (handled ++ [command]) →
      Sound { s with sent, phase := .awaiting command } := by
    intro sent hsent
    have hflies := haccounts.fly
    constructor
    · exact hnumbered
    · refine ⟨handled, ?_⟩
      unfold inFlight taken
      dsimp only
      rw [htask]
      exact ⟨hflies.whole, hsent, hflies.done⟩
    · intro task hsome
      rw [htask] at hsome
      cases hsome
    · intro hfinished
      cases hfinished
  have hsent := haccounts.fly.sent
  unfold State.dispatch
  unfold HasParts at hparts
  cases htype : command.type with
  | query message sessionId =>
      rw [htype] at hparts
      cases message with
      | none => cases hparts
      | some message =>
          have hkept := haccounts.sent
          rw [List.append_nil] at hkept
          exact hawaiting _ (hkept.append (List.Sublist.refl [command]))
  | interrupt => exact hawaiting _ hsent
  | cancel messageUuid =>
      rw [htype] at hparts
      cases messageUuid with
      | none => cases hparts
      | some messageUuid => exact hawaiting _ hsent
  | disconnect interruptFirst =>
      cases interruptFirst with
      | true => exact hawaiting _ hsent
      | false =>
          apply Landed.leaveLoop
          refine ⟨hnumbered, handled ++ [command], ?_⟩
          unfold taken
          have hcomplete : (s.complete command none).cmdTask = none := htask
          rw [hcomplete]
          exact haccounts.fly.land none

theorem take_eq : ∃ msgTask, s.take = { s with msgTask } := by
  unfold State.take
  split
  · exact ⟨none, rfl⟩
  · exact ⟨s.msgTask, rfl⟩

theorem sound_wake (h : Sound s) (hphase : s.phase = .waiting) {callback : Option (Raised E)}
    (hparts : s.failure listens callback = none → ∀ command, s.cmdTask = some (.took command) →
      HasParts command) : Sound (s.wake listens callback) := by
  have hlanded : Landed s := h.landed (by unfold inFlight; rw [hphase])
  obtain ⟨msgTask, htake⟩ := @take_eq M E s
  unfold State.wake
  cases hfailure : s.failure listens callback with
  | some error => exact hlanded.leaveLoop _
  | none =>
      rw [htake]
      dsimp only
      have harm : Sound ({ s with msgTask }).arm := by
        apply Landed.arm
        obtain ⟨hnumbered, handled, haccounts⟩ := hlanded
        exact ⟨hnumbered, handled, haccounts.whole, haccounts.sent, haccounts.done⟩
      cases htask : s.cmdTask with
      | none =>
          rw [htask] at harm
          exact harm
      | some task =>
          rw [htask] at harm
          cases task with
          | took command =>
              obtain ⟨handled, haccounts⟩ := hlanded.accounts
              unfold taken at haccounts
              rw [htask] at haccounts
              apply @sound_dispatch M E _ handled command
              · exact h.numbered
              · exact ⟨haccounts.whole, haccounts.sent, haccounts.done⟩
              · rfl
              · exact hparts hfailure command htask
          | _ => exact harm

theorem sound_answered (h : Sound s) (hphase : s.phase = .awaiting command)
    (answer : Except (Raised E) Bool) : Sound (s.answered command answer) := by
  have hland := h.land hphase
  unfold State.answered
  cases command.type with
  | query message sessionId =>
      cases answer with
      | ok answer => exact (hland _).arm
      | error error => exact (hland _).leaveLoop _
  | interrupt =>
      cases answer with
      | ok answer => exact (hland _).arm
      | error error => exact (hland _).leaveLoop _
  | disconnect interruptFirst =>
      cases answer with
      | ok answer => exact (hland _).leaveLoop _
      | error error => exact (hland _).leaveLoop _
  | cancel messageUuid =>
      cases answer with
      | ok answer =>
          apply Landed.arm
          obtain ⟨hnumbered, handled, haccounts⟩ := hland none
          exact ⟨hnumbered, handled, haccounts.whole, haccounts.sent, haccounts.done⟩
      | error error =>
          dsimp only [State.messageCancelled]
          split_ifs
          · exact (hland _).arm
          · exact (hland _).leaveLoop _

theorem isDone_release (error : Raised E) (other : SessionCommand M) :
    (s.release error command).isDone other = true ↔
      s.isDone other = true ∨ other.number = command.number := by
  unfold State.release
  split_ifs with hdone
  · constructor
    · exact Or.inl
    · rintro (hother | hsame)
      · exact hother
      · rw [isDone_iff] at hdone ⊢
        rw [hsame]
        exact hdone
  · exact isDone_complete _ other

theorem isDone_drain (error : Raised E) (queue : List (SessionCommand M)) {other : SessionCommand M}
    (h : s.isDone other = true ∨ other ∈ queue) :
    (queue.foldl (State.release error) s).isDone other = true := by
  induction queue generalizing s with
  | nil =>
      rcases h with hdone | hmem
      · exact hdone
      · cases hmem
  | cons first queue ih =>
      apply ih
      rw [isDone_release]
      rcases h with hdone | hmem
      · exact Or.inl (Or.inl hdone)
      · rcases List.mem_cons.mp hmem with rfl | hmem
        · exact Or.inl (Or.inr rfl)
        · exact Or.inr hmem

theorem drain_keeps (error : Raised E) (queue : List (SessionCommand M)) :
    ∃ completed, queue.foldl (State.release error) s = { s with completed } := by
  induction queue generalizing s with
  | nil => exact ⟨s.completed, rfl⟩
  | cons first queue ih =>
      rw [List.foldl_cons]
      unfold State.release
      split_ifs
      · exact ih
      · obtain ⟨completed, hkept⟩ := @ih (s.complete first (some error))
        exact ⟨completed, hkept⟩

theorem sound_finish (h : Sound s) (hflight : inFlight s = []) (hphase : isWaiting s.phase = false)
    (fatal : Option (Raised E)) : Sound (s.finish fatal) := by
  obtain ⟨handled, haccounts⟩ := h.accounts
  rw [hflight, h.taken_nil hphase] at haccounts
  have hdone : ∀ command ∈ s.enqueued,
      ({ s with fatal }.drainPendingCommands (fatal.getD .actorClosed)).isDone command = true := by
    intro command hcommand
    apply isDone_drain
    rw [haccounts.whole] at hcommand
    rcases List.mem_append.mp hcommand with hhandled | hqueued
    · exact Or.inl (haccounts.done command hhandled)
    · exact Or.inr hqueued
  unfold State.finish
  unfold State.drainPendingCommands at hdone ⊢
  obtain ⟨completed, hkept⟩ :=
    @drain_keeps M E { s with fatal, cmdQueue := [] } (fatal.getD .actorClosed) s.cmdQueue
  rw [hkept] at hdone ⊢
  apply sound_of_quiet
  · exact h.numbered
  · refine ⟨s.enqueued, ?_, ?_, hdone⟩
    · simp
    · have hsent := haccounts.sent
      rw [List.append_nil] at hsent ⊢
      rw [haccounts.whole]
      exact hsent.trans (List.sublist_append_left _ _)
  · rfl
  · intro task htask
    cases hactive : isActive task with
    | false => rfl
    | true => rw [h.active task htask hactive] at hphase; cases hphase
  · intro _
    rfl

theorem numbered_concat (hnumbered : s.enqueued.map SessionCommand.number = List.range s.enqueued.length)
    (type : CommandType M) : (s.enqueued ++ [s.passed type]).map SessionCommand.number =
      List.range (s.enqueued ++ [s.passed type]).length := by
  rw [List.map_append, hnumbered, List.length_append, List.length_singleton, List.range_succ]
  rfl

theorem taken_wakeUp (cmdQueue enqueued : List (SessionCommand M)) :
    taken { s with enqueued, cmdQueue, cmdTask := s.cmdTask.map State.wakeUp } = taken s := by
  unfold taken
  dsimp only
  cases s.cmdTask with
  | none => rfl
  | some task => cases task <;> rfl

theorem sound_put (h : Sound s) (hphase : isFinished s.phase = false) (type : CommandType M) :
    Sound { s with
      enqueued := s.enqueued ++ [s.passed type]
      cmdQueue := s.cmdQueue ++ [s.passed type]
      cmdTask := s.cmdTask.map State.wakeUp } := by
  obtain ⟨handled, haccounts⟩ := h.accounts
  constructor
  · exact numbered_concat h.numbered type
  · refine ⟨handled, ?_⟩
    rw [taken_wakeUp]
    refine ⟨?_, haccounts.sent, haccounts.done⟩
    dsimp only
    rw [haccounts.whole]
    simp only [List.append_assoc]
    rfl
  · intro task htask hactive
    obtain ⟨before, hbefore, rfl⟩ := Option.map_eq_some_iff.mp htask
    refine h.active before hbefore ?_
    cases before with
    | cancelling => exact hactive
    | cancelled => exact hactive
    | _ => rfl
  · intro hfinished
    rw [hphase] at hfinished
    cases hfinished

theorem sound_refuse (h : Sound s) (hphase : s.phase = .finished) (type : CommandType M)
    (error : Option (Raised E)) :
    Sound ({ s with enqueued := s.enqueued ++ [s.passed type] }.complete (s.passed type) error) := by
  obtain ⟨handled, haccounts⟩ := h.accounts
  have hflight : inFlight s = [] := by
    unfold inFlight
    rw [hphase]
  have hqueue : s.cmdQueue = [] := h.closed (by rw [hphase]; rfl)
  rw [hflight, h.taken_nil (by rw [hphase]; rfl)] at haccounts
  have hflies : Accounts { s with enqueued := s.enqueued ++ [s.passed type] } handled
      [s.passed type] [] := by
    apply Accounts.fly
    refine ⟨?_, haccounts.sent, haccounts.done⟩
    dsimp only
    rw [haccounts.whole, hqueue]
    simp
  have hlanded := hflies.land error
  apply sound_of_quiet
  · exact numbered_concat h.numbered type
  · exact ⟨_, hlanded⟩
  · exact hflight
  · intro task htask
    cases hactive : isActive task with
    | false => rfl
    | true =>
        have hwaiting := h.active task htask hactive
        rw [hphase] at hwaiting
        cases hwaiting
  · intro _
    exact hqueue

theorem sound_enqueue (h : Sound s) (type : CommandType M) : Sound (s.enqueue type) := by
  have hput := fun hphase => sound_put h hphase type
  unfold State.enqueue
  dsimp only
  cases hphase : s.phase with
  | finished =>
      have hrefused := sound_refuse h hphase type (some (s.fatal.getD .actorClosed))
      rw [hphase] at hrefused
      exact hrefused
  | _ =>
      rw [hphase] at hput
      exact hput rfl

theorem sound_get {later : State M E} (h : Sound s) (hget : s.get = some later) : Sound later := by
  obtain ⟨handled, haccounts⟩ := h.accounts
  unfold taken at haccounts
  unfold State.get at hget
  cases htask : s.cmdTask with
  | none =>
      rw [htask] at hget
      cases hget
  | some task =>
      rw [htask] at hget haccounts
      cases task with
      | ready =>
          have hwaiting := h.active _ htask rfl
          cases hqueue : s.cmdQueue with
          | nil =>
              rw [hqueue] at hget
              obtain rfl := Option.some.inj hget
              refine ⟨h.numbered, ⟨handled, ?_, haccounts.sent, haccounts.done⟩, fun _ _ _ => hwaiting,
                fun _ => rfl⟩
              have hwhole := haccounts.whole
              rw [hqueue] at hwhole
              exact hwhole
          | cons command rest =>
              rw [hqueue] at hget
              obtain rfl := Option.some.inj hget
              refine ⟨h.numbered, ⟨handled, ?_, haccounts.sent, haccounts.done⟩, fun _ _ _ => hwaiting, ?_⟩
              · have hwhole := haccounts.whole
                rw [hqueue] at hwhole
                exact hwhole
              · intro hfinished
                have hempty := h.closed hfinished
                rw [hqueue] at hempty
                cases hempty
      | cancelling =>
          obtain rfl := Option.some.inj hget
          refine ⟨h.numbered, ⟨handled, haccounts.whole, haccounts.sent, haccounts.done⟩, ?_, h.closed⟩
          intro task hcancelled hactive
          obtain rfl := Option.some.inj hcancelled
          cases hactive
      | _ => cases hget

/-- A step is not one of those that drop a command: the task is not cancelled before it has run with a command
in its queue, and a command that the loop comes to has its parts. -/
def Releases (listens : Bool) (s : State M E) : Step M E → Prop
  | .cancelUnstarted => s.cmdQueue = []
  | .wake callback => s.failure listens callback = none →
      ∀ command, s.cmdTask = some (.took command) → HasParts command
  | _ => True

theorem sound_initial : Sound ({} : State M E) := by
  apply sound_of_quiet
  · rfl
  · refine ⟨[], rfl, List.Sublist.refl [], ?_⟩
    intro command hcommand
    cases hcommand
  · rfl
  · intro task htask
    cases htask
  · intro hfinished
    cases hfinished

theorem Sound.move (h : Sound s) (hbefore : inFlight s = []) (hwaiting : isWaiting s.phase = false)
    {phase : Phase M E} (hafter : inFlight { s with phase } = [])
    (hclosed : isFinished phase = true → s.cmdQueue = []) : Sound { s with phase } := by
  apply sound_of_quiet
  · exact h.numbered
  · obtain ⟨handled, haccounts⟩ := h.accounts
    rw [hbefore, h.taken_nil hwaiting] at haccounts
    exact ⟨handled, haccounts.whole, haccounts.sent, haccounts.done⟩
  · exact hafter
  · intro task htask
    cases hactive : isActive task with
    | false => rfl
    | true =>
        rw [h.active task htask hactive] at hwaiting
        cases hwaiting
  · exact hclosed

inductive Moves (listens : Bool) (s : State M E) : Step M E → State M E → Prop where
  | start (hphase : s.phase = .idle) : Moves listens s .start { s with phase := .created }
  | enqueue (type : CommandType M) : Moves listens s (.enqueue type) (s.enqueue type)
  | cancelUnstarted (hphase : s.phase = .created) :
      Moves listens s .cancelUnstarted { s with phase := .finished }
  | begin (hphase : s.phase = .created) : Moves listens s .begin { s with phase := .entering }
  | entered (hphase : s.phase = .entering) : Moves listens s (.entered (.ok ())) s.arm
  | notEntered (hphase : s.phase = .entering) (error : Raised E) :
      Moves listens s (.entered (.error error)) (s.finish (some error))
  | get {later : State M E} (hget : s.get = some later) : Moves listens s .get later
  | read (result : Except (Raised E) Item) (htask : s.msgTask = some .reading) :
      Moves listens s (.read result) { s with msgTask := some (.read result) }
  | wake (callback : Option (Raised E)) (hphase : s.phase = .waiting) (hwoken : s.isWoken = true) :
      Moves listens s (.wake callback) (s.wake listens callback)
  | cancelWait (error : Raised E) (hphase : s.phase = .waiting) :
      Moves listens s (.cancelWait error) (s.leaveLoop (some error))
  | answered {command : SessionCommand M} (answer : Except (Raised E) Bool) (hphase : s.phase = .awaiting command) :
      Moves listens s (.answered answer) (s.answered command answer)
  | exited {raised : Option (Raised E)} (exit : Exit E) (hphase : s.phase = .exiting raised) :
      Moves listens s (.exited exit) (s.finish (exit.fatal raised))

theorem moves_of_next {step : Step M E} {later : State M E} (h : next listens s step = some later) :
    Moves listens s step later := by
  unfold next at h
  cases step with
  | enqueue type =>
      obtain rfl := Option.some.inj h
      exact .enqueue type
  | get => exact .get h
  | entered result =>
      dsimp only at h
      split at h
      · obtain rfl := Option.some.inj h
        exact .entered ‹_›
      · obtain rfl := Option.some.inj h
        exact .notEntered ‹_› _
      · cases h
  | wake callback =>
      dsimp only at h
      split at h
      · split_ifs at h with hwoken
        obtain rfl := Option.some.inj h
        exact .wake callback ‹_› hwoken
      · cases h
  | start =>
      dsimp only at h
      split at h
      · obtain rfl := Option.some.inj h
        exact .start ‹_›
      · cases h
  | cancelUnstarted =>
      dsimp only at h
      split at h
      · obtain rfl := Option.some.inj h
        exact .cancelUnstarted ‹_›
      · cases h
  | begin =>
      dsimp only at h
      split at h
      · obtain rfl := Option.some.inj h
        exact .begin ‹_›
      · cases h
  | read result =>
      dsimp only at h
      split at h
      · obtain rfl := Option.some.inj h
        exact .read result ‹_›
      · cases h
  | cancelWait error =>
      dsimp only at h
      split at h
      · obtain rfl := Option.some.inj h
        exact .cancelWait error ‹_›
      · cases h
  | answered answer =>
      dsimp only at h
      split at h
      · obtain rfl := Option.some.inj h
        exact .answered answer ‹_›
      · cases h
  | exited exit =>
      dsimp only at h
      split at h
      · obtain rfl := Option.some.inj h
        exact .exited exit ‹_›
      · cases h

theorem sound_next {step : Step M E} {later : State M E} (h : Sound s) (hreleases : Releases listens s step)
    (hnext : next listens s step = some later) : Sound later := by
  cases moves_of_next hnext with
  | enqueue type => exact sound_enqueue h type
  | get hget => exact sound_get h hget
  | read result htask =>
      exact ⟨h.numbered, h.accounts.imp fun _ hkept => ⟨hkept.whole, hkept.sent, hkept.done⟩,
        h.active, h.closed⟩
  | start hphase =>
      exact h.move (by unfold inFlight; rw [hphase]) (by rw [hphase]; rfl) rfl
        (fun hfinished => by cases hfinished)
  | cancelUnstarted hphase =>
      exact h.move (by unfold inFlight; rw [hphase]) (by rw [hphase]; rfl) rfl (fun _ => hreleases)
  | begin hphase =>
      exact h.move (by unfold inFlight; rw [hphase]) (by rw [hphase]; rfl) rfl
        (fun hfinished => by cases hfinished)
  | entered hphase => exact (h.landed (by unfold inFlight; rw [hphase])).arm
  | notEntered hphase error =>
      exact sound_finish h (by unfold inFlight; rw [hphase]) (by rw [hphase]; rfl) _
  | wake callback hphase hwoken => exact sound_wake h hphase hreleases
  | cancelWait error hphase => exact (h.landed (by unfold inFlight; rw [hphase])).leaveLoop _
  | answered answer hphase => exact sound_answered h hphase answer
  | exited exit hphase =>
      exact sound_finish h (by unfold inFlight; rw [hphase]) (by rw [hphase]; rfl) _

theorem sound_of_reachable (hreach : (actor listens).ReachableWhen (Releases listens) s) : Sound s := by
  apply hreach.invariant Sound
  · intro state hinitial
    rw [hinitial]
    exact sound_initial
  · intro state step later _ hsound hreleases hstep
    exact sound_next hsound hreleases hstep

/-- No caller waits for a finished actor, and queries reach the client at most once and in order. -/
structure Settled (s : State M E) : Prop where
  released : s.phase = .finished → ∀ command ∈ s.enqueued, s.isDone command = true
  sent : s.sent.Sublist s.enqueued
  distinct : (s.sent.map SessionCommand.number).Pairwise (· < ·)

theorem settled_of_reachable (hreach : (actor listens).ReachableWhen (Releases listens) s) : Settled s := by
  have hsound := sound_of_reachable hreach
  obtain ⟨handled, haccounts⟩ := hsound.accounts
  have hsent : s.sent.Sublist s.enqueued := by
    rw [haccounts.whole, ← List.append_assoc]
    exact haccounts.sent.trans (List.sublist_append_left _ _)
  refine ⟨?_, hsent, ?_⟩
  · intro hphase command hcommand
    have hflight : inFlight s = [] := by
      unfold inFlight
      rw [hphase]
    have hclosed := hsound.closed (by rw [hphase]; rfl)
    rw [haccounts.whole, hflight, hsound.taken_nil (by rw [hphase]; rfl), hclosed] at hcommand
    apply haccounts.done
    simpa using hcommand
  · apply List.Pairwise.sublist (hsent.map _)
    rw [hsound.numbered]
    exact List.pairwise_lt_range

def hello : SessionCommand String where
  number := 0
  type := .query (some "hello") "default"

def goodbye : SessionCommand String where
  number := 1
  type := .disconnect false

theorem settled_goodbye : Settled ({
      phase := .finished
      enqueued := [hello, goodbye]
      sent := [hello]
      completed := [(0, none), (1, none)] } : State String String) := by
  have hinitial : (actor true).ReachableWhen (Releases true) ({} : State String String) := .start rfl
  have hentered := ((hinitial.next Step.start trivial rfl).next Step.begin trivial rfl).next
    (Step.entered (.ok ())) trivial rfl
  have hhello := (hentered.next (Step.enqueue hello.type) trivial rfl).next Step.get trivial rfl
  have hsent := hhello.next (Step.wake none) (fun _ command htask => by cases htask; rfl) rfl
  have hanswered := hsent.next (Step.answered (.ok false)) trivial rfl
  have hgoodbye := (hanswered.next (Step.enqueue goodbye.type) trivial rfl).next Step.get trivial rfl
  have hleft := hgoodbye.next (Step.wake none) (fun _ command htask => by cases htask; trivial) rfl
  exact settled_of_reachable (hleft.next (Step.exited (.returned false)) trivial rfl)

/-- An interrupt in the queue of a task that is cancelled before it runs. -/
theorem not_settled_cancelUnstarted : ¬ ∀ (listens : Bool) (s : State String String),
    (actor listens).Reachable s → Settled s := by
  intro h
  have hsettled := h true { phase := .finished, cmdQueue := [⟨0, .interrupt⟩], enqueued := [⟨0, .interrupt⟩] }
    (.next .cancelUnstarted (.next .start (.next (.enqueue .interrupt) (.start rfl) trivial rfl) trivial rfl)
      trivial rfl)
  have hdone := hsettled.released rfl ⟨0, .interrupt⟩ (List.mem_singleton.mpr rfl)
  cases hdone

def countOf (commands : List (SessionCommand M)) (number : ℕ) : ℕ :=
  (commands.map SessionCommand.number).count number

theorem countOf_append (first second : List (SessionCommand M)) (number : ℕ) :
    countOf (first ++ second) number = countOf first number + countOf second number := by
  rw [countOf, List.map_append, List.count_append]
  rfl

/-- How often a command has been completed, or is taken or queued. -/
def held (s : State M E) (number : ℕ) : ℕ :=
  (s.completed.map Prod.fst).count number + countOf (taken s ++ s.cmdQueue) number

/-- What is passed to `enqueue` once is at one place at most: completed, taken, queued or in flight. -/
structure Holds (s : State M E) (flight : List (SessionCommand M)) : Prop where
  numbered : s.enqueued.map SessionCommand.number = List.range s.enqueued.length
  once : ∀ number, held s number + countOf flight number ≤ countOf s.enqueued number

theorem Holds.complete (h : Holds s (command :: flight)) (error : Option (Raised E)) :
    Holds (s.complete command error) flight where
  numbered := h.numbered
  once number := by
    have honce := h.once number
    have hcomplete : held (s.complete command error) number =
        held s number + countOf [command] number := by
      change ((s.completed ++ [(command.number, error)]).map Prod.fst).count number +
        countOf (taken s ++ s.cmdQueue) number = _
      rw [List.map_append, List.count_append]
      exact Nat.add_right_comm _ _ _
    rw [← List.singleton_append, countOf_append, ← Nat.add_assoc] at honce
    rw [hcomplete]
    exact honce

theorem Holds.drop {fewer : List (SessionCommand M)} (h : Holds s flight) (hsub : fewer.Sublist flight) :
    Holds s fewer where
  numbered := h.numbered
  once number :=
    Nat.le_trans (Nat.add_le_add_left ((hsub.map _).count_le number) _) (h.once number)

theorem Holds.take (h : Holds s []) (htask : s.cmdTask = some (.took command)) :
    Holds { s with cmdTask := none } [command] where
  numbered := h.numbered
  once number := by
    have honce := h.once number
    have htaken : taken s = [command] := by
      unfold taken
      rw [htask]
    rw [held, htaken, countOf_append, Nat.add_comm (countOf [command] number), ← Nat.add_assoc] at honce
    exact honce

theorem Holds.arm (h : Holds s []) : Holds s.arm (inFlight s.arm) where
  numbered := h.numbered
  once number := by
    have htaken : taken s.arm = taken s := by
      unfold taken State.arm
      cases s.cmdTask <;> rfl
    rw [held, htaken]
    exact h.once number

theorem Holds.leaveLoop (h : Holds s []) (raised : Option (Raised E)) :
    Holds (s.leaveLoop raised) (inFlight (s.leaveLoop raised)) := by
  obtain ⟨phase, cmdQueue, cmdTask, msgTask, fatal, enqueued, sent, completed, cancelled⟩ := s
  cases cmdTask with
  | none => exact ⟨h.numbered, h.once⟩
  | some task =>
      cases task with
      | took command =>
          have hreleased := (h.take rfl).complete (some .actorClosed)
          exact ⟨hreleased.numbered, hreleased.once⟩
      | _ => exact ⟨h.numbered, h.once⟩

theorem Holds.dispatch (h : Holds s [command]) :
    Holds (s.dispatch command) (inFlight (s.dispatch command)) := by
  unfold State.dispatch
  split
  case h_2 => exact (h.complete none).leaveLoop none
  case h_6 => exact (h.drop (List.nil_sublist _)).leaveLoop _
  case h_7 => exact (h.drop (List.nil_sublist _)).leaveLoop _
  all_goals exact ⟨h.numbered, h.once⟩

theorem Holds.wake (h : Holds s []) (callback : Option (Raised E)) :
    Holds (s.wake listens callback) (inFlight (s.wake listens callback)) := by
  obtain ⟨msgTask, htake⟩ := @take_eq M E s
  unfold State.wake
  cases s.failure listens callback with
  | some error => exact h.leaveLoop _
  | none =>
      rw [htake]
      dsimp only
      split
      · have htaken := h.take ‹_›
        apply Holds.dispatch
        exact ⟨htaken.numbered, htaken.once⟩
      · apply Holds.arm
        exact ⟨h.numbered, h.once⟩

theorem Holds.answered (h : Holds s [command]) (answer : Except (Raised E) Bool) :
    Holds (s.answered command answer) (inFlight (s.answered command answer)) := by
  have harm : ∀ error, Holds (s.complete command error).arm [] := fun error => (h.complete error).arm
  have hleave := fun error raised => (h.complete error).leaveLoop raised
  unfold State.answered
  cases command.type with
  | cancel messageUuid =>
      cases answer with
      | ok answer => exact ⟨(harm none).numbered, (harm none).once⟩
      | error error =>
          dsimp only [State.messageCancelled]
          split_ifs
          · exact harm _
          · exact hleave _ _
  | query message sessionId =>
      cases answer with
      | ok answer => exact harm _
      | error error => exact hleave _ _
  | interrupt =>
      cases answer with
      | ok answer => exact harm _
      | error error => exact hleave _ _
  | disconnect interruptFirst => cases answer <;> exact hleave _ _

theorem Holds.drain (error : Raised E) {queue : List (SessionCommand M)} (h : Holds s queue) :
    Holds (queue.foldl (State.release error) s) [] := by
  induction queue generalizing s with
  | nil => exact h
  | cons first queue ih =>
      apply ih
      unfold State.release
      split_ifs
      · exact h.drop (List.sublist_cons_self first queue)
      · exact h.complete _

theorem Holds.finish (h : Holds s []) (fatal : Option (Raised E)) : Holds (s.finish fatal) [] := by
  have hqueue : Holds { s with fatal, cmdQueue := [] } s.cmdQueue := by
    refine ⟨h.numbered, fun number => ?_⟩
    have honce := h.once number
    rw [held, countOf_append, ← Nat.add_assoc] at honce
    rw [held, countOf_append, ← Nat.add_assoc]
    exact honce
  have hdrained := hqueue.drain (fatal.getD .actorClosed)
  exact ⟨hdrained.numbered, hdrained.once⟩

theorem Holds.enqueue (h : Holds s (inFlight s)) (type : CommandType M) :
    Holds (s.enqueue type) (inFlight (s.enqueue type)) := by
  have hadds : ∀ number, countOf (s.enqueued ++ [s.passed type]) number =
      countOf s.enqueued number + countOf [s.passed type] number := countOf_append _ _
  have hpass : Holds { s with enqueued := s.enqueued ++ [s.passed type] } (s.passed type :: inFlight s) := by
    refine ⟨numbered_concat h.numbered type, fun number => ?_⟩
    have hflight := countOf_append [s.passed type] (inFlight s) number
    have honce := h.once number
    change held s number + countOf ([s.passed type] ++ inFlight s) number ≤ countOf (_ ++ _) number
    rw [hadds, hflight]
    omega
  have hput : Holds { s with
      enqueued := s.enqueued ++ [s.passed type]
      cmdQueue := s.cmdQueue ++ [s.passed type]
      cmdTask := s.cmdTask.map State.wakeUp } (inFlight s) := by
    refine ⟨numbered_concat h.numbered type, fun number => ?_⟩
    have hqueue := countOf_append (taken s ++ s.cmdQueue) [s.passed type] number
    have honce := h.once number
    rw [held] at honce ⊢
    dsimp only
    rw [taken_wakeUp, ← List.append_assoc, hadds, hqueue]
    omega
  obtain ⟨phase, cmdQueue, cmdTask, msgTask, fatal, enqueued, sent, completed, cancelled⟩ := s
  cases phase with
  | finished =>
      have hrefused := hpass.complete (some (fatal.getD .actorClosed))
      exact ⟨hrefused.numbered, hrefused.once⟩
  | _ => exact ⟨hput.numbered, hput.once⟩

theorem Holds.get (h : Holds s (inFlight s)) {later : State M E} (hget : s.get = some later) :
    Holds later (inFlight later) := by
  obtain ⟨phase, cmdQueue, cmdTask, msgTask, fatal, enqueued, sent, completed, cancelled⟩ := s
  cases cmdTask with
  | none => cases hget
  | some task =>
      cases task with
      | ready =>
          cases cmdQueue with
          | nil =>
              obtain rfl := Option.some.inj hget
              exact ⟨h.numbered, h.once⟩
          | cons command rest =>
              obtain rfl := Option.some.inj hget
              exact ⟨h.numbered, h.once⟩
      | cancelling =>
          obtain rfl := Option.some.inj hget
          exact ⟨h.numbered, h.once⟩
      | _ => cases hget

theorem holds_of_reachable (hreach : (actor listens).Reachable s) : Holds s (inFlight s) := by
  apply hreach.invariant fun s => Holds s (inFlight s)
  · rintro state rfl
    exact ⟨rfl, fun number => Nat.le_refl _⟩
  · intro state step later _ h _ hstep
    have hquiet : Holds state [] := h.drop (List.nil_sublist _)
    cases moves_of_next hstep with
    | enqueue type => exact h.enqueue type
    | get hget => exact h.get hget
    | read result htask => exact ⟨h.numbered, h.once⟩
    | entered hphase => exact hquiet.arm
    | notEntered hphase error => exact hquiet.finish _
    | wake callback hphase hwoken => exact hquiet.wake callback
    | cancelWait error hphase => exact hquiet.leaveLoop _
    | answered answer hphase =>
        unfold inFlight at h
        rw [hphase] at h
        exact h.answered answer
    | exited exit hphase => exact hquiet.finish _
    | _ => exact ⟨hquiet.numbered, hquiet.once⟩

/-- A command is completed once at most, and not while the actor still is to come to it. -/
theorem completed_once (hreach : (actor listens).Reachable s) :
    (s.completed.map Prod.fst).Nodup ∧
      ∀ command ∈ inFlight s ++ (taken s ++ s.cmdQueue), s.isDone command = false := by
  obtain ⟨hnumbered, honce⟩ := holds_of_reachable hreach
  have hone : ∀ number, held s number + countOf (inFlight s) number ≤ 1 := by
    intro number
    refine Nat.le_trans (honce number) ?_
    rw [countOf, hnumbered]
    exact List.nodup_iff_count_le_one.mp List.nodup_range number
  refine ⟨List.nodup_iff_count_le_one.mpr fun number => ?_, fun command hcommand => ?_⟩
  · have hle := hone number
    unfold held at hle
    omega
  · rw [Bool.eq_false_iff, Ne, isDone_iff]
    intro hdone
    have hdone := List.count_pos_iff.mpr hdone
    have hheld : 0 < countOf (inFlight s ++ (taken s ++ s.cmdQueue)) command.number :=
      List.count_pos_iff.mpr (List.mem_map_of_mem hcommand)
    have hle := hone command.number
    rw [countOf_append] at hheld
    unfold held at hle
    omega

/-- A task is cancelled before it runs, between two commands. -/
def lateGoodbye : State String String where
  phase := .finished
  cmdQueue := [⟨0, .interrupt⟩]
  enqueued := [⟨0, .interrupt⟩, goodbye]
  completed := [(1, some .actorClosed)]

theorem completed_once_lateGoodbye : (lateGoodbye.completed.map Prod.fst).Nodup ∧
    ∀ command ∈ inFlight lateGoodbye ++ (taken lateGoodbye ++ lateGoodbye.cmdQueue),
      lateGoodbye.isDone command = false := by
  have hinitial : (actor true).Reachable ({} : State String String) := .start rfl
  have hcreated := (hinitial.next (Step.enqueue .interrupt) trivial rfl).next Step.start trivial rfl
  have hcancelled := hcreated.next Step.cancelUnstarted trivial rfl
  exact completed_once (hcancelled.next (Step.enqueue goodbye.type) trivial rfl)

end ShortReel.ActorReleases
