import ShortReel.RestoringTransactions

/-!
# Files that others change

A computation reaches a file by accesses under a lock. Before each of them other writers may have changed
the file, and each may fail, before its effect or after it.
-/

namespace ShortReel.ContendedFiles

open FallibleStates RestoringTransactions

variable {φ κ ν α β ε : Type}

inductive Writer where
  | own
  | other
  deriving DecidableEq, Repr

structure Change (φ : Type) where
  writer : Writer
  before : φ
  after : φ

structure Shared (φ : Type) where
  file : φ
  changes : List (Change φ)

def Shared.change (writer : Writer) (file : φ) (s : Shared φ) : Shared φ where
  file
  changes := ⟨writer, s.file, file⟩ :: s.changes

def Shared.write (written : Option φ) (s : Shared φ) : Shared φ :=
  match written with
  | none => s
  | some file => s.change .own file

def Linked (start : φ) : List (Change φ) → φ → Prop
  | [], file => file = start
  | change :: changes, file => file = change.after ∧ Linked start changes change.before

def leftByOthers (start : φ) : List (Change φ) → φ
  | [] => start
  | change :: changes => if change.writer = .other then change.after else leftByOthers start changes

structure Session (φ : Type) extends Shared φ where
  arrivals : List (Option φ)
  faults : List Fault

def begin (file : φ) (arrivals : List (Option φ)) (faults : List Fault) : Session φ where
  file
  changes := []
  arrivals
  faults

def arrive (s : Session φ) : Session φ :=
  match s.arrivals with
  | some file :: arrivals =>
      { s with toShared := s.toShared.change .other file, arrivals, faults := s.faults.tail }
  | arrivals => { s with arrivals := arrivals.tail, faults := s.faults.tail }

def access (interrupted : ε) (act : φ → Except ε (α × Option φ)) : EStateM ε (Session φ) α := fun s =>
  match s.faults.headD .none, act (arrive s).file with
  | .before, _ => .error interrupted (arrive s)
  | _, .error e => .error e (arrive s)
  | .none, .ok (a, written) =>
      .ok a { arrive s with toShared := (arrive s).toShared.write written }
  | .after, .ok (_, written) =>
      .error interrupted { arrive s with toShared := (arrive s).toShared.write written }

def Stable (P : Shared φ → Prop) : Prop :=
  ∀ s file, P s → P (s.change .other file)

theorem Stable.arrive {P : Shared φ → Prop} (hP : Stable P) {s : Session φ} (hs : P s.toShared) :
    P (arrive s).toShared := by
  unfold ContendedFiles.arrive
  split
  · exact hP _ _ hs
  · exact hs

theorem meets_access {P : Shared φ → Prop} {Q : α → Shared φ → Prop} {E : ε → Shared φ → Prop}
    {interrupted : ε} {act : φ → Except ε (α × Option φ)} (hstable : Stable P)
    (hbefore : ∀ s, P s → E interrupted s) (hraised : ∀ s e, P s → act s.file = .error e → E e s)
    (hdone : ∀ s a written, P s → act s.file = .ok (a, written) → Q a (s.write written))
    (hafter : ∀ s a written, P s → act s.file = .ok (a, written) →
      E interrupted (s.write written)) :
    Meets (fun s => P s.toShared) (access interrupted act) (fun a s => Q a s.toShared)
      (fun e s => E e s.toShared) := by
  intro s hs
  have harrived := hstable.arrive hs
  unfold access
  cases hact : act (arrive s).file with
  | error e =>
      cases s.faults.headD .none with
      | none => exact hraised _ e harrived hact
      | before => exact hbefore _ harrived
      | after => exact hraised _ e harrived hact
  | ok result =>
      cases s.faults.headD .none with
      | none => exact hdone _ _ _ harrived hact
      | before => exact hbefore _ harrived
      | after => exact hafter _ _ _ harrived hact

theorem Stable.and {P Q : Shared φ → Prop} (hP : Stable P) (hQ : Stable Q) :
    Stable fun s => P s ∧ Q s :=
  fun s file hs => ⟨hP s file hs.1, hQ s file hs.2⟩

section Keys

variable (lookup : φ → κ → ν) (start : φ)

/-- The value that a key had at the start, or one that others have changed it to. -/
def Sourced (s : Shared φ) (key : κ) (value : ν) : Prop :=
  value = lookup start key ∨
    ∃ change ∈ s.changes, change.writer = .other ∧
      lookup change.after key ≠ lookup change.before key ∧ value = lookup change.after key

def Restored (s : Shared φ) (key : κ) : Prop :=
  Sourced lookup start s key (lookup s.file key)

structure Spares (keys : List κ) (s : Shared φ) : Prop where
  linked : Linked start s.changes s.file
  own : ∀ change ∈ s.changes, change.writer = .own →
    ∀ key ∉ keys, lookup change.after key = lookup change.before key

variable {lookup start} {s : Shared φ} {keys : List κ} {key : κ} {value : ν} {file : φ}
  {writer : Writer}

theorem Sourced.change (h : Sourced lookup start s key value) :
    Sourced lookup start (s.change writer file) key value := by
  rcases h with h | ⟨change, hmem, h⟩
  · exact .inl h
  · exact .inr ⟨change, List.mem_cons_of_mem _ hmem, h⟩

theorem restored_of_arrival (h : lookup file key ≠ lookup s.file key) :
    Restored lookup start (s.change .other file) key :=
  .inr ⟨_, List.mem_cons_self, rfl, h, rfl⟩

theorem Restored.arrive (h : Restored lookup start s key) :
    Restored lookup start (s.change .other file) key := by
  by_cases hsame : lookup file key = lookup s.file key
  · refine Sourced.change ?_
    change Sourced lookup start s key (lookup file key)
    rw [hsame]
    exact h
  · exact restored_of_arrival hsame

theorem Sourced.eq_start (h : Sourced lookup start s key value)
    (hquiet : ∀ change ∈ s.changes, change.writer = .other →
      lookup change.after key = lookup change.before key) : value = lookup start key := by
  rcases h with h | ⟨change, hmem, hother, hchanged, -⟩
  · exact h
  · exact absurd (hquiet change hmem hother) hchanged

theorem Spares.arrive (h : Spares lookup start keys s) :
    Spares lookup start keys (s.change .other file) := by
  refine ⟨⟨rfl, h.linked⟩, List.forall_mem_cons.mpr ⟨?_, h.own⟩⟩
  rintro ⟨⟩

theorem Spares.lookup_eq (h : Spares lookup start keys s) (hkey : key ∉ keys) :
    lookup s.file key = lookup (leftByOthers start s.changes) key := by
  obtain ⟨hlinked, hown⟩ := h
  generalize s.file = file at hlinked
  generalize s.changes = changes at hlinked hown
  induction changes generalizing file with
  | nil =>
      obtain rfl := hlinked
      rfl
  | cons change changes ih =>
      obtain ⟨rfl, hrest⟩ := hlinked
      obtain ⟨hchange, hown⟩ := List.forall_mem_cons.mp hown
      unfold leftByOthers
      split_ifs with hwriter
      · rfl
      · cases hown' : change.writer with
        | other => exact absurd hown' hwriter
        | own => exact (hchange hown' key hkey).trans (ih change.before hrest hown)

theorem stable_restored : Stable fun s => Restored lookup start s key :=
  fun _ _ => Restored.arrive

theorem stable_sourced : Stable fun s => Sourced lookup start s key value :=
  fun _ _ => Sourced.change

theorem file_write (written : Option φ) : (s.write written).file = written.getD s.file := by
  cases written with
  | none => rfl
  | some file => rfl

theorem Sourced.write (h : Sourced lookup start s key value) (written : Option φ) :
    Sourced lookup start (s.write written) key value := by
  cases written with
  | none => exact h
  | some file => exact h.change

theorem Restored.write {written : Option φ}
    (h : Sourced lookup start s key (lookup (written.getD s.file) key)) :
    Restored lookup start (s.write written) key := by
  rw [Restored, file_write]
  exact h.write written

theorem Spares.write {written : Option φ} (h : Spares lookup start keys s)
    (hwritten : ∀ key ∉ keys, lookup (written.getD s.file) key = lookup s.file key) :
    Spares lookup start keys (s.write written) := by
  cases written with
  | none => exact h
  | some file =>
      exact ⟨⟨rfl, h.linked⟩, List.forall_mem_cons.mpr ⟨fun _ => hwritten, h.own⟩⟩

end Keys

end ShortReel.ContendedFiles
