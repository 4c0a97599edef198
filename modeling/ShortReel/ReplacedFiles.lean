import Mathlib.Data.Nat.Notation
import Mathlib.Logic.Function.Basic
import Mathlib.Tactic.SplitIfs

/-!
# Files that are replaced and put back

A file is replaced by what lies at a temporary place, and what it had is kept at a backup. Undone
last to first, replacements leave every file as it was, whatever files they have in common.
-/

namespace ShortReel.ReplacedFiles

variable {φ β : Type} [DecidableEq φ]

inductive Place (φ : Type) where
  | file (f : φ)
  | temporary (f : φ) (index : ℕ)
  | backup (f : φ) (index : ℕ)
  deriving DecidableEq

abbrev Store (φ β : Type) := Place φ → Option β

def put (store : Store φ β) (place : Place φ) (content : Option β) : Store φ β :=
  Function.update store place content

def moved (store : Store φ β) (source destination : Place φ) : Store φ β :=
  put (put store source none) destination (store source)

structure Installed (φ : Type) where
  destination : φ
  backup : Option ℕ
  deriving DecidableEq

def undo (store : Store φ β) (done : Installed φ) : Store φ β :=
  match done.backup with
  | none => put store (.file done.destination) none
  | some index => moved store (.backup done.destination index) (.file done.destination)

def undoAll (store : Store φ β) (installed : List (Installed φ)) : Store φ β :=
  installed.reverse.foldl undo store

def backedUp (store : Store φ β) (destination : φ) (index : ℕ) : Store φ β :=
  if (store (.file destination)).isSome then
    moved store (.file destination) (.backup destination index)
  else store

def installing (store : Store φ β) (destination : φ) (index : ℕ) : Installed φ where
  destination
  backup := if (store (.file destination)).isSome then some index else none

structure Alike (among : φ → Prop) (bound : ℕ) (store store' : Store φ β) : Prop where
  files : ∀ f, among f → store (.file f) = store' (.file f)
  backups : ∀ f, ∀ index < bound, store (.backup f index) = store' (.backup f index)

variable {among : φ → Prop} {store store' : Store φ β} {bound index : ℕ} {done : Installed φ} {f : φ}

theorem put_self {place : Place φ} {content : Option β} : put store place content place = content :=
  Function.update_self ..

theorem put_of_ne {place other : Place φ} {content : Option β} (h : other ≠ place) :
    put store place content other = store other :=
  Function.update_of_ne h ..

theorem moved_of_ne {source destination place : Place φ} (hsource : place ≠ source)
    (hdestination : place ≠ destination) : moved store source destination place = store place := by
  rw [moved, put_of_ne hdestination, put_of_ne hsource]

theorem moved_destination {source destination : Place φ} :
    moved store source destination destination = store source := by
  rw [moved, put_self]

theorem moved_source {source destination : Place φ} (hne : source ≠ destination) :
    moved store source destination source = none := by
  rw [moved, put_of_ne hne, put_self]

theorem Alike.undo (h : Alike among bound store store') (hdone : ∀ index, done.backup = some index →
    index < bound) : Alike among bound (undo store done) (undo store' done) := by
  unfold ReplacedFiles.undo
  cases hbackup : done.backup with
  | none =>
      constructor
      · intro f hf
        dsimp only
        by_cases heq : f = done.destination
        · rw [heq, put_self, put_self]
        · rw [put_of_ne (fun h => heq (Place.file.inj h)),
            put_of_ne (fun h => heq (Place.file.inj h)), h.files f hf]
      · intro f index hindex
        dsimp only
        rw [put_of_ne (by rintro ⟨⟩), put_of_ne (by rintro ⟨⟩), h.backups f index hindex]
  | some number =>
      have hnumber := h.backups done.destination number (hdone number hbackup)
      constructor
      · intro f hf
        dsimp only
        by_cases heq : f = done.destination
        · rw [heq, moved_destination, moved_destination, hnumber]
        · rw [moved_of_ne (by rintro ⟨⟩) (fun h => heq (Place.file.inj h)),
            moved_of_ne (by rintro ⟨⟩) (fun h => heq (Place.file.inj h)), h.files f hf]
      · intro f index hindex
        dsimp only
        by_cases heq : Place.backup f index = .backup done.destination number
        · rw [heq, moved_source (by rintro ⟨⟩), moved_source (by rintro ⟨⟩)]
        · rw [moved_of_ne heq (by rintro ⟨⟩), moved_of_ne heq (by rintro ⟨⟩),
            h.backups f index hindex]

theorem Alike.undoAll {installed : List (Installed φ)} (h : Alike among bound store store')
    (hinstalled : ∀ done ∈ installed, ∀ index, done.backup = some index → index < bound) :
    Alike among bound (undoAll store installed) (undoAll store' installed) := by
  unfold ReplacedFiles.undoAll
  have hreverse : ∀ done ∈ installed.reverse, ∀ index, done.backup = some index → index < bound :=
    fun done hdone => hinstalled done (List.mem_reverse.mp hdone)
  generalize installed.reverse = reversed at hreverse ⊢
  induction reversed generalizing store store' with
  | nil => exact h
  | cons done rest ih =>
      obtain ⟨hdone, hrest⟩ := List.forall_mem_cons.mp hreverse
      exact ih (h.undo hdone) hrest

theorem undoAll_concat {installed : List (Installed φ)} :
    undoAll store (installed ++ [done]) = undoAll (undo store done) installed := by
  rw [undoAll, List.reverse_concat]
  rfl

theorem backedUp_of_ne {destination : φ} {place : Place φ} (hfile : place ≠ .file destination)
    (hbackup : place ≠ .backup destination index) :
    backedUp store destination index place = store place := by
  rw [backedUp]
  split_ifs
  · exact moved_of_ne hfile hbackup
  · rfl

omit [DecidableEq φ] in
theorem installing_backup {destination : φ} {number : ℕ}
    (h : (installing store destination index).backup = some number) : number = index := by
  unfold installing at h
  dsimp only at h
  split_ifs at h
  exact (Option.some.inj h).symm

theorem alike_backedUp (destination : φ) :
    Alike among bound (undo (backedUp store destination bound) (installing store destination bound))
      store := by
  unfold undo installing backedUp
  dsimp only
  split_ifs with hthere
  · constructor
    · intro f _
      dsimp only
      by_cases heq : f = destination
      · rw [heq, moved_destination, moved_destination]
      · rw [moved_of_ne (by rintro ⟨⟩) (fun h => heq (Place.file.inj h)),
          moved_of_ne (fun h => heq (Place.file.inj h)) (by rintro ⟨⟩)]
    · intro f index hindex
      have hne : Place.backup f index ≠ .backup destination bound := by
        rintro ⟨⟩
        exact Nat.lt_irrefl _ hindex
      dsimp only
      rw [moved_of_ne hne (by rintro ⟨⟩), moved_of_ne (by rintro ⟨⟩) hne]
  · constructor
    · intro f _
      dsimp only
      by_cases heq : f = destination
      · rw [heq, put_self, Option.not_isSome_iff_eq_none.mp hthere]
      · rw [put_of_ne fun h => heq (Place.file.inj h)]
    · intro f index hindex
      exact put_of_ne (by rintro ⟨⟩)

theorem alike_installed (destination : φ) (number : ℕ) :
    Alike among bound (undo (moved (backedUp store destination bound) (.temporary destination number)
      (.file destination)) (installing store destination bound)) store := by
  have hbacked := @alike_backedUp φ β _ (fun _ => True) store bound destination
  have hfile : ∀ f, f ≠ destination →
      moved (backedUp store destination bound) (.temporary destination number) (.file destination)
        (.file f) = backedUp store destination bound (.file f) :=
    fun f hne => moved_of_ne (by rintro ⟨⟩) fun h => hne (Place.file.inj h)
  have hbackup : ∀ f index,
      moved (backedUp store destination bound) (.temporary destination number) (.file destination)
        (.backup f index) = backedUp store destination bound (.backup f index) :=
    fun f index => moved_of_ne (by rintro ⟨⟩) (by rintro ⟨⟩)
  generalize moved (backedUp store destination bound) (.temporary destination number)
    (.file destination) = after at hfile hbackup ⊢
  constructor
  · intro f _
    rw [← hbacked.files f trivial, undo, undo]
    cases (installing store destination bound).backup with
    | none =>
        by_cases heq : f = destination
        · subst heq
          change put after (.file f) none (.file f) =
            put (backedUp store f bound) (.file f) none (.file f)
          rw [put_self, put_self]
        · have hne : Place.file f ≠ .file destination := fun h => heq (Place.file.inj h)
          change put after (.file destination) none (.file f) =
            put (backedUp store destination bound) (.file destination) none (.file f)
          rw [put_of_ne hne, put_of_ne hne, hfile f heq]
    | some index =>
        by_cases heq : f = destination
        · subst heq
          exact moved_destination.trans ((hbackup _ _).trans moved_destination.symm)
        · have hne : Place.file f ≠ .file destination := fun h => heq (Place.file.inj h)
          exact (moved_of_ne (by rintro ⟨⟩) hne).trans
            ((hfile f heq).trans (moved_of_ne (by rintro ⟨⟩) hne).symm)
  · intro f index hindex
    rw [← hbacked.backups f index hindex, undo, undo]
    cases hnumber : (installing store destination bound).backup with
    | none =>
        change put after (.file destination) none (.backup f index) =
          put (backedUp store destination bound) (.file destination) none (.backup f index)
        rw [put_of_ne (by rintro ⟨⟩), put_of_ne (by rintro ⟨⟩), hbackup]
    | some kept =>
        have hkept := installing_backup hnumber
        have hne : Place.backup f index ≠
            .backup (installing store destination bound).destination kept := by
          rintro ⟨⟩
          exact Nat.lt_irrefl _ (hkept ▸ hindex)
        exact (moved_of_ne hne (by rintro ⟨⟩)).trans
          ((hbackup f index).trans (moved_of_ne hne (by rintro ⟨⟩)).symm)

end ShortReel.ReplacedFiles
