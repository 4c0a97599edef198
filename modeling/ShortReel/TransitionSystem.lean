import Mathlib.Logic.Relation

/-!
# Runs of a step relation

States reached by runs whose steps all meet a guard, and the two rules every safety result of the
development is an instance of: an invariant kept by each step holds in every reachable state, and
a preorder respected by each step relates every state to all later ones.
-/

namespace ShortReel

theorem bind_eq_ok {ε α β : Type} {x : Except ε α} {f : α → Except ε β} {b : β} :
    (x >>= f) = .ok b ↔ ∃ a, x = .ok a ∧ f a = .ok b := by
  cases x <;> simp [bind, Except.bind]

theorem ok_bind {ε α β : Type} (a : α) (f : α → Except ε β) : (Except.ok a >>= f) = f a := rfl

/-- A system of atomic steps: which states it may start in, and what each step may do. -/
structure TransitionSystem (State Step : Type*) where
  initial : State → Prop
  step : State → Step → State → Prop

namespace TransitionSystem

variable {State Step : Type*} (system : TransitionSystem State Step)

/-- The states reached by a run each of whose steps meets `guard` in the state it is taken in. -/
inductive ReachableWhen (guard : State → Step → Prop) : State → Prop where
  | start {state : State} (hinitial : system.initial state) : ReachableWhen guard state
  | next {state later : State} (step : Step) (hreach : ReachableWhen guard state)
      (hguard : guard state step) (hstep : system.step state step later) :
      ReachableWhen guard later

abbrev Reachable : State → Prop :=
  system.ReachableWhen fun _ _ => True

/-- `later` is reached from `state` by guarded steps. -/
def LeadsWhen (guard : State → Step → Prop) : State → State → Prop :=
  Relation.ReflTransGen fun state later => ∃ step, guard state step ∧ system.step state step later

/-- `later` is reached from `state` by any steps. -/
abbrev Leads : State → State → Prop :=
  system.LeadsWhen fun _ _ => True

variable {system}
variable {guard : State → Step → Prop}

theorem ReachableWhen.invariant (inv : State → Prop)
    (hinitial : ∀ state, system.initial state → inv state)
    (hkept : ∀ state step later, system.ReachableWhen guard state → inv state →
      guard state step → system.step state step later → inv later)
    {state : State} (hreach : system.ReachableWhen guard state) :
    inv state := by
  induction hreach with
  | start hstart => exact hinitial _ hstart
  | next step hreach hguard hstep ih => exact hkept _ step _ hreach ih hguard hstep

theorem ReachableWhen.mono {weaker : State → Step → Prop}
    (hweaker : ∀ state step, guard state step → weaker state step)
    {state : State} (hreach : system.ReachableWhen guard state) :
    system.ReachableWhen weaker state := by
  induction hreach with
  | start hstart => exact .start hstart
  | next step _ hguard hstep ih => exact .next step ih (hweaker _ _ hguard) hstep

theorem ReachableWhen.reachable {state : State}
    (hreach : system.ReachableWhen guard state) : system.Reachable state :=
  hreach.mono fun _ _ _ => trivial

theorem ReachableWhen.leads {state later : State}
    (hreach : system.ReachableWhen guard state) (hleads : system.LeadsWhen guard state later) :
    system.ReachableWhen guard later := by
  induction hleads with
  | refl => exact hreach
  | tail _ hlast ih =>
      obtain ⟨step, hguard, hstep⟩ := hlast
      exact .next step ih hguard hstep

theorem LeadsWhen.respects (relation : State → State → Prop)
    (hrefl : ∀ state, relation state state)
    (htrans : ∀ first second third, relation first second → relation second third →
      relation first third)
    (hstep : ∀ state step later, system.ReachableWhen guard state → guard state step →
      system.step state step later → relation state later)
    {state later : State} (hreach : system.ReachableWhen guard state)
    (hleads : system.LeadsWhen guard state later) :
    relation state later := by
  induction hleads with
  | refl => exact hrefl _
  | tail hprefix hlast ih =>
      obtain ⟨step, hguard, htaken⟩ := hlast
      exact htrans _ _ _ ih (hstep _ step _ (hreach.leads hprefix) hguard htaken)

def ofRun (initial : State → Prop) (run : State → Step → State) : TransitionSystem State Step where
  initial
  step state step later := later = run state step

def Along (run : State → Step → State) (guard : State → Step → Prop) : State → List Step → Prop
  | _, [] => True
  | state, step :: rest => guard state step ∧ Along run guard (run state step) rest

theorem along_true {run : State → Step → State} (state : State) (steps : List Step) :
    Along run (fun _ _ => True) state steps := by
  induction steps generalizing state with
  | nil => trivial
  | cons step rest ih => exact ⟨trivial, ih _⟩

theorem along_append {run : State → Step → State} {state : State} {first second : List Step} :
    Along run guard state (first ++ second) ↔
      Along run guard state first ∧ Along run guard (first.foldl run state) second := by
  induction first generalizing state with
  | nil => exact (and_iff_right trivial).symm
  | cons step first ih => exact (and_congr_right fun _ => ih).trans and_assoc.symm

instance decidableAlong {run : State → Step → State}
    [∀ state step, Decidable (guard state step)] :
    ∀ state steps, Decidable (Along run guard state steps)
  | _, [] => isTrue trivial
  | state, step :: rest =>
      have : Decidable (Along run guard (run state step) rest) := decidableAlong (run state step) rest
      inferInstanceAs (Decidable (_ ∧ _))

theorem reachable_foldl {initial : State → Prop} {run : State → Step → State} {state : State}
    {steps : List Step} (hreach : (ofRun initial run).ReachableWhen guard state)
    (halong : Along run guard state steps) :
    (ofRun initial run).ReachableWhen guard (steps.foldl run state) := by
  induction steps generalizing state with
  | nil => exact hreach
  | cons step rest ih => exact ih (.next step hreach halong.1 rfl) halong.2

end TransitionSystem

end ShortReel
