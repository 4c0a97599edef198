import Mathlib.Logic.Function.Basic
import ShortReel.FallibleStates

/-!
# Transactions that restore their state

A transaction whose body fails puts back what it has taken at its start. A write may fail before it has
an effect, or after it.
-/

namespace ShortReel.RestoringTransactions

open FallibleStates

variable {ε σ α β : Type}

inductive Fault where
  | none
  | before
  | after
  deriving DecidableEq, Repr

def write (fault : Fault) (error : ε) (g : σ → σ) : EStateM ε σ PUnit := fun s =>
  match fault with
  | .none => .ok ⟨⟩ (g s)
  | .before => .error error s
  | .after => .error error (g s)

/-- The body, and behind a failure the state that is restored from the first and the last one. -/
def transaction (restore : σ → σ → σ) (body : EStateM ε σ α) : EStateM ε σ α := fun s =>
  match body s with
  | .ok a s' => .ok a s'
  | .error e s' => .error e (restore s s')

section Rules

variable {P : σ → Prop} {Q : α → σ → Prop} {R : β → σ → Prop} {E : ε → σ → Prop}
  {fault : Fault} {error : ε} {g : σ → σ} {restore : σ → σ → σ} {body : EStateM ε σ α}

theorem meets_write {Q : PUnit → σ → Prop} (hwritten : ∀ s, P s → Q ⟨⟩ (g s))
    (hbefore : ∀ s, P s → E error s) (hafter : ∀ s, P s → E error (g s)) :
    Meets P (write fault error g) Q E := by
  intro s hs
  cases fault with
  | none => exact hwritten s hs
  | before => exact hbefore s hs
  | after => exact hafter s hs

theorem meets_transaction (h : ∀ s, P s → Meets (· = s) body Q fun e s' => E e (restore s s')) :
    Meets P (transaction restore body) Q E := by
  intro s hs
  have hbody := h s hs s rfl
  unfold transaction
  cases hrun : body s with
  | ok a s' =>
      rw [hrun] at hbody
      exact hbody
  | error e s' =>
      rw [hrun] at hbody
      exact hbody

end Rules

end ShortReel.RestoringTransactions
