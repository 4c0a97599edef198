import Mathlib.Tactic.SplitIfs

/-!
# Computations that keep their state when they fail

Pre- and postconditions for `EStateM`, with one postcondition for the runs that return and another for
those that fail. What fails leaves the state as it is at that point.
-/

namespace ShortReel.FallibleStates

variable {ε σ α β : Type}

/-- From a state with `P` the computation returns with `Q` or fails with `E`. -/
def Meets (P : σ → Prop) (x : EStateM ε σ α) (Q : α → σ → Prop) (E : ε → σ → Prop) : Prop :=
  ∀ s, P s → match x s with
    | .ok a s' => Q a s'
    | .error e s' => E e s'

variable {P P' : σ → Prop} {Q Q' : α → σ → Prop} {R : β → σ → Prop} {E E' F : ε → σ → Prop}
  {x : EStateM ε σ α} {f : α → EStateM ε σ β}

theorem Meets.ok {s s' : σ} {a : α} (h : Meets P x Q E) (hs : P s) (hx : x s = .ok a s') :
    Q a s' := by
  have hresult := h s hs
  rwa [hx] at hresult

theorem Meets.error {s s' : σ} {e : ε} (h : Meets P x Q E) (hs : P s) (hx : x s = .error e s') :
    E e s' := by
  have hresult := h s hs
  rwa [hx] at hresult

theorem Meets.mono (h : Meets P x Q E) (hP : ∀ s, P' s → P s) (hQ : ∀ a s, Q a s → Q' a s)
    (hE : ∀ e s, E e s → E' e s) : Meets P' x Q' E' := by
  intro s hs
  have hresult := h s (hP s hs)
  cases hx : x s with
  | ok a s' =>
      rw [hx] at hresult
      exact hQ a s' hresult
  | error e s' =>
      rw [hx] at hresult
      exact hE e s' hresult

theorem Meets.pre (h : Meets P x Q E) (hP : ∀ s, P' s → P s) : Meets P' x Q E :=
  h.mono hP (fun _ _ => id) fun _ _ => id

theorem Meets.and (h : Meets P x Q E) (h' : Meets P' x Q' E') :
    Meets (fun s => P s ∧ P' s) x (fun a s => Q a s ∧ Q' a s) (fun e s => E e s ∧ E' e s) := by
  rintro s ⟨hs, hs'⟩
  have hresult := h s hs
  have hresult' := h' s hs'
  cases hx : x s with
  | ok a s' =>
      rw [hx] at hresult hresult'
      exact ⟨hresult, hresult'⟩
  | error e s' =>
      rw [hx] at hresult hresult'
      exact ⟨hresult, hresult'⟩

theorem meets_of_forall (h : ∀ s, P s → Meets (· = s) x Q E) : Meets P x Q E :=
  fun s hs => h s hs s rfl

theorem meets_pure {a : α} (h : ∀ s, P s → Q a s) : Meets P (pure a : EStateM ε σ α) Q E :=
  fun s hs => h s hs

theorem meets_throw {e : ε} (h : ∀ s, P s → E e s) : Meets P (throw e : EStateM ε σ α) Q E :=
  fun s hs => h s hs

theorem meets_modify {g : σ → σ} {Q : PUnit → σ → Prop} (h : ∀ s, P s → Q ⟨⟩ (g s)) :
    Meets P (modify g : EStateM ε σ PUnit) Q E :=
  fun s hs => h s hs

theorem bind_run {s : σ} : (x >>= f) s = match x s with
    | .ok a s' => f a s'
    | .error e s' => .error e s' := rfl

theorem meets_bind (hx : Meets P x Q E) (hf : ∀ a, Meets (Q a) (f a) R E) :
    Meets P (x >>= f) R E := by
  intro s hs
  have hresult := hx s hs
  rw [bind_run]
  cases h : x s with
  | ok a s' =>
      rw [h] at hresult
      exact hf a s' hresult
  | error e s' =>
      rw [h] at hresult
      exact hresult

theorem meets_throw_bind {e : ε} (h : ∀ s, P s → E e s) :
    Meets P ((throw e : EStateM ε σ α) >>= f) R E :=
  meets_bind (Q := fun _ _ => False) (meets_throw h) fun _ _ hfalse => hfalse.elim

theorem meets_get_bind {g : σ → EStateM ε σ β} (h : ∀ s, P s → Meets (· = s) (g s) R E) :
    Meets P (get >>= g) R E :=
  fun s hs => h s hs s rfl

theorem meets_ite {c : Prop} [Decidable c] {y : EStateM ε σ α} (hx : c → Meets P x Q E)
    (hy : ¬ c → Meets P y Q E) : Meets P (if c then x else y) Q E := by
  split_ifs with h
  · exact hx h
  · exact hy h

theorem meets_tryCatch {handle : ε → EStateM ε σ α} (hx : Meets P x Q F)
    (hhandle : ∀ e, Meets (F e) (handle e) Q E) : Meets P (tryCatch x handle) Q E := by
  intro s hs
  have hresult := hx s hs
  change match EStateM.tryCatch x handle s with | .ok a s' => Q a s' | .error e s' => E e s'
  unfold EStateM.tryCatch
  dsimp only
  cases h : x s with
  | ok a s' =>
      rw [h] at hresult
      exact hresult
  | error e s' =>
      rw [h] at hresult
      exact hhandle e s' hresult

theorem meets_forM {γ : Type} {items : List γ} {body : γ → EStateM ε σ PUnit} {I : σ → Prop}
    (h : ∀ item ∈ items, Meets I (body item) (fun _ => I) E) :
    Meets I (items.forM body) (fun _ => I) E := by
  induction items with
  | nil => exact meets_pure fun _ => id
  | cons item items ih =>
      obtain ⟨hitem, hitems⟩ := List.forall_mem_cons.mp h
      exact meets_bind hitem fun _ => ih hitems

/-- A pass over a list returns what it is for each element, with the invariant. -/
theorem meets_mapM {γ : Type} {items : List γ} {body : γ → EStateM ε σ β} {g : γ → β} {I : σ → Prop}
    (h : ∀ item ∈ items, Meets I (body item) (fun b s => b = g item ∧ I s) E) :
    Meets I (items.mapM body) (fun bs s => bs = items.map g ∧ I s) E := by
  induction items with
  | nil => exact meets_pure fun _ hs => ⟨rfl, hs⟩
  | cons item items ih =>
      obtain ⟨hitem, hitems⟩ := List.forall_mem_cons.mp h
      rw [List.mapM_cons]
      refine meets_bind hitem fun b => ?_
      refine meets_of_forall fun s hs => ?_
      obtain ⟨rfl, hs⟩ := hs
      refine meets_bind ((ih hitems).pre fun s' hs' => hs' ▸ hs) fun bs => ?_
      exact meets_pure fun s' hs' => ⟨by rw [hs'.1, List.map_cons], hs'.2⟩

end ShortReel.FallibleStates
