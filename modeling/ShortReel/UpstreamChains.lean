import Mathlib.Data.List.Chain
import Mathlib.Order.Bounds.Basic

/-!
# Chains up a graph

A graph is given by the parents of each node. In it the lengths of the chains up from a node, of which
the longest goes on from one of the parents, and loops that end because each turn lowers a measure.
-/

namespace ShortReel.UpstreamChains

section Loops

variable {σ : Type} {step : σ → Option σ}

/-- The turns of a loop up to the state that it ends in, with fuel for a number of tests. -/
def turns (step : σ → Option σ) : ℕ → σ → Option σ
  | 0, _ => none
  | fuel + 1, state =>
      match step state with
      | some next => turns step fuel next
      | none => some state

/-- A loop ends in a state that keeps the invariant when each turn does and lowers a measure. -/
theorem turns_spec {Inv : σ → Prop} {measure : σ → ℕ}
    (hstep : ∀ state next, Inv state → step state = some next →
      Inv next ∧ measure next < measure state)
    {fuel : ℕ} {state : σ} (hinv : Inv state) (hfuel : measure state < fuel) :
    ∃ last, turns step fuel state = some last ∧ step last = none ∧ Inv last := by
  induction fuel generalizing state with
  | zero => exact absurd hfuel (Nat.not_lt_zero _)
  | succ fuel ih =>
      rw [turns]
      cases hnext : step state with
      | none => exact ⟨state, rfl, hnext, hinv⟩
      | some next =>
          obtain ⟨hkept, hless⟩ := hstep state next hinv hnext
          exact ih hkept (by omega)

end Loops

section Chains

variable {κ : Type} (parents : κ → List κ)

def Above (child parent : κ) : Prop :=
  parent ∈ parents child

def Acyclic : Prop :=
  ∀ node, ¬ Relation.TransGen (Above parents) node node

def chainLengths (node : κ) : Set ℕ :=
  {length | ∃ chain : List κ, (node :: chain).IsChain (Above parents) ∧ chain.length = length}

variable {parents} {node parent : κ} {depth : κ → ℕ}

theorem zero_mem_chainLengths (node : κ) : 0 ∈ chainLengths parents node :=
  ⟨[], List.isChain_singleton node, rfl⟩

theorem succ_mem_chainLengths (hparent : parent ∈ parents node) {length : ℕ}
    (h : length ∈ chainLengths parents parent) : length + 1 ∈ chainLengths parents node := by
  obtain ⟨chain, hchain, rfl⟩ := h
  exact ⟨parent :: chain, List.isChain_cons_cons.mpr ⟨hparent, hchain⟩, rfl⟩

theorem le_foldr_max {values : List ℕ} {value : ℕ} (h : value ∈ values) : value ≤ values.foldr max 0 := by
  induction values with
  | nil => cases h
  | cons first values ih =>
      rcases List.mem_cons.mp h with rfl | hrest
      · exact le_max_left _ _
      · exact (ih hrest).trans (le_max_right _ _)

theorem foldr_max_mem {values : List ℕ} (h : values ≠ []) : values.foldr max 0 ∈ values := by
  induction values with
  | nil => exact absurd rfl h
  | cons first values ih =>
      rw [List.foldr_cons]
      rcases eq_or_ne values [] with rfl | hne
      · rw [List.foldr_nil, Nat.max_zero]
        exact List.mem_cons_self
      · rcases Nat.le_total first (values.foldr max 0) with hle | hle
        · rw [Nat.max_eq_right hle]
          exact List.mem_cons_of_mem _ (ih hne)
        · rw [Nat.max_eq_left hle]
          exact List.mem_cons_self

theorem isGreatest_chainLengths
    (h : ∀ parent ∈ parents node, IsGreatest (chainLengths parents parent) (depth parent)) :
    IsGreatest (chainLengths parents node)
      (if parents node = [] then 0 else 1 + ((parents node).map depth).foldr max 0) := by
  split
  · rename_i hnil
    refine ⟨zero_mem_chainLengths node, ?_⟩
    rintro _ ⟨chain, hchain, rfl⟩
    cases chain with
    | nil => exact le_rfl
    | cons parent chain =>
        have hparent : parent ∈ parents node := (List.isChain_cons_cons.mp hchain).1
        rw [hnil] at hparent
        cases hparent
  · rename_i hsome
    constructor
    · have hmem := foldr_max_mem (mt List.map_eq_nil_iff.mp hsome : (parents node).map depth ≠ [])
      obtain ⟨parent, hparent, hdepth⟩ := List.mem_map.mp hmem
      rw [← hdepth, Nat.add_comm]
      exact succ_mem_chainLengths hparent (h parent hparent).1
    · rintro _ ⟨chain, hchain, rfl⟩
      cases chain with
      | nil => exact Nat.zero_le _
      | cons parent chain =>
          obtain ⟨hparent, hrest⟩ := List.isChain_cons_cons.mp hchain
          have hle : chain.length ≤ depth parent := (h parent hparent).2 ⟨chain, hrest, rfl⟩
          have hmax := le_foldr_max (List.mem_map_of_mem (f := depth) hparent)
          rw [List.length_cons]
          omega

theorem lt_of_reached {first second : κ} {long short : ℕ}
    (h : Relation.TransGen (Above parents) first second)
    (hfirst : IsGreatest (chainLengths parents first) long)
    (hsecond : IsGreatest (chainLengths parents second) short) : short < long := by
  have hlonger : ∀ length ∈ chainLengths parents second,
      ∃ longer ∈ chainLengths parents first, length < longer := by
    intro length hlength
    clear hfirst hsecond
    induction h using Relation.TransGen.head_induction_on with
    | single hparent => exact ⟨length + 1, succ_mem_chainLengths hparent hlength, Nat.lt_succ_self _⟩
    | head hparent _ ih =>
        obtain ⟨longer, hmem, hlt⟩ := ih
        exact ⟨longer + 1, succ_mem_chainLengths hparent hmem, Nat.lt_succ_of_lt hlt⟩
  obtain ⟨longer, hmem, hlt⟩ := hlonger short hsecond.1
  exact lt_of_lt_of_le hlt (hfirst.2 hmem)

theorem reached_of_closed {P : κ → Prop} (hclosed : ∀ node, P node → ∀ parent ∈ parents node, P parent)
    {first second : κ} (hfirst : P first) (h : Relation.TransGen (Above parents) first second) :
    P second := by
  induction h with
  | single hparent => exact hclosed first hfirst _ hparent
  | tail _ hparent ih => exact hclosed _ ih _ hparent

end Chains

end ShortReel.UpstreamChains
